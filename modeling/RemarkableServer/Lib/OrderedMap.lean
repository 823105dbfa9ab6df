import Mathlib.Data.List.Lex
import Mathlib.Order.Compare
import Mathlib.Order.Lattice
import Std.Data.TreeMap

/-!
# Ordered maps

A `BTreeMap`: a tree map over a linear order, the keys from a bound on, and what the
keys with a prefix are in the order of texts.
-/
namespace OrderedMap

variable {K V : Type} [LinearOrder K]

def order (a b : K) : Ordering := compareOfLessAndEq a b

instance : Std.TransCmp (order (K := K)) :=
  Std.TransOrd.compareOfLessAndEq_of_antisymm_of_trans_of_total_of_not_le le_antisymm le_trans le_total not_le

theorem order_eq_lt {a b : K} : order a b = .lt ↔ a < b := compareOfLessAndEq_eq_lt

theorem order_eq_eq {a b : K} : order a b = .eq ↔ a = b := compareOfLessAndEq_eq_eq le_refl not_le

instance : Std.LawfulEqCmp (order (K := K)) where
  compare_self := order_eq_eq.mpr rfl
  eq_of_compare := order_eq_eq.mp

/-- `BTreeMap`. -/
abbrev BTree (K V : Type) [LinearOrder K] := Std.TreeMap K V order

/-- The keys of `range(low..)`. -/
def keysFrom (m : BTree K V) (low : K) : List K := m.keys.dropWhile (· < low)

/-- The values in the order of their keys. -/
def intoValues (m : BTree K V) : List V := m.toList.map (·.2)

def removeAll (m : BTree K V) (gone : List K) : BTree K V := gone.foldl (·.erase ·) m

theorem lookup_insert (m : BTree K V) (k q : K) (v : V) : (m.insert k v)[q]? = if k = q then some v else m[q]? := by
  rw [Std.TreeMap.getElem?_insert]
  simp only [order_eq_eq]

theorem lookup_erase (m : BTree K V) (k q : K) : (m.erase k)[q]? = if k = q then none else m[q]? := by
  rw [Std.TreeMap.getElem?_erase]
  simp only [order_eq_eq]

theorem lookup_removeAll (m : BTree K V) (gone : List K) (q : K) :
    (removeAll m gone)[q]? = if q ∈ gone then none else m[q]? := by
  induction gone generalizing m with
  | nil => simp [removeAll]
  | cons k gone ih =>
    have hstep : removeAll m (k :: gone) = removeAll (m.erase k) gone := rfl
    rw [hstep, ih, lookup_erase]
    by_cases hq : q ∈ gone
    · simp [hq]
    · by_cases hk : k = q
      · simp [hk]
      · have hk' : q ≠ k := Ne.symm hk
        simp [hq, hk, hk']

theorem mem_intoValues {m : BTree K V} {v : V} : v ∈ intoValues m ↔ ∃ k : K, m[k]? = some v := by
  simp [intoValues, Std.TreeMap.mem_toList_iff_getElem?_eq_some]

/-- Values that tell their keys come once each. -/
theorem nodup_intoValues {m : BTree K V} (key : V → Option K) (h : ∀ (k : K) v, m[k]? = some v → key v = some k) :
    (intoValues m).Nodup := by
  have hkeys := Std.TreeMap.distinct_keys_toList (t := m)
  rw [intoValues, List.Nodup, List.pairwise_map]
  apply List.Pairwise.imp_of_mem _ hkeys
  intro a b ha hb hne heq
  have hka := h a.1 a.2 (Std.TreeMap.mem_toList_iff_getElem?_eq_some.mp ha)
  have hkb := h b.1 b.2 (Std.TreeMap.mem_toList_iff_getElem?_eq_some.mp hb)
  have hab : a.1 = b.1 := Option.some.inj (hka.symm.trans (heq ▸ hkb))
  exact hne (order_eq_eq.mpr hab)

/-! ## Ranges -/

/-- In an ordered list, the first run of what a convex property holds of is all of it. -/
theorem takeWhile_dropWhile_of_convex {p : K → Bool} {low : K} (hlow : ∀ k, p k → low ≤ k)
    (hconvex : ∀ k k', low ≤ k → k ≤ k' → p k' → p k) {keys : List K} (hsorted : keys.Pairwise (· < ·)) :
    (keys.dropWhile (· < low)).takeWhile p = keys.filter p := by
  induction keys with
  | nil => rfl
  | cons k keys ih =>
    obtain ⟨hk, hkeys⟩ := List.pairwise_cons.mp hsorted
    by_cases hklow : k < low
    · have hpk : ¬p k := fun hp => absurd (hlow k hp) (not_le.mpr hklow)
      rw [List.dropWhile_cons_of_pos (by simpa using hklow), ih hkeys, List.filter_cons_of_neg hpk]
    · have hle : low ≤ k := not_lt.mp hklow
      have hrest : keys.dropWhile (· < low) = keys := by
        cases keys with
        | nil => rfl
        | cons k' keys' =>
          have hk' : low ≤ k' := hle.trans (hk k' (by simp)).le
          rw [List.dropWhile_cons_of_neg (by simpa using hk')]
      rw [hrest] at ih
      rw [List.dropWhile_cons_of_neg (by simpa using hle)]
      by_cases hpk : p k
      · rw [List.takeWhile_cons_of_pos hpk, List.filter_cons_of_pos hpk, ih hkeys]
      · have hnone : keys.filter p = [] := by
          rw [List.filter_eq_nil_iff]
          intro k' hk' hp
          exact hpk (hconvex k k' hle (hk k' hk').le hp)
        rw [List.takeWhile_cons_of_neg hpk, List.filter_cons_of_neg hpk, hnone]

theorem keys_sorted (m : BTree K V) : m.keys.Pairwise (· < ·) := by
  have h := Std.TreeMap.ordered_keys (t := m)
  simpa only [order_eq_lt] using h

/-- `range(low..).take_while(p)` of a convex property is all that it holds of. -/
theorem lookup_removeAll_range {p : K → Bool} {low : K} (hlow : ∀ k, p k → low ≤ k)
    (hconvex : ∀ k k', low ≤ k → k ≤ k' → p k' → p k) (m : BTree K V) (q : K) :
    (removeAll m ((keysFrom m low).takeWhile p))[q]? = if p q then none else m[q]? := by
  rw [lookup_removeAll, keysFrom, takeWhile_dropWhile_of_convex hlow hconvex (keys_sorted m)]
  by_cases hp : p q
  · by_cases hmem : q ∈ m
    · simp [hp, hmem]
    · simp [hp, hmem]
  · simp [hp]

/-! ## Texts -/

variable {A : Type} [LinearOrder A]

theorem cons_le_cons_iff {a b : A} {s t : List A} : a :: s ≤ b :: t ↔ a < b ∨ a = b ∧ s ≤ t := by
  rw [← not_lt, List.cons_lt_cons_iff, ← not_lt (a := t)]
  constructor
  · intro h
    rcases lt_trichotomy a b with hab | hab | hab
    · exact .inl hab
    · exact .inr ⟨hab, fun hts => h (.inr ⟨hab.symm, hts⟩)⟩
    · exact absurd (.inl hab) h
  · rintro (hab | ⟨hab, hts⟩) (hba | ⟨hba, hts'⟩)
    · exact absurd hba (not_lt.mpr hab.le)
    · exact absurd hab (by simp [hba])
    · exact absurd hba (by simp [hab])
    · exact hts hts'

theorem nil_le (s : List A) : [] ≤ s := by
  rw [← not_lt]
  exact List.not_lt_nil s

theorem le_of_isPrefix {s k : List A} (h : s <+: k) : s ≤ k := by
  induction s generalizing k with
  | nil => exact nil_le k
  | cons a s ih =>
    obtain ⟨t, rfl⟩ := h
    rw [List.cons_append, cons_le_cons_iff]
    exact .inr ⟨rfl, ih (List.prefix_append s t)⟩

/-- What stands between a text and a longer one that starts with it starts with it. -/
theorem isPrefix_of_between {s k k' : List A} (h : s ≤ k) (h' : k ≤ k') (hp : s <+: k') : s <+: k := by
  induction s generalizing k k' with
  | nil => simp
  | cons a s ih =>
    obtain ⟨t, rfl⟩ := hp
    cases k with
    | nil => exact absurd h (not_le.mpr (List.nil_lt_cons a s))
    | cons b k =>
      rw [List.cons_append, cons_le_cons_iff] at h'
      rw [cons_le_cons_iff] at h
      rcases h with hab | ⟨rfl, hsk⟩
      · rcases h' with hba | ⟨rfl, -⟩
        · exact absurd hba (not_lt.mpr hab.le)
        · exact absurd hab (lt_irrefl _)
      · rcases h' with haa | ⟨-, hkt⟩
        · exact absurd haa (lt_irrefl _)
        · simpa using ih hsk hkt (List.prefix_append s t)

end OrderedMap
