import Mathlib.Data.List.Sort

/-!
# Sorting by a key, each key once

`sort_unstable_by_key` followed by `dedup_by_key`.
-/
namespace SortDedup

variable {T : Type}

/-- `dedup_by_key`: one of each run of equal keys. -/
def dedupBy (key : T → Int) : List T → List T
  | [] => []
  | a :: rest =>
    match dedupBy key rest with
    | [] => [a]
    | b :: kept => if key a = key b then a :: kept else a :: b :: kept

def sortedBy (key : T → Int) (items : List T) : List T :=
  dedupBy key (items.insertionSort (key · ≤ key ·))

theorem dedupBy_head (key : T → Int) (a : T) (rest : List T) :
    ∃ kept, dedupBy key (a :: rest) = a :: kept := by
  rw [dedupBy]
  split
  · exact ⟨[], rfl⟩
  · split
    · exact ⟨_, rfl⟩
    · exact ⟨_, rfl⟩

theorem mem_of_mem_dedupBy {key : T → Int} {a : T} {items : List T} (h : a ∈ dedupBy key items) : a ∈ items := by
  induction items generalizing a with
  | nil => exact h
  | cons b rest ih =>
    rw [dedupBy] at h
    split at h
    · rw [List.mem_singleton.mp h]
      exact List.mem_cons_self
    next c kept hkept =>
      have hc : ∀ x ∈ c :: kept, x ∈ rest := fun x hx => ih (hkept ▸ hx)
      split at h
      · rcases List.mem_cons.mp h with rfl | h
        · exact List.mem_cons_self
        · exact List.mem_cons_of_mem _ (hc a (List.mem_cons_of_mem _ h))
      · rcases List.mem_cons.mp h with rfl | h
        · exact List.mem_cons_self
        · exact List.mem_cons_of_mem _ (hc a h)

theorem pairwise_dedupBy {key : T → Int} {items : List T} (h : items.Pairwise (key · ≤ key ·)) :
    (dedupBy key items).Pairwise (key · < key ·) := by
  induction items with
  | nil => exact List.Pairwise.nil
  | cons a rest ih =>
    obtain ⟨ha, hrest⟩ := List.pairwise_cons.mp h
    have hkept := ih hrest
    rw [dedupBy]
    split
    · exact List.pairwise_singleton _ a
    next b kept hb =>
      rw [hb] at hkept
      obtain ⟨hlt, hpairs⟩ := List.pairwise_cons.mp hkept
      have hb' : b ∈ dedupBy key rest := hb ▸ List.mem_cons_self
      have hle : key a ≤ key b := ha b (mem_of_mem_dedupBy hb')
      split
      next heq => exact List.pairwise_cons.mpr ⟨fun c hc => heq ▸ hlt c hc, hpairs⟩
      next hne =>
        refine List.pairwise_cons.mpr ⟨fun c hc => ?_, hkept⟩
        rcases List.mem_cons.mp hc with rfl | hc
        · exact lt_of_le_of_ne hle hne
        · exact lt_of_le_of_lt hle (hlt c hc)

theorem pairwise_sortedBy (key : T → Int) (items : List T) : (sortedBy key items).Pairwise (key · < key ·) :=
  have : Std.Total (α := T) (key · ≤ key ·) := ⟨fun a b => le_total (key a) (key b)⟩
  have : IsTrans T (key · ≤ key ·) := ⟨fun _ _ _ => le_trans⟩
  pairwise_dedupBy (List.pairwise_insertionSort (key · ≤ key ·) items)

theorem mem_of_mem_sortedBy {key : T → Int} {a : T} {items : List T} (h : a ∈ sortedBy key items) : a ∈ items :=
  (List.mem_insertionSort _).mp (mem_of_mem_dedupBy h)

/-- Each key of the items is left once. -/
theorem exists_key_dedupBy {key : T → Int} {a : T} {items : List T} (h : a ∈ items) :
    ∃ b ∈ dedupBy key items, key b = key a := by
  induction items with
  | nil => cases h
  | cons c rest ih =>
    obtain ⟨kept, hkept⟩ := dedupBy_head key c rest
    rcases List.mem_cons.mp h with rfl | h
    · exact ⟨a, hkept ▸ List.mem_cons_self, rfl⟩
    · obtain ⟨b, hb, hkey⟩ := ih h
      rw [dedupBy]
      split
      next hnil =>
        rw [hnil] at hb
        cases hb
      next b' kept' hsome =>
        rw [hsome] at hb
        split
        next hsame =>
          rcases List.mem_cons.mp hb with rfl | hb
          · exact ⟨c, List.mem_cons_self, hsame.trans hkey⟩
          · exact ⟨b, List.mem_cons_of_mem _ hb, hkey⟩
        · exact ⟨b, List.mem_cons_of_mem _ hb, hkey⟩

/-- With a key that tells items apart, every item is left. -/
theorem mem_sortedBy {key : T → Int} (hkey : Function.Injective key) {a : T} {items : List T} :
    a ∈ sortedBy key items ↔ a ∈ items := by
  constructor
  · exact mem_of_mem_sortedBy
  · intro h
    obtain ⟨b, hb, heq⟩ := exists_key_dedupBy ((List.mem_insertionSort (key · ≤ key ·)).mpr h)
    have hsame : b = a := hkey heq
    rw [← hsame]
    exact hb

/-- The place of an item is the number of those before it. -/
theorem length_filter_le {key : T → Int} {items : List T} (h : items.Pairwise (key · < key ·)) {i : Nat} {a : T}
    (ha : items[i]? = some a) : (items.filter fun b => key b ≤ key a).length = i + 1 := by
  induction items generalizing i with
  | nil => simp at ha
  | cons b rest ih =>
    obtain ⟨hb, hrest⟩ := List.pairwise_cons.mp h
    cases i with
    | zero =>
      simp only [List.getElem?_cons_zero, Option.some.injEq] at ha
      subst ha
      have hnone : rest.filter (fun c => key c ≤ key b) = [] := by
        rw [List.filter_eq_nil_iff]
        intro c hc
        simpa using hb c hc
      simp [hnone]
    | succ i =>
      rw [List.getElem?_cons_succ] at ha
      have hlt := hb a (List.mem_of_getElem? ha)
      simp [hlt.le, ih hrest ha]

/-- Its place from the end is the number of those after it. -/
theorem length_filter_ge {key : T → Int} {items : List T} (h : items.Pairwise (key · < key ·)) {i : Nat} {a : T}
    (ha : items[i]? = some a) : (items.filter fun b => key a ≤ key b).length = items.length - i := by
  induction items generalizing i with
  | nil => simp at ha
  | cons b rest ih =>
    obtain ⟨hb, hrest⟩ := List.pairwise_cons.mp h
    cases i with
    | zero =>
      simp only [List.getElem?_cons_zero, Option.some.injEq] at ha
      subst ha
      have hall : rest.filter (fun c => key b ≤ key c) = rest := by
        rw [List.filter_eq_self]
        intro c hc
        simpa using (hb c hc).le
      simp [hall]
    | succ i =>
      rw [List.getElem?_cons_succ] at ha
      have hlt := hb a (List.mem_of_getElem? ha)
      simp [not_le.mpr hlt, ih hrest ha]

/-- `sort_unstable_by_key` of items with different keys: any order of the items gives the same. -/
theorem insertionSort_eq_of_perm {O : Type} [LinearOrder O] {key : T → O} {items sorted : List T}
    (hsorted : sorted.Pairwise (key · < key ·)) (hperm : items.Perm sorted) :
    items.insertionSort (key · ≤ key ·) = sorted := by
  have : Std.Total (α := T) (key · ≤ key ·) := ⟨fun a b => le_total (key a) (key b)⟩
  have : IsTrans T (key · ≤ key ·) := ⟨fun _ _ _ => le_trans⟩
  have hsort := List.perm_insertionSort (key · ≤ key ·) items
  have hkeys : (sorted.map key).Nodup := by
    rw [List.Nodup, List.pairwise_map]
    exact hsorted.imp ne_of_lt
  apply List.Perm.eq_of_pairwise _ (List.pairwise_insertionSort (key · ≤ key ·) items) (hsorted.imp le_of_lt)
    (hsort.trans hperm)
  intro a b ha hb hab hba
  have ha' : a ∈ sorted := (hsort.trans hperm).subset ha
  exact List.inj_on_of_nodup_map hkeys ha' hb (le_antisymm hab hba)

end SortDedup
