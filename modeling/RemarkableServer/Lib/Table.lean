import Mathlib.Data.List.AList

/-!
# Hash tables

A table keeps one value for each of its keys. What the operations do is told by
what they leave under every key.
-/
namespace Tables

abbrev Table (K V : Type) := AList fun _ : K => V

variable {K V : Type}

namespace Table

/-- `HashMap::retain`. -/
def retain (keep : K → V → Bool) (t : Table K V) : Table K V :=
  ⟨t.entries.filter fun e => keep e.1 e.2, t.nodupKeys.sublist List.filter_sublist⟩

def values (t : Table K V) : List V := t.entries.map (·.2)

/-- Every value is changed in place. -/
def mapValues (f : V → V) (t : Table K V) : Table K V where
  entries := t.entries.map fun e => ⟨e.1, f e.2⟩
  nodupKeys := by
    have hkeys : (t.entries.map fun e => (⟨e.1, f e.2⟩ : Sigma fun _ : K => V)).keys = t.entries.keys := by
      simp [List.keys]
    change (List.keys _).Nodup
    rw [hkeys]
    exact t.nodupKeys

variable [DecidableEq K]

/-- The value of a key is changed in place, if there is one. -/
def modify (k : K) (f : V → V) (t : Table K V) : Table K V :=
  match t.lookup k with
  | some v => t.insert k (f v)
  | none => t

/-- `entry(k).or_insert(v)`. -/
def orInsert (k : K) (v : V) (t : Table K V) : Table K V :=
  match t.lookup k with
  | some _ => t
  | none => t.insert k v

end Table

variable [DecidableEq K]

omit [DecidableEq K] in
theorem entries_retain (keep : K → V → Bool) (t : Table K V) :
    (t.retain keep).entries = t.entries.filter fun e => keep e.1 e.2 := rfl

theorem mem_entries_iff {t : Table K V} {k : K} {v : V} :
    (⟨k, v⟩ : Sigma fun _ : K => V) ∈ t.entries ↔ t.lookup k = some v := AList.mem_lookup_iff.symm

theorem mem_values_iff {t : Table K V} {v : V} : v ∈ t.values ↔ ∃ k, t.lookup k = some v := by
  rw [Table.values, List.mem_map]
  constructor
  · rintro ⟨e, he, rfl⟩
    exact ⟨e.1, mem_entries_iff.mp he⟩
  · rintro ⟨k, hk⟩
    exact ⟨⟨k, v⟩, mem_entries_iff.mpr hk, rfl⟩

theorem lookup_insert (t : Table K V) (k k' : K) (v : V) :
    AList.lookup k' (t.insert k v) = if k' = k then some v else t.lookup k' := by
  by_cases h : k' = k
  · rw [if_pos h, h, AList.lookup_insert]
  · rw [if_neg h, AList.lookup_insert_ne h]

theorem lookup_erase (t : Table K V) (k k' : K) :
    AList.lookup k' (t.erase k) = if k' = k then none else t.lookup k' := by
  by_cases h : k' = k
  · rw [if_pos h, h, AList.lookup_erase]
  · rw [if_neg h, AList.lookup_erase_ne h]

theorem lookup_retain (keep : K → V → Bool) (t : Table K V) (k : K) :
    AList.lookup k (t.retain keep) = (t.lookup k).filter (keep k) := by
  refine Option.ext fun v => ?_
  rw [Option.filter_eq_some_iff, ← mem_entries_iff, ← mem_entries_iff, Table.retain, List.mem_filter]

theorem lookup_modify (t : Table K V) (k k' : K) (f : V → V) :
    AList.lookup k' (t.modify k f) = if k' = k then (t.lookup k).map f else t.lookup k' := by
  unfold Table.modify
  cases h : t.lookup k with
  | none =>
    by_cases hk : k' = k
    · rw [if_pos hk, hk, h, Option.map_none]
    · rw [if_neg hk]
  | some v => rw [lookup_insert, Option.map_some]

theorem lookup_orInsert (t : Table K V) (k k' : K) (v : V) :
    AList.lookup k' (t.orInsert k v) = if k' = k then some ((t.lookup k).getD v) else t.lookup k' := by
  unfold Table.orInsert
  cases h : t.lookup k with
  | none => rw [lookup_insert, Option.getD_none]
  | some w =>
    by_cases hk : k' = k
    · rw [if_pos hk, hk, h, Option.getD_some]
    · rw [if_neg hk]

@[simp] theorem lookup_empty (k : K) : AList.lookup k (∅ : Table K V) = none := AList.lookup_empty k

theorem lookup_mapValues (f : V → V) (t : Table K V) (k : K) :
    AList.lookup k (t.mapValues f) = (t.lookup k).map f := by
  refine Option.ext fun v => ?_
  rw [Option.map_eq_some_iff, ← mem_entries_iff, Table.mapValues, List.mem_map]
  constructor
  · rintro ⟨⟨k', w⟩, he, heq⟩
    cases heq
    exact ⟨w, mem_entries_iff.mp he, rfl⟩
  · rintro ⟨w, hw, rfl⟩
    exact ⟨⟨k, w⟩, mem_entries_iff.mpr hw, rfl⟩

/-! ## What is kept of a changed table -/

theorem erase_eq_self {t : Table K V} {k : K} (h : t.lookup k = none) : t.erase k = t :=
  AList.ext (List.kerase_of_notMem_keys (AList.lookup_eq_none.mp h))

omit [DecidableEq K] in
theorem retain_retain (keep keep' : K → V → Bool) (t : Table K V) :
    (t.retain keep).retain keep' = (t.retain keep').retain keep := by
  refine AList.ext ?_
  simp only [Table.retain, List.filter_filter, Bool.and_comm]

theorem filter_kerase (p : (Sigma fun _ : K => V) → Bool) (k : K) :
    ∀ es : List (Sigma fun _ : K => V), es.NodupKeys → (es.kerase k).filter p = (es.filter p).kerase k
  | [], _ => rfl
  | e :: es, h => by
    rw [List.nodupKeys_cons] at h
    by_cases hk : k = e.1
    · have hnot : k ∉ (es.filter p).keys := fun hmem => h.1 (hk ▸ (List.filter_sublist.map _).subset hmem)
      rw [List.kerase_cons_eq hk, List.filter_cons]
      split
      · rw [List.kerase_cons_eq hk]
      · rw [List.kerase_of_notMem_keys hnot]
    · rw [List.kerase_cons_ne hk, List.filter_cons, List.filter_cons, filter_kerase p k es h.2]
      split
      · rw [List.kerase_cons_ne hk]
      · rfl

theorem retain_erase (keep : K → V → Bool) (t : Table K V) (k : K) :
    Table.retain keep (t.erase k) = (t.retain keep).erase k :=
  AList.ext (filter_kerase _ k t.entries t.nodupKeys)

theorem retain_insert_of_keep {keep : K → V → Bool} (t : Table K V) {k : K} {v : V} (h : keep k v = true) :
    Table.retain keep (t.insert k v) = (t.retain keep).insert k v := by
  refine AList.ext ?_
  rw [entries_retain, AList.entries_insert, AList.entries_insert, List.filter_cons, if_pos h,
    filter_kerase _ k t.entries t.nodupKeys, entries_retain]

/-- A value that is not kept takes away what was kept under its key. -/
theorem retain_insert_of_not {keep : K → V → Bool} (t : Table K V) {k : K} {v : V} (h : keep k v = false) :
    Table.retain keep (t.insert k v) = (t.retain keep).erase k := by
  refine AList.ext ?_
  rw [entries_retain, AList.entries_insert, List.filter_cons, if_neg (by rw [h]; exact Bool.false_ne_true),
    filter_kerase _ k t.entries t.nodupKeys]
  rfl

/-- A change that keeps what is kept. -/
theorem retain_modify {keep : K → V → Bool} (t : Table K V) (k : K) {f : V → V} (h : ∀ v, keep k (f v) = keep k v) :
    (t.modify k f).retain keep = (t.retain keep).modify k f := by
  unfold Table.modify
  rw [lookup_retain]
  cases hv : t.lookup k with
  | none => rfl
  | some v =>
    cases hkeep : keep k v with
    | true =>
      rw [Option.filter_some, if_pos hkeep]
      exact retain_insert_of_keep t ((h v).trans hkeep)
    | false =>
      have hnone : AList.lookup k (t.retain keep) = none := by
        rw [lookup_retain, hv, Option.filter_some, if_neg (by rw [hkeep]; exact Bool.false_ne_true)]
      rw [Option.filter_some, if_neg (by rw [hkeep]; exact Bool.false_ne_true)]
      rw [retain_insert_of_not t ((h v).trans hkeep), erase_eq_self hnone]

omit [DecidableEq K] in
theorem retain_mapValues {keep : K → V → Bool} (t : Table K V) {f : V → V} (h : ∀ k v, keep k (f v) = keep k v) :
    (t.mapValues f).retain keep = (t.retain keep).mapValues f := by
  refine AList.ext ?_
  simp only [Table.retain, Table.mapValues, List.filter_map, Function.comp_def, h]

theorem retain_congr {keep keep' : K → V → Bool} {t : Table K V}
    (h : ∀ k v, t.lookup k = some v → keep k v = keep' k v) : t.retain keep = t.retain keep' :=
  AList.ext (List.filter_congr fun e he => h e.1 e.2 (mem_entries_iff.mp he))

theorem retain_eq_self {keep : K → V → Bool} {t : Table K V} (h : ∀ k v, t.lookup k = some v → keep k v = true) :
    t.retain keep = t :=
  AList.ext (List.filter_eq_self.mpr fun e he => h e.1 e.2 (mem_entries_iff.mp he))

theorem mapValues_eq_self {t : Table K V} {f : V → V} (h : ∀ k v, t.lookup k = some v → f v = v) : t.mapValues f = t := by
  refine AList.ext ?_
  have hsame : ∀ e ∈ t.entries, (⟨e.1, f e.2⟩ : Sigma fun _ : K => V) = id e := by
    rintro ⟨k, v⟩ he
    rw [h k v (mem_entries_iff.mp he)]
    rfl
  exact (List.map_congr_left hsame).trans (List.map_id _)

theorem modify_eq_self {t : Table K V} {k : K} (h : t.lookup k = none) (f : V → V) : t.modify k f = t := by
  rw [Table.modify, h]

/-! ## Tables filled from a list -/

/-- What an item enters is put over what there was under its key. -/
def Table.enter {A : Type} (entry : A → Option (K × V)) (t : Table K V) (a : A) : Table K V :=
  match entry a with
  | some (k, v) => t.insert k v
  | none => t

section
variable {A : Type} {entry : A → Option (K × V)} {items : List A} {k : K} {v : V}

/-- What is found was entered by one of the items, and no later one has its key. -/
theorem lookup_foldl_enter (t : Table K V) (entry : A → Option (K × V)) (items : List A) (k : K) :
    (∃ a ∈ items, ∃ v, entry a = some (k, v) ∧ (items.foldl (Table.enter entry) t).lookup k = some v) ∨
      ((∀ a ∈ items, ∀ v, entry a ≠ some (k, v)) ∧ (items.foldl (Table.enter entry) t).lookup k = t.lookup k) := by
  induction items generalizing t with
  | nil => exact .inr ⟨fun a ha => absurd ha List.not_mem_nil, rfl⟩
  | cons b items ih =>
    rw [List.foldl_cons]
    rcases ih (t.enter entry b) with ⟨a, ha, v, hv, hfound⟩ | ⟨hnone, heq⟩
    · exact .inl ⟨a, List.mem_cons_of_mem b ha, v, hv, hfound⟩
    rw [heq, Table.enter]
    cases hb : entry b with
    | none =>
      refine .inr ⟨List.forall_mem_cons.mpr ⟨fun v => ?_, hnone⟩, rfl⟩
      rw [hb]
      exact fun h => nomatch h
    | some kv =>
      obtain ⟨k', v⟩ := kv
      dsimp only
      rw [lookup_insert]
      by_cases hk : k = k'
      · rw [if_pos hk]
        exact .inl ⟨b, List.mem_cons_self, v, by rw [hb, hk], rfl⟩
      · rw [if_neg hk]
        refine .inr ⟨List.forall_mem_cons.mpr ⟨fun v h => ?_, hnone⟩, rfl⟩
        rw [hb] at h
        cases h
        exact hk rfl

/-- The table of the items of a list. -/
def Table.ofItems (entry : A → Option (K × V)) (items : List A) : Table K V := items.foldl (Table.enter entry) ∅

theorem exists_of_lookup_ofItems (h : (Table.ofItems entry items).lookup k = some v) : ∃ a ∈ items, entry a = some (k, v) := by
  rcases lookup_foldl_enter ∅ entry items k with ⟨a, ha, w, hw, hfound⟩ | ⟨-, heq⟩
  · rw [Table.ofItems, hfound] at h
    cases h
    exact ⟨a, ha, hw⟩
  · rw [Table.ofItems, heq, lookup_empty] at h
    cases h

theorem lookup_ofItems_isSome : ((Table.ofItems entry items).lookup k).isSome = true ↔ ∃ a ∈ items, ∃ v, entry a = some (k, v) := by
  constructor
  · intro h
    obtain ⟨v, hv⟩ := Option.isSome_iff_exists.mp h
    obtain ⟨a, ha, hentry⟩ := exists_of_lookup_ofItems hv
    exact ⟨a, ha, v, hentry⟩
  · rintro ⟨a, ha, v, hentry⟩
    rcases lookup_foldl_enter ∅ entry items k with ⟨-, -, w, -, hfound⟩ | ⟨hnone, -⟩
    · rw [Table.ofItems, hfound]
      rfl
    · exact absurd hentry (hnone a ha v)

/-- Where no two items enter under one key, what is found is what was entered. -/
theorem lookup_ofItems_of_unique (hunique : ∀ a ∈ items, ∀ b ∈ items, ∀ v w, entry a = some (k, v) → entry b = some (k, w) → a = b) :
    (Table.ofItems entry items).lookup k = some v ↔ ∃ a ∈ items, entry a = some (k, v) := by
  refine ⟨exists_of_lookup_ofItems, ?_⟩
  rintro ⟨a, ha, hentry⟩
  obtain ⟨w, hw⟩ := Option.isSome_iff_exists.mp (lookup_ofItems_isSome.mpr ⟨a, ha, v, hentry⟩)
  obtain ⟨b, hb, hbentry⟩ := exists_of_lookup_ofItems hw
  rw [hunique a ha b hb v w hentry hbentry, hbentry] at hentry
  cases hentry
  exact hw

/-- The last item is found. -/
theorem lookup_ofItems_concat {a : A} (h : entry a = some (k, v)) (items : List A) :
    (Table.ofItems entry (items ++ [a])).lookup k = some v := by
  rw [Table.ofItems, List.foldl_append, List.foldl_cons, List.foldl_nil, Table.enter, h]
  exact AList.lookup_insert _

end
end Tables
