import Mathlib.Data.List.Basic
import Mathlib.Data.List.Infix

/-!
# Searching and replacing in a list

The first place where a list contains another one, and the replacement of every such place from the
left on. A place that begins inside one that was replaced does not count.
-/
namespace TextSearch

variable {α : Type} [DecidableEq α]

/-- What stands before the first place where a list contains another one, and what stands after it. -/
def splitFirst (needle : List α) : List α → Option (List α × List α)
  | [] => if needle = [] then some ([], []) else none
  | a :: t =>
    if needle <+: a :: t then some ([], (a :: t).drop needle.length)
    else (splitFirst needle t).map fun parts => (a :: parts.1, parts.2)

/-- `skip` is how much is left of a place that was replaced. -/
def replaceFrom (pat rep : List α) : Nat → List α → List α
  | _, [] => []
  | skip + 1, _ :: t => replaceFrom pat rep skip t
  | 0, a :: t => if pat <+: a :: t then rep ++ replaceFrom pat rep (pat.length - 1) t else a :: replaceFrom pat rep 0 t

/-- Replacement of a list that is not empty. -/
def replace (pat rep t : List α) : List α := replaceFrom pat rep 0 t

/-! ## Splitting -/

theorem splitFirst_eq_some {needle t before after : List α} (h : splitFirst needle t = some (before, after)) :
    t = before ++ needle ++ after := by
  induction t generalizing before with
  | nil =>
    rw [splitFirst] at h
    split at h
    next hneedle =>
      cases h
      rw [hneedle]
      rfl
    · cases h
  | cons a t ih =>
    rw [splitFirst] at h
    split at h
    next hpre =>
      cases h
      rw [List.nil_append]
      exact (List.prefix_iff_eq_append.mp hpre).symm
    · obtain ⟨⟨before', after'⟩, hparts, heq⟩ := Option.map_eq_some_iff.mp h
      cases heq
      rw [ih hparts]
      rfl

theorem splitFirst_eq_none_iff {needle t : List α} : splitFirst needle t = none ↔ ¬ needle <:+: t := by
  induction t with
  | nil => simp [splitFirst]
  | cons a t ih =>
    rw [splitFirst, List.infix_cons_iff]
    by_cases h : needle <+: a :: t
    · simp [h]
    · simp [h, ih]

theorem splitFirst_isSome_iff {needle t : List α} : (splitFirst needle t).isSome = true ↔ needle <:+: t := by
  rw [← not_iff_not, ← splitFirst_eq_none_iff, Bool.not_eq_true, Option.isSome_eq_false_iff, Option.isNone_iff_eq_none]

omit [DecidableEq α] in
/-- What begins with a mark is not contained before the first one. -/
theorem infix_append_iff {a : α} {w u : List α} (h : a ∉ u) (t : List α) : a :: w <:+: u ++ t ↔ a :: w <:+: t := by
  induction u with
  | nil => rw [List.nil_append]
  | cons b u ih =>
    rw [List.cons_append, List.infix_cons_iff, ih fun hmem => h (List.mem_cons_of_mem b hmem), or_iff_right]
    intro hpre
    exact h ((List.cons_prefix_cons.mp hpre).1 ▸ List.mem_cons_self)

omit [DecidableEq α] in
theorem eq_of_mark {x y z z' : List α} {q : α} (hx : q ∉ x) (hy : q ∉ y) (h : x ++ q :: z = y ++ q :: z') : x = y := by
  induction x generalizing y with
  | nil =>
    cases y with
    | nil => rfl
    | cons b y => exact absurd ((List.cons.inj h).1 ▸ List.mem_cons_self) hy
  | cons a x ih =>
    cases y with
    | nil => exact absurd ((List.cons.inj h).1 ▸ List.mem_cons_self) hx
    | cons b y =>
      obtain ⟨rfl, htail⟩ := List.cons.inj h
      rw [ih (fun h => hx (List.mem_cons_of_mem a h)) (fun h => hy (List.mem_cons_of_mem a h)) htail]

/-- A list that ends at a mark is contained up to the first mark, or not before the second. -/
theorem splitFirst_marked {w a b : List α} {q : α} (ha : q ∉ a) (hw : q ∉ w) (hne : w ≠ []) :
    splitFirst (w ++ [q]) (a ++ q :: b) =
      if w <:+ a then some (a.take (a.length - w.length), b)
      else (splitFirst (w ++ [q]) b).map fun parts => (a ++ q :: parts.1, parts.2) := by
  have hpre : ∀ {a : List α}, q ∉ a → (w ++ [q] <+: a ++ q :: b ↔ w = a) := by
    intro a ha
    constructor
    · rintro ⟨t, ht⟩
      rw [List.append_assoc, List.singleton_append] at ht
      exact eq_of_mark hw ha ht
    · rintro rfl
      exact ⟨b, by rw [List.append_assoc, List.singleton_append]⟩
  induction a with
  | nil =>
    have hsuffix : ¬ w <:+ [] := by rwa [List.suffix_nil]
    have hnot : ¬ w ++ [q] <+: q :: b := by
      rw [← List.nil_append (q :: b), hpre List.not_mem_nil]
      exact hne
    rw [List.nil_append, splitFirst, if_neg hnot, if_neg hsuffix]
    rfl
  | cons c a ih =>
    have ha' : q ∉ a := fun h => ha (List.mem_cons_of_mem c h)
    rw [List.cons_append, splitFirst, ← List.cons_append]
    by_cases heq : w = c :: a
    · rw [if_pos ((hpre ha).mpr heq), heq, if_pos List.suffix_rfl, Nat.sub_self, List.take_zero]
      simp
    · rw [if_neg (mt (hpre ha).mp heq), ih ha']
      by_cases hsuffix : w <:+ a
      · have hlen := hsuffix.length_le
        rw [if_pos hsuffix, if_pos (List.suffix_cons_iff.mpr (.inr hsuffix)), Option.map_some, List.length_cons,
          Nat.succ_sub hlen, List.take_succ_cons]
      · rw [if_neg hsuffix, if_neg (fun h => (List.suffix_cons_iff.mp h).elim heq hsuffix), Option.map_map]
        rfl

/-- Nothing that ends at a mark is contained where there is no mark. -/
theorem splitFirst_unmarked {w a : List α} {q : α} (ha : q ∉ a) : splitFirst (w ++ [q]) a = none := by
  rw [splitFirst_eq_none_iff]
  intro h
  exact ha (h.subset (List.mem_append_right w (List.mem_singleton_self q)))

/-- The text up to the first mark. -/
theorem splitFirst_mark {a b : List α} {q : α} (ha : q ∉ a) : splitFirst [q] (a ++ q :: b) = some (a, b) := by
  induction a with
  | nil => simp [splitFirst]
  | cons c a ih =>
    have hc : q ≠ c := fun h => ha (h ▸ List.mem_cons_self)
    rw [List.cons_append, splitFirst, ih fun h => ha (List.mem_cons_of_mem c h), if_neg (by simp [hc])]
    rfl

/-! ## Replacing -/

section
variable {pat rep : List α}

@[simp] theorem replace_nil : replace pat rep [] = [] := rfl

theorem replaceFrom_append (u t : List α) : replaceFrom pat rep u.length (u ++ t) = replace pat rep t := by
  induction u with
  | nil =>
    rw [replace]
    rfl
  | cons a u ih =>
    rw [List.length_cons, List.cons_append, replaceFrom]
    exact ih

theorem replace_append {w : List α} {a : α} (t : List α) : replace (a :: w) rep (a :: (w ++ t)) = rep ++ replace (a :: w) rep t := by
  have hpre : a :: w <+: a :: (w ++ t) := ⟨t, rfl⟩
  rw [replace, replaceFrom, if_pos hpre, List.length_cons, Nat.add_sub_cancel, replaceFrom_append]

theorem replace_cons_of_not {a : α} {t : List α} (h : ¬ pat <+: a :: t) : replace pat rep (a :: t) = a :: replace pat rep t := by
  rw [replace, replaceFrom, if_neg h]
  rfl

/-- One element is replaced wherever it stands. -/
theorem replace_singleton (c : α) (rep t : List α) :
    replace [c] rep t = t.flatMap fun d => if d = c then rep else [d] := by
  induction t with
  | nil => rfl
  | cons d t ih =>
    rw [List.flatMap_cons, ← ih]
    by_cases h : d = c
    · rw [if_pos h, h]
      exact replace_append t
    · rw [if_neg h, replace_cons_of_not (by simpa using Ne.symm h)]
      rfl

theorem replace_skip {a : α} {w u : List α} (h : a ∉ u) (t : List α) :
    replace (a :: w) rep (u ++ t) = u ++ replace (a :: w) rep t := by
  induction u with
  | nil => rfl
  | cons b u ih =>
    have hab : a ≠ b := fun heq => h (heq ▸ List.mem_cons_self)
    rw [List.cons_append, replace_cons_of_not (fun hpre => hab (List.cons_prefix_cons.mp hpre).1),
      ih fun hmem => h (List.mem_cons_of_mem b hmem)]
    rfl

/-- Where the pattern is not contained nothing changes, and else the list gets shorter if the replacement is. -/
theorem replace_cases (hne : pat ≠ []) (hlen : rep.length < pat.length) (t : List α) :
    (¬ pat <:+: t ∧ replace pat rep t = t) ∨ (pat <:+: t ∧ (replace pat rep t).length < t.length) := by
  obtain ⟨a, w, rfl⟩ := List.exists_cons_of_ne_nil hne
  induction hn : t.length using Nat.strong_induction_on generalizing t with
  | _ n ih =>
  cases t with
  | nil => exact .inl ⟨by simp, rfl⟩
  | cons b t =>
    by_cases h : a :: w <+: b :: t
    · obtain ⟨rest, hrest⟩ := h
      obtain ⟨rfl, rfl⟩ := List.cons.inj hrest
      refine .inr ⟨⟨[], rest, rfl⟩, ?_⟩
      have hshort : (replace (a :: w) rep rest).length ≤ rest.length := by
        have hlt : rest.length < n := by
          rw [← hn, ← hrest, List.length_append, List.length_cons]
          omega
        rcases ih rest.length hlt rest rfl with h | h
        · rw [h.2]
        · exact h.2.le
      rw [← hn]
      change (replace (a :: w) rep (a :: (w ++ rest))).length < (a :: (w ++ rest)).length
      rw [replace_append]
      simp only [List.length_append, List.length_cons] at hlen ⊢
      omega
    · rw [replace_cons_of_not h, List.infix_cons_iff]
      rcases ih t.length (by rw [← hn]; simp) t rfl with ⟨hnot, heq⟩ | ⟨hinf, hlt⟩
      · exact .inl ⟨fun h' => h'.elim h hnot, by rw [heq]⟩
      · refine .inr ⟨.inr hinf, ?_⟩
        rw [← hn, List.length_cons, List.length_cons]
        omega

/-- What the text with the replacements holds comes from the text or from the replacement. -/
theorem mem_replace {c : α} {t : List α} (h : c ∈ replace pat rep t) : c ∈ rep ∨ c ∈ t := by
  have hfrom : ∀ (t : List α) (skip : Nat), c ∈ replaceFrom pat rep skip t → c ∈ rep ∨ c ∈ t := by
    intro t
    induction t with
    | nil =>
      intro skip h
      cases skip <;> exact absurd h List.not_mem_nil
    | cons a t ih =>
      intro skip h
      cases skip with
      | succ skip => exact (ih skip h).imp_right (List.mem_cons_of_mem a)
      | zero =>
        rw [replaceFrom] at h
        split at h
        · rcases List.mem_append.mp h with h | h
          · exact .inl h
          · exact (ih _ h).imp_right (List.mem_cons_of_mem a)
        · rcases List.mem_cons.mp h with rfl | h
          · exact .inr List.mem_cons_self
          · exact (ih 0 h).imp_right (List.mem_cons_of_mem a)
  exact hfrom t 0 h

end

/-! ## Escapes -/

/-- A table gives what stands after the mark for the elements that are escaped. -/
def escape (mark : α) : List (α × List α) → α → List α
  | [], a => [a]
  | (c, w) :: table, a => if a = c then mark :: w else escape mark table a

section
variable {mark a c : α} {w : List α} {table : List (α × List α)}

theorem escape_of_not_mem (h : a ∉ table.map Prod.fst) : escape mark table a = [a] := by
  induction table with
  | nil => rfl
  | cons entry table ih =>
    rw [List.map_cons, List.mem_cons, not_or] at h
    rw [escape, if_neg h.1, ih h.2]

/-- An element that is not escaped, or an escape from the table. -/
theorem escape_cases (mark a : α) (table : List (α × List α)) :
    escape mark table a = [a] ∨ ∃ entry ∈ table, entry.1 = a ∧ escape mark table a = mark :: entry.2 := by
  induction table with
  | nil => exact .inl rfl
  | cons entry table ih =>
    by_cases h : a = entry.1
    · exact .inr ⟨entry, List.mem_cons_self, h.symm, by rw [escape, if_pos h]⟩
    · rw [escape, if_neg h]
      exact ih.imp_right fun ⟨e, he, h⟩ => ⟨e, List.mem_cons_of_mem entry he, h⟩

theorem exists_escape (h : a ∈ table.map Prod.fst) : ∃ entry ∈ table, escape mark table a = mark :: entry.2 := by
  induction table with
  | nil => exact absurd h List.not_mem_nil
  | cons entry table ih =>
    by_cases heq : a = entry.1
    · exact ⟨entry, List.mem_cons_self, by rw [escape, if_pos heq]⟩
    · obtain ⟨e, he, h⟩ := ih ((List.mem_cons.mp h).resolve_left heq)
      exact ⟨e, List.mem_cons_of_mem entry he, by rw [escape, if_neg heq, h]⟩

/-- A text without escaped elements is found where it was. -/
theorem prefix_flatMap_escape {u s : List α} (hmark : mark ∉ u) (hkeys : ∀ a ∈ u, a ∉ table.map Prod.fst) :
    u <+: s.flatMap (escape mark table) ↔ u <+: s := by
  induction u generalizing s with
  | nil => simp
  | cons a u ih =>
    cases s with
    | nil => simp
    | cons b s =>
      have hmark' : mark ≠ a := fun h => hmark (h ▸ List.mem_cons_self)
      have htail := ih (s := s) (fun h => hmark (List.mem_cons_of_mem a h)) fun x hx => hkeys x (List.mem_cons_of_mem a hx)
      rw [List.flatMap_cons]
      rcases escape_cases mark b table with h | ⟨entry, hentry, hkey, h⟩
      · rw [h, List.singleton_append, List.cons_prefix_cons, List.cons_prefix_cons, htail]
      · have hab : a ≠ b := by
          rintro rfl
          exact hkeys a List.mem_cons_self (List.mem_map.mpr ⟨entry, hentry, hkey⟩)
        rw [h, List.cons_append, List.cons_prefix_cons, List.cons_prefix_cons]
        simp [hmark'.symm, hab]

/-- So is one at the end, where the escapes end in other elements. -/
theorem suffix_flatMap_escape {u s : List α} (hkeys : ∀ a ∈ u, a ∉ table.map Prod.fst)
    (hlast : ∀ entry ∈ table, ∀ z, (mark :: entry.2).getLast? = some z → z ∉ u) :
    u <:+ s.flatMap (escape mark table) ↔ u <:+ s := by
  induction u using List.reverseRecOn generalizing s with
  | nil => simp
  | append_singleton u a ih =>
    rcases List.eq_nil_or_concat s with rfl | ⟨s, b, rfl⟩
    · simp
    rw [List.concat_eq_append]
    have htail := ih (s := s) (fun x hx => hkeys x (List.mem_append_left _ hx)) fun entry he z hz hmem =>
      hlast entry he z hz (List.mem_append_left _ hmem)
    have ha : a ∈ u ++ [a] := List.mem_append_right u (List.mem_singleton_self a)
    rw [List.flatMap_append, List.flatMap_singleton]
    rcases escape_cases mark b table with h | ⟨entry, hentry, hkey, h⟩
    · rw [h, List.suffix_concat_iff, List.suffix_concat_iff]
      simp [htail]
    · obtain ⟨v, z, hz⟩ := (List.eq_nil_or_concat (mark :: entry.2)).resolve_left (List.cons_ne_nil _ _)
      rw [List.concat_eq_append] at hz
      have haz : a ≠ z := by
        rintro rfl
        exact hlast entry hentry a (by rw [hz]; simp) ha
      have hab : a ≠ b := by
        rintro rfl
        exact hkeys a ha (List.mem_map.mpr ⟨entry, hentry, hkey⟩)
      rw [h, hz, ← List.append_assoc, List.suffix_concat_iff, List.suffix_concat_iff]
      simp [haz, hab]

omit [DecidableEq α] in
theorem plain_of_keys {u : List α} (hkeys : ∀ entry ∈ table, entry.1 ∉ u) : ∀ a ∈ u, a ∉ table.map Prod.fst := by
  intro a ha hkey
  obtain ⟨entry, hentry, rfl⟩ := List.mem_map.mp hkey
  exact hkeys entry hentry ha

theorem flatMap_escape_of_plain {u : List α} (hkeys : ∀ a ∈ u, a ∉ table.map Prod.fst) : u.flatMap (escape mark table) = u := by
  induction u with
  | nil => rfl
  | cons a u ih =>
    rw [List.flatMap_cons, escape_of_not_mem (hkeys a List.mem_cons_self), ih fun x hx => hkeys x (List.mem_cons_of_mem a hx)]
    rfl

/-- An escaped element is gone. -/
theorem not_mem_escape {x : α} (hkey : x ∈ table.map Prod.fst) (hx : ∀ entry ∈ table, x ∉ mark :: entry.2) (s : List α) :
    x ∉ s.flatMap (escape mark table) := by
  intro h
  obtain ⟨b, -, hb⟩ := List.mem_flatMap.mp h
  rcases escape_cases mark b table with heq | ⟨entry, hentry, -, heq⟩
  · rw [heq, List.mem_singleton] at hb
    obtain ⟨entry, hentry, hxe⟩ := exists_escape hkey
    rw [← hb, hxe] at heq
    exact hx entry hentry (by rw [heq]; exact List.mem_singleton_self x)
  · exact hx entry hentry (heq ▸ hb)

/-- An element that has no part in the escapes is where it was. -/
theorem mem_escape_iff {x : α} (hkey : x ∉ table.map Prod.fst) (hx : ∀ entry ∈ table, x ∉ mark :: entry.2) {s : List α} :
    x ∈ s.flatMap (escape mark table) ↔ x ∈ s := by
  constructor
  · intro h
    obtain ⟨b, hb, hxb⟩ := List.mem_flatMap.mp h
    rcases escape_cases mark b table with heq | ⟨entry, hentry, -, heq⟩
    · rw [heq, List.mem_singleton] at hxb
      rwa [hxb]
    · exact absurd (heq ▸ hxb) (hx entry hentry)
  · intro h
    exact List.mem_flatMap.mpr ⟨x, h, by rw [escape_of_not_mem hkey]; exact List.mem_singleton_self x⟩

/-- What the other escapes of a table must be for one to be told from them. -/
def ApartFrom (mark a : α) (table : List (α × List α)) : Prop :=
  ∀ entry ∈ table, entry.2.head? ≠ none ∧ entry.2.head? ≠ some a ∧ mark ∉ entry.2

instance (mark a : α) (table : List (α × List α)) : Decidable (ApartFrom mark a table) :=
  inferInstanceAs (Decidable (∀ _ ∈ _, _))

/-- An escape is not found within another one. -/
theorem replace_other {rep t : List α} {entry : α × List α} (hapart : ApartFrom mark a table) (hentry : entry ∈ table) :
    replace (mark :: a :: w) rep (mark :: entry.2 ++ t) = mark :: entry.2 ++ replace (mark :: a :: w) rep t := by
  obtain ⟨hnone, hhead, hmark⟩ := hapart entry hentry
  obtain ⟨b, v, hv⟩ := List.exists_cons_of_ne_nil (List.head?_eq_none_iff.not.mp hnone)
  rw [hv, List.head?_cons, ne_eq, Option.some.injEq] at hhead
  have hnot : ¬ mark :: a :: w <+: mark :: (entry.2 ++ t) := by
    rw [hv, List.cons_append, List.cons_prefix_cons, List.cons_prefix_cons]
    rintro ⟨-, h, -⟩
    exact hhead h.symm
  rw [List.cons_append, replace_cons_of_not hnot, replace_skip hmark]
  rfl

/-- The escape of the mark itself is put back first, and nothing else changes. -/
theorem replace_escape_mark (hmark : mark ∉ table.map Prod.fst) (hapart : ApartFrom mark a table) (s : List α) :
    replace (mark :: a :: w) [mark] (s.flatMap (escape mark ((mark, a :: w) :: table))) = s.flatMap (escape mark table) := by
  induction s with
  | nil => rfl
  | cons b s ih =>
    rw [List.flatMap_cons, List.flatMap_cons, escape]
    by_cases hb : b = mark
    · rw [if_pos hb, hb, escape_of_not_mem hmark, ← ih]
      exact replace_append _
    · rw [if_neg hb, ← ih]
      rcases escape_cases mark b table with h | ⟨entry, hentry, -, h⟩
      · rw [h]
        exact replace_skip (by simpa using Ne.symm hb) _
      · rw [h, replace_other hapart hentry]

/-- The escape of another element is put back, and so is what looked like it in the text. -/
theorem replace_escape (hmark : mark ∉ ((c, a :: w) :: table).map Prod.fst) (hapart : ApartFrom mark a table)
    (hmarkw : mark ∉ a :: w) (hkeys : ∀ entry ∈ (c, a :: w) :: table, entry.1 ∉ a :: w) (hc : c ∉ table.map Prod.fst)
    (s : List α) :
    replace (mark :: a :: w) [c] (s.flatMap (escape mark ((c, a :: w) :: table))) =
      (replace (mark :: a :: w) [c] s).flatMap (escape mark table) := by
  have hplain := plain_of_keys hkeys
  have hmarkc : mark ≠ c := fun h => hmark (h ▸ List.mem_cons_self)
  induction hn : s.length using Nat.strong_induction_on generalizing s with
  | _ n ih =>
  cases s with
  | nil => rfl
  | cons b s =>
    have hs := ih s.length (by rw [← hn]; simp) s rfl
    rw [List.flatMap_cons]
    by_cases hb : b = c
    · have hnot : ¬ mark :: a :: w <+: b :: s := fun h => hmarkc ((List.cons_prefix_cons.mp h).1.trans hb)
      rw [replace_cons_of_not hnot, List.flatMap_cons, ← hs, hb, escape_of_not_mem hc, escape, if_pos rfl]
      exact replace_append _
    rcases escape_cases mark b ((c, a :: w) :: table) with h | ⟨entry, hentry, hkey, h⟩
    · have hb' : escape mark table b = [b] := by rwa [escape, if_neg hb] at h
      rw [h, List.singleton_append]
      by_cases hpre : mark :: a :: w <+: b :: s
      · obtain ⟨rfl, rest, rfl⟩ := List.cons_prefix_cons.mp hpre
        have hrest := ih rest.length (by rw [← hn]; simp; omega) rest rfl
        rw [List.flatMap_append, flatMap_escape_of_plain hplain, replace_append, hrest]
        change _ = (replace _ _ (mark :: (a :: w ++ rest))).flatMap _
        rw [replace_append, List.flatMap_append, List.flatMap_singleton, escape_of_not_mem hc]
      · have hnot : ¬ mark :: a :: w <+: b :: s.flatMap (escape mark ((c, a :: w) :: table)) := by
          rw [List.cons_prefix_cons] at hpre ⊢
          rintro ⟨rfl, hfound⟩
          exact hpre ⟨rfl, (prefix_flatMap_escape hmarkw hplain).mp hfound⟩
        rw [replace_cons_of_not hnot, replace_cons_of_not hpre, hs, List.flatMap_cons, hb']
        rfl
    · have hentry' : entry ∈ table := by
        rcases List.mem_cons.mp hentry with rfl | hentry
        · exact absurd hkey.symm hb
        · exact hentry
      have hbmark : b ≠ mark := by
        rintro rfl
        exact hmark (List.mem_map.mpr ⟨entry, hentry, hkey⟩)
      have hnot : ¬ mark :: a :: w <+: b :: s := fun h' => hbmark (List.cons_prefix_cons.mp h').1.symm
      have hb' : escape mark table b = mark :: entry.2 := by rwa [escape, if_neg hb] at h
      rw [h, replace_other hapart hentry', hs, replace_cons_of_not hnot, List.flatMap_cons, hb']

end
end TextSearch
