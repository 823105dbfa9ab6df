import Mathlib.Data.List.Sort

/-!
# The head of a sorted union

A stable sort inserts the elements of a list one by one. The first elements of the union of
sorted lists come from the first elements of each.
-/
namespace StableSort

open List

variable {α : Type*} (r : α → α → Prop) [DecidableRel r]

/-- An element that goes before all of a tail is inserted in front of it. -/
theorem orderedInsert_append {x : α} {v : List α} (h : ∀ z ∈ v, r x z) (u : List α) :
    (u ++ v).orderedInsert r x = u.orderedInsert r x ++ v := by
  induction u with
  | nil => cases v with
    | nil => rfl
    | cons z v => simp [h z mem_cons_self]
  | cons b u ih =>
    by_cases hb : r x b
    · simp [hb]
    · simp [hb, ih]

theorem foldr_append_tail {p v : List α} (h : ∀ x ∈ p, ∀ z ∈ v, r x z) (u : List α) :
    p.foldr (orderedInsert r) (u ++ v) = p.foldr (orderedInsert r) u ++ v := by
  induction p with
  | nil => rfl
  | cons x p ih =>
    rw [foldr_cons, foldr_cons, ih fun y hy => h y (mem_cons_of_mem x hy)]
    exact orderedInsert_append r (h x mem_cons_self) _

theorem length_foldr (p u : List α) : (p.foldr (orderedInsert r) u).length = p.length + u.length := by
  induction p with
  | nil => simp
  | cons x p ih =>
    rw [foldr_cons, orderedInsert_length, ih, length_cons]
    omega

/-- What comes first after an insertion is decided by what came first. -/
theorem take_orderedInsert (n : Nat) (x : α) (l : List α) :
    (l.orderedInsert r x).take n = ((l.take n).orderedInsert r x).take n := by
  induction l generalizing n with
  | nil => simp
  | cons b l ih =>
    cases n with
    | zero => simp
    | succ n =>
      by_cases hb : r x b
      · cases n with
        | zero => simp [hb]
        | succ n => simp [hb, take_take]
      · simp [hb, ih n]

theorem take_foldr_congr {n : Nat} {l l' : List α} (h : l.take n = l'.take n) (p : List α) :
    (p.foldr (orderedInsert r) l).take n = (p.foldr (orderedInsert r) l').take n := by
  induction p with
  | nil => exact h
  | cons x p ih => rw [foldr_cons, foldr_cons, take_orderedInsert, ih, ← take_orderedInsert]

section
variable [Std.Total r] [IsTrans α r]

theorem pairwise_foldr {l : List α} (hl : l.Pairwise r) (p : List α) : (p.foldr (orderedInsert r) l).Pairwise r := by
  induction p with
  | nil => exact hl
  | cons x p ih => exact ih.orderedInsert x _

/-- An element after `n` others is not among the first `n`. -/
theorem take_foldr_orderedInsert {p l : List α} {y : α} (hp : ∀ x ∈ p, r x y) (hl : l.Pairwise r) :
    (p.foldr (orderedInsert r) (l.orderedInsert r y)).take p.length = (p.foldr (orderedInsert r) l).take p.length := by
  have hsplit := orderedInsert_eq_take_drop r y l
  have hsorted := hl.orderedInsert y l
  rw [hsplit] at hsorted
  have htail : ∀ z ∈ l.dropWhile (fun b => ¬r y b), r y z := (pairwise_cons.mp (pairwise_append.mp hsorted).2.1).1
  have hrest : ∀ x ∈ p, ∀ z ∈ l.dropWhile (fun b => ¬r y b), r x z := fun x hx z hz =>
    IsTrans.trans x y z (hp x hx) (htail z hz)
  have hhead : ∀ v : List α, (∀ x ∈ p, ∀ z ∈ v, r x z) →
      (p.foldr (orderedInsert r) (l.takeWhile (fun b => ¬r y b) ++ v)).take p.length =
        (p.foldr (orderedInsert r) (l.takeWhile fun b => ¬r y b)).take p.length := by
    intro v hv
    rw [foldr_append_tail r hv, take_append_of_le_length]
    rw [length_foldr]
    omega
  have hall : ∀ x ∈ p, ∀ z ∈ y :: l.dropWhile (fun b => ¬r y b), r x z := by
    intro x hx z hz
    rcases mem_cons.mp hz with rfl | hz
    · exact hp x hx
    · exact hrest x hx z hz
  rw [hsplit, hhead _ hall, ← hhead _ hrest, takeWhile_append_dropWhile]

theorem take_foldr_tail {p q l : List α} (hpq : ∀ x ∈ p, ∀ y ∈ q, r x y) (hl : l.Pairwise r) :
    (p.foldr (orderedInsert r) (q.foldr (orderedInsert r) l)).take p.length = (p.foldr (orderedInsert r) l).take p.length := by
  induction q with
  | nil => rfl
  | cons y q ih =>
    rw [foldr_cons, take_foldr_orderedInsert r (fun x hx => hpq x hx y mem_cons_self) (pairwise_foldr r hl q)]
    exact ih fun x hx z hz => hpq x hx z (mem_cons_of_mem y hz)

theorem take_foldr_take {p l : List α} (hp : p.Pairwise r) (hl : l.Pairwise r) (n : Nat) :
    (p.foldr (orderedInsert r) l).take n = ((p.take n).foldr (orderedInsert r) l).take n := by
  rcases Nat.lt_or_ge p.length n with hn | hn
  · rw [take_of_length_le (Nat.le_of_lt hn)]
  · have hlen : (p.take n).length = n := by simp [hn]
    have hsplit : ∀ x ∈ p.take n, ∀ y ∈ p.drop n, r x y := by
      rw [← take_append_drop n p] at hp
      exact (pairwise_append.mp hp).2.2
    have htail := take_foldr_tail r hsplit hl
    rwa [hlen, ← foldr_append, take_append_drop] at htail

/-- The first `n` of the union of sorted lists come from the first `n` of each. -/
theorem take_insertionSort_flatten {ls : List (List α)} (hls : ∀ l ∈ ls, l.Pairwise r) (n : Nat) :
    (ls.flatten.insertionSort r).take n = ((ls.map (·.take n)).flatten.insertionSort r).take n := by
  induction ls with
  | nil => rfl
  | cons l ls ih =>
    have hrest := ih fun l' hl' => hls l' (mem_cons_of_mem l hl')
    have hsorted : (ls.flatten.insertionSort r).Pairwise r := pairwise_insertionSort r _
    simp only [insertionSort, flatten_cons, map_cons, foldr_append] at hrest hsorted ⊢
    rw [take_foldr_take r (hls l mem_cons_self) hsorted]
    exact take_foldr_congr r hrest _

end

/-- A merge sort inserts one element after another. -/
theorem mergeSort_eq_insertionSort {le : α → α → Bool} (trans : ∀ a b c, le a b → le b c → le a c)
    (total : ∀ a b, le a b || le b a) (l : List α) : l.mergeSort le = l.insertionSort fun a b => le a b = true := by
  induction l with
  | nil => simp
  | cons a l ih =>
    obtain ⟨before, after, hcons, hrest, hbefore⟩ := mergeSort_cons trans total a l
    have hsorted := pairwise_mergeSort trans total (a :: l)
    rw [hcons] at hsorted
    have hafter : ∀ z ∈ after, le a z = true := (pairwise_cons.mp (pairwise_append.mp hsorted).2.1).1
    have hinsert : before.orderedInsert (fun a b => le a b = true) a = before ++ [a] := by
      clear hcons hrest hsorted
      induction before with
      | nil => rfl
      | cons b before ih =>
        have hb : le a b = false := by simpa using hbefore b mem_cons_self
        simp [hb, ih fun z hz => hbefore z (mem_cons_of_mem b hz)]
    rw [insertionSort_cons, ← ih, hrest, orderedInsert_append _ hafter, hinsert, hcons, append_assoc, singleton_append]

/-- The first `n` of sorted lists, sorted together, have the first `n` of all. -/
theorem take_mergeSort_flatten {le : α → α → Bool} (trans : ∀ a b c, le a b → le b c → le a c)
    (total : ∀ a b, le a b || le b a) {ls : List (List α)} (hls : ∀ l ∈ ls, l.Pairwise fun a b => le a b = true) (n : Nat) :
    ((ls.map (·.take n)).flatten.mergeSort le).take n = (ls.flatten.mergeSort le).take n := by
  have htotal : Std.Total fun a b => le a b = true := ⟨fun a b => by simpa using total a b⟩
  have htrans : IsTrans α fun a b => le a b = true := ⟨trans⟩
  rw [mergeSort_eq_insertionSort trans total, mergeSort_eq_insertionSort trans total]
  exact (take_insertionSort_flatten _ hls n).symm

end StableSort
