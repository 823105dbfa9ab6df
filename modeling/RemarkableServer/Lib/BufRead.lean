import Mathlib.Data.List.Basic

/-!
# Lines of a stream that arrives in pieces

A stream comes as the pieces that reads of it bring, none of them empty. A line ends with
the first element that stops it, or with the stream. Reading at most so many elements of a
line gives the same whatever the pieces are.
-/
namespace BufRead

variable {α : Type} (stop : α → Bool)

/-! ## Lines -/

/-- The first line, with the element that ends it. -/
def line : List α → List α
  | [] => []
  | x :: xs => if stop x then [x] else x :: line xs

/-- The lines one after the other; only the last may be without an end. -/
def cut : List α → List (List α)
  | [] => []
  | x :: xs =>
    if stop x then [x] :: cut xs
    else
      match cut xs with
      | [] => [[x]]
      | l :: ls => (x :: l) :: ls

/-- Whether the last element ends a line. -/
def ends (l : List α) : Bool := l.getLast?.any stop

variable {stop} {x : α} {xs l : List α}

theorem line_cons_stop (h : stop x = true) : line stop (x :: xs) = [x] := if_pos h

theorem line_cons (h : stop x = false) : line stop (x :: xs) = x :: line stop xs := by
  rw [line, h, if_neg Bool.false_ne_true]

@[simp] theorem line_eq_nil : line stop xs = [] ↔ xs = [] := by
  cases xs with
  | nil => simp [line]
  | cons x xs => by_cases h : stop x <;> simp [line, h]

theorem line_isPrefix (stop : α → Bool) (xs : List α) : line stop xs <+: xs := by
  induction xs with
  | nil => exact List.prefix_refl _
  | cons x xs ih =>
    by_cases h : stop x = true
    · rw [line_cons_stop h]
      exact List.prefix_append [x] xs
    · rw [line_cons (Bool.eq_false_iff.mpr h)]
      exact List.prefix_cons_inj x |>.mpr ih

@[simp] theorem cut_nil : cut stop [] = [] := rfl

theorem cut_cons_stop (h : stop x = true) : cut stop (x :: xs) = [x] :: cut stop xs := if_pos h

theorem cut_eq (h : xs ≠ []) : cut stop xs = line stop xs :: cut stop (xs.drop (line stop xs).length) := by
  induction xs with
  | nil => exact absurd rfl h
  | cons x xs ih =>
    by_cases hx : stop x = true
    · rw [cut_cons_stop hx, line_cons_stop hx]
      rfl
    · rw [line_cons (Bool.eq_false_iff.mpr hx), cut, if_neg hx, List.length_cons, List.drop_succ_cons]
      cases xs with
      | nil => rfl
      | cons y ys => rw [ih (List.cons_ne_nil _ _)]

/-- The lines are all of the stream. -/
theorem flatten_cut (stop : α → Bool) (xs : List α) : (cut stop xs).flatten = xs := by
  induction xs with
  | nil => rfl
  | cons x xs ih =>
    by_cases hx : stop x = true
    · rw [cut_cons_stop hx, List.flatten_cons, ih]
      rfl
    · rw [cut, if_neg hx]
      cases hcut : cut stop xs with
      | nil => rw [hcut] at ih; simp [← ih]
      | cons l ls => rw [hcut] at ih; simpa using ih

/-- The part of a line up to its end stops only there. -/
theorem line_append (h : ∀ x ∈ l, stop x = false) (xs : List α) : line stop (l ++ xs) = l ++ line stop xs := by
  induction l with
  | nil => rfl
  | cons x l ih =>
    rw [List.cons_append, line_cons (h x List.mem_cons_self), ih fun y hy => h y (List.mem_cons_of_mem x hy)]
    rfl

/-- No element of a line but the last ends it. -/
theorem stop_of_append_line {p q : List α} (h : line stop xs = p ++ q) (hq : q ≠ []) : ∀ x ∈ p, stop x = false := by
  induction xs generalizing p with
  | nil =>
    have hnil : p ++ q = [] := h.symm
    exact absurd (List.append_eq_nil_iff.mp hnil).2 hq
  | cons x xs ih =>
    cases p with
    | nil => exact fun _ hx => nomatch hx
    | cons y p =>
      by_cases hx : stop x = true
      · rw [line_cons_stop hx, List.cons_append] at h
        have hnil : [] = p ++ q := (List.cons.inj h).2
        exact absurd (List.append_eq_nil_iff.mp hnil.symm).2 hq
      · have hx := Bool.eq_false_iff.mpr hx
        rw [line_cons hx, List.cons_append] at h
        obtain ⟨rfl, hrest⟩ := List.cons.inj h
        exact List.forall_mem_cons.mpr ⟨hx, ih hrest⟩

/-- A line without an end is the whole stream. -/
theorem eq_of_not_ends (h : ends stop (line stop xs) = false) : line stop xs = xs := by
  induction xs with
  | nil => rfl
  | cons x xs ih =>
    by_cases hx : stop x = true
    · rw [line_cons_stop hx] at h
      simp [ends, hx] at h
    · have hx := Bool.eq_false_iff.mpr hx
      rw [line_cons hx] at h ⊢
      rw [ih]
      cases xs with
      | nil => rfl
      | cons y ys =>
        have hne : line stop (y :: ys) ≠ [] := by simp
        simpa [ends, List.getLast?_cons, List.getLast?_eq_getLast_of_ne_nil hne] using h

/-! ## Pieces -/

/-- What a read brings. -/
def Chunk (α : Type) := { c : List α // c ≠ [] }

/-- The reads still to come. -/
abbrev Arrivals (α : Type) := List (Chunk α)

namespace Arrivals

def flat (s : Arrivals α) : List α := (s.map Subtype.val).flatten

/-- What is left of a read that was taken in part. -/
def putBack (c : List α) (s : Arrivals α) : Arrivals α := if h : c = [] then s else ⟨c, h⟩ :: s

@[simp] theorem flat_nil : flat ([] : Arrivals α) = [] := rfl

@[simp] theorem flat_cons (c : Chunk α) (s : Arrivals α) : flat (c :: s) = c.1 ++ flat s := rfl

@[simp] theorem flat_putBack (c : List α) (s : Arrivals α) : flat (putBack c s) = c ++ flat s := by
  unfold putBack
  split
  next h => rw [h, List.nil_append]
  next => rfl

/-- `take(limit)` and `read_until`: up to `limit` elements, and none after one that stops. -/
def readUntil (stop : α → Bool) : Nat → Arrivals α → List α × Arrivals α
  | _, [] => ([], [])
  | limit, c :: s =>
    if limit = 0 then ([], c :: s)
    else
      let available := c.1.take limit
      let read := line stop available
      if ends stop read || decide (available.length < c.1.length) then (read, putBack (c.1.drop read.length) s)
      else
        let (more, s) := readUntil stop (limit - read.length) s
        (read ++ more, s)

end Arrivals

/-- A line of a list goes on in what follows it, unless it has ended. -/
theorem line_append_of_ends (h : ends stop (line stop xs) = true) (ys : List α) :
    line stop (xs ++ ys) = line stop xs := by
  induction xs with
  | nil => simp [line, ends] at h
  | cons x xs ih =>
    by_cases hx : stop x = true
    · rw [List.cons_append, line_cons_stop hx, line_cons_stop hx]
    · have hx := Bool.eq_false_iff.mpr hx
      rw [line_cons hx] at h
      rw [List.cons_append, line_cons hx, line_cons hx]
      congr 1
      cases xs with
      | nil => simp [line, ends, hx] at h
      | cons y ys =>
        have hne : line stop (y :: ys) ≠ [] := by simp
        exact ih (by simpa [ends, List.getLast?_cons, List.getLast?_eq_getLast_of_ne_nil hne] using h)

theorem not_stop_of_not_ends (h : ends stop (line stop xs) = false) : ∀ x ∈ xs, stop x = false := by
  induction xs with
  | nil => exact fun _ hx => nomatch hx
  | cons x xs ih =>
    by_cases hx : stop x = true
    · rw [line_cons_stop hx] at h
      simp [ends, hx] at h
    · have hx := Bool.eq_false_iff.mpr hx
      refine List.forall_mem_cons.mpr ⟨hx, ?_⟩
      rw [line_cons hx] at h
      cases xs with
      | nil => exact fun _ hx => nomatch hx
      | cons y ys =>
        have hne : line stop (y :: ys) ≠ [] := by simp
        exact ih (by simpa [ends, List.getLast?_cons, List.getLast?_eq_getLast_of_ne_nil hne] using h)

/-- The first elements of the line are the line of the first elements. -/
theorem line_take (stop : α → Bool) (n : Nat) (xs : List α) : line stop (xs.take n) = (line stop xs).take n := by
  induction xs generalizing n with
  | nil => simp [line]
  | cons x xs ih =>
    cases n with
    | zero => simp [line]
    | succ n =>
      by_cases hx : stop x = true
      · rw [List.take_succ_cons, line_cons_stop hx, line_cons_stop hx, List.take_succ_cons, List.take_nil]
      · have hx := Bool.eq_false_iff.mpr hx
        rw [List.take_succ_cons, line_cons hx, line_cons hx, List.take_succ_cons, ih]

/-- What is read depends on the stream alone: the first `limit` elements of its line. -/
theorem readUntil_spec (stop : α → Bool) (limit : Nat) (s : Arrivals α) :
    (s.readUntil stop limit).1 = (line stop s.flat).take limit ∧
      (s.readUntil stop limit).2.flat = s.flat.drop (s.readUntil stop limit).1.length := by
  induction s generalizing limit with
  | nil => simp [Arrivals.readUntil, line]
  | cons c s ih =>
    rw [Arrivals.readUntil]
    split
    case isTrue hzero => simp [hzero]
    case isFalse hpos =>
      have htake : (Arrivals.flat (c :: s)).take limit = c.1.take limit ++ (Arrivals.flat s).take (limit - c.1.length) := by
        rw [Arrivals.flat_cons, List.take_append]
      have hread := line_isPrefix stop (c.1.take limit)
      have hlength := hread.length_le
      rw [List.length_take] at hlength
      dsimp only
      rw [← line_take, htake]
      split
      case isTrue hlast =>
        have hsame : line stop (c.1.take limit ++ (Arrivals.flat s).take (limit - c.1.length)) = line stop (c.1.take limit) := by
          by_cases hends : ends stop (line stop (c.1.take limit)) = true
          · exact line_append_of_ends hends _
          · have hshort : limit < c.1.length := by
              simp only [hends, Bool.false_or, decide_eq_true_eq, List.length_take] at hlast
              omega
            rw [Nat.sub_eq_zero_of_le (Nat.le_of_lt hshort), List.take_zero, List.append_nil]
        refine ⟨hsame.symm, ?_⟩
        dsimp only
        rw [Arrivals.flat_putBack, Arrivals.flat_cons, List.drop_append_of_le_length (by omega)]
      case isFalse hmore =>
        simp only [Bool.or_eq_true, decide_eq_true_eq, not_or, Bool.not_eq_true, List.length_take] at hmore
        obtain ⟨hends, hwhole⟩ := hmore
        have hall : c.1.take limit = c.1 := List.take_of_length_le (by omega)
        rw [hall] at hends ⊢
        have hc : line stop c.1 = c.1 := eq_of_not_ends hends
        obtain ⟨hmore, hrest⟩ := ih (limit - c.1.length)
        rw [hc]
        dsimp only
        constructor
        · rw [line_append (not_stop_of_not_ends hends), line_take, hmore]
        · rw [hrest, Arrivals.flat_cons, List.length_append, ← List.drop_drop, List.drop_left]

end BufRead
