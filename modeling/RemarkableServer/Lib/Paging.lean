import Mathlib.Data.List.Basic

/-!
# A listing in pages

Each page has some items and either ends the listing or names the next page. The
pages are read in turn and their items joined; a page that names one that was
read already is an error, so a listing whose pages go round does not end in a
shorter list. The number of pages that are read has a bound.
-/
namespace Paging

variable {ε α δ L : Type} [DecidableEq L]

/-- The items of all pages from `link` on and what the last page ends with; `none` if there are more
than `n` pages. -/
def collect (fetch : L → Except ε (List α × (δ ⊕ L))) (follow : L → Except ε L) (repeated : L → ε) :
    Nat → List L → L → List α → Option (Except ε (List α × δ))
  | 0, _, _, _ => none
  | n + 1, used, link, items =>
    match fetch link with
    | .error e => some (.error e)
    | .ok (more, .inl last) => some (.ok (items ++ more, last))
    | .ok (more, .inr next) =>
      if next ∈ used then some (.error (repeated next))
      else match follow next with
      | .error e => some (.error e)
      | .ok link => collect fetch follow repeated n (next :: used) link (items ++ more)

/-- The pages from `link` on hold these items; no page is named twice. -/
inductive Served (fetch : L → Except ε (List α × (δ ⊕ L))) (follow : L → Except ε L) (last : δ) :
    Nat → List L → L → List α → Prop where
  | last {used : List L} {link : L} {items : List α} (h : fetch link = .ok (items, .inl last)) :
      Served fetch follow last 1 used link items
  | more {n : Nat} {used : List L} {link link' next : L} {items rest : List α}
      (h : fetch link = .ok (items, .inr next)) (hnew : next ∉ used) (hfollow : follow next = .ok link')
      (hrest : Served fetch follow last n (next :: used) link' rest) :
      Served fetch follow last (n + 1) used link (items ++ rest)

/-- The items of the pages are collected, whatever pages they are on. -/
theorem collect_served {fetch : L → Except ε (List α × (δ ⊕ L))} {follow : L → Except ε L} (repeated : L → ε)
    {last : δ} {k : Nat} {used : List L} {link : L} {items : List α} (h : Served fetch follow last k used link items)
    {n : Nat} (hn : k ≤ n) (before : List α) :
    collect fetch follow repeated n used link before = some (.ok (before ++ items, last)) := by
  induction h generalizing n before with
  | last h =>
    obtain ⟨m, rfl⟩ := Nat.exists_eq_add_of_le' hn
    rw [collect, h]
  | more h hnew hfollow _ ih =>
    obtain ⟨m, rfl⟩ := Nat.exists_eq_add_of_le' (Nat.le_of_add_left_le hn)
    rw [collect, h]
    dsimp only
    rw [if_neg hnew, hfollow]
    dsimp only
    rw [ih (Nat.le_of_succ_le_succ hn), List.append_assoc]

end Paging
