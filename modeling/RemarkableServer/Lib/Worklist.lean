import Mathlib.Data.List.Basic

/-!
# A worklist

Items are taken from the front of a queue, and what a step finds goes to its
back, until the queue is empty or a step fails. A run has a bound on its steps;
it is done within the bound when every step that finds something uses up as much
of a measure of the state.
-/
namespace Worklist

variable {ε σ α : Type}

/-- The state when the queue is empty, or the failure of a step; `none` if `n` steps are not enough, or
a step is not done within a bound of its own. -/
def run (step : σ → α → Option (Except ε (σ × List α))) : Nat → σ → List α → Option (Except ε σ)
  | _, s, [] => some (.ok s)
  | 0, _, _ :: _ => none
  | n + 1, s, a :: queue =>
    match step s a with
    | none => none
    | some (.error e) => some (.error e)
    | some (.ok (s', found)) => run step n s' (queue ++ found)

/-- A property of the state and the queue that every step keeps holds at the end. -/
theorem run_invariant {step : σ → α → Option (Except ε (σ × List α))} {inv : σ → List α → Prop}
    (hstep : ∀ s a queue s' found, inv s (a :: queue) → step s a = some (.ok (s', found)) → inv s' (queue ++ found))
    {n : Nat} {s s' : σ} {queue : List α} (h : inv s queue) (hrun : run step n s queue = some (.ok s')) :
    inv s' [] := by
  induction n generalizing s queue with
  | zero =>
    cases queue with
    | nil =>
      cases hrun
      exact h
    | cons a queue => cases hrun
  | succ n ih =>
    cases queue with
    | nil =>
      cases hrun
      exact h
    | cons a queue =>
      rw [run] at hrun
      split at hrun
      · cases hrun
      · cases hrun
      next s₁ found hs => exact ih (hstep s a queue s₁ found h hs) hrun

/-- With steps that are done and a measure that pays for what they find, the run is done after as many
steps as the measure and the queue allow. -/
theorem run_done {step : σ → α → Option (Except ε (σ × List α))} {inv : σ → List α → Prop} {measure : σ → Nat}
    (hstep : ∀ s a queue, inv s (a :: queue) → ∃ s' found, step s a = some (.ok (s', found)) ∧
      inv s' (queue ++ found) ∧ measure s' + found.length ≤ measure s)
    {n : Nat} {s : σ} {queue : List α} (h : inv s queue) (hn : measure s + queue.length ≤ n) :
    ∃ s', run step n s queue = some (.ok s') ∧ inv s' [] := by
  induction n generalizing s queue with
  | zero =>
    cases queue with
    | nil => exact ⟨s, rfl, h⟩
    | cons a queue =>
      rw [List.length_cons] at hn
      omega
  | succ n ih =>
    cases queue with
    | nil => exact ⟨s, rfl, h⟩
    | cons a queue =>
      obtain ⟨s', found, hs, hinv, hmeasure⟩ := hstep s a queue h
      have hlen : measure s' + (queue ++ found).length ≤ n := by
        rw [List.length_append]
        rw [List.length_cons] at hn
        omega
      obtain ⟨t, ht, hend⟩ := ih hinv hlen
      refine ⟨t, ?_, hend⟩
      rw [run, hs]
      exact ht

end Worklist
