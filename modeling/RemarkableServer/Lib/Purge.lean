import RemarkableServer.Lib.Transition

/-!
# Runs without the steps of others

Some actions of a system are a party's own. A view of the states is what concerns
that party. Where its own steps are steps of the views, and the steps of the others
leave the view as it is, the party finds the same in the run that leaves the others out.
-/
namespace Purge

open Transition

variable {σ α : Type*}

/-- One step of a party in its view, and one step of the others, are all there is to show. -/
theorem run_filter {step : σ → α → Option σ} {good : σ → α → Prop} {inv : σ → Prop} {own : α → Bool} {view : σ → σ}
    (hinv : ∀ s a s', inv s → good s a → step s a = some s' → inv s')
    (hown : ∀ s a s', inv s → good s a → own a = true → step s a = some s' → step (view s) a = some (view s'))
    (hother : ∀ s a s', inv s → good s a → own a = false → step s a = some s' → view s' = view s)
    {s s' : σ} {as : List α} (h : inv s) (hgood : AllGood step good s as) (hrun : run step s as = some s') :
    run step (view s) (as.filter own) = some (view s') := by
  induction as generalizing s with
  | nil =>
    cases hrun
    rfl
  | cons a as ih =>
    obtain ⟨s₁, hstep, hrun⟩ := run_cons_eq_some.mp hrun
    have hrest := ih (hinv s a s₁ h hgood.1 hstep) (hgood.2 s₁ hstep) hrun
    cases ha : own a with
    | true =>
      rw [List.filter_cons, if_pos ha]
      exact run_cons_eq_some.mpr ⟨view s₁, hown s a s₁ h hgood.1 ha hstep, hrest⟩
    | false =>
      rw [List.filter_cons, if_neg (by rw [ha]; exact Bool.false_ne_true), ← hother s a s₁ h hgood.1 ha hstep]
      exact hrest

end Purge
