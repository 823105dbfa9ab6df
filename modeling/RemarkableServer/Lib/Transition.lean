import Mathlib.Data.Option.Basic

/-!
# Runs of a transition system

A system is a partial step function on states. A run is a list of actions that
are all enabled, one after the other; an invariant of the steps is an invariant
of the runs, and a condition on single steps lifts to the runs that keep to it.
-/
namespace Transition

variable {σ α : Type*}

/-- The state after a list of actions, if each is enabled where it is taken. -/
def run (step : σ → α → Option σ) : σ → List α → Option σ
  | s, [] => some s
  | s, a :: as => (step s a).bind fun s' => run step s' as

/-- Every action of the list meets `good` in the state it is taken from. -/
def AllGood (step : σ → α → Option σ) (good : σ → α → Prop) : σ → List α → Prop
  | _, [] => True
  | s, a :: as => good s a ∧ ∀ s' ∈ step s a, AllGood step good s' as

/-- Whether a concrete list of actions keeps to a decidable condition can be computed. -/
def decidableAllGood (step : σ → α → Option σ) (good : σ → α → Prop) [∀ s a, Decidable (good s a)] :
    (s : σ) → (as : List α) → Decidable (AllGood step good s as)
  | _, [] => .isTrue trivial
  | s, a :: as =>
    have (s' : σ) : Decidable (AllGood step good s' as) := decidableAllGood step good s' as
    inferInstanceAs (Decidable (good s a ∧ ∀ s' ∈ step s a, AllGood step good s' as))

instance (step : σ → α → Option σ) (good : σ → α → Prop) [∀ s a, Decidable (good s a)] (s : σ) (as : List α) :
    Decidable (AllGood step good s as) := decidableAllGood step good s as

theorem run_cons_eq_some {step : σ → α → Option σ} {s s' : σ} {a : α} {as : List α} :
    run step s (a :: as) = some s' ↔ ∃ s₁, step s a = some s₁ ∧ run step s₁ as = some s' := by
  rw [run, Option.bind_eq_some_iff]

/-- An invariant of the good steps holds after every run that takes only good steps. -/
theorem invariant_of_allGood {step : σ → α → Option σ} {good : σ → α → Prop} {inv : σ → Prop}
    (hstep : ∀ s a s', inv s → good s a → step s a = some s' → inv s') {s s' : σ} {as : List α}
    (h : inv s) (hgood : AllGood step good s as) (hrun : run step s as = some s') : inv s' := by
  induction as generalizing s with
  | nil =>
    cases hrun
    exact h
  | cons a as ih =>
    obtain ⟨s₁, h₁, hrun⟩ := run_cons_eq_some.mp hrun
    exact ih (hstep s a s₁ h hgood.1 h₁) (hgood.2 s₁ h₁) hrun

theorem AllGood.and {step : σ → α → Option σ} {good good' : σ → α → Prop} {s : σ} {as : List α}
    (h : AllGood step good s as) (h' : AllGood step good' s as) : AllGood step (fun s a => good s a ∧ good' s a) s as := by
  induction as generalizing s with
  | nil => trivial
  | cons a as ih => exact ⟨⟨h.1, h'.1⟩, fun s' hs' => ih (h.2 s' hs') (h'.2 s' hs')⟩

/-- A condition on the actions alone. -/
theorem allGood_of_forall {step : σ → α → Option σ} {p : α → Prop} {s : σ} {as : List α} (h : ∀ a ∈ as, p a) :
    AllGood step (fun _ a => p a) s as := by
  induction as generalizing s with
  | nil => trivial
  | cons a as ih => exact ⟨h a List.mem_cons_self, fun s' _ => ih fun b hb => h b (List.mem_cons_of_mem a hb)⟩

theorem allGood_true (step : σ → α → Option σ) (s : σ) (as : List α) :
    AllGood step (fun _ _ => True) s as := allGood_of_forall fun _ _ => trivial

/-- An invariant of the steps holds after every run. -/
theorem invariant_of_step {step : σ → α → Option σ} {inv : σ → Prop}
    (hstep : ∀ s a s', inv s → step s a = some s' → inv s') {s s' : σ} {as : List α}
    (h : inv s) (hrun : run step s as = some s') : inv s' :=
  invariant_of_allGood (fun s a s' hs _ => hstep s a s' hs) h (allGood_true step s as) hrun

end Transition
