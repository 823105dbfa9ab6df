import Mathlib.Logic.Basic

/-!
# Unwinding

Several parties act on one state, and a party sees a view of it. If the view decides what
an action of the party does to it, and the actions of others leave it alone, then what the
party sees after a run is what it sees after its own actions of the run.
-/
namespace Unwinding

variable {σ α υ : Type*} {inv : σ → Prop} {allowed : α → Prop} {step : σ → α → σ} {view : σ → υ} {own : α → Bool}

structure Unwinds (inv : σ → Prop) (allowed : α → Prop) (step : σ → α → σ) (view : σ → υ) (own : α → Bool) : Prop where
  keeps : ∀ s a, inv s → allowed a → inv (step s a)
  decided : ∀ s t a, inv s → inv t → allowed a → own a = true → view s = view t → view (step s a) = view (step t a)
  others : ∀ s a, inv s → allowed a → own a = false → view (step s a) = view s

theorem inv_foldl (h : ∀ s a, inv s → allowed a → inv (step s a)) {s : σ} (hs : inv s) {as : List α}
    (has : ∀ a ∈ as, allowed a) : inv (as.foldl step s) := by
  induction as generalizing s with
  | nil => exact hs
  | cons a as ih =>
    apply ih (h s a hs (has a List.mem_cons_self))
    exact fun b hb => has b (List.mem_cons_of_mem a hb)

theorem Unwinds.view_foldl (h : Unwinds inv allowed step view own) {s t : σ} (hs : inv s) (ht : inv t)
    (hview : view s = view t) {as : List α} (has : ∀ a ∈ as, allowed a) :
    view (as.foldl step s) = view ((as.filter own).foldl step t) := by
  induction as generalizing s t with
  | nil => exact hview
  | cons a as ih =>
    have ha := has a List.mem_cons_self
    have hrest := fun b hb => has b (List.mem_cons_of_mem a hb)
    cases hown : own a with
    | true =>
      rw [List.filter_cons_of_pos hown]
      exact ih (h.keeps s a hs ha) (h.keeps t a ht ha) (h.decided s t a hs ht ha hown hview) hrest
    | false =>
      rw [List.filter_cons_of_neg (by simp [hown])]
      exact ih (h.keeps s a hs ha) ht ((h.others s a hs ha hown).trans hview) hrest

/-- Where no action is the party's own, its view stays. -/
theorem Unwinds.view_others (h : Unwinds inv allowed step view own) {s : σ} (hs : inv s) {as : List α}
    (has : ∀ a ∈ as, allowed a) (hothers : ∀ a ∈ as, own a = false) : view (as.foldl step s) = view s := by
  have hnone : as.filter own = [] := List.filter_eq_nil_iff.mpr fun a ha => by simp [hothers a ha]
  rw [h.view_foldl hs hs rfl has, hnone, List.foldl_nil]

end Unwinding
