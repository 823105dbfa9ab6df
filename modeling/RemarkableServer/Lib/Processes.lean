import Mathlib.Data.List.Perm.Basic

/-!
# Processes of a system

The processes of a system are a list, and a step replaces one of them by the
processes it becomes: it goes on as another, or it ends. What holds of every
process is kept by the others, and a process that is not the one that stepped
is there after the step.
-/
namespace Processes

variable {α : Type*} {procs : List α} {n : Nat} {p : α}

theorem mem_of_getElem? (h : procs[n]? = some p) : p ∈ procs := List.mem_of_getElem? h

/-- A process is the one that stepped or one of the others. -/
theorem eq_or_mem_eraseIdx (h : procs[n]? = some p) {q : α} (hq : q ∈ procs) : q = p ∨ q ∈ procs.eraseIdx n := by
  obtain ⟨i, hi⟩ := List.getElem?_of_mem hq
  by_cases hn : i = n
  · rw [hn, h] at hi
    exact .inl (Option.some.inj hi).symm
  · exact .inr (List.mem_eraseIdx_iff_getElem?.mpr ⟨i, hn, hi⟩)

theorem mem_set_self (h : procs[n]? = some p) (p' : α) : p' ∈ procs.set n p' := by
  obtain ⟨hlt, -⟩ := List.getElem?_eq_some_iff.mp h
  exact List.mem_set hlt p'

/-- A process is the one that stepped, or it is there when that one goes on. -/
theorem eq_or_mem_set (h : procs[n]? = some p) (p' : α) {q : α} (hq : q ∈ procs) : q = p ∨ q ∈ procs.set n p' := by
  obtain ⟨i, hi⟩ := List.getElem?_of_mem hq
  by_cases hn : i = n
  · rw [hn, h] at hi
    exact .inl (Option.some.inj hi).symm
  · refine .inr (List.mem_of_getElem? (i := i) ?_)
    rw [List.getElem?_set_ne fun hni => hn hni.symm, hi]

/-- What holds of every process holds when one of them goes on as one it holds of. -/
theorem forall_set {P : α → Prop} (h : ∀ q ∈ procs, P q) {p' : α} (hp : P p') : ∀ q ∈ procs.set n p', P q := by
  intro q hq
  rcases List.mem_or_eq_of_mem_set hq with hq | rfl
  · exact h q hq
  · exact hp

theorem forall_eraseIdx {P : α → Prop} (h : ∀ q ∈ procs, P q) : ∀ q ∈ procs.eraseIdx n, P q :=
  fun q hq => h q (List.mem_of_mem_eraseIdx hq)

/-! The order of the processes apart, the one that stepped is the first. -/

theorem perm_cons_eraseIdx (h : procs[n]? = some p) : procs.Perm (p :: procs.eraseIdx n) := by
  obtain ⟨hlt, rfl⟩ := List.getElem?_eq_some_iff.mp h
  exact (List.getElem_cons_eraseIdx_perm hlt).symm

theorem set_perm_cons_eraseIdx (h : procs[n]? = some p) (p' : α) : (procs.set n p').Perm (p' :: procs.eraseIdx n) := by
  obtain ⟨hlt, -⟩ := List.getElem?_eq_some_iff.mp h
  exact List.set_perm_cons_eraseIdx hlt p'

end Processes
