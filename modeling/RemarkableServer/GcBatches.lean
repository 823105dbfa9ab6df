import RemarkableServer.LiveSet

/-!
# What a collection removes

The deletions of a collection, blob by blob, batch by batch and as a whole: only
candidates that pass the checks of their batch, and nothing but their files, rows
and parses. The candidates are what the plan did not find live.
-/
namespace GcBatches

open RustText SyncIndex Store Projection LiveSet

/-- `p` comes from `s` by removing the hashes of its report: candidates, neither roots nor versions,
with a row last used at the cutoff or before. -/
structure Removes (candidates : List Text) (cutoff : Int) (s : State) (p : State × State.GcReport) : Prop where
  root : p.1.root = s.root
  versions : p.1.versions = s.versions
  removed : ∀ h ∈ p.2.hashes, h ∈ candidates ∧ h ≠ s.root.hash ∧ h ≠ s.root.previousHash ∧ h ∉ s.versions
  old : ∀ h ∈ p.2.hashes, ∃ row, s.blobs.lookup h = some row ∧ row.updatedAt ≤ cutoff
  gone : ∀ h ∈ p.2.hashes, p.1.files.lookup h = none
  kept : ∀ h, h ∉ p.2.hashes → p.1.files.lookup h = s.files.lookup h
  rows : ∀ h row, p.1.blobs.lookup h = some row → s.blobs.lookup h = some row
  current : ∀ h, current s h = true → current p.1 h = true

theorem removes_start (candidates : List Text) (cutoff : Int) (s : State) (report : State.GcReport)
    (h : report.hashes = []) : Removes candidates cutoff s (s, report) where
  root := rfl
  versions := rfl
  removed := by rw [h]; exact fun _ hk => nomatch hk
  old := by rw [h]; exact fun _ hk => nomatch hk
  gone := by rw [h]; exact fun _ hk => nomatch hk
  kept := fun _ _ => rfl
  rows := fun _ _ => id
  current := fun _ => id

/-- The rest of a report is of no consequence. -/
theorem Removes.of_hashes_eq {candidates : List Text} {cutoff : Int} {s : State} {p : State × State.GcReport}
    (h : Removes candidates cutoff s p) (report : State.GcReport) (he : report.hashes = p.2.hashes) :
    Removes candidates cutoff s (p.1, report) where
  root := h.root
  versions := h.versions
  removed := by rw [he]; exact h.removed
  old := by rw [he]; exact h.old
  gone := by rw [he]; exact h.gone
  kept := by rw [he]; exact h.kept
  rows := h.rows
  current := h.current

theorem removes_gcBlob {candidates : List Text} {plan : State.GcPlan} {s : State} {p : State × State.GcReport}
    (unremovable : List Text) {hash : Text} (h : Removes candidates plan.cutoff s p) (hmem : hash ∈ candidates) :
    Removes candidates plan.cutoff s (State.gcBlob plan unremovable p hash) := by
  unfold State.gcBlob
  dsimp only
  split
  · exact h.of_hashes_eq _ rfl
  next hroot =>
    split
    · exact h.of_hashes_eq _ rfl
    next row hrow =>
      split
      · exact h.of_hashes_eq _ rfl
      next hold =>
        split
        · exact h.of_hashes_eq _ rfl
        simp only [not_or, h.root, h.versions] at hroot
        simp only [not_or, not_lt] at hold
        have mem : ∀ {k : Text}, k ∈ p.2.hashes ++ [hash] → k ∈ p.2.hashes ∨ k = hash := by
          intro k hk
          rcases List.mem_append.mp hk with hk | hk
          · exact .inl hk
          · exact .inr (List.mem_singleton.mp hk)
        refine ⟨h.root, h.versions, ?_, ?_, ?_, ?_, ?_, ?_⟩
        · intro k hk
          rcases mem hk with hk | rfl
          · exact h.removed k hk
          · exact ⟨hmem, hroot⟩
        · intro k hk
          rcases mem hk with hk | rfl
          · exact h.old k hk
          · exact ⟨row, h.rows k row hrow, hold.1⟩
        · intro k hk
          change (p.1.files.erase hash).lookup k = none
          rw [lookup_erase_ite]
          split
          · rfl
          next hne => exact h.gone k ((mem hk).resolve_right hne)
        · intro k hk
          simp only [List.mem_append, List.mem_singleton, not_or] at hk
          exact (AList.lookup_erase_ne hk.2).trans (h.kept k hk.1)
        · intro k r hr
          change (p.1.blobs.erase hash).lookup k = some r at hr
          rw [lookup_erase_ite] at hr
          split at hr
          · cases hr
          · exact h.rows k r hr
        · intro k hk
          by_cases hkh : k = hash
          · subst hkh
            exact faithful_of_no_row (AList.lookup_erase _ _)
          · exact (faithful_congr (s := p.1) (AList.lookup_erase_ne hkh) (AList.lookup_erase_ne hkh)).trans
              (h.current k hk)

theorem removes_gcBatch {candidates : List Text} {plan : State.GcPlan} {s : State} {p : State × State.GcReport}
    (unremovable : List Text) {batch : List Text} (h : Removes candidates plan.cutoff s p)
    (hsub : ∀ k ∈ batch, k ∈ candidates) :
    Removes candidates plan.cutoff s (State.gcBatch plan unremovable p.1 p.2 batch) := by
  have fold : ∀ (batch : List Text) (p : State × State.GcReport), Removes candidates plan.cutoff s p →
      (∀ k ∈ batch, k ∈ candidates) →
        Removes candidates plan.cutoff s (batch.foldl (State.gcBlob plan unremovable) p) := by
    intro batch
    induction batch with
    | nil => exact fun p hp _ => hp
    | cons k batch ih =>
      intro p hp hsub
      exact ih _ (removes_gcBlob unremovable hp (hsub k List.mem_cons_self))
        fun j hj => hsub j (List.mem_cons_of_mem k hj)
  unfold State.gcBatch
  split
  · exact h.of_hashes_eq _ rfl
  · exact fold batch p h hsub

theorem removes_gcBatches {candidates : List Text} {plan : State.GcPlan} {s : State} (unremovable : List Text)
    (batches : List (List Text)) (p : State × State.GcReport) (h : Removes candidates plan.cutoff s p)
    (hsub : ∀ batch ∈ batches, ∀ k ∈ batch, k ∈ candidates) :
    Removes candidates plan.cutoff s (State.gcBatches plan unremovable batches p) := by
  induction batches generalizing p with
  | nil => exact h
  | cons batch rest ih =>
    have h₁ := removes_gcBatch unremovable h (hsub batch List.mem_cons_self)
    unfold State.gcBatches
    dsimp only
    split
    · exact h₁
    · exact ih _ h₁ fun b hb => hsub b (List.mem_cons_of_mem batch hb)

theorem mem_of_mem_chunks {α : Type} {n fuel : Nat} {l piece : List α} (h : piece ∈ State.chunks n fuel l)
    {a : α} (ha : a ∈ piece) : a ∈ l := by
  induction fuel generalizing l with
  | zero => cases h
  | succ fuel ih =>
    cases l with
    | nil => cases h
    | cons b l =>
      rcases List.mem_cons.mp h with rfl | h
      · exact List.mem_of_mem_take ha
      · exact List.mem_of_mem_drop (ih h)

theorem mem_candidates_of_mem_batches {plan : State.GcPlan} {batch : List Text} (h : batch ∈ plan.batches) :
    ∀ k ∈ batch, k ∈ plan.candidates := fun _ hk => mem_of_mem_chunks h hk

theorem removes_gcExecute {s s' : State} {plan : State.GcPlan} {unremovable : List Text} {report : State.GcReport}
    (h : s.gcExecute plan false unremovable = (s', .ok report)) :
    Removes plan.candidates plan.cutoff s (s', report) := by
  unfold State.gcExecute at h
  split at h
  · cases h
  · simp only [Bool.false_eq_true, if_false] at h
    have := removes_gcBatches unremovable plan.batches _ (removes_start plan.candidates plan.cutoff s (plan.report false) rfl)
      fun batch hb => mem_candidates_of_mem_batches hb
    cases h
    exact this

theorem gcExecute_root_ne {s s' : State} {plan : State.GcPlan} {unremovable : List Text} {report : State.GcReport}
    (h : s.gcExecute plan false unremovable = (s', .ok report)) : plan.rootHash ≠ [] := by
  unfold State.gcExecute at h
  split at h
  · cases h
  next hne => simpa using hne

theorem gcExecute_error {s s' : State} {plan : State.GcPlan} {unremovable : List Text} {e : StoreError}
    (h : s.gcExecute plan false unremovable = (s', .error e)) : s' = s := by
  unfold State.gcExecute at h
  split at h
  · cases h
    rfl
  · cases h

/-- What the plan is made from: the walk over the current root's tree, and the candidates outside it. -/
theorem gcPlan_eq_ok {s s' : State} {graceSecs : Nat} {now : Int} {plan : State.GcPlan}
    (h : s.gcPlan graceSecs now = (s', .ok plan)) :
    plan.rootHash = s.root.hash ∧ ∃ live, (s.addTree s.root.hash true s.versions).2 = .ok live ∧
      ∀ hash ∈ plan.candidates, hash ∉ live := by
  unfold State.gcPlan at h
  dsimp only at h
  split at h
  · cases h
  next live hlive =>
    split at h
    · cases h
    next live' hlive' =>
      cases h
      refine ⟨rfl, live, hlive, fun hash hmem hl => ?_⟩
      have := (List.mem_filter.mp hmem).2
      simp [addTree_mono hlive' hl] at this

theorem gcPlan_reparsed (s : State) (graceSecs : Nat) (now : Int) : Reparsed s (s.gcPlan graceSecs now).1 := by
  unfold State.gcPlan
  dsimp only
  have hrep := reparsed_addTree s s.root.hash true s.versions
  split
  · exact hrep
  next live hlive =>
    have hrep' := hrep.trans (reparsed_addTree _ s.root.previousHash false live)
    split <;> exact hrep'

/-! ## What a collection keeps -/

section
variable {P : State → Prop} (hremove : ∀ s hash, P s → P (((s.removeFile hash).dropRow hash).forgetIndex hash))
include hremove

theorem gcBlob_keeps (plan : State.GcPlan) (unremovable : List Text) {p : State × State.GcReport} (h : P p.1) (hash : Text) :
    P (State.gcBlob plan unremovable p hash).1 := by
  unfold State.gcBlob
  dsimp only
  split
  · exact h
  · split
    · exact h
    · split
      · exact h
      · split
        · exact h
        · exact hremove p.1 hash h

theorem gcBatches_keeps (plan : State.GcPlan) (unremovable : List Text) (batches : List (List Text))
    {p : State × State.GcReport} (h : P p.1) : P (State.gcBatches plan unremovable batches p).1 := by
  have fold : ∀ (batch : List Text) (p : State × State.GcReport), P p.1 →
      P (batch.foldl (State.gcBlob plan unremovable) p).1 := by
    intro batch
    induction batch with
    | nil => exact fun p hp => hp
    | cons hash batch ih => exact fun p hp => ih _ (gcBlob_keeps hremove plan unremovable hp hash)
  induction batches generalizing p with
  | nil => exact h
  | cons batch rest ih =>
    have hbatch : P (State.gcBatch plan unremovable p.1 p.2 batch).1 := by
      unfold State.gcBatch
      split
      · exact h
      · exact fold batch p h
    unfold State.gcBatches
    dsimp only
    split
    · exact hbatch
    · exact ih hbatch

/-- What parsing keeps and the removal of a blob keeps, a collection keeps. -/
theorem gc_keeps (hrep : ∀ s s', Reparsed s s' → P s → P s') {s : State} (h : P s) (graceSecs : Nat) (now : Int)
    (dryRun : Bool) (unremovable : List Text) : P (s.gc graceSecs now dryRun unremovable).1 := by
  have hplan := hrep _ _ (gcPlan_reparsed s graceSecs now) h
  unfold State.gc
  cases hp : s.gcPlan graceSecs now with
  | mk s₁ r =>
    rw [hp] at hplan
    cases r with
    | error e => exact hplan
    | ok plan =>
      dsimp only
      unfold State.gcExecute
      split
      · exact hplan
      · split
        · exact hplan
        · exact gcBatches_keeps hremove plan unremovable _ hplan

end

end GcBatches
