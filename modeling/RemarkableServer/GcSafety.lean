import RemarkableServer.GcBatches

/-!
# Garbage collection and live blobs

A collection deletes what the plan did not find live. Live is what the stored
bytes refer to, so the plan is right as far as the projection it walks is.
-/
namespace GcSafety

open RustText SyncIndex Store Projection LiveSet GcBatches Transition

/-- The current and previous root, what the stored indexes of the current root's tree refer to,
and the version history. -/
def Live (s : State) (hash : Text) : Prop :=
  hash = s.root.hash ∨ hash = s.root.previousHash ∨ InTree s s.root.hash hash ∨ hash ∈ s.versions

/-! ## A collection as a whole -/

/-- The indexes of the current root's tree. -/
def treeIndexes (s : State) : List Text := s.root.hash :: docHashes s s.root.hash

/-- A collection from a state whose projection of the current tree is current and drops no reference
leaves every live blob alone. -/
theorem gc_spares_live {s : State} (hcur : ∀ h ∈ treeIndexes s, current s h = true)
    (hkept : treeKept s s.root.hash = true) (graceSecs : Nat) (now : Int) (unremovable : List Text)
    {hash : Text} (h : Live s hash) :
    (s.gc graceSecs now false unremovable).1.files.lookup hash = s.files.lookup hash ∧
      ∀ report, (s.gc graceSecs now false unremovable).2 = .ok report → hash ∉ report.hashes := by
  have hrep := gcPlan_reparsed s graceSecs now
  unfold State.gc
  cases hplan : s.gcPlan graceSecs now with
  | mk s₁ r =>
    rw [hplan] at hrep
    cases r with
    | error e => exact ⟨by rw [hrep.files], fun report hr => nomatch hr⟩
    | ok plan =>
      dsimp only
      cases hex : s₁.gcExecute plan false unremovable with
      | mk s₂ r =>
        cases r with
        | error e =>
          rw [gcExecute_error hex]
          exact ⟨by rw [hrep.files], fun report hr => nomatch hr⟩
        | ok report =>
          have hrem := removes_gcExecute hex
          obtain ⟨hplanRoot, live, hwalk, hcand⟩ := gcPlan_eq_ok hplan
          have hspared : hash ∉ report.hashes := by
            intro hmem
            obtain ⟨hc, hroot, hprev, -⟩ := hrem.removed hash hmem
            rw [hrep.root] at hroot hprev
            have hrne : s.root.hash ≠ [] := hplanRoot ▸ gcExecute_root_ne hex
            rcases h with h | h | h | h
            · exact hroot h
            · exact hprev h
            · exact hcand hash hc (mem_live_of_inTree hrne hcur hkept hwalk h)
            · exact hcand hash hc (addTree_mono hwalk h)
          refine ⟨(hrem.kept hash hspared).trans (by rw [hrep.files]), fun report' hr => ?_⟩
          cases hr
          exact hspared

/-! ## Every reachable state -/

/-- The storage operations in steps, and the others as wholes. -/
inductive Action where
  | storage (a : Projection.Action)
  | touch (hashes : List Text) (now : Int)
  | setRootIf (hash : Text) (expected : Option Nat)
  | setVersions (versions : List Text)
  | clear
  | gc (graceSecs : Nat) (now : Int) (unremovable : List Text)

/-- A write in progress, which holds off the deletions of a collection. -/
def isWrite : Call → Bool
  | .catalogue _ _ | .forget _ => true
  | _ => false

def step (s : Sys) : Action → Option Sys
  | .storage a => Projection.step s a
  | .touch hashes now => some { s with store := s.store.touch hashes now }
  | .setRootIf hash expected => some { s with store := (s.store.setRootIf hash expected).1 }
  | .setVersions versions => some { s with store := { s.store with versions := versions } }
  | .clear => some { s with store := s.store.clear }
  | .gc graceSecs now unremovable =>
    if s.calls.any isWrite then none
    else some { s with store := (s.store.gc graceSecs now false unremovable).1 }

/-- The steps that leave no stale parse behind. -/
def good (s : Sys) : Action → Bool
  | .storage a => Projection.good (fun _ => true) s a
  | _ => true

/-- No write or delete of an index of the current tree is in progress, and none of these indexes
loses a reference to a repeated name. -/
def collectable (s : Sys) : Bool :=
  (treeIndexes s.store).all (fun h => !s.inProgress h) && treeKept s.store s.store.root.hash

/-- A change of the store that keeps every current parse keeps the invariant. -/
theorem inv_of_current {s : Sys} {store : State} (h : Inv (fun _ => true) s)
    (hcur : ∀ k, current s.store k = true → current store k = true) :
    Inv (fun _ => true) { s with store := store } :=
  fun k => (h k).imp id (hcur k)

theorem gc_current (s : State) (graceSecs : Nat) (now : Int) (unremovable : List Text) {k : Text}
    (hk : current s k = true) : current (s.gc graceSecs now false unremovable).1 k = true := by
  have hrep := gcPlan_reparsed s graceSecs now
  unfold State.gc
  cases hplan : s.gcPlan graceSecs now with
  | mk s₁ r =>
    rw [hplan] at hrep
    cases r with
    | error e => exact hrep.current k hk
    | ok plan =>
      dsimp only
      cases hex : s₁.gcExecute plan false unremovable with
      | mk s₂ r =>
        cases r with
        | error e => rw [gcExecute_error hex]; exact hrep.current k hk
        | ok report => exact (removes_gcExecute hex).current k (hrep.current k hk)

theorem setRootIf_current (s : State) (hash : Text) (expected : Option Nat) {k : Text}
    (hk : current s k = true) : current (s.setRootIf hash expected).1 k = true := by
  obtain ⟨g, -, -, h⟩ | ⟨-, s', h, hc⟩ := setRootIf_spec s hash expected
  · rw [h]
    exact hk
  · rw [h]
    exact hc.current k hk

theorem inv_step (s : Sys) (a : Action) (s' : Sys) (h : Inv (fun _ => true) s) (hgood : good s a = true)
    (hstep : step s a = some s') : Inv (fun _ => true) s' := by
  cases a with
  | storage a => exact Projection.inv_step _ s a s' h hgood hstep
  | touch hashes now | setVersions versions =>
    cases hstep
    exact inv_of_current h fun k hk => hk
  | setRootIf hash expected =>
    cases hstep
    exact inv_of_current h fun k hk => setRootIf_current s.store hash expected hk
  | clear =>
    cases hstep
    exact inv_of_current h fun k _ => faithful_of_no_row rfl
  | gc graceSecs now unremovable =>
    simp only [step] at hstep
    split_ifs at hstep
    cases hstep
    exact inv_of_current h fun k hk => gc_current s.store graceSecs now unremovable hk

/-- In every state that good steps reach, a collection of any grace period deletes no live blob,
provided the state is collectable. -/
theorem gc_never_deletes_live (files : Table BlobFile) (json : Option SyncRoot) (versions : List Text)
    (as : List Action) (s : Sys) (graceSecs : Nat) (now : Int) (unremovable : List Text) (hash : Text)
    (hgood : AllGood step (fun s a => good s a = true) (.new files json versions) as)
    (hrun : run step (.new files json versions) as = some s) (hcoll : collectable s = true)
    (hlive : Live s.store hash) :
    (s.store.gc graceSecs now false unremovable).1.files.lookup hash = s.store.files.lookup hash ∧
      ∀ report, (s.store.gc graceSecs now false unremovable).2 = .ok report → hash ∉ report.hashes := by
  have hinv := invariant_of_allGood inv_step (inv_new _ files json versions) hgood hrun
  rw [collectable, Bool.and_eq_true, List.all_eq_true] at hcoll
  refine gc_spares_live (fun h hh => ?_) hcoll.2 graceSecs now unremovable hlive
  exact (hinv h).resolve_left (by simpa using hcoll.1 h hh)

/-! ## Concrete runs -/

def upload (hash : Text) (data : Bytes) : List Action :=
  [.storage (.put hash data 0), .storage (.next (.catalogue hash data.length) 0),
    .storage (.next (.forget hash) 0)]

/-- Two leaf files, an orphan and a root index that lists the files under the given names. -/
def commitLeaves (first second : Text) : List Action :=
  upload (hashOf 'b') [1] ++ upload (hashOf 'c') [2] ++ upload (hashOf 'd') [3] ++
    upload (hashOf 'a') (leafIndex [(hashOf 'b', first), (hashOf 'c', second)]) ++
    [.setRootIf (hashOf 'a') none]

theorem gc_keeps_committed_leaf : ∃ s, run step (.new ∅ none []) (commitLeaves ['x'] ['y']) = some s ∧
    Live s.store (hashOf 'b') ∧ ∃ report, (s.store.gc 0 10 false []).2 = .ok report ∧
      hashOf 'd' ∈ report.hashes ∧ hashOf 'b' ∉ report.hashes := by
  obtain ⟨s, hs⟩ := Option.isSome_iff_exists.mp
    (show (run step (.new ∅ none []) (commitLeaves ['x'] ['y'])).isSome = true by decide +kernel)
  have hcoll : (run step (.new ∅ none []) (commitLeaves ['x'] ['y'])).map collectable = some true := by
    decide +kernel
  have hlive : ((run step (.new ∅ none []) (commitLeaves ['x'] ['y'])).map fun s =>
      decide (hashOf 'b' ∈ (listed s.store s.store.root.hash).map IndexEntry.hash)) = some true := by
    decide +kernel
  have hgc : ((run step (.new ∅ none []) (commitLeaves ['x'] ['y'])).map fun s =>
      (s.store.gc 0 10 false []).2.toOption.map State.GcReport.hashes) = some (some [hashOf 'd']) := by
    decide +kernel
  rw [hs] at hcoll hlive hgc
  have hl : Live s.store (hashOf 'b') := .inr (.inr (.inl (.inl (of_decide_eq_true (Option.some.inj hlive)))))
  have hspared := gc_never_deletes_live ∅ none [] (commitLeaves ['x'] ['y']) s 0 10 [] (hashOf 'b')
    (by decide +kernel) hs (Option.some.inj hcoll) hl
  obtain ⟨report, hr, hhashes⟩ := Option.map_eq_some_iff.mp (Option.some.inj hgc)
  have hok : (s.store.gc 0 10 false []).2 = .ok report := by
    revert hr
    cases (s.store.gc 0 10 false []).2 <;> simp [Except.toOption]
  exact ⟨s, hs, hl, report, hok, by rw [hhashes]; exact List.mem_singleton_self _, hspared.2 report hok⟩

/-- Both lines of the root index have one name, so the projection forgets the first, and the file
it refers to is collected. -/
theorem gc_deletes_shadowed_leaf : ∃ s, run step (.new ∅ none []) (commitLeaves ['x'] ['x']) = some s ∧
    Live s.store (hashOf 'b') ∧ ∃ report, (s.store.gc 0 10 false []).2 = .ok report ∧
      hashOf 'b' ∈ report.hashes := by
  obtain ⟨s, hs⟩ := Option.isSome_iff_exists.mp
    (show (run step (.new ∅ none []) (commitLeaves ['x'] ['x'])).isSome = true by decide +kernel)
  have hlive : ((run step (.new ∅ none []) (commitLeaves ['x'] ['x'])).map fun s =>
      decide (hashOf 'b' ∈ (listed s.store s.store.root.hash).map IndexEntry.hash)) = some true := by
    decide +kernel
  have hgc : ((run step (.new ∅ none []) (commitLeaves ['x'] ['x'])).map fun s =>
      (s.store.gc 0 10 false []).2.toOption.map State.GcReport.hashes) =
        some (some [hashOf 'b', hashOf 'd']) := by
    decide +kernel
  rw [hs] at hlive hgc
  obtain ⟨report, hr, hhashes⟩ := Option.map_eq_some_iff.mp (Option.some.inj hgc)
  have hok : (s.store.gc 0 10 false []).2 = .ok report := by
    revert hr
    cases (s.store.gc 0 10 false []).2 <;> simp [Except.toOption]
  exact ⟨s, hs, .inr (.inr (.inl (.inl (of_decide_eq_true (Option.some.inj hlive))))), report, hok,
    by rw [hhashes]; exact List.mem_cons_self⟩

end GcSafety
