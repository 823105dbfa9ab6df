import RemarkableServer.GcSafety

/-!
# Root commits against deletions

`put_root` and `entry_session` look whether the new root index is stored and then
commit it; `v1_delete` looks whether a blob is referenced and then deletes it; a
collection plans and then deletes batch by batch. Nothing spans the two steps of
any of them, so each is safe only if the others stay out of between.
-/
namespace RootCommit

open RustText SyncIndex Store Projection LiveSet GcBatches Transition

/-- The indexes of the current tree with what they list. -/
def snapshot (s : State) : List (Text × List IndexEntry) :=
  (GcSafety.treeIndexes s).map fun h => (h, listed s h)

/-- A request between its steps. A removal remembers the root and the tree it was checked against. -/
inductive Request where
  | commit (hash : Text) (expected : Option Nat)
  | remove (hash rootHash : Text) (tree : List (Text × List IndexEntry))
  | planned (plan : State.GcPlan)
  | deleting (plan : State.GcPlan) (rest : List (List Text))
  deriving DecidableEq, Repr

/-- The current root's tree or the version history refers to `hash`. -/
def referenced (s : State) (hash : Text) : Bool :=
  hash = s.root.hash || (snapshot s).any (fun p => p.2.any fun e => e.hash = hash) || s.versions.contains hash

/-- The store with its operations in progress, the requests in progress, and for every blob that a
`v1_delete` removed whether it was referenced at that moment. -/
structure Sys where
  base : Projection.Sys
  requests : List Request
  removed : List (Text × Bool)

def Sys.start (store : State) : Sys := ⟨⟨store, []⟩, [], []⟩

inductive Action where
  | put (hash : Text) (data : Bytes) (modified : Int)
  | ensureIndexed (hash : Text)
  | next (call : Call) (now : Int)
  | putRoot (hash : Text) (expected : Option Nat)
  | v1Delete (hash : Text)
  | gcPlan (graceSecs : Nat) (now : Int)
  | setVersions (versions : List Text)
  | proceed (request : Request) (unremovable : List Text)

/-- A collection that deletes holds off uploads and other collections. -/
def Request.exclusive : Request → Bool
  | .deleting _ _ => true
  | _ => false

def Sys.withStore (s : Sys) (store : State) : Sys := { s with base := { s.base with store := store } }

/-- The second step of a request, given the requests besides it. -/
def proceed (s : Sys) (rest : List Request) (unremovable : List Text) : Request → Option Sys
  | .commit hash expected =>
    some { s.withStore (s.base.store.setRootIf hash expected).1 with requests := rest }
  | .remove hash _ _ =>
    match Projection.step s.base (.delete hash) with
    | none => some { s with requests := rest }
    | some base => some ⟨base, rest, (hash, referenced s.base.store hash) :: s.removed⟩
  | .planned plan =>
    if plan.rootHash.isEmpty then some { s with requests := rest }
    else if s.base.calls.any GcSafety.isWrite || rest.any Request.exclusive then none
    else some { s with requests := .deleting plan plan.batches :: rest }
  | .deleting _ [] => some { s with requests := rest }
  | .deleting plan (batch :: batches) =>
    let (store, report) := State.gcBatch plan unremovable s.base.store (plan.report false) batch
    let requests := if report.aborted.isSome then rest else .deleting plan batches :: rest
    some { s.withStore store with requests := requests }

def step (s : Sys) : Action → Option Sys
  | .put hash data modified =>
    if s.requests.any Request.exclusive then none
    else (Projection.step s.base (.put hash data modified)).map fun base => { s with base := base }
  | .ensureIndexed hash => (Projection.step s.base (.ensureIndexed hash)).map fun base => { s with base := base }
  | .next call now => (Projection.step s.base (.next call now)).map fun base => { s with base := base }
  | .putRoot hash expected =>
    if s.base.store.blobExists hash then some { s with requests := .commit hash expected :: s.requests } else none
  | .v1Delete hash =>
    let (store, found) := s.base.store.isReferenced hash
    if found then some (s.withStore store)
    else
      let request := .remove hash s.base.store.root.hash (snapshot s.base.store)
      some { s.withStore store with requests := request :: s.requests }
  | .gcPlan graceSecs now =>
    match s.base.store.gcPlan graceSecs now with
    | (store, .ok plan) => some { s.withStore store with requests := .planned plan :: s.requests }
    | (store, .error _) => some (s.withStore store)
  | .setVersions versions => some (s.withStore { s.base.store with versions := versions })
  | .proceed request unremovable =>
    if request ∈ s.requests then proceed s (s.requests.erase request) unremovable request else none

/-- A commit of one of `hashes` has passed its look and not yet its commit. -/
def Sys.committing (s : Sys) (hashes : List Text) : Bool := s.requests.any fun r => match r with
  | .commit hash _ => hashes.contains hash
  | _ => false

/-- No deletion comes between the two steps of a commit of that hash, nothing that a removal was
checked against changes before it, what it was checked against was the tree, and it is not in the
version history. -/
def good (s : Sys) : Action → Bool
  | .next call now => Projection.good (fun _ => true) s.base (.next call now)
  | .v1Delete _ => GcSafety.collectable s.base
  | .proceed (.deleting _ (batch :: _)) _ => !s.committing batch
  | .proceed (.remove hash rootHash tree) _ =>
    !s.committing [hash] && s.base.store.root.hash = rootHash && snapshot s.base.store = tree &&
      !s.base.store.versions.contains hash
  | _ => true

/-! ## The invariant -/

structure Inv (s : Sys) : Prop where
  projection : Projection.Inv (fun _ => true) s.base
  root : s.base.store.blobExists s.base.store.root.hash = true
  commits : ∀ hash expected, .commit hash expected ∈ s.requests → s.base.store.blobExists hash = true
  removes : ∀ hash rootHash tree, .remove hash rootHash tree ∈ s.requests →
    hash ≠ rootHash ∧ tree.any (fun p => p.2.any fun e => e.hash = hash) = false
  removed : ∀ p ∈ s.removed, p.2 = false

theorem inTree_of_snapshot {s : State} {hash : Text}
    (h : (snapshot s).any (fun p => p.2.any fun e => e.hash = hash) = true) : InTree s s.root.hash hash := by
  obtain ⟨p, hp, he⟩ := List.any_eq_true.mp h
  obtain ⟨e, he, heq⟩ := List.any_eq_true.mp he
  obtain ⟨k, hk, rfl⟩ := List.mem_map.mp hp
  have hmem : hash ∈ (listed s k).map IndexEntry.hash := List.mem_map.mpr ⟨e, he, by simpa using heq⟩
  rcases List.mem_cons.mp hk with rfl | hk
  · exact .inl hmem
  · obtain ⟨doc, hdoc, rfl⟩ := List.mem_map.mp hk
    obtain ⟨hdoc, hidx⟩ := List.mem_filter.mp hdoc
    exact .inr ⟨doc, hdoc, hidx, hmem⟩

/-- Where the projection of the tree can be trusted, `is_referenced` misses no reference. -/
theorem not_inTree_of_isReferenced {s : State} {hash : Text} (hne : s.root.hash ≠ [])
    (hcur : ∀ h ∈ GcSafety.treeIndexes s, current s h = true) (hkept : treeKept s s.root.hash = true)
    (h : (s.isReferenced hash).2 = false) : hash ≠ s.root.hash ∧ ¬ InTree s s.root.hash hash := by
  unfold State.isReferenced at h
  dsimp only at h
  split at h
  · cases h
  next live hlive =>
    split at h
    · cases h
    next live' hlive' =>
      have hout : hash ∉ live' := by simpa using h
      refine ⟨?_, fun htree => hout (addTree_mono hlive' (mem_live_of_inTree hne hcur hkept hlive htree))⟩
      rintro rfl
      exact hout (addTree_mono hlive' (addTree_strict hne hlive).1)

theorem isReferenced_reparsed (s : State) (hash : Text) : Reparsed s (s.isReferenced hash).1 := by
  unfold State.isReferenced
  dsimp only
  have hrep := reparsed_addTree s s.root.hash true []
  split
  · exact hrep
  next live hlive =>
    have hrep' := hrep.trans (reparsed_addTree _ s.root.previousHash false live)
    split <;> exact hrep'

theorem root_ne_nil {s : State} (h : s.blobExists s.root.hash = true) : s.root.hash ≠ [] := by
  intro he
  rw [State.blobExists_iff, he] at h
  exact absurd h.1 (by decide)

/-- A step of a collection on its way, which no invariant is about. -/
def Request.collects : Request → Bool
  | .planned _ | .deleting _ _ => true
  | _ => false

/-- A step that keeps the root, loses no file and brings no commit or removal keeps the invariant. -/
theorem inv_of_frame {s s' : Sys} (h : Inv s) (hproj : Projection.Inv (fun _ => true) s'.base)
    (hroot : s'.base.store.root = s.base.store.root)
    (hfiles : ∀ k, s.base.store.blobExists k = true → s'.base.store.blobExists k = true)
    (hreq : ∀ r ∈ s'.requests, r ∈ s.requests ∨ r.collects = true) (hrem : s'.removed = s.removed) : Inv s' where
  projection := hproj
  root := by
    rw [hroot]
    exact hfiles _ h.root
  commits := by
    intro hash expected hr
    rcases hreq _ hr with hr | hr
    · exact hfiles _ (h.commits hash expected hr)
    · cases hr
  removes := by
    intro hash rootHash tree hr
    rcases hreq _ hr with hr | hr
    · exact h.removes hash rootHash tree hr
    · cases hr
  removed := by
    rw [hrem]
    exact h.removed

/-- A parse leaves everything else as it is. -/
theorem inv_of_reparsed {s : Sys} {store : State} {requests : List Request} (h : Inv s)
    (hrep : Reparsed s.base.store store) (hreq : ∀ r ∈ requests, r ∈ s.requests ∨ r.collects = true) :
    Inv { s.withStore store with requests := requests } := by
  refine inv_of_frame h (GcSafety.inv_of_current h.projection hrep.current) hrep.root (fun k hk => ?_) hreq rfl
  rw [State.blobExists_iff] at hk ⊢
  refine ⟨hk.1, ?_⟩
  change ∃ file, store.files.lookup k = some file
  rw [hrep.files]
  exact hk.2

theorem step_next_frame {s s' : Projection.Sys} {call : Call} {now : Int}
    (h : Projection.step s (.next call now) = some s') :
    s'.store.files = s.store.files ∧ s'.store.root = s.store.root := by
  simp only [Projection.step] at h
  split_ifs at h
  cases h
  cases call with
  | read hash =>
    simp only [advance]
    split <;> exact ⟨rfl, rfl⟩
  | record hash bytes =>
    simp only [advance]
    cases parseIndex bytes <;> exact ⟨rfl, rfl⟩
  | catalogue hash size | forget hash | dropRow hash | dropIndex hash => exact ⟨rfl, rfl⟩

theorem setRootIf_frame (s : State) (hash : Text) (expected : Option Nat) :
    (s.setRootIf hash expected).1.files = s.files ∧
      ((s.setRootIf hash expected).1.root.hash = s.root.hash ∨ (s.setRootIf hash expected).1.root.hash = hash) := by
  obtain ⟨g, -, -, h⟩ | ⟨-, s', h, hc⟩ := setRootIf_spec s hash expected
  · rw [h]
    exact ⟨rfl, .inl rfl⟩
  · rw [h]
    refine ⟨hc.files, .inr ?_⟩
    rw [hc.root]

theorem not_committing {s : Sys} {hashes : List Text} (h : s.committing hashes = false) {hash : Text}
    {expected : Option Nat} (hr : .commit hash expected ∈ s.requests) : hash ∉ hashes := by
  have := List.any_eq_false.mp h _ hr
  simpa using this

theorem inv_commit {s : Sys} {hash : Text} {expected : Option Nat} (h : Inv s)
    (hr : .commit hash expected ∈ s.requests) :
    Inv { s.withStore (s.base.store.setRootIf hash expected).1 with
      requests := s.requests.erase (.commit hash expected) } := by
  obtain ⟨hfiles, hroot⟩ := setRootIf_frame s.base.store hash expected
  have hstored : ∀ k, s.base.store.blobExists k = true →
      (s.base.store.setRootIf hash expected).1.blobExists k = true := by
    intro k hk
    rw [State.blobExists, hfiles]
    exact hk
  refine ⟨GcSafety.inv_of_current h.projection fun k hk => GcSafety.setRootIf_current _ _ _ hk, ?_, ?_, ?_, h.removed⟩
  · change (s.base.store.setRootIf hash expected).1.blobExists (s.base.store.setRootIf hash expected).1.root.hash = true
    rcases hroot with hroot | hroot
    · rw [hroot]
      exact hstored _ h.root
    · rw [hroot]
      exact hstored _ (h.commits hash expected hr)
  · exact fun k e hk => hstored k (h.commits k e (List.mem_of_mem_erase hk))
  · exact fun k r tree hk => h.removes k r tree (List.mem_of_mem_erase hk)

theorem inv_remove {s : Sys} {hash rootHash : Text} {tree : List (Text × List IndexEntry)} {base : Projection.Sys}
    (h : Inv s) (hr : .remove hash rootHash tree ∈ s.requests)
    (hgood : good s (.proceed (.remove hash rootHash tree) []) = true)
    (hstep : Projection.step s.base (.delete hash) = some base) :
    Inv ⟨base, s.requests.erase (.remove hash rootHash tree),
      (hash, referenced s.base.store hash) :: s.removed⟩ := by
  obtain ⟨hne, htree⟩ := h.removes hash rootHash tree hr
  simp only [good, Bool.and_eq_true, Bool.not_eq_true', decide_eq_true_eq] at hgood
  obtain ⟨⟨⟨hcommit, hroot⟩, hsnap⟩, hversions⟩ := hgood
  have hproj := Projection.inv_step _ _ _ _ h.projection rfl hstep
  simp only [Projection.step] at hstep
  split_ifs at hstep
  cases hstep
  have hkept : ∀ k, k ≠ hash → s.base.store.blobExists k = true →
      (s.base.store.removeFile hash).blobExists k = true := by
    intro k hk hs
    rw [State.blobExists, State.removeFile, AList.lookup_erase_ne hk]
    exact hs
  refine ⟨hproj, ?_, ?_, ?_, ?_⟩
  · have hne' : s.base.store.root.hash ≠ hash := by
      rw [hroot]
      exact Ne.symm hne
    exact hkept _ hne' h.root
  · intro k e hk
    have hk := List.mem_of_mem_erase hk
    exact hkept k (by simpa using not_committing hcommit hk) (h.commits k e hk)
  · exact fun k r t hk => h.removes k r t (List.mem_of_mem_erase hk)
  · intro p hp
    rcases List.mem_cons.mp hp with rfl | hp
    · change referenced s.base.store hash = false
      rw [referenced, hroot, hsnap, htree, hversions]
      simp [hne]
    · exact h.removed p hp

theorem inv_batch {s : Sys} {plan : State.GcPlan} {batch unremovable : List Text} {requests : List Request}
    (h : Inv s) (hcommit : s.committing batch = false)
    (hreq : ∀ r ∈ requests, r ∈ s.requests ∨ r.collects = true) :
    Inv { s.withStore (State.gcBatch plan unremovable s.base.store (plan.report false) batch).1 with
      requests := requests } := by
  have hrem := removes_gcBatch unremovable (removes_start batch plan.cutoff s.base.store (plan.report false) rfl)
    fun _ => id
  have hkept : ∀ k, k ∉ (State.gcBatch plan unremovable s.base.store (plan.report false) batch).2.hashes →
      s.base.store.blobExists k = true →
        (State.gcBatch plan unremovable s.base.store (plan.report false) batch).1.blobExists k = true := by
    intro k hk hs
    rw [State.blobExists, hrem.kept k hk]
    exact hs
  refine ⟨GcSafety.inv_of_current h.projection hrem.current, ?_, ?_, ?_, h.removed⟩
  · change State.blobExists _ (State.gcBatch plan unremovable s.base.store (plan.report false) batch).1.root.hash = true
    rw [hrem.root]
    exact hkept _ (fun hk => (hrem.removed _ hk).2.1 rfl) h.root
  · intro k e hk
    rcases hreq _ hk with hk | hk
    · exact hkept k (fun hm => not_committing hcommit hk (hrem.removed k hm).1) (h.commits k e hk)
    · cases hk
  · intro k r tree hk
    rcases hreq _ hk with hk | hk
    · exact h.removes k r tree hk
    · cases hk

theorem inv_proceed {s s' : Sys} {request : Request} {unremovable : List Text} (h : Inv s)
    (hmem : request ∈ s.requests) (hgood : good s (.proceed request unremovable) = true)
    (hstep : proceed s (s.requests.erase request) unremovable request = some s') : Inv s' := by
  have rest : ∀ r ∈ s.requests.erase request, r ∈ s.requests ∨ r.collects = true :=
    fun r hr => .inl (List.mem_of_mem_erase hr)
  have same : ∀ {requests : List Request}, (∀ r ∈ requests, r ∈ s.requests ∨ r.collects = true) →
      Inv { s with requests := requests } :=
    fun hreq => inv_of_frame h h.projection rfl (fun _ => id) hreq rfl
  have collecting : ∀ {r : Request}, r.collects = true → ∀ k ∈ r :: s.requests.erase request,
      k ∈ s.requests ∨ k.collects = true := by
    intro r hr k hk
    rcases List.mem_cons.mp hk with rfl | hk
    · exact .inr hr
    · exact rest k hk
  cases request with
  | commit hash expected =>
    cases hstep
    exact inv_commit h hmem
  | remove hash rootHash tree =>
    simp only [proceed] at hstep
    split at hstep <;> cases hstep
    · exact same rest
    next base hbase => exact inv_remove h hmem hgood hbase
  | planned plan =>
    simp only [proceed] at hstep
    split_ifs at hstep <;> cases hstep
    · exact same rest
    · exact same (collecting rfl)
  | deleting plan batches =>
    cases batches with
    | nil =>
      cases hstep
      exact same rest
    | cons batch batches =>
      cases hstep
      refine inv_batch h (by simpa [good] using hgood) ?_
      split
      · exact rest
      · exact collecting rfl

theorem inv_step (s : Sys) (a : Action) (s' : Sys) (h : Inv s) (hgood : good s a = true)
    (hstep : step s a = some s') : Inv s' := by
  cases a with
  | put hash data modified =>
    simp only [step] at hstep
    split_ifs at hstep
    obtain ⟨base, hbase, rfl⟩ := Option.map_eq_some_iff.mp hstep
    have hproj := Projection.inv_step _ _ _ _ h.projection rfl hbase
    simp only [Projection.step] at hbase
    split_ifs at hbase
    cases hbase
    refine inv_of_frame h hproj rfl (fun k hk => ?_) (fun r hr => .inl hr) rfl
    rw [State.blobExists_iff] at hk ⊢
    refine ⟨hk.1, ?_⟩
    simp only [State.writeFile, lookup_insert_ite]
    split
    · exact ⟨_, rfl⟩
    · exact hk.2
  | ensureIndexed hash =>
    obtain ⟨base, hbase, rfl⟩ := Option.map_eq_some_iff.mp hstep
    have hproj := Projection.inv_step _ _ _ _ h.projection rfl hbase
    simp only [Projection.step] at hbase
    split_ifs at hbase
    cases hbase
    exact inv_of_frame h hproj rfl (fun _ => id) (fun r hr => .inl hr) rfl
  | next call now =>
    obtain ⟨base, hbase, rfl⟩ := Option.map_eq_some_iff.mp hstep
    have hproj := Projection.inv_step _ _ _ _ h.projection hgood hbase
    obtain ⟨hfiles, hroot⟩ := step_next_frame hbase
    refine inv_of_frame h hproj hroot (fun k hk => ?_) (fun r hr => .inl hr) rfl
    rw [State.blobExists, hfiles]
    exact hk
  | putRoot hash expected =>
    simp only [step] at hstep
    split_ifs at hstep with hex
    cases hstep
    refine ⟨h.projection, h.root, ?_, ?_, h.removed⟩
    · intro k e hk
      rcases List.mem_cons.mp hk with he | hk
      · cases he
        exact hex
      · exact h.commits k e hk
    · intro k r tree hk
      rcases List.mem_cons.mp hk with he | hk
      · cases he
      · exact h.removes k r tree hk
  | v1Delete hash =>
    have hrep := isReferenced_reparsed s.base.store hash
    simp only [step] at hstep
    split_ifs at hstep with hfound
    · cases hstep
      exact inv_of_reparsed h hrep fun r hr => .inl hr
    · cases hstep
      simp only [good, GcSafety.collectable, Bool.and_eq_true, List.all_eq_true] at hgood
      have hcur : ∀ k ∈ GcSafety.treeIndexes s.base.store, current s.base.store k = true :=
        fun k hk => (h.projection k).resolve_left (by simpa using hgood.1 k hk)
      obtain ⟨hne, htree⟩ := not_inTree_of_isReferenced (root_ne_nil h.root) hcur hgood.2 (by simpa using hfound)
      have hsame := inv_of_reparsed h hrep fun r hr => .inl hr
      refine ⟨hsame.projection, hsame.root, ?_, ?_, hsame.removed⟩
      · intro k e hk
        rcases List.mem_cons.mp hk with he | hk
        · cases he
        · exact hsame.commits k e hk
      · intro k r tree hk
        rcases List.mem_cons.mp hk with he | hk
        · cases he
          exact ⟨hne, Bool.eq_false_iff.mpr fun hs => htree (inTree_of_snapshot hs)⟩
        · exact hsame.removes k r tree hk
  | gcPlan graceSecs now =>
    have hrep := gcPlan_reparsed s.base.store graceSecs now
    simp only [step] at hstep
    split at hstep <;> cases hstep
    next store plan hp =>
      rw [hp] at hrep
      refine inv_of_reparsed h hrep fun r hr => ?_
      rcases List.mem_cons.mp hr with rfl | hr
      · exact .inr rfl
      · exact .inl hr
    next store e hp =>
      rw [hp] at hrep
      exact inv_of_reparsed h hrep fun r hr => .inl hr
  | setVersions versions =>
    cases hstep
    exact inv_of_frame h (GcSafety.inv_of_current h.projection fun _ => id) rfl (fun _ => id) (fun r hr => .inl hr) rfl
  | proceed request unremovable =>
    simp only [step] at hstep
    split_ifs at hstep with hmem
    exact inv_proceed h hmem hgood hstep

/-- From a stored root and a projection that is current, along every run of good steps: the blob
of the current root is stored, and no `v1_delete` removed a blob that the current tree or the
version history referred to at that moment. -/
theorem committed_root_is_stored (store : State) (hroot : store.blobExists store.root.hash = true)
    (hcur : ∀ h, current store h = true) (as : List Action) (s : Sys)
    (hgood : AllGood step (fun s a => good s a = true) (.start store) as)
    (hrun : run step (.start store) as = some s) :
    s.base.store.blobExists s.base.store.root.hash = true ∧ ∀ p ∈ s.removed, p.2 = false := by
  have hstart : Inv (.start store) :=
    ⟨fun k => .inr (hcur k), hroot, fun _ _ hr => (nomatch hr), fun _ _ _ hr => (nomatch hr),
      fun _ hp => (nomatch hp)⟩
  have h := invariant_of_allGood inv_step hstart hgood hrun
  exact ⟨h.root, h.removed⟩

/-! ## Concrete runs -/

/-- A directory with an empty root index and a second empty index, which the version history lists. -/
def twoIndexes : State :=
  .new (((∅ : Table BlobFile).insert (hashOf 'a') ⟨leafIndex [], 0⟩).insert (hashOf 'b') ⟨leafIndex [], 0⟩)
    (some ⟨hashOf 'a', 1, 3⟩) [hashOf 'b']

/-- Commit a new root, then delete the old one, which the version history does not list. -/
def commitThenDelete : List Action :=
  [.putRoot (hashOf 'b') (some 1), .proceed (.commit (hashOf 'b') (some 1)) [], .putRoot (hashOf 'b') none,
    .proceed (.commit (hashOf 'b') none) [], .v1Delete (hashOf 'a'),
    .proceed (.remove (hashOf 'a') (hashOf 'b') [(hashOf 'b', [])]) []]

theorem old_root_is_deleted : ∃ s, run step (.start twoIndexes) commitThenDelete = some s ∧
    s.base.store.blobExists (hashOf 'a') = false ∧ s.base.store.blobExists s.base.store.root.hash = true ∧
      (hashOf 'a', false) ∈ s.removed := by
  obtain ⟨s, hs⟩ := Option.isSome_iff_exists.mp
    (show (run step (.start twoIndexes) commitThenDelete).isSome = true by decide +kernel)
  have hgone : ((run step (.start twoIndexes) commitThenDelete).map fun s =>
      (s.base.store.blobExists (hashOf 'a'), s.removed.map Prod.fst)) = some (false, [hashOf 'a']) := by
    decide +kernel
  rw [hs] at hgone
  obtain ⟨hgone, hremoved⟩ := Prod.mk.inj (Option.some.inj hgone)
  obtain ⟨hroot, hfalse⟩ := committed_root_is_stored twoIndexes (by decide +kernel) (fun _ => faithful_of_no_row rfl)
    commitThenDelete s (by decide +kernel) hs
  refine ⟨s, hs, hgone, hroot, ?_⟩
  obtain ⟨p, hp, hfst⟩ := List.mem_map.mp (show hashOf 'a' ∈ s.removed.map Prod.fst by rw [hremoved]; exact List.mem_cons_self)
  rw [← hfst, ← hfalse p hp]
  exact hp

/-- The look at the new root comes before a collection of it, the commit after. -/
def collectedBeforeCommit : List Action :=
  [.setVersions [], .putRoot (hashOf 'b') (some 1), .gcPlan 0 10] ++
    let plan := ⟨hashOf 'a', 1, [], 0, 10, [hashOf 'b']⟩
    [.proceed (.planned plan) [], .proceed (.deleting plan [[hashOf 'b']]) [], .proceed (.commit (hashOf 'b') (some 1)) []]

/-- A blob of the version history is deleted on request. -/
def versionDeleted : List Action :=
  [.v1Delete (hashOf 'b'), .proceed (.remove (hashOf 'b') (hashOf 'a') [(hashOf 'a', [])]) []]

/-- A root is committed whose blob is gone, and a blob of the version history is removed. -/
theorem commit_races_with_collection :
    twoIndexes.blobExists twoIndexes.root.hash = true ∧ (∀ h, current twoIndexes h = true) ∧
    (∃ s, run step (.start twoIndexes) collectedBeforeCommit = some s ∧
      s.base.store.blobExists s.base.store.root.hash = false) ∧
    ∃ s, run step (.start twoIndexes) versionDeleted = some s ∧ (hashOf 'b', true) ∈ s.removed := by
  refine ⟨by decide +kernel, fun _ => faithful_of_no_row rfl, ?_, ?_⟩
  · obtain ⟨s, hs⟩ := Option.isSome_iff_exists.mp
      (show (run step (.start twoIndexes) collectedBeforeCommit).isSome = true by decide +kernel)
    have hgone : ((run step (.start twoIndexes) collectedBeforeCommit).map fun s =>
        s.base.store.blobExists s.base.store.root.hash) = some false := by
      decide +kernel
    rw [hs] at hgone
    exact ⟨s, hs, Option.some.inj hgone⟩
  · obtain ⟨s, hs⟩ := Option.isSome_iff_exists.mp
      (show (run step (.start twoIndexes) versionDeleted).isSome = true by decide +kernel)
    have hremoved : ((run step (.start twoIndexes) versionDeleted).map Sys.removed) = some [(hashOf 'b', true)] := by
      decide +kernel
    rw [hs] at hremoved
    exact ⟨s, hs, by rw [Option.some.inj hremoved]; exact List.mem_singleton_self _⟩

end RootCommit
