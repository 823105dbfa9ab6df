import RemarkableServer.CaseMatch

/-!
# The full sync

The remote listing and the local tree are compared with the manifest of the last
sync, path by path. Each path gets a step or keeps its record; the steps are then
taken in the order of their kind, and a new manifest is recorded.
-/
namespace CloudSync

open RustText Integrations CloudPaths

/-- What becomes of files that exist only locally, in an uploading direction. -/
inductive LocalOnly where
  | upload | keep
  deriving DecidableEq, Repr

/-- The order steps run in. -/
def Step.order : Step → Nat
  | .quarantine => 0
  | .upload | .reupload => 1
  | .download => 2
  | .both _ => 3

structure Planned where
  path : Text
  step : Step
  track : Bool
  old : Option ManifestEntry
  deriving DecidableEq, Repr

structure Reconciled where
  result : SyncResult
  retryNeeded : Bool
  deriving DecidableEq, Repr

/-- The two sides and the manifest as the planning sees them. -/
structure View where
  files : PathMap LocalFile
  cloud : PathMap CloudFile
  base : Option SyncManifest
  outOfView : List Text
  found : CaseMatch
  listedNothing : Bool
  localOnly : LocalOnly

/-- An entry kept as it was stays under the spelling it was recorded under. -/
def View.keptUnder (v : View) (path : Text) : Text := (v.found.carried.lookup path).getD path

/-- The members of a map that meet the condition. -/
def retain {V : Type} (keep : Text → V → Bool) (m : PathMap V) : PathMap V :=
  ⟨m.entries.filter fun e => keep e.1 e.2, List.NodupKeys.sublist List.filter_sublist m.nodupKeys⟩

section
variable (env : Env) (cfg : SyncConfig)

def SyncConfig.canUpload : Bool := cfg.direction != .download

def SyncConfig.canDownload : Bool := cfg.direction != .upload

def SyncConfig.uploadNew (localOnly : LocalOnly) : Bool := cfg.canUpload && localOnly == .upload

/-- The direction allows the step; a file on both sides may go either way. -/
def SyncConfig.allows : Step → Bool
  | .quarantine | .download => cfg.canDownload
  | .upload | .reupload => cfg.canUpload
  | .both _ => true

/-! ## Planning -/

/-- What the planning makes of a path the manifest knows. -/
inductive Decision where
  | step (s : Step)
  | drop
  | keep
  | store (e : ManifestEntry)
  | deletedHere (e : ManifestEntry)
  | leaveInPlace
  deriving DecidableEq, Repr

/-- The step of a path the manifest does not know, or that is out of view. -/
def unknownStep (localOnly : LocalOnly) (l : Option LocalFile) (cloud : Option CloudFile) : Option Step :=
  match l, cloud with
  | some _, none => if cfg.uploadNew localOnly then some .upload else none
  | none, some f => if !f.isFolder && cfg.canDownload then some .download else none
  | some _, some _ => some (.both false)
  | none, none => none

/-- What is done with a path whose entry is known, by what changed since. -/
def knownStep (listedNothing : Bool) (localOnly : LocalOnly) (entry : ManifestEntry)
    (localChanged remoteChanged : Bool) (l : Option LocalFile) (file : Option CloudFile) : Decision :=
  let sha256 := entry.localId.bind (·.sha256)
  match localChanged, remoteChanged, l, file with
  | _, _, none, none => if listedNothing && entry.remote.isSome then .keep else .drop
  | false, false, l, file => .store ⟨file.map .of, l.map (·.identity sha256), none⟩
  | true, false, some _, file =>
    if cfg.canUpload && (file.isSome || localOnly == .upload) then .step .upload else .keep
  | true, false, none, some f => .deletedHere ⟨some (.of f), none, none⟩
  | false, true, _, some _ => if cfg.canDownload then .step .download else .keep
  | false, true, some l, none =>
    if cfg.canDownload then (if listedNothing then .leaveInPlace else .step .quarantine)
    else .store ⟨entry.remote, some (l.identity sha256), entry.sent⟩
  | true, true, some _, some _ => .step (.both true)
  | true, true, some _, none => if cfg.uploadNew localOnly then .step .reupload else .keep
  | true, true, none, some _ => if cfg.canDownload then .step .download else .keep

def localChanged (l : Option LocalFile) (base : Option LocalIdentity) : Sync Bool :=
  match l, base with
  | some l, some base => do return !(← l.matches env base)
  | none, none => pure false
  | _, _ => pure true

def remoteChanged (file : Option CloudFile) (base : Option RemoteIdentity) : Bool :=
  match file, base with
  | some f, some base => !base.matches f
  | none, none => false
  | _, _ => true

/-- The step of a path whose entry the manifest has; a path without one is recorded at once. -/
def planKnown (v : View) (path : Text) (entry : ManifestEntry) : Sync (Option Planned) := do
  let l := v.files.lookup path
  let file := (v.cloud.lookup path).filter fun f => !f.isFolder
  let changedHere ← localChanged env l entry.localId
  match knownStep cfg v.listedNothing v.localOnly entry changedHere (remoteChanged file entry.remote) l file with
  | .step s => pure (some ⟨path, s, true, some entry⟩)
  | .drop => pure none
  | .keep => do
    remember (v.keptUnder path) entry
    pure none
  | .store e => do
    remember path e
    pure none
  | .deletedHere e => do
    modify fun w => { w with keptRemotely := w.keptRemotely ++ [path] }
    remember path e
    pure none
  | .leaveInPlace => do
    modify fun w => { w with notMoved := w.notMoved ++ [path] }
    remember (v.keptUnder path) entry
    pure none

/-- A path out of view keeps its entry; otherwise it is synced as with no state. -/
def planUnknown (v : View) (path : Text) (tracked : Bool) (entry : Option ManifestEntry) :
    Sync (Option Planned) := do
  match entry with
  | some entry => remember (v.keptUnder path) entry
  | none => pure ()
  pure ((unknownStep cfg v.localOnly (v.files.lookup path) (v.cloud.lookup path)).map
    fun s => ⟨path, s, tracked, none⟩)

/-- Whether the path goes in the manifest. -/
def isTracked (v : View) (path : Text) : Sync Bool :=
  if v.outOfView.any (· == path) then pure false else ofPanicking (cfg.visible path)

def planPath (v : View) (path : Text) : Sync (Option Planned) := do
  let tracked ← isTracked cfg v path
  match tracked, v.base.bind (·.lookup path) with
  | true, some entry => planKnown env cfg v path entry
  | tracked, entry => planUnknown cfg v path tracked entry

def planPaths (v : View) : List Text → Sync (List Planned)
  | [] => pure []
  | path :: paths => do
    let planned ← planPath env cfg v path
    let rest ← planPaths v paths
    pure (planned.toList ++ rest)

/-- Every path of either side or the manifest, in order. -/
def View.paths (v : View) : List Text := sortedSet (v.files.keys ++ v.cloud.keys ++ v.base.elim [] (·.keys))

def Planned.le (a b : Planned) : Prop := a.step.order ≤ b.step.order

instance : DecidableRel Planned.le := fun a b => inferInstanceAs (Decidable (a.step.order ≤ b.step.order))

/-! ## Steps -/

/-- The entry a step leaves; `none` also when the file went to the quarantine. -/
inductive Recorded where
  | entry (e : ManifestEntry)
  | nothing
  | movedAside
  deriving DecidableEq, Repr

def Recorded.of : Option ManifestEntry → Recorded
  | some e => .entry e
  | none => .nothing

def stepQuarantine (run : Text) (path : Text) (l : LocalFile) : Sync Recorded := do
  match ← attempt (quarantine env run path l.path) with
  | .ok _ => do
    record fun r => { r with deleted := r.deleted + 1 }
    modify fun w => { w with quarantined := w.quarantined ++ [path] }
    pure .movedAside
  | .error e => do
    addError (.moveAside path e)
    pure .nothing

def stepUpload (v : View) (step : Step) (path : Text) (l : LocalFile) : Sync Recorded := do
  let target := (v.cloud.lookup path).filter fun f => !f.isFolder
  let entry ← uploadCounted env cfg path l target
  noticeIf (entry.isSome && step == .reupload) (.uploadedAgain path)
  pure (.of entry)

/-- A remote file that holds what a failed upload was sending is not downloaded over a deletion. -/
def stepDownload (v : View) (p : Planned) (f : CloudFile) : Sync Recorded := do
  let sent := p.old.bind (·.sent)
  let unlessHash := if (v.files.lookup p.path).isSome then none else sent.bind (·.sha256)
  let entry ← downloadCounted env f unlessHash
  if entry.any fun e => e.localId.isNone then
    modify fun w => { w with keptRemotely := w.keptRemotely ++ [p.path] }
  pure (.of entry)

/-- A step is planned only for the files it needs, which the source indexes; without one of them
it would panic. -/
def takeStep (v : View) (run : Text) (p : Planned) : Sync Recorded :=
  match p.step, v.files.lookup p.path, v.cloud.lookup p.path with
  | .quarantine, some l, _ => stepQuarantine env run p.path l
  | .upload, some l, _ => stepUpload env cfg v .upload p.path l
  | .reupload, some l, _ => stepUpload env cfg v .reupload p.path l
  | .download, _, some f => stepDownload env v p f
  | .both known, some l, some f => do return .of (← syncBoth env cfg p.path l f known)
  | _, _, _ => throw .panic

/-- A failure keeps the old entry; a failed upload adds what it was sending. -/
def recordStep (v : View) (p : Planned) (recorded : Recorded) : Sync PUnit := do
  match recorded with
  | .movedAside => pure ()
  | .entry e => do
    modify fun w => { w with unconfirmed := w.unconfirmed.erase p.path }
    if p.track then remember p.path e
  | .nothing => do
    let w ← get
    let sent := w.unconfirmed.lookup p.path
    modify fun w => { w with unconfirmed := w.unconfirmed.erase p.path }
    if p.track && (p.old.isSome || sent.isSome) then
      let entry := p.old.getD .default
      remember (v.keptUnder p.path) { entry with sent := sent.or entry.sent }

def executeStep (v : View) (run : Text) (p : Planned) : Sync PUnit := do
  beginStep p.path p.step
  let recorded ← takeStep env cfg v run p
  recordStep v p recorded

/-! ## The whole run -/

/-- The listing by path; the last file of a path counts. -/
def cloudMap (files : List CloudFile) : PathMap CloudFile := files.foldl (fun m f => m.insert f.path f) ∅

/-- Files too large on either side are left alone on both. -/
def applySizeLimit (s : CaseState) (tooLarge : List Text) : CaseState :=
  let large := (s.cloud.entries.filter fun f => cfg.tooLarge f.2).map (·.1)
  { s with
    files := large.foldl (fun m p => m.erase p) s.files
    cloud := tooLarge.foldl (fun m p => m.erase p) (retain (fun _ f => !cfg.tooLarge f) s.cloud)
    outOfView := tooLarge ++ large ++ s.outOfView }

/-- The sync as a whole fails; nothing is recorded. -/
def failed (e : SyncError) : Sync Reconciled := do
  record fun r => { r with status := .failed, errors := r.errors ++ [e] }
  let w ← get
  pure ⟨w.result, true⟩

/-- The quarantine is pruned, and the notices of the run are gathered. -/
def finishQuarantine (run : Text) : Sync PUnit := do
  modify fun w => { w with result := { w.result with notices := w.result.notices ++ w.notices }, notices := [] }
  match ← attempt (pruneQuarantine env run cfg.quarantineKeepDays) with
  | .error e => addError (.prune e)
  | .ok (removed, left) => do
    noticeIf (removed > 0) (.pruned removed (cfg.quarantineKeepDays.getD 0))
    noticeIf (cfg.quarantineKeepDays.isNone && left > quarantineNoticeBytes) (.quarantineHolds (left >>> 20))

def reportPaths (v : View) (run : Text) : Sync PUnit := do
  let w ← get
  noticeIf (!w.quarantined.isEmpty) (.movedAside run w.quarantined)
  errorIf (!w.notMoved.isEmpty) (.listedNothing w.notMoved)
  errorIf (!v.found.clashes.isEmpty) (.caseClashes v.found.clashes)
  noticeIf (!v.found.undecided.isEmpty) (.undecided v.found.undecided)
  noticeIf (!w.keptRemotely.isEmpty) (.keptRemotely w.keptRemotely)

/-- The new manifest becomes the engine's and is saved. -/
def finishState : Sync PUnit := do
  let time ← now env
  modify fun w => { w with state := { w.state with lastSync := some time, manifest := some w.manifest } }
  match ← attempt (saveManifest env) with
  | .ok _ => pure ()
  | .error e => addError (.saveState e)

def finalStatus (r : SyncResult) : SyncStatus :=
  if r.errors.isEmpty then r.status
  else if r.uploaded > 0 || r.downloaded > 0 || r.deleted > 0 then .partialSuccess
  else .failed

/-- The steps and what follows them, once both sides are known. -/
def reconcileView (v : View) (run : Text) : Sync Reconciled := do
  let plan ← planPaths env cfg v v.paths
  (plan.insertionSort Planned.le).forM (executeStep env cfg v run)
  finishQuarantine env cfg run
  reportPaths v run
  finishState env
  record fun r => { r with status := finalStatus r }
  let w ← get
  pure ⟨w.result, w.retryNeeded⟩

/-- The manifest is taken out of the state, and the overwrite guard set from it before the case
matching; a sync that moved an old layout goes without one. -/
def takeManifest (movedLayout : Bool) (run : Text) : Sync (Option SyncManifest) := do
  let w ← get
  let base := if movedLayout then none else w.state.manifest
  modify fun w => { w with
    state := if movedLayout then w.state else { w.state with manifest := none }
    unconfirmed := ∅
    overwriteGuard := base.map (OverwriteGuard.of · run)
    manifest := ∅
    keptRemotely := []
    notMoved := []
    quarantined := [] }
  pure base

/-- The two sides lined up: case matching for a provider that ignores case, then the size limit. -/
def lineUp (scan : Scan) (cloud : PathMap CloudFile) (base : Option SyncManifest) : CaseState :=
  let s := if env.provider.ignoresCase then matchCase env scan.files scan.tooLarge cloud base []
    else ⟨scan.files, cloud, base, [], .none⟩
  applySizeLimit cfg s scan.tooLarge

def reconcileListing (localOnly : LocalOnly) (listing : List CloudFile) : Sync Reconciled := do
  let cloud := cloudMap listing
  match ← attempt (moveLegacyLayout env cfg cloud) with
  | .error e => failed (.moveLayout e)
  | .ok (notices, movedLayout) => do
    record fun r => { r with notices := notices }
    match ← attempt (listLocalFiles env cfg) with
    | .error e => failed (.listLocal e)
    | .ok scan => do
      let time ← now env
      let run := env.runText time
      let base ← takeManifest movedLayout run
      let scan := { scan with files := retain (fun path _ => !isReserved path) scan.files }
      let s := lineUp env cfg scan (retain (fun path _ => !isReserved path) cloud) base
      reconcileView env cfg ⟨s.files, s.cloud, s.base, s.outOfView, s.found, listing.isEmpty, localOnly⟩ run

/-- A sync starts with an empty result and a log of its own. -/
def Engine.start (w : Engine) : Engine := { w with log := [], result := .new, retryNeeded := false }

def reconcile (localOnly : LocalOnly) : Sync Reconciled := do
  modify Engine.start
  match ← attempt (loadManifest env cfg) with
  | .error e => failed (.loadState e)
  | .ok _ => do
    match ← attempt (call (.listFiles cfg.cloudFolder) (env.provider.listFiles · cfg.cloudFolder)) with
    | .error e => failed (.listCloud e)
    | .ok listing => reconcileListing env cfg localOnly listing

end

end CloudSync
