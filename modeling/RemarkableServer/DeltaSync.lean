import RemarkableServer.Reconcile

/-!
# Full sync, resync and delta sync

A full sync reconciles both sides. A delta sync downloads what the change feed
lists since the cursor and moves the cursor on, unless a change failed for a
reason that may go away. Without a usable cursor it runs a resync: a fresh cursor
is taken and both sides are reconciled, but files that exist only locally stay
where they are.
-/
namespace CloudSync

open RustText Integrations CloudPaths

section
variable (env : Env) (cfg : SyncConfig)

/-- A requested full sync. -/
def sync : Sync SyncResult := do
  let r ← reconcile env cfg .upload
  pure r.result

/-- The fresh cursor is stored once nothing remote is left to retry. -/
def resync : Sync SyncResult := do
  modify Engine.start
  let page ← call (.getChangesIn cfg.cloudFolder none) (env.provider.getChangesIn · cfg.cloudFolder none)
  let r ← reconcile env cfg .keep
  if !r.retryNeeded then updateState fun s => { s with cursor := page.2 }
  pure r.result

/-! ## Delta sync -/

/-- The next full sync finds both sides of the download in step. -/
def recordDownload (f : CloudFile) (identity : LocalIdentity) : Sync PUnit := do
  if ← ofPanicking (cfg.visible f.path) then
    updateState fun s => { s with manifest := s.manifest.map (·.insert f.path (.synced f identity)) }

/-- The time of what is at the path, in whole seconds; a directory's is up to the machine. -/
def localTime (w : Engine) (p : List Text) : Int :=
  (LocalFile.of p ((w.tree.file? p).getD ⟨[], env.fileTime w.log⟩)).mtime

/-- The size of what is at the path. -/
def localSize (w : Engine) (p : List Text) : Nat := ((w.tree.file? p).map (·.bytes.length)).getD 0

/-- What is at the path is newer than the last sync of the path. -/
def isNewer (w : Engine) (f : CloudFile) (p : List Text) : Bool :=
  localTime env w p > (w.state.mtimeMap.lookup f.path).getD 0

/-- What is at the path counts as edited, so the conflict strategy decides. `none`: it stays. -/
def fetchOverEdit (f : CloudFile) (p : List Text) : Sync (Option LocalIdentity) := do
  let w ← get
  let c : Conflict := ⟨cfg.localPath ++ p, f, localTime env w p, localSize w p, .bothModified, none⟩
  let stamp ← now env
  match resolve cfg.conflictStrategy (env.stampText stamp) c with
  | .useCloud => do
    let identity ← downloadFile env f
    pure (some identity)
  | .manualRequired => do
    modify fun w => { w with pendingConflicts := w.pendingConflicts ++ [c] }
    record fun r => { r with conflicts := r.conflicts ++ [{ c with resolution := some .manualRequired }] }
    pure none
  | _ => pure none

/-- A change is downloaded, unless what is at its path counts as edited and is kept. -/
def fetchChange (f : CloudFile) (p : List Text) : Sync (Option LocalIdentity) := do
  let w ← get
  if w.tree.taken p && isNewer env w f p then fetchOverEdit env cfg f p
  else
    let identity ← downloadFile env f
    pure (some identity)

/-- The change is fetched and recorded; a failure that may go away holds the cursor. -/
def takeChange (f : CloudFile) (p : List Text) : Sync PUnit := do
  match ← attempt (fetchChange env cfg f p) with
  | .error e => noteFailure e (.fetch e)
  | .ok none => pure ()
  | .ok (some identity) => do
    record fun r => { r with downloaded := r.downloaded + 1 }
    recordDownload cfg f identity

/-- A change of the feed that can be downloaded. -/
def isApplied (f : CloudFile) : Bool := !f.deleted && !f.isFolder && !isReserved f.path && !cfg.tooLarge f

def applyChange (f : CloudFile) : Sync PUnit := do
  if !isApplied cfg f then pure ()
  else match cloudPathComponents f.path with
  | .error e => noteFailure e (.skipped f.path e)
  | .ok p => do
    let w ← get
    if w.tree.taken p then
      match ← attempt (stat env p) with
      | .error e => noteFailure e (.stat f.path e)
      | .ok _ => takeChange env cfg f p
    else takeChange env cfg f p

/-- The end of a page: the manifest is saved. -/
def finishPage : Sync SyncResult := do
  let time ← now env
  updateState fun s => { s with lastSync := some time }
  match ← attempt (saveManifest env) with
  | .ok _ => pure ()
  | .error e => addError (.saveState e)
  record fun r => { r with status := if r.errors.isEmpty then r.status else .partialSuccess }
  let w ← get
  pure w.result

/-- The page is applied change by change; then the cursor moves on, unless it is held. -/
def applyPage (changes : List CloudFile) (newCursor : Option Text) : Sync SyncResult := do
  changes.forM (applyChange env cfg)
  modify fun w => { w with result := { w.result with notices := w.result.notices ++ w.notices }, notices := [] }
  let w ← get
  if !w.retryNeeded then updateState fun s => { s with cursor := newCursor }
  finishPage env

/-- The overwrite guard of a delta sync. -/
def setGuard : Sync PUnit := do
  let time ← now env
  modify fun w => { w with overwriteGuard := w.state.manifest.map (OverwriteGuard.of · (env.runText time)) }

def deltaSync : Sync SyncResult := do
  modify Engine.start
  if cfg.direction == .upload then pure .new
  else
    let w ← get
    match w.state.cursor with
    | none => resync env cfg
    | some cursor => do
      loadManifest env cfg
      setGuard env
      let page ← attempt (call (.getChangesIn cfg.cloudFolder (some cursor))
        (env.provider.getChangesIn · cfg.cloudFolder (some cursor)))
      match page with
      | .error (.resyncRequired _) => resync env cfg
      | .error e => fail e
      | .ok (changes, newCursor) => applyPage env cfg changes newCursor

end

end CloudSync
