import RemarkableServer.SyncLocal

/-!
# Uploads, downloads and conflicts of a full sync

An upload reads the local file and sends it. A download fetches the remote file
and writes it over the local one, past the overwrite guard. A file that changed
on both sides goes through the conflict strategy.
-/
namespace CloudSync

open RustText Integrations CloudPaths

section
variable (env : Env) (cfg : SyncConfig)

/-- The file is still as recorded: the same size, and the same time or the same content. -/
def LocalFile.matches (l : LocalFile) (base : LocalIdentity) : Sync Bool := do
  if l.size != base.size then pure false
  else if l.mtimeNs.isSome && l.mtimeNs == base.mtimeNs then pure true
  else match base.sha256 with
  | none => pure false
  | some hash =>
    match ← attempt (readFile env l.path) with
    | .ok content => pure (sha256Hex env content == hash)
    | .error _ => pure false

/-- What the engine knows of a path after it was synced. -/
def SyncState.record (s : SyncState) (path id : Text) (hash : Option Text) (time : Int) : SyncState :=
  { s with
    fileMap := s.fileMap.insert path id
    hashMap := hash.elim s.hashMap (s.hashMap.insert path)
    mtimeMap := s.mtimeMap.insert path time }

/-- The provider vouches that the local file has the content of the remote one. -/
def sameOnBothSides (path : Text) (l : LocalFile) (f : CloudFile) : Sync (Option LocalIdentity) := do
  if f.isFolder || f.contentHash.isNone || f.size != l.size then pure none
  else match ← attempt (readFile env l.path) with
  | .error _ => pure none
  | .ok content =>
    if !env.provider.contentMatches f content then pure none
    else
      updateState (·.record path f.id f.contentHash l.mtime)
      pure (some ⟨content.length, l.mtimeNs, some (sha256Hex env content)⟩)

/-! ## Uploads -/

def uploadFile (path : Text) (l : LocalFile) : Sync ManifestEntry := do
  let components ← ofExcept (cloudPathComponents path)
  let content ← readFile env l.path
  let sending : LocalIdentity := ⟨content.length, l.mtimeNs, some (sha256Hex env content)⟩
  modify fun w => { w with unconfirmed := w.unconfirmed.insert path sending }
  let cloudFile ← call (.uploadFileAt cfg.cloudFolder components content)
    (env.provider.uploadFileAt · cfg.cloudFolder components content)
  modify fun w => { w with unconfirmed := w.unconfirmed.erase path }
  updateState (·.record path cloudFile.id cloudFile.contentHash l.mtime)
  pure ⟨some (.of cloudFile), some sending, none⟩

/-- The manifest entry of an upload that went over the file listed at its path, if one is. -/
def uploadCounted (path : Text) (l : LocalFile) (target : Option CloudFile) : Sync (Option ManifestEntry) := do
  match ← attempt (uploadFile env cfg path l) with
  | .error e => do
    addError (.upload path e)
    pure none
  | .ok entry => do
    record fun r => { r with uploaded := r.uploaded + 1 }
    let stored := entry.remote.map (·.id)
    match target with
    | none => pure (some entry)
    | some target =>
      if stored != some target.id then
        addError (.storedElsewhere path stored target.id)
        pure none
      else pure (some entry)

/-! ## Downloads -/

/-- `local_write_error`: what comes back the same on every retry is permanent. -/
def localWriteError (path : Text) : IntegrationError → IntegrationError
  | .io .isADirectory => .localPathUnusable path (.rejected .isADirectory)
  | .io .notADirectory => .localPathUnusable path (.rejected .notADirectory)
  | .io .invalidFilename => .localPathUnusable path (.rejected .invalidFilename)
  | e => e

def writing {α : Type} (path : Text) (x : Sync α) : Sync α := do
  match ← attempt x with
  | .ok a => pure a
  | .error e => fail (localWriteError path e)

/-- The content goes to its local path, past the guard, unless its hash is `unlessHash`. -/
def downloadUnless (f : CloudFile) (unlessHash : Option Text) : Sync (Option LocalIdentity) := do
  let parts ← ofExcept (cloudPathComponents f.path)
  let w ← get
  if w.tree.isDir parts then fail (.localPathUnusable f.path .directoryInTheWay)
  let content ← call (.downloadFile f.id) (env.provider.downloadFile · f.id)
  let sha256 := sha256Hex env content
  if unlessHash == some sha256 then pure none
  else match ← writing f.path (createDirsWithin env parts.dropLast) with
  | none => fail (.invalidPath f.path .resolvesOutside)
  | some dir => do
    let target := dir ++ parts.getLast?.toList
    guardOverwrite env f.path target
    let written ← writing f.path (writeReplace env dir target content)
    updateState (·.record f.path f.id f.contentHash f.modifiedAt)
    pure (some ⟨written.bytes.length, written.mtimeNs, some sha256⟩)

def downloadFile (f : CloudFile) : Sync LocalIdentity := do
  match ← downloadUnless env f none with
  | some identity => pure identity
  | none => fail (.api (f.path ++ ": not written".toList))

/-- A failure that may go away asks for a retry. -/
def noteFailure (e : IntegrationError) (what : SyncError) : Sync PUnit := do
  modify fun w => { w with retryNeeded := w.retryNeeded || !e.isPermanent }
  addError what

def downloadCounted (f : CloudFile) (unlessHash : Option Text) : Sync (Option ManifestEntry) := do
  match ← attempt (downloadUnless env f unlessHash) with
  | .ok none => pure (some ⟨some (.of f), none, none⟩)
  | .ok (some identity) => do
    record fun r => { r with downloaded := r.downloaded + 1 }
    pure (some (.synced f identity))
  | .error e => do
    noteFailure e (.download f.path e)
    pure none

/-! ## Both sides -/

/-- The path of a conflict copy beside the file. -/
def conflictCopy (f : CloudFile) (renamedTo : Text) : CloudFile :=
  let parent := ((rsplitOnce '/' f.path).map (·.1)).getD []
  { f with name := renamedTo, path := parent ++ '/' :: renamedTo }

/-- The remote version is kept beside the local one, which then goes up in its place. -/
def keepBoth (path : Text) (l : LocalFile) (f : CloudFile) (renamedTo : Text) : Sync (Option ManifestEntry) := do
  if cfg.direction == .upload then pure none
  else match ← attempt (downloadFile env (conflictCopy f renamedTo)) with
  | .error e => do
    noteFailure e (.conflictCopy e)
    pure none
  | .ok _ => do
    record fun r => { r with downloaded := r.downloaded + 1 }
    if cfg.direction == .download then pure (some ⟨some (.of f), none, none⟩)
    else uploadCounted env cfg path l (some f)

/-- The conflict between the sides; `known`: the manifest says both changed. -/
def conflictOf (state : SyncState) (l : LocalFile) (f : CloudFile) (known : Bool) : Option Conflict :=
  let localPath := cfg.localPath ++ l.path
  if known then some ⟨localPath, f, l.mtime, l.size, .bothModified, none⟩
  else detectConflict localPath l.mtime l.size true (some f) state.lastSync

/-- Without a conflict, the side changed since the last sync goes across. -/
def syncByTime (path : Text) (l : LocalFile) (f : CloudFile) : Sync (Option ManifestEntry) := do
  let w ← get
  let lastSync := (w.state.mtimeMap.lookup path).getD 0
  if l.mtime > lastSync && cfg.direction != .download then uploadCounted env cfg path l (some f)
  else if f.modifiedAt > lastSync && cfg.direction != .upload then downloadCounted env f none
  else pure none

/-- The conflict strategy decides, as far as the direction allows. -/
def settleConflict (path : Text) (l : LocalFile) (f : CloudFile) (c : Conflict) : Sync (Option ManifestEntry) := do
  let time ← now env
  match resolve cfg.conflictStrategy (env.stampText time) c with
  | .useLocal => if cfg.direction != .download then uploadCounted env cfg path l (some f) else pure none
  | .useCloud => if cfg.direction != .upload then downloadCounted env f none else pure none
  | .keepBoth renamedTo => keepBoth env cfg path l f renamedTo
  | .manualRequired => do
    modify fun w => { w with pendingConflicts := w.pendingConflicts ++ [c] }
    record fun r => { r with conflicts := r.conflicts ++ [{ c with resolution := some .manualRequired }] }
    pure none
  | .merged | .skip => pure none

/-- A file on both sides that is not unchanged on both. -/
def syncBoth (path : Text) (l : LocalFile) (f : CloudFile) (known : Bool) : Sync (Option ManifestEntry) := do
  match ← sameOnBothSides env path l f with
  | some identity => pure (some (.synced f identity))
  | none => do
    let w ← get
    match conflictOf cfg w.state l f known with
    | none => syncByTime env cfg path l f
    | some c => settleConflict env cfg path l f c

end

end CloudSync
