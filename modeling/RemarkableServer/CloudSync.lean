import Mathlib.Data.Char
import Mathlib.Data.List.Lex
import RemarkableServer.CloudPaths
import RemarkableServer.Lib.Effect
import RemarkableServer.Lib.FileTree

/-!
# The cloud sync engine: its state and what it does to files

The engine runs on its own fields, the local tree and a log of what it asked of
the disk, the clock and the provider. What these answer is a function of the log
so far, so any answer can be followed by any other. A path of the tree is given
relative to the sync directory; the tree has no symbolic links. Every operation
whose failure the engine passes on can fail; where it only asks whether there is
an entry, the tree answers.
-/
namespace CloudSync

open RustText Integrations CloudPaths Effect

/-- A map keyed by sync path. -/
abbrev PathMap (V : Type) := AList fun _ : Text => V

/-! ## Manifest -/

/-- A remote file as its listing or upload described it. -/
structure RemoteIdentity where
  id : Text
  contentHash : Option Text
  size : Nat
  modifiedAt : Int
  deriving DecidableEq, Repr

/-- A local file as it was when last synced. -/
structure LocalIdentity where
  size : Nat
  mtimeNs : Option Int
  sha256 : Option Text
  deriving DecidableEq, Repr

structure ManifestEntry where
  remote : Option RemoteIdentity
  localId : Option LocalIdentity
  sent : Option LocalIdentity
  deriving DecidableEq, Repr

def ManifestEntry.default : ManifestEntry := ⟨none, none, none⟩

abbrev SyncManifest := PathMap ManifestEntry

def RemoteIdentity.of (f : CloudFile) : RemoteIdentity := ⟨f.id, f.contentHash, f.size, f.modifiedAt⟩

/-- The same content hash and size when both carry a hash, otherwise the same id, size and time. -/
def RemoteIdentity.same (a b : RemoteIdentity) : Bool :=
  match a.contentHash, b.contentHash with
  | some x, some y => eqIgnoreAsciiCase x y && a.size == b.size
  | _, _ => a.id == b.id && a.size == b.size && a.modifiedAt == b.modifiedAt

def RemoteIdentity.matches (a : RemoteIdentity) (f : CloudFile) : Bool := a.same (.of f)

/-- Both sides in step. -/
def ManifestEntry.synced (remote : CloudFile) (here : LocalIdentity) : ManifestEntry :=
  ⟨some (.of remote), some here, none⟩

/-- The recorded local contents. -/
def syncedContents (m : SyncManifest) : List Text :=
  m.entries.filterMap fun e => e.2.localId.bind (·.sha256)

structure StoredManifest where
  provider : ProviderType
  account : Text
  cloudFolder : Text
  syncedAt : Int
  files : SyncManifest

structure ManifestFile where
  version : Nat
  syncs : List StoredManifest

def ManifestFile.empty : ManifestFile := ⟨0, []⟩

def manifestVersion : Nat := 1

structure ManifestKey where
  provider : ProviderType
  account : Text
  cloudFolder : Text
  deriving DecidableEq, Repr

/-! ## The local tree -/

structure DiskFile where
  bytes : Bytes
  mtimeNs : Option Int
  deriving DecidableEq, Repr

abbrev LocalTree := FileTree.Tree Text DiskFile

/-- A file found by the local scan. -/
structure LocalFile where
  path : List Text
  mtime : Int
  mtimeNs : Option Int
  size : Nat
  deriving DecidableEq, Repr

def LocalFile.identity (l : LocalFile) (sha256 : Option Text) : LocalIdentity := ⟨l.size, l.mtimeNs, sha256⟩

/-- The scan's view of a file on disk. -/
def LocalFile.of (path : List Text) (f : DiskFile) : LocalFile :=
  ⟨path, f.mtimeNs.elim 0 (· / 1000000000), f.mtimeNs, f.bytes.length⟩

/-! ## Configuration and result -/

inductive SyncDirection where
  | upload | download | bidirectional
  deriving DecidableEq, Repr

/-- `folderConfigs` are the local paths of the selective folders. -/
structure SyncConfig where
  localPath : List Text
  cloudFolder : Option Text
  direction : SyncDirection
  conflictStrategy : ConflictStrategy
  folderConfigs : List (List Text)
  excludePatterns : List Text
  maxFileSize : Option Nat
  syncHidden : Bool
  persistState : Bool
  quarantineKeepDays : Option Nat
  deriving DecidableEq, Repr

inductive SyncStatus where
  | success | partialSuccess | failed | cancelled
  deriving DecidableEq, Repr

/-- An error of a sync, by what its message is made of. -/
inductive SyncError where
  | loadState (e : IntegrationError)
  | listCloud (e : IntegrationError)
  | moveLayout (e : IntegrationError)
  | listLocal (e : IntegrationError)
  | moveAside (path : Text) (e : IntegrationError)
  | upload (path : Text) (e : IntegrationError)
  | storedElsewhere (path : Text) (stored : Option Text) (target : Text)
  | download (path : Text) (e : IntegrationError)
  | conflictCopy (e : IntegrationError)
  | prune (e : IntegrationError)
  | listedNothing (paths : List Text)
  | caseClashes (clashes : List (List Text))
  | saveState (e : IntegrationError)
  | skipped (path : Text) (e : IntegrationError)
  | stat (path : Text) (e : IntegrationError)
  | fetch (e : IntegrationError)
  deriving DecidableEq, Repr

/-- A notice of a sync, by what its message is made of. -/
inductive Notice where
  | layoutMoved (src dst : List Text)
  | layoutSubfolder (dir : List Text) (persistState : Bool)
  | unsyncedMoved (path : Text) (dst : List Text)
  | uploadedAgain (path : Text)
  | pruned (removed : Nat) (keepDays : Nat)
  | quarantineHolds (mebibytes : Nat)
  | movedAside (run : Text) (paths : List Text)
  | undecided (paths : List Text)
  | keptRemotely (paths : List Text)
  deriving DecidableEq, Repr

structure SyncResult where
  status : SyncStatus
  uploaded : Nat
  downloaded : Nat
  deleted : Nat
  conflicts : List Conflict
  errors : List SyncError
  notices : List Notice
  deriving DecidableEq, Repr

def SyncResult.new : SyncResult := ⟨.success, 0, 0, 0, [], [], []⟩

structure SyncState where
  lastSync : Option Int
  cursor : Option Text
  fileMap : PathMap Text
  hashMap : PathMap Text
  mtimeMap : PathMap Int
  manifest : Option SyncManifest

/-- The contents a download may overwrite, and this sync's quarantine run. -/
structure OverwriteGuard where
  synced : List Text
  run : Text
  deriving DecidableEq, Repr

def OverwriteGuard.of (manifest : SyncManifest) (run : Text) : OverwriteGuard := ⟨syncedContents manifest, run⟩

/-! ## What is outside the engine -/

inductive DiskOp where
  | stat (path : List Text)
  | read (path : List Text)
  | scan
  | createDir (path : List Text)
  | write (path : List Text)
  | move (src dst : List Text)
  | moveDir (src dst : List Text)
  | removeDir (path : List Text)
  | removeAll (path : List Text)
  | sync (path : List Text)
  deriving DecidableEq, Repr

/-- The methods of a provider; a sync calls only some of them. -/
inductive Call where
  | accountId
  | listFiles (folder : Option Text)
  | legacyLayoutDir (folder : Option Text)
  | getChangesIn (folder cursor : Option Text)
  | downloadFile (id : Text)
  | uploadFileAt (folder : Option Text) (components : List Text) (content : Bytes)
  | createFolder (folder : Option Text) (name : Text)
  | delete (id : Text)
  | moveFile (id newParent : Text) (newName : Option Text)
  deriving DecidableEq, Repr

/-- What a full sync does with a path. -/
inductive Step where
  | quarantine
  | upload
  | reupload
  | download
  | both (known : Bool)
  deriving DecidableEq, Repr

inductive Event where
  | clock
  | disk (op : DiskOp) (ok : Bool)
  | call (c : Call) (ok : Bool)
  | step (path : Text) (s : Step)
  deriving DecidableEq, Repr

/-- Newest first. -/
abbrev Log := List Event

structure Provider where
  providerType : ProviderType
  ignoresCase : Bool
  folderKey : Option Text → Text
  contentMatches : CloudFile → Bytes → Bool
  accountId : Log → Except IntegrationError (Option Text)
  listFiles : Log → Option Text → Except IntegrationError (List CloudFile)
  legacyLayoutDir : Log → Option Text → Except IntegrationError (Option (List Text))
  uploadFileAt : Log → Option Text → List Text → Bytes → Except IntegrationError CloudFile
  downloadFile : Log → Text → Except IntegrationError Bytes
  getChangesIn : Log → Option Text → Option Text → Except IntegrationError (List CloudFile × Option Text)

/-- The provider, the machine the engine runs on (its clock in seconds, the time stamp of a file
written, the operations its disk fails) and the crates and Unicode tables it uses. -/
structure Env where
  provider : Provider
  clock : Log → Int
  fileTime : Log → Option Int
  ioError : Log → DiskOp → Option IoKind
  sha256 : Bytes → Bytes
  toLowercase : Text → Text
  percentDecode : Text → Option Text
  runText : Int → Text
  parseRun : Text → Option Int
  stampText : Int → Text
  toManifest : Bytes → Except Text ManifestFile
  fromManifest : ManifestFile → Bytes
  toMarker : Bytes → Except Text (List Text)
  fromMarker : List Text → Bytes

/-- The fields of `CloudSync` while it runs, with the local tree, the log, and what the sync in
progress has gathered. -/
structure Engine where
  tree : LocalTree
  log : Log
  state : SyncState
  manifestKey : Option ManifestKey
  overwriteGuard : Option OverwriteGuard
  unconfirmed : PathMap LocalIdentity
  notices : List Notice
  pendingConflicts : List Conflict
  result : SyncResult
  retryNeeded : Bool
  manifest : SyncManifest
  keptRemotely : List Text
  notMoved : List Text
  quarantined : List Text

inductive Fault where
  | error (e : IntegrationError)
  | panic
  deriving DecidableEq, Repr

abbrev Sync := EStateM Fault Engine

def fail {α : Type} (e : IntegrationError) : Sync α := throw (.error e)

/-- The result of a computation; a panic is none. -/
def attempt {α : Type} (x : Sync α) : Sync (Except IntegrationError α) := fun w =>
  match x w with
  | .ok a w' => .ok (.ok a) w'
  | .error (.error e) w' => .ok (.error e) w'
  | .error .panic w' => .error .panic w'

def ofExcept {α : Type} : Except IntegrationError α → Sync α
  | .ok a => pure a
  | .error e => fail e

/-- What may panic. -/
def ofPanicking {α : Type} : Option α → Sync α
  | some a => pure a
  | none => throw .panic

def record (f : SyncResult → SyncResult) : Sync PUnit := modify fun w => { w with result := f w.result }

def addError (e : SyncError) : Sync PUnit := record fun r => { r with errors := r.errors ++ [e] }

def addNotice (n : Notice) : Sync PUnit := record fun r => { r with notices := r.notices ++ [n] }

def errorIf (c : Bool) (e : SyncError) : Sync PUnit := if c then addError e else pure ()

def noticeIf (c : Bool) (n : Notice) : Sync PUnit := if c then addNotice n else pure ()

def updateState (f : SyncState → SyncState) : Sync PUnit := modify fun w => { w with state := f w.state }

/-- An entry of the new manifest. -/
def remember (path : Text) (e : ManifestEntry) : Sync PUnit :=
  modify fun w => { w with manifest := w.manifest.insert path e }

section
variable (env : Env)

/-- One operation on the disk, which fails when the machine says so or when the tree refuses it. -/
def disk {α : Type} (op : DiskOp) (act : LocalTree → Except IoKind (α × LocalTree)) : Sync α := fun w =>
  match env.ioError w.log op with
  | some kind => .error (.error (.io kind)) { w with log := .disk op false :: w.log }
  | none =>
    match act w.tree with
    | .error kind => .error (.error (.io kind)) { w with log := .disk op false :: w.log }
    | .ok (a, t) => .ok a { w with log := .disk op true :: w.log, tree := t }

/-- One call of the provider. -/
def call {α : Type} (c : Call) (answer : Log → Except IntegrationError α) : Sync α := fun w =>
  match answer w.log with
  | .error e => .error (.error e) { w with log := .call c false :: w.log }
  | .ok a => .ok a { w with log := .call c true :: w.log }

/-- The log says which path is dealt with next. -/
def beginStep (path : Text) (s : Step) : Sync PUnit := modify fun w => { w with log := .step path s :: w.log }

/-- The clock, in seconds. -/
def now : Sync Int := fun w => .ok (env.clock w.log) { w with log := .clock :: w.log }

def sha256Hex (content : Bytes) : Text := hexEncode (env.sha256 content)

/-! ## Disk operations -/

/-- There is an entry at the path, and whether it is a directory. -/
def stat (p : List Text) : Sync Bool :=
  disk env (.stat p) fun t => if t.taken p then .ok (t.isDir p, t) else .error .notFound

def readFile (p : List Text) : Sync Bytes :=
  disk env (.read p) fun t =>
    match t.file? p with
    | some f => .ok (f.bytes, t)
    | none => .error (if t.isDir p then .isADirectory else .notFound)

/-- Directories are created one level at a time; `none` if one of them is a file. -/
def createDirsFrom (cur : List Text) : List Text → Sync (Option (List Text))
  | [] => pure (some cur)
  | c :: rel => do
    let next := cur ++ [c]
    let w ← get
    if w.tree.taken next then
      if ← stat env next then createDirsFrom next rel else pure none
    else
      disk env (.createDir next) fun t => .ok ((), t.mkdir next)
      createDirsFrom next rel

def createDirsWithin (rel : List Text) : Sync (Option (List Text)) := do
  let _ ← stat env []
  createDirsFrom env [] rel

/-- A fresh temporary file is renamed to the target, so a failure leaves the target as it was. -/
def writeReplace (dir target : List Text) (content : Bytes) : Sync DiskFile := do
  let w ← get
  let written : DiskFile := ⟨content, env.fileTime w.log⟩
  disk env (.write target) fun t =>
    if !t.isDir dir then .error .notFound
    else if t.isDir target then .error .isADirectory
    else .ok (written, t.write target written)

/-- Empty directories are removed from the path up, as far as they are empty. -/
def removeEmptied : Nat → List Text → Sync PUnit
  | 0, _ => pure ()
  | n + 1, p => do
    let removed ← attempt (disk env (.removeDir p) fun t =>
      match t.rmdir? p with
      | some t' => .ok ((), t')
      | none => .error .other)
    match removed with
    | .ok _ => removeEmptied n p.dropLast
    | .error _ => pure ()

/-- The name a file gets when the first `n` names for it are taken. -/
def numberedName (name : Text) (n : Nat) : Text :=
  if n = 0 then name else name ++ " (".toList ++ showU64 (n + 1) ++ [')']

/-- The path `dir/name`, with a number if that is taken. -/
def freePath (t : LocalTree) (dir : List Text) (name : Text) : List Text :=
  t.firstFree fun n => dir ++ [numberedName name n]

/-- The local file at `src` is moved to the quarantine, and directories left empty are removed. -/
def quarantine (run path : Text) (src : List Text) : Sync (List Text) := do
  let parts ← ofExcept (cloudPathComponents path)
  match parts.getLast? with
  | none => fail (.invalidPath path .empty)
  | some name => do
    let _ ← stat env []
    let _ ← stat env src.dropLast
    if ← stat env src then fail (.localPathUnusable path .directoryNotFile)
    match ← createDirsWithin env ([quarantineDir, run] ++ parts.dropLast) with
    | none => fail (.invalidPath path .resolvesOutside)
    | some dir => do
      let w ← get
      let dst := freePath w.tree dir name
      disk env (.move src dst) fun t =>
        if (t.file? src).isSome then .ok ((), t.move src dst) else .error .notFound
      removeEmptied env src.dropLast.length src.dropLast
      pure dst

/-- A file that was never synced leaves its path for the quarantine, with a notice. -/
def moveUnsynced (run path : Text) (target : List Text) : Sync PUnit := do
  match ← attempt (quarantine env run path target) with
  | .ok dst => modify fun w => { w with notices := w.notices ++ [.unsyncedMoved path dst] }
  | .error e => fail (.unsyncedInTheWay path e)

/-- Before a download writes over a local file, one whose content is not recorded as synced is
moved to the quarantine. -/
def guardOverwrite (path : Text) (target : List Text) : Sync PUnit := do
  let w ← get
  match w.overwriteGuard with
  | none => pure ()
  | some overwrite =>
    if (w.tree.file? target).isNone then pure ()
    else match ← attempt (readFile env target) with
    | .ok content =>
      if overwrite.synced.any (· == sha256Hex env content) then pure ()
      else moveUnsynced env overwrite.run path target
    | .error _ => moveUnsynced env overwrite.run path target

end

end CloudSync
