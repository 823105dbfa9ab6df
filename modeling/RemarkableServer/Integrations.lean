import RemarkableServer.Lib.RustText

/-!
# Cloud integrations

The files a cloud provider lists, the errors of an integration, and the conflict
resolver of the sync engine. An error carries what its message is made of: the
path it names and the reason it gives.
-/
namespace Integrations

open RustText

/-- The kinds of I/O error that the sync engine tells apart. -/
inductive IoKind where
  | notFound | isADirectory | notADirectory | invalidFilename | other
  deriving DecidableEq, Repr

/-- Why a path cannot be used. -/
inductive PathFault where
  | empty | nulByte | backslash | absolutePath | drivePrefix | dotSegment | tooLong | resolvesOutside
  | directoryNotFile | directoryInTheWay | notADirectory | rejected (kind : IoKind)
  deriving DecidableEq, Repr

def PathFault.text : PathFault → String
  | .empty => "empty"
  | .nulByte => "NUL byte"
  | .backslash => "backslash"
  | .absolutePath => "absolute path"
  | .drivePrefix => "drive prefix"
  | .dotSegment => "empty, '.' or '..' segment"
  | .tooLong => "segment longer than 255 bytes"
  | .resolvesOutside => "resolves outside sync root"
  | .directoryNotFile => "a directory, not a file"
  | .directoryInTheWay => "a local directory is in the way"
  | .notADirectory => "not a directory"
  | .rejected _ => "the local filesystem rejects it"

inductive IntegrationError where
  | oauth (why : Text)
  | tokenExpired
  | missingScope (why : Text)
  | tokenRefreshFailed (why : Text)
  | api (why : Text)
  | rateLimited (retryAfterSecs : Nat)
  | quotaExceeded
  | notFound (what : Text)
  | conflict (why : Text)
  | network (why : Text)
  | serialization (why : Text)
  | io (kind : IoKind)
  | notConfigured
  | invalidPath (path : Text) (why : PathFault)
  | notDownloadable (why : Text)
  | resyncRequired (why : Text)
  | localPathUnusable (path : Text) (why : PathFault)
  /-- The `LocalPathUnusable` of a download whose target could not be moved aside. -/
  | unsyncedInTheWay (path : Text) (cause : IntegrationError)
  deriving DecidableEq, Repr

/-- Retrying can never succeed. -/
def IntegrationError.isPermanent : IntegrationError → Bool
  | .invalidPath .. | .notFound _ | .notDownloadable _ | .localPathUnusable .. | .unsyncedInTheWay .. => true
  | _ => false

structure CloudFile where
  id : Text
  name : Text
  mimeType : Option Text
  size : Nat
  modifiedAt : Int
  contentHash : Option Text
  parentId : Option Text
  isFolder : Bool
  path : Text
  deleted : Bool
  deriving DecidableEq, Repr

inductive ProviderType where
  | googleDrive | dropbox | oneDrive
  deriving DecidableEq, Repr

/-! ## Conflicts -/

inductive ConflictResolution where
  | useLocal
  | useCloud
  | keepBoth (renamedTo : Text)
  | merged
  | manualRequired
  | skip
  deriving DecidableEq, Repr

inductive ConflictStrategy where
  | newerWins | localWins | cloudWins | keepBoth | askUser
  deriving DecidableEq, Repr

inductive ConflictType where
  | bothModified | localDeletedCloudModified | localModifiedCloudDeleted | typeChanged | hashMismatch
  deriving DecidableEq, Repr

structure Conflict where
  localPath : List Text
  cloudFile : CloudFile
  localModifiedAt : Int
  localSize : Nat
  conflictType : ConflictType
  resolution : Option ConflictResolution
  deriving DecidableEq, Repr

/-- The name of a conflict copy; `stamp` is the time, as `%Y%m%d_%H%M%S`. -/
def generateConflictName (stamp original : Text) : Text :=
  match rsplitOnce '.' original with
  | some (name, ext) => name ++ "_conflict_".toList ++ stamp ++ '.' :: ext
  | none => original ++ "_conflict_".toList ++ stamp

/-- The newer side wins; of two sides modified at the same second both are kept. -/
def resolveByTime (stamp : Text) (c : Conflict) : ConflictResolution :=
  match c.conflictType with
  | .bothModified | .hashMismatch =>
    if c.localModifiedAt > c.cloudFile.modifiedAt then .useLocal
    else if c.localModifiedAt < c.cloudFile.modifiedAt then .useCloud
    else .keepBoth (generateConflictName stamp c.cloudFile.name)
  | .localDeletedCloudModified => .useCloud
  | .localModifiedCloudDeleted => .useLocal
  | .typeChanged => .keepBoth (generateConflictName stamp c.cloudFile.name)

/-- What `resolve` answers; with `askUser` the conflict also becomes a pending one. -/
def resolve (strategy : ConflictStrategy) (stamp : Text) (c : Conflict) : ConflictResolution :=
  match strategy with
  | .newerWins => resolveByTime stamp c
  | .localWins => .useLocal
  | .cloudWins => .useCloud
  | .keepBoth => .keepBoth (generateConflictName stamp c.cloudFile.name)
  | .askUser => .manualRequired

def pathText (p : List Text) : Text := p.flatMap ('/' :: ·)

/-- The remote side of a conflict over a file deleted remotely. -/
def placeholder (localPath : List Text) : CloudFile :=
  ⟨[], localPath.getLast?.getD [], none, 0, 0, none, none, false, pathText localPath, true⟩

/-- Both sides changed since the last sync, or one did and the other is gone. -/
def detectConflict (localPath : List Text) (localModifiedAt : Int) (localSize : Nat) (localExists : Bool)
    (cloudFile : Option CloudFile) (lastSyncTime : Option Int) : Option Conflict :=
  let lastSync := lastSyncTime.getD 0
  match localExists, cloudFile with
  | true, some cloud =>
    if localModifiedAt > lastSync && cloud.modifiedAt > lastSync then
      some ⟨localPath, cloud, localModifiedAt, localSize, .bothModified, none⟩
    else none
  | false, some cloud =>
    if cloud.modifiedAt > lastSync then
      some ⟨localPath, cloud, 0, 0, .localDeletedCloudModified, none⟩
    else none
  | true, none =>
    if localModifiedAt > lastSync then
      some ⟨localPath, placeholder localPath, localModifiedAt, localSize, .localModifiedCloudDeleted, none⟩
    else none
  | false, none => none

end Integrations
