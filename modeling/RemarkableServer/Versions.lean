import Mathlib.Data.Char
import Mathlib.Data.List.AList
import Mathlib.Data.List.Lex
import Mathlib.Data.List.Sort
import RemarkableServer.Lib.RustText

/-!
# Document versions

`versions.rs`: the table of versions, the snapshots of their contents, and the
retention that deletes from both. A version is stored under the number after the
highest one stored, and its snapshot under a path made of the document's id, which is
any text. Times are nanoseconds; they are stored and compared as text.
-/
namespace Versions

open RustText

/-- The directory of the snapshots, and the crates the manager calls: SHA-256, the `to_rfc3339` of a UTC time, and
a time some days earlier, which panics when it is out of range. -/
structure Env where
  versionsDir : List Text
  sha256 : Bytes → Bytes
  rfc3339 : Int → Text
  subDays : Int → Nat → Option Int

/-- The directory that a relative or an absolute path leads to. -/
def join (dir : List Text) (path : Text) : List Text :=
  (split '/' path).foldl
    (fun dir part =>
      if part = [] ∨ part = ['.'] then dir
      else if part = ['.', '.'] then dir.dropLast
      else dir ++ [part])
    (if path.head? = some '/' then [] else dir)

/-- The document's id is joined as it is, so that documents can share a snapshot's path. -/
def Env.versionPath (env : Env) (docId : Text) (version : Nat) : List Text :=
  join env.versionsDir docId ++ [showU64 version ++ ".content".toList]

example : join ["versions".toList] "b/".toList = join ["versions".toList] "./b".toList := by decide

inductive RetentionPolicy where
  | count (maxVersions : Nat)
  | timeBased (maxAgeDays : Nat)
  | combined (maxVersions maxAgeDays : Nat)
  | unlimited
  deriving DecidableEq, Repr

structure VersionConfig where
  retention : RetentionPolicy
  storeContentSnapshots : Bool
  deriving DecidableEq, Repr

def VersionConfig.default : VersionConfig := ⟨.count 10, true⟩

/-- A row of the table. -/
structure Row where
  docId : Text
  version : Nat
  contentHash : Text
  createdAt : Text
  deviceId : Option Text
  size : Nat
  message : Option Text
  hasSnapshot : Bool
  deriving DecidableEq, Repr

/-- The row's key in the table. -/
def Row.key (r : Row) : Text × Nat := (r.docId, r.version)

inductive Fault where
  /-- A number that SQLite's integers do not hold, or a second row with a key. -/
  | sql
  | notFound (docId : Text) (version : Nat)
  | storage
  /-- A snapshot could not be removed. -/
  | io
  | panicked
  /-- The lock of the database was held by a thread that panicked. -/
  | poisoned
  deriving DecidableEq, Repr

/-- The snapshots are files, by their paths. -/
structure Manager where
  rows : List Row
  snapshots : AList fun _ : List Text => Bytes
  config : VersionConfig
  poisoned : Bool

def Manager.new (config : VersionConfig) : Manager := ⟨[], ∅, config, false⟩

/-- The values of SQLite's integers that a `u64` or `usize` is stored as. -/
def maxInteger : Nat := 9223372036854775807

/-! ## Queries -/

def ofDoc (docId : Text) (rows : List Row) : List Row := rows.filter (·.docId == docId)

def versionsOf (docId : Text) (rows : List Row) : List Nat := (ofDoc docId rows).map (·.version)

/-- `COALESCE(MAX(version), 0)`. -/
def maxVersion (docId : Text) (rows : List Row) : Nat := (versionsOf docId rows).max?.getD 0

/-- The sum is not an integer for SQLite when it is too large, and then the number is one. -/
def nextVersion (docId : Text) (rows : List Row) : Nat :=
  let n := maxVersion docId rows + 1
  if n ≤ maxInteger then n else 1

def rowAt (docId : Text) (version : Nat) (rows : List Row) : Option Row :=
  rows.find? fun r => r.key == (docId, version)

/-- The content hash of the row with the highest number. -/
def lastHash (docId : Text) (rows : List Row) : Option Text :=
  (rowAt docId (maxVersion docId rows) rows).map (·.contentHash)

/-- The versions by number, the highest first. -/
def newestFirst (docId : Text) (rows : List Row) : List Nat := (versionsOf docId rows).insertionSort (· ≥ ·)

/-- The versions that are older than the cutoff, by the text of their times. -/
def olderThan (docId : Text) (cutoff : Text) (rows : List Row) : List Nat :=
  ((ofDoc docId rows).filter fun r => decide (r.createdAt < cutoff)).map (·.version)

/-- The versions that retention deletes. -/
def versionsToDelete (env : Env) (policy : RetentionPolicy) (docId : Text) (now : Int) (rows : List Row) :
    Except Fault (List Nat) :=
  match policy with
  | .count maxVersions =>
    if maxVersions ≤ maxInteger then .ok ((newestFirst docId rows).drop maxVersions) else .error .sql
  | .timeBased maxAgeDays =>
    match env.subDays now maxAgeDays with
    | some cutoff => .ok (olderThan docId (env.rfc3339 cutoff) rows)
    | none => .error .panicked
  | .combined maxVersions maxAgeDays =>
    match env.subDays now maxAgeDays with
    | some cutoff =>
      if maxVersions ≤ maxInteger then
        let kept := (newestFirst docId rows).take maxVersions
        .ok ((olderThan docId (env.rfc3339 cutoff) rows).filter fun v => !kept.contains v)
      else .error .sql
    | none => .error .panicked
  | .unlimited => .ok []

/-! ## Operations -/

namespace Manager

/-- The snapshot is removed first. Where something lies at a refused path, it cannot be removed. -/
def deleteVersionInternal (env : Env) (refused : List Text → Bool) (docId : Text) (version : Nat) (m : Manager) :
    Option Manager :=
  let path := env.versionPath docId version
  if refused path then none
  else
    some { m with
      rows := m.rows.filter fun r => r.key != (docId, version)
      snapshots := m.snapshots.erase path }

/-- Each version in turn, until a snapshot cannot be removed. -/
def deleteVersions (env : Env) (refused : List Text → Bool) (docId : Text) (m : Manager) :
    List Nat → Manager × Except Fault Nat
  | [] => (m, .ok 0)
  | version :: versions =>
    match m.deleteVersionInternal env refused docId version with
    | none => (m, .error .io)
    | some m =>
      let rest := deleteVersions env refused docId m versions
      (rest.1, rest.2.map (1 + ·))

/-- The number of deleted versions. A panic leaves the database locked. -/
def applyRetention (env : Env) (refused : List Text → Bool) (docId : Text) (now : Int) (m : Manager) :
    Manager × Except Fault Nat :=
  if m.poisoned then (m, .error .poisoned)
  else
    match versionsToDelete env m.config.retention docId now m.rows with
    | .ok versions => m.deleteVersions env refused docId versions
    | .error .panicked => ({ m with poisoned := true }, .error .panicked)
    | .error fault => (m, .error fault)

def getVersion (docId : Text) (version : Nat) (m : Manager) : Except Fault Row :=
  if m.poisoned then .error .poisoned
  else
    match rowAt docId version m.rows with
    | some r => .ok r
    | none => .error (.notFound docId version)

/-- The row that is stored for a content that is new. -/
def newRow (env : Env) (docId : Text) (content : Bytes) (deviceId message : Option Text) (now : Int) (m : Manager) :
    Row :=
  { docId := docId
    version := nextVersion docId m.rows
    contentHash := hexEncode (env.sha256 content)
    createdAt := env.rfc3339 now
    deviceId := deviceId
    size := content.length
    message := message
    hasSnapshot := m.config.storeContentSnapshots }

/-- The content is that of the last version. -/
def unchanged (env : Env) (docId : Text) (content : Bytes) (m : Manager) : Bool :=
  lastHash docId m.rows == some (hexEncode (env.sha256 content))

def writeSnapshot (env : Env) (r : Row) (content : Bytes) (m : Manager) : Manager :=
  if r.hasSnapshot then { m with snapshots := m.snapshots.insert (env.versionPath r.docId r.version) content } else m

/-- `now` is when the version is created, `later` when retention reads the clock. -/
def createVersion (env : Env) (refused : List Text → Bool) (docId : Text) (content : Bytes)
    (deviceId message : Option Text) (now later : Int) (m : Manager) : Manager × Except Fault Row :=
  if m.poisoned then (m, .error .poisoned)
  else if m.unchanged env docId content then (m, m.getVersion docId (nextVersion docId m.rows - 1))
  else
    let r := m.newRow env docId content deviceId message now
    let m := m.writeSnapshot env r content
    if m.rows.any (·.key == r.key) then (m, .error .sql)
    else
      let kept := applyRetention env refused docId later { m with rows := r :: m.rows }
      (kept.1, kept.2.map fun _ => r)

/-- The snapshot if there is one, else what the main storage has under the content hash. -/
def getVersionContent (env : Env) (storage : Text → Option Bytes) (docId : Text) (version : Nat) (m : Manager) :
    Except Fault Bytes :=
  match m.getVersion docId version with
  | .error fault => .error fault
  | .ok r =>
    match if r.hasSnapshot then m.snapshots.lookup (env.versionPath docId version) else none with
    | some content => .ok content
    | none =>
      match storage r.contentHash with
      | some content => .ok content
      | none => .error .storage

def restoreVersion (env : Env) (refused : List Text → Bool) (storage : Text → Option Bytes) (docId : Text)
    (version : Nat) (now later : Int) (m : Manager) : Manager × Except Fault Row :=
  match m.getVersionContent env storage docId version with
  | .error fault => (m, .error fault)
  | .ok content =>
    let message := "Restored from version ".toList ++ showU64 version
    m.createVersion env refused docId content none (some message) now later

def setRetention (policy : RetentionPolicy) (m : Manager) : Manager :=
  { m with config := { m.config with retention := policy } }

def listDocuments (m : Manager) : List Text := (m.rows.map (·.docId)).dedup.insertionSort (· ≤ ·)

/-- Each document in turn, until one fails; `clock` is read for each of them. -/
def pruneDocs (env : Env) (refused : List Text → Bool) (clock : Text → Int) (m : Manager) :
    List Text → Manager × Except Fault Nat
  | [] => (m, .ok 0)
  | docId :: docs =>
    match m.applyRetention env refused docId (clock docId) with
    | (m, .error fault) => (m, .error fault)
    | (m, .ok deleted) =>
      let rest := pruneDocs env refused clock m docs
      (rest.1, rest.2.map (deleted + ·))

def pruneAll (env : Env) (refused : List Text → Bool) (clock : Text → Int) (m : Manager) : Manager × Except Fault Nat :=
  if m.poisoned then (m, .error .poisoned) else m.pruneDocs env refused clock m.listDocuments

end Manager

/-! ## Sequences of operations -/

/-- A version was stored, or reported by the operation, under a number and a content hash. -/
inductive Event where
  | stored (docId : Text) (version : Nat) (hash : Text)
  | reported (docId : Text) (version : Nat) (hash : Text)
  deriving DecidableEq

/-- What happened so far, the last first. -/
structure Sys where
  manager : Manager
  events : List Event

def Sys.new (config : VersionConfig) : Sys := ⟨.new config, []⟩

/-- With the paths whose removal is refused at the time. -/
inductive Action where
  | create (refused : List Text → Bool) (docId : Text) (content : Bytes) (deviceId message : Option Text)
      (now later : Int)
  | restore (refused : List Text → Bool) (storage : Text → Option Bytes) (docId : Text) (version : Nat)
      (now later : Int)
  | setRetention (policy : RetentionPolicy)
  | pruneAll (refused : List Text → Bool) (clock : Text → Int)

def reportOf : Except Fault Row → List Event
  | .ok r => [.reported r.docId r.version r.contentHash]
  | .error _ => []

/-- The new row, if the content is stored. -/
def storedOf (env : Env) (docId : Text) (content : Bytes) (m : Manager) : List Event :=
  if m.poisoned || m.unchanged env docId content then []
  else
    let key := (docId, nextVersion docId m.rows)
    if m.rows.any (·.key == key) then [] else [.stored key.1 key.2 (hexEncode (env.sha256 content))]

def step (env : Env) (s : Sys) : Action → Option Sys
  | .create refused docId content deviceId message now later =>
    let created := s.manager.createVersion env refused docId content deviceId message now later
    some ⟨created.1, reportOf created.2 ++ storedOf env docId content s.manager ++ s.events⟩
  | .restore refused storage docId version now later =>
    let restored := s.manager.restoreVersion env refused storage docId version now later
    let stored := (s.manager.getVersionContent env storage docId version).toOption.toList.flatMap fun content =>
      storedOf env docId content s.manager
    some ⟨restored.1, reportOf restored.2 ++ stored ++ s.events⟩
  | .setRetention policy => some ⟨s.manager.setRetention policy, s.events⟩
  | .pruneAll refused clock => some ⟨(s.manager.pruneAll env refused clock).1, s.events⟩

end Versions
