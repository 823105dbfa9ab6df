import Mathlib.Data.Char
import Mathlib.Data.List.AList
import Mathlib.Data.List.Lex
import Mathlib.Data.List.Sort
import RemarkableServer.SyncIndex

/-!
# The blob store

Blob files on disk are the truth; `sync.db` catalogues them, holds the root row
and keeps a projection of the index blobs. An operation that is not atomic is
given by its steps, in the order they take effect, and as their composition.
-/
namespace Store

open RustText SyncIndex

/-- A table keyed by hash. -/
abbrev Table (V : Type) := AList fun _ : Text => V

structure BlobFile where
  bytes : Bytes
  modified : Int
  deriving DecidableEq, Repr

structure BlobRow where
  size : Nat
  updatedAt : Int
  deriving DecidableEq, Repr

/-- A row of `indexes` together with its rows of `entries`, which a foreign key deletes with it. -/
structure IndexRow where
  schema : Option Text
  ok : Bool
  error : Option IndexError
  parserVersion : Nat
  entries : List IndexEntry
  deriving DecidableEq, Repr

structure SyncRoot where
  hash : Text
  generation : Nat
  schemaVersion : Nat
  deriving DecidableEq, Repr

def SyncRoot.empty : SyncRoot := ⟨[], 0, 3⟩

structure RootRow extends SyncRoot where
  previousHash : Text
  deriving DecidableEq, Repr

inductive StoreError where
  | invalidHash (hash : Text)
  | notFound (hash : Text)
  | generationMismatch (current : Nat)
  | unparsedIndex (hash : Text)
  | noCurrentRoot
  | rootsDisagree (generation : Nat) (json db : Text)
  deriving DecidableEq, Repr

/-- The store of one running process and the directory it works on. -/
structure State where
  files : Table BlobFile
  blobs : Table BlobRow
  indexes : Table IndexRow
  root : RootRow
  mirror : Option SyncRoot
  cachedRoot : SyncRoot
  versions : List Text

@[simp] theorem lookup_insert_ite {V : Type} (t : Table V) (h k : Text) (v : V) :
    (t.insert h v).lookup k = if k = h then some v else t.lookup k := by
  split
  next e => rw [e, AList.lookup_insert]
  next e => exact AList.lookup_insert_ne e

@[simp] theorem lookup_erase_ite {V : Type} (t : Table V) (h k : Text) :
    (t.erase h).lookup k = if k = h then none else t.lookup k := by
  split
  next e => rw [e, AList.lookup_erase]
  next e => exact AList.lookup_erase_ne e

def parserVersion : Nat := 1

/-- The largest number of seconds, `i64::MAX`. -/
def maxSecs : Nat := 9223372036854775807

/-- Blobs garbage-collected per transaction. -/
def gcBatchSize : Nat := 256

namespace State

/-- `Storage::exists`. -/
def blobExists (s : State) (hash : Text) : Bool := isValidHash hash && (s.files.lookup hash).isSome

theorem blobExists_iff {s : State} {hash : Text} :
    s.blobExists hash = true ↔ isValidHash hash = true ∧ ∃ file, s.files.lookup hash = some file := by
  simp [blobExists, Option.isSome_iff_exists]

def get (s : State) (hash : Text) : Except StoreError Bytes :=
  if !isValidHash hash then .error (.invalidHash hash)
  else match s.files.lookup hash with
  | none => .error (.notFound hash)
  | some file => .ok file.bytes

/-! ## Blobs -/

/-- The file of a blob lands: a rename into place, over an older one. -/
def writeFile (s : State) (hash : Text) (data : Bytes) (modified : Int) : State :=
  { s with files := s.files.insert hash ⟨data, modified⟩ }

/-- The row of a blob is inserted or updated. -/
def catalogue (s : State) (hash : Text) (size : Nat) (now : Int) : State :=
  { s with blobs := s.blobs.insert hash ⟨size, now⟩ }

/-- An earlier parse of a blob is forgotten, entries and all. -/
def forgetIndex (s : State) (hash : Text) : State := { s with indexes := s.indexes.erase hash }

/-- `put_with_hash`, and `put_file_with_hash` with the staged file's own modification time. -/
def putWithHash (s : State) (data : Bytes) (hash : Text) (modified now : Int) : Except StoreError State :=
  if !isValidHash hash then .error (.invalidHash hash)
  else .ok (((s.writeFile hash data modified).catalogue hash data.length now).forgetIndex hash)

def removeFile (s : State) (hash : Text) : State := { s with files := s.files.erase hash }

def dropRow (s : State) (hash : Text) : State := { s with blobs := s.blobs.erase hash }

def delete (s : State) (hash : Text) : Except StoreError State :=
  if !isValidHash hash then .error (.invalidHash hash)
  else .ok (((s.removeFile hash).dropRow hash).forgetIndex hash)

def touchOne (now : Int) (blobs : Table BlobRow) (hash : Text) : Table BlobRow :=
  match blobs.lookup hash with
  | some row => blobs.insert hash { row with updatedAt := now }
  | none => blobs

/-- Mark stored blobs as just used. -/
def touch (s : State) (hashes : List Text) (now : Int) : State :=
  { s with blobs := hashes.foldl (touchOne now) s.blobs }

/-! ## The projection of index blobs -/

/-- `INSERT OR REPLACE` into the entries of one index, whose key is the name. -/
def insertOrReplace (rows : List IndexEntry) (e : IndexEntry) : List IndexEntry :=
  rows.filter (fun r => r.name ≠ e.name) ++ [e]

/-- The transaction that records what the strict reader made of an index. -/
def recordIndex (s : State) (hash : Text) (parsed : Except IndexError (Text × List IndexEntry)) : State × Bool :=
  match parsed with
  | .ok (schema, entries) =>
    let row := ⟨some schema, true, none, parserVersion, entries.foldl insertOrReplace []⟩
    ({ s with indexes := s.indexes.insert hash row }, true)
  | .error e =>
    let row := ⟨none, false, some e, parserVersion, []⟩
    ({ s with indexes := s.indexes.insert hash row }, false)

/-- What `ensure_indexed` finds recorded by the current parser. -/
def indexSeen (s : State) (hash : Text) : Option Bool :=
  match s.indexes.lookup hash with
  | some row => if row.parserVersion ≥ parserVersion then some row.ok else none
  | none => none

/-- Parse and record an index blob unless that has been done. -/
def ensureIndexed (s : State) (hash : Text) : State × Bool :=
  if !isValidHash hash then (s, false)
  else match s.indexSeen hash with
  | some ok => (s, ok)
  | none =>
    match s.files.lookup hash with
    | none => (s, false)
    | some file => s.recordIndex hash (parseIndex file.bytes)

def nameLe (a b : IndexEntry) : Prop := a.name ≤ b.name

instance : DecidableRel nameLe := fun a b => inferInstanceAs (Decidable (a.name ≤ b.name))

/-- The entries of a parsed index, by name. -/
def indexEntries (s : State) (hash : Text) : Option (List IndexEntry) :=
  match s.indexes.lookup hash with
  | some row => if row.ok then some (row.entries.insertionSort nameLe) else none
  | none => none

/-- Parse the index and the document indexes it lists. -/
def indexTree (s : State) (rootHash : Text) : State :=
  let (s, ok) := s.ensureIndexed rootHash
  if !ok then s
  else (((s.indexEntries rootHash).getD []).filter IndexEntry.isIndex).foldl
    (fun s doc => (s.ensureIndexed doc.hash).1) s

/-! ## The root -/

/-- The compare-and-swap transaction of `set_root_if`. -/
def commitRoot (s : State) (hash : Text) (expected : Option Nat) : Except StoreError (State × SyncRoot) :=
  if expected.any (· ≠ s.root.generation) then .error (.generationMismatch s.root.generation)
  else
    let root := ⟨hash, s.root.generation + 1, s.root.schemaVersion⟩
    .ok ({ s with root := ⟨root, s.root.hash⟩ }, root)

/-- Mirror the root to `root.json`, never over a newer generation. -/
def writeMirror (s : State) (root : SyncRoot) : State :=
  if s.mirror.any (fun m => m.generation > root.generation) then s else { s with mirror := some root }

/-- `set_root_if`: the transaction, the mirror, the cached root, then the projection of its tree. -/
def setRootIf (s : State) (hash : Text) (expected : Option Nat) : State × Except StoreError SyncRoot :=
  match s.commitRoot hash expected with
  | .error e => (s, .error e)
  | .ok (s, root) => (({ s.writeMirror root with cachedRoot := root }).indexTree root.hash, .ok root)

/-- The root row in the database, or the last known one if it cannot be read. -/
def getRoot (s : State) (readable : Bool) : State × SyncRoot :=
  if readable then ({ s with cachedRoot := s.root.toSyncRoot }, s.root.toSyncRoot) else (s, s.cachedRoot)

/-- The transaction of `clear`, which also resets the root. -/
def clearTables (s : State) : State :=
  { s with blobs := ∅, indexes := ∅, root := { s.root with hash := [], generation := 0, previousHash := [] } }

def clearFiles (s : State) : State := { s with files := ∅ }

def removeMirror (s : State) : State := { s with mirror := none }

def clear (s : State) : State :=
  removeMirror { s.clearFiles.clearTables with cachedRoot := .empty }

/-! ## Opening -/

/-- The root row, created from `root.json` (or empty) the first time. -/
def loadOrImportRoot (row : Option RootRow) (json : Option SyncRoot) : RootRow :=
  row.getD ⟨json.getD .empty, []⟩

/-- A `root.json` ahead of the database is adopted; one that disagrees is an error. -/
def adoptNewerRootJson (json : Option SyncRoot) (row : RootRow) : Except StoreError RootRow :=
  match json with
  | none => .ok row
  | some mirror =>
    if mirror.generation > row.generation then .ok ⟨mirror, row.hash⟩
    else if mirror.generation = row.generation ∧ mirror.hash ≠ row.hash ∧ ¬ mirror.hash.isEmpty then
      .error (.rootsDisagree row.generation mirror.hash row.hash)
    else .ok row

/-- Make the blob table match the files on disk. -/
def reconcileBlobs (s : State) : State :=
  let added := s.files.entries.foldl
    (fun t f => if (t.lookup f.1).isSome then t else t.insert f.1 ⟨f.2.bytes.length, f.2.modified⟩) s.blobs
  { s with blobs := s.blobs.keys.foldl (fun t h => if (s.files.lookup h).isSome then t else t.erase h) added }

/-- `Storage::new` on a directory without `sync.db`, up to the projection of its tree. -/
def new (files : Table BlobFile) (json : Option SyncRoot) (versions : List Text) : State :=
  let row := loadOrImportRoot none json
  reconcileBlobs ⟨files, ∅, ∅, row, json, row.toSyncRoot, versions⟩

/-- `Storage::new` on the directory of a process that stopped, up to the projection of its tree. -/
def reopen (s : State) : Except StoreError State :=
  (adoptNewerRootJson s.mirror (loadOrImportRoot (some s.root) s.mirror)).map fun row =>
    ({ s with root := row, cachedRoot := row.toSyncRoot }).reconcileBlobs

/-! ## The live set -/

/-- A hash and, for an index, its children join the live set. -/
def addDoc (s : State) (strict : Bool) (live : List Text) (doc : IndexEntry) : Except StoreError (List Text) :=
  if !doc.isIndex then .ok (doc.hash :: live)
  else match s.indexEntries doc.hash with
  | some files => .ok (doc.hash :: (files.map IndexEntry.hash ++ live))
  | none =>
    if strict then .error (.unparsedIndex doc.hash)
    else match s.get doc.hash with
    | .ok bytes => .ok (doc.hash :: (lenientChildren bytes ++ live))
    | .error _ => .ok (doc.hash :: live)

def addLenient (s : State) (live : List Text) (doc : Text) : List Text :=
  match s.get doc with
  | .ok bytes => doc :: (lenientChildren bytes ++ live)
  | .error _ => doc :: live

/-- Add the tree under a root. A missing or unparsed index is an error if `strict`, else it is
read leniently where it can be. -/
def addTree (s : State) (rootHash : Text) (strict : Bool) (live : List Text) :
    State × Except StoreError (List Text) :=
  if rootHash.isEmpty then (s, .ok live)
  else
    let live := rootHash :: live
    let s := s.indexTree rootHash
    match s.indexEntries rootHash with
    | some docs => (s, docs.foldlM (s.addDoc strict) live)
    | none =>
      if strict then (s, .error (.unparsedIndex rootHash))
      else match s.get rootHash with
      | .ok bytes => (s, .ok ((lenientChildren bytes).foldl s.addLenient live))
      | .error _ => (s, .ok live)

/-- Whether the current or previous root's tree references `hash`; yes if it cannot be read. -/
def isReferenced (s : State) (hash : Text) : State × Bool :=
  let (s₁, walked) := s.addTree s.root.hash true []
  match walked with
  | .error _ => (s₁, true)
  | .ok live =>
    let (s₂, walked) := s₁.addTree s.root.previousHash false live
    match walked with
    | .error _ => (s₂, true)
    | .ok live => (s₂, live.contains hash)

/-! ## Garbage collection -/

structure GcPlan where
  rootHash : Text
  generation : Nat
  previousHash : Text
  graceSecs : Nat
  cutoff : Int
  candidates : List Text
  deriving DecidableEq, Repr

structure GcReport where
  dryRun : Bool
  graceSecs : Nat
  generation : Nat
  candidates : Nat
  deleted : Nat
  bytes : Nat
  skipped : Nat
  aborted : Option (Nat × Nat)
  hashes : List Text
  deriving DecidableEq, Repr

/-- Hashes of the rows last used at `cutoff` or before, in order. -/
def oldBlobs (s : State) (cutoff : Int) : List Text :=
  ((s.blobs.entries.filter fun r => r.2.updatedAt ≤ cutoff).map Sigma.fst).insertionSort (· ≤ ·)

/-- The unreachable report together with the root it was computed against. -/
def gcPlan (s : State) (graceSecs : Nat) (now : Int) : State × Except StoreError GcPlan :=
  let root := s.root
  let (s₁, walked) := s.addTree root.hash true s.versions
  match walked with
  | .error e => (s₁, .error e)
  | .ok live =>
    let (s₂, walked) := s₁.addTree root.previousHash false live
    match walked with
    | .error e => (s₂, .error e)
    | .ok live =>
      let cutoff := now - min graceSecs maxSecs
      let candidates := (s₂.oldBlobs cutoff).filter fun h => !live.contains h
      (s₂, .ok ⟨root.hash, root.generation, root.previousHash, graceSecs, cutoff, candidates⟩)

/-- The checks of one candidate inside a batch, and its removal. `unremovable` are the files
whose removal fails. -/
def gcBlob (plan : GcPlan) (unremovable : List Text) (p : State × GcReport) (hash : Text) : State × GcReport :=
  let (s, report) := p
  let skip := (s, { report with skipped := report.skipped + 1 })
  if hash = s.root.hash ∨ hash = s.root.previousHash ∨ hash ∈ s.versions then skip
  else match s.blobs.lookup hash with
  | none => skip
  | some row =>
    if row.updatedAt > plan.cutoff ∨ (s.files.lookup hash).any (fun f => f.modified > plan.cutoff) then skip
    else if hash ∈ unremovable then skip
    else
      (((s.removeFile hash).dropRow hash).forgetIndex hash,
        { report with
          deleted := report.deleted + 1
          bytes := report.bytes + row.size
          hashes := report.hashes ++ [hash] })

/-- One batch, in one transaction; `aborted` if the root is not the plan's any more. -/
def gcBatch (plan : GcPlan) (unremovable : List Text) (s : State) (report : GcReport) (batch : List Text) :
    State × GcReport :=
  if (s.root.generation, s.root.hash, s.root.previousHash) ≠ (plan.generation, plan.rootHash, plan.previousHash) then
    (s, { report with aborted := some (plan.generation, s.root.generation) })
  else batch.foldl (gcBlob plan unremovable) (s, report)

/-- The batches from first to last, or until one aborts. -/
def gcBatches (plan : GcPlan) (unremovable : List Text) :
    List (List Text) → State × GcReport → State × GcReport
  | [], p => p
  | batch :: rest, p =>
    let p := gcBatch plan unremovable p.1 p.2 batch
    if p.2.aborted.isSome then p else gcBatches plan unremovable rest p

/-- Consecutive pieces of `n`; `fuel` bounds their number. -/
def chunks {α : Type} (n : Nat) : Nat → List α → List (List α)
  | 0, _ => []
  | _ + 1, [] => []
  | fuel + 1, l => l.take n :: chunks n fuel (l.drop n)

def GcPlan.batches (plan : GcPlan) : List (List Text) :=
  chunks gcBatchSize plan.candidates.length plan.candidates

def GcPlan.report (plan : GcPlan) (dryRun : Bool) : GcReport :=
  ⟨dryRun, plan.graceSecs, plan.generation, plan.candidates.length, 0, 0, 0, none, []⟩

def gcExecute (s : State) (plan : GcPlan) (dryRun : Bool) (unremovable : List Text) :
    State × Except StoreError GcReport :=
  if plan.rootHash.isEmpty then (s, .error .noCurrentRoot)
  else if dryRun then
    let bytes := plan.candidates.foldl (fun n h => n + ((s.blobs.lookup h).map BlobRow.size).getD 0) 0
    (s, .ok { plan.report true with bytes := bytes, hashes := plan.candidates })
  else
    let (s, report) := gcBatches plan unremovable plan.batches (s, plan.report false)
    (s, .ok report)

/-- Delete the blobs the plan reports (unless `dryRun`). -/
def gc (s : State) (graceSecs : Nat) (now : Int) (dryRun : Bool) (unremovable : List Text) :
    State × Except StoreError GcReport :=
  let (s, plan) := s.gcPlan graceSecs now
  match plan with
  | .error e => (s, .error e)
  | .ok plan => s.gcExecute plan dryRun unremovable

end State

end Store
