import Mathlib.Data.Prod.Lex
import RemarkableServer.CheckFiles
import RemarkableServer.Lib.Sha256
import RemarkableServer.Lib.Table

/-!
# The names of blobs

A row of `blobs` has a filename and, as every row, a row id. A write of a blob
that is catalogued renames its row and keeps the row id; a filename resolves to
the row of that name that was used last, and among rows of one second to the
one with the largest row id.
-/
namespace Catalogue

open RustText SyncIndex Store Transition Tables

/-- The columns of a row of `blobs` that the store has no use for. -/
structure NameRow where
  filename : Text
  rowid : Nat
  deriving DecidableEq

structure Shelf where
  store : State
  names : Tables.Table Text NameRow

/-- `Storage::new` on an empty directory. -/
def Shelf.new (versions : List Text) : Shelf := ⟨.new ∅ none versions, ∅⟩

/-- One more than the largest row id in use. -/
def nextRowid (names : Tables.Table Text NameRow) : Nat := (names.values.map (·.rowid)).max?.getD 0 + 1

/-- `INSERT … ON CONFLICT(hash) DO UPDATE`. -/
def nameBlob (names : Tables.Table Text NameRow) (hash filename : Text) : Tables.Table Text NameRow :=
  match names.lookup hash with
  | some row => names.insert hash { row with filename := filename }
  | none => names.insert hash ⟨filename, nextRowid names⟩

namespace Shelf

/-- `put_with_hash`, and `put_file_with_hash` with the staged file's own modification time. -/
def putWithHash (sh : Shelf) (data : Bytes) (hash filename : Text) (modified now : Int) : Except StoreError Shelf :=
  (sh.store.putWithHash data hash modified now).map fun store => ⟨store, nameBlob sh.names hash filename⟩

def put (sh : Shelf) (data : Bytes) (filename : Text) (modified now : Int) : Except StoreError Shelf :=
  sh.putWithHash data (hexEncode (Sha256.digest data)) filename modified now

/-- The rows that are left keep their names. -/
def withStore (sh : Shelf) (store : State) : Shelf :=
  ⟨store, sh.names.retain fun hash _ => (store.blobs.lookup hash).isSome⟩

/-- When a row was used last, and its row id. -/
def stamp (sh : Shelf) (hash : Text) : ℤ ×ₗ ℕ :=
  toLex (((sh.store.blobs.lookup hash).map (·.updatedAt)).getD 0, ((sh.names.lookup hash).map (·.rowid)).getD 0)

/-- The rows of a filename. -/
def named (sh : Shelf) (filename : Text) : List Text :=
  (sh.names.entries.filter fun r => r.2.filename == filename).map (·.1)

/-- `ORDER BY updated_at DESC, rowid DESC LIMIT 1`. -/
def hashForFilename (sh : Shelf) (filename : Text) : Option Text :=
  ((sh.named filename).insertionSort fun a b => sh.stamp b ≤ sh.stamp a).head?

def filenameForHash (sh : Shelf) (hash : Text) : Option Text :=
  ((sh.names.lookup hash).map (·.filename)).filter fun filename => !filename.isEmpty

def listHashes (sh : Shelf) : List Text := sh.store.blobs.keys.insertionSort (· ≤ ·)

end Shelf

inductive Action where
  | put (data : Bytes) (filename : Text) (modified now : Int)
  | putWithHash (data : Bytes) (hash filename : Text) (modified now : Int)
  | touch (hashes : List Text) (now : Int)
  | setRootIf (hash : Text) (expected : Option Nat)
  | gc (graceSecs : Nat) (now : Int) (dryRun : Bool) (unremovable : List Text)
  | delete (hash : Text)
  | setVersions (versions : List Text)

/-- A storage operation. Where it is refused nothing is done. -/
def step (sh : Shelf) : Action → Option Shelf
  | .put data filename modified now => (sh.put data filename modified now).toOption
  | .putWithHash data hash filename modified now => (sh.putWithHash data hash filename modified now).toOption
  | .touch hashes now => some { sh with store := sh.store.touch hashes now }
  | .setRootIf hash expected => some { sh with store := (sh.store.setRootIf hash expected).1 }
  | .gc graceSecs now dryRun unremovable => some (sh.withStore (sh.store.gc graceSecs now dryRun unremovable).1)
  | .delete hash => (sh.store.delete hash).toOption.map sh.withStore
  | .setVersions versions => some { sh with store := { sh.store with versions := versions } }

/-! ## The rows and the files -/

/-- Every file has a row, and every row a file, a name and a row id of its own. -/
structure Shelf.Matched (sh : Shelf) : Prop where
  files : ∀ hash, (sh.store.files.lookup hash).isSome = (sh.store.blobs.lookup hash).isSome
  names : ∀ hash, (sh.names.lookup hash).isSome = (sh.store.blobs.lookup hash).isSome
  rowids : ∀ h k a b, sh.names.lookup h = some a → sh.names.lookup k = some b → a.rowid = b.rowid → h = k

variable {sh sh' : Shelf}

/-- The files and the rows are of the same blobs. -/
def FilesHaveRows (s : State) : Prop := ∀ hash, (s.files.lookup hash).isSome = (s.blobs.lookup hash).isSome

theorem filesHaveRows_remove (s : State) (hash : Text) (h : FilesHaveRows s) :
    FilesHaveRows (((s.removeFile hash).dropRow hash).forgetIndex hash) := by
  intro k
  have hk := h k
  simp only [State.removeFile, State.dropRow, State.forgetIndex, lookup_erase_ite]
  split
  · rfl
  · exact hk

theorem filesHaveRows_gc {s : State} (h : FilesHaveRows s) (graceSecs : Nat) (now : Int) (dryRun : Bool)
    (unremovable : List Text) : FilesHaveRows (s.gc graceSecs now dryRun unremovable).1 :=
  GcBatches.gc_keeps filesHaveRows_remove (fun s s' hrep hs => by rw [FilesHaveRows, hrep.files, hrep.blobs]; exact hs) h _ _ _ _

theorem lt_nextRowid {names : Tables.Table Text NameRow} {hash : Text} {row : NameRow} (h : names.lookup hash = some row) :
    row.rowid < nextRowid names := by
  have hmem : row.rowid ∈ names.values.map (·.rowid) := List.mem_map_of_mem (mem_values_iff.mpr ⟨hash, h⟩)
  exact Nat.lt_succ_of_le (List.le_max?_getD_of_mem hmem)

theorem lookup_nameBlob (names : Tables.Table Text NameRow) (hash filename k : Text) :
    (nameBlob names hash filename).lookup k =
      if k = hash then some ⟨filename, ((names.lookup hash).map (·.rowid)).getD (nextRowid names)⟩ else names.lookup k := by
  unfold nameBlob
  split
  next row hrow => rw [lookup_insert_ite, hrow]; rfl
  next hrow => rw [lookup_insert_ite, hrow]; rfl

theorem Shelf.Matched.putWithHash (h : sh.Matched) {data : Bytes} {hash filename : Text} {modified now : Int}
    (hput : sh.putWithHash data hash filename modified now = .ok sh') : sh'.Matched := by
  obtain ⟨store, hstore, rfl⟩ := map_eq_ok.mp hput
  rw [State.putWithHash] at hstore
  split at hstore
  next => cases hstore
  next hvalid =>
    cases hstore
    constructor
    · intro k
      have hk := h.files k
      simp only [State.writeFile, State.catalogue, State.forgetIndex, lookup_insert_ite]
      split
      · rfl
      · exact hk
    · intro k
      have hk := h.names k
      simp only [lookup_nameBlob, State.writeFile, State.catalogue, State.forgetIndex, lookup_insert_ite]
      split
      · rfl
      · exact hk
    · -- a row that was there keeps its row id, and a new one is above all others
      have hnew : ∀ k b, k ≠ hash → sh.names.lookup k = some b →
          ((sh.names.lookup hash).map (·.rowid)).getD (nextRowid sh.names) ≠ b.rowid := by
        intro k b hk hb heq
        cases hrow : sh.names.lookup hash with
        | none =>
          rw [hrow] at heq
          exact absurd (lt_nextRowid hb) (by rw [← heq]; exact Nat.lt_irrefl _)
        | some row =>
          rw [hrow] at heq
          exact hk (h.rowids k hash b row hb hrow heq.symm)
      intro k l a b ha hb heq
      simp only [lookup_nameBlob] at ha hb
      split at ha
      next hk =>
        cases ha
        split at hb
        next hl => rw [hk, hl]
        next hl => exact absurd heq (hnew l b hl hb)
      next hk =>
        split at hb
        next hl =>
          cases hb
          exact absurd heq.symm (hnew k a hk ha)
        next hl => exact h.rowids k l a b ha hb heq

theorem Shelf.Matched.withStore (h : sh.Matched) {store : State} (hfiles : FilesHaveRows store)
    (hrows : ∀ hash, (store.blobs.lookup hash).isSome = true → (sh.store.blobs.lookup hash).isSome = true) :
    (sh.withStore store).Matched := by
  have hlookup : ∀ hash, (sh.withStore store).names.lookup hash =
      (sh.names.lookup hash).filter fun _ => (store.blobs.lookup hash).isSome := fun hash => lookup_retain _ _ _
  refine ⟨hfiles, fun hash => ?_, fun k l a b ha hb heq => ?_⟩
  · rw [hlookup]
    cases hrow : (store.blobs.lookup hash).isSome with
    | true =>
      have hname := (h.names hash).trans (hrows hash hrow)
      obtain ⟨row, hlook⟩ := Option.isSome_iff_exists.mp hname
      simp only [hlook, Option.filter_some, if_true]
      exact hrow.symm
    | false =>
      cases sh.names.lookup hash <;> exact hrow.symm
  · rw [hlookup] at ha hb
    exact h.rowids k l a b (Option.filter_eq_some_iff.mp ha).1 (Option.filter_eq_some_iff.mp hb).1 heq

theorem Shelf.Matched.of_blobs_eq (h : sh.Matched) {store : State} (hfiles : store.files = sh.store.files)
    (hblobs : ∀ hash, (store.blobs.lookup hash).isSome = (sh.store.blobs.lookup hash).isSome) :
    ({ sh with store := store } : Shelf).Matched :=
  ⟨fun hash => by rw [hblobs, ← h.files, hfiles], fun hash => by rw [hblobs, ← h.names], h.rowids⟩

theorem setRootIf_blobs (s : State) (hash : Text) (expected : Option Nat) :
    (s.setRootIf hash expected).1.files = s.files ∧ (s.setRootIf hash expected).1.blobs = s.blobs := by
  rw [State.setRootIf]
  cases hcommit : s.commitRoot hash expected with
  | error e => exact ⟨rfl, rfl⟩
  | ok p =>
    obtain ⟨s₁, root⟩ := p
    have hkept : s₁.files = s.files ∧ s₁.blobs = s.blobs := by
      rw [State.commitRoot] at hcommit
      split at hcommit
      next => cases hcommit
      next =>
        cases hcommit
        exact ⟨rfl, rfl⟩
    have hmirror : (s₁.writeMirror root).files = s₁.files ∧ (s₁.writeMirror root).blobs = s₁.blobs := by
      rw [State.writeMirror]
      split <;> exact ⟨rfl, rfl⟩
    have hrep := LiveSet.reparsed_indexTree { s₁.writeMirror root with cachedRoot := root } root.hash
    exact ⟨hrep.files.trans (hmirror.1.trans hkept.1), hrep.blobs.trans (hmirror.2.trans hkept.2)⟩

theorem gc_rows (s : State) (graceSecs : Nat) (now : Int) (dryRun : Bool) (unremovable : List Text) (hash : Text)
    (h : ((s.gc graceSecs now dryRun unremovable).1.blobs.lookup hash).isSome = true) : (s.blobs.lookup hash).isSome = true := by
  refine GcBatches.gc_keeps (P := fun s' => (s'.blobs.lookup hash).isSome = true → (s.blobs.lookup hash).isSome = true) ?_ ?_
    id graceSecs now dryRun unremovable h
  · intro s' k hs' hk
    apply hs'
    simp only [State.removeFile, State.dropRow, State.forgetIndex, lookup_erase_ite] at hk
    split at hk
    next => cases hk
    next => exact hk
  · intro s' s'' hrep hs'
    rw [hrep.blobs]
    exact hs'

theorem ok_of_toOption {ε α : Type} {x : Except ε α} {a : α} (h : x.toOption = some a) : x = .ok a := by
  cases x with
  | error e => cases h
  | ok b =>
    cases h
    rfl

theorem matched_step {a : Action} (h : sh.Matched) (hstep : step sh a = some sh') : sh'.Matched := by
  cases a with
  | put data filename modified now => exact h.putWithHash (ok_of_toOption hstep)
  | putWithHash data hash filename modified now => exact h.putWithHash (ok_of_toOption hstep)
  | touch hashes now =>
    cases hstep
    refine h.of_blobs_eq rfl fun hash => ?_
    rw [CheckFiles.lookup_touch, Option.isSome_map]
  | setRootIf hash expected =>
    cases hstep
    obtain ⟨hfiles, hblobs⟩ := setRootIf_blobs sh.store hash expected
    exact h.of_blobs_eq hfiles fun k => by rw [hblobs]
  | gc graceSecs now dryRun unremovable =>
    cases hstep
    exact h.withStore (filesHaveRows_gc h.files _ _ _ _) (gc_rows sh.store graceSecs now dryRun unremovable)
  | delete hash =>
    obtain ⟨store, hstore, rfl⟩ := Option.map_eq_some_iff.mp hstep
    rw [State.delete] at hstore
    split at hstore
    next => cases hstore
    next =>
      cases hstore
      refine h.withStore (filesHaveRows_remove _ _ h.files) fun k hk => ?_
      simp only [State.removeFile, State.dropRow, State.forgetIndex, lookup_erase_ite] at hk
      split at hk
      next => cases hk
      next => exact hk
  | setVersions versions =>
    cases hstep
    exact h.of_blobs_eq rfl fun _ => rfl

theorem matched_new (versions : List Text) : (Shelf.new versions).Matched :=
  ⟨fun _ => rfl, fun _ => rfl, fun _ _ _ _ ha => nomatch ha⟩

theorem matched_run {versions : List Text} {as : List Action} (h : run step (Shelf.new versions) as = some sh) : sh.Matched :=
  invariant_of_step (fun _ _ _ hs hstep => matched_step hs hstep) (matched_new versions) h

/-! ## What a filename resolves to -/

theorem mem_named {filename hash : Text} : hash ∈ sh.named filename ↔ ∃ row, sh.names.lookup hash = some row ∧ row.filename = filename := by
  rw [Shelf.named, List.mem_map]
  constructor
  · rintro ⟨r, hr, rfl⟩
    obtain ⟨hmem, hname⟩ := List.mem_filter.mp hr
    exact ⟨r.2, mem_entries_iff.mp hmem, beq_iff_eq.mp hname⟩
  · rintro ⟨row, hrow, hname⟩
    exact ⟨⟨hash, row⟩, List.mem_filter.mpr ⟨mem_entries_iff.mpr hrow, beq_iff_eq.mpr hname⟩, rfl⟩

/-- Rows of one stamp are one row. -/
theorem Shelf.Matched.eq_of_stamp (h : sh.Matched) {filename hash k : Text} (hhash : hash ∈ sh.named filename)
    (hk : k ∈ sh.named filename) (heq : sh.stamp hash = sh.stamp k) : hash = k := by
  obtain ⟨a, ha, -⟩ := mem_named.mp hhash
  obtain ⟨b, hb, -⟩ := mem_named.mp hk
  have hrowid := congrArg (fun p => (ofLex p).2) heq
  simp only [stamp, ha, hb, ofLex_toLex, Option.map_some, Option.getD_some] at hrowid
  exact h.rowids hash k a b ha hb hrowid

/-- A filename resolves to the row of its rows that was used last. -/
theorem Shelf.Matched.hashForFilename_eq_some_iff (h : sh.Matched) {filename hash : Text} :
    sh.hashForFilename filename = some hash ↔
      hash ∈ sh.named filename ∧ ∀ k ∈ sh.named filename, k ≠ hash → sh.stamp k < sh.stamp hash := by
  have hsorted := List.pairwise_insertionSort (fun a b => sh.stamp b ≤ sh.stamp a) (sh.named filename)
  have hmem : ∀ k, k ∈ (sh.named filename).insertionSort (fun a b => sh.stamp b ≤ sh.stamp a) ↔ k ∈ sh.named filename :=
    fun k => List.mem_insertionSort _
  rw [hashForFilename]
  generalize (sh.named filename).insertionSort (fun a b => sh.stamp b ≤ sh.stamp a) = sorted at hsorted hmem
  cases sorted with
  | nil => exact ⟨fun hnone => (nomatch hnone), fun hlast => nomatch (hmem hash).mpr hlast.1⟩
  | cons first rest =>
    have hfirst : ∀ k ∈ sh.named filename, k ≠ first → sh.stamp k < sh.stamp first := by
      intro k hk hne
      have hle := (List.pairwise_cons.mp hsorted).1 k ((List.mem_cons.mp ((hmem k).mpr hk)).resolve_left hne)
      exact lt_of_le_of_ne hle fun heq => hne (h.eq_of_stamp hk ((hmem first).mp List.mem_cons_self) heq)
    rw [List.head?_cons, Option.some_inj]
    constructor
    · rintro rfl
      exact ⟨(hmem first).mp List.mem_cons_self, hfirst⟩
    · rintro ⟨hhash, hlast⟩
      by_contra hne
      exact absurd (hlast first ((hmem first).mp List.mem_cons_self) hne) (lt_asymm (hfirst hash hhash fun heq => hne heq.symm))

end Catalogue
