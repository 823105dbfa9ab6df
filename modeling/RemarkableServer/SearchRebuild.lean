import RemarkableServer.Catalogue
import RemarkableServer.Lib.TextSearch
import RemarkableServer.MissingBlobs

/-!
# Rebuilding the search index

A rebuild indexes the stored blobs of the current tree under their names, and
then deletes the rows of other blobs. A blob is left out where its filename
resolves to another one.
-/
namespace SearchRebuild

open RustText Store Catalogue Transition

inductive DocumentType where
  | document
  | folder
  | pdf
  | epub
  | unknown
  deriving DecidableEq

namespace DocumentType

/-- The letters of the endings have no capitals outside ASCII. -/
def fromFilename (filename : Text) : DocumentType :=
  let lower := filename.map Char.toLower
  if ".pdf".toList.isSuffixOf lower then .pdf
  else if ".epub".toList.isSuffixOf lower then .epub
  else if ".content".toList.isSuffixOf lower || ".metadata".toList.isSuffixOf lower then .document
  else if (TextSearch.splitFirst "folder".toList lower).isSome || "/".toList.isSuffixOf filename then .folder
  else .unknown

def asStr : DocumentType → Text
  | .document => "document".toList
  | .folder => "folder".toList
  | .pdf => "pdf".toList
  | .epub => "epub".toList
  | .unknown => "unknown".toList

end DocumentType

/-- A row of the search index. -/
structure Row where
  hash : Text
  filename : Text
  docType : Text
  content : Option Text
  indexedAt : Int
  deriving DecidableEq

/-- `INSERT OR REPLACE`; the key is the hash. -/
def indexDocument (rows : List Row) (hash filename : Text) (content : Option Text) (now : Int) : List Row :=
  rows.filter (·.hash != hash) ++ [⟨hash, filename, (DocumentType.fromFilename filename).asStr, content, now⟩]

/-- What a rebuild meets: the blobs whose files can be read, what `pdftotext` makes of a PDF, and the clock. -/
structure Env where
  readable : Text → Bool
  extractPdfText : Text → Text → Bytes → Option Text
  now : Int

/-- `Storage::get`; no `StoreError` is a file that cannot be read. -/
def Env.get (env : Env) (s : State) (hash : Text) : Except (Option StoreError) Bytes :=
  match s.get hash with
  | .error e => .error (some e)
  | .ok data => if env.readable hash then .ok data else .error none

/-- Whether `hash` is the blob `filename` currently resolves to. -/
def isCurrent (sh : Shelf) (hash filename : Text) : Bool := sh.hashForFilename filename == some hash

/-- The content to index, unless it is a PDF that cannot be read. -/
def contentOf (env : Env) (sh : Shelf) (hash filename : Text) : Option (Option Text) :=
  match DocumentType.fromFilename filename with
  | .pdf =>
    match env.get sh.store hash with
    | .ok data => some (env.extractPdfText hash filename data)
    | .error _ => none
  | _ => some none

/-- One blob of a rebuild, with the count of those that are indexed. -/
def indexBlob (env : Env) (sh : Shelf) (acc : List Row × Nat) (hash : Text) : List Row × Nat :=
  match sh.filenameForHash hash with
  | none => acc
  | some filename =>
    if !isCurrent sh hash filename then acc
    else match contentOf env sh hash filename with
    | none => acc
    | some content => (indexDocument acc.1 hash filename content env.now, acc.2 + 1)

/-- Stored blobs that search may index. The walk may parse indexes of the tree. -/
def liveHashes (sh : Shelf) : Shelf × List Text :=
  let (store, reachable) := MissingBlobs.reachableFromRoot sh.store
  ({ sh with store := store }, match reachable with
    | some reachable => sh.listHashes.filter reachable.contains
    | none => sh.listHashes)

inductive Verdict where
  | keep
  | rename (filename : Text)
  | stale
  deriving DecidableEq

def verdict (sh : Shelf) (live : List Text) (row : Row) : Verdict :=
  if live.contains row.hash && isCurrent sh row.hash row.filename then .keep
  else match (sh.filenameForHash row.hash).filter fun g => live.contains row.hash && isCurrent sh row.hash g with
  | some g => .rename g
  | none => .stale

def deleteRow (rows : List Row) (hash : Text) : List Row := rows.filter (·.hash != hash)

def renameRow (rows : List Row) (renamed : Text × Text) : List Row :=
  rows.map fun row =>
    if row.hash = renamed.1 then
      { row with filename := renamed.2, docType := (DocumentType.fromFilename renamed.2).asStr }
    else row

/-- The rows that are left, and the number of those that were deleted. -/
def prune (sh : Shelf) (live : List Text) (rows : List Row) : List Row × Nat :=
  let stale := (rows.filter fun row => verdict sh live row == .stale).map (·.hash)
  let renamed := rows.filterMap fun row =>
    match verdict sh live row with
    | .rename g => some (row.hash, g)
    | _ => none
  (renamed.foldl renameRow (stale.foldl deleteRow rows), stale.length)

def pruneMissing (sh : Shelf) (rows : List Row) : Shelf × List Row × Nat :=
  let (sh, live) := liveHashes sh
  (sh, prune sh live rows)

/-- The store, the rows and the number of documents that were indexed. -/
def rebuildFromStorage (env : Env) (sh : Shelf) (rows : List Row) : Shelf × List Row × Nat :=
  let (sh, live) := liveHashes sh
  let (rows, indexed) := live.foldl (indexBlob env sh) (rows, 0)
  let (sh, rows, _) := pruneMissing sh rows
  (sh, rows, indexed)

/-! ## What a rebuild is to do -/

/-- The blobs that are to be in the index: stored, of the tree, with a name, and readable if it is a PDF's. -/
def ToIndex (env : Env) (sh : Shelf) (reachable : List Text) (hash filename : Text) : Prop :=
  hash ∈ reachable ∧ (sh.store.files.lookup hash).isSome = true ∧ sh.filenameForHash hash = some filename ∧
    (DocumentType.fromFilename filename = .pdf → (env.get sh.store hash).isOk = true)

/-- The rows are of stored blobs of the tree, and every blob that is to be indexed has one under its name. -/
structure CoversTree (env : Env) (sh : Shelf) (reachable : List Text) (rows : List Row) : Prop where
  only : ∀ row ∈ rows, (sh.store.files.lookup row.hash).isSome = true ∧ row.hash ∈ reachable
  every : ∀ hash filename, ToIndex env sh reachable hash filename → ∃ row ∈ rows, row.hash = hash ∧ row.filename = filename

/-- No blob of the same name was used later, or in the same second and catalogued later, than one that is to be
indexed. -/
def LatestOfName (env : Env) (sh : Shelf) (reachable : List Text) : Prop :=
  ∀ hash filename, ToIndex env sh reachable hash filename → ∀ k ∈ sh.named filename, k ≠ hash → sh.stamp k < sh.stamp hash

variable {env : Env} {sh sh' : Shelf} {reachable live : List Text}

/-! ## The walk changes nothing that names depend on -/

/-- The walk has parsed indexes, and nothing else is different. -/
structure Walked (sh sh' : Shelf) : Prop where
  files : sh'.store.files = sh.store.files
  blobs : sh'.store.blobs = sh.store.blobs
  names : sh'.names = sh.names

theorem walked_liveHashes (h : (MissingBlobs.reachableFromRoot sh.store).2 = some reachable) :
    Walked sh (liveHashes sh).1 ∧ (liveHashes sh).2 = sh.listHashes.filter reachable.contains := by
  obtain ⟨-, hstate, -⟩ := MissingBlobs.reachableFromRoot_eq_some h
  have hrep := LiveSet.reparsed_indexTree (sh.store.getRoot true).1 sh.store.root.hash
  rw [← hstate] at hrep
  refine ⟨⟨hrep.files, hrep.blobs, rfl⟩, ?_⟩
  rw [liveHashes]
  simp only [h]

theorem Walked.listHashes (h : Walked sh sh') : sh'.listHashes = sh.listHashes := by rw [Shelf.listHashes, Shelf.listHashes, h.blobs]

theorem Walked.hashForFilename (h : Walked sh sh') : sh'.hashForFilename = sh.hashForFilename := by
  have hstamp : sh'.stamp = sh.stamp := by
    funext hash
    rw [Shelf.stamp, Shelf.stamp, h.blobs, h.names]
  funext filename
  rw [Shelf.hashForFilename, Shelf.hashForFilename, Shelf.named, Shelf.named, h.names, hstamp]

theorem Walked.filenameForHash (h : Walked sh sh') : sh'.filenameForHash = sh.filenameForHash := by
  funext hash
  rw [Shelf.filenameForHash, Shelf.filenameForHash, h.names]

theorem Walked.indexBlob (h : Walked sh sh') : indexBlob env sh' = indexBlob env sh := by
  have hget : env.get sh'.store = env.get sh.store := by
    funext hash
    rw [Env.get, Env.get, State.get, State.get, h.files]
  funext acc hash
  simp only [SearchRebuild.indexBlob, isCurrent, contentOf, h.hashForFilename, h.filenameForHash, hget]
  rfl

theorem Walked.prune (h : Walked sh sh') (live : List Text) : prune sh' live = prune sh live := by
  have hverdict : verdict sh' live = verdict sh live := by
    funext row
    simp only [verdict, isCurrent, h.hashForFilename, h.filenameForHash]
    rfl
  funext rows
  rw [SearchRebuild.prune, SearchRebuild.prune, hverdict]

theorem liveHashes_again (h : (MissingBlobs.reachableFromRoot sh.store).2 = some reachable) :
    liveHashes (liveHashes sh).1 = liveHashes sh := by
  have hwalked := walked_liveHashes h
  have hagain := MissingBlobs.reachableFromRoot_again h
  have hstore : (liveHashes sh).1.store = (MissingBlobs.reachableFromRoot sh.store).1 := rfl
  have hunfold : liveHashes (liveHashes sh).1 = ({ (liveHashes sh).1 with store := (MissingBlobs.reachableFromRoot (liveHashes sh).1.store).1 },
      match (MissingBlobs.reachableFromRoot (liveHashes sh).1.store).2 with
      | some reachable => (liveHashes sh).1.listHashes.filter reachable.contains
      | none => (liveHashes sh).1.listHashes) := rfl
  rw [hunfold, hstore, hagain]
  simp only [hwalked.1.listHashes, ← hwalked.2]
  rfl

/-- The rows after a rebuild: the blobs that both walks find are indexed, and then the rows are pruned. -/
theorem rebuild_rows (h : (MissingBlobs.reachableFromRoot sh.store).2 = some reachable) (env : Env) (rows : List Row) :
    (rebuildFromStorage env sh rows).2.1 =
      (prune sh (sh.listHashes.filter reachable.contains)
        ((sh.listHashes.filter reachable.contains).foldl (indexBlob env sh) (rows, 0)).1).1 := by
  obtain ⟨hwalked, hlive⟩ := walked_liveHashes h
  rw [← hlive, ← hwalked.indexBlob, ← hwalked.prune]
  have hunfold : (rebuildFromStorage env sh rows).2.1 = (prune (liveHashes (liveHashes sh).1).1 (liveHashes (liveHashes sh).1).2
      ((liveHashes sh).2.foldl (indexBlob env (liveHashes sh).1) (rows, 0)).1).1 := rfl
  rw [hunfold, liveHashes_again h]

/-! ## The rows of one blob -/

/-- The rows of the blob have this filename, and there is one. -/
def Holds (hash filename : Text) (rows : List Row) : Prop :=
  (∃ row ∈ rows, row.hash = hash ∧ row.filename = filename) ∧ ∀ row ∈ rows, row.hash = hash → row.filename = filename

theorem holds_indexDocument (hash filename : Text) (rows : List Row) (content : Option Text) (now : Int) :
    Holds hash filename (indexDocument rows hash filename content now) := by
  refine ⟨⟨_, List.mem_append_right _ (List.mem_singleton_self _), rfl, rfl⟩, fun row hrow heq => ?_⟩
  rcases List.mem_append.mp hrow with hrow | hrow
  · exact absurd heq (by simpa using (List.mem_filter.mp hrow).2)
  · rw [List.mem_singleton.mp hrow]

theorem Holds.indexDocument {hash filename : Text} {rows : List Row} (h : Holds hash filename rows) {k : Text} (hk : k ≠ hash)
    (g : Text) (content : Option Text) (now : Int) : Holds hash filename (indexDocument rows k g content now) := by
  obtain ⟨⟨row, hrow, heq, hname⟩, hall⟩ := h
  refine ⟨⟨row, List.mem_append_left _ (List.mem_filter.mpr ⟨hrow, ?_⟩), heq, hname⟩, fun row hrow heq => ?_⟩
  · rw [heq]
    exact bne_iff_ne.mpr fun hkeq => hk hkeq.symm
  · rcases List.mem_append.mp hrow with hrow | hrow
    · exact hall row (List.mem_filter.mp hrow).1 heq
    · rw [List.mem_singleton.mp hrow] at heq
      exact absurd heq hk

/-- A blob is indexed under its name, or nothing is done. -/
theorem indexBlob_cases (env : Env) (sh : Shelf) (acc : List Row × Nat) (hash : Text) :
    (indexBlob env sh acc hash).1 = acc.1 ∨
      ∃ filename content, (indexBlob env sh acc hash).1 = indexDocument acc.1 hash filename content env.now := by
  unfold indexBlob
  split
  next => exact .inl rfl
  next filename _ =>
    split
    next => exact .inl rfl
    next =>
      split
      next => exact .inl rfl
      next content _ => exact .inr ⟨filename, content, rfl⟩

theorem contentOf_isSome {hash filename : Text}
    (h : DocumentType.fromFilename filename = .pdf → (env.get sh.store hash).isOk = true) :
    ∃ content, contentOf env sh hash filename = some content := by
  unfold contentOf
  split
  next htype =>
    have hok := h htype
    split
    next data _ => exact ⟨_, rfl⟩
    next e he =>
      rw [he] at hok
      cases hok
  next => exact ⟨none, rfl⟩

theorem indexBlob_of_current {hash filename : Text} (h : ToIndex env sh reachable hash filename)
    (hcur : isCurrent sh hash filename = true) (acc : List Row × Nat) :
    ∃ content, (indexBlob env sh acc hash).1 = indexDocument acc.1 hash filename content env.now := by
  obtain ⟨-, -, hname, hpdf⟩ := h
  obtain ⟨content, hcontent⟩ := contentOf_isSome hpdf
  refine ⟨content, ?_⟩
  unfold indexBlob
  simp only [hname, hcur, hcontent, Bool.not_true, Bool.false_eq_true, if_false]

/-- A pass over the live blobs gives a current blob its row. -/
theorem holds_foldl {hash filename : Text} (h : ToIndex env sh reachable hash filename) (hcur : isCurrent sh hash filename = true)
    {live : List Text} (hlive : hash ∈ live) (acc : List Row × Nat) : Holds hash filename (live.foldl (indexBlob env sh) acc).1 := by
  have hkept : ∀ (live : List Text) (acc : List Row × Nat), Holds hash filename acc.1 →
      Holds hash filename (live.foldl (indexBlob env sh) acc).1 := by
    intro live
    induction live with
    | nil => exact fun acc hacc => hacc
    | cons k live ih =>
      intro acc hacc
      refine ih _ ?_
      by_cases hk : k = hash
      · obtain ⟨content, heq⟩ := indexBlob_of_current h hcur acc
        rw [hk, heq]
        exact holds_indexDocument hash filename acc.1 content env.now
      · obtain heq | ⟨g, content, heq⟩ := indexBlob_cases env sh acc k
        · rw [heq]
          exact hacc
        · rw [heq]
          exact hacc.indexDocument hk g content env.now
  obtain ⟨before, after, rfl⟩ := List.append_of_mem hlive
  rw [List.foldl_append, List.foldl_cons]
  obtain ⟨content, heq⟩ := indexBlob_of_current h hcur (before.foldl (indexBlob env sh) acc)
  exact hkept after _ (heq ▸ holds_indexDocument hash filename _ content env.now)

/-! ## The rows that are left -/

theorem mem_deleteRows {stale : List Text} {rows : List Row} {row : Row} :
    row ∈ stale.foldl deleteRow rows ↔ row ∈ rows ∧ row.hash ∉ stale := by
  induction stale generalizing rows with
  | nil => simp
  | cons hash stale ih =>
    rw [List.foldl_cons, ih, deleteRow, List.mem_filter, bne_iff_ne, List.mem_cons, not_or, and_assoc]

/-- A renamed row is of the same blob. -/
theorem exists_of_mem_renameRows {renamed : List (Text × Text)} {rows : List Row} {row : Row}
    (h : row ∈ renamed.foldl renameRow rows) : ∃ r ∈ rows, r.hash = row.hash := by
  induction renamed generalizing rows with
  | nil => exact ⟨row, h, rfl⟩
  | cons p renamed ih =>
    obtain ⟨r, hr, heq⟩ := ih h
    obtain ⟨r', hr', rfl⟩ := List.mem_map.mp hr
    refine ⟨r', hr', heq ▸ ?_⟩
    split <;> rfl

theorem mem_renameRows {renamed : List (Text × Text)} {rows : List Row} {row : Row} (hrow : row ∈ rows)
    (h : ∀ p ∈ renamed, p.1 ≠ row.hash) : row ∈ renamed.foldl renameRow rows := by
  induction renamed generalizing rows with
  | nil => exact hrow
  | cons p renamed ih =>
    rw [List.forall_mem_cons] at h
    refine ih (List.mem_map.mpr ⟨row, hrow, ?_⟩) h.2
    rw [if_neg fun heq => h.1 heq.symm]

/-- What is left is of blobs of which no row is stale. -/
theorem exists_of_mem_prune {rows : List Row} {row : Row} (h : row ∈ (prune sh live rows).1) :
    ∃ r ∈ rows, r.hash = row.hash ∧ verdict sh live r ≠ .stale := by
  obtain ⟨r, hr, heq⟩ := exists_of_mem_renameRows h
  obtain ⟨hmem, hstale⟩ := mem_deleteRows.mp hr
  refine ⟨r, hmem, heq, fun hverdict => hstale ?_⟩
  exact List.mem_map_of_mem (List.mem_filter.mpr ⟨hmem, beq_iff_eq.mpr hverdict⟩)

theorem mem_prune {rows : List Row} {row : Row} (hrow : row ∈ rows)
    (h : ∀ r ∈ rows, r.hash = row.hash → verdict sh live r = .keep) : row ∈ (prune sh live rows).1 := by
  refine mem_renameRows (mem_deleteRows.mpr ⟨hrow, ?_⟩) ?_
  · intro hstale
    obtain ⟨r, hr, heq⟩ := List.mem_map.mp hstale
    obtain ⟨hmem, hverdict⟩ := List.mem_filter.mp hr
    rw [h r hmem heq] at hverdict
    cases hverdict
  · intro p hp heq
    obtain ⟨r, hr, hsome⟩ := List.mem_filterMap.mp hp
    split at hsome
    next g hverdict =>
      cases hsome
      rw [h r hr heq] at hverdict
      cases hverdict
    next => cases hsome

/-! ## A rebuild -/

theorem filenameForHash_eq_some_iff {hash filename : Text} :
    sh.filenameForHash hash = some filename ↔ hash ∈ sh.named filename ∧ filename ≠ [] := by
  rw [Shelf.filenameForHash, Option.filter_eq_some_iff, Option.map_eq_some_iff, mem_named]
  simp

/-- A row that is kept or renamed is of a live blob that its filename resolves to. -/
theorem current_of_verdict (hmatched : sh.Matched) {row : Row} (h : verdict sh live row ≠ .stale) :
    row.hash ∈ live ∧ ∀ filename, sh.filenameForHash row.hash = some filename → isCurrent sh row.hash filename = true := by
  unfold verdict at h
  split at h
  next hkeep =>
    rw [Bool.and_eq_true, List.contains_iff_mem] at hkeep
    refine ⟨hkeep.1, fun filename hname => ?_⟩
    have hnamed := (hmatched.hashForFilename_eq_some_iff.mp (beq_iff_eq.mp hkeep.2)).1
    obtain ⟨a, ha, hrow⟩ := mem_named.mp hnamed
    obtain ⟨b, hb, hfile⟩ := mem_named.mp (filenameForHash_eq_some_iff.mp hname).1
    obtain rfl : a = b := Option.some.inj (ha.symm.trans hb)
    rw [← hfile, hrow]
    exact hkeep.2
  next =>
    split at h
    next g hrename =>
      obtain ⟨hg, hcond⟩ := Option.filter_eq_some_iff.mp hrename
      rw [Bool.and_eq_true, List.contains_iff_mem] at hcond
      refine ⟨hcond.1, fun filename hname => ?_⟩
      rw [Option.some.inj (hname.symm.trans hg)]
      exact hcond.2
    next => exact absurd rfl h

theorem isCurrent_iff (hmatched : sh.Matched) {hash filename : Text} (hname : sh.filenameForHash hash = some filename) :
    isCurrent sh hash filename = true ↔ ∀ k ∈ sh.named filename, k ≠ hash → sh.stamp k < sh.stamp hash := by
  rw [isCurrent, beq_iff_eq, hmatched.hashForFilename_eq_some_iff]
  exact and_iff_right (filenameForHash_eq_some_iff.mp hname).1

theorem mem_live (hmatched : sh.Matched) {hash : Text} :
    hash ∈ sh.listHashes.filter reachable.contains ↔ (sh.store.files.lookup hash).isSome = true ∧ hash ∈ reachable := by
  rw [List.mem_filter, Shelf.listHashes, List.mem_insertionSort, List.contains_iff_mem, hmatched.files, AList.lookup_isSome]
  rfl

/-- Whatever the index had: after a rebuild it covers the tree exactly if every blob that is to be indexed is the
latest of its name. -/
theorem rebuild_covers_iff_of_matched (hmatched : sh.Matched)
    (h : (MissingBlobs.reachableFromRoot sh.store).2 = some reachable) (env : Env) (rows : List Row) :
    CoversTree env sh reachable (rebuildFromStorage env sh rows).2.1 ↔ LatestOfName env sh reachable := by
  rw [rebuild_rows h]
  generalize hindexed : ((sh.listHashes.filter reachable.contains).foldl (indexBlob env sh) (rows, 0)).1 = indexed
  constructor
  · intro hcovers hash filename htoIndex
    obtain ⟨row, hrow, rfl, -⟩ := hcovers.every hash filename htoIndex
    obtain ⟨r, -, heq, hverdict⟩ := exists_of_mem_prune hrow
    rw [← heq] at htoIndex ⊢
    exact (isCurrent_iff hmatched htoIndex.2.2.1).mp ((current_of_verdict hmatched hverdict).2 filename htoIndex.2.2.1)
  · intro hlatest
    constructor
    · intro row hrow
      obtain ⟨r, -, heq, hverdict⟩ := exists_of_mem_prune hrow
      rw [← heq]
      exact (mem_live hmatched).mp (current_of_verdict hmatched hverdict).1
    · intro hash filename htoIndex
      have hcur := (isCurrent_iff hmatched htoIndex.2.2.1).mpr (hlatest hash filename htoIndex)
      have hlive : hash ∈ sh.listHashes.filter reachable.contains := (mem_live hmatched).mpr ⟨htoIndex.2.1, htoIndex.1⟩
      obtain ⟨⟨row, hrow, rfl, rfl⟩, hall⟩ := hindexed ▸ holds_foldl htoIndex hcur hlive (rows, 0)
      refine ⟨row, mem_prune hrow fun r hr heq => ?_, rfl, rfl⟩
      have hcontains := List.contains_iff_mem.mpr hlive
      rw [verdict, heq, hall r hr heq, hcontains, hcur]
      rfl

/-- In every state that storage operations reach in which the tree can be read, and whatever the index had before:
after a rebuild it covers the tree exactly if every blob that is to be indexed is the latest of its name. -/
theorem rebuild_covers_iff (versions : List Text) (as : List Action) (sh : Shelf) (reachable : List Text)
    (hrun : run step (.new versions) as = some sh) (h : (MissingBlobs.reachableFromRoot sh.store).2 = some reachable)
    (env : Env) (rows : List Row) :
    CoversTree env sh reachable (rebuildFromStorage env sh rows).2.1 ↔ LatestOfName env sh reachable :=
  rebuild_covers_iff_of_matched (matched_run hrun) h env rows

/-! ## Concrete runs -/

def plainEnv : Env := ⟨fun _ => true, fun _ _ _ => none, 9⟩

/-- The blob of digits `b` is indexed as the PDF of the only document of a root. -/
def commitPdf (now : Int) : List Action :=
  let docIndex := Projection.leafIndex [(Projection.hashOf 'b', "d.pdf".toList)]
  let root := Utf8Codec.encode ("3\n".toList ++ Projection.hashOf 'c' ++ ":80000000:d:1:1\n".toList)
  [.putWithHash docIndex (Projection.hashOf 'c') "d.docSchema".toList 0 now,
    .putWithHash root (Projection.hashOf 'a') "root.docSchema".toList 0 now, .setRootIf (Projection.hashOf 'a') none]

def putPdf (digit : Char) (now : Int) : Action := .putWithHash [1] (Projection.hashOf digit) "d.pdf".toList 0 now

/-- A PDF is replaced, and a client asks whether the old one is there. -/
def oldIsChecked : List Action := [putPdf 'e' 0, putPdf 'b' 1] ++ commitPdf 1 ++ [.touch [Projection.hashOf 'e'] 2]

/-- A PDF is replaced and put back in one second. -/
def putBack : List Action := [putPdf 'b' 0, putPdf 'e' 0, putPdf 'b' 0] ++ commitPdf 0

/-- The PDF of the tree is to be indexed, and has no row after a rebuild of an empty index. -/
def leftOut (sh : Shelf) : Bool :=
  (MissingBlobs.reachableFromRoot sh.store).2.any (·.contains (Projection.hashOf 'b')) &&
    (sh.store.files.lookup (Projection.hashOf 'b')).isSome && sh.filenameForHash (Projection.hashOf 'b') == some "d.pdf".toList &&
    (plainEnv.get sh.store (Projection.hashOf 'b')).isOk &&
    (rebuildFromStorage plainEnv sh []).2.1.all (·.hash != Projection.hashOf 'b')

theorem not_coversTree {as : List Action} (h : (run step (Shelf.new []) as).any leftOut = true) :
    ∃ sh reachable, run step (Shelf.new []) as = some sh ∧ (MissingBlobs.reachableFromRoot sh.store).2 = some reachable ∧
      ¬ CoversTree plainEnv sh reachable (rebuildFromStorage plainEnv sh []).2.1 := by
  obtain ⟨sh, hrun, hleft⟩ := (Option.any_eq_true _ _).mp h
  simp only [leftOut, Bool.and_eq_true, List.all_eq_true, bne_iff_ne, beq_iff_eq] at hleft
  obtain ⟨⟨⟨⟨hreach, hstored⟩, hname⟩, hget⟩, hrows⟩ := hleft
  obtain ⟨reachable, hreachable, hmem⟩ := (Option.any_eq_true _ _).mp hreach
  refine ⟨sh, reachable, hrun, hreachable, fun hcovers => ?_⟩
  obtain ⟨row, hrow, hhash, -⟩ := hcovers.every _ _ ⟨List.contains_iff_mem.mp hmem, hstored, hname, fun _ => hget⟩
  exact hrows row hrow hhash

theorem rebuild_leaves_out_live_blobs :
    (∃ sh reachable, run step (Shelf.new []) oldIsChecked = some sh ∧ (MissingBlobs.reachableFromRoot sh.store).2 = some reachable ∧
      ¬ CoversTree plainEnv sh reachable (rebuildFromStorage plainEnv sh []).2.1) ∧
    ∃ sh reachable, run step (Shelf.new []) putBack = some sh ∧ (MissingBlobs.reachableFromRoot sh.store).2 = some reachable ∧
      ¬ CoversTree plainEnv sh reachable (rebuildFromStorage plainEnv sh []).2.1 :=
  ⟨not_coversTree (by decide +kernel), not_coversTree (by decide +kernel)⟩

/-- The tree can be read, and every blob of it is the latest of its name. -/
def allLatest (sh : Shelf) : Bool :=
  (MissingBlobs.reachableFromRoot sh.store).2.any fun reachable => reachable.all fun hash =>
    (sh.filenameForHash hash).all fun filename => (sh.named filename).all fun k => k == hash || decide (sh.stamp k < sh.stamp hash)

theorem rebuild_covers_replaced : ∃ sh reachable,
    run step (Shelf.new []) ([putPdf 'e' 0, putPdf 'b' 1] ++ commitPdf 1) = some sh ∧
      CoversTree plainEnv sh reachable (rebuildFromStorage plainEnv sh []).2.1 := by
  have hreadable : (run step (Shelf.new []) ([putPdf 'e' 0, putPdf 'b' 1] ++ commitPdf 1)).any allLatest = true := by decide +kernel
  obtain ⟨sh, hrun, hread⟩ := (Option.any_eq_true _ _).mp hreadable
  obtain ⟨reachable, hreachable, hall⟩ := (Option.any_eq_true _ _).mp hread
  refine ⟨sh, reachable, hrun, (rebuild_covers_iff [] _ sh reachable hrun hreachable plainEnv []).mpr ?_⟩
  intro hash filename htoIndex k hk hne
  have hlatest := List.all_eq_true.mp hall hash htoIndex.1
  rw [htoIndex.2.2.1, Option.all_some] at hlatest
  simpa [hne] using List.all_eq_true.mp hlatest k hk

end SearchRebuild
