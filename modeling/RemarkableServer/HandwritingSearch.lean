import RemarkableServer.GcSafety
import RemarkableServer.IndexReaders
import RemarkableServer.MissingBlobs

/-!
# The tree as handwriting search reads it

The indexer of handwriting search reads the root index and the document indexes
line by line: the third field of a line below the first is a name, whatever the
other fields are. It goes on from document to document until one cannot be read.
-/
namespace HandwritingSearch

open RustText SyncIndex Store IndexReaders LiveSet Projection Transition

/-- `l.split(':').nth(2)`. -/
def thirdField (line : Text) : Option Text := (split ':' line)[2]?

/-- The lines of a blob after the first. -/
def linesBelow (bytes : Bytes) : List Text := (lines (Utf8Codec.decodeLossy bytes)).drop 1

/-- Every document id in the current sync tree. -/
def documentIds (s : State) : Except StoreError (List Text) :=
  let root := (s.getRoot true).2
  if root.hash.isEmpty then .ok [] else (s.get root.hash).map fun bytes => (linesBelow bytes).filterMap thirdField

/-- The page of a document that a file name is of. -/
def pageOf (docId name : Text) : Option Text := (name.dropPrefix? (docId ++ ['/'])).bind (·.dropSuffix? ".rm".toList)

def pageLine (docId line : Text) : Option (Text × Text) :=
  match split ':' line with
  | hash :: _ :: name :: _ => (pageOf docId name).map (·, hash)
  | _ => none

/-- `(page uuid, .rm blob hash)` for each page of a document in the current sync tree. -/
def documentPages (s : State) (docId : Text) : Except StoreError (List (Text × Text)) :=
  let root := (s.getRoot true).2
  if root.hash.isEmpty then .ok []
  else match s.get root.hash with
  | .error e => .error e
  | .ok rootIndex =>
    match ((linesBelow rootIndex).find? (thirdField · == some docId)).bind fun line => (split ':' line).head? with
    | none => .ok []
    | some docHash => (s.get docHash).map fun docIndex => (linesBelow docIndex).filterMap (pageLine docId)

/-! ## The indexer -/

/-- What a pass has done: the pages with words, the counts it logs, and the pages it came to, each with its document. -/
structure Pass where
  index : List Text
  new : Nat
  failed : Nat
  visited : List (Text × Text × Text)

/-- A page that is not cached is recognised. Whether this gives words is up to the page and the engine. -/
def visitPage (words : Text → Bool) (docId : Text) (p : Pass) (page : Text × Text) : Pass :=
  let p := { p with visited := p.visited ++ [(docId, page)] }
  if p.index.contains page.2 then p
  else if words page.2 then { p with index := page.2 :: p.index, new := p.new + 1 }
  else { p with failed := p.failed + 1 }

/-- The documents one after the other, up to the first that cannot be read. -/
def indexDocuments (s : State) (words : Text → Bool) : List Text → Pass → Pass × Option StoreError
  | [], p => (p, none)
  | doc :: rest, p =>
    match documentPages s doc with
    | .error e => (p, some e)
    | .ok pages => indexDocuments s words rest (pages.foldl (visitPage words doc) p)

/-- A pass of `spawn_indexer` with the words of these pages cached. -/
def indexerPass (s : State) (words : Text → Bool) (index : List Text) : Pass × Option StoreError :=
  match documentIds s with
  | .error e => (⟨index, 0, 0, []⟩, some e)
  | .ok ids => indexDocuments s words ids ⟨index, 0, 0, []⟩

/-! ## The tree that the store serves -/

def served (s : State) (hash : Text) : List IndexEntry := (s.indexEntries hash).getD []

def entryPage (docId : Text) (e : IndexEntry) : Option (Text × Text) := (pageOf docId e.name).map (·, e.hash)

/-- The pages among the entries that the store serves of a document. -/
def servedPages (s : State) (doc : IndexEntry) : List (Text × Text) := (served s doc.hash).filterMap (entryPage doc.name)

/-- The root index lists no name twice. -/
def Distinct (s : State) : Prop := ((listed s s.root.hash).map IndexEntry.name).Nodup

/-- Handwriting search reads the tree the store serves. -/
structure ReadsServedTree (s : State) : Prop where
  ids : ∃ ids, documentIds s = .ok ids ∧ (∀ id, id ∈ ids ↔ id ∈ (served s s.root.hash).map IndexEntry.name) ∧
    (Distinct s → ids.Perm ((served s s.root.hash).map IndexEntry.name))
  pages : Distinct s → ∀ doc ∈ served s s.root.hash, doc.isIndex = true →
    ∃ pages, documentPages s doc.name = .ok pages ∧ ∀ page, page ∈ pages ↔ page ∈ servedPages s doc
  visits : Distinct s → ∀ words index, ∀ doc ∈ served s s.root.hash, doc.isIndex = true →
    ∀ page ∈ servedPages s doc, (doc.name, page) ∈ (indexerPass s words index).1.visited

/-! ## The condition -/

/-- What stands where entries have their names, in the summary lines of a stored index. -/
def summaryNames (s : State) (hash : Text) : List Text :=
  match (s.files.lookup hash).bind fun file => indexLines file.bytes with
  | some (schema, below) => (summaryLines schema below).filterMap thirdField
  | none => []

/-- The pages that the lines of a stored document index are of. -/
def listedPages (s : State) (doc : IndexEntry) : List (Text × Text) := (listed s doc.hash).filterMap (entryPage doc.name)

/-- No summary line of the document's index reads like a page of it, and lines of one page have one hash. -/
structure PlainDocument (s : State) (doc : IndexEntry) : Prop where
  summary : ∀ name ∈ summaryNames s doc.hash, pageOf doc.name name = none
  pages : ∀ f ∈ listed s doc.hash, ∀ g ∈ listed s doc.hash, f.name = g.name → (pageOf doc.name f.name).isSome = true →
    f.hash = g.hash

/-- If the root lists no name twice, it has no summary line, its documents are plain, and no file of it that is not
stored stands before a document with pages. If it lists a name twice, a summary line has the name of an entry
where its count is. -/
def PlainTree (s : State) : Prop :=
  (Distinct s → summaryNames s s.root.hash = [] ∧
    (∀ doc ∈ listed s s.root.hash, doc.isIndex = true → PlainDocument s doc) ∧
    (listed s s.root.hash).Pairwise fun e doc => s.blobExists e.hash = true ∨ doc.isIndex = false ∨ listedPages s doc = []) ∧
  (¬ Distinct s → ∀ name ∈ summaryNames s s.root.hash, name ∈ (listed s s.root.hash).map IndexEntry.name)

/-! ## The fields of a line -/

theorem thirdField_of_blank {line : Text} (h : isBlank line = true) : thirdField line = none := by
  rw [thirdField, (blank_split h).1]
  rfl

theorem thirdField_of_entry {line : Text} {e : IndexEntry} (h : parseLine line = .ok e) : thirdField line = some e.name := by
  obtain ⟨s, z, hs, -⟩ := parseLine_ok h
  rw [thirdField, hs]
  rfl

theorem pageLine_of_blank {docId line : Text} (h : isBlank line = true) : pageLine docId line = none := by
  rw [pageLine, (blank_split h).1]

theorem pageLine_of_entry {docId line : Text} {e : IndexEntry} (h : parseLine line = .ok e) :
    pageLine docId line = entryPage docId e := by
  obtain ⟨s, z, hs, -⟩ := parseLine_ok h
  rw [pageLine, hs]
  rfl

/-- A summary line reads like a page with the hash `0` if its count is the name of one. -/
theorem pageLine_of_summary {line : Text} (h : isSummary line = true) (docId : Text) :
    ∃ name, thirdField line = some name ∧ pageLine docId line = (pageOf docId name).map (·, ['0']) := by
  obtain ⟨c, d, hs⟩ := summary_split h
  exact ⟨c, by rw [thirdField, hs]; rfl, by rw [pageLine, hs]⟩

theorem firstField_of_entry {line : Text} {e : IndexEntry} (h : parseLine line = .ok e) :
    (split ':' line).head? = some e.hash ∧ isValidHash e.hash = true := by
  obtain ⟨s, z, hs, hv, -⟩ := parseLine_ok h
  exact ⟨by rw [hs]; rfl, hv⟩

/-! ## A stored index that the store serves -/

/-- The lines of a stored index, which the strict reader accepts and the projection has. -/
structure Reads (s : State) (hash schema : Text) (below : List Text) : Prop where
  get : ∃ bytes, s.get hash = .ok bytes ∧ linesBelow bytes = below
  parsed : parseLines schema below = .ok (listed s hash)
  summary : summaryNames s hash = (summaryLines schema below).filterMap thirdField
  entries : (served s hash).Perm (lastOfName (listed s hash))

variable {s : State} {hash schema : Text} {below : List Text}

theorem reads_of_current (hvalid : isValidHash hash = true) (hcur : current s hash = true) {entries : List IndexEntry}
    (hserved : s.indexEntries hash = some entries) : ∃ schema below, Reads s hash schema below := by
  obtain ⟨row, hrow, hok, -⟩ := indexEntries_eq_some hserved
  obtain ⟨file, schema, es, hfile, -, hparse, -⟩ := faithful_iff.mp hcur row hrow hok
  obtain ⟨text, first, rest, hdecode, hlines, htrim, hrest⟩ := parseIndex_ok hparse
  have hlisted : listed s hash = es := by
    rw [listed, hfile]
    simp only [hparse]
  refine ⟨schema, rest, ⟨file.bytes, ?_, ?_⟩, hlisted.symm ▸ hrest, ?_, ?_⟩
  · rw [State.get, hvalid, hfile]
    rfl
  · rw [linesBelow, Utf8Codec.decodeLossy_of_decode hdecode, hlines]
    rfl
  · have hindex : indexLines file.bytes = some (schema, rest) := by simp only [indexLines, hdecode, hlines, htrim]
    rw [summaryNames, hfile, Option.bind_some, hindex]
  · rw [served, hserved]
    exact entries_of_current hcur hserved

/-- The names of the entries, and of the lines that no later one replaces. -/
theorem names_lastOfName (es : List IndexEntry) (name : Text) :
    name ∈ (lastOfName es).map IndexEntry.name ↔ name ∈ es.map IndexEntry.name := by
  induction es with
  | nil => rfl
  | cons e es ih =>
    rw [lastOfName]
    split
    next hlater =>
      rw [ih, List.map_cons, List.mem_cons, iff_or_self]
      rintro rfl
      exact any_name_iff.mp hlater
    next hlater => rw [List.map_cons, List.map_cons, List.mem_cons, List.mem_cons, ih]

theorem mem_of_mem_lastOfName {es : List IndexEntry} {e : IndexEntry} (h : e ∈ lastOfName es) : e ∈ es := by
  induction es with
  | nil => cases h
  | cons a es ih =>
    rw [lastOfName] at h
    split at h
    next => exact List.mem_cons_of_mem a (ih h)
    next => exact (List.mem_cons.mp h).elim (fun heq => heq ▸ List.mem_cons_self) fun h => List.mem_cons_of_mem a (ih h)

theorem Reads.mem_names (h : Reads s hash schema below) (name : Text) :
    name ∈ (served s hash).map IndexEntry.name ↔ name ∈ (listed s hash).map IndexEntry.name :=
  (h.entries.map IndexEntry.name).mem_iff.trans (names_lastOfName _ name)

theorem Reads.served_of_distinct (h : Reads s hash schema below) (hdistinct : ((listed s hash).map IndexEntry.name).Nodup) :
    (served s hash).Perm (listed s hash) := by
  have hserved := h.entries
  rwa [lastOfName_of_nodup hdistinct] at hserved

/-- The third fields of the lines are the names of the entries and what the summaries have there. -/
theorem Reads.thirdFields (h : Reads s hash schema below) :
    (below.filterMap thirdField).Perm (summaryNames s hash ++ (listed s hash).map IndexEntry.name) := by
  rw [h.summary, ← List.filterMap_eq_map]
  exact filterMap_lines_perm (fun _ => thirdField_of_blank) (fun _ _ => thirdField_of_entry) h.parsed

theorem Reads.ids_eq (h : Reads s s.root.hash schema below) (hne : s.root.hash ≠ []) :
    documentIds s = .ok (below.filterMap thirdField) := by
  obtain ⟨bytes, hget, rfl⟩ := h.get
  have hempty : s.root.hash.isEmpty = false := by simpa using hne
  have hroot : (s.getRoot true).2.hash = s.root.hash := rfl
  rw [documentIds]
  simp only [hroot, hempty, hget, Bool.false_eq_true, if_false, Except.map]

/-- `document_ids` gives the names, each as often as it is listed if it is listed once. -/
theorem Reads.ids_iff (h : Reads s s.root.hash schema below) (hne : s.root.hash ≠ []) :
    (∃ ids, documentIds s = .ok ids ∧ (∀ id, id ∈ ids ↔ id ∈ (served s s.root.hash).map IndexEntry.name) ∧
      (Distinct s → ids.Perm ((served s s.root.hash).map IndexEntry.name))) ↔
      (Distinct s → summaryNames s s.root.hash = []) ∧
        (¬ Distinct s → ∀ name ∈ summaryNames s s.root.hash, name ∈ (listed s s.root.hash).map IndexEntry.name) := by
  have hids := h.ids_eq hne
  have hfields := h.thirdFields
  constructor
  · rintro ⟨ids, hok, hset, hperm⟩
    obtain rfl : ids = below.filterMap thirdField := Except.ok.inj (hok.symm.trans hids)
    refine ⟨fun hdistinct => ?_, fun _ name hname => ?_⟩
    · have hlength := (hfields.symm.trans (hperm hdistinct)).length_eq
      rw [List.length_append, List.length_map, List.length_map, (h.served_of_distinct hdistinct).length_eq] at hlength
      exact List.eq_nil_of_length_eq_zero (by omega)
    · exact (h.mem_names name).mp ((hset name).mp (hfields.mem_iff.mpr (List.mem_append_left _ hname)))
  · rintro ⟨hnone, hnames⟩
    refine ⟨_, hids, fun id => ?_, fun hdistinct => ?_⟩
    · rw [hfields.mem_iff, List.mem_append, h.mem_names]
      refine or_iff_right_of_imp fun hsummary => ?_
      by_cases hdistinct : Distinct s
      · rw [hnone hdistinct] at hsummary
        cases hsummary
      · exact hnames hdistinct id hsummary
    · rw [hnone hdistinct, List.nil_append] at hfields
      exact hfields.trans ((h.served_of_distinct hdistinct).map _).symm

/-! ## The pages of a document -/

theorem Reads.no_summaryLines (h : Reads s hash schema below) (hnone : summaryNames s hash = []) :
    summaryLines schema below = [] := by
  rw [h.summary, List.filterMap_eq_nil_iff] at hnone
  refine List.eq_nil_iff_forall_not_mem.mpr fun line hline => ?_
  obtain ⟨name, hname, -⟩ := pageLine_of_summary (Bool.and_eq_true_iff.mp (List.mem_filter.mp hline).2).2 []
  rw [hnone line hline] at hname
  cases hname

/-- With no summary line and no name twice, the line that is found for a name is that of its entry. -/
theorem Reads.find_entry (h : Reads s hash schema below) (hdistinct : ((listed s hash).map IndexEntry.name).Nodup)
    (hnone : summaryNames s hash = []) {e : IndexEntry} (he : e ∈ listed s hash) :
    (below.find? (thirdField · == some e.name)).bind (fun line => (split ':' line).head?) = some e.hash := by
  have hsummary := h.no_summaryLines hnone
  cases hfind : below.find? (thirdField · == some e.name) with
  | none =>
    have hmem : e.name ∈ below.filterMap thirdField :=
      h.thirdFields.mem_iff.mpr (List.mem_append_right _ (List.mem_map_of_mem he))
    obtain ⟨line, hline, hname⟩ := List.mem_filterMap.mp hmem
    exact absurd (beq_iff_eq.mpr hname) (List.find?_eq_none.mp hfind line hline)
  | some line =>
    have hname : thirdField line = some e.name := by simpa using List.find?_some hfind
    rcases line_cases h.parsed (List.mem_of_find?_eq_some hfind) with hblank | hsum | ⟨e', he', hparse⟩
    · rw [thirdField_of_blank hblank] at hname
      cases hname
    · rw [hsummary] at hsum
      cases hsum
    · rw [thirdField_of_entry hparse, Option.some_inj] at hname
      obtain rfl := List.inj_on_of_nodup_map hdistinct he' he hname
      exact (firstField_of_entry hparse).1

theorem Reads.pages_eq (h : Reads s s.root.hash schema below) (hne : s.root.hash ≠ []) (hdistinct : Distinct s)
    (hnone : summaryNames s s.root.hash = []) {e : IndexEntry} (he : e ∈ listed s s.root.hash) :
    documentPages s e.name = (s.get e.hash).map fun docIndex => (linesBelow docIndex).filterMap (pageLine e.name) := by
  have hfind := h.find_entry hdistinct hnone he
  obtain ⟨bytes, hget, rfl⟩ := h.get
  have hempty : s.root.hash.isEmpty = false := by simpa using hne
  have hroot : (s.getRoot true).2.hash = s.root.hash := rfl
  rw [documentPages]
  simp only [hroot, hempty, hget, hfind, Bool.false_eq_true, if_false]

/-- The lines of a document index read as its pages, and the summary lines as pages with the hash `0`. -/
theorem Reads.mem_pageLines (h : Reads s hash schema below) (docId : Text) (page : Text × Text) :
    page ∈ below.filterMap (pageLine docId) ↔
      (∃ name ∈ summaryNames s hash, (pageOf docId name).map (·, ['0']) = some page) ∨
        page ∈ (listed s hash).filterMap (entryPage docId) := by
  rw [(filterMap_lines_perm (fun _ => pageLine_of_blank) (fun _ _ => pageLine_of_entry) h.parsed).mem_iff, List.mem_append]
  refine or_congr_left ?_
  rw [h.summary]
  simp only [List.mem_filterMap]
  constructor
  · rintro ⟨line, hline, hpage⟩
    obtain ⟨name, hname, heq⟩ := pageLine_of_summary (Bool.and_eq_true_iff.mp (List.mem_filter.mp hline).2).2 docId
    exact ⟨name, ⟨line, hline, hname⟩, heq.symm.trans hpage⟩
  · rintro ⟨name, ⟨line, hline, hname⟩, hpage⟩
    obtain ⟨name', hname', heq⟩ := pageLine_of_summary (Bool.and_eq_true_iff.mp (List.mem_filter.mp hline).2).2 docId
    obtain rfl : name' = name := Option.some.inj (hname'.symm.trans hname)
    exact ⟨line, hline, heq.trans hpage⟩

/-- The last line of a name is among the lines that no later one replaces. -/
theorem exists_lastOfName {es : List IndexEntry} {e : IndexEntry} (h : e ∈ es) : ∃ k ∈ lastOfName es, k.name = e.name :=
  List.mem_map.mp ((names_lastOfName es e.name).mpr (List.mem_map_of_mem h))

theorem valid_of_mem_listed (h : Reads s hash schema below) {e : IndexEntry} (he : e ∈ listed s hash) :
    isValidHash e.hash = true := by
  obtain ⟨line, -, hparse⟩ := exists_line h.parsed he
  exact (firstField_of_entry hparse).2

theorem nodup_lastOfName (es : List IndexEntry) : ((lastOfName es).map IndexEntry.name).Nodup := by
  induction es with
  | nil => exact List.nodup_nil
  | cons e es ih =>
    rw [lastOfName]
    split
    next => exact ih
    next hlater =>
      rw [List.map_cons, List.nodup_cons, names_lastOfName]
      exact ⟨fun hmem => hlater (any_name_iff.mpr hmem), ih⟩

theorem pageOf_iff {docId name page : Text} : pageOf docId name = some page ↔ name = docId ++ '/' :: (page ++ ".rm".toList) := by
  rw [pageOf, Option.bind_eq_some_iff]
  simp only [List.dropPrefix?_eq_some_iff, List.dropSuffix?_eq_some_iff, beq_iff_eq]
  constructor
  · rintro ⟨file, ⟨before, rfl, rfl⟩, after, rfl, rfl⟩
    rw [List.append_assoc]
    rfl
  · rintro rfl
    exact ⟨page ++ ".rm".toList, ⟨docId ++ ['/'], by rw [List.append_assoc]; rfl, rfl⟩, ".rm".toList, rfl, rfl⟩

/-- The entries of a page have one name. -/
theorem entryPage_iff {docId : Text} {e : IndexEntry} {page hash : Text} :
    entryPage docId e = some (page, hash) ↔ e.name = docId ++ '/' :: (page ++ ".rm".toList) ∧ e.hash = hash := by
  rw [entryPage, Option.map_eq_some_iff, ← pageOf_iff]
  constructor
  · rintro ⟨p, hp, heq⟩
    cases heq
    exact ⟨hp, rfl⟩
  · rintro ⟨hp, rfl⟩
    exact ⟨page, hp, rfl⟩

/-- What the lines of a document index read as are the pages that the store serves exactly if it is plain. -/
theorem Reads.pages_iff {doc : IndexEntry} (h : Reads s doc.hash schema below) :
    (∀ page, page ∈ below.filterMap (pageLine doc.name) ↔ page ∈ servedPages s doc) ↔ PlainDocument s doc := by
  have hserved : ∀ page, page ∈ servedPages s doc ↔ ∃ k ∈ lastOfName (listed s doc.hash), entryPage doc.name k = some page :=
    fun page => (h.entries.filterMap _).mem_iff.trans List.mem_filterMap
  constructor
  · intro hall
    constructor
    · intro name hname
      by_contra hpage
      obtain ⟨page, hpage⟩ := Option.ne_none_iff_exists'.mp hpage
      have hread := (h.mem_pageLines doc.name (page, ['0'])).mpr (.inl ⟨name, hname, by rw [hpage]; rfl⟩)
      obtain ⟨e, he, heq⟩ := (hserved _).mp ((hall _).mp hread)
      have hvalid := valid_of_mem_listed h (mem_of_mem_lastOfName he)
      rw [(entryPage_iff.mp heq).2] at hvalid
      exact absurd hvalid (by decide)
    · intro f hf g hg hname hpage
      obtain ⟨page, hpage⟩ := Option.isSome_iff_exists.mp hpage
      -- the pages that both lines read as are served, and so are of the one entry that is left of their name
      have hread : ∀ k ∈ listed s doc.hash, k.name = f.name →
          ∃ last ∈ lastOfName (listed s doc.hash), last.name = f.name ∧ last.hash = k.hash := by
        intro k hk hkf
        have hkpage : entryPage doc.name k = some (page, k.hash) := entryPage_iff.mpr ⟨hkf.trans (pageOf_iff.mp hpage), rfl⟩
        have hmem := (h.mem_pageLines doc.name (page, k.hash)).mpr (.inr (List.mem_filterMap.mpr ⟨k, hk, hkpage⟩))
        obtain ⟨last, hlast, heq⟩ := (hserved _).mp ((hall _).mp hmem)
        obtain ⟨hlastName, hhash⟩ := entryPage_iff.mp heq
        exact ⟨last, hlast, hlastName.trans (pageOf_iff.mp hpage).symm, hhash⟩
      obtain ⟨last, hlast, hlastName, hlastHash⟩ := hread f hf rfl
      obtain ⟨last', hlast', hlastName', hlastHash'⟩ := hread g hg hname.symm
      have hsame := List.inj_on_of_nodup_map (nodup_lastOfName _) hlast hlast' (hlastName.trans hlastName'.symm)
      rw [← hlastHash, hsame, hlastHash']
  · rintro hplain ⟨page, hash⟩
    rw [h.mem_pageLines, hserved, List.mem_filterMap]
    constructor
    · rintro (⟨name, hname, hpage⟩ | ⟨e, he, hpage⟩)
      · rw [hplain.summary name hname] at hpage
        cases hpage
      · obtain ⟨last, hlast, hname⟩ := exists_lastOfName he
        obtain ⟨hpageName, hhash⟩ := entryPage_iff.mp hpage
        have hsome : (pageOf doc.name e.name).isSome = true := by rw [pageOf_iff.mpr hpageName]; rfl
        have hlastHash := hplain.pages e he last (mem_of_mem_lastOfName hlast) hname.symm hsome
        exact ⟨last, hlast, entryPage_iff.mpr ⟨hname.trans hpageName, hlastHash.symm.trans hhash⟩⟩
    · rintro ⟨last, hlast, hpage⟩
      exact .inr ⟨last, mem_of_mem_lastOfName hlast, hpage⟩

/-! ## A pass of the indexer -/

/-- The pages that a pass over these documents comes to. -/
def reached (s : State) : List Text → List (Text × Text × Text)
  | [] => []
  | doc :: rest =>
    match documentPages s doc with
    | .error _ => []
    | .ok pages => pages.map (doc, ·) ++ reached s rest

theorem visitPage_visited (words : Text → Bool) (doc : Text) (pages : List (Text × Text)) (p : Pass) :
    (pages.foldl (visitPage words doc) p).visited = p.visited ++ pages.map (doc, ·) := by
  induction pages generalizing p with
  | nil => exact (List.append_nil _).symm
  | cons page pages ih =>
    have hvisit : (visitPage words doc p page).visited = p.visited ++ [(doc, page)] := by
      rw [visitPage]
      dsimp only
      split
      · rfl
      · split <;> rfl
    rw [List.foldl_cons, ih, hvisit, List.append_assoc, List.map_cons]
    rfl

theorem indexDocuments_visited (s : State) (words : Text → Bool) (ids : List Text) (p : Pass) :
    (indexDocuments s words ids p).1.visited = p.visited ++ reached s ids := by
  induction ids generalizing p with
  | nil => exact (List.append_nil _).symm
  | cons doc ids ih =>
    rw [indexDocuments, reached]
    split
    next => exact (List.append_nil _).symm
    next pages hpages => rw [ih, visitPage_visited, List.append_assoc]

/-- Where a document that cannot be read ends the pass, every page is come to exactly if no document with pages is
behind it. -/
theorem reached_iff {es : List IndexEntry} (hdistinct : (es.map IndexEntry.name).Nodup)
    (hstored : ∀ e ∈ es, e.isIndex = true → s.blobExists e.hash = true)
    (hread : ∀ e ∈ es, s.blobExists e.hash = true → ∃ pages, documentPages s e.name = .ok pages ∧
      (e.isIndex = true → ∀ page ∈ listedPages s e, page ∈ pages))
    (hfails : ∀ e ∈ es, s.blobExists e.hash = false → ∃ error, documentPages s e.name = .error error) :
    (∀ doc ∈ es, doc.isIndex = true → ∀ page ∈ listedPages s doc, (doc.name, page) ∈ reached s (es.map IndexEntry.name)) ↔
      es.Pairwise fun e doc => s.blobExists e.hash = true ∨ doc.isIndex = false ∨ listedPages s doc = [] := by
  induction es with
  | nil => exact ⟨fun _ => .nil, fun _ doc hdoc => nomatch hdoc⟩
  | cons e es ih =>
    rw [List.map_cons, List.nodup_cons] at hdistinct
    rw [List.forall_mem_cons] at hstored hread hfails
    have ih := ih hdistinct.2 hstored.2 hread.2 hfails.2
    have hname : ∀ doc ∈ es, doc.name ≠ e.name := fun doc hdoc heq => hdistinct.1 (heq ▸ List.mem_map_of_mem hdoc)
    rw [List.pairwise_cons, List.forall_mem_cons, List.map_cons, reached]
    cases hexists : s.blobExists e.hash with
    | true =>
      obtain ⟨pages, hpages, hlisted⟩ := hread.1 hexists
      simp only [hpages, true_or, implies_true, true_and, ← ih, List.mem_append, List.mem_map, Prod.mk.injEq]
      constructor
      · rintro ⟨-, hall⟩ doc hdoc hindex page hpage
        rcases hall doc hdoc hindex page hpage with ⟨-, -, heq, -⟩ | hmem
        · exact absurd heq.symm (hname doc hdoc)
        · exact hmem
      · intro hall
        exact ⟨fun hindex page hpage => .inl ⟨page, hlisted hindex page hpage, rfl⟩,
          fun doc hdoc hindex page hpage => .inr (hall doc hdoc hindex page hpage)⟩
    | false =>
      obtain ⟨error, herror⟩ := hfails.1 hexists
      have hleaf : e.isIndex = false := Bool.eq_false_iff.mpr fun hindex => by simp [hstored.1 hindex] at hexists
      simp only [herror, hleaf, Bool.false_eq_true, false_implies, true_and, List.not_mem_nil, false_or, imp_false]
      have hempty : ∀ doc, (doc.isIndex = true → ∀ page, page ∉ listedPages s doc) ↔ doc.isIndex = false ∨ listedPages s doc = [] := by
        intro doc
        rw [← List.eq_nil_iff_forall_not_mem, ← Bool.not_eq_true, ← imp_iff_not_or]
      simp only [hempty]
      refine ⟨fun hall => ⟨hall, ?_⟩, And.left⟩
      exact List.pairwise_iff_forall_sublist.mpr fun hsub => .inr (hall _ (hsub.subset (by simp)))

/-! ## The whole tree -/

/-- A state whose tree the store serves from the stored bytes: the root index and each document index is read, and
nothing is read elsewhere. -/
structure Tree (s : State) : Prop where
  ne : s.root.hash ≠ []
  root : ∃ schema below, Reads s s.root.hash schema below
  documents : ∀ doc ∈ listed s s.root.hash, doc.isIndex = true → Distinct s → ∃ schema below, Reads s doc.hash schema below
  stored : ∀ doc ∈ listed s s.root.hash, doc.isIndex = true → Distinct s → s.blobExists doc.hash = true

theorem get_of_blobExists (h : s.blobExists hash = true) : ∃ bytes, s.get hash = .ok bytes := by
  obtain ⟨hvalid, file, hfile⟩ := State.blobExists_iff.mp h
  exact ⟨file.bytes, by rw [State.get, hvalid, hfile]; rfl⟩

theorem get_of_not_blobExists (hvalid : isValidHash hash = true) (h : s.blobExists hash = false) :
    s.get hash = .error (.notFound hash) := by
  rw [State.blobExists, hvalid, Bool.true_and, Option.isSome_eq_false_iff, Option.isNone_iff_eq_none] at h
  rw [State.get, hvalid, h]
  rfl

theorem mem_servedPages_iff {doc : IndexEntry} (h : Reads s doc.hash schema below) (hplain : PlainDocument s doc)
    (page : Text × Text) : page ∈ servedPages s doc ↔ page ∈ listedPages s doc := by
  rw [← h.pages_iff.mpr hplain page, h.mem_pageLines, listedPages]
  refine or_iff_right_of_imp ?_
  rintro ⟨name, hname, hpage⟩
  rw [hplain.summary name hname] at hpage
  cases hpage

section
variable (h : Tree s) (hdistinct : Distinct s) (hnone : summaryNames s s.root.hash = [])
include h hdistinct hnone

theorem Tree.documentPages_eq {e : IndexEntry} (he : e ∈ listed s s.root.hash) :
    documentPages s e.name = (s.get e.hash).map fun docIndex => (linesBelow docIndex).filterMap (pageLine e.name) := by
  obtain ⟨schema, below, hroot⟩ := h.root
  exact hroot.pages_eq h.ne hdistinct hnone he

/-- What `document_pages` gives of a document is what the store serves exactly if the document is plain. -/
theorem Tree.pages_iff {doc : IndexEntry} (hdoc : doc ∈ listed s s.root.hash) (hindex : doc.isIndex = true) :
    (∃ pages, documentPages s doc.name = .ok pages ∧ ∀ page, page ∈ pages ↔ page ∈ servedPages s doc) ↔
      PlainDocument s doc := by
  obtain ⟨schema, below, hread⟩ := h.documents doc hdoc hindex hdistinct
  obtain ⟨bytes, hget, hbelow⟩ := hread.get
  rw [← hread.pages_iff, h.documentPages_eq hdistinct hnone hdoc, hget, ← hbelow]
  simp [Except.map]

omit hdistinct in
theorem Tree.visited_eq (words : Text → Bool) (index : List Text) :
    (indexerPass s words index).1.visited = reached s ((listed s s.root.hash).map IndexEntry.name) := by
  obtain ⟨schema, below, hroot⟩ := h.root
  have hids := hroot.ids_eq h.ne
  have hnames : below.filterMap thirdField = (listed s s.root.hash).map IndexEntry.name := by
    rw [← List.filterMap_eq_map]
    refine filterMap_lines (fun _ => thirdField_of_blank) (fun _ _ => thirdField_of_entry) (fun line hline => ?_) hroot.parsed
    rw [hroot.no_summaryLines hnone] at hline
    cases hline
  rw [indexerPass, hids]
  simp only [hnames]
  rw [indexDocuments_visited, List.nil_append]

/-- A pass comes to every page exactly if no file that is not stored stands before a document with pages. -/
theorem Tree.visits_iff :
    (∀ words index, ∀ doc ∈ listed s s.root.hash, doc.isIndex = true → ∀ page ∈ listedPages s doc,
      (doc.name, page) ∈ (indexerPass s words index).1.visited) ↔
      (listed s s.root.hash).Pairwise fun e doc => s.blobExists e.hash = true ∨ doc.isIndex = false ∨ listedPages s doc = [] := by
  obtain ⟨schema, below, hroot⟩ := h.root
  rw [← reached_iff hdistinct fun doc hdoc hindex => h.stored doc hdoc hindex hdistinct]
  · simp only [h.visited_eq hnone]
    exact ⟨fun hall => hall (fun _ => true) [], fun hall _ _ => hall⟩
  · intro e he hexists
    obtain ⟨bytes, hget⟩ := get_of_blobExists hexists
    rw [h.documentPages_eq hdistinct hnone he, hget]
    refine ⟨_, rfl, fun hindex page hpage => ?_⟩
    obtain ⟨schema, below, hread⟩ := h.documents e he hindex hdistinct
    obtain ⟨bytes', hget', rfl⟩ := hread.get
    obtain rfl : bytes = bytes' := Except.ok.inj (hget.symm.trans hget')
    exact (hread.mem_pageLines e.name page).mpr (.inr hpage)
  · intro e he hexists
    rw [h.documentPages_eq hdistinct hnone he, get_of_not_blobExists (valid_of_mem_listed hroot he) hexists]
    exact ⟨_, rfl⟩

end

/-- Handwriting search reads the tree the store serves exactly if the tree is plain. -/
theorem Tree.readsServedTree_iff (h : Tree s) : ReadsServedTree s ↔ PlainTree s := by
  obtain ⟨schema, below, hroot⟩ := h.root
  have hids := hroot.ids_iff h.ne
  have hserved : Distinct s → ∀ doc, doc ∈ served s s.root.hash ↔ doc ∈ listed s s.root.hash :=
    fun hdistinct doc => (hroot.served_of_distinct hdistinct).mem_iff
  have hsame : Distinct s → (∀ doc ∈ listed s s.root.hash, doc.isIndex = true → PlainDocument s doc) →
      ∀ doc ∈ listed s s.root.hash, doc.isIndex = true → ∀ page, page ∈ servedPages s doc ↔ page ∈ listedPages s doc := by
    intro hdistinct hplain doc hdoc hindex page
    obtain ⟨schema, below, hread⟩ := h.documents doc hdoc hindex hdistinct
    exact mem_servedPages_iff hread (hplain doc hdoc hindex) page
  constructor
  · intro hreads
    obtain ⟨hnone, hnames⟩ := hids.mp hreads.ids
    refine ⟨fun hdistinct => ?_, hnames⟩
    have hplain : ∀ doc ∈ listed s s.root.hash, doc.isIndex = true → PlainDocument s doc := fun doc hdoc hindex =>
      (h.pages_iff hdistinct (hnone hdistinct) hdoc hindex).mp
        (hreads.pages hdistinct doc ((hserved hdistinct doc).mpr hdoc) hindex)
    refine ⟨hnone hdistinct, hplain, (h.visits_iff hdistinct (hnone hdistinct)).mp fun words index doc hdoc hindex page hpage => ?_⟩
    exact hreads.visits hdistinct words index doc ((hserved hdistinct doc).mpr hdoc) hindex page
      ((hsame hdistinct hplain doc hdoc hindex page).mpr hpage)
  · rintro ⟨hplain, hnames⟩
    refine ⟨hids.mpr ⟨fun hdistinct => (hplain hdistinct).1, hnames⟩, fun hdistinct doc hdoc hindex => ?_,
      fun hdistinct words index doc hdoc hindex page hpage => ?_⟩
    · obtain ⟨hnone, hdocs, -⟩ := hplain hdistinct
      have hdoc := (hserved hdistinct doc).mp hdoc
      exact (h.pages_iff hdistinct hnone hdoc hindex).mpr (hdocs doc hdoc hindex)
    · obtain ⟨hnone, hdocs, hbehind⟩ := hplain hdistinct
      have hdoc := (hserved hdistinct doc).mp hdoc
      exact (h.visits_iff hdistinct hnone).mpr hbehind words index doc hdoc hindex page
        ((hsame hdistinct hdocs doc hdoc hindex page).mp hpage)

/-! ## Every reachable state -/

/-- The tree is parsed by what `reachable_from_root` does, and the parses are of the stored bytes if they were before. -/
theorem tree_of_reachable {live : List Text} (hlive : (MissingBlobs.reachableFromRoot s).2 = some live)
    (hcur : ∀ h ∈ GcSafety.treeIndexes s, current s h = true) (hroot : s.blobExists s.root.hash = true)
    (hdocs : ∀ doc ∈ listed s s.root.hash, doc.isIndex = true → s.blobExists doc.hash = true) :
    Tree (MissingBlobs.reachableFromRoot s).1 ∧ Reparsed (s.getRoot true).1 (MissingBlobs.reachableFromRoot s).1 := by
  obtain ⟨hne, hstate, docs, hentries, hwalk⟩ := MissingBlobs.reachableFromRoot_eq_some hlive
  have hrep : Reparsed (s.getRoot true).1 (MissingBlobs.reachableFromRoot s).1 := by
    rw [hstate]
    exact reparsed_indexTree _ _
  generalize (MissingBlobs.reachableFromRoot s).1 = t at *
  have hrootEq : t.root.hash = s.root.hash := congrArg (·.hash) hrep.root
  have hlisted : ∀ hash, listed t hash = listed s hash := hrep.listed
  have hexists : ∀ hash, t.blobExists hash = s.blobExists hash := fun hash => by
    rw [State.blobExists, State.blobExists, hrep.files]
    rfl
  have hcurrent : ∀ h ∈ GcSafety.treeIndexes s, current t h = true := fun h hh => hrep.current h (hcur h hh)
  have hrootReads : ∃ schema below, Reads t t.root.hash schema below := by
    rw [hrootEq]
    exact reads_of_current (State.blobExists_iff.mp hroot).1 (hcurrent _ List.mem_cons_self) hentries
  refine ⟨⟨hrootEq ▸ hne, hrootReads, fun doc hdoc hindex hdistinct => ?_, fun doc hdoc hindex _ => ?_⟩, hrep⟩
  · obtain ⟨schema, below, hreads⟩ := hrootReads
    have hserved : doc ∈ docs := by
      have hperm := hreads.served_of_distinct hdistinct
      rw [served, hrootEq, hentries] at hperm
      exact hperm.mem_iff.mpr (hrootEq ▸ hdoc)
    rw [hrootEq, hlisted] at hdoc
    obtain ⟨files, hfiles, -⟩ := ((foldlM_addDoc hwalk).2 rfl doc hserved).2 hindex
    refine reads_of_current (State.blobExists_iff.mp (hdocs doc hdoc hindex)).1 (hcurrent _ ?_) hfiles
    exact List.mem_cons_of_mem _ (List.mem_map_of_mem (List.mem_filter.mpr ⟨hdoc, hindex⟩))
  · rw [hrootEq, hlisted] at hdoc
    rw [hexists]
    exact hdocs doc hdoc hindex

theorem plainTree_congr {t : State} (hfiles : t.files = s.files) (hroot : t.root = s.root) : PlainTree t ↔ PlainTree s := by
  have hlisted : listed t = listed s := by
    funext hash
    rw [listed, listed, hfiles]
  have hsummary : summaryNames t = summaryNames s := by
    funext hash
    rw [summaryNames, summaryNames, hfiles]
  have hexists : t.blobExists = s.blobExists := by
    funext hash
    rw [State.blobExists, State.blobExists, hfiles]
  have hdoc : ∀ doc, PlainDocument t doc ↔ PlainDocument s doc := fun doc =>
    ⟨fun h => ⟨hsummary ▸ h.summary, hlisted ▸ h.pages⟩, fun h => ⟨hsummary ▸ h.summary, hlisted ▸ h.pages⟩⟩
  have hpages : listedPages t = listedPages s := by
    funext doc
    rw [listedPages, listedPages, hlisted]
  simp only [PlainTree, Distinct, hlisted, hsummary, hexists, hdoc, hpages, hroot]

/-- In every state that steps reach which leave no stale parse behind, and in which no write of an index of the tree is in
progress: if the tree can be read and its indexes are stored, handwriting search reads the tree that the store serves
exactly if the tree is plain. -/
theorem reads_served_tree_iff (files : Table BlobFile) (json : Option SyncRoot) (versions : List Text)
    (as : List GcSafety.Action) (s : Sys) (live : List Text)
    (hgood : AllGood GcSafety.step (fun s a => GcSafety.good s a = true) (.new files json versions) as)
    (hrun : run GcSafety.step (.new files json versions) as = some s)
    (hidle : ∀ h ∈ GcSafety.treeIndexes s.store, s.inProgress h = false)
    (hlive : (MissingBlobs.reachableFromRoot s.store).2 = some live)
    (hroot : s.store.blobExists s.store.root.hash = true)
    (hdocs : ∀ doc ∈ listed s.store s.store.root.hash, doc.isIndex = true → s.store.blobExists doc.hash = true) :
    ReadsServedTree (MissingBlobs.reachableFromRoot s.store).1 ↔ PlainTree s.store := by
  have hinv := invariant_of_allGood GcSafety.inv_step (inv_new _ files json versions) hgood hrun
  have hcur : ∀ h ∈ GcSafety.treeIndexes s.store, current s.store h = true := fun h hh =>
    (hinv h).resolve_left (by simp [hidle h hh])
  obtain ⟨htree, hrep⟩ := tree_of_reachable hlive hcur hroot hdocs
  rw [htree.readsServedTree_iff]
  exact plainTree_congr hrep.files hrep.root

/-! ## Concrete runs -/

/-- A root index of this head with one document, and the document's index with one page. -/
def commitDocument (head : Text) : List GcSafety.Action :=
  let root := Utf8Codec.encode (head ++ hashOf 'c' ++ ":80000000:d:1:1\n".toList)
  GcSafety.upload (hashOf 'b') [1] ++ GcSafety.upload (hashOf 'c') (leafIndex [(hashOf 'b', "d/p.rm".toList)]) ++
    GcSafety.upload (hashOf 'a') root ++ [.setRootIf (hashOf 'a') none]

/-- No write of an index of the tree is in progress, and the tree can be read and its indexes are stored. -/
def ready (s : Sys) : Bool :=
  (GcSafety.treeIndexes s.store).all (fun h => !s.inProgress h) && (MissingBlobs.reachableFromRoot s.store).2.isSome &&
    s.store.blobExists s.store.root.hash &&
    (listed s.store s.store.root.hash).all fun doc => !doc.isIndex || s.store.blobExists doc.hash

theorem exists_ready (as : List GcSafety.Action) (p : Sys → Bool)
    (h : (run GcSafety.step (.new ∅ none []) as).any (fun s => ready s && p s) = true) :
    ∃ s live, run GcSafety.step (.new ∅ none []) as = some s ∧
      (∀ h ∈ GcSafety.treeIndexes s.store, s.inProgress h = false) ∧ (MissingBlobs.reachableFromRoot s.store).2 = some live ∧
      s.store.blobExists s.store.root.hash = true ∧
      (∀ doc ∈ listed s.store s.store.root.hash, doc.isIndex = true → s.store.blobExists doc.hash = true) ∧ p s = true := by
  obtain ⟨s, hs, hready⟩ := (Option.any_eq_true _ _).mp h
  simp only [ready, Bool.and_eq_true, List.all_eq_true, Bool.not_eq_true', Bool.or_eq_true] at hready
  obtain ⟨⟨⟨⟨hidle, hlive⟩, hroot⟩, hdocs⟩, hp⟩ := hready
  obtain ⟨live, hlive⟩ := Option.isSome_iff_exists.mp hlive
  refine ⟨s, live, hs, hidle, hlive, hroot, fun doc hdoc hindex => ?_, hp⟩
  exact (hdocs doc hdoc).resolve_left (by simp [hindex])

/-- The summary line of a schema 4 root counts as a document, whose index cannot be read: the pass ends there, and comes
to no page of the tree. -/
theorem summary_line_ends_the_pass : ∃ s live,
    AllGood GcSafety.step (fun s a => GcSafety.good s a = true) (.new ∅ none []) (commitDocument "4\n0:.:1:1\n".toList) ∧
    run GcSafety.step (.new ∅ none []) (commitDocument "4\n0:.:1:1\n".toList) = some s ∧
    (∀ h ∈ GcSafety.treeIndexes s.store, s.inProgress h = false) ∧ (MissingBlobs.reachableFromRoot s.store).2 = some live ∧
    s.store.blobExists s.store.root.hash = true ∧
    (∀ doc ∈ listed s.store s.store.root.hash, doc.isIndex = true → s.store.blobExists doc.hash = true) ∧
    (indexerPass (MissingBlobs.reachableFromRoot s.store).1 (fun _ => true) []).1.visited = [] ∧
    ¬ ReadsServedTree (MissingBlobs.reachableFromRoot s.store).1 := by
  obtain ⟨s, live, hrun, hidle, hlive, hroot, hdocs, hp⟩ := exists_ready (commitDocument "4\n0:.:1:1\n".toList)
    (fun s => (indexerPass (MissingBlobs.reachableFromRoot s.store).1 (fun _ => true) []).1.visited.isEmpty &&
      (documentIds (MissingBlobs.reachableFromRoot s.store).1).toOption == some ["1".toList, "d".toList] &&
      (served (MissingBlobs.reachableFromRoot s.store).1 (MissingBlobs.reachableFromRoot s.store).1.root.hash).map
        IndexEntry.name == ["d".toList])
    (by decide +kernel)
  rw [Bool.and_eq_true, Bool.and_eq_true, List.isEmpty_iff, beq_iff_eq, beq_iff_eq] at hp
  obtain ⟨⟨hvisited, hids⟩, hserved⟩ := hp
  refine ⟨s, live, by decide +kernel, hrun, hidle, hlive, hroot, hdocs, hvisited, fun hreads => ?_⟩
  obtain ⟨ids, hok, hset, -⟩ := hreads.ids
  rw [hok, Except.toOption, Option.some_inj] at hids
  rw [hids, hserved] at hset
  exact absurd ((hset "1".toList).mp List.mem_cons_self) (by decide)

instance (s : State) (doc : IndexEntry) : Decidable (PlainDocument s doc) :=
  decidable_of_iff ((∀ name ∈ summaryNames s doc.hash, pageOf doc.name name = none) ∧
    ∀ f ∈ listed s doc.hash, ∀ g ∈ listed s doc.hash, f.name = g.name → (pageOf doc.name f.name).isSome = true →
      f.hash = g.hash) ⟨fun h => ⟨h.1, h.2⟩, fun h => ⟨h.summary, h.pages⟩⟩

instance : DecidablePred Distinct := fun s => inferInstanceAs (Decidable ((listed s s.root.hash).map IndexEntry.name).Nodup)

instance : DecidablePred PlainTree := fun s => inferInstanceAs (Decidable ((Distinct s → _ ∧ _) ∧ (¬ Distinct s → _)))

/-- With the same document in a root of schema 3 the pass comes to its page. -/
theorem reads_served_tree_schema3 : ∃ s, run GcSafety.step (.new ∅ none []) (commitDocument "3\n".toList) = some s ∧
    ReadsServedTree (MissingBlobs.reachableFromRoot s.store).1 := by
  obtain ⟨s, live, hrun, hidle, hlive, hroot, hdocs, hplain⟩ := exists_ready (commitDocument "3\n".toList)
    (fun s => decide (PlainTree s.store)) (by decide +kernel)
  exact ⟨s, hrun, (reads_served_tree_iff ∅ none [] (commitDocument "3\n".toList) s live (by decide +kernel) hrun hidle hlive
    hroot hdocs).mpr (of_decide_eq_true hplain)⟩

end HandwritingSearch
