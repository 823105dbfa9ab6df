import RemarkableServer.LiveSet

/-!
# The blobs that are missing

Two walks go through the current tree. `reachable_from_root` parses it and follows the
entries that are indexes; `missing_from_root` takes every child of the root for an index
and reads what is not parsed leniently. Where they part is told by kinds of hashes.
-/
namespace MissingBlobs

open RustText SyncIndex Store

/-- Child hashes of an index blob: from the projection when parsed, else read leniently. -/
def children (s : State) (hash : Text) : Except StoreError (List Text) :=
  match s.indexEntries hash with
  | some entries => .ok (entries.map IndexEntry.hash)
  | none => (s.get hash).map lenientChildren

def missingUnder (s : State) (missing : List Text) (doc : Text) : Except StoreError (List Text) :=
  if s.blobExists doc then
    (children s doc).map fun files => missing ++ files.filter (!s.blobExists ·)
  else .ok (missing ++ [doc])

/-- `missing_from_root`, of a database that can be read. -/
def missingFromRoot (s : State) : State × Except StoreError (List Text) :=
  let (s, root) := s.getRoot true
  if root.hash.isEmpty then (s, .ok [])
  else if !s.blobExists root.hash then (s, .ok [root.hash])
  else
    match children s root.hash with
    | .error e => (s, .error e)
    | .ok docs => (s, docs.foldlM (missingUnder s) [])

/-- `reachable_from_root`, of a database that can be read. -/
def reachableFromRoot (s : State) : State × Option (List Text) :=
  let (s, root) := s.getRoot true
  if root.hash.isEmpty then (s, none)
  else
    match s.addTree root.hash true [] with
    | (s, .ok live) => (s, some live)
    | (s, .error _) => (s, none)

/-! ## What the walks read -/

/-- The children that the one walk reads of a stored blob. -/
def childrenOf (s : State) (hash : Text) : List Text :=
  match s.indexEntries hash with
  | some entries => entries.map IndexEntry.hash
  | none => ((s.files.lookup hash).map fun file => lenientChildren file.bytes).getD []

/-- The entries that the other walk follows: those of the projection once the tree is parsed. -/
def parsed (s : State) (hash : Text) : List IndexEntry :=
  (((s.getRoot true).1.indexTree s.root.hash).indexEntries hash).getD []

/-- A reference of the parsed tree. -/
def InTree (s : State) (hash : Text) : Prop :=
  ∃ e ∈ parsed s s.root.hash, e.hash = hash ∨ (e.isIndex = true ∧ ∃ f ∈ parsed s e.hash, f.hash = hash)

/-- A hash that the lenient walk comes to. -/
def Found (s : State) (hash : Text) : Prop :=
  hash ∈ childrenOf s s.root.hash ∨
    ∃ c ∈ childrenOf s s.root.hash, s.blobExists c = true ∧ hash ∈ childrenOf s c

/-- Read where the parsed tree has no reference. -/
inductive Stray (s : State) : Text → Prop
  /-- A line of the root that its parse has not. -/
  | rootLine {hash : Text} : hash ∈ childrenOf s s.root.hash → (∀ e ∈ parsed s s.root.hash, e.hash ≠ hash) → Stray s hash
  /-- A line of a document's index that its parse has not. -/
  | docLine {hash : Text} {e : IndexEntry} : e ∈ parsed s s.root.hash → e.hash ∈ childrenOf s s.root.hash →
      e.isIndex = true → s.blobExists e.hash = true → hash ∈ childrenOf s e.hash →
      (∀ f ∈ parsed s e.hash, f.hash ≠ hash) → Stray s hash
  /-- A line of a stored blob that the root does not list as an index. -/
  | file {hash c : Text} : c ∈ childrenOf s s.root.hash → s.blobExists c = true →
      (∀ e ∈ parsed s s.root.hash, e.hash = c → e.isIndex = false) → hash ∈ childrenOf s c → Stray s hash

/-- A reference of the parsed tree that is not read where it stands. -/
inductive Unread (s : State) : Text → Prop
  | rootLine {e : IndexEntry} : e ∈ parsed s s.root.hash → e.hash ∉ childrenOf s s.root.hash → Unread s e.hash
  | docLine {e f : IndexEntry} : e ∈ parsed s s.root.hash → e.isIndex = true → s.blobExists e.hash = true →
      f ∈ parsed s e.hash → f.hash ∉ childrenOf s e.hash → Unread s f.hash
  /-- A document whose index is not stored, or not found. -/
  | document {e f : IndexEntry} : e ∈ parsed s s.root.hash → e.isIndex = true →
      (s.blobExists e.hash = false ∨ e.hash ∉ childrenOf s s.root.hash) → f ∈ parsed s e.hash → Unread s f.hash

/-- What is read astray is stored or in the tree all the same, and what is not read is stored or found elsewhere;
where the root itself is not stored, everything else is. -/
def Exact (s : State) : Prop :=
  if s.blobExists s.root.hash then
    (∀ hash, Stray s hash → s.blobExists hash = false → InTree s hash) ∧
      (∀ hash, Unread s hash → s.blobExists hash = false → Found s hash)
  else ∀ hash, InTree s hash → s.blobExists hash = false → hash = s.root.hash

variable {s : State}

/-- A stored blob has children. -/
theorem children_eq {hash : Text} (h : s.blobExists hash = true) : children s hash = .ok (childrenOf s hash) := by
  obtain ⟨hvalid, file, hfile⟩ := State.blobExists_iff.mp h
  cases he : s.indexEntries hash with
  | some entries => simp [children, childrenOf, he]
  | none => simp [children, childrenOf, he, State.get, hvalid, hfile, Except.map]

theorem foldlM_missingUnder (docs missing : List Text) :
    docs.foldlM (missingUnder s) missing =
      .ok (missing ++ docs.flatMap fun doc =>
        if s.blobExists doc then (childrenOf s doc).filter (!s.blobExists ·) else [doc]) := by
  induction docs generalizing missing with
  | nil => simp [pure, Except.pure]
  | cons doc docs ih =>
    by_cases hdoc : s.blobExists doc = true
    · simp [missingUnder, hdoc, children_eq hdoc, Except.map, bind, Except.bind, ih]
    · simp [missingUnder, hdoc, bind, Except.bind, ih]

theorem missingFromRoot_eq (s : State) :
    (missingFromRoot s).2 =
      if s.root.hash.isEmpty then .ok []
      else if !s.blobExists s.root.hash then .ok [s.root.hash]
      else (children s s.root.hash).bind fun docs => docs.foldlM (missingUnder s) [] := by
  have hunfold : missingFromRoot s =
      if s.root.hash.isEmpty then ((s.getRoot true).1, .ok [])
      else if !s.blobExists s.root.hash then ((s.getRoot true).1, .ok [s.root.hash])
      else match children s s.root.hash with
        | .error e => ((s.getRoot true).1, .error e)
        | .ok docs => ((s.getRoot true).1, docs.foldlM (missingUnder s) []) := rfl
  rw [hunfold]
  by_cases hempty : s.root.hash.isEmpty = true
  · simp [hempty]
  · by_cases hroot : s.blobExists s.root.hash = true
    · cases children s s.root.hash <;> simp [hempty, hroot, Except.bind]
    · simp [hempty, hroot]

/-- What the walk reports: every missing hash it comes to, or the root alone. -/
theorem missingFromRoot_spec (hne : s.root.hash ≠ []) :
    ∃ missing, (missingFromRoot s).2 = .ok missing ∧ ∀ hash, hash ∈ missing ↔
      s.blobExists hash = false ∧ if s.blobExists s.root.hash then Found s hash else hash = s.root.hash := by
  rw [missingFromRoot_eq]
  by_cases hroot : s.blobExists s.root.hash = true
  · simp only [List.isEmpty_iff, hne, hroot, Bool.not_true, Bool.false_eq_true, if_false, if_true, children_eq hroot,
      Except.bind, foldlM_missingUnder, List.nil_append]
    refine ⟨_, rfl, ?_⟩
    intro hash
    rw [List.mem_flatMap]
    constructor
    · intro ⟨c, hc, hmem⟩
      by_cases hcs : s.blobExists c = true
      · rw [if_pos hcs, List.mem_filter] at hmem
        exact ⟨by simpa using hmem.2, .inr ⟨c, hc, hcs, hmem.1⟩⟩
      · rw [if_neg hcs, List.mem_singleton] at hmem
        subst hmem
        exact ⟨by simpa using hcs, .inl hc⟩
    · rintro ⟨hgone, hc | ⟨c, hc, hcs, hmem⟩⟩
      · exact ⟨hash, hc, by simp [hgone]⟩
      · exact ⟨c, hc, by simp [hcs, hmem, hgone]⟩
  · simp only [List.isEmpty_iff, hne, hroot, Bool.not_false, Bool.false_eq_true, if_false, if_true]
    refine ⟨_, rfl, ?_⟩
    intro hash
    rw [List.mem_singleton]
    constructor
    · intro he
      exact ⟨by simpa [he] using hroot, he⟩
    · exact fun h => h.2

/-! ## The live set -/

theorem mem_foldlM_addDoc {docs : List IndexEntry} {live live' : List Text} (h : docs.foldlM (s.addDoc true) live = .ok live')
    (hash : Text) :
    hash ∈ live' ↔ hash ∈ live ∨ ∃ e ∈ docs, e.hash = hash ∨
      (e.isIndex = true ∧ ∃ f ∈ (s.indexEntries e.hash).getD [], f.hash = hash) := by
  induction docs generalizing live with
  | nil =>
    cases h
    simp
  | cons d docs ih =>
    rw [List.foldlM_cons] at h
    cases hd : s.addDoc true live d with
    | error e =>
      rw [hd] at h
      cases h
    | ok live₁ =>
      rw [hd] at h
      have hone : hash ∈ live₁ ↔ hash ∈ live ∨ d.hash = hash ∨
          (d.isIndex = true ∧ ∃ f ∈ (s.indexEntries d.hash).getD [], f.hash = hash) := by
        by_cases hidx : d.isIndex = true
        · cases hfiles : s.indexEntries d.hash with
          | none => simp [State.addDoc, hidx, hfiles] at hd
          | some files =>
            simp only [State.addDoc, hidx, Bool.not_true, Bool.false_eq_true, if_false, hfiles, Except.ok.injEq] at hd
            simp only [← hd, List.mem_cons, List.mem_append, List.mem_map, hidx, true_and, Option.getD_some]
            constructor
            · rintro (rfl | hf | hl)
              · exact .inr (.inl rfl)
              · exact .inr (.inr hf)
              · exact .inl hl
            · rintro (hl | rfl | hf)
              · exact .inr (.inr hl)
              · exact .inl rfl
              · exact .inr (.inl hf)
        · simp only [State.addDoc, hidx, Bool.not_false, if_true, Except.ok.injEq] at hd
          simp only [← hd, List.mem_cons, hidx, Bool.false_eq_true, false_and, or_false]
          constructor
          · rintro (rfl | hl)
            · exact .inr rfl
            · exact .inl hl
          · rintro (hl | rfl)
            · exact .inr hl
            · exact .inl rfl
      rw [ih h, hone]
      simp only [List.mem_cons, exists_eq_or_imp, or_assoc]

/-- What a walk of the current tree has read when it succeeds. -/
theorem reachableFromRoot_eq_some {live : List Text} (h : (reachableFromRoot s).2 = some live) :
    s.root.hash ≠ [] ∧ (reachableFromRoot s).1 = (s.getRoot true).1.indexTree s.root.hash ∧
      ∃ docs, (reachableFromRoot s).1.indexEntries s.root.hash = some docs ∧
        docs.foldlM ((reachableFromRoot s).1.addDoc true) [s.root.hash] = .ok live := by
  have hunfold : reachableFromRoot s =
      if s.root.hash.isEmpty then ((s.getRoot true).1, none)
      else match (s.getRoot true).1.addTree s.root.hash true [] with
        | (s, .ok live) => (s, some live)
        | (s, .error _) => (s, none) := rfl
  cases hempty : s.root.hash.isEmpty with
  | true =>
    rw [hunfold, hempty] at h
    cases h
  | false =>
    have hne : s.root.hash ≠ [] := by simpa using hempty
    have hwalk : (s.getRoot true).1.addTree s.root.hash true [] =
        match ((s.getRoot true).1.indexTree s.root.hash).indexEntries s.root.hash with
        | some docs => ((s.getRoot true).1.indexTree s.root.hash,
            docs.foldlM (((s.getRoot true).1.indexTree s.root.hash).addDoc true) [s.root.hash])
        | none => ((s.getRoot true).1.indexTree s.root.hash, .error (.unparsedIndex s.root.hash)) := by
      rw [State.addTree, hempty]
      rfl
    rw [hwalk, hempty] at hunfold
    cases hdocs : ((s.getRoot true).1.indexTree s.root.hash).indexEntries s.root.hash with
    | none =>
      rw [hdocs] at hunfold
      rw [hunfold] at h
      cases h
    | some docs =>
      rw [hdocs] at hunfold
      cases hfold : docs.foldlM (((s.getRoot true).1.indexTree s.root.hash).addDoc true) [s.root.hash] with
      | error e =>
        simp only [hfold, Bool.false_eq_true, if_false] at hunfold
        rw [hunfold] at h
        cases h
      | ok live' =>
        simp only [hfold, Bool.false_eq_true, if_false] at hunfold
        rw [hunfold] at h ⊢
        cases h
        exact ⟨hne, rfl, docs, hdocs, hfold⟩

/-- The live set is the root and what its parsed tree refers to. -/
theorem mem_reachable {live : List Text} (h : (reachableFromRoot s).2 = some live) :
    s.root.hash ≠ [] ∧ ∀ hash, hash ∈ live ↔ hash = s.root.hash ∨ InTree s hash := by
  obtain ⟨hne, hstate, docs, hdocs, hwalk⟩ := reachableFromRoot_eq_some h
  refine ⟨hne, fun hash => ?_⟩
  rw [hstate] at hdocs hwalk
  have hroot : parsed s s.root.hash = docs := by simp [parsed, hdocs]
  rw [mem_foldlM_addDoc hwalk hash, List.mem_singleton, InTree, hroot]
  rfl

/-! ## Where the walks agree -/

/-- Every reference of the parsed tree is found where it stands or is one of those that are not read. -/
theorem found_or_unread {hash : Text} (h : InTree s hash) : Found s hash ∨ Unread s hash := by
  obtain ⟨e, he, rfl | ⟨hidx, f, hf, rfl⟩⟩ := h
  · by_cases hmem : e.hash ∈ childrenOf s s.root.hash
    · exact .inl (.inl hmem)
    · exact .inr (.rootLine he hmem)
  · by_cases hstored : s.blobExists e.hash = true
    · by_cases hmem : e.hash ∈ childrenOf s s.root.hash
      · by_cases hfile : f.hash ∈ childrenOf s e.hash
        · exact .inl (.inr ⟨e.hash, hmem, hstored, hfile⟩)
        · exact .inr (.docLine he hidx hstored hf hfile)
      · exact .inr (.document he hidx (.inr hmem) hf)
    · exact .inr (.document he hidx (.inl (by simpa using hstored)) hf)

theorem Unread.inTree {hash : Text} (h : Unread s hash) : InTree s hash := by
  cases h with
  | rootLine he _ => exact ⟨_, he, .inl rfl⟩
  | docLine he hidx _ hf _ => exact ⟨_, he, .inr ⟨hidx, _, hf, rfl⟩⟩
  | document he hidx _ hf => exact ⟨_, he, .inr ⟨hidx, _, hf, rfl⟩⟩

/-- What the lenient walk comes to is in the tree or read astray. -/
theorem inTree_or_stray {hash : Text} (h : Found s hash) : InTree s hash ∨ Stray s hash := by
  rcases h with hmem | ⟨c, hc, hstored, hmem⟩
  · by_cases hline : ∃ e ∈ parsed s s.root.hash, e.hash = hash
    · obtain ⟨e, he, heq⟩ := hline
      exact .inl ⟨e, he, .inl heq⟩
    · exact .inr (.rootLine hmem fun e he heq => hline ⟨e, he, heq⟩)
  · by_cases hdoc : ∃ e ∈ parsed s s.root.hash, e.hash = c ∧ e.isIndex = true
    · obtain ⟨e, he, rfl, hidx⟩ := hdoc
      by_cases hline : ∃ f ∈ parsed s e.hash, f.hash = hash
      · exact .inl ⟨e, he, .inr ⟨hidx, hline⟩⟩
      · exact .inr (.docLine he hc hidx hstored hmem fun f hf heq => hline ⟨f, hf, heq⟩)
    · refine .inr (.file hc hstored ?_ hmem)
      intro e he heq
      by_contra hidx
      exact hdoc ⟨e, he, heq, by simpa using hidx⟩

theorem Stray.found {hash : Text} (h : Stray s hash) : Found s hash := by
  cases h with
  | rootLine hmem _ => exact .inl hmem
  | docLine _ hc _ hstored hmem _ => exact .inr ⟨_, hc, hstored, hmem⟩
  | file hc hstored _ hmem => exact .inr ⟨_, hc, hstored, hmem⟩

/-- `missing_from_root` reports exactly the missing part of the live set in the states described, and in no
others. -/
theorem missing_exact_iff {live : List Text} (h : (reachableFromRoot s).2 = some live) :
    (∃ missing, (missingFromRoot s).2 = .ok missing ∧
        ∀ hash, hash ∈ missing ↔ hash ∈ live ∧ s.blobExists hash = false) ↔ Exact s := by
  obtain ⟨hne, hlive⟩ := mem_reachable h
  obtain ⟨missing, hmissing, hmem⟩ := missingFromRoot_spec hne
  have hset : (∃ missing', (missingFromRoot s).2 = .ok missing' ∧
      ∀ hash, hash ∈ missing' ↔ hash ∈ live ∧ s.blobExists hash = false) ↔
        ∀ hash, s.blobExists hash = false →
          ((if s.blobExists s.root.hash then Found s hash else hash = s.root.hash) ↔ hash = s.root.hash ∨ InTree s hash) := by
    constructor
    · intro ⟨missing', hmissing', hall⟩ hash hgone
      obtain rfl : missing = missing' := Except.ok.inj (hmissing.symm.trans hmissing')
      have hboth := (hmem hash).symm.trans (hall hash)
      rw [hlive] at hboth
      simpa [hgone] using hboth
    · intro hall
      refine ⟨missing, hmissing, ?_⟩
      intro hash
      rw [hmem, hlive]
      constructor
      · exact fun ⟨hgone, hfound⟩ => ⟨(hall hash hgone).mp hfound, hgone⟩
      · exact fun ⟨hin, hgone⟩ => ⟨hgone, (hall hash hgone).mpr hin⟩
  rw [hset]
  by_cases hroot : s.blobExists s.root.hash = true
  · have hother : ∀ hash, s.blobExists hash = false → hash ≠ s.root.hash := by
      intro hash hgone he
      simp [he, hroot] at hgone
    rw [Exact, if_pos hroot]
    constructor
    · intro hall
      constructor
      · intro hash hstray hgone
        have hin := (hall hash hgone).mp (by rw [if_pos hroot]; exact hstray.found)
        exact hin.resolve_left (hother hash hgone)
      · intro hash hunread hgone
        have hfound := (hall hash hgone).mpr (.inr hunread.inTree)
        rwa [if_pos hroot] at hfound
    · intro ⟨hstray, hunread⟩ hash hgone
      rw [if_pos hroot]
      constructor
      · intro hfound
        right
        rcases inTree_or_stray hfound with hin | hs
        · exact hin
        · exact hstray hash hs hgone
      · intro hin
        rcases found_or_unread (hin.resolve_left (hother hash hgone)) with hf | hu
        · exact hf
        · exact hunread hash hu hgone
  · rw [Exact, if_neg hroot]
    constructor
    · intro hall hash hin hgone
      have hroot' := (hall hash hgone).mpr (.inr hin)
      rwa [if_neg hroot] at hroot'
    · intro hall hash hgone
      rw [if_neg hroot]
      constructor
      · exact .inl
      · rintro (he | hin)
        · exact he
        · exact hall hash hin hgone

/-- A root that lists one file by itself. -/
def rootOfFile (data : Bytes) : State :=
  let s := (State.new ∅ none []).writeFile (Projection.hashOf 'b') data 0
  let s := s.writeFile (Projection.hashOf 'a') (Projection.leafIndex [(Projection.hashOf 'b', ['x'])]) 0
  (s.setRootIf (Projection.hashOf 'a') none).1

theorem missing_exact_of_file :
    (∃ missing, (missingFromRoot (rootOfFile [1])).2 = .ok missing ∧ ∀ hash, hash ∈ missing ↔
        hash ∈ [Projection.hashOf 'b', Projection.hashOf 'a'] ∧ (rootOfFile [1]).blobExists hash = false) ↔
      Exact (rootOfFile [1]) :=
  missing_exact_iff (by decide +kernel)

/-- The content of a file that reads like an index of a blob that is not there. -/
def fileLikeAnIndex : Bytes := Projection.leafIndex [(Projection.hashOf 'd', ['y'])]

/-- What the file seems to list is reported as missing. -/
theorem reads_a_file_as_an_index :
    ¬∀ s live, (reachableFromRoot s).2 = some live → ∃ missing, (missingFromRoot s).2 = .ok missing ∧
      ∀ hash, hash ∈ missing ↔ hash ∈ live ∧ s.blobExists hash = false := by
  intro h
  have hlive : (reachableFromRoot (rootOfFile fileLikeAnIndex)).2 = some [Projection.hashOf 'b', Projection.hashOf 'a'] := by
    decide +kernel
  have hreported : (missingFromRoot (rootOfFile fileLikeAnIndex)).2.toOption = some [Projection.hashOf 'd'] := by decide +kernel
  obtain ⟨missing, hmissing, hall⟩ := h (rootOfFile fileLikeAnIndex) _ hlive
  have hsame : missing = [Projection.hashOf 'd'] := by simpa [hmissing, Except.toOption] using hreported
  have hin := ((hall (Projection.hashOf 'd')).mp (by simp [hsame])).1
  revert hin
  decide

/-! ## Trees that are parsed -/

/-- What the current parser has recorded stays as it is. -/
theorem ensureIndexed_lookup {hash : Text} {ok : Bool} (hseen : s.indexSeen hash = some ok) (k : Text) :
    (s.ensureIndexed k).1.indexes.lookup hash = s.indexes.lookup hash := by
  by_cases hk : hash = k
  · subst hk
    by_cases hvalid : isValidHash hash = true
    · simp [State.ensureIndexed, hvalid, hseen]
    · simp [State.ensureIndexed, hvalid]
  · unfold State.ensureIndexed
    split
    · rfl
    · split
      · rfl
      · split
        · rfl
        · exact Projection.recordIndex_lookup hk _

theorem indexSeen_congr {s' : State} {hash : Text} (h : s'.indexes.lookup hash = s.indexes.lookup hash) :
    s'.indexSeen hash = s.indexSeen hash := by
  rw [State.indexSeen, State.indexSeen, h]

theorem indexTree_lookup {hash : Text} {ok : Bool} (hseen : s.indexSeen hash = some ok) (rootHash : Text) :
    (s.indexTree rootHash).indexes.lookup hash = s.indexes.lookup hash := by
  have hfold : ∀ (docs : List IndexEntry) (s : State), s.indexSeen hash = some ok →
      (docs.foldl (fun s doc => (s.ensureIndexed doc.hash).1) s).indexes.lookup hash = s.indexes.lookup hash := by
    intro docs
    induction docs with
    | nil => exact fun _ _ => rfl
    | cons doc docs ih =>
      intro s hs
      have hone := ensureIndexed_lookup hs doc.hash
      exact (ih (s.ensureIndexed doc.hash).1 ((indexSeen_congr hone).trans hs)).trans hone
  have hroot := ensureIndexed_lookup hseen rootHash
  unfold State.indexTree
  dsimp only
  split
  · exact hroot
  · exact (hfold _ _ ((indexSeen_congr hroot).trans hseen)).trans hroot

/-- An index that the current parser has recorded is read as it is parsed. -/
theorem childrenOf_of_seen {hash : Text} (hseen : s.indexSeen hash = some true) :
    childrenOf s hash = (parsed s hash).map IndexEntry.hash := by
  have hsame : (((s.getRoot true).1.indexTree s.root.hash).indexEntries hash) = s.indexEntries hash := by
    have hlookup : ((s.getRoot true).1.indexTree s.root.hash).indexes.lookup hash = s.indexes.lookup hash :=
      @indexTree_lookup (s.getRoot true).1 hash true hseen s.root.hash
    rw [State.indexEntries, State.indexEntries, hlookup]
  rw [childrenOf, parsed, hsame]
  cases hentries : s.indexEntries hash with
  | some entries => rfl
  | none =>
    exfalso
    cases hrow : s.indexes.lookup hash with
    | none => simp [State.indexSeen, hrow] at hseen
    | some row =>
      have hok : row.ok = true := by
        simp only [State.indexSeen, hrow] at hseen
        split at hseen
        · simpa using hseen
        · simp at hseen
      simp [State.indexEntries, hrow, hok] at hentries

/-- Where the root is stored and its tree parsed, only files that the root lists by itself are read astray, and
only the files of documents whose index is gone are not read. -/
theorem exact_of_seen (hroot : s.blobExists s.root.hash = true) (hseen : s.indexSeen s.root.hash = some true)
    (hdocs : ∀ e ∈ parsed s s.root.hash, e.isIndex = true → s.indexSeen e.hash = some true) :
    Exact s ↔
      (∀ e ∈ parsed s s.root.hash, (∀ d ∈ parsed s s.root.hash, d.hash = e.hash → d.isIndex = false) →
        s.blobExists e.hash = true → ∀ hash ∈ childrenOf s e.hash, s.blobExists hash = false → InTree s hash) ∧
      ∀ e ∈ parsed s s.root.hash, e.isIndex = true → s.blobExists e.hash = false →
        ∀ f ∈ parsed s e.hash, s.blobExists f.hash = false → Found s f.hash := by
  have hlines : ∀ hash, hash ∈ childrenOf s s.root.hash ↔ ∃ e ∈ parsed s s.root.hash, e.hash = hash := by
    intro hash
    rw [childrenOf_of_seen hseen, List.mem_map]
  rw [Exact, if_pos hroot]
  constructor
  · intro ⟨hstray, hunread⟩
    constructor
    · intro e he hfile hstored hash hmem hgone
      exact hstray hash (.file ((hlines _).mpr ⟨e, he, rfl⟩) hstored hfile hmem) hgone
    · intro e he hidx hdoc f hf hgone
      exact hunread f.hash (.document he hidx (.inl hdoc) hf) hgone
  · intro ⟨hfiles, hgoneDocs⟩
    constructor
    · intro hash hstray hgone
      cases hstray with
      | rootLine hmem hnot =>
        obtain ⟨e, he, heq⟩ := (hlines _).mp hmem
        exact absurd heq (hnot e he)
      | docLine he _ hidx _ hmem hnot =>
        rw [childrenOf_of_seen (hdocs _ he hidx), List.mem_map] at hmem
        obtain ⟨f, hf, heq⟩ := hmem
        exact absurd heq (hnot f hf)
      | file hc hstored hfile hmem =>
        obtain ⟨e, he, rfl⟩ := (hlines _).mp hc
        exact hfiles e he hfile hstored hash hmem hgone
    · intro hash hunread hgone
      cases hunread with
      | rootLine he hnot => exact absurd ((hlines _).mpr ⟨_, he, rfl⟩) hnot
      | docLine he hidx _ hf hnot =>
        rw [childrenOf_of_seen (hdocs _ he hidx)] at hnot
        exact absurd (List.mem_map_of_mem hf) hnot
      | document he hidx hdoc hf =>
        rcases hdoc with hdoc | hnot
        · exact hgoneDocs _ he hidx hdoc _ hf hgone
        · exact absurd ((hlines _).mpr ⟨_, he, rfl⟩) hnot

/-! ## A tree is parsed once -/

/-- There is nothing to parse under this hash any more. -/
def Settled (s : State) (hash : Text) : Prop :=
  isValidHash hash = false ∨ (s.indexSeen hash).isSome = true ∨ s.files.lookup hash = none

theorem Settled.ensureIndexed {hash : Text} (h : Settled s hash) : (s.ensureIndexed hash).1 = s := by
  unfold State.ensureIndexed
  split
  next => rfl
  next hvalid =>
    split
    next => rfl
    next hseen =>
      have hgone : s.files.lookup hash = none := by
        rcases h with hinvalid | hsome | hgone
        · simp [hinvalid] at hvalid
        · simp [hseen] at hsome
        · exact hgone
      rw [hgone]

theorem settled_ensureIndexed (s : State) (hash : Text) : Settled (s.ensureIndexed hash).1 hash := by
  unfold State.ensureIndexed
  split
  next hvalid => exact .inl (by simpa using hvalid)
  next =>
    split
    next ok hseen => exact .inr (.inl (by rw [hseen]; rfl))
    next =>
      split
      next hgone => exact .inr (.inr hgone)
      next file hfile =>
        refine .inr (.inl ?_)
        cases parseIndex file.bytes <;> simp [State.recordIndex, State.indexSeen]

theorem Settled.of_ensureIndexed {hash : Text} (h : Settled s hash) (k : Text) : Settled (s.ensureIndexed k).1 hash := by
  have hfiles : (s.ensureIndexed k).1.files = s.files := (LiveSet.reparsed_ensureIndexed s k).files
  refine h.imp_right (Or.imp (fun hseen => ?_) fun hgone => by rw [hfiles, hgone])
  obtain ⟨ok, hok⟩ := Option.isSome_iff_exists.mp hseen
  rw [indexSeen_congr (ensureIndexed_lookup hok k), hok]
  rfl

theorem foldl_ensureIndexed_settled {docs : List IndexEntry} (h : ∀ doc ∈ docs, Settled s doc.hash) :
    docs.foldl (fun s doc => (s.ensureIndexed doc.hash).1) s = s := by
  induction docs with
  | nil => rfl
  | cons doc docs ih =>
    rw [List.foldl_cons, (h doc List.mem_cons_self).ensureIndexed]
    exact ih fun d hd => h d (List.mem_cons_of_mem doc hd)

/-- Parsing documents settles them, and leaves the parse of what is settled alone. -/
theorem settled_foldl (docs : List IndexEntry) (s : State) :
    (∀ doc ∈ docs, Settled (docs.foldl (fun s doc => (s.ensureIndexed doc.hash).1) s) doc.hash) ∧
      ∀ hash, Settled s hash → Settled (docs.foldl (fun s doc => (s.ensureIndexed doc.hash).1) s) hash ∧
        (docs.foldl (fun s doc => (s.ensureIndexed doc.hash).1) s).indexes.lookup hash = s.indexes.lookup hash := by
  induction docs generalizing s with
  | nil => exact ⟨fun doc hdoc => (nomatch hdoc), fun hash h => ⟨h, rfl⟩⟩
  | cons doc docs ih =>
    obtain ⟨hdocs, hkept⟩ := ih (s.ensureIndexed doc.hash).1
    refine ⟨fun d hd => ?_, fun hash h => ?_⟩
    · rcases List.mem_cons.mp hd with rfl | hd
      · exact (hkept d.hash (settled_ensureIndexed s d.hash)).1
      · exact hdocs d hd
    · obtain ⟨hsettled, hlookup⟩ := hkept hash (h.of_ensureIndexed doc.hash)
      refine ⟨hsettled, hlookup.trans ?_⟩
      by_cases hk : hash = doc.hash
      · rw [← hk, h.ensureIndexed]
      · unfold State.ensureIndexed
        split
        · rfl
        · split
          · rfl
          · split
            · rfl
            · exact Projection.recordIndex_lookup hk _

theorem ensureIndexed_again (s : State) (hash : Text) : (s.ensureIndexed hash).1.ensureIndexed hash = s.ensureIndexed hash := by
  cases hvalid : isValidHash hash with
  | false => simp [State.ensureIndexed, hvalid]
  | true =>
    cases hseen : s.indexSeen hash with
    | some ok => simp [State.ensureIndexed, hvalid, hseen]
    | none =>
      cases hfile : s.files.lookup hash with
      | none => simp [State.ensureIndexed, hvalid, hseen, hfile]
      | some file =>
        have hrecord : s.ensureIndexed hash = s.recordIndex hash (parseIndex file.bytes) := by
          simp [State.ensureIndexed, hvalid, hseen, hfile]
        have hrecorded : (s.recordIndex hash (parseIndex file.bytes)).1.indexSeen hash =
            some (s.recordIndex hash (parseIndex file.bytes)).2 := by
          cases parseIndex file.bytes <;> simp [State.recordIndex, State.indexSeen]
        rw [hrecord, State.ensureIndexed, hvalid]
        simp [hrecorded]

theorem indexTree_indexTree (s : State) (rootHash : Text) : (s.indexTree rootHash).indexTree rootHash = s.indexTree rootHash := by
  have hunfold : ∀ s : State, s.indexTree rootHash = if !(s.ensureIndexed rootHash).2 then (s.ensureIndexed rootHash).1
      else ((((s.ensureIndexed rootHash).1.indexEntries rootHash).getD []).filter IndexEntry.isIndex).foldl
        (fun s doc => (s.ensureIndexed doc.hash).1) (s.ensureIndexed rootHash).1 := fun _ => rfl
  have hroot := settled_ensureIndexed s rootHash
  have hagain := ensureIndexed_again s rootHash
  cases hok : (s.ensureIndexed rootHash).2 with
  | false =>
    have honce : s.indexTree rootHash = (s.ensureIndexed rootHash).1 := by simp [hunfold s, hok]
    rw [honce, hunfold, hagain, hok]
    rfl
  | true =>
    generalize hdocs : (((s.ensureIndexed rootHash).1.indexEntries rootHash).getD []).filter IndexEntry.isIndex = docs
    obtain ⟨hsettled, hkept⟩ := settled_foldl docs (s.ensureIndexed rootHash).1
    obtain ⟨hrootSettled, hlookup⟩ := hkept rootHash hroot
    have honce : s.indexTree rootHash = docs.foldl (fun s doc => (s.ensureIndexed doc.hash).1) (s.ensureIndexed rootHash).1 := by
      simp [hunfold s, hok, hdocs]
    rw [honce]
    generalize docs.foldl (fun s doc => (s.ensureIndexed doc.hash).1) (s.ensureIndexed rootHash).1 = t at hsettled hrootSettled hlookup ⊢
    -- the entries of the root are those of the first time, and every document is settled
    have hentries : t.indexEntries rootHash = (s.ensureIndexed rootHash).1.indexEntries rootHash := by
      rw [State.indexEntries, State.indexEntries, hlookup]
    rw [hunfold, hrootSettled.ensureIndexed, hentries, hdocs, foldl_ensureIndexed_settled hsettled, ite_self]

/-- A tree that was walked is walked the same way again. -/
theorem reachableFromRoot_again {live : List Text} (h : (reachableFromRoot s).2 = some live) :
    reachableFromRoot (reachableFromRoot s).1 = ((reachableFromRoot s).1, some live) := by
  obtain ⟨hne, hstate, docs, hdocs, hwalk⟩ := reachableFromRoot_eq_some h
  have hrep := LiveSet.reparsed_indexTree (s.getRoot true).1 s.root.hash
  have htree : (reachableFromRoot s).1.indexTree s.root.hash = (reachableFromRoot s).1 := by
    rw [hstate, indexTree_indexTree]
  rw [← hstate] at hrep
  generalize (reachableFromRoot s).1 = t at hdocs hwalk hrep htree ⊢
  have hroot : t.root = s.root := hrep.root
  have hcached : (t.getRoot true).1 = t := by
    have heq : t.cachedRoot = t.root.toSyncRoot := by rw [hrep.cachedRoot, hroot]; rfl
    rw [State.getRoot, if_pos rfl, ← heq]
  have hempty : s.root.hash.isEmpty = false := by simpa using hne
  have hunfold : reachableFromRoot t =
      if t.root.hash.isEmpty then ((t.getRoot true).1, none)
      else match (t.getRoot true).1.addTree t.root.hash true [] with
        | (s, .ok live) => (s, some live)
        | (s, .error _) => (s, none) := rfl
  rw [hunfold, hcached, hroot, hempty, State.addTree, hempty]
  simp only [Bool.false_eq_true, if_false, htree, hdocs, hwalk]

end MissingBlobs
