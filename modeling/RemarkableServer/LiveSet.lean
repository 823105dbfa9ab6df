import RemarkableServer.Projection

/-!
# The live set and the stored bytes

The walk that collects a root's tree goes through the projection. Where the
projection is faithful, and no line of the tree's indexes is replaced by a later
line of its name with another target, the walk finds every reference that the
stored bytes make.
-/
namespace LiveSet

open RustText SyncIndex Store Projection

/-- The parse is of the stored bytes, whatever they are. -/
abbrev current (s : State) (hash : Text) : Bool := faithful (fun _ => true) s hash

/-- The entries the strict reader finds in the stored bytes. -/
def listed (s : State) (hash : Text) : List IndexEntry :=
  match s.files.lookup hash with
  | some file =>
    match parseIndex file.bytes with
    | .ok (_, es) => es
    | .error _ => []
  | none => []

/-- What a root's stored index refers to, at either level. -/
def InTree (s : State) (rootHash hash : Text) : Prop :=
  hash ∈ (listed s rootHash).map IndexEntry.hash ∨
    ∃ doc ∈ listed s rootHash, doc.isIndex = true ∧ hash ∈ (listed s doc.hash).map IndexEntry.hash

/-- Every line's target is the target of a line that no later one replaces. -/
def keepsHashes (es : List IndexEntry) : Bool :=
  es.all fun e => (lastOfName es).any fun k => k.hash = e.hash

/-- Every document index is the target of a document line that no later one replaces. -/
def keepsDocs (es : List IndexEntry) : Bool :=
  es.all fun e => !e.isIndex || (lastOfName es).any fun k => k.isIndex && k.hash = e.hash

/-- The document indexes that a root's stored index lists. -/
def docHashes (s : State) (rootHash : Text) : List Text :=
  ((listed s rootHash).filter IndexEntry.isIndex).map IndexEntry.hash

/-- No index of the tree loses a reference to a repeated name. -/
def treeKept (s : State) (rootHash : Text) : Bool :=
  keepsDocs (listed s rootHash) &&
    (rootHash :: docHashes s rootHash).all fun h => keepsHashes (listed s h)

/-! ## Parsing changes nothing but the projection -/

/-- `s'` is `s` up to its projection, in which no current parse got lost. -/
structure Reparsed (s s' : State) : Prop where
  files : s'.files = s.files
  blobs : s'.blobs = s.blobs
  root : s'.root = s.root
  mirror : s'.mirror = s.mirror
  cachedRoot : s'.cachedRoot = s.cachedRoot
  versions : s'.versions = s.versions
  current : ∀ h, current s h = true → current s' h = true

theorem Reparsed.refl (s : State) : Reparsed s s := ⟨rfl, rfl, rfl, rfl, rfl, rfl, fun _ => id⟩

theorem Reparsed.trans {s s' s'' : State} (h : Reparsed s s') (h' : Reparsed s' s'') : Reparsed s s'' :=
  ⟨h'.files.trans h.files, h'.blobs.trans h.blobs, h'.root.trans h.root, h'.mirror.trans h.mirror,
    h'.cachedRoot.trans h.cachedRoot, h'.versions.trans h.versions, fun k hk => h'.current k (h.current k hk)⟩

theorem reparsed_ensureIndexed (s : State) (hash : Text) : Reparsed s (s.ensureIndexed hash).1 := by
  unfold State.ensureIndexed
  split_ifs
  · exact Reparsed.refl s
  split
  · exact Reparsed.refl s
  split
  · exact Reparsed.refl s
  next file hfile =>
    have hcur : ∀ h, current s h = true → current (s.recordIndex hash (parseIndex file.bytes)).1 h = true := by
      intro h hh
      by_cases hk : h = hash
      · subst hk
        exact faithful_recordIndex fun r _ => ⟨by rw [hfile]; rfl, rfl⟩
      · exact (faithful_congr (s := s) (recordIndex_lookup hk _) (by rw [recordIndex_files])).trans hh
    revert hcur
    cases parseIndex file.bytes <;> exact fun hcur => ⟨rfl, rfl, rfl, rfl, rfl, rfl, hcur⟩

theorem reparsed_indexTree (s : State) (rootHash : Text) : Reparsed s (s.indexTree rootHash) := by
  have fold : ∀ (docs : List IndexEntry) (s : State),
      Reparsed s (docs.foldl (fun s doc => (s.ensureIndexed doc.hash).1) s) := by
    intro docs
    induction docs with
    | nil => exact Reparsed.refl
    | cons d docs ih => exact fun s => (reparsed_ensureIndexed s d.hash).trans (ih _)
  unfold State.indexTree
  dsimp only
  split
  · exact reparsed_ensureIndexed s rootHash
  · exact (reparsed_ensureIndexed s rootHash).trans (fold _ _)

/-- `s'` is `s` after a commit of the root at `hash`. -/
structure Committed (s s' : State) (hash : Text) : Prop where
  files : s'.files = s.files
  root : s'.root = ⟨⟨hash, s.root.generation + 1, s.root.schemaVersion⟩, s.root.hash⟩
  cachedRoot : s'.cachedRoot = s'.root.toSyncRoot
  current : ∀ h, current s h = true → current s' h = true

/-- `set_root_if` either answers with a mismatch and changes nothing, or commits. -/
theorem setRootIf_spec (s : State) (hash : Text) (expected : Option Nat) :
    (∃ g, expected = some g ∧ g ≠ s.root.generation ∧
      s.setRootIf hash expected = (s, .error (.generationMismatch s.root.generation))) ∨
    (∀ g, expected = some g → g = s.root.generation) ∧
      ∃ s', s.setRootIf hash expected = (s', .ok s'.root.toSyncRoot) ∧ Committed s s' hash := by
  by_cases he : expected.any (· ≠ s.root.generation) = true
  · cases expected with
    | none => cases he
    | some g =>
      refine .inl ⟨g, rfl, by simpa using he, ?_⟩
      rw [State.setRootIf, State.commitRoot, if_pos he]
  · have hexp : ∀ g, expected = some g → g = s.root.generation := by
      rintro g rfl
      simpa using he
    refine .inr ⟨hexp, ?_⟩
    rw [State.setRootIf, State.commitRoot, if_neg he]
    dsimp only
    generalize hroot : (⟨hash, s.root.generation + 1, s.root.schemaVersion⟩ : SyncRoot) = root
    generalize hs₁ : ({ State.writeMirror { s with root := ⟨root, s.root.hash⟩ } root with cachedRoot := root } : State) = s₁
    have hcommit : s₁.files = s.files ∧ s₁.root = ⟨root, s.root.hash⟩ ∧ s₁.cachedRoot = root ∧ s₁.indexes = s.indexes := by
      rw [← hs₁, State.writeMirror]
      split <;> exact ⟨rfl, rfl, rfl, rfl⟩
    obtain ⟨hfiles, hrow, hcached, hindexes⟩ := hcommit
    have hrep := reparsed_indexTree s₁ hash
    refine ⟨s₁.indexTree hash, ?_, ?_, ?_, ?_, ?_⟩
    · rw [hrep.root, hrow]
    · rw [hrep.files, hfiles]
    · rw [hrep.root, hrow, ← hroot]
    · rw [hrep.cachedRoot, hrep.root, hcached, hrow]
    · intro k hk
      exact hrep.current k ((faithful_congr (by rw [hindexes]) (by rw [hfiles])).trans hk)

theorem reparsed_addTree (s : State) (rootHash : Text) (strict : Bool) (live : List Text) :
    Reparsed s (s.addTree rootHash strict live).1 := by
  unfold State.addTree
  dsimp only
  split
  · exact Reparsed.refl s
  have h := reparsed_indexTree s rootHash
  split
  · exact h
  split
  · exact h
  split <;> exact h

theorem Reparsed.listed {s s' : State} (h : Reparsed s s') (hash : Text) : listed s' hash = listed s hash := by
  rw [LiveSet.listed, LiveSet.listed, h.files]

/-! ## The walk finds what the bytes refer to -/

theorem entries_of_current {s : State} {hash : Text} {es : List IndexEntry} (hcur : current s hash = true)
    (h : s.indexEntries hash = some es) : es.Perm (lastOfName (listed s hash)) := by
  obtain ⟨row, hrow, hok, hperm⟩ := indexEntries_eq_some h
  obtain ⟨file, schema, parsed, hfile, -, hparse, hentries⟩ := faithful_iff.mp hcur row hrow hok
  have hl : listed s hash = parsed := by rw [listed, hfile]; simp only [hparse]
  rw [hl, ← hentries]
  exact hperm

theorem hash_mem_of_keepsHashes {es : List IndexEntry} (h : keepsHashes es = true) {hash : Text}
    (hmem : hash ∈ es.map IndexEntry.hash) : hash ∈ (lastOfName es).map IndexEntry.hash := by
  obtain ⟨e, he, rfl⟩ := List.mem_map.mp hmem
  obtain ⟨k, hk, heq⟩ := List.any_eq_true.mp (List.all_eq_true.mp h e he)
  exact List.mem_map.mpr ⟨k, hk, by simpa using heq⟩

theorem doc_of_keepsDocs {es : List IndexEntry} (h : keepsDocs es = true) {e : IndexEntry} (he : e ∈ es)
    (hdoc : e.isIndex = true) : ∃ k ∈ lastOfName es, k.isIndex = true ∧ k.hash = e.hash := by
  have := List.all_eq_true.mp h e he
  rw [hdoc, Bool.not_true, Bool.false_or, List.any_eq_true] at this
  obtain ⟨k, hk, hk'⟩ := this
  exact ⟨k, hk, by simpa using hk'⟩

theorem addDoc_mono {s : State} {strict : Bool} {live live' : List Text} {doc : IndexEntry}
    (h : s.addDoc strict live doc = .ok live') {hash : Text} (hmem : hash ∈ live) : hash ∈ live' := by
  unfold State.addDoc at h
  split at h
  · cases h
    exact List.mem_cons_of_mem _ hmem
  split at h
  · cases h
    exact List.mem_cons_of_mem _ (List.mem_append_right _ hmem)
  split at h
  · cases h
  split at h <;> cases h
  · exact List.mem_cons_of_mem _ (List.mem_append_right _ hmem)
  · exact List.mem_cons_of_mem _ hmem

theorem addDoc_strict {s : State} {live live' : List Text} {doc : IndexEntry}
    (h : s.addDoc true live doc = .ok live') :
    doc.hash ∈ live' ∧ (doc.isIndex = true → ∃ files, s.indexEntries doc.hash = some files ∧
      ∀ f ∈ files, f.hash ∈ live') := by
  unfold State.addDoc at h
  split at h
  next hleaf =>
    cases h
    exact ⟨List.mem_cons_self, fun hd => by simp [hd] at hleaf⟩
  split at h
  next files hfiles =>
    cases h
    exact ⟨List.mem_cons_self, fun _ => ⟨files, hfiles, fun f hf =>
      List.mem_cons_of_mem _ (List.mem_append_left _ (List.mem_map_of_mem hf))⟩⟩
  next => cases h

theorem foldlM_addDoc {s : State} {strict : Bool} {docs : List IndexEntry} {live live' : List Text}
    (h : docs.foldlM (s.addDoc strict) live = .ok live') :
    (∀ hash ∈ live, hash ∈ live') ∧ (strict = true → ∀ doc ∈ docs, doc.hash ∈ live' ∧
      (doc.isIndex = true → ∃ files, s.indexEntries doc.hash = some files ∧ ∀ f ∈ files, f.hash ∈ live')) := by
  induction docs generalizing live with
  | nil =>
    cases h
    exact ⟨fun _ => id, fun _ doc hdoc => nomatch hdoc⟩
  | cons d docs ih =>
    rw [List.foldlM_cons] at h
    cases hd : s.addDoc strict live d with
    | error e => rw [hd] at h; cases h
    | ok live₁ =>
      rw [hd] at h
      obtain ⟨hmono, hdocs⟩ := ih h
      refine ⟨fun hash hmem => hmono hash (addDoc_mono hd hmem), fun hstrict doc hdoc => ?_⟩
      rcases List.mem_cons.mp hdoc with rfl | hdoc
      · subst hstrict
        obtain ⟨h₁, h₂⟩ := addDoc_strict hd
        refine ⟨hmono _ h₁, fun hi => ?_⟩
        obtain ⟨files, hfiles, hall⟩ := h₂ hi
        exact ⟨files, hfiles, fun f hf => hmono _ (hall f hf)⟩
      · exact hdocs hstrict doc hdoc

theorem foldl_addLenient_mono {s : State} {docs live : List Text} {hash : Text} (h : hash ∈ live) :
    hash ∈ docs.foldl s.addLenient live := by
  induction docs generalizing live with
  | nil => exact h
  | cons d docs ih =>
    refine ih ?_
    unfold State.addLenient
    split
    · exact List.mem_cons_of_mem _ (List.mem_append_right _ h)
    · exact List.mem_cons_of_mem _ h

theorem addTree_mono {s : State} {rootHash : Text} {strict : Bool} {live live' : List Text}
    (h : (s.addTree rootHash strict live).2 = .ok live') {hash : Text} (hmem : hash ∈ live) : hash ∈ live' := by
  unfold State.addTree at h
  dsimp only at h
  split at h
  · cases h
    exact hmem
  split at h
  · exact (foldlM_addDoc h).1 hash (List.mem_cons_of_mem _ hmem)
  split at h
  · cases h
  split at h
  · cases h
    exact foldl_addLenient_mono (List.mem_cons_of_mem _ hmem)
  · cases h
    exact List.mem_cons_of_mem _ hmem

/-- A strict walk goes through the whole projection of the tree. -/
theorem addTree_strict {s : State} {rootHash : Text} {live live' : List Text} (hne : rootHash ≠ [])
    (h : (s.addTree rootHash true live).2 = .ok live') :
    rootHash ∈ live' ∧ ∃ docs, (s.addTree rootHash true live).1.indexEntries rootHash = some docs ∧
      ∀ doc ∈ docs, doc.hash ∈ live' ∧ (doc.isIndex = true → ∃ files,
        (s.addTree rootHash true live).1.indexEntries doc.hash = some files ∧ ∀ f ∈ files, f.hash ∈ live') := by
  have hemp : rootHash.isEmpty = false := by simpa using hne
  unfold State.addTree at h ⊢
  dsimp only at h ⊢
  rw [hemp] at h ⊢
  simp only [Bool.false_eq_true, if_false, if_true] at h ⊢
  cases he : (s.indexTree rootHash).indexEntries rootHash with
  | none => rw [he] at h; cases h
  | some docs =>
    rw [he] at h
    obtain ⟨hmono, hdocs⟩ := foldlM_addDoc h
    exact ⟨hmono _ List.mem_cons_self, docs, he, hdocs rfl⟩

/-- Where the projection of the tree is current and no reference of it is replaced, the strict walk
collects every hash the stored indexes refer to. -/
theorem mem_live_of_inTree {s : State} {rootHash : Text} {live live' : List Text} (hne : rootHash ≠ [])
    (hcur : ∀ h ∈ rootHash :: docHashes s rootHash, current s h = true) (hkept : treeKept s rootHash = true)
    (hwalk : (s.addTree rootHash true live).2 = .ok live') {hash : Text} (h : InTree s rootHash hash) :
    hash ∈ live' := by
  have hrep := reparsed_addTree s rootHash true live
  obtain ⟨-, docs, hdocs, hall⟩ := addTree_strict hne hwalk
  rw [treeKept, Bool.and_eq_true, List.all_eq_true] at hkept
  obtain ⟨hkd, hkh⟩ := hkept
  have hperm : docs.Perm (lastOfName (listed s rootHash)) := by
    rw [← hrep.listed]
    exact entries_of_current (hrep.current _ (hcur _ List.mem_cons_self)) hdocs
  rcases h with hroot | ⟨doc, hdoc, hidx, hmem⟩
  · obtain ⟨e, he, rfl⟩ := List.mem_map.mp (hash_mem_of_keepsHashes (hkh _ List.mem_cons_self) hroot)
    exact (hall e (hperm.mem_iff.mpr he)).1
  · obtain ⟨k, hk, hkidx, hkhash⟩ := doc_of_keepsDocs hkd hdoc hidx
    obtain ⟨files, hfiles, hfall⟩ := (hall k (hperm.mem_iff.mpr hk)).2 hkidx
    rw [hkhash] at hfiles
    have hd : doc.hash ∈ rootHash :: docHashes s rootHash :=
      List.mem_cons_of_mem _ (List.mem_map_of_mem (List.mem_filter.mpr ⟨hdoc, hidx⟩))
    have hfperm : files.Perm (lastOfName (listed s doc.hash)) := by
      rw [← hrep.listed]
      exact entries_of_current (hrep.current _ (hcur _ hd)) hfiles
    obtain ⟨f, hf, rfl⟩ := List.mem_map.mp (hash_mem_of_keepsHashes (hkh _ hd) hmem)
    exact hfall f (hfperm.mem_iff.mpr hf)

end LiveSet
