import RemarkableServer.DeltaSync
import RemarkableServer.SyncPhases

/-!
# What a sync sees

The local files a sync deals with are files its scan listed, the remote ones are
listed files, and neither is one of the engine's own entries.
-/
namespace CloudSync

open RustText Integrations CloudPaths

variable {env : Env} {cfg : SyncConfig} {V : Type}

/-! ## Maps -/

@[simp] theorem lookup_insert_if (m : PathMap V) (k k' : Text) (v : V) :
    (m.insert k v).lookup k' = if k' = k then some v else m.lookup k' := by
  split
  next e => rw [e, AList.lookup_insert]
  next e => exact AList.lookup_insert_ne e

@[simp] theorem lookup_erase_if (m : PathMap V) (k k' : Text) :
    (m.erase k).lookup k' = if k' = k then none else m.lookup k' := by
  split
  next e => rw [e, AList.lookup_erase]
  next e => exact AList.lookup_erase_ne e

theorem lookup_foldl_erase (ps : List Text) (m : PathMap V) (k : Text) :
    (ps.foldl (fun m p => m.erase p) m).lookup k = if k ∈ ps then none else m.lookup k := by
  induction ps generalizing m with
  | nil => simp
  | cons p ps ih =>
    rw [List.foldl_cons, ih, lookup_erase_if]
    by_cases hk : k = p <;> by_cases hps : k ∈ ps <;> simp [hk, hps]

theorem lookup_retain (keep : Text → V → Bool) (m : PathMap V) (k : Text) :
    (retain keep m).lookup k = (m.lookup k).filter (keep k) := by
  refine Option.ext fun v => ?_
  rw [Option.filter_eq_some_iff]
  have hmem : ∀ m' : PathMap V, m'.lookup k = some v ↔ (⟨k, v⟩ : Sigma fun _ : Text => V) ∈ m'.entries :=
    fun m' => AList.mem_lookup_iff
  rw [hmem, hmem, retain, List.mem_filter]

/-! ## The scan -/

/-- The file is listed by a scan of the tree, under this sync path. -/
def ScanLists (cfg : SyncConfig) (t : LocalTree) (path : Text) (l : LocalFile) : Prop :=
  ∃ p f, t.file? p = some f ∧ cfg.reaches [] p = some true ∧ cfg.overLimit f.bytes.length = false ∧
    path = pathText p ∧ l = .of p f

theorem scanEntry_lists {t : LocalTree} {found found' : Scan} {p : List Text}
    (h : scanEntry cfg t found p = some found') {path : Text} {l : LocalFile}
    (hl : found'.files.lookup path = some l) : found.files.lookup path = some l ∨ ScanLists cfg t path l := by
  unfold scanEntry at h
  split at h
  · cases h
  · cases h
    exact Or.inl hl
  next hreach =>
    split at h
    · cases h
      exact Or.inl hl
    next f hf =>
      split at h
      · cases h
        exact Or.inl hl
      next hsize =>
        cases h
        rw [lookup_insert_if] at hl
        split at hl
        next hpath =>
          cases hl
          exact Or.inr ⟨p, f, hf, hreach, Bool.eq_false_iff.mpr hsize, hpath, rfl⟩
        · exact Or.inl hl

/-- Every file of a scan is listed by it. -/
theorem scanEntries_lists {t : LocalTree} {ps : List (List Text)} {found found' : Scan}
    (h : scanEntries cfg t found ps = some found') {path : Text} {l : LocalFile}
    (hl : found'.files.lookup path = some l) : found.files.lookup path = some l ∨ ScanLists cfg t path l := by
  induction ps generalizing found with
  | nil =>
    cases h
    exact Or.inl hl
  | cons p ps ih =>
    rw [scanEntries] at h
    obtain ⟨found₁, h₁, h⟩ := Option.bind_eq_some_iff.mp h
    rcases ih h with hl | hl
    · exact scanEntry_lists h₁ hl
    · exact Or.inr hl

theorem scanEntry_tooLarge {t : LocalTree} {found found' : Scan} {p : List Text}
    (h : scanEntry cfg t found p = some found') {path : Text} (hl : path ∈ found'.tooLarge) :
    path ∈ found.tooLarge ∨ ∃ q f, t.file? q = some f ∧ cfg.overLimit f.bytes.length = true ∧ path = pathText q := by
  unfold scanEntry at h
  split at h
  · cases h
  · cases h
    exact Or.inl hl
  · split at h
    · cases h
      exact Or.inl hl
    next f hf =>
      split at h
      next hsize =>
        cases h
        rcases List.mem_append.mp hl with hl | hl
        · exact Or.inl hl
        · exact Or.inr ⟨p, f, hf, hsize, List.mem_singleton.mp hl⟩
      · cases h
        exact Or.inl hl

/-- What the scan finds too large is a file over the limit. -/
theorem scanEntries_tooLarge {t : LocalTree} {ps : List (List Text)} {found found' : Scan}
    (h : scanEntries cfg t found ps = some found') {path : Text} (hl : path ∈ found'.tooLarge) :
    path ∈ found.tooLarge ∨ ∃ q f, t.file? q = some f ∧ cfg.overLimit f.bytes.length = true ∧ path = pathText q := by
  induction ps generalizing found with
  | nil =>
    cases h
    exact Or.inl hl
  | cons p ps ih =>
    rw [scanEntries] at h
    obtain ⟨found₁, h₁, h⟩ := Option.bind_eq_some_iff.mp h
    rcases ih h with hl | hl
    · exact scanEntry_tooLarge h₁ hl
    · exact Or.inr hl

/-- What the scan has found it still has at its end. -/
theorem scanEntry_grows {t : LocalTree} {found found' : Scan} {p : List Text}
    (h : scanEntry cfg t found p = some found') {path : Text}
    (hl : (found.files.lookup path).isSome = true ∨ path ∈ found.tooLarge) :
    (found'.files.lookup path).isSome = true ∨ path ∈ found'.tooLarge := by
  unfold scanEntry at h
  split at h
  · cases h
  · cases h
    exact hl
  · split at h
    · cases h
      exact hl
    · split at h
      · cases h
        exact hl.imp_right fun hl => List.mem_append_left _ hl
      · cases h
        refine hl.imp_left fun hl => ?_
        rw [lookup_insert_if]
        split
        · rfl
        · exact hl

theorem scanEntries_grows {t : LocalTree} {ps : List (List Text)} {found found' : Scan}
    (h : scanEntries cfg t found ps = some found') {path : Text}
    (hl : (found.files.lookup path).isSome = true ∨ path ∈ found.tooLarge) :
    (found'.files.lookup path).isSome = true ∨ path ∈ found'.tooLarge := by
  induction ps generalizing found with
  | nil =>
    cases h
    exact hl
  | cons p ps ih =>
    rw [scanEntries] at h
    obtain ⟨found₁, h₁, h⟩ := Option.bind_eq_some_iff.mp h
    exact ih h (scanEntry_grows h₁ hl)

/-- The scan finds every file it comes to. -/
theorem scanEntries_finds {t : LocalTree} {ps : List (List Text)} {found found' : Scan}
    (h : scanEntries cfg t found ps = some found') {p : List Text} {f : DiskFile} (hp : p ∈ ps)
    (hf : t.file? p = some f) (hreach : cfg.reaches [] p = some true) :
    (found'.files.lookup (pathText p)).isSome = true ∨ pathText p ∈ found'.tooLarge := by
  induction ps generalizing found with
  | nil => cases hp
  | cons q ps ih =>
    rw [scanEntries] at h
    obtain ⟨found₁, h₁, h₂⟩ := Option.bind_eq_some_iff.mp h
    rcases List.mem_cons.mp hp with rfl | hp
    · refine scanEntries_grows h₂ ?_
      unfold scanEntry at h₁
      rw [hreach, hf] at h₁
      dsimp only at h₁
      split at h₁
      · cases h₁
        exact Or.inr (List.mem_append_right _ (List.mem_singleton_self _))
      · cases h₁
        refine Or.inl ?_
        rw [lookup_insert_if, if_pos rfl]
        rfl
    · exact ih h₂ hp

/-! ## Lining up -/

theorem leaveAlone_files {s : CaseState} {g : Spellings} {path : Text} {l : LocalFile}
    (h : (s.leaveAlone g).files.lookup path = some l) : s.files.lookup path = some l := by
  unfold CaseState.leaveAlone at h
  rw [lookup_foldl_erase] at h
  split at h
  · cases h
  · exact h

theorem respell_files (s : CaseState) (g : Spellings) (spelling : Text) :
    (s.respell g spelling).files = s.files := by
  unfold CaseState.respell
  split
  · rfl
  · split
    · rfl
    · split <;> rfl

theorem rebase_files (s : CaseState) (g : Spellings) (spelling : Text) :
    (s.rebase g spelling).files = s.files := by
  unfold CaseState.rebase
  split
  · rfl
  · dsimp only
    split <;> rfl

/-- The matching takes local files out and changes none. -/
theorem matchGroup_files {dirs : List Text} {s : CaseState} {g : Spellings} {path : Text} {l : LocalFile}
    (h : (s.matchGroup env dirs g).files.lookup path = some l) : s.files.lookup path = some l := by
  unfold CaseState.matchGroup at h
  split at h
  · exact leaveAlone_files h
  · split at h
    · exact h
    · rw [rebase_files, respell_files] at h
      exact h

theorem matchGroups_files {dirs : List Text} {gs : List Spellings} {s : CaseState} {path : Text} {l : LocalFile}
    (h : (gs.foldl (CaseState.matchGroup env dirs) s).files.lookup path = some l) :
    s.files.lookup path = some l := by
  induction gs generalizing s with
  | nil => exact h
  | cons g gs ih => exact matchGroup_files (ih h)

/-- The local files of the sync are files of the scan. -/
theorem lineUp_files {scan : Scan} {cloud : PathMap CloudFile} {base : Option SyncManifest} {path : Text}
    {l : LocalFile} (h : (lineUp env cfg scan cloud base).files.lookup path = some l) :
    scan.files.lookup path = some l := by
  unfold lineUp applySizeLimit at h
  dsimp only at h
  rw [lookup_foldl_erase, Option.ite_none_left_eq_some] at h
  obtain ⟨-, h⟩ := h
  split at h
  · exact matchGroups_files h
  · exact h

/-! ## A provider that tells cases apart -/

section Plain
variable {localOnly : LocalOnly} {listing : List CloudFile} {scan : Scan} {base : Option SyncManifest} {path : Text}
  (hcase : env.provider.ignoresCase = false)

theorem mem_large {m : PathMap CloudFile} :
    path ∈ (m.entries.filter fun f => cfg.tooLarge f.2).map (·.1) ↔ (m.lookup path).any cfg.tooLarge = true := by
  rw [List.mem_map, Option.any_eq_true]
  constructor
  · rintro ⟨e, he, rfl⟩
    obtain ⟨he, hlarge⟩ := List.mem_filter.mp he
    exact ⟨e.2, AList.mem_lookup_iff.mpr he, hlarge⟩
  · rintro ⟨f, hf, hlarge⟩
    exact ⟨⟨path, f⟩, List.mem_filter.mpr ⟨AList.mem_lookup_iff.mp hf, hlarge⟩, rfl⟩

theorem lookup_listed (hpath : isReserved path = false) :
    (retain (fun path _ => !isReserved path) (cloudMap listing)).lookup path = (cloudMap listing).lookup path := by
  rw [lookup_retain, hpath]
  cases (cloudMap listing).lookup path <;> rfl

include hcase

theorem viewOf_base : (viewOf env cfg localOnly listing scan base).base = base := by
  unfold viewOf lineUp
  rw [hcase]
  rfl

theorem viewOf_found : (viewOf env cfg localOnly listing scan base).found = .none := by
  unfold viewOf lineUp
  rw [hcase]
  rfl

theorem viewOf_keptUnder (q : Text) : (viewOf env cfg localOnly listing scan base).keptUnder q = q := by
  unfold View.keptUnder
  rw [viewOf_found hcase]
  rfl

theorem viewOf_files (hpath : isReserved path = false) :
    (viewOf env cfg localOnly listing scan base).files.lookup path =
      if ((cloudMap listing).lookup path).any cfg.tooLarge then none else scan.files.lookup path := by
  unfold viewOf lineUp applySizeLimit
  rw [hcase]
  dsimp only
  rw [if_neg Bool.false_ne_true, lookup_foldl_erase]
  simp only [mem_large, lookup_listed hpath, lookup_retain, hpath]
  congr 1
  cases scan.files.lookup path <;> rfl

theorem viewOf_cloud (hpath : isReserved path = false) :
    (viewOf env cfg localOnly listing scan base).cloud.lookup path =
      if path ∈ scan.tooLarge then none else ((cloudMap listing).lookup path).filter fun f => !cfg.tooLarge f := by
  unfold viewOf lineUp applySizeLimit
  rw [hcase]
  dsimp only
  rw [if_neg Bool.false_ne_true, lookup_foldl_erase, lookup_retain, lookup_listed hpath]

/-- No remote file is seen that is not listed. -/
theorem viewOf_cloud_listed {f : CloudFile}
    (h : (viewOf env cfg localOnly listing scan base).cloud.lookup path = some f) :
    (cloudMap listing).lookup path = some f := by
  unfold viewOf lineUp applySizeLimit at h
  rw [hcase] at h
  dsimp only at h
  rw [if_neg Bool.false_ne_true, lookup_foldl_erase, Option.ite_none_left_eq_some, lookup_retain,
    Option.filter_eq_some_iff, lookup_retain, Option.filter_eq_some_iff] at h
  exact h.2.1.1

theorem viewOf_outOfView (hpath : isReserved path = false) :
    (viewOf env cfg localOnly listing scan base).outOfView.any (· == path) =
      (decide (path ∈ scan.tooLarge) || ((cloudMap listing).lookup path).any cfg.tooLarge) := by
  rw [Bool.eq_iff_iff, List.any_beq', List.contains_iff_mem]
  unfold viewOf lineUp applySizeLimit
  rw [hcase]
  dsimp only
  rw [if_neg Bool.false_ne_true, List.append_nil, List.mem_append, mem_large, lookup_listed hpath, Bool.or_eq_true,
    decide_eq_true_iff]

end Plain

/-! ## The engine's own entries -/

/-- The path is, or is in, one of the engine's entries at the top of the sync directory. -/
def ReservedTop (p : List Text) : Prop :=
  ∃ name rest, p = name :: rest ∧ name ∈ [layoutMarker, oldLayoutDir, manifestFile, quarantineDir]

theorem slash_not_mem_reserved {name : Text}
    (h : name ∈ [layoutMarker, oldLayoutDir, manifestFile, quarantineDir]) : '/' ∉ name := by
  revert name
  decide

theorem isReservedName_of_mem {name : Text}
    (h : name ∈ [layoutMarker, oldLayoutDir, manifestFile, quarantineDir]) : isReservedName name = true := by
  rw [isReservedName, List.any_eq_true]
  exact ⟨name, h, beq_self_eq_true _⟩

/-- The first component of a sync path. -/
theorem split_pathText_cons {name : Text} (hname : '/' ∉ name) (rest : List Text) :
    ∃ parts, split '/' (relative (pathText (name :: rest))) = name :: parts := by
  have hrel : relative (pathText (name :: rest)) = name ++ pathText rest := rfl
  rw [hrel, split]
  cases rest with
  | nil =>
    refine ⟨[], ?_⟩
    have hnil : pathText [] = [] := rfl
    rw [hnil, List.append_nil]
    exact List.splitOn_eq_singleton hname
  | cons b rest => exact ⟨_, splitOn_append_sep '/' name _ hname⟩

/-- The components of a sync path are the names it is made of. -/
theorem split_pathText {p : List Text} (hp : p ≠ []) (hnames : ∀ name ∈ p, '/' ∉ name) :
    split '/' (relative (pathText p)) = p := by
  induction p with
  | nil => exact absurd rfl hp
  | cons name rest ih =>
    have hname := hnames name List.mem_cons_self
    have hrel : relative (pathText (name :: rest)) = name ++ pathText rest := rfl
    cases rest with
    | nil =>
      have hnil : pathText [] = [] := rfl
      rw [hrel, split, hnil, List.append_nil]
      exact List.splitOn_eq_singleton hname
    | cons next rest =>
      have htail := ih (List.cons_ne_nil next rest) fun n hn => hnames n (List.mem_cons_of_mem name hn)
      have hcons : pathText (next :: rest) = '/' :: relative (pathText (next :: rest)) := rfl
      rw [hrel, split, hcons, splitOn_append_sep '/' name _ hname]
      exact congrArg (name :: ·) htail

theorem cloudPathComponents_pathText {p parts : List Text} (hnames : ∀ name ∈ p, '/' ∉ name)
    (h : cloudPathComponents (pathText p) = .ok parts) : parts = p := by
  unfold cloudPathComponents safeComponents at h
  by_cases hp : p = []
  · subst hp
    cases h
  · rw [split_pathText hp hnames] at h
    dsimp only at h
    split_ifs at h
    split at h
    · cases h
    · cases h
      rfl

theorem isReserved_of_reservedTop {p : List Text} (h : ReservedTop p) : isReserved (pathText p) = true := by
  obtain ⟨name, rest, rfl, hmem⟩ := h
  obtain ⟨parts, hparts⟩ := split_pathText_cons (slash_not_mem_reserved hmem) rest
  rw [isReserved, hparts, List.any_cons, isReservedName_of_mem hmem, Bool.true_or]

end CloudSync
