import Mathlib.Data.List.Dedup
import RemarkableServer.SyncViews

/-!
# Respelled remote paths

A provider that ignores case may list a file under another spelling than the local
tree has for its path or for a directory above it. The sync takes the local
spelling. What it then deals with is still the listed file, at a path of the same
lowercase form, and none of the engine's own entries comes in this way.
-/
namespace RemoteSpellings

open RustText Integrations CloudPaths CloudSync

def reservedNames : List Text := [layoutMarker, oldLayoutDir, manifestFile, quarantineDir]

/-! ## Lowercasing -/

/-- What the lowercase of a character is made of: an ASCII character has its ASCII lowercase, and no
other character has one of the reserved names' characters or a slash. -/
def LowersTo (c : Char) (piece : Text) : Prop :=
  if c.toNat < 128 then piece = [c.toLower]
  else piece ≠ [] ∧ ∀ d ∈ piece, d ≠ '/' ∧ ∀ name ∈ reservedNames, d ∉ name

/-- What is known of `str::to_lowercase`: it goes character by character, and what a character becomes
does not depend on what is beyond a slash. -/
structure Lowercases (lower : Text → Text) : Prop where
  pieces : ∀ t, ∃ ps, List.Forall₂ LowersTo t ps ∧ lower t = ps.flatten
  segments : ∀ a b, lower (a ++ '/' :: b) = lower a ++ '/' :: lower b

variable {lower : Text → Text}

theorem mem_flatten_lowersTo {t : Text} {ps : List Text} (h : List.Forall₂ LowersTo t ps) {d : Char}
    (hd : d ∈ ps.flatten) : ∃ c ∈ t, ∃ p ∈ ps, LowersTo c p ∧ d ∈ p := by
  induction h with
  | nil => cases hd
  | @cons c p t ps hc _ ih =>
    rw [List.flatten_cons, List.mem_append] at hd
    rcases hd with hd | hd
    · exact ⟨c, List.mem_cons_self, p, List.mem_cons_self, hc, hd⟩
    · obtain ⟨c', hc', p', hp', h⟩ := ih hd
      exact ⟨c', List.mem_cons_of_mem c hc', p', List.mem_cons_of_mem p hp', h⟩

theorem Lowercases.slash_not_mem (h : Lowercases lower) {t : Text} (ht : '/' ∉ t) : '/' ∉ lower t := by
  obtain ⟨ps, hps, hlower⟩ := h.pieces t
  rw [hlower]
  intro hslash
  obtain ⟨c, hc, p, -, hp, hd⟩ := mem_flatten_lowersTo hps hslash
  unfold LowersTo at hp
  split at hp
  · subst hp
    have hlow : c.toLower = '/' := (List.mem_singleton.mp hd).symm
    exact ht (eq_of_toLower_eq hlow (by decide) ▸ hc)
  · exact (hp.2 '/' hd).1 rfl

/-- The segments of the lowercase are the lowercases of the segments. -/
theorem Lowercases.split_lower (h : Lowercases lower) (t : Text) :
    split '/' (lower t) = (split '/' t).map lower := by
  induction hn : t.length using Nat.strong_induction_on generalizing t with
  | _ n ih =>
    by_cases hslash : '/' ∈ t
    · obtain ⟨a, b, rfl, ha⟩ := List.eq_append_cons_of_mem hslash
      have hb := ih b.length (by rw [← hn]; simp; omega) b rfl
      unfold split at hb ⊢
      rw [h.segments, splitOn_append_sep _ _ _ (h.slash_not_mem ha), splitOn_append_sep _ _ _ ha, hb]
      rfl
    · unfold split
      rw [List.splitOn_eq_singleton hslash, List.splitOn_eq_singleton (h.slash_not_mem hslash)]
      rfl

theorem flatten_ascii {t : Text} {ps : List Text} (h : List.Forall₂ LowersTo t ps) (ht : ∀ c ∈ t, c.toNat < 128) :
    ps.flatten = t.map Char.toLower := by
  induction h with
  | nil => rfl
  | @cons c p t ps hc _ ih =>
    rw [LowersTo, if_pos (ht c List.mem_cons_self)] at hc
    rw [List.flatten_cons, List.map_cons, ih fun d hd => ht d (List.mem_cons_of_mem c hd), hc]
    rfl

theorem lowersTo_of_mem {t : Text} {ps : List Text} (h : List.Forall₂ LowersTo t ps) {c : Char} (hc : c ∈ t) :
    ∃ p ∈ ps, LowersTo c p := by
  induction h with
  | nil => cases hc
  | @cons c' p t ps hp _ ih =>
    rcases List.mem_cons.mp hc with rfl | hc
    · exact ⟨p, List.mem_cons_self, hp⟩
    · obtain ⟨p', hp', h⟩ := ih hc
      exact ⟨p', List.mem_cons_of_mem p hp', h⟩

/-! ## Reserved names -/

theorem reservedNames_lower : ∀ name ∈ reservedNames, name.map Char.toLower = name := by
  decide

theorem reservedNames_ascii {name : Text} (hname : name ∈ reservedNames) {c : Char} (hc : c ∈ name) :
    c.toNat < 128 := by
  have hall : (reservedNames.all fun name => name.all fun c => decide (c.toNat < 128)) = true := by decide
  have hchars := List.all_eq_true.mp hall name hname
  exact of_decide_eq_true (List.all_eq_true.mp hchars c hc)

/-- A text has a reserved name for its lowercase only if it spells that name in ASCII. -/
theorem Lowercases.eq_reserved (h : Lowercases lower) {name : Text} (hname : name ∈ reservedNames) (t : Text) :
    lower t = name ↔ eqIgnoreAsciiCase t name = true := by
  obtain ⟨ps, hps, hlower⟩ := h.pieces t
  rw [eqIgnoreAsciiCase, reservedNames_lower name hname, beq_iff_eq, hlower]
  constructor
  · intro heq
    have ht : ∀ c ∈ t, c.toNat < 128 := by
      intro c hc
      obtain ⟨p, hp, hlow⟩ := lowersTo_of_mem hps hc
      by_contra hbig
      rw [LowersTo, if_neg hbig] at hlow
      obtain ⟨d, hd⟩ := List.exists_mem_of_ne_nil p hlow.1
      have hmem : d ∈ name := heq ▸ List.mem_flatten.mpr ⟨p, hp, hd⟩
      exact (hlow.2 d hd).2 name hname hmem
    rw [← flatten_ascii hps ht, heq]
  · intro heq
    have ht : ∀ c ∈ t, c.toNat < 128 := fun c hc =>
      ascii_of_toLower (reservedNames_ascii hname (heq ▸ List.mem_map_of_mem hc))
    rw [flatten_ascii hps ht, heq]

theorem Lowercases.isReservedName_iff (h : Lowercases lower) (t : Text) :
    isReservedName t = true ↔ lower t ∈ reservedNames := by
  have hany : isReservedName t = reservedNames.any (eqIgnoreAsciiCase t) := rfl
  rw [hany, List.any_eq_true]
  constructor
  · rintro ⟨name, hname, heq⟩
    rwa [(h.eq_reserved hname t).mpr heq]
  · exact fun hmem => ⟨lower t, hmem, (h.eq_reserved hmem t).mp rfl⟩

/-- A leading slash does not matter. -/
theorem isReserved_eq (path : Text) : isReserved path = (split '/' path).any isReservedName := by
  unfold isReserved relative
  cases path with
  | nil => rfl
  | cons c rest =>
    by_cases hc : c = '/'
    · subst hc
      have hsplit : split '/' ('/' :: rest) = [] :: split '/' rest := splitOn_append_sep '/' [] rest List.not_mem_nil
      rw [hsplit, List.any_cons]
      rfl
    · rw [if_neg (by simpa using hc)]

/-- Whether a path is reserved shows in its lowercase. -/
theorem Lowercases.isReserved_iff (h : Lowercases lower) (path : Text) :
    isReserved path = true ↔ ∃ segment ∈ split '/' (lower path), segment ∈ reservedNames := by
  rw [isReserved_eq, List.any_eq_true, h.split_lower]
  simp only [List.mem_map, exists_exists_and_eq_and, h.isReservedName_iff]

theorem Lowercases.isReserved_congr (h : Lowercases lower) {a b : Text} (hab : lower a = lower b) :
    isReserved a = isReserved b := by
  rw [Bool.eq_iff_iff, h.isReserved_iff, h.isReserved_iff, hab]

/-! ## Spellings -/

/-- The file is one of the listing's, at a path of the same lowercase form. -/
def ListedAs (lower : Text → Text) (listing : List CloudFile) (path : Text) (f : CloudFile) : Prop :=
  ∃ g ∈ listing, isReserved g.path = false ∧ f = { g with path := path } ∧ lower path = lower g.path

/-- Every file of the map is one of the listing's. -/
def AllListed (lower : Text → Text) (listing : List CloudFile) (cloud : PathMap CloudFile) : Prop :=
  ∀ path f, cloud.lookup path = some f → ListedAs lower listing path f

variable {listing : List CloudFile} {env : Env} {cfg : SyncConfig}

theorem ListedAs.not_reserved (hlower : Lowercases lower) {path : Text} {f : CloudFile}
    (h : ListedAs lower listing path f) : isReserved path = false := by
  obtain ⟨g, -, hfree, -, hsame⟩ := h
  rw [hlower.isReserved_congr hsame, hfree]

theorem ListedAs.path_eq {path : Text} {f : CloudFile} (h : ListedAs lower listing path f) : f.path = path := by
  obtain ⟨g, -, -, rfl, -⟩ := h
  rfl

theorem cloudMap_listed {path : Text} {f : CloudFile} (h : (cloudMap listing).lookup path = some f) :
    f ∈ listing ∧ f.path = path := by
  have hfold : ∀ (fs : List CloudFile) (m : PathMap CloudFile),
      (fs.foldl (fun m f => m.insert f.path f) m).lookup path = some f →
        f ∈ fs ∧ f.path = path ∨ m.lookup path = some f := by
    intro fs
    induction fs with
    | nil => exact fun m h => Or.inr h
    | cons g fs ih =>
      intro m h
      rw [List.foldl_cons] at h
      rcases ih _ h with ⟨hmem, hpath⟩ | h
      · exact Or.inl ⟨List.mem_cons_of_mem g hmem, hpath⟩
      · rw [lookup_insert_if] at h
        split at h
        next hpath =>
          cases h
          exact Or.inl ⟨List.mem_cons_self, hpath.symm⟩
        · exact Or.inr h
  refine (hfold listing ∅ h).resolve_right fun hempty => ?_
  cases hempty

theorem allListed_cloudMap (lower : Text → Text) (listing : List CloudFile) :
    AllListed lower listing (retain (fun path _ => !isReserved path) (cloudMap listing)) := by
  intro path f h
  rw [lookup_retain, Option.filter_eq_some_iff] at h
  obtain ⟨hmem, rfl⟩ := cloudMap_listed h.1
  exact ⟨f, hmem, by simpa using h.2, rfl, rfl⟩

theorem AllListed.erase {cloud : PathMap CloudFile} (h : AllListed lower listing cloud) (ps : List Text) :
    AllListed lower listing (ps.foldl (fun m p => m.erase p) cloud) := by
  intro path f hf
  rw [lookup_foldl_erase] at hf
  split at hf
  · cases hf
  · exact h path f hf

theorem mem_sortedSet {t : Text} {ts : List Text} : t ∈ sortedSet ts ↔ t ∈ ts := by
  rw [sortedSet, (List.perm_insertionSort _ _).mem_iff, List.mem_dedup]

/-- A directory above a path stands before one of its slashes. -/
theorem exists_below {path dir : Text} (h : dir ∈ dirsAbove path) : ∃ rest, path = dir ++ '/' :: rest := by
  unfold dirsAbove at h
  simp only [List.mem_reverse, List.mem_map, List.mem_filter, List.mem_range, Bool.and_eq_true, bne_iff_ne,
    beq_iff_eq] at h
  obtain ⟨i, ⟨-, -, hslash⟩, rfl⟩ := h
  obtain ⟨hi, hget⟩ := List.getElem?_eq_some_iff.mp hslash
  refine ⟨path.drop (i + 1), ?_⟩
  rw [← hget, ← List.drop_eq_getElem_cons hi, List.take_append_drop]

/-- A path moved into the local spelling of a directory keeps its lowercase form. -/
theorem lower_inLocalDirs (hlower : Lowercases env.toLowercase) (path : Text) (dirs : List Text) :
    env.toLowercase (inLocalDirs env path dirs) = env.toLowercase path := by
  unfold inLocalDirs
  split
  · rfl
  next dir hdir =>
    split
    next here hhere =>
      obtain ⟨rest, hrest⟩ := exists_below (List.mem_of_find?_eq_some hdir)
      have hmem : here ∈ spellingsOf env dirs dir := hhere ▸ List.mem_singleton_self here
      rw [spellingsOf, mem_sortedSet, List.mem_filter, beq_iff_eq] at hmem
      have hdrop : path.drop dir.length = '/' :: rest := by rw [hrest, List.drop_left]
      rw [hdrop, hlower.segments, hmem.2, ← hlower.segments, ← hrest]
    · rfl

/-! ## Lining up -/

/-- The paths of a group have one lowercase form. -/
def OfKey (lower : Text → Text) (key : Text) (g : Spellings) : Prop :=
  (∀ p ∈ g.here, lower p = key) ∧ ∀ p ∈ g.cloud, lower p = key

theorem ofKey_caseGroups {here listed recorded : List Text} {g : Spellings}
    (hg : g ∈ caseGroups env here listed recorded) : ∃ key, OfKey env.toLowercase key g := by
  unfold caseGroups at hg
  obtain ⟨key, -, rfl⟩ := List.mem_map.mp hg
  refine ⟨key, ?_, ?_⟩
  all_goals
    intro p hp
    rw [mem_sortedSet, List.mem_filter, beq_iff_eq] at hp
    exact hp.2

/-- The spelling a group is synced under has its lowercase form. -/
theorem lower_spelling (hlower : Lowercases env.toLowercase) {g : Spellings} {key : Text}
    (hg : OfKey env.toLowercase key g) {dirs : List Text} {spelling : Text}
    (h : g.spelling env dirs = some spelling) : env.toLowercase spelling = key := by
  unfold Spellings.spelling at h
  split at h
  next here rest hhere =>
    cases h
    exact hg.1 _ (hhere ▸ List.mem_cons_self)
  · obtain ⟨listed, hlisted, rfl⟩ := Option.map_eq_some_iff.mp h
    rw [lower_inLocalDirs hlower]
    exact hg.2 listed (List.mem_of_head? hlisted)

theorem allListed_respell {s : CaseState} (hs : AllListed lower listing s.cloud) {g : Spellings} {key : Text}
    (hg : OfKey lower key g) {spelling : Text} (hspelling : lower spelling = key) :
    AllListed lower listing (s.respell g spelling).cloud := by
  unfold CaseState.respell
  split
  · exact hs
  next listed hlisted =>
    split
    · exact hs
    · split
      · exact hs
      next f hf =>
        intro path f' hf'
        dsimp only at hf'
        rw [lookup_insert_if] at hf'
        split at hf'
        next hpath =>
          cases hf'
          obtain ⟨origin, hmem, hfree, rfl, hsame⟩ := hs listed f hf
          refine ⟨origin, hmem, hfree, by rw [hpath], ?_⟩
          rw [hpath, hspelling, ← hsame, hg.2 listed (List.mem_of_head? hlisted)]
        · rw [lookup_erase_if] at hf'
          split at hf'
          · cases hf'
          · exact hs path f' hf'

theorem rebase_cloud (s : CaseState) (g : Spellings) (spelling : Text) : (s.rebase g spelling).cloud = s.cloud := by
  unfold CaseState.rebase
  split
  · rfl
  · dsimp only
    split <;> rfl

/-- Matching a group respells what is listed, and nothing else comes in. -/
theorem allListed_matchGroup (hlower : Lowercases env.toLowercase) {s : CaseState}
    (hs : AllListed env.toLowercase listing s.cloud) {g : Spellings} {key : Text}
    (hg : OfKey env.toLowercase key g) (dirs : List Text) :
    AllListed env.toLowercase listing (s.matchGroup env dirs g).cloud := by
  unfold CaseState.matchGroup
  split
  · exact hs.erase _
  · split
    · exact hs
    next spelling hspelling =>
      rw [rebase_cloud]
      exact allListed_respell hs hg (lower_spelling hlower hg hspelling)

theorem allListed_matchGroups (hlower : Lowercases env.toLowercase) {gs : List Spellings} {s : CaseState}
    (hs : AllListed env.toLowercase listing s.cloud) (hgs : ∀ g ∈ gs, ∃ key, OfKey env.toLowercase key g)
    (dirs : List Text) : AllListed env.toLowercase listing (gs.foldl (CaseState.matchGroup env dirs) s).cloud := by
  induction gs generalizing s with
  | nil => exact hs
  | cons g gs ih =>
    obtain ⟨key, hg⟩ := hgs g List.mem_cons_self
    exact ih (allListed_matchGroup hlower hs hg dirs) fun g' hg' => hgs g' (List.mem_cons_of_mem g hg')

/-- Whatever the provider does with case, a sync deals with listed files only. -/
theorem allListed_view (hlower : Lowercases env.toLowercase) (localOnly : LocalOnly) (listing : List CloudFile)
    (scan : Scan) (base : Option SyncManifest) :
    AllListed env.toLowercase listing (viewOf env cfg localOnly listing scan base).cloud := by
  have hlisted := allListed_cloudMap env.toLowercase listing
  have hmatched : ∀ s : CaseState, AllListed env.toLowercase listing s.cloud →
      ∀ tooLarge, AllListed env.toLowercase listing (applySizeLimit cfg s tooLarge).cloud := by
    intro s hs tooLarge
    refine AllListed.erase (fun path f hf => ?_) tooLarge
    rw [lookup_retain, Option.filter_eq_some_iff] at hf
    exact hs path f hf.1
  unfold viewOf lineUp
  refine hmatched _ ?_ _
  split
  · exact allListed_matchGroups hlower hlisted (fun g hg => ofKey_caseGroups hg) _
  · exact hlisted

end RemoteSpellings
