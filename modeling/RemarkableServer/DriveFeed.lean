import RemarkableServer.GoogleDrive

/-!
# Where the Google Drive change feed finds a file

The feed looks for a chain of folders from a changed file up to the sync root and
remembers for each folder on the way whether it found one. A folder that it comes
to while it is still being looked for, or that is too deep, counts as not under
the root, and so does every folder that has no other way up; that is remembered,
too. So the feed is right for every sequence of files exactly when this never
happens to a folder under the root: when the walk from each folder, by the first
parent that leads to the root and is not yet on the walk, comes to the root.
-/
namespace DriveFeed

open RustText Integrations CloudPaths GoogleDrive Effect

/-- The folders of a drive, by id. -/
abbrev Graph := Text → Option DriveFile

/-- A chain of `n` passable folders leads from the root to the folder, which is the last of them. -/
inductive Leads (graph : Graph) (root : SyncRoot) : Nat → Text → Prop where
  | atRoot {id : Text} (h : root.is id = true) : Leads graph root 0 id
  | step {id parent : Text} {f : DriveFile} {n : Nat} (h : root.is id = false) (hf : graph id = some f)
      (hpass : f.passable = true) (hparent : parent ∈ f.parentIds) (habove : Leads graph root n parent) :
      Leads graph root (n + 1) id

def Reaches (graph : Graph) (root : SyncRoot) (id : Text) : Prop := ∃ n, Leads graph root n id

/-- A chain of passable folders, within the depth the listing walks, leads from the root to the file. -/
def Under (graph : Graph) (root : SyncRoot) (f : DriveFile) : Prop :=
  ∃ parent ∈ f.parentIds, ∃ n < maxListDepth, Leads graph root n parent

/-- A walk on its way through the folders `way` can go on to the folder: it is the root, or it leads to
the root, is not on the way, and there are levels left. -/
def Open (graph : Graph) (root : SyncRoot) (left : Nat) (way : List Text) (id : Text) : Prop :=
  root.is id = true ∨ 0 < left ∧ Reaches graph root id ∧ id ∉ way

/-- The walk that goes on from each folder to the first parent it can comes to the root, with that many
levels left and those folders already on its way. -/
inductive Walk (graph : Graph) (root : SyncRoot) : Nat → List Text → Text → Prop where
  | atRoot {left : Nat} {way : List Text} {id : Text} (h : root.is id = true) : Walk graph root left way id
  | step {left : Nat} {way : List Text} {id parent : Text} {f : DriveFile} {before after : List Text}
      (h : root.is id = false) (hf : graph id = some f) (hpass : f.passable = true)
      (hparents : f.parentIds = before ++ parent :: after)
      (hbefore : ∀ p ∈ before, ¬Open graph root left (id :: way) p)
      (hopen : Open graph root left (id :: way) parent) (habove : Walk graph root left (id :: way) parent) :
      Walk graph root (left + 1) way id

/-- Every folder that the root leads to at all is within the depth the listing walks, and the walk from it
comes to the root. -/
def Walkable (graph : Graph) (root : SyncRoot) : Prop :=
  ∀ id, Reaches graph root id → (∃ n < maxListDepth, Leads graph root n id) ∧ Walk graph root maxListDepth [] id

/-- The query is answered with a path. -/
def Answered (drive : Drive) (root : SyncRoot) (f : DriveFile) (cache : Cache) : Prop :=
  ∃ path cache', pathUnder drive root f cache = .ok (some path) cache'

/-- The cache after a sequence of queries. -/
def cacheAfter (drive : Drive) (root : SyncRoot) (queries : List DriveFile) : Cache :=
  queries.foldl (fun cache f => final (pathUnder drive root f) cache) ∅

/-- Every query is answered with a path if and only if it is on an empty cache, and if and only if the
file is under the root. -/
def FeedRight (drive : Drive) (graph : Graph) (root : SyncRoot) (queries : List DriveFile) : Prop :=
  ∀ earlier f later, queries = earlier ++ f :: later →
    (Answered drive root f (cacheAfter drive root earlier) ↔ Answered drive root f ∅) ∧
      (Answered drive root f (cacheAfter drive root earlier) ↔ Under graph root f)

/-- Drive answers every question about a folder from the graph. -/
def Answers (drive : Drive) (graph : Graph) : Prop := ∀ id, drive.folderMeta id = .ok (graph id)

section
variable {drive : Drive} {graph : Graph} {root : SyncRoot}

/-! ## Ways up -/

theorem Reaches.of_root {id : Text} (h : root.is id = true) : Reaches graph root id := ⟨0, .atRoot h⟩

theorem Reaches.of_parent {id parent : Text} {f : DriveFile} (hid : root.is id = false) (hf : graph id = some f)
    (hpass : f.passable = true) (hparent : parent ∈ f.parentIds) (h : Reaches graph root parent) :
    Reaches graph root id := by
  obtain ⟨n, hleads⟩ := h
  exact ⟨n + 1, .step hid hf hpass hparent hleads⟩

/-- A folder below the root is passable, and one of its parents leads to the root. -/
theorem Reaches.parent {id : Text} (hid : root.is id = false) (h : Reaches graph root id) :
    ∃ f, graph id = some f ∧ f.passable = true ∧ ∃ parent ∈ f.parentIds, Reaches graph root parent := by
  obtain ⟨n, hleads⟩ := h
  cases hleads with
  | atRoot h =>
    rw [hid] at h
    cases h
  | step _ hf hpass hparent habove => exact ⟨_, hf, hpass, _, hparent, _, habove⟩

theorem Open.reaches {left : Nat} {way : List Text} {id : Text} (h : Open graph root left way id) :
    Reaches graph root id := by
  rcases h with h | h
  · exact .of_root h
  · exact h.2.1

/-- The first element with a property is the same in every way of writing the list. -/
theorem first_unique {α : Type} {X : α → Prop} {a b : α} {before before' after after' : List α}
    (h : before ++ a :: after = before' ++ b :: after') (ha : X a) (hb : X b) (hbefore : ∀ c ∈ before, ¬X c)
    (hbefore' : ∀ c ∈ before', ¬X c) : a = b := by
  induction before generalizing before' with
  | nil =>
    cases before' with
    | nil => exact (List.cons.inj h).1
    | cons c before' =>
      obtain rfl := (List.cons.inj h).1
      exact absurd ha (hbefore' a List.mem_cons_self)
  | cons c before ih =>
    cases before' with
    | nil =>
      obtain rfl := (List.cons.inj h).1
      exact absurd hb (hbefore c List.mem_cons_self)
    | cons d before' =>
      exact ih (List.cons.inj h).2 (fun x hx => hbefore x (List.mem_cons_of_mem c hx))
        fun x hx => hbefore' x (List.mem_cons_of_mem d hx)

/-- A folder is looked up in the graph. -/
theorem searchVia_eq (hdrive : Answers drive graph) (search : Text → Lookup (Option Text)) (id : Text) (cache : Cache) :
    searchVia drive search id cache =
      (match graph id with
        | some f => if f.passable then pathVia search f.name f.parentIds else pure none
        | none => pure none : Lookup (Option Text)) cache := by
  unfold searchVia
  refine bind_ok ?_ _
  rw [hdrive id]
  rfl

/-- The parents a folder is searched for by: none unless it is passable. -/
def waysUp (graph : Graph) (id : Text) : List Text :=
  match graph id with
  | some f => if f.passable then f.parentIds else []
  | none => []

/-- A search goes through the ways up. -/
theorem searchVia_waysUp (hdrive : Answers drive graph) (search : Text → Lookup (Option Text)) (id : Text) :
    ∃ name, ∀ cache, searchVia drive search id cache = pathVia search name (waysUp graph id) cache := by
  cases hf : graph id with
  | none =>
    refine ⟨[], fun cache => ?_⟩
    rw [searchVia_eq hdrive, waysUp, hf]
    rfl
  | some f =>
    refine ⟨f.name, fun cache => ?_⟩
    rw [searchVia_eq hdrive, waysUp, hf]
    cases hpass : f.passable <;> simp [hpass, pathVia]

theorem reaches_iff_waysUp {id : Text} (hid : root.is id = false) :
    Reaches graph root id ↔ ∃ parent ∈ waysUp graph id, Reaches graph root parent := by
  constructor
  · intro h
    obtain ⟨f, hf, hpass, hparent⟩ := h.parent hid
    rw [waysUp, hf]
    dsimp only
    rw [if_pos hpass]
    exact hparent
  · rintro ⟨parent, hmem, h⟩
    unfold waysUp at hmem
    split at hmem
    next f hf =>
      split at hmem
      next hpass => exact .of_parent hid hf hpass hmem h
      · cases hmem
    · cases hmem

/-- A walk in terms of the ways up. -/
theorem walk_succ {left : Nat} {way : List Text} {id : Text} (hid : root.is id = false) :
    Walk graph root (left + 1) way id ↔ ∃ before parent after, waysUp graph id = before ++ parent :: after ∧
      (∀ p ∈ before, ¬Open graph root left (id :: way) p) ∧ Open graph root left (id :: way) parent ∧
        Walk graph root left (id :: way) parent := by
  constructor
  · intro h
    cases h with
    | atRoot h =>
      rw [hid] at h
      cases h
    | @step _ _ _ parent f before after _ hf hpass hparents hbefore hopen habove =>
      refine ⟨before, parent, after, ?_, hbefore, hopen, habove⟩
      rw [waysUp, hf]
      dsimp only
      rw [if_pos hpass, hparents]
  · rintro ⟨before, parent, after, hways, hbefore, hopen, habove⟩
    unfold waysUp at hways
    split at hways
    next f hf =>
      split at hways
      next hpass => exact .step hid hf hpass hways hbefore hopen habove
      · simp at hways
    · simp at hways

/-! ## The cache -/

/-- The cache of a search on its way through the folders `way`: right for every folder that is not on the
way, and without a path for those that are. -/
structure Fits (graph : Graph) (root : SyncRoot) (way : List Text) (cache : Cache) : Prop where
  found : ∀ id path, cache.lookup id = some path → path.isSome = true → Reaches graph root id
  missed : ∀ id path, cache.lookup id = some path → Reaches graph root id → id ∉ way → path.isSome = true
  onWay : ∀ id ∈ way, root.is id = false ∧ cache.lookup id = some none

/-- The cache has what it had, and what is new in it is right. -/
structure Grown (graph : Graph) (root : SyncRoot) (cache cache' : Cache) : Prop where
  old : ∀ id path, cache.lookup id = some path → cache'.lookup id = some path
  new : ∀ id path, cache.lookup id = none → cache'.lookup id = some path →
    (path.isSome = true ↔ Reaches graph root id)

theorem Grown.refl (cache : Cache) : Grown graph root cache cache where
  old := fun _ _ h => h
  new := by
    intro id path hnone hsome
    rw [hnone] at hsome
    cases hsome

/-- An entry is one that was there or a new one. -/
theorem Grown.cases {cache cache' : Cache} (h : Grown graph root cache cache') {id : Text} {path : Option Text}
    (hpath : cache'.lookup id = some path) :
    cache.lookup id = some path ∨ cache.lookup id = none ∧ (path.isSome = true ↔ Reaches graph root id) := by
  cases hc : cache.lookup id with
  | none => exact Or.inr ⟨rfl, h.new id path hc hpath⟩
  | some path' =>
    have hsame := h.old id path' hc
    rw [hpath] at hsame
    exact Or.inl hsame.symm

theorem Grown.trans {a b c : Cache} (h : Grown graph root a b) (h' : Grown graph root b c) : Grown graph root a c where
  old := fun id path hpath => h'.old id path (h.old id path hpath)
  new := by
    intro id path hnone hsome
    rcases h'.cases hsome with hb | hb
    · exact h.new id path hnone hb
    · exact hb.2

theorem Fits.grown {way : List Text} {cache cache' : Cache} (h : Fits graph root way cache)
    (hgrown : Grown graph root cache cache') : Fits graph root way cache' where
  found := by
    intro id path hpath hsome
    rcases hgrown.cases hpath with hold | hnew
    · exact h.found id path hold hsome
    · exact hnew.2.mp hsome
  missed := by
    intro id path hpath hreach hway
    rcases hgrown.cases hpath with hold | hnew
    · exact h.missed id path hold hreach hway
    · exact hnew.2.mpr hreach
  onWay := fun id hid => ⟨(h.onWay id hid).1, hgrown.old id none (h.onWay id hid).2⟩

/-- A folder that is looked for is marked in the cache. -/
theorem Fits.mark {way : List Text} {cache : Cache} {id : Text} (h : Fits graph root way cache)
    (hid : root.is id = false) : Fits graph root (id :: way) (cache.insert id none) where
  found := by
    intro k path hpath hsome
    by_cases hk : k = id
    · rw [hk, AList.lookup_insert] at hpath
      cases hpath
      cases hsome
    · rw [AList.lookup_insert_ne hk] at hpath
      exact h.found k path hpath hsome
  missed := by
    intro k path hpath hreach hway
    rw [List.mem_cons, not_or] at hway
    rw [AList.lookup_insert_ne hway.1] at hpath
    exact h.missed k path hpath hreach hway.2
  onWay := by
    intro k hk
    by_cases hne : k = id
    · subst hne
      exact ⟨hid, AList.lookup_insert cache⟩
    · rw [AList.lookup_insert_ne hne]
      exact h.onWay k ((List.mem_cons.mp hk).resolve_left hne)

/-- A lookup finds only what is right, finds what the condition promises, and leaves the cache right. -/
def Resolves (graph : Graph) (root : SyncRoot) (x : Lookup (Option Text)) (cache : Cache)
    (right promised : Prop) : Prop :=
  ∃ path cache', x cache = .ok path cache' ∧ (path.isSome = true → right) ∧ (promised → path.isSome = true) ∧
    Grown graph root cache cache'

theorem cached_hit {id : Text} {search : Lookup (Option Text)} {cache : Cache} {path : Option Text}
    (hid : root.is id = false) (h : cache.lookup id = some path) : cached root id search cache = .ok path cache := by
  rw [cached, if_neg (Bool.eq_false_iff.mp hid), get_bind, h]
  rfl

theorem cached_miss {id : Text} {search : Lookup (Option Text)} {cache : Cache} (hid : root.is id = false)
    (h : cache.lookup id = none) : cached root id search cache = search cache := by
  rw [cached, if_neg (Bool.eq_false_iff.mp hid), get_bind, h]

theorem cached_root {id : Text} {search : Lookup (Option Text)} {cache : Cache} (hid : root.is id = true) :
    cached root id search cache = .ok (some []) cache := by
  rw [cached, if_pos hid]
  rfl

theorem folderPath_eq (drive : Drive) (root : SyncRoot) (left : Nat) (id : Text) :
    ∃ search, folderPath drive root left id = cached root id search := by
  cases left with
  | zero => exact ⟨_, rfl⟩
  | succ left => exact ⟨_, rfl⟩

/-- A folder that is not in the cache is marked there and searched for by its ways up. -/
theorem folderPath_search (hdrive : Answers drive graph) (left : Nat) {id : Text} (hid : root.is id = false)
    {cache : Cache} (hl : cache.lookup id = none) :
    ∃ name, ∀ path cache',
      pathVia (folderPath drive root left) name (waysUp graph id) (cache.insert id none) = .ok path cache' →
        folderPath drive root (left + 1) id cache = .ok path (cache'.insert id path) := by
  obtain ⟨name, hname⟩ := searchVia_waysUp hdrive (folderPath drive root left) id
  refine ⟨name, fun path cache' hrun => ?_⟩
  rw [folderPath, cached_miss hid hl, modify_bind, bind_ok ((hname _).trans hrun)]
  rfl

/-- What the cache has stays in it. -/
def Stays (cache cache' : Cache) : Prop := ∀ id path, cache.lookup id = some path → cache'.lookup id = some path

theorem Stays.trans {a b c : Cache} (h : Stays a b) (h' : Stays b c) : Stays a c :=
  fun id path hpath => h' id path (h id path hpath)

/-- The mark of a folder gives way to what was found. -/
theorem stays_insert {id : Text} {cache cache' : Cache} (hl : cache.lookup id = none)
    (h : Stays (cache.insert id none) cache') (path : Option Text) : Stays cache (cache'.insert id path) := by
  intro k old hk
  have hne : k ≠ id := by
    rintro rfl
    rw [hl] at hk
    cases hk
  rw [AList.lookup_insert_ne hne]
  exact h k old (by rw [AList.lookup_insert_ne hne]; exact hk)

/-- A folder on the way is not found again. -/
theorem folderPath_onWay {way : List Text} {cache : Cache} (h : Fits graph root way cache) {id : Text}
    (hid : id ∈ way) (left : Nat) : folderPath drive root left id cache = .ok none cache := by
  obtain ⟨search, hsearch⟩ := folderPath_eq drive root left id
  rw [hsearch, cached_hit (h.onWay id hid).1 (h.onWay id hid).2]

/-- The parents are tried in order. -/
theorem resolves_pathVia {left : Nat} {way : List Text} (name : Text)
    (hfolder : ∀ id cache, Fits graph root way cache → id ∉ way →
      (Open graph root left way id → Walk graph root left way id) →
        Resolves graph root (folderPath drive root left id) cache (Reaches graph root id)
          (Open graph root left way id)) (parents : List Text) {cache : Cache} (hfits : Fits graph root way cache)
    (hfirst : ∀ before parent after, parents = before ++ parent :: after →
      (∀ p ∈ before, ¬Open graph root left way p) → Open graph root left way parent →
        Walk graph root left way parent) :
    Resolves graph root (pathVia (folderPath drive root left) name parents) cache
      (∃ parent ∈ parents, Reaches graph root parent) (∃ parent ∈ parents, Open graph root left way parent) := by
  induction parents generalizing cache with
  | nil => exact ⟨none, cache, rfl, Bool.noConfusion, fun ⟨_, h, _⟩ => absurd h List.not_mem_nil, Grown.refl cache⟩
  | cons parent parents ih =>
    have hparent : Resolves graph root (folderPath drive root left parent) cache (Reaches graph root parent)
        (Open graph root left way parent) := by
      by_cases hway : parent ∈ way
      · refine ⟨none, cache, folderPath_onWay hfits hway left, Bool.noConfusion, ?_, Grown.refl cache⟩
        rintro (hroot | hopen)
        · rw [(hfits.onWay parent hway).1] at hroot
          cases hroot
        · exact absurd hway hopen.2.2
      · exact hfolder parent cache hfits hway (hfirst [] parent parents rfl (List.forall_mem_nil _))
    obtain ⟨path, cache', hrun, hright, hpromised, hgrown⟩ := hparent
    unfold pathVia
    cases path with
    | some above =>
      exact ⟨_, cache', bind_ok hrun _, fun _ => ⟨parent, List.mem_cons_self, hright rfl⟩, fun _ => rfl, hgrown⟩
    | none =>
      have hnot : ¬Open graph root left way parent := fun h => nomatch hpromised h
      have hrest : ∀ before p after, parents = before ++ p :: after → (∀ q ∈ before, ¬Open graph root left way q) →
          Open graph root left way p → Walk graph root left way p := by
        intro before p after hparents hbefore
        exact hfirst (parent :: before) p after (by rw [hparents]; rfl) (List.forall_mem_cons.mpr ⟨hnot, hbefore⟩)
      obtain ⟨path', cache'', hrun', hright', hpromised', hgrown'⟩ := ih (hfits.grown hgrown) hrest
      refine ⟨path', cache'', (bind_ok hrun _).trans hrun', ?_, ?_, hgrown.trans hgrown'⟩
      · intro hsome
        obtain ⟨p, hp, hreach⟩ := hright' hsome
        exact ⟨p, List.mem_cons_of_mem parent hp, hreach⟩
      · rintro ⟨p, hp, hopen⟩
        rcases List.mem_cons.mp hp with rfl | hp
        · exact absurd hopen hnot
        · exact hpromised' ⟨p, hp, hopen⟩

/-- A folder that a walk can go on to is found if the walk comes to the root. -/
theorem resolves_folderPath (hdrive : Answers drive graph) (left : Nat) {way : List Text} (id : Text) (cache : Cache)
    (hfits : Fits graph root way cache) (hway : id ∉ way)
    (hwalk : Open graph root left way id → Walk graph root left way id) :
    Resolves graph root (folderPath drive root left id) cache (Reaches graph root id)
      (Open graph root left way id) := by
  induction left generalizing way id cache with
  | zero =>
    unfold folderPath
    cases hid : root.is id with
    | true => exact ⟨_, cache, cached_root hid, fun _ => .of_root hid, fun _ => rfl, Grown.refl cache⟩
    | false =>
      have hclosed : ¬Open graph root 0 way id := by
        rintro (h | h)
        · rw [hid] at h
          cases h
        · exact absurd h.1 (Nat.lt_irrefl 0)
      cases hl : cache.lookup id with
      | some path =>
        exact ⟨path, cache, cached_hit hid hl, hfits.found id path hl, fun h => absurd h hclosed, Grown.refl cache⟩
      | none =>
        exact ⟨none, cache, cached_miss hid hl, Bool.noConfusion, fun h => absurd h hclosed, Grown.refl cache⟩
  | succ left ih =>
    unfold folderPath
    cases hid : root.is id with
    | true => exact ⟨_, cache, cached_root hid, fun _ => .of_root hid, fun _ => rfl, Grown.refl cache⟩
    | false =>
      cases hl : cache.lookup id with
      | some path =>
        refine ⟨path, cache, cached_hit hid hl, hfits.found id path hl, fun hopen => ?_, Grown.refl cache⟩
        exact hfits.missed id path hl hopen.reaches hway
      | none =>
        have hopen : Reaches graph root id → Open graph root (left + 1) way id := fun h =>
          Or.inr ⟨Nat.succ_pos left, h, hway⟩
        have hfirst : ∀ before parent after, waysUp graph id = before ++ parent :: after →
            (∀ p ∈ before, ¬Open graph root left (id :: way) p) → Open graph root left (id :: way) parent →
              Walk graph root left (id :: way) parent := by
          intro before parent after hways hbefore hparent
          have hmem : parent ∈ waysUp graph id := by
            rw [hways]
            exact List.mem_append_right _ List.mem_cons_self
          have hreach := (reaches_iff_waysUp hid).mpr ⟨parent, hmem, hparent.reaches⟩
          obtain ⟨before', parent', after', hways', hbefore', hparent', habove⟩ :=
            (walk_succ hid).mp (hwalk (hopen hreach))
          have hsame := first_unique (hways.symm.trans hways') hparent hparent' hbefore hbefore'
          exact hsame ▸ habove
        obtain ⟨name, hsearch⟩ := folderPath_search hdrive left hid hl
        obtain ⟨path, cache', hrun, hright, hpromised, hgrown⟩ := resolves_pathVia name
          (fun k c hc hk => ih k c hc hk) (waysUp graph id) (hfits.mark hid) hfirst
        have hfound : path.isSome = true ↔ Reaches graph root id := by
          refine ⟨fun h => (reaches_iff_waysUp hid).mpr (hright h), fun h => hpromised ?_⟩
          obtain ⟨before, parent, after, hways, -, hparent, -⟩ := (walk_succ hid).mp (hwalk (hopen h))
          refine ⟨parent, ?_, hparent⟩
          rw [hways]
          exact List.mem_append_right _ List.mem_cons_self
        refine ⟨path, cache'.insert id path, hsearch path cache' hrun, hfound.mp, fun h => hfound.mpr h.reaches,
          stays_insert hl hgrown.old path, ?_⟩
        intro k new hnone hk
        by_cases hne : k = id
        · subst hne
          rw [AList.lookup_insert] at hk
          cases hk
          exact hfound
        · rw [AList.lookup_insert_ne hne] at hk
          exact hgrown.new k new (by rw [AList.lookup_insert_ne hne]; exact hnone) hk

/-! ## Queries -/

theorem fits_empty : Fits graph root [] ∅ where
  found := fun _ _ h => nomatch h
  missed := fun _ _ h => nomatch h
  onWay := List.forall_mem_nil _

/-- On a walkable graph a file is found if and only if it is under the root, whatever was asked before. -/
theorem Walkable.pathUnder (hdrive : Answers drive graph) (h : Walkable graph root) (f : DriveFile) {cache : Cache}
    (hfits : Fits graph root [] cache) :
    ∃ path cache', pathUnder drive root f cache = .ok path cache' ∧ (path.isSome = true ↔ Under graph root f) ∧
      Fits graph root [] cache' := by
  have hfirst : ∀ before parent after, f.parentIds = before ++ parent :: after →
      (∀ p ∈ before, ¬Open graph root maxListDepth [] p) → Open graph root maxListDepth [] parent →
        Walk graph root maxListDepth [] parent := fun _ _ _ _ _ hopen => (h _ hopen.reaches).2
  obtain ⟨path, cache', hrun, hright, hpromised, hgrown⟩ := resolves_pathVia f.name
    (fun id cache => resolves_folderPath hdrive maxListDepth id cache) f.parentIds hfits hfirst
  refine ⟨path, cache', hrun, ⟨?_, ?_⟩, hfits.grown hgrown⟩
  · intro hsome
    obtain ⟨parent, hmem, hreach⟩ := hright hsome
    exact ⟨parent, hmem, (h parent hreach).1⟩
  · rintro ⟨parent, hmem, n, -, hleads⟩
    exact hpromised ⟨parent, hmem, Or.inr ⟨Nat.succ_pos _, ⟨n, hleads⟩, List.not_mem_nil⟩⟩

theorem Walkable.answered (hdrive : Answers drive graph) (h : Walkable graph root) (f : DriveFile) {cache : Cache}
    (hfits : Fits graph root [] cache) : Answered drive root f cache ↔ Under graph root f := by
  obtain ⟨path, cache', hrun, hpath, -⟩ := h.pathUnder hdrive f hfits
  refine Iff.trans ?_ hpath
  unfold Answered
  rw [hrun]
  cases path with
  | none => simp
  | some path => simp

theorem Walkable.feedRight (hdrive : Answers drive graph) (h : Walkable graph root) (queries : List DriveFile) :
    FeedRight drive graph root queries := by
  rintro earlier f later -
  have hearlier : Fits graph root [] (cacheAfter drive root earlier) := by
    refine List.foldlRecOn earlier _ fits_empty fun cache hfits g _ => ?_
    obtain ⟨path, cache', hrun, -, hfits'⟩ := h.pathUnder hdrive g hfits
    rw [final, hrun]
    exact hfits'
  exact ⟨(h.answered hdrive f hearlier).trans (h.answered hdrive f fits_empty).symm, h.answered hdrive f hearlier⟩

/-! ## What the cache remembers -/

/-- What was looked for in vain is remembered, unless it was too deep. -/
theorem pathVia_stays {left : Nat} (name : Text)
    (hfolder : ∀ id cache, ∃ path cache', folderPath drive root left id cache = .ok path cache' ∧ Stays cache cache' ∧
      (path = none → root.is id = false ∧ (0 < left → cache'.lookup id = some none)))
    (parents : List Text) (cache : Cache) :
    ∃ path cache', pathVia (folderPath drive root left) name parents cache = .ok path cache' ∧ Stays cache cache' ∧
      (path = none → ∀ p ∈ parents, root.is p = false ∧ (0 < left → cache'.lookup p = some none)) := by
  induction parents generalizing cache with
  | nil => exact ⟨none, cache, rfl, fun _ _ h => h, fun _ => List.forall_mem_nil _⟩
  | cons parent parents ih =>
    obtain ⟨path, cache', hrun, hstays, hnone⟩ := hfolder parent cache
    unfold pathVia
    cases path with
    | some above => exact ⟨_, cache', bind_ok hrun _, hstays, fun h => nomatch h⟩
    | none =>
      obtain ⟨path', cache'', hrun', hstays', hnone'⟩ := ih cache'
      refine ⟨path', cache'', (bind_ok hrun _).trans hrun', hstays.trans hstays', fun h => ?_⟩
      refine List.forall_mem_cons.mpr ⟨⟨(hnone rfl).1, fun hleft => ?_⟩, hnone' h⟩
      exact hstays' parent none ((hnone rfl).2 hleft)

theorem folderPath_stays (hdrive : Answers drive graph) (left : Nat) (id : Text) (cache : Cache) :
    ∃ path cache', folderPath drive root left id cache = .ok path cache' ∧ Stays cache cache' ∧
      (path = none → root.is id = false ∧ (0 < left → cache'.lookup id = some none)) := by
  induction left generalizing id cache with
  | zero =>
    unfold folderPath
    cases hid : root.is id with
    | true => exact ⟨_, cache, cached_root hid, fun _ _ h => h, fun h => nomatch h⟩
    | false =>
      cases hl : cache.lookup id with
      | some path =>
        exact ⟨path, cache, cached_hit hid hl, fun _ _ h => h, fun _ => ⟨rfl, fun h => absurd h (Nat.lt_irrefl 0)⟩⟩
      | none =>
        exact ⟨none, cache, cached_miss hid hl, fun _ _ h => h, fun _ => ⟨rfl, fun h => absurd h (Nat.lt_irrefl 0)⟩⟩
  | succ left ih =>
    unfold folderPath
    cases hid : root.is id with
    | true => exact ⟨_, cache, cached_root hid, fun _ _ h => h, fun h => nomatch h⟩
    | false =>
      cases hl : cache.lookup id with
      | some path =>
        refine ⟨path, cache, cached_hit hid hl, fun _ _ h => h, ?_⟩
        rintro rfl
        exact ⟨rfl, fun _ => hl⟩
      | none =>
        obtain ⟨name, hsearch⟩ := folderPath_search hdrive left hid hl
        obtain ⟨path, cache', hrun, hstays, -⟩ := pathVia_stays name ih (waysUp graph id) (cache.insert id none)
        refine ⟨path, cache'.insert id path, hsearch path cache' hrun, stays_insert hl hstays path, ?_⟩
        rintro rfl
        exact ⟨rfl, fun _ => AList.lookup_insert cache'⟩

/-! ## Folders that are lost -/

/-- A file in the folder. -/
def fileIn (id : Text) : DriveFile := ⟨[], [], [], none, none, none, some [id], none⟩

theorem under_fileIn {id : Text} : Under graph root (fileIn id) ↔ ∃ n < maxListDepth, Leads graph root n id := by
  constructor
  · rintro ⟨parent, hmem, h⟩
    obtain rfl := List.mem_singleton.mp hmem
    exact h
  · exact fun h => ⟨id, List.mem_singleton_self id, h⟩

/-- The query for a file in one folder looks for the folder. -/
theorem pathUnder_fileIn {id : Text} {cache cache' : Cache} {path : Option Text}
    (h : folderPath drive root maxListDepth id cache = .ok path cache') :
    pathUnder drive root (fileIn id) cache = .ok (path.map (· ++ ['/'])) cache' := by
  refine (bind_ok h _).trans ?_
  cases path with
  | none => rfl
  | some above => rfl

theorem cacheAfter_fileIn {id : Text} {cache : Cache} {path : Option Text}
    (h : folderPath drive root maxListDepth id ∅ = .ok path cache) : cacheAfter drive root [fileIn id] = cache := by
  rw [cacheAfter, List.foldl_cons, List.foldl_nil, final, pathUnder_fileIn h]

section
variable (hright : ∀ queries, FeedRight drive graph root queries)

include hright

/-- A folder within the depth is not remembered as not under the root. -/
theorem not_remembered {v u : Text} (hu : root.is u = false)
    (h : (cacheAfter drive root [fileIn v]).lookup u = some none) : ¬∃ n < maxListDepth, Leads graph root n u := by
  intro hunder
  have hquery := (hright [fileIn v, fileIn u] [fileIn v] (fileIn u) [] rfl).2
  obtain ⟨path, cache', hrun⟩ := hquery.mpr (under_fileIn.mpr hunder)
  obtain ⟨search, hsearch⟩ := folderPath_eq drive root maxListDepth u
  have hnone := pathUnder_fileIn ((congrFun hsearch _).trans (cached_hit hu h))
  rw [hrun] at hnone
  cases hnone

/-- A file in a folder that is not within the depth gets no path. -/
theorem folderPath_none {id : Text} (h : ¬∃ n < maxListDepth, Leads graph root n id) {path : Option Text}
    {cache : Cache} (hrun : folderPath drive root maxListDepth id ∅ = .ok path cache) : path = none := by
  cases path with
  | none => rfl
  | some above =>
    have hquery := (hright [fileIn id] [] (fileIn id) [] rfl).2
    exact absurd (under_fileIn.mp (hquery.mp ⟨_, cache, pathUnder_fileIn hrun⟩)) h

/-- Where every query is answered right, every folder that the root leads to is within the depth: of the
first folder that is not and its parent, one is lost. -/
theorem within_of_feedRight (hdrive : Answers drive graph) {n : Nat} {id : Text} (h : Leads graph root n id) :
    ∃ m < maxListDepth, Leads graph root m id := by
  induction h with
  | atRoot h => exact ⟨0, Nat.succ_pos _, .atRoot h⟩
  | @step id parent f n hid hf hpass hparent habove ih =>
    obtain ⟨m, hm, hleads⟩ := ih
    by_contra hdeep
    have hid' : id ≠ parent := by
      rintro rfl
      exact hdeep ⟨m, hm, hleads⟩
    have hways : parent ∈ waysUp graph id := by
      rw [waysUp, hf]
      dsimp only
      rwa [if_pos hpass]
    obtain ⟨name, hsearch⟩ := folderPath_search hdrive (maxListDepth - 1) hid (AList.lookup_empty id)
    obtain ⟨path, cache, hrun, -, hnone⟩ := pathVia_stays name (folderPath_stays hdrive (maxListDepth - 1))
      (waysUp graph id) (AList.insert id none ∅)
    have hfound := hsearch path cache hrun
    obtain rfl := folderPath_none hright hdeep hfound
    obtain ⟨hroot, hlost⟩ := hnone rfl parent hways
    refine not_remembered hright (v := id) hroot ?_ ⟨m, hm, hleads⟩
    rw [cacheAfter_fileIn hfound, AList.lookup_insert_ne hid'.symm]
    exact hlost (by decide)

end

/-- The cache of the first search: without a path, and without folders that lead to the root other than
those on the way. -/
structure Bare (graph : Graph) (root : SyncRoot) (way : List Text) (cache : Cache) : Prop where
  entries : ∀ id path, cache.lookup id = some path → path = none ∧ (id ∈ way ∨ ¬Reaches graph root id)
  onWay : ∀ id ∈ way, cache.lookup id = some none

theorem Bare.mark {way way' : List Text} {cache : Cache} {id : Text} (h : Bare graph root way cache)
    (hway : ∀ k ∈ way', k = id ∨ k ∈ way) (hsub : ∀ k ∈ way, k ∈ way') (hid : id ∈ way' ∨ ¬Reaches graph root id) :
    Bare graph root way' (cache.insert id none) where
  entries := by
    intro k path hpath
    by_cases hk : k = id
    · rw [hk, AList.lookup_insert] at hpath
      cases hpath
      exact ⟨rfl, hk ▸ hid⟩
    · rw [AList.lookup_insert_ne hk] at hpath
      exact ⟨(h.entries k path hpath).1, (h.entries k path hpath).2.imp_left (hsub k)⟩
  onWay := by
    intro k hk
    by_cases hne : k = id
    · rw [hne, AList.lookup_insert]
    · rw [AList.lookup_insert_ne hne]
      exact h.onWay k ((hway k hk).resolve_left hne)

/-- A folder that leads to the root is not in a bare cache before the search comes to it. -/
theorem Bare.lookup_none {way : List Text} {id : Text} {cache : Cache} (h : Bare graph root way cache)
    (hway : id ∉ way) (hreach : Reaches graph root id) : cache.lookup id = none := by
  rw [Option.eq_none_iff_forall_not_mem]
  intro path hpath
  rcases (h.entries id path hpath).2 with hmem | hnot
  · exact hway hmem
  · exact hnot hreach

/-- Looking for folders that do not lead to the root finds nothing and leaves the cache bare. -/
theorem bare_pathVia {left : Nat} {way : List Text} (name : Text)
    (hfolder : ∀ id cache, Bare graph root way cache → ¬Reaches graph root id →
      ∃ cache', folderPath drive root left id cache = .ok none cache' ∧ Bare graph root way cache')
    {parents : List Text} (hparents : ∀ p ∈ parents, ¬Reaches graph root p) {cache : Cache}
    (hbare : Bare graph root way cache) :
    ∃ cache', pathVia (folderPath drive root left) name parents cache = .ok none cache' ∧
      Bare graph root way cache' := by
  induction parents generalizing cache with
  | nil => exact ⟨cache, rfl, hbare⟩
  | cons parent parents ih =>
    obtain ⟨cache', hrun, hbare'⟩ := hfolder parent cache hbare (hparents parent List.mem_cons_self)
    obtain ⟨cache'', hrun', hbare''⟩ := ih (fun p hp => hparents p (List.mem_cons_of_mem parent hp)) hbare'
    exact ⟨cache'', (bind_ok hrun _).trans hrun', hbare''⟩

theorem bare_folderPath (hdrive : Answers drive graph) (left : Nat) {way : List Text} {id : Text} {cache : Cache}
    (hbare : Bare graph root way cache) (hid : ¬Reaches graph root id) :
    ∃ cache', folderPath drive root left id cache = .ok none cache' ∧ Bare graph root way cache' := by
  have hroot : root.is id = false := by
    cases h : root.is id with
    | false => rfl
    | true => exact absurd (.of_root h) hid
  induction left generalizing id cache with
  | zero =>
    unfold folderPath
    cases hl : cache.lookup id with
    | some path =>
      obtain rfl := (hbare.entries id path hl).1
      exact ⟨cache, cached_hit hroot hl, hbare⟩
    | none => exact ⟨cache, cached_miss hroot hl, hbare⟩
  | succ left ih =>
    cases hl : cache.lookup id with
    | some path =>
      obtain rfl := (hbare.entries id path hl).1
      exact ⟨cache, cached_hit hroot hl, hbare⟩
    | none =>
      have hways : ∀ p ∈ waysUp graph id, ¬Reaches graph root p := fun p hp hreach =>
        hid ((reaches_iff_waysUp hroot).mpr ⟨p, hp, hreach⟩)
      obtain ⟨name, hsearch⟩ := folderPath_search hdrive left hroot hl
      have hmark : Bare graph root way (cache.insert id none) :=
        hbare.mark (fun _ => Or.inr) (fun _ h => h) (Or.inr hid)
      obtain ⟨cache', hrun, hbare'⟩ := bare_pathVia name (fun k c hc hk => ih hc hk (by
        cases h : root.is k with
        | false => rfl
        | true => exact absurd (.of_root h) hk)) hways hmark
      exact ⟨_, hsearch none cache' hrun, hbare'.mark (fun _ => Or.inr) (fun _ h => h) (Or.inr hid)⟩

/-- A folder that leads to the root is remembered as one that does not. -/
def Loses (graph : Graph) (root : SyncRoot) (way : List Text) (cache : Cache) : Prop :=
  ∃ id, id ∉ way ∧ root.is id = false ∧ Reaches graph root id ∧ cache.lookup id = some none

theorem Loses.stays {way : List Text} {cache cache' : Cache} (h : Loses graph root way cache)
    (hstays : Stays cache cache') : Loses graph root way cache' := by
  obtain ⟨id, hway, hid, hreach, hnone⟩ := h
  exact ⟨id, hway, hid, hreach, hstays id none hnone⟩

/-- A parent that a walk cannot go on to is not found. -/
theorem folderPath_closed (hdrive : Answers drive graph) (left : Nat) {way : List Text} {id : Text} {cache : Cache}
    (hbare : Bare graph root way cache) (hclosed : ¬Open graph root left way id) :
    ∃ cache', folderPath drive root left id cache = .ok none cache' ∧ Bare graph root way cache' := by
  have hroot : root.is id = false := by
    cases h : root.is id with
    | false => rfl
    | true => exact absurd (Or.inl h) hclosed
  by_cases hreach : Reaches graph root id
  · by_cases hway : id ∈ way
    · obtain ⟨search, hsearch⟩ := folderPath_eq drive root left id
      exact ⟨cache, (congrFun hsearch cache).trans (cached_hit hroot (hbare.onWay id hway)), hbare⟩
    · have hleft : left = 0 := by
        by_contra hne
        exact hclosed (Or.inr ⟨Nat.pos_of_ne_zero hne, hreach, hway⟩)
      subst hleft
      exact ⟨cache, cached_miss hroot (hbare.lookup_none hway hreach), hbare⟩
  · exact bare_folderPath hdrive left hbare hreach

/-- A search by parents none of which the walk can go on from finds nothing, or loses a folder. -/
theorem loses_pathVia (hdrive : Answers drive graph) {left : Nat} {way : List Text} (name : Text)
    (hfolder : ∀ id cache, Bare graph root way cache → id ∉ way → root.is id = false → Reaches graph root id →
      0 < left → ¬Walk graph root left way id →
        ∃ path cache', folderPath drive root left id cache = .ok path cache' ∧ Loses graph root way cache')
    (parents : List Text) {cache : Cache} (hbare : Bare graph root way cache)
    (hfirst : ∀ before parent after, parents = before ++ parent :: after →
      (∀ p ∈ before, ¬Open graph root left way p) → Open graph root left way parent →
        ¬Walk graph root left way parent) :
    ∃ path cache', pathVia (folderPath drive root left) name parents cache = .ok path cache' ∧
      (path = none ∨ Loses graph root way cache') := by
  induction parents generalizing cache with
  | nil => exact ⟨none, cache, rfl, Or.inl rfl⟩
  | cons parent parents ih =>
    by_cases hopen : Open graph root left way parent
    · have hwalk := hfirst [] parent parents rfl (List.forall_mem_nil _) hopen
      have hroot : root.is parent = false := by
        cases h : root.is parent with
        | false => rfl
        | true => exact absurd (.atRoot h) hwalk
      rcases hopen with h | ⟨hleft, hreach, hway⟩
      · rw [hroot] at h
        cases h
      · obtain ⟨path, cache', hrun, hloses⟩ := hfolder parent cache hbare hway hroot hreach hleft hwalk
        unfold pathVia
        cases path with
        | some above => exact ⟨_, cache', bind_ok hrun _, Or.inr hloses⟩
        | none =>
          obtain ⟨path', cache'', hrun', hstays, -⟩ := pathVia_stays name (folderPath_stays hdrive left) parents cache'
          exact ⟨path', cache'', (bind_ok hrun _).trans hrun', Or.inr (hloses.stays hstays)⟩
    · obtain ⟨cache', hrun, hbare'⟩ := folderPath_closed hdrive left hbare hopen
      have hrest : ∀ before p after, parents = before ++ p :: after → (∀ q ∈ before, ¬Open graph root left way q) →
          Open graph root left way p → ¬Walk graph root left way p := by
        intro before p after hparents hbefore
        exact hfirst (parent :: before) p after (by rw [hparents]; rfl) (List.forall_mem_cons.mpr ⟨hopen, hbefore⟩)
      obtain ⟨path, cache'', hrun', hloses⟩ := ih hbare' hrest
      exact ⟨path, cache'', (bind_ok hrun _).trans hrun', hloses⟩

/-- Where the walk does not come to the root, a folder is lost. -/
theorem loses_folderPath (hdrive : Answers drive graph) {left : Nat} (hleft : 0 < left) {way : List Text} {id : Text}
    {cache : Cache} (hbare : Bare graph root way cache) (hway : id ∉ way) (hid : root.is id = false)
    (hreach : Reaches graph root id) (hwalk : ¬Walk graph root left way id) :
    ∃ path cache', folderPath drive root left id cache = .ok path cache' ∧ Loses graph root way cache' := by
  induction left generalizing way id cache with
  | zero => exact absurd hleft (Nat.lt_irrefl 0)
  | succ left ih =>
    have hfirst : ∀ before parent after, waysUp graph id = before ++ parent :: after →
        (∀ p ∈ before, ¬Open graph root left (id :: way) p) → Open graph root left (id :: way) parent →
          ¬Walk graph root left (id :: way) parent := by
      intro before parent after hways hbefore hopen habove
      exact hwalk ((walk_succ hid).mpr ⟨before, parent, after, hways, hbefore, hopen, habove⟩)
    have hmark : Bare graph root (id :: way) (cache.insert id none) :=
      hbare.mark (fun _ => List.mem_cons.mp) (fun _ => List.mem_cons_of_mem id) (Or.inl List.mem_cons_self)
    obtain ⟨name, hsearch⟩ := folderPath_search hdrive left hid (hbare.lookup_none hway hreach)
    obtain ⟨path, cache', hrun, hloses⟩ := loses_pathVia hdrive name
      (fun k c hc hk hroot hr hpos hw => ih hpos hc hk hroot hr hw) (waysUp graph id) hmark hfirst
    refine ⟨path, cache'.insert id path, hsearch path cache' hrun, ?_⟩
    rcases hloses with rfl | ⟨k, hk, hroot, hreach', hnone⟩
    · exact ⟨id, hway, hid, hreach, AList.lookup_insert cache'⟩
    · rw [List.mem_cons, not_or] at hk
      refine ⟨k, hk.2, hroot, hreach', ?_⟩
      rw [AList.lookup_insert_ne hk.1]
      exact hnone

theorem bare_empty : Bare graph root [] ∅ where
  entries := fun _ _ h => nomatch h
  onWay := List.forall_mem_nil _

/-- Where every query is answered right, the walk from every folder comes to the root. -/
theorem walk_of_feedRight (hdrive : Answers drive graph) (hright : ∀ queries, FeedRight drive graph root queries)
    {id : Text} (hreach : Reaches graph root id) : Walk graph root maxListDepth [] id := by
  by_contra hwalk
  have hid : root.is id = false := by
    cases h : root.is id with
    | false => rfl
    | true => exact absurd (.atRoot h) hwalk
  obtain ⟨path, cache, hrun, k, -, hk, ⟨n, hleads⟩, hnone⟩ :=
    loses_folderPath hdrive (Nat.succ_pos _) bare_empty List.not_mem_nil hid hreach hwalk
  refine not_remembered hright (v := id) hk ?_ (within_of_feedRight hright hdrive hleads)
  rw [cacheAfter_fileIn hrun]
  exact hnone

/-- For every graph of folders and every sync root: every sequence of queries is answered as on an empty
cache, each with a path if and only if a chain of folders within the depth of the listing leads to the
file, exactly when every folder that the root leads to is within the depth and the walk from it comes to
the root. -/
theorem feed_right_iff_walkable (drive : Drive) (graph : Graph) (root : SyncRoot) (hdrive : Answers drive graph) :
    (∀ queries, FeedRight drive graph root queries) ↔ Walkable graph root := by
  constructor
  · intro hright id hreach
    obtain ⟨n, hleads⟩ := hreach
    exact ⟨within_of_feedRight hright hdrive hleads, walk_of_feedRight hdrive hright ⟨n, hleads⟩⟩
  · exact fun h queries => h.feedRight hdrive queries

/-! ## A page of the feed -/

/-- The changed files with the paths they got. -/
def placed (drive : Drive) (files : List DriveFile) (answers : List (Option Text)) : List CloudFile :=
  (files.zip answers).flatMap fun p => (p.2.map (p.1.toCloudFile drive)).toList

/-- The file has a safe name and is under the root. -/
def Listable (graph : Graph) (root : SyncRoot) (f : DriveFile) : Prop := isSafeName f.name = true ∧ Under graph root f

theorem Walkable.placeChanges (hdrive : Answers drive graph) (h : Walkable graph root) (files : List DriveFile)
    {cache : Cache} (hfits : Fits graph root [] cache) :
    ∃ answers cache', placeChanges drive root files cache = .ok (placed drive files answers) cache' ∧
      List.Forall₂ (fun f (path : Option Text) => path.isSome = true ↔ Listable graph root f) files answers := by
  induction files generalizing cache with
  | nil => exact ⟨[], cache, rfl, .nil⟩
  | cons f files ih =>
    unfold GoogleDrive.placeChanges
    cases hname : isSafeName f.name with
    | false =>
      obtain ⟨answers, cache', hrun, hanswers⟩ := ih hfits
      refine ⟨none :: answers, cache', hrun, .cons (iff_of_false Bool.false_ne_true ?_) hanswers⟩
      rintro ⟨hsafe, -⟩
      rw [hname] at hsafe
      cases hsafe
    | true =>
      obtain ⟨path, cache', hrun, hpath, hfits'⟩ := h.pathUnder hdrive f hfits
      obtain ⟨answers, cache'', hrun', hanswers⟩ := ih hfits'
      refine ⟨path :: answers, cache'', ?_, .cons (hpath.trans ?_) hanswers⟩
      · rw [Bool.not_true, if_neg Bool.false_ne_true, bind_ok hrun, bind_ok hrun']
        rfl
      · exact ⟨fun hunder => ⟨hname, hunder⟩, fun hlist => hlist.2⟩

/-- On a walkable graph a page of the feed gives a path to exactly those of its files that have a safe name
and are under the root. -/
theorem Walkable.getChangesIn (hdrive : Answers drive graph) (h : Walkable graph root) {folder : Option Text}
    {cursor : Text} {page : ChangesResponse} (hroot : syncRoot drive folder = .ok root)
    (hpage : drive.changes cursor = .ok page) :
    ∃ answers, getChangesIn drive folder (some cursor) = .ok (placed drive page.live answers, page.nextCursor) ∧
      List.Forall₂ (fun f (path : Option Text) => path.isSome = true ↔ Listable graph root f) page.live answers := by
  obtain ⟨answers, cache', hrun, hanswers⟩ := h.placeChanges hdrive page.live fits_empty
  refine ⟨answers, ?_, hanswers⟩
  unfold GoogleDrive.getChangesIn
  dsimp only
  rw [hpage]
  show (if page.live.isEmpty then _ else _) = _
  split
  next hempty =>
    rw [List.isEmpty_iff] at hempty
    rw [hempty]
    rfl
  · rw [hroot]
    simp only [bind, Except.bind]
    rw [hrun]
    rfl

/-! ## The listing -/

/-- Drive lists in a folder only items that have it as a parent and are not in the trash; one that is a
folder is the folder of its id. The alias of the root stands for the root. -/
structure Lists (drive : Drive) (graph : Graph) (root : SyncRoot) : Prop where
  parent : ∀ n id files, listQuery drive n (childrenQuery id) = some (.ok files) → ∀ f ∈ files,
    ∃ p ∈ f.parentIds, p = id ∨ root.is p = true ∧ root.is id = true
  live : ∀ n id files, listQuery drive n (childrenQuery id) = some (.ok files) → ∀ f ∈ files, f.isTrashed = false
  folder : ∀ n id files, listQuery drive n (childrenQuery id) = some (.ok files) → ∀ f ∈ files,
    f.isFolder = true → graph f.id = some f

/-- The folder is at the end of a chain of as many folders as its depth says, and the depth is within
the bound. -/
def Pending.Deep (graph : Graph) (root : SyncRoot) (p : Pending) : Prop :=
  p.depth < maxListDepth ∧ ∃ n ≤ p.depth, Leads graph root n p.folder

/-- What is listed is under the root. -/
def ListsUnder (drive : Drive) (graph : Graph) (root : SyncRoot) (l : Listing) : Prop :=
  ∀ c ∈ l.out, ∃ f path, c = f.toCloudFile drive path ∧ Listable graph root f

theorem see_out {l l' : Listing} {f : DriveFile} (h : l.see f = some l') : l'.out = l.out := by
  unfold Listing.see at h
  split at h
  · split at h
    · cases h
    · cases h
      rfl
  · split at h
    · cases h
    · cases h
      rfl

theorem listItem_under {above : Pending} {l : Listing} {f : DriveFile} (habove : Pending.Deep graph root above)
    (hparent : ∃ p ∈ f.parentIds, p = above.folder ∨ root.is p = true ∧ root.is above.folder = true)
    (hlive : f.isTrashed = false) (hfolder : f.isFolder = true → graph f.id = some f)
    (hl : ListsUnder drive graph root l) :
    ListsUnder drive graph root (listItem drive above l f).1 ∧
      ∀ p ∈ (listItem drive above l f).2, Pending.Deep graph root p := by
  obtain ⟨hdepth, n, hn, hleads⟩ := habove
  obtain ⟨parent, hmem, hparent⟩ := hparent
  obtain ⟨m, hm, hleads⟩ : ∃ m ≤ above.depth, Leads graph root m parent := by
    rcases hparent with rfl | ⟨hroot, -⟩
    · exact ⟨n, hn, hleads⟩
    · exact ⟨0, Nat.zero_le _, .atRoot hroot⟩
  unfold listItem
  dsimp only
  split
  · exact ⟨hl, fun _ hp => nomatch hp⟩
  next hsafe =>
    have hname : isSafeName f.name = true := by simpa using hsafe
    split
    · exact ⟨hl, fun _ hp => nomatch hp⟩
    next l' hsee =>
      have hl' : ListsUnder drive graph root l' := by
        unfold ListsUnder
        rw [see_out hsee]
        exact hl
      split
      · exact ⟨hl', fun _ hp => nomatch hp⟩
      · constructor
        · intro c hc
          rcases List.mem_append.mp hc with hc | hc
          · exact hl' c hc
          · rw [List.mem_singleton.mp hc]
            exact ⟨f, _, rfl, hname, parent, hmem, m, by omega, hleads⟩
        · intro p hp
          dsimp only at hp
          split at hp
          next hdeep =>
            cases hp
            simp only [Bool.and_eq_true, decide_eq_true_eq] at hdeep
            refine ⟨hdeep.2, ?_⟩
            cases hid : root.is f.id with
            | true => exact ⟨0, Nat.zero_le _, .atRoot hid⟩
            | false =>
              refine ⟨m + 1, Nat.succ_le_succ hm, .step hid (hfolder hdeep.1) ?_ hmem hleads⟩
              rw [DriveFile.passable, hlive, hname]
              rfl
          · cases hp

theorem listItems_under {above : Pending} (habove : Pending.Deep graph root above) {files : List DriveFile}
    (hfiles : ∀ f ∈ files, (∃ p ∈ f.parentIds, p = above.folder ∨ root.is p = true ∧ root.is above.folder = true) ∧
      f.isTrashed = false ∧ (f.isFolder = true → graph f.id = some f)) {l : Listing}
    (hl : ListsUnder drive graph root l) :
    ListsUnder drive graph root (listItems drive above l files).1 ∧
      ∀ p ∈ (listItems drive above l files).2, Pending.Deep graph root p := by
  induction files generalizing l with
  | nil => exact ⟨hl, fun _ hp => nomatch hp⟩
  | cons f files ih =>
    obtain ⟨hparent, hlive, hfolder⟩ := hfiles f List.mem_cons_self
    have hitem := listItem_under habove hparent hlive hfolder hl
    have hrest := ih (fun g hg => hfiles g (List.mem_cons_of_mem f hg)) hitem.1
    refine ⟨hrest.1, fun p hp => ?_⟩
    rcases List.mem_append.mp hp with hp | hp
    · exact hitem.2 p (Option.mem_toList.mp hp)
    · exact hrest.2 p hp

/-- Everything listed has a safe name and a chain of folders within the depth. -/
theorem listed_under {folder : Option Text} (hroot : syncRoot drive folder = .ok root)
    (hdrive : Lists drive graph root) {n : Nat} {out : List CloudFile}
    (hlist : listFiles drive n folder = some (.ok out)) :
    ∀ c ∈ out, ∃ f path, c = f.toCloudFile drive path ∧ Listable graph root f := by
  have hstart : root.is (folder.getD rootAlias) = true := by
    unfold syncRoot at hroot
    cases folder with
    | none =>
      obtain ⟨real, -, rfl⟩ := RustText.map_eq_ok.mp hroot
      simp [SyncRoot.is]
    | some id =>
      dsimp only at hroot
      split at hroot
      · cases hroot
        simp [SyncRoot.is]
      next hid =>
        obtain ⟨real, -, rfl⟩ := RustText.map_eq_ok.mp hroot
        have hsame : id = rootAlias := by simpa using hid
        rw [hsame, Option.getD_some, SyncRoot.is, beq_self_eq_true, Bool.true_or]
  unfold listFiles at hlist
  dsimp only at hlist
  split at hlist
  · cases hlist
  · obtain ⟨r, hrun, hr⟩ := Option.map_eq_some_iff.mp hlist
    obtain ⟨l, rfl, rfl⟩ := RustText.map_eq_ok.mp hr
    let inv (l : Listing) (queue : List Pending) : Prop :=
      ListsUnder drive graph root l ∧ ∀ p ∈ queue, Pending.Deep graph root p
    have hstep : ∀ l p queue l' found, inv l (p :: queue) → listFolder drive n l p = some (.ok (l', found)) →
        inv l' (queue ++ found) := by
      rintro l p queue l' found ⟨hl, hqueue⟩ hstep
      obtain ⟨r, hfiles, hr⟩ := Option.map_eq_some_iff.mp hstep
      obtain ⟨files, rfl, hitems⟩ := RustText.map_eq_ok.mp hr
      have hall : ListsUnder drive graph root (listItems drive p l files).1 ∧ _ :=
        listItems_under (hqueue p List.mem_cons_self) (fun f hf => ⟨hdrive.parent _ _ _ hfiles f hf,
          hdrive.live _ _ _ hfiles f hf, hdrive.folder _ _ _ hfiles f hf⟩) hl
      rw [hitems] at hall
      refine ⟨hall.1, fun q hq => ?_⟩
      rcases List.mem_append.mp hq with hq | hq
      · exact hqueue q (List.mem_cons_of_mem p hq)
      · exact hall.2 q hq
    have hinit : inv ⟨[folder.getD rootAlias], [], [], []⟩ [⟨folder.getD rootAlias, [], 0⟩] := by
      refine ⟨List.forall_mem_nil _, fun p hp => ?_⟩
      rw [List.mem_singleton.mp hp]
      exact ⟨Nat.zero_lt_succ _, 0, Nat.le_refl 0, .atRoot hstart⟩
    exact (Worklist.run_invariant hstep hinit hrun).1

end

/-! ## Folders above each other -/

/-- A folder or file with its parents. -/
def named (name : String) (parents : List String) : DriveFile :=
  ⟨name.toList, name.toList, folderMime, none, none, none, some (parents.map String.toList), none⟩

/-- The folder `A` is in the root and in `B`, and `B` is in `A`. -/
def loopGraph (parentsOfA : List String) : Graph := fun id =>
  if id = "A".toList then some (named "A" parentsOfA)
  else if id = "B".toList then some (named "B" ["A"])
  else none

def loopDrive (parentsOfA : List String) : Drive where
  folderMeta := fun id => .ok (loopGraph parentsOfA id)
  rootId := .ok "r".toList
  listPage := fun _ _ => .ok ([], none)
  startPageToken := .ok []
  changes := fun _ => .ok ⟨[], none, none⟩
  parseTime := fun _ => none
  debugText := id

def loopRoot : SyncRoot := ⟨"r".toList, none⟩

theorem passable_named {name : String} (hname : isSafeName name.toList = true) (parents : List String) :
    (named name parents).passable = true := by
  rw [DriveFile.passable, named, DriveFile.isTrashed, hname]
  rfl

theorem leads_loopA {parentsOfA : List String} (h : "r" ∈ parentsOfA) :
    Leads (loopGraph parentsOfA) loopRoot 1 "A".toList := by
  have hroot : Leads (loopGraph parentsOfA) loopRoot 0 "r".toList := .atRoot (by decide)
  exact .step (by decide) rfl (passable_named (by decide +kernel) parentsOfA) (List.mem_map_of_mem h) hroot

theorem leads_loopB {parentsOfA : List String} (h : "r" ∈ parentsOfA) :
    Leads (loopGraph parentsOfA) loopRoot 2 "B".toList :=
  .step (by decide) rfl (passable_named (by decide +kernel) ["A"]) List.mem_cons_self (leads_loopA h)

/-- With `B` as the first parent of `A`, a file of `A` comes first and `B` is looked for on the way: it is
remembered as not under the root, and its file gets no path. -/
theorem folder_in_the_loop_is_lost :
    ¬∀ (drive : Drive) (graph : Graph) (root : SyncRoot) (queries : List DriveFile), Answers drive graph →
      FeedRight drive graph root queries := by
  intro h
  have hright := h (loopDrive ["B", "r"]) (loopGraph ["B", "r"]) loopRoot [named "x" ["A"], named "y" ["B"]]
    (fun _ => rfl) [named "x" ["A"]] (named "y" ["B"]) [] rfl
  have hunder : Under (loopGraph ["B", "r"]) loopRoot (named "y" ["B"]) :=
    ⟨"B".toList, List.mem_cons_self, 2, by decide, leads_loopB (by decide)⟩
  obtain ⟨path, cache, hrun⟩ := hright.2.mpr hunder
  have hnone : (match pathUnder (loopDrive ["B", "r"]) loopRoot (named "y" ["B"])
      (cacheAfter (loopDrive ["B", "r"]) loopRoot [named "x" ["A"]]) with
    | .ok path _ => path.isSome
    | .error _ _ => false) = false := by decide +kernel
  rw [hrun] at hnone
  cases hnone

/-- With the root as the first parent of `A`, the walk from both folders comes to the root. -/
theorem walkable_loop : Walkable (loopGraph ["r", "B"]) loopRoot := by
  have hA : ∀ left way, Walk (loopGraph ["r", "B"]) loopRoot (left + 1) way "A".toList := fun left way =>
    .step (by decide) rfl (passable_named (by decide +kernel) ["r", "B"]) (List.nil_append _).symm
      (List.forall_mem_nil _) (Or.inl (by decide)) (.atRoot (by decide))
  have hB : Walk (loopGraph ["r", "B"]) loopRoot maxListDepth [] "B".toList :=
    .step (by decide) rfl (passable_named (by decide +kernel) ["A"]) (List.nil_append _).symm (List.forall_mem_nil _)
      (Or.inr ⟨by decide, ⟨1, leads_loopA (by decide)⟩, by decide⟩) (hA _ _)
  rintro id ⟨n, hleads⟩
  cases hleads with
  | atRoot h => exact ⟨⟨0, by decide, .atRoot h⟩, .atRoot h⟩
  | step _ hf =>
    unfold loopGraph at hf
    split at hf
    next hid =>
      rw [hid]
      exact ⟨⟨1, by decide, leads_loopA (by decide)⟩, hA _ _⟩
    · split at hf
      next hid =>
        rw [hid]
        exact ⟨⟨2, by decide, leads_loopB (by decide)⟩, hB⟩
      · cases hf

/-- There the file of `B` is found after the file of `A`. -/
theorem folder_beside_the_loop_is_found :
    Answered (loopDrive ["r", "B"]) loopRoot (named "y" ["B"])
      (cacheAfter (loopDrive ["r", "B"]) loopRoot [named "x" ["A"]]) := by
  have hright := (feed_right_iff_walkable (loopDrive ["r", "B"]) (loopGraph ["r", "B"]) loopRoot fun _ => rfl).mpr
    walkable_loop [named "x" ["A"], named "y" ["B"]]
  exact (hright [named "x" ["A"]] (named "y" ["B"]) [] rfl).2.mpr
    ⟨"B".toList, List.mem_cons_self, 2, by decide, leads_loopB (by decide)⟩

end DriveFeed
