import RemarkableServer.OneDriveListing

/-!
# The OneDrive change feed and the OneDrive listing agree

The feed keeps the last occurrence of each changed item and shows those that have
a path below the sync root. The listing shows every item that has one. So what the
feed shows is what the listing shows of the changed items, in whatever order they
came and however often.
-/
namespace OneDriveAgreement

open RustText Integrations CloudPaths OneDrive OneDriveTree OneDriveListing Effect

variable {graph : Graph} {t : DriveTree} {rid : Text} {pages : Nat}

/-! ## The latest items -/

/-- The item is the last one with its id. -/
def IsLast (all : List DriveItem) (i : DriveItem) : Prop :=
  ∃ before after, all = before ++ i :: after ∧ ∀ j ∈ after, j.id ≠ i.id

/-- What has been gathered of the items so far. -/
structure Gathered (all : List DriveItem) (l : Latest) : Prop where
  latest : ∀ id i, l.latest.lookup id = some i → i.id = id ∧ IsLast all i
  order : ∀ i ∈ all, i.id ∈ l.order ∧ (l.latest.lookup i.id).isSome = true

theorem Gathered.add {all : List DriveItem} {l : Latest} (h : Gathered all l) (i : DriveItem) :
    Gathered (all ++ [i]) (l.add i) where
  latest := by
    intro id j hj
    unfold Latest.add at hj
    by_cases hid : id = i.id
    · rw [hid, AList.lookup_insert] at hj
      cases hj
      exact ⟨hid.symm, all, [], rfl, List.forall_mem_nil _⟩
    · rw [AList.lookup_insert_ne hid] at hj
      obtain ⟨rfl, before, after, rfl, hafter⟩ := h.latest id j hj
      refine ⟨rfl, before, after ++ [i], by simp, fun k hk => ?_⟩
      rcases List.mem_append.mp hk with hk | hk
      · exact hafter k hk
      · rw [List.mem_singleton.mp hk]
        exact fun hsame => hid hsame.symm
  order := by
    intro j hj
    unfold Latest.add
    dsimp only
    rcases List.mem_append.mp hj with hj | hj
    · obtain ⟨horder, hsome⟩ := h.order j hj
      constructor
      · split
        · exact horder
        · exact List.mem_append_left _ horder
      · by_cases hid : j.id = i.id
        · rw [hid, AList.lookup_insert]
          rfl
        · rw [AList.lookup_insert_ne hid]
          exact hsome
    · obtain rfl := List.mem_singleton.mp hj
      constructor
      · split
        next hsome =>
          obtain ⟨k, hk⟩ := Option.isSome_iff_exists.mp hsome
          obtain ⟨hid, before, after, rfl, -⟩ := h.latest _ k hk
          rw [← hid]
          exact (h.order k (List.mem_append_right _ List.mem_cons_self)).1
        · exact List.mem_append_right _ (List.mem_singleton_self _)
      · rw [AList.lookup_insert]
        rfl

theorem gathered_foldl (all : List DriveItem) : Gathered all (all.foldl Latest.add ⟨∅, []⟩) := by
  induction all using List.reverseRecOn with
  | nil => exact ⟨(fun _ _ h => nomatch h), List.forall_mem_nil _⟩
  | append_singleton all i ih =>
    rw [List.foldl_append]
    exact ih.add i

/-- The latest items are last occurrences. -/
theorem isLast_of_mem {all : List DriveItem} {i : DriveItem} (h : i ∈ latestItems all) : IsLast all i := by
  obtain ⟨id, -, hid⟩ := List.mem_filterMap.mp h
  exact ((gathered_foldl all).latest id i hid).2

/-- Every item has a latest one. -/
theorem exists_latest {all : List DriveItem} {i : DriveItem} (h : i ∈ all) : ∃ j ∈ latestItems all, j.id = i.id := by
  obtain ⟨horder, hsome⟩ := (gathered_foldl all).order i h
  obtain ⟨j, hj⟩ := Option.isSome_iff_exists.mp hsome
  exact ⟨j, List.mem_filterMap.mpr ⟨i.id, horder, hj⟩, ((gathered_foldl all).latest i.id j hj).1⟩

theorem IsLast.mem {all : List DriveItem} {i : DriveItem} (h : IsLast all i) : i ∈ all := by
  obtain ⟨before, after, rfl, -⟩ := h
  exact List.mem_append_right _ List.mem_cons_self

/-- What the feed knows of folders comes from its items. -/
theorem feedFolders_lookup {items : List DriveItem} {id : Text} {info : Option FolderInfo}
    (h : (feedFolders items).lookup id = some info) : ∃ i ∈ items, i.id = id ∧ info = some (.of i) := by
  have hfold : ∀ (js : List DriveItem) (folders : AList fun _ : Text => Option FolderInfo),
      (∀ info, folders.lookup id = some info → ∃ i ∈ items, i.id = id ∧ info = some (.of i)) →
      (∀ j ∈ js, j ∈ items) → ∀ info, (js.foldl (fun folders i => folders.insert i.id (some (.of i))) folders).lookup id =
        some info → ∃ i ∈ items, i.id = id ∧ info = some (.of i) := by
    intro js
    induction js with
    | nil => exact fun _ h _ => h
    | cons j js ih =>
      intro folders hfolders hjs
      refine ih _ (fun info hinfo => ?_) fun k hk => hjs k (List.mem_cons_of_mem j hk)
      by_cases hid : id = j.id
      · rw [hid, AList.lookup_insert] at hinfo
        cases hinfo
        exact ⟨j, hjs j List.mem_cons_self, hid.symm, rfl⟩
      · rw [AList.lookup_insert_ne hid] at hinfo
        exact hfolders info hinfo
  exact hfold _ ∅ (fun _ h => nomatch h) (fun j hj => (List.mem_filter.mp hj).1) info h

/-! ## The feed -/

theorem mem_firstAtPath {files : List CloudFile} (hpaths : ∀ c ∈ files, ∀ d ∈ files, c.path = d.path → c = d)
    (seen : List Text) (c : CloudFile) : c ∈ firstAtPath seen files ↔ c ∈ files ∧ c.path ∉ seen := by
  induction files generalizing seen with
  | nil => simp [firstAtPath]
  | cons f files ih =>
    have hrest := fun c hc d hd => hpaths c (List.mem_cons_of_mem f hc) d (List.mem_cons_of_mem f hd)
    have hsame : c ∈ files → c.path = f.path → c = f := fun hc hpath =>
      hpaths c (List.mem_cons_of_mem f hc) f List.mem_cons_self hpath
    unfold firstAtPath
    split
    next hany =>
      have hseen : f.path ∈ seen := by simpa using hany
      rw [ih hrest, List.mem_cons]
      constructor
      · exact fun h => ⟨Or.inr h.1, h.2⟩
      · rintro ⟨rfl | hc, hpath⟩
        · exact absurd hseen hpath
        · exact ⟨hc, hpath⟩
    next hany =>
      have hseen : f.path ∉ seen := by simpa using hany
      rw [List.mem_cons, ih hrest, List.mem_cons, List.mem_cons, not_or]
      constructor
      · rintro (rfl | ⟨hc, hpath⟩)
        · exact ⟨Or.inl rfl, hseen⟩
        · exact ⟨Or.inr hc, hpath.2⟩
      · rintro ⟨rfl | hc, hpath⟩
        · exact Or.inl rfl
        · by_cases hf : c.path = f.path
          · exact Or.inl (hsame hc hf)
          · exact Or.inr ⟨hc, hf, hpath⟩

/-- Live files at different paths are all kept. -/
theorem mem_orderChanges {files : List CloudFile} (hlive : ∀ c ∈ files, c.deleted = false)
    (hpaths : ∀ c ∈ files, ∀ d ∈ files, c.path = d.path → c = d) (c : CloudFile) :
    c ∈ orderChanges files ↔ c ∈ files := by
  have hnone : files.filter (·.deleted) = [] := by
    rw [List.filter_eq_nil_iff]
    intro d hd hdel
    rw [hlive d hd] at hdel
    cases hdel
  have hall : files.filter (!·.deleted) = files := by
    rw [List.filter_eq_self]
    intro d hd
    rw [hlive d hd]
    rfl
  unfold orderChanges
  dsimp only
  rw [hnone, hall, firstAtPath, List.nil_append, mem_firstAtPath hpaths]
  simp

theorem shown_id {i : DriveItem} {c : CloudFile} (h : Shown graph t rid i c) : i.id = c.id := by
  obtain ⟨-, -, -, -, -, -, rfl⟩ := h
  rfl

/-- Two items that are shown at one path are the same. -/
theorem shown_of_path {i j : DriveItem} {c d : CloudFile} (hc : Shown graph t rid i c) (hd : Shown graph t rid j d)
    (h : c.path = d.path) : i = j ∧ c = d := by
  obtain ⟨hi, -, n, -, path, hplaced, rfl⟩ := hc
  obtain ⟨hj, -, m, -, path', hplaced', rfl⟩ := hd
  have hpath : path = path' := h
  subst hpath
  obtain rfl := t.distinct i hi j hj (hplaced.injective hplaced')
  exact ⟨rfl, rfl⟩

/-- The feed shows the changed items that have a path. -/
theorem getChangesIn_shown (folder : Option Text) {cursor next : Text} {all : List DriveItem} {k n : Nat}
    (hgraph : ∀ i ∈ t.items, graph.item i.id = .ok i) (hcursor : graph.onGraph cursor = true)
    (hserved : Paging.Served (deltaStep graph) (graphLink graph) next k [cursor] cursor all) (hn : k ≤ n)
    (hall : ∀ i, IsLast all i → i ∈ t.items) :
    ∃ feed, getChangesIn graph n folder (some cursor) = some (.ok (feed, some next)) ∧
      ∀ c, c ∈ feed ↔ ∃ i ∈ latestItems all, Shown graph t (t.rootId (.of folder)) i c := by
  have hitems : ∀ i ∈ latestItems all, i ∈ t.items := fun i hi => hall i (isLast_of_mem hi)
  have hmemo : Right t (t.rootId (.of folder)) ⟨feedFolders (latestItems all), ∅⟩ := by
    refine ⟨fun i hi info hinfo => ?_, fun _ _ h => nomatch h⟩
    obtain ⟨j, hj, hid, rfl⟩ := feedFolders_lookup hinfo
    rw [t.distinct j (hitems j hj) i hi hid]
  obtain ⟨files, memo', hrun, hfiles⟩ := placeItems_right hgraph hitems hmemo
  have hdelta : deltaAll graph n cursor = some (.ok (all, next)) := by
    have hcollect := Paging.collect_served (fun next => IntegrationError.api
      ("Graph returned repeated delta nextLink ".toList ++ graph.debugText next)) hserved hn []
    exact hcollect
  refine ⟨orderChanges files, ?_, fun c => ?_⟩
  · unfold getChangesIn
    dsimp only
    rw [hcursor, Bool.not_true, if_neg Bool.false_ne_true, hdelta]
    dsimp only
    rw [hrun]
  · rw [mem_orderChanges ?_ ?_, hfiles]
    · intro d hd
      obtain ⟨i, hi, -, -, m, -, path, -, rfl⟩ := (hfiles d).mp hd
      exact t.live i (hitems i hi)
    · intro d hd e he hpath
      obtain ⟨i, -, hi⟩ := (hfiles d).mp hd
      obtain ⟨j, -, hj⟩ := (hfiles e).mp he
      exact (shown_of_path hi hj hpath).2

/-- The feed shows a changed item just when the listing of the same root does, at the same path: the
changed items may come on any pages, in any order and repeatedly, with or without their folders. -/
theorem feed_agrees_with_listing {folder : Option Text} {cursor next : Text} {all : List DriveItem} {k n : Nat}
    (hserves : Serves graph t pages) (hroot : InTree t (.of folder)) (hcursor : graph.onGraph cursor = true)
    (hdelta : Paging.Served (deltaStep graph) (graphLink graph) next k [cursor] cursor all)
    (hlast : ∀ i, IsLast all i → i ∈ t.items) (hk : k ≤ n) (hpages : pages ≤ n) (hitems : t.items.length < n) :
    ∃ listing feed, listFiles graph n folder = some (.ok listing) ∧
      getChangesIn graph n folder (some cursor) = some (.ok (feed, some next)) ∧
      ∀ c, c ∈ feed ↔ c ∈ listing ∧ ∃ i ∈ all, i.id = c.id := by
  obtain ⟨listing, hlisting, hlisted⟩ := listFiles_shown hroot hserves hpages hitems
  obtain ⟨feed, hfeed, hfed⟩ := getChangesIn_shown folder hserves.item hcursor hdelta hk hlast
  refine ⟨listing, feed, hlisting, hfeed, fun c => ?_⟩
  rw [hfed, hlisted]
  constructor
  · rintro ⟨i, hi, hshown⟩
    exact ⟨⟨i, hshown⟩, i, (isLast_of_mem hi).mem, shown_id hshown⟩
  · rintro ⟨⟨i, hshown⟩, j, hj, hid⟩
    obtain ⟨j', hj', hid'⟩ := exists_latest hj
    have hsame : j'.id = i.id := (hid'.trans hid).trans (shown_id hshown).symm
    obtain rfl := t.distinct j' (hlast j' (isLast_of_mem hj')) i hshown.1 hsame
    exact ⟨j', hj', hshown⟩

/-! ## A drive of four items -/

def itemOf (id name : String) (parent : Option String) (folder root : Bool) : DriveItem where
  id := id.toList
  name := name.toList
  size := 0
  folder := folder
  file := none
  lastModifiedDateTime := none
  parentReference := parent.map fun p => ⟨some p.toList, none⟩
  root := root
  deleted := false

def smallTop : DriveItem := itemOf "r" "root" none true true

def smallFolder : DriveItem := itemOf "a" "A" (some "r") true false

def smallNested : DriveItem := itemOf "f" "x" (some "a") false false

def smallItems : List DriveItem := [smallTop, smallFolder, smallNested, itemOf "g" "y" (some "r") false false]

def smallTree : DriveTree where
  items := smallItems
  top := smallTop
  rank := fun id => if id = "r".toList then 0 else if id = "a".toList then 1 else 2
  distinct := by decide +kernel
  top_mem := List.mem_cons_self
  top_root := rfl
  top_parent := rfl
  parent := by decide +kernel
  siblings := by decide +kernel
  live := by decide +kernel

/-- The nested file comes twice, before its folder, under its name so far on the first page. -/
def smallGraph : Graph where
  base := "g".toList
  item := fun id => match smallItems.find? (·.id == id) with
    | some i => .ok i
    | none => .error (.notFound id)
  childrenPage := fun url =>
    .ok ⟨smallItems.filter fun i => match i.parentId with
      | some p => url == "g/me/drive/items/".toList ++ p ++ "/children".toList ||
          (p == "r".toList && url == "g/me/drive/root/children".toList)
      | none => false, none⟩
  deltaPage := fun url =>
    if url = "c".toList then .ok ⟨[itemOf "f" "old" (some "r") false false], none, some "n".toList⟩
    else .ok ⟨[smallNested, smallFolder], some "d".toList, none⟩
  onGraph := fun _ => true
  parseTime := fun _ => none
  originText := id
  debugText := id

theorem serves_small : Serves smallGraph smallTree 1 where
  item := by decide +kernel
  children := by
    have hpage : ∀ i ∈ smallItems, Paging.Served (childrenStep smallGraph) (graphLink smallGraph) ⟨⟩ 1
        [childrenUrl smallGraph (.folder i.id)] (childrenUrl smallGraph (.folder i.id))
        (smallItems.filter (·.parentId = some i.id)) := by
      intro i hi
      refine .last ?_
      revert i
      decide +kernel
    intro i hi _
    exact ⟨1, Nat.le_refl 1, _, hpage i hi, fun j => by simp [smallTree]⟩
  drive := by
    refine ⟨1, Nat.le_refl 1, smallItems.filter (·.parentId = some smallTop.id), .last ?_, fun j => by simp [smallTree]⟩
    decide +kernel

def smallDelta : List DriveItem := [itemOf "f" "old" (some "r") false false, smallNested, smallFolder]

theorem served_small :
    Paging.Served (deltaStep smallGraph) (graphLink smallGraph) "d".toList 2 ["c".toList] "c".toList smallDelta := by
  have hsecond : Paging.Served (deltaStep smallGraph) (graphLink smallGraph) "d".toList 1 ["n".toList, "c".toList]
      "n".toList [smallNested, smallFolder] := .last rfl
  have hfirst : deltaStep smallGraph "c".toList = .ok ([itemOf "f" "old" (some "r") false false], .inr "n".toList) :=
    rfl
  exact .more hfirst (by decide) rfl hsecond

theorem mem_small_of_isLast {i : DriveItem} (h : IsLast smallDelta i) : i ∈ smallItems := by
  obtain ⟨before, after, hall, hlast⟩ := h
  cases before with
  | nil =>
    obtain ⟨rfl, rfl⟩ := List.cons.inj hall
    exact absurd rfl (hlast smallNested List.mem_cons_self)
  | cons first before =>
    have hmem : i ∈ [smallNested, smallFolder] := by
      rw [(List.cons.inj hall).2]
      exact List.mem_append_right before List.mem_cons_self
    have hsub : ∀ j ∈ [smallNested, smallFolder], j ∈ smallItems := by decide +kernel
    exact hsub i hmem

/-- The feed shows the nested file and its folder, at their paths in the listing. -/
theorem nested_file_in_feed_and_listing :
    ∃ listing feed, listFiles smallGraph 5 none = some (.ok listing) ∧
      getChangesIn smallGraph 5 none (some "c".toList) = some (.ok (feed, some "d".toList)) ∧
      ∀ c, c ∈ feed ↔ c ∈ listing ∧ ∃ i ∈ smallDelta, i.id = c.id :=
  feed_agrees_with_listing (t := smallTree) serves_small (Or.inl rfl) rfl served_small (fun _ => mem_small_of_isLast)
    (by decide) (by decide) (by decide)

end OneDriveAgreement
