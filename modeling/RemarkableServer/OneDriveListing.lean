import RemarkableServer.OneDriveTree

/-!
# The OneDrive listing of a drive tree

The walk down from the sync root comes to every folder within the depth once: a
folder that is listed is in the queue or its children are listed too. No two
items have the same id or path, so nothing that is found is passed over, and the
walk is done after as many folders as the tree has items.
-/
namespace OneDriveListing

open RustText Integrations CloudPaths OneDrive OneDriveTree

variable {graph : Graph} {t : DriveTree} {rid : Text} {pages : Nat}

/-- The children of the item `id` are on the pages from `url` on. -/
def ServesChildren (graph : Graph) (t : DriveTree) (pages : Nat) (url id : Text) : Prop :=
  ∃ k ≤ pages, ∃ items, Paging.Served (childrenStep graph) (graphLink graph) ⟨⟩ k [url] url items ∧
    ∀ j, j ∈ items ↔ j ∈ t.items ∧ j.parentId = some id

/-- The Graph API answers with the items of the tree, and with the children of its folders. -/
structure Serves (graph : Graph) (t : DriveTree) (pages : Nat) : Prop where
  item : ∀ i ∈ t.items, graph.item i.id = .ok i
  children : ∀ i ∈ t.items, i.folder = true ∨ i = t.top →
    ServesChildren graph t pages (childrenUrl graph (.folder i.id)) i.id
  drive : ServesChildren graph t pages (childrenUrl graph .drive) t.top.id

/-- What is below the root has a greater rank. -/
theorem Placed.rank_le {n : Nat} {id path : Text} (h : Placed t rid n id path) : t.rank rid ≤ t.rank id := by
  induction h with
  | root => exact Nat.le_refl _
  | @step i n parent above hmem _ _ hparent _ ih =>
    obtain ⟨-, p, -, hp, -, hrank⟩ := t.parent i hmem (ne_top_of_parent hparent)
    rw [hparent] at hp
    cases hp
    omega

/-- A child of what is below the root is not the root. -/
theorem child_ne_root {n : Nat} {id path : Text} (h : Placed t rid n id path) {j : DriveItem} (hmem : j ∈ t.items)
    (hparent : j.parentId = some id) : j.id ≠ rid := by
  intro hroot
  obtain ⟨-, p, -, hp, -, hrank⟩ := t.parent j hmem (ne_top_of_parent hparent)
  rw [hparent] at hp
  cases hp
  have := Placed.rank_le h
  rw [hroot] at hrank
  omega

/-! ## One folder -/

/-- The queue entry is for the folder `id`. -/
def Pends (graph : Graph) (t : DriveTree) (rid : Text) (pages : Nat) (p : Pending) (id : Text) : Prop :=
  Placed t rid p.depth id p.path ∧ p.depth < maxListDepth ∧ ServesChildren graph t pages p.url id

/-- What is listed is shown, and what has been seen is listed or the root. -/
structure Sound (graph : Graph) (t : DriveTree) (rid : Text) (l : Listing) : Prop where
  shown : ∀ c ∈ l.out, ∃ i, Shown graph t rid i c
  items : ∀ id ∈ l.seenItems, id = rid ∨ ∃ c ∈ l.out, c.id = id
  paths : ∀ path ∈ l.seenPaths, ∃ c ∈ l.out, c.path = path

/-- The items of the tree that have not been seen. -/
def unseen (t : DriveTree) (l : Listing) : Nat := t.items.countP fun i => !l.seenItems.any (· == i.id)

/-- What the item adds to the listing. -/
structure Adds (graph : Graph) (t : DriveTree) (rid : Text) (pages : Nat) (p : Pending) (items : List DriveItem)
    (l l' : Listing) (found : List Pending) : Prop where
  sound : Sound graph t rid l'
  old : ∀ c ∈ l.out, c ∈ l'.out
  new : ∀ j ∈ items, isSafeName j.name = true → j.toCloudFileAt graph (p.path ++ '/' :: j.name) ∈ l'.out
  only : ∀ c ∈ l'.out, c ∈ l.out ∨ ∃ j ∈ items, c.id = j.id ∧
    (j.folder = true → p.depth + 1 < maxListDepth → ∃ q ∈ found, Pends graph t rid pages q j.id)
  pends : ∀ q ∈ found, ∃ id, Pends graph t rid pages q id
  measure : unseen t l' + found.length ≤ unseen t l

theorem unseen_lt {l l' : Listing} {j : DriveItem} (hmem : j ∈ t.items) (hnew : j.id ∉ l.seenItems)
    (hseen : l'.seenItems = j.id :: l.seenItems) : unseen t l' + 1 ≤ unseen t l := by
  obtain ⟨before, after, hitems⟩ := List.append_of_mem hmem
  have hless : ∀ items : List DriveItem, (items.countP fun i => !l'.seenItems.any (· == i.id)) ≤
      items.countP fun i => !l.seenItems.any (· == i.id) := by
    intro items
    refine List.countP_mono_left fun i _ hi => ?_
    rw [hseen] at hi
    simp only [List.any_cons, Bool.not_or, Bool.and_eq_true] at hi
    exact hi.2
  have hj : (l.seenItems.any (· == j.id)) = false := by
    rw [List.any_eq_false]
    intro id hid
    rw [beq_iff_eq]
    rintro rfl
    exact hnew hid
  have hj' : (l'.seenItems.any (· == j.id)) = true := by
    rw [hseen, List.any_cons, beq_self_eq_true, Bool.true_or]
  unfold unseen
  rw [hitems, List.countP_append, List.countP_append, List.countP_cons, List.countP_cons, hj, hj']
  have := hless before
  have := hless after
  simp only [Bool.not_true, Bool.not_false, if_true, Bool.false_eq_true, if_false]
  omega

/-- An item that is shown at the path is the one that is listed there. -/
theorem shown_eq {p : Pending} {id : Text} (hp : Pends graph t rid pages p id) {j : DriveItem} (hmem : j ∈ t.items)
    (hparent : j.parentId = some id) (hname : isSafeName j.name = true) {i : DriveItem} {c : CloudFile}
    (hc : Shown graph t rid i c) (h : c.id = j.id ∨ c.path = p.path ++ '/' :: j.name) :
    c = j.toCloudFileAt graph (p.path ++ '/' :: j.name) := by
  obtain ⟨hi, hne, n, hn, path, hplaced, rfl⟩ := hc
  have hj : Placed t rid (p.depth + 1) j.id (p.path ++ '/' :: j.name) :=
    .step hmem (child_ne_root hp.1 hmem hparent) hname hparent hp.1
  rcases h with hid | hpath
  · have hsame : i.id = j.id := hid
    obtain rfl := t.distinct i hi j hmem hsame
    rw [hplaced.unique hj]
  · have hsame : path = p.path ++ '/' :: j.name := hpath
    rw [hsame] at hplaced
    obtain rfl := t.distinct i hi j hmem (hplaced.injective hj)
    rw [hsame]

/-- The folder of an item that is listed. -/
theorem pends_child (hserves : Serves graph t pages) {p : Pending} {id : Text} (hp : Pends graph t rid pages p id)
    {j : DriveItem} (hmem : j ∈ t.items) (hparent : j.parentId = some id) (hname : isSafeName j.name = true)
    (hfolder : j.folder = true) (hdepth : p.depth + 1 < maxListDepth) :
    Pends graph t rid pages ⟨childrenUrl graph (.folder j.id), p.path ++ '/' :: j.name, p.depth + 1⟩ j.id :=
  ⟨.step hmem (child_ne_root hp.1 hmem hparent) hname hparent hp.1, hdepth, hserves.children j hmem (.inl hfolder)⟩

theorem adds_listItem (hserves : Serves graph t pages) {p : Pending} {id : Text} (hp : Pends graph t rid pages p id)
    {j : DriveItem} (hmem : j ∈ t.items) (hparent : j.parentId = some id) {l : Listing} (hl : Sound graph t rid l) :
    Adds graph t rid pages p [j] l (listItem graph p l j).1 (listItem graph p l j).2.toList := by
  have hne : j.id ≠ rid := child_ne_root hp.1 hmem hparent
  unfold listItem
  dsimp only
  rw [t.live j hmem, Bool.false_or]
  split
  next hskip =>
    refine ⟨hl, fun c hc => hc, fun k hk hname => ?_, fun c hc => Or.inl hc, List.forall_mem_nil _, Nat.le_refl _⟩
    rw [List.mem_singleton] at hk
    subst hk
    rw [hname, Bool.not_true, Bool.false_or, List.any_eq_true] at hskip
    obtain ⟨id', hid', hsame⟩ := hskip
    rw [beq_iff_eq] at hsame
    subst hsame
    obtain hroot | ⟨c, hc, hcid⟩ := hl.items _ hid'
    · exact absurd hroot hne
    · obtain ⟨i, hi⟩ := hl.shown c hc
      rwa [← shown_eq hp hmem hparent hname hi (.inl hcid)]
  next hskip =>
    rw [Bool.or_eq_true, not_or, Bool.not_eq_true', Bool.not_eq_false] at hskip
    obtain ⟨hname, hunseen⟩ := hskip
    have hnew : j.id ∉ l.seenItems := by
      intro hin
      exact hunseen (List.any_eq_true.mpr ⟨j.id, hin, beq_self_eq_true _⟩)
    split
    next hpath =>
      obtain ⟨path, hin, hsame⟩ := List.any_eq_true.mp hpath
      rw [beq_iff_eq] at hsame
      subst hsame
      obtain ⟨c, hc, hcpath⟩ := hl.paths _ hin
      obtain ⟨i, hi⟩ := hl.shown c hc
      have hsame := shown_eq hp hmem hparent hname hi (.inr hcpath)
      refine ⟨⟨hl.shown, fun id' hid' => ?_, hl.paths⟩, fun c hc => hc, fun k hk _ => ?_, fun c hc => Or.inl hc,
        List.forall_mem_nil _, ?_⟩
      · rcases List.mem_cons.mp hid' with rfl | hid'
        · refine Or.inr ⟨c, hc, ?_⟩
          rw [hsame]
          rfl
        · exact hl.items id' hid'
      · obtain rfl := List.mem_singleton.mp hk
        rwa [← hsame]
      · exact Nat.le_of_succ_le (unseen_lt hmem hnew rfl)
    next hpath =>
      have hfound : ∀ q ∈ (if j.folder && decide (p.depth + 1 < maxListDepth) then
          some (⟨childrenUrl graph (.folder j.id), p.path ++ '/' :: j.name, p.depth + 1⟩ : Pending) else none).toList,
          Pends graph t rid pages q j.id := by
        intro q hq
        rw [Option.mem_toList] at hq
        split at hq
        next hfolder =>
          cases hq
          rw [Bool.and_eq_true, decide_eq_true_eq] at hfolder
          exact pends_child hserves hp hmem hparent hname hfolder.1 hfolder.2
        · cases hq
      refine ⟨⟨fun c hc => ?_, fun id' hid' => ?_, fun path hin => ?_⟩, fun c hc => List.mem_append_left _ hc,
        fun k hk _ => ?_, fun c hc => ?_, fun q hq => ⟨j.id, hfound q hq⟩, ?_⟩
      · rcases List.mem_append.mp hc with hc | hc
        · exact hl.shown c hc
        · obtain rfl := List.mem_singleton.mp hc
          exact ⟨j, hmem, hne, p.depth + 1, hp.2.1, _, .step hmem hne hname hparent hp.1, rfl⟩
      · rcases List.mem_cons.mp hid' with rfl | hid'
        · exact Or.inr ⟨_, List.mem_append_right _ (List.mem_singleton_self _), rfl⟩
        · obtain hroot | ⟨c, hc, hcid⟩ := hl.items id' hid'
          · exact Or.inl hroot
          · exact Or.inr ⟨c, List.mem_append_left _ hc, hcid⟩
      · rcases List.mem_cons.mp hin with rfl | hin
        · exact ⟨_, List.mem_append_right _ (List.mem_singleton_self _), rfl⟩
        · obtain ⟨c, hc, hcpath⟩ := hl.paths path hin
          exact ⟨c, List.mem_append_left _ hc, hcpath⟩
      · obtain rfl := List.mem_singleton.mp hk
        exact List.mem_append_right _ (List.mem_singleton_self _)
      · rcases List.mem_append.mp hc with hc | hc
        · exact Or.inl hc
        · obtain rfl := List.mem_singleton.mp hc
          refine Or.inr ⟨j, List.mem_singleton_self j, rfl, fun hfolder hdepth => ?_⟩
          refine ⟨⟨childrenUrl graph (.folder j.id), p.path ++ '/' :: j.name, p.depth + 1⟩, ?_,
            pends_child hserves hp hmem hparent hname hfolder hdepth⟩
          rw [hfolder, Bool.true_and, decide_eq_true hdepth, if_pos rfl]
          exact List.mem_singleton_self _
      · refine Nat.le_trans (Nat.add_le_add_left ?_ _) (unseen_lt hmem hnew rfl)
        split
        · exact Nat.le_refl 1
        · exact Nat.zero_le 1

theorem adds_listItems (hserves : Serves graph t pages) {p : Pending} {id : Text} (hp : Pends graph t rid pages p id)
    {items : List DriveItem} (hitems : ∀ j ∈ items, j ∈ t.items ∧ j.parentId = some id) {l : Listing}
    (hl : Sound graph t rid l) :
    Adds graph t rid pages p items l (listItems graph p l items).1 (listItems graph p l items).2 := by
  induction items generalizing l with
  | nil =>
    exact ⟨hl, fun _ hc => hc, List.forall_mem_nil _, fun _ hc => Or.inl hc, List.forall_mem_nil _, Nat.le_refl _⟩
  | cons j items ih =>
    have hj := hitems j List.mem_cons_self
    have hone := adds_listItem hserves hp hj.1 hj.2 hl
    have hrest := ih (fun k hk => hitems k (List.mem_cons_of_mem j hk)) hone.sound
    refine ⟨hrest.sound, fun c hc => hrest.old c (hone.old c hc), fun k hk hname => ?_, fun c hc => ?_, fun q hq => ?_,
      ?_⟩
    · rcases List.mem_cons.mp hk with rfl | hk
      · exact hrest.old _ (hone.new k (List.mem_singleton_self k) hname)
      · exact hrest.new k hk hname
    · rcases hrest.only c hc with hc | ⟨k, hk, hid, hfound⟩
      · rcases hone.only c hc with hc | ⟨k, hk, hid, hfound⟩
        · exact Or.inl hc
        · obtain rfl := List.mem_singleton.mp hk
          refine Or.inr ⟨k, List.mem_cons_self, hid, fun hfolder hdepth => ?_⟩
          obtain ⟨q, hq, hpends⟩ := hfound hfolder hdepth
          exact ⟨q, List.mem_append_left _ hq, hpends⟩
      · refine Or.inr ⟨k, List.mem_cons_of_mem j hk, hid, fun hfolder hdepth => ?_⟩
        obtain ⟨q, hq, hpends⟩ := hfound hfolder hdepth
        exact ⟨q, List.mem_append_right _ hq, hpends⟩
    · rcases List.mem_append.mp hq with hq | hq
      · exact hone.pends q hq
      · exact hrest.pends q hq
    · have h₁ := hone.measure
      have h₂ := hrest.measure
      have hlen : (listItems graph p l (j :: items)).2.length = (listItem graph p l j).2.toList.length +
          (listItems graph p (listItem graph p l j).1 items).2.length := List.length_append
      have hstate : (listItems graph p l (j :: items)).1 = (listItems graph p (listItem graph p l j).1 items).1 := rfl
      rw [hlen, hstate]
      omega

theorem getAll_served {url id : Text} (h : ServesChildren graph t pages url id) {n : Nat} (hn : pages ≤ n) :
    ∃ items, getAll graph n url = some (.ok items) ∧ ∀ j, j ∈ items ↔ j ∈ t.items ∧ j.parentId = some id := by
  obtain ⟨k, hk, items, hserved, hitems⟩ := h
  refine ⟨items, ?_, hitems⟩
  unfold getAll
  rw [Paging.collect_served _ hserved (Nat.le_trans hk hn) []]
  rfl

/-! ## The walk -/

/-- All children of the item at the path are listed. -/
def Expanded (graph : Graph) (t : DriveTree) (l : Listing) (id path : Text) : Prop :=
  ∀ j ∈ t.items, j.parentId = some id → isSafeName j.name = true →
    j.toCloudFileAt graph (path ++ '/' :: j.name) ∈ l.out

/-- A folder that is listed is in the queue, or its children are listed. -/
structure Walking (graph : Graph) (t : DriveTree) (rid : Text) (pages : Nat) (l : Listing) (queue : List Pending) :
    Prop where
  sound : Sound graph t rid l
  pending : ∀ q ∈ queue, ∃ id, Pends graph t rid pages q id
  walked : ∀ n id path, Placed t rid n id path → n < maxListDepth → id = rid ∨ (∃ c ∈ l.out, c.id = id) →
    (∃ q ∈ queue, Pends graph t rid pages q id) ∨ Expanded graph t l id path

/-- What is not a folder has no children. -/
theorem expanded_of_file {j : DriveItem} (hmem : j ∈ t.items) (hfile : j.folder = false) (hne : j ≠ t.top)
    (l : Listing) (path : Text) : Expanded graph t l j.id path := by
  intro k hk hparent
  obtain ⟨-, p, hp, hpid, hfolder, -⟩ := t.parent k hk (ne_top_of_parent hparent)
  rw [hparent, Option.some.injEq] at hpid
  obtain rfl := t.distinct j hmem p hp hpid
  rcases hfolder with hfolder | htop
  · rw [hfile] at hfolder
    cases hfolder
  · exact absurd htop hne

theorem walking_listFolder (hserves : Serves graph t pages) {n : Nat} (hn : pages ≤ n) (l : Listing) (p : Pending)
    (queue : List Pending) (h : Walking graph t rid pages l (p :: queue)) :
    ∃ l' found, listFolder graph n l p = some (.ok (l', found)) ∧ Walking graph t rid pages l' (queue ++ found) ∧
      unseen t l' + found.length ≤ unseen t l := by
  obtain ⟨id, hp⟩ := h.pending p List.mem_cons_self
  obtain ⟨items, hall, hitems⟩ := getAll_served hp.2.2 hn
  have hadds := adds_listItems hserves hp (fun j hj => (hitems j).mp hj) h.sound
  refine ⟨_, _, ?_, ⟨hadds.sound, fun q hq => ?_, fun m id' path hplaced hdepth hfound => ?_⟩, hadds.measure⟩
  · unfold listFolder
    rw [hall]
    rfl
  · rcases List.mem_append.mp hq with hq | hq
    · exact h.pending q (List.mem_cons_of_mem p hq)
    · exact hadds.pends q hq
  · have hold : id' = rid ∨ (∃ c ∈ l.out, c.id = id') →
        (∃ q ∈ queue ++ (listItems graph p l items).2, Pends graph t rid pages q id') ∨
          Expanded graph t (listItems graph p l items).1 id' path := by
      intro hfound
      rcases h.walked m id' path hplaced hdepth hfound with ⟨q, hq, hpends⟩ | hexpanded
      · rcases List.mem_cons.mp hq with rfl | hq
        · obtain rfl := hp.1.injective hpends.1
          rw [hplaced.unique hpends.1]
          exact Or.inr fun j hj hparent hname => hadds.new j ((hitems j).mpr ⟨hj, hparent⟩) hname
        · exact Or.inl ⟨q, List.mem_append_left _ hq, hpends⟩
      · exact Or.inr fun j hj hparent hname => hadds.old _ (hexpanded j hj hparent hname)
    rcases hfound with hroot | ⟨c, hc, rfl⟩
    · exact hold (Or.inl hroot)
    · rcases hadds.only c hc with hc | ⟨j, hj, hid, hfolder⟩
      · exact hold (Or.inr ⟨c, hc, rfl⟩)
      · obtain ⟨hmem, hparent⟩ := (hitems j).mp hj
        rw [hid] at hplaced ⊢
        cases hisfolder : j.folder with
        | true =>
          obtain ⟨-, m', parent, above, rfl, hparent', habove, rfl⟩ :=
            hplaced.parent hmem (child_ne_root hp.1 hmem hparent)
          rw [hparent] at hparent'
          cases hparent'
          have hlevel : m' = p.depth := by rw [← habove.count, habove.unique hp.1, hp.1.count]
          rw [hlevel] at hdepth
          obtain ⟨q, hq, hpends⟩ := hfolder hisfolder hdepth
          exact Or.inl ⟨q, List.mem_append_right _ hq, hpends⟩
        | false => exact Or.inr (expanded_of_file hmem hisfolder (ne_top_of_parent hparent) _ path)

/-- When the queue is empty, every item below the root is listed. -/
theorem Walking.complete {l : Listing} (h : Walking graph t rid pages l []) {n : Nat} {id path : Text}
    (hplaced : Placed t rid n id path) (hn : n ≤ maxListDepth) :
    id = rid ∨ ∃ i ∈ t.items, i.id = id ∧ i.toCloudFileAt graph path ∈ l.out := by
  induction hplaced with
  | root => exact Or.inl rfl
  | @step i n parent above hmem hne hname hparent habove ih =>
    have hfound : parent = rid ∨ ∃ c ∈ l.out, c.id = parent := by
      rcases ih (Nat.le_of_succ_le hn) with hroot | ⟨j, -, hid, hj⟩
      · exact Or.inl hroot
      · exact Or.inr ⟨_, hj, hid⟩
    rcases h.walked n parent above habove hn hfound with ⟨q, hq, -⟩ | hexpanded
    · cases hq
    · exact Or.inr ⟨i, hmem, rfl, hexpanded i hmem hparent hname⟩

/-- The sync root is the whole drive or a folder of the tree. -/
def InTree (t : DriveTree) (root : SyncRoot) : Prop :=
  root = .drive ∨ ∃ r ∈ t.items, (r.folder = true ∨ r = t.top) ∧ root = .folder r.id

theorem InTree.serves {root : SyncRoot} (h : InTree t root) (hserves : Serves graph t pages) :
    ServesChildren graph t pages (childrenUrl graph root) (t.rootId root) := by
  rcases h with rfl | ⟨r, hr, hfolder, rfl⟩
  · exact hserves.drive
  · exact hserves.children r hr hfolder

theorem walking_start {root : SyncRoot} (hroot : InTree t root) (hserves : Serves graph t pages) :
    Walking graph t (t.rootId root) pages (startListing root) [⟨childrenUrl graph root, [], 0⟩] where
  sound := by
    cases root with
    | drive => exact ⟨List.forall_mem_nil _, List.forall_mem_nil _, List.forall_mem_nil _⟩
    | folder id =>
      refine ⟨List.forall_mem_nil _, fun id' hid' => ?_, List.forall_mem_nil _⟩
      exact Or.inl (List.mem_singleton.mp hid')
  pending := by
    intro q hq
    obtain rfl := List.mem_singleton.mp hq
    exact ⟨t.rootId root, .root, Nat.zero_lt_succ 63, hroot.serves hserves⟩
  walked := by
    intro n id path hplaced hn hfound
    have hnone : (startListing root).out = [] := by cases root <;> rfl
    rcases hfound with rfl | ⟨c, hc, -⟩
    · exact Or.inl ⟨_, List.mem_singleton_self _, .root, Nat.zero_lt_succ 63, hroot.serves hserves⟩
    · rw [hnone] at hc
      cases hc

/-- The listing shows exactly the items below the root within the depth. -/
theorem listFiles_shown {folder : Option Text} (hroot : InTree t (.of folder)) (hserves : Serves graph t pages)
    {n : Nat} (hpages : pages ≤ n) (hitems : t.items.length < n) :
    ∃ listing, listFiles graph n folder = some (.ok listing) ∧
      ∀ c, c ∈ listing ↔ ∃ i, Shown graph t (t.rootId (.of folder)) i c := by
  have hmeasure : unseen t (startListing (.of folder)) +
      [(⟨childrenUrl graph (.of folder), [], 0⟩ : Pending)].length ≤ n :=
    Nat.le_trans (Nat.succ_le_succ List.countP_le_length) hitems
  obtain ⟨l, hrun, hwalked⟩ := Worklist.run_done
    (fun l p queue h => walking_listFolder hserves hpages l p queue h) (walking_start hroot hserves) hmeasure
  refine ⟨l.out, ?_, fun c => ⟨hwalked.sound.shown c, ?_⟩⟩
  · unfold listFiles
    dsimp only
    rw [hrun]
    rfl
  · rintro ⟨i, hi, hne, m, hm, path, hplaced, rfl⟩
    rcases hwalked.complete hplaced hm with heq | ⟨j, hj, hid, hout⟩
    · exact absurd heq hne
    · obtain rfl := t.distinct j hj i hi hid
      exact hout

end OneDriveListing
