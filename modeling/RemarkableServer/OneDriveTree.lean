import RemarkableServer.OneDrive

/-!
# A drive tree, and where the change feed puts its items

Every item of a drive tree has one path below the sync root or none, and two
items have different paths. The feed's walk up the parents of an item finds that
path, and the memo it keeps is right: a folder has its path in it, or is not
under the root. A walk that is cut short remembers nothing, and was too long for
the item to be listed.
-/
namespace OneDriveTree

open RustText Integrations CloudPaths OneDrive Effect

/-- A finite drive: every item but the top has one parent, which is a folder; siblings have different
names; no item is deleted. The rank says that parents are above their children. -/
structure DriveTree where
  items : List DriveItem
  top : DriveItem
  rank : Text → Nat
  distinct : ∀ i ∈ items, ∀ j ∈ items, i.id = j.id → i = j
  top_mem : top ∈ items
  top_root : top.root = true
  top_parent : top.parentId = none
  parent : ∀ i ∈ items, i ≠ top → i.root = false ∧
    ∃ p ∈ items, i.parentId = some p.id ∧ (p.folder = true ∨ p = top) ∧ rank p.id < rank i.id
  siblings : ∀ i ∈ items, ∀ j ∈ items, i ≠ top → j ≠ top → i.parentId = j.parentId → i.name = j.name → i = j
  live : ∀ i ∈ items, i.deleted = false

/-- The id of the sync root. -/
def DriveTree.rootId (t : DriveTree) : SyncRoot → Text
  | .drive => t.top.id
  | .folder id => id

/-- The item has the path below the root `rid`, of `n` safe names. -/
inductive Placed (t : DriveTree) (rid : Text) : Nat → Text → Text → Prop where
  | root : Placed t rid 0 rid []
  | step {i : DriveItem} {n : Nat} {parent above : Text} (hmem : i ∈ t.items) (hne : i.id ≠ rid)
      (hname : isSafeName i.name = true) (hparent : i.parentId = some parent) (habove : Placed t rid n parent above) :
      Placed t rid (n + 1) i.id (above ++ '/' :: i.name)

/-- The file is an item of the tree below the root, within the depth of the listing, at its path. -/
def Shown (graph : Graph) (t : DriveTree) (rid : Text) (i : DriveItem) (c : CloudFile) : Prop :=
  i ∈ t.items ∧ i.id ≠ rid ∧ ∃ n ≤ maxListDepth, ∃ path, Placed t rid n i.id path ∧ c = i.toCloudFileAt graph path

variable {graph : Graph} {t : DriveTree} {rid : Text}

/-! ## Paths -/

theorem slash_not_mem_of_safe {name : Text} (h : isSafeName name = true) : '/' ∉ name := by
  intro hslash
  obtain ⟨a, b, rfl, ha⟩ := List.eq_append_cons_of_mem hslash
  have hparts : split '/' (a ++ '/' :: b) = a :: split '/' b := splitOn_append_sep '/' a b ha
  have hlen : 2 ≤ (split '/' (a ++ '/' :: b)).length := by
    rw [hparts, List.length_cons]
    have hb : split '/' b ≠ [] := List.splitOn_ne_nil '/' b
    have := List.length_pos_iff.mpr hb
    omega
  unfold isSafeName safeComponents at h
  dsimp only at h
  split_ifs at h
  split at h
  next hfault =>
    split at hfault
    · cases hfault
    · rw [Except.ok.injEq] at hfault
      rw [hfault] at hlen
      simp at hlen
  · cases h

/-- A path is split at its last name in one way. -/
theorem append_name_inj {a b x y : Text} (hx : '/' ∉ x) (hy : '/' ∉ y) (h : a ++ '/' :: x = b ++ '/' :: y) :
    a = b ∧ x = y := by
  induction a generalizing b with
  | nil =>
    cases b with
    | nil => exact ⟨rfl, (List.cons.inj h).2⟩
    | cons c b =>
      have hx' : x = b ++ '/' :: y := (List.cons.inj h).2
      rw [hx'] at hx
      exact absurd (List.mem_append_right b List.mem_cons_self) hx
  | cons c a ih =>
    cases b with
    | nil =>
      have hy' : a ++ '/' :: x = y := (List.cons.inj h).2
      rw [← hy'] at hy
      exact absurd (List.mem_append_right a List.mem_cons_self) hy
    | cons d b =>
      have hsame := ih (b := b) (List.cons.inj h).2
      exact ⟨by rw [(List.cons.inj h).1, hsame.1], hsame.2⟩

theorem ne_top_of_parent {i : DriveItem} {parent : Text} (h : i.parentId = some parent) : i ≠ t.top := by
  rintro rfl
  rw [t.top_parent] at h
  cases h

/-- The path counts its names. -/
theorem Placed.count {n : Nat} {id path : Text} (h : Placed t rid n id path) : path.count '/' = n := by
  induction h with
  | root => rfl
  | step _ _ hname _ _ ih =>
    rw [List.count_append, ih, List.count_cons_self, List.count_eq_zero.mpr (slash_not_mem_of_safe hname)]

/-- An item has one path. -/
theorem Placed.unique {n m : Nat} {id path path' : Text} (h : Placed t rid n id path) (h' : Placed t rid m id path') :
    path = path' := by
  induction h generalizing m path' with
  | root =>
    cases h' with
    | root => rfl
    | step _ hne => exact absurd rfl hne
  | @step i n parent above hmem hne hname hparent habove ih =>
    generalize hid : i.id = id' at h'
    cases h' with
    | root => exact absurd hid hne
    | step hmem' _ _ hparent' habove' =>
      obtain rfl := t.distinct _ hmem _ hmem' hid
      rw [hparent] at hparent'
      cases hparent'
      rw [ih habove']

/-- A path is that of one item. -/
theorem Placed.injective {n m : Nat} {id id' path : Text} (h : Placed t rid n id path) (h' : Placed t rid m id' path) :
    id = id' := by
  induction h generalizing m id' with
  | root =>
    generalize hpath : ([] : Text) = path' at h'
    cases h' with
    | root => rfl
    | step => simp at hpath
  | @step i n parent above hmem hne hname hparent habove ih =>
    generalize hpath : above ++ '/' :: i.name = path' at h'
    cases h' with
    | root => simp at hpath
    | step hmem' _ hname' hparent' habove' =>
      obtain ⟨rfl, hnames⟩ := append_name_inj (slash_not_mem_of_safe hname) (slash_not_mem_of_safe hname') hpath
      obtain rfl := ih habove'
      have hsame := t.siblings _ hmem _ hmem' (ne_top_of_parent hparent) (ne_top_of_parent hparent')
        (hparent.trans hparent'.symm) hnames
      rw [hsame]

/-- What is not the root has its path through its parent. -/
theorem Placed.parent {i : DriveItem} (hmem : i ∈ t.items) (hne : i.id ≠ rid) {n : Nat} {path : Text}
    (h : Placed t rid n i.id path) : isSafeName i.name = true ∧ ∃ m parent above, n = m + 1 ∧
      i.parentId = some parent ∧ Placed t rid m parent above ∧ path = above ++ '/' :: i.name := by
  generalize hid : i.id = id' at h
  cases h with
  | root => exact absurd hid hne
  | step hmem' _ hname hparent habove =>
    obtain rfl := t.distinct _ hmem _ hmem' hid
    exact ⟨hname, _, _, _, rfl, hparent, habove, rfl⟩

/-! ## The memo -/

/-- The path is that of the folder, or there is none. -/
def IsPath (t : DriveTree) (rid id : Text) (path : Option Text) : Prop :=
  ∀ p, path = some p ↔ ∃ n, Placed t rid n id p

/-- What the memo has of the folders of the tree is right. -/
structure Right (t : DriveTree) (rid : Text) (memo : Memo) : Prop where
  folders : ∀ i ∈ t.items, ∀ info, memo.folders.lookup i.id = some info → info = some (.of i)
  paths : ∀ id path, memo.paths.lookup id = some path → IsPath t rid id path

theorem isPath_root : IsPath t rid rid (some []) := by
  intro p
  constructor
  · intro h
    cases h
    exact ⟨0, .root⟩
  · rintro ⟨n, h⟩
    rw [h.unique .root]

theorem isPath_none {id : Text} (h : ∀ n p, ¬Placed t rid n id p) : IsPath t rid id none := by
  intro p
  constructor
  · exact fun hp => nomatch hp
  · rintro ⟨n, hp⟩
    exact absurd hp (h n p)

/-- The path of an item is that of its parent and its name. -/
theorem IsPath.child {i : DriveItem} {parent : Text} {path : Option Text} (hmem : i ∈ t.items) (hne : i.id ≠ rid)
    (hname : isSafeName i.name = true) (hparent : i.parentId = some parent) (h : IsPath t rid parent path) :
    IsPath t rid i.id (path.map (· ++ '/' :: i.name)) := by
  intro p
  constructor
  · intro hp
    obtain ⟨above, habove, rfl⟩ := Option.map_eq_some_iff.mp hp
    obtain ⟨n, hn⟩ := (h above).mp habove
    exact ⟨n + 1, .step hmem hne hname hparent hn⟩
  · rintro ⟨n, hp⟩
    obtain ⟨-, m, parent', above, -, hparent', habove, rfl⟩ := hp.parent hmem hne
    rw [hparent] at hparent'
    cases hparent'
    rw [(h above).mpr ⟨m, habove⟩]
    rfl

theorem Right.insert {memo : Memo} (h : Right t rid memo) {id : Text} {path : Option Text}
    (hpath : IsPath t rid id path) : Right t rid { memo with paths := memo.paths.insert id path } where
  folders := h.folders
  paths := by
    intro k p hk
    by_cases hne : k = id
    · rw [hne, AList.lookup_insert] at hk
      cases hk
      exact hne ▸ hpath
    · rw [AList.lookup_insert_ne hne] at hk
      exact h.paths k p hk

/-- A folder of the tree is known, or asked for. -/
theorem knownFolder_right (hgraph : ∀ i ∈ t.items, graph.item i.id = .ok i) {memo : Memo} (h : Right t rid memo)
    {i : DriveItem} (hmem : i ∈ t.items) :
    ∃ memo', knownFolder graph i.id memo = .ok (some (.of i)) memo' ∧ Right t rid memo' := by
  unfold knownFolder
  rw [get_bind]
  cases hl : memo.folders.lookup i.id with
  | some info =>
    obtain rfl := h.folders i hmem info hl
    exact ⟨memo, rfl, h⟩
  | none =>
    have hinfo : folderInfo graph i.id = .ok (some (.of i)) := by
      rw [folderInfo, hgraph i hmem]
    rw [hinfo]
    refine ⟨_, rfl, ?_, h.paths⟩
    intro j hj info hk
    by_cases hne : j.id = i.id
    · obtain rfl := t.distinct j hj i hmem hne
      rw [AList.lookup_insert] at hk
      cases hk
      rfl
    · rw [AList.lookup_insert_ne hne] at hk
      exact h.folders j hj info hk

/-! ## The walk up -/

/-- The folders walked through, up to the one the walk has come to. -/
def Linked (t : DriveTree) (rid : Text) : List (Text × Text) → Text → Prop
  | [], _ => True
  | w :: walked, cur =>
    (∃ i ∈ t.items, i.id = w.1 ∧ i.name = w.2 ∧ isSafeName i.name = true ∧ i.parentId = some cur ∧ i.id ≠ rid) ∧
      Linked t rid walked w.1

/-- The folder the walk started at. -/
def origin : List (Text × Text) → Text → Text
  | [], cur => cur
  | w :: walked, _ => origin walked w.1

/-- A folder walked through has as many folders above it. -/
theorem Linked.length_le {walked : List (Text × Text)} {cur : Text} (h : Linked t rid walked cur) {n : Nat}
    {path : Text} (hp : Placed t rid n (origin walked cur) path) :
    walked.length ≤ n ∧ ∃ above, Placed t rid (n - walked.length) cur above := by
  induction walked generalizing cur with
  | nil => exact ⟨Nat.zero_le n, path, hp⟩
  | cons w walked ih =>
    obtain ⟨⟨i, hmem, hid, -, -, hparent, hne⟩, hlinked⟩ := h
    obtain ⟨hle, above, habove⟩ := ih hlinked hp
    rw [← hid] at habove
    obtain ⟨-, m, parent, above', hm, hparent', habove', -⟩ := habove.parent hmem hne
    rw [hparent] at hparent'
    cases hparent'
    rw [List.length_cons]
    refine ⟨by omega, above', ?_⟩
    have hm' : n - (walked.length + 1) = m := by omega
    rw [hm']
    exact habove'

/-- The walk goes up: it does not come to a folder twice. -/
theorem Linked.rank_lt {walked : List (Text × Text)} {cur : Text} (h : Linked t rid walked cur) :
    ∀ w ∈ walked, t.rank cur < t.rank w.1 := by
  induction walked generalizing cur with
  | nil => exact List.forall_mem_nil _
  | cons w walked ih =>
    obtain ⟨⟨i, hmem, hid, -, -, hparent, -⟩, hlinked⟩ := h
    obtain ⟨-, p, -, hp, -, hrank⟩ := t.parent i hmem (ne_top_of_parent hparent)
    rw [hparent] at hp
    cases hp
    rw [hid] at hrank
    refine List.forall_mem_cons.mpr ⟨hrank, fun w' hw' => ?_⟩
    exact Nat.lt_trans hrank (ih hlinked w' hw')

/-- Every folder walked through gets its path. -/
theorem memoize_right {memo : Memo} (hright : Right t rid memo) {settled : Option Text} {walked : List (Text × Text)}
    {cur : Text} (hlinked : Linked t rid walked cur) (hsettled : IsPath t rid cur settled) :
    ∃ path memo', memoize settled walked memo = .ok path memo' ∧ Right t rid memo' ∧
      IsPath t rid (origin walked cur) path := by
  induction walked generalizing cur settled memo with
  | nil => exact ⟨settled, memo, rfl, hright, hsettled⟩
  | cons w walked ih =>
    obtain ⟨folder, name⟩ := w
    obtain ⟨⟨i, hmem, rfl, rfl, hname, hparent, hne⟩, hlinked⟩ := hlinked
    have hpath := hsettled.child hmem hne hname hparent
    exact ih (hright.insert hpath) hlinked hpath

/-- Where a walk ends: at a folder whose path it knows, or cut short with too many folders on it. -/
def WalkEnds (t : DriveTree) (rid start : Text) (levels : Nat) : Walked → Prop
  | none => ∀ n path, Placed t rid n start path → levels ≤ n
  | some r => ∃ cur, Linked t rid r.2 cur ∧ origin r.2 cur = start ∧ IsPath t rid cur r.1

/-- The walk comes to an end that is right and leaves the memo right. -/
def WalksRight (t : DriveTree) (rid start : Text) (levels : Nat) (x : Lookup Walked) (memo : Memo) : Prop :=
  ∃ r memo', x memo = .ok r memo' ∧ Right t rid memo' ∧ WalkEnds t rid start levels r

theorem rootId_of_isFolder {root : SyncRoot} {id : Text} (h : root.isFolder id = true) : t.rootId root = id := by
  have hroot : root = .folder id := beq_iff_eq.mp h
  rw [hroot]
  rfl

/-- An item that is the sync root is the sync folder, or the top of the drive. -/
theorem ne_rootId {root : SyncRoot} {i : DriveItem} (hmem : i ∈ t.items) (hfolder : root.isFolder i.id = false)
    (htop : i.root = false) : i.id ≠ t.rootId root := by
  cases root with
  | drive =>
    intro hid
    obtain rfl := t.distinct i hmem t.top t.top_mem hid
    rw [t.top_root] at htop
    cases htop
  | folder id =>
    rintro rfl
    have hself : (SyncRoot.folder i.id).isFolder i.id = true := beq_self_eq_true _
    rw [hself] at hfolder
    cases hfolder

theorem endsAt_right {root : SyncRoot} {walked : List (Text × Text)} {cur : Text} {memo : Memo} {levels : Nat}
    (hright : Right t (t.rootId root) memo) (hlinked : Linked t (t.rootId root) walked cur) {next : Lookup Walked}
    (hnext : root.isFolder cur = false → WalksRight t (t.rootId root) (origin walked cur) levels next memo) :
    WalksRight t (t.rootId root) (origin walked cur) levels (endsAt root walked cur next) memo := by
  unfold endsAt
  split
  next hroot =>
    refine ⟨_, memo, rfl, hright, cur, hlinked, rfl, ?_⟩
    rw [← rootId_of_isFolder (t := t) hroot]
    exact isPath_root
  next hroot =>
    unfold WalksRight
    rw [get_bind]
    cases hl : memo.paths.lookup cur with
    | some hit => exact ⟨_, memo, rfl, hright, cur, hlinked, rfl, hright.paths cur hit hl⟩
    | none =>
      have hnew : (walked.any (·.1 == cur)) = false := by
        rw [List.any_eq_false]
        intro w hw hsame
        have hrank := hlinked.rank_lt w hw
        rw [beq_iff_eq.mp hsame] at hrank
        exact absurd hrank (Nat.lt_irrefl _)
      rw [hnew]
      exact hnext (Bool.eq_false_iff.mpr hroot)

theorem walkUp_right {root : SyncRoot} (hgraph : ∀ i ∈ t.items, graph.item i.id = .ok i)
    (left : Nat) {walked : List (Text × Text)} {cur : DriveItem} (hcur : cur ∈ t.items) {memo : Memo}
    (hright : Right t (t.rootId root) memo) (hlinked : Linked t (t.rootId root) walked cur.id) :
    WalksRight t (t.rootId root) (origin walked cur.id) (left + walked.length)
      (walkUp graph root left walked cur.id) memo := by
  induction left generalizing walked cur memo with
  | zero =>
    refine endsAt_right hright hlinked fun _ => ⟨none, memo, rfl, hright, fun n path hp => ?_⟩
    rw [Nat.zero_add]
    exact (hlinked.length_le hp).1
  | succ left ih =>
    refine endsAt_right hright hlinked fun hfolder => ?_
    obtain ⟨memo', hknown, hright'⟩ := knownFolder_right hgraph hright hcur
    unfold WalksRight
    rw [bind_ok hknown]
    dsimp only [FolderInfo.of]
    cases htop : cur.root with
    | true =>
      have hcurtop : cur = t.top := by
        by_contra hne
        rw [(t.parent cur hcur hne).1] at htop
        cases htop
      refine ⟨_, memo', rfl, hright', cur.id, hlinked, rfl, ?_⟩
      cases root with
      | drive =>
        rw [hcurtop]
        exact isPath_root
      | folder id =>
        refine isPath_none fun n p hp => ?_
        have hne : cur.id ≠ id := by
          rintro rfl
          have hself : (SyncRoot.folder cur.id).isFolder cur.id = true := beq_self_eq_true _
          rw [hself] at hfolder
          cases hfolder
        obtain ⟨-, -, parent, -, -, hparent, -⟩ := hp.parent hcur hne
        exact ne_top_of_parent hparent hcurtop
    | false =>
      have hne := ne_rootId hcur hfolder htop
      have hnotTop : cur ≠ t.top := by
        rintro rfl
        rw [t.top_root] at htop
        cases htop
      obtain ⟨-, p, hp, hparent, -⟩ := t.parent cur hcur hnotTop
      rw [hparent]
      dsimp only
      rw [if_neg Bool.false_ne_true]
      cases hname : isSafeName cur.name with
      | false =>
        rw [if_neg Bool.false_ne_true]
        refine ⟨_, memo', rfl, hright', cur.id, hlinked, rfl, isPath_none fun n path hplaced => ?_⟩
        rw [(hplaced.parent hcur hne).1] at hname
        cases hname
      | true =>
        rw [if_pos rfl]
        have hlinked' : Linked t (t.rootId root) ((cur.id, cur.name) :: walked) p.id :=
          ⟨⟨cur, hcur, rfl, rfl, hname, hparent, hne⟩, hlinked⟩
        obtain ⟨r, memo'', hrun, hright'', hends⟩ := ih hp hright' hlinked'
        refine ⟨r, memo'', hrun, hright'', ?_⟩
        rw [List.length_cons, Nat.add_comm walked.length, ← Nat.add_assoc] at hends
        exact hends

/-- The path of a folder of the tree is found, unless it is too deep to matter. -/
theorem folderPath_right {root : SyncRoot} (hgraph : ∀ i ∈ t.items, graph.item i.id = .ok i) {i : DriveItem}
    (hmem : i ∈ t.items) {memo : Memo} (hright : Right t (t.rootId root) memo) :
    ∃ path memo', folderPath graph root i.id memo = .ok path memo' ∧ Right t (t.rootId root) memo' ∧
      (∀ p, path = some p → ∃ n, Placed t (t.rootId root) n i.id p) ∧
        ∀ n p, Placed t (t.rootId root) n i.id p → n < maxListDepth → path = some p := by
  obtain ⟨r, memo', hrun, hright', hends⟩ := walkUp_right hgraph maxListDepth hmem hright
    (show Linked t (t.rootId root) [] i.id from trivial)
  unfold folderPath
  rw [bind_ok hrun]
  cases r with
  | none =>
    refine ⟨none, memo', rfl, hright', (fun p hp => nomatch hp), fun n p hp hn => ?_⟩
    have hle : maxListDepth + 0 ≤ n := hends n p hp
    omega
  | some r =>
    obtain ⟨cur, hlinked, horigin, hpath⟩ := hends
    obtain ⟨path, memo'', hmemo, hright'', hpath'⟩ := memoize_right hright' hlinked hpath
    rw [horigin] at hpath'
    exact ⟨path, memo'', hmemo, hright'', fun p => (hpath' p).mp, fun n p hp _ => (hpath' p).mpr ⟨n, hp⟩⟩

/-! ## The items of the feed -/

/-- An item of the feed is placed if and only if it is below the root and within the depth. -/
theorem placeItem_right {root : SyncRoot} (hgraph : ∀ i ∈ t.items, graph.item i.id = .ok i) {i : DriveItem}
    (hmem : i ∈ t.items) {memo : Memo} (hright : Right t (t.rootId root) memo) :
    ∃ placed memo', placeItem graph root i memo = .ok placed memo' ∧ Right t (t.rootId root) memo' ∧
      ∀ c, placed = some c ↔ Shown graph t (t.rootId root) i c := by
  have hnone : (∀ n path, i.id ≠ t.rootId root → ¬Placed t (t.rootId root) n i.id path) →
      ∀ c, none = some c ↔ Shown graph t (t.rootId root) i c := by
    intro hno c
    refine iff_of_false (fun h => nomatch h) ?_
    rintro ⟨-, hne, n, -, path, hplaced, -⟩
    exact hno n path hne hplaced
  unfold placeItem
  split
  next hroot =>
    refine ⟨none, memo, rfl, hright, hnone fun n path hne hplaced => ?_⟩
    obtain ⟨-, -, parent, -, -, hparent, -⟩ := hplaced.parent hmem hne
    rcases Bool.or_eq_true_iff.mp hroot with htop | hfolder
    · rw [(t.parent i hmem (ne_top_of_parent hparent)).1] at htop
      cases htop
    · exact hne (rootId_of_isFolder hfolder).symm
  next hroot =>
    obtain ⟨htop, hfolder⟩ := Bool.or_eq_false_iff.mp (Bool.eq_false_iff.mpr hroot)
    have hne := ne_rootId hmem hfolder htop
    have hnotTop : i ≠ t.top := by
      rintro rfl
      rw [t.top_root] at htop
      cases htop
    obtain ⟨-, p, hp, hparent, -⟩ := t.parent i hmem hnotTop
    cases hname : isSafeName i.name with
    | false =>
      refine ⟨none, memo, rfl, hright, hnone fun n path _ hplaced => ?_⟩
      rw [(hplaced.parent hmem hne).1] at hname
      cases hname
    | true =>
      obtain ⟨path, memo', hrun, hright', hsound, hcomplete⟩ := folderPath_right hgraph hp hright
      rw [Bool.not_true, if_neg Bool.false_ne_true, hparent]
      dsimp only
      rw [bind_ok hrun]
      cases path with
      | none =>
        refine ⟨none, memo', rfl, hright', fun c => iff_of_false (fun h => nomatch h) ?_⟩
        rintro ⟨-, -, n, hn, path, hplaced, -⟩
        obtain ⟨-, m, parent, above, rfl, hparent', habove, -⟩ := hplaced.parent hmem hne
        rw [hparent] at hparent'
        cases hparent'
        cases hcomplete m above habove (by omega)
      | some above =>
        obtain ⟨m, habove⟩ := hsound above rfl
        have hplaced : Placed t (t.rootId root) (m + 1) i.id (above ++ '/' :: i.name) :=
          .step hmem hne hname hparent habove
        dsimp only
        rw [hplaced.count]
        split
        next hdeep =>
          refine ⟨none, memo', rfl, hright', fun c => iff_of_false (fun h => nomatch h) ?_⟩
          rintro ⟨-, -, n, hn, path, hplaced', -⟩
          have hsame := hplaced.unique hplaced'
          have hcount := hplaced.count
          rw [hsame, hplaced'.count] at hcount
          omega
        next hdeep =>
          refine ⟨_, memo', rfl, hright', fun c => ⟨?_, ?_⟩⟩
          · intro hc
            cases hc
            exact ⟨hmem, hne, m + 1, Nat.le_of_not_lt hdeep, _, hplaced, rfl⟩
          · rintro ⟨-, -, n, -, path, hplaced', rfl⟩
            rw [hplaced.unique hplaced']

theorem placeItems_right {root : SyncRoot} (hgraph : ∀ i ∈ t.items, graph.item i.id = .ok i) {items : List DriveItem}
    (hitems : ∀ i ∈ items, i ∈ t.items) {memo : Memo} (hright : Right t (t.rootId root) memo) :
    ∃ files memo', placeItems graph root items memo = .ok files memo' ∧
      ∀ c, c ∈ files ↔ ∃ i ∈ items, Shown graph t (t.rootId root) i c := by
  induction items generalizing memo with
  | nil => exact ⟨[], memo, rfl, fun c => by simp⟩
  | cons i items ih =>
    obtain ⟨placed, memo', hrun, hright', hplaced⟩ := placeItem_right hgraph (hitems i List.mem_cons_self) hright
    obtain ⟨files, memo'', hrun', hfiles⟩ := ih (fun j hj => hitems j (List.mem_cons_of_mem i hj)) hright'
    refine ⟨placed.toList ++ files, memo'', ?_, fun c => ?_⟩
    · unfold placeItems
      rw [bind_ok hrun, bind_ok hrun']
      rfl
    · rw [List.mem_append, Option.mem_toList, hplaced, hfiles]
      simp

end OneDriveTree
