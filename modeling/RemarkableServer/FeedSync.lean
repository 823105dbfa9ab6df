import RemarkableServer.DocumentEntries
import RemarkableServer.Lib.Processes
import RemarkableServer.Lib.Transition

/-!
# How feed articles are put on the device

`sync_articles_to_folder` lists the articles that are not marked synced, and
then creates the EPUB of each, commits it to the sync tree as a new document
and marks the article. The articles are in one database and the sync tree is in
another, and any number of calls run at a time: a call is a state of the system
that is stepped from outside.
-/
namespace FeedSync

open RustText SyncIndex Store Documents Transition

/-- A row of the articles table. -/
structure Article where
  id : Text
  subscriptionId : Text
  title : Text
  publishedAt : Option Text
  fetchedAt : Text
  synced : Bool
  epubPath : Option Text
  deriving DecidableEq

/-- `ORDER BY published_at DESC, fetched_at DESC`; a missing time sorts below the others. -/
def Article.notOlder (a b : Article) : Bool :=
  match a.publishedAt, b.publishedAt with
  | some x, some y => decide (y < x) || (x == y && decide (b.fetchedAt ≤ a.fetchedAt))
  | some _, none => true
  | none, some _ => false
  | none, none => decide (b.fetchedAt ≤ a.fetchedAt)

/-- `list_articles` with `unsynced`. The order of rows that tie is the database's, so a listing is tested. -/
def isListing (rows : List Article) (subscriptionId : Option Text) (listed : List Article) : Bool :=
  listed.isPerm (rows.filter fun a => (subscriptionId.all (a.subscriptionId == ·)) && !a.synced) &&
    decide (listed.Pairwise fun a b => a.notOlder b)

def updateArticleEpub (rows : List Article) (id : Text) (path : Text) : List Article :=
  rows.map fun a => if a.id = id then { a with epubPath := some path } else a

def markArticleSynced (rows : List Article) (id : Text) : List Article :=
  rows.map fun a => if a.id = id then { a with synced := true } else a

/-- `INSERT OR IGNORE` of one article. -/
def saveArticle (rows : List Article) (a : Article) : List Article :=
  if rows.any (·.id == a.id) then rows else rows ++ [a]

/-! ## The sync tree -/

/-- `create_document_from` with the id it draws in the document: the document's id and the generation. -/
def createDocumentFrom (env : Env) (t : Times) (d : Document) (s : State) : State × Except DocError (Text × Nat) :=
  let (s, root) := s.getRoot t.readable
  match rootEntries s root.hash with
  | .error e => (s, .error e)
  | .ok _ =>
    match storeDocument env s t d with
    | (s, .error e) => (s, .error e)
    | (s, .ok entry) =>
      match commitToRoot env t [entry] rootRetries s with
      | (s, .error e) => (s, .error e)
      | (s, .ok generation) => (s, .ok (d.id.toText, generation))

/-- `ensure_folder`; the empty name is the top level. -/
def parentFolder (env : Env) (t : Times) (folder : Text) (attempts : List (Uuid × Int)) (s : State) :
    State × Except DocError Text :=
  if folder.isEmpty then (s, .ok []) else ensureFolder env t folder attempts s

/-! ## The calls -/

inductive Phase where
  | folder (name : Text)
  | epub (parent : Text)
  | commit (parent : Text)
  | mark (parent : Text)
  deriving DecidableEq

/-- A call of `sync_articles_to_folder`: the articles it still has of its listing, and what it does to
the first of them next. -/
structure Call where
  rest : List Article
  phase : Phase
  deriving DecidableEq

/-- The article of a call that is committed and to be marked. -/
def Call.marking (c : Call) : Option Text :=
  match c.rest, c.phase with
  | a :: _, .mark _ => some a.id
  | _, _ => none

/-- A document that a call committed to the sync tree, and the article it is of. -/
structure Delivery where
  document : Text
  article : Text
  deriving DecidableEq

/-- The two databases, the calls, the documents that were committed for articles (newest first), and
the articles of the calls that ended between the commit and the mark. -/
structure Sys where
  rows : List Article
  store : State
  calls : List Call
  committed : List Delivery
  stranded : List Text

def Sys.start (rows : List Article) (store : State) : Sys := ⟨rows, store, [], [], []⟩

/-- What a commit takes from outside: the new id, the bytes of the EPUB and the clock. -/
structure Input where
  times : Times
  id : Uuid
  epub : Bytes
  now : Int

inductive Action where
  | list (subscriptionId : Option Text) (folder : Text) (listed : List Article)
  | ensureFolder (call : Nat) (times : Times) (attempts : List (Uuid × Int))
  | epub (call : Nat) (path : Text)
  | commit (call : Nat) (input : Input)
  | commitFails (call : Nat) (input : Input)
  | mark (call : Nat)
  /-- The next step of a call fails, and the call with it. -/
  | fail (call : Nat)
  /-- The process dies, and one is started on the same databases. -/
  | crash
  /-- A refresh saves an article it found. -/
  | save (article : Article)
  /-- Others work on the store. -/
  | others (store : State)

def Call.document (a : Article) (parent : Text) (i : Input) : Document :=
  ⟨i.id, a.title, "epub".toList, .bytes i.epub, parent, i.now⟩

/-- The call is gone; the article it had committed and not marked is stranded. -/
def Sys.ends (s : Sys) (n : Nat) (c : Call) : Sys :=
  { s with calls := s.calls.eraseIdx n, stranded := c.marking.toList ++ s.stranded }

def step (env : Env) (s : Sys) : Action → Option Sys
  | .list subscriptionId folder listed =>
    if isListing s.rows subscriptionId listed then
      match listed with
      | [] => some s
      | _ :: _ => some { s with calls := ⟨listed, .folder folder⟩ :: s.calls }
    else none
  | .ensureFolder n times attempts => (s.calls[n]?).bind fun c =>
    match c.phase with
    | .folder name =>
      match parentFolder env times name attempts s.store with
      | (store, .error _) => some { s with store := store, calls := s.calls.eraseIdx n }
      | (store, .ok parent) => some { s with store := store, calls := s.calls.set n { c with phase := .epub parent } }
    | _ => none
  | .epub n path => (s.calls[n]?).bind fun c =>
    match c.rest, c.phase with
    | a :: _, .epub parent =>
      some { s with
        rows := match a.epubPath with
          | some _ => s.rows
          | none => updateArticleEpub s.rows a.id path
        calls := s.calls.set n { c with phase := .commit parent } }
    | _, _ => none
  | .commit n input => (s.calls[n]?).bind fun c =>
    match c.rest, c.phase with
    | a :: _, .commit parent =>
      match createDocumentFrom env input.times (Call.document a parent input) s.store with
      | (_, .error _) => none
      | (store, .ok (document, _)) =>
        some { s with
          store := store
          calls := s.calls.set n { c with phase := .mark parent }
          committed := ⟨document, a.id⟩ :: s.committed }
    | _, _ => none
  | .commitFails n input => (s.calls[n]?).bind fun c =>
    match c.rest, c.phase with
    | a :: _, .commit parent =>
      match createDocumentFrom env input.times (Call.document a parent input) s.store with
      | (store, .error _) => some { s with store := store, calls := s.calls.eraseIdx n }
      | (_, .ok _) => none
    | _, _ => none
  | .mark n => (s.calls[n]?).bind fun c =>
    match c.rest, c.phase with
    | a :: rest, .mark parent =>
      some { s with rows := markArticleSynced s.rows a.id, calls := match rest with
        | [] => s.calls.eraseIdx n
        | _ :: _ => s.calls.set n ⟨rest, .epub parent⟩ }
    | _, _ => none
  | .fail n => (s.calls[n]?).map (s.ends n)
  | .crash =>
    some { s with
      store := { s.store with cachedRoot := s.store.root.toSyncRoot }
      calls := []
      stranded := s.calls.filterMap Call.marking ++ s.stranded }
  | .save a => some { s with rows := saveArticle s.rows { a with synced := false, epubPath := none } }
  | .others store => some { s with store := store }

/-- Whether the table has the article marked. -/
def Sys.isSynced (s : Sys) (id : Text) : Bool := s.rows.any fun a => a.id == id && a.synced

/-- The first article of a call. -/
def Sys.article (s : Sys) (n : Nat) : Option Text := (s.calls[n]?).bind fun c => c.rest.head?.map (·.id)

/-- A commit is of an article that was not marked since it was listed, that no other call is about to
mark, and that no call left unmarked when it ended. -/
def good (s : Sys) : Action → Bool
  | .commit n _ => (s.article n).all fun id =>
    !s.isSynced id && !s.calls.any (·.marking == some id) && !s.stranded.contains id
  | _ => true

/-! ## The invariant -/

def Sys.delivered (s : Sys) : List Text := s.committed.map (·.article)

/-- An article with a document in the tree is marked, about to be marked by the call that committed the
document, or stranded; and these are the only ones that are marked though some call has them to do. -/
structure Inv (s : Sys) : Prop where
  ids : (s.rows.map (·.id)).Nodup
  known : ∀ c ∈ s.calls, ∀ a ∈ c.rest, ∃ r ∈ s.rows, r.id = a.id
  settled : ∀ id ∈ s.delivered, s.isSynced id ∨ (∃ c ∈ s.calls, c.marking = some id) ∨ id ∈ s.stranded
  marking : ∀ c ∈ s.calls, ∀ id, c.marking = some id → id ∈ s.delivered
  stranded : ∀ id ∈ s.stranded, id ∈ s.delivered
  listed : ∀ c ∈ s.calls, ∀ a ∈ c.rest, s.isSynced a.id → a.id ∈ s.delivered

theorem isSynced_iff {s : Sys} {id : Text} : s.isSynced id = true ↔ ∃ r ∈ s.rows, r.id = id ∧ r.synced = true := by
  simp only [Sys.isSynced, List.any_eq_true, Bool.and_eq_true, beq_iff_eq]

/-- Nothing is committed or marked, and a call that was about to mark an article is still, or has stranded it. -/
theorem Inv.frame {s s' : Sys} (h : Inv s) (hids : (s'.rows.map (·.id)).Nodup)
    (hknown : ∀ r ∈ s.rows, ∃ r' ∈ s'.rows, r'.id = r.id) (hsynced : ∀ id, s'.isSynced id = s.isSynced id)
    (hcommitted : s'.committed = s.committed)
    (hrest : ∀ c' ∈ s'.calls, ∀ a ∈ c'.rest, ∃ c ∈ s.calls, a ∈ c.rest)
    (hmark : ∀ c' ∈ s'.calls, ∀ id, c'.marking = some id → ∃ c ∈ s.calls, c.marking = some id)
    (hkept : ∀ c ∈ s.calls, ∀ id, c.marking = some id → (∃ c' ∈ s'.calls, c'.marking = some id) ∨ id ∈ s'.stranded)
    (hstranded : ∀ id ∈ s.stranded, id ∈ s'.stranded)
    (hends : ∀ id ∈ s'.stranded, id ∈ s.stranded ∨ ∃ c ∈ s.calls, c.marking = some id) : Inv s' := by
  have hdelivered : s'.delivered = s.delivered := by rw [Sys.delivered, hcommitted, Sys.delivered]
  constructor
  · exact hids
  · intro c' hc' a ha
    obtain ⟨c, hc, ha⟩ := hrest c' hc' a ha
    obtain ⟨r, hr, hid⟩ := h.known c hc a ha
    obtain ⟨r', hr', hid'⟩ := hknown r hr
    exact ⟨r', hr', hid'.trans hid⟩
  · intro id hid
    rw [hdelivered] at hid
    rcases h.settled id hid with hsync | ⟨c, hc, hm⟩ | hs
    · exact .inl ((hsynced id).trans hsync)
    · exact .inr (hkept c hc id hm)
    · exact .inr (.inr (hstranded id hs))
  · intro c' hc' id hm
    obtain ⟨c, hc, hm⟩ := hmark c' hc' id hm
    exact hdelivered ▸ h.marking c hc id hm
  · intro id hid
    rw [hdelivered]
    rcases hends id hid with hs | ⟨c, hc, hm⟩
    · exact h.stranded id hs
    · exact h.marking c hc id hm
  · intro c' hc' a ha hsync
    obtain ⟨c, hc, ha⟩ := hrest c' hc' a ha
    rw [hsynced] at hsync
    exact hdelivered ▸ h.listed c hc a ha hsync

/-- The rows, the calls and the store change as they do when a call goes on to another phase. -/
theorem Inv.proceed {s : Sys} (h : Inv s) {n : Nat} {c : Call} (hn : s.calls[n]? = some c) (hm : c.marking = none)
    {rows : List Article} (hids : rows.map (·.id) = s.rows.map (·.id))
    (hsynced : ∀ store calls committed stranded id,
      (⟨rows, store, calls, committed, stranded⟩ : Sys).isSynced id = s.isSynced id)
    {phase : Phase} (hm' : ({ c with phase := phase } : Call).marking = none) (store : State) :
    Inv { s with rows := rows, store := store, calls := s.calls.set n { c with phase := phase } } := by
  refine h.frame (hids ▸ h.ids) ?_ (fun id => hsynced _ _ _ _ id) rfl ?_ ?_ ?_ (fun _ hid => hid) fun _ hid => .inl hid
  · intro r hr
    have hid : r.id ∈ rows.map (·.id) := hids ▸ List.mem_map_of_mem hr
    obtain ⟨r', hr', heq⟩ := List.mem_map.mp hid
    exact ⟨r', hr', heq⟩
  · intro d hd a ha
    rcases List.mem_or_eq_of_mem_set hd with hd | rfl
    · exact ⟨d, hd, ha⟩
    · exact ⟨c, List.mem_of_getElem? hn, ha⟩
  · intro d hd id hid
    rcases List.mem_or_eq_of_mem_set hd with hd | rfl
    · exact ⟨d, hd, hid⟩
    · rw [hm'] at hid
      cases hid
  · intro d hd id hid
    rcases Processes.eq_or_mem_set hn { c with phase := phase } hd with rfl | hd
    · rw [hm] at hid
      cases hid
    · exact .inl ⟨d, hd, hid⟩

theorem Inv.ends {s : Sys} (h : Inv s) {n : Nat} {c : Call} (hn : s.calls[n]? = some c) : Inv (s.ends n c) := by
  refine h.frame h.ids (fun r hr => ⟨r, hr, rfl⟩) (fun _ => rfl) rfl ?_ ?_ ?_ ?_ ?_
  · exact fun d hd a ha => ⟨d, List.mem_of_mem_eraseIdx hd, ha⟩
  · exact fun d hd id hid => ⟨d, List.mem_of_mem_eraseIdx hd, hid⟩
  · intro d hd id hid
    rcases Processes.eq_or_mem_eraseIdx hn hd with rfl | hd
    · exact .inr (List.mem_append_left _ (Option.mem_toList.mpr hid))
    · exact .inl ⟨d, hd, hid⟩
  · exact fun id hid => List.mem_append_right _ hid
  · intro id hid
    rcases List.mem_append.mp hid with hid | hid
    · exact .inr ⟨c, List.mem_of_getElem? hn, Option.mem_toList.mp hid⟩
    · exact .inl hid

/-- A call that is not about to mark an article ends. -/
theorem Inv.ends_of_none {s : Sys} (h : Inv s) {n : Nat} {c : Call} (hn : s.calls[n]? = some c) (hm : c.marking = none)
    (store : State) : Inv { s with store := store, calls := s.calls.eraseIdx n } := by
  have hends := h.ends hn
  rw [Sys.ends, hm] at hends
  exact ⟨hends.ids, hends.known, hends.settled, hends.marking, hends.stranded, hends.listed⟩

theorem mem_rows_of_isListing {rows listed : List Article} {subscriptionId : Option Text}
    (h : isListing rows subscriptionId listed = true) {a : Article} (ha : a ∈ listed) : a ∈ rows ∧ a.synced = false := by
  rw [isListing, Bool.and_eq_true, List.isPerm_iff] at h
  obtain ⟨hrows, hcond⟩ := List.mem_filter.mp (h.1.mem_iff.mp ha)
  simp only [Bool.and_eq_true, Bool.not_eq_true'] at hcond
  exact ⟨hrows, hcond.2⟩

theorem inv_list {s : Sys} (h : Inv s) {subscriptionId : Option Text} {listed : List Article}
    (hlisted : isListing s.rows subscriptionId listed = true) (folder : Text) :
    Inv { s with calls := ⟨listed, .folder folder⟩ :: s.calls } := by
  have hnone : (⟨listed, .folder folder⟩ : Call).marking = none := by cases listed <;> rfl
  constructor
  · exact h.ids
  · intro c hc a ha
    rcases List.mem_cons.mp hc with rfl | hc
    · exact ⟨a, (mem_rows_of_isListing hlisted ha).1, rfl⟩
    · exact h.known c hc a ha
  · intro id hid
    rcases h.settled id hid with hsync | ⟨c, hc, hm⟩ | hs
    · exact .inl hsync
    · exact .inr (.inl ⟨c, List.mem_cons_of_mem _ hc, hm⟩)
    · exact .inr (.inr hs)
  · intro c hc id hm
    rcases List.mem_cons.mp hc with rfl | hc
    · rw [hnone] at hm
      cases hm
    · exact h.marking c hc id hm
  · exact h.stranded
  · intro c hc a ha hsync
    rcases List.mem_cons.mp hc with rfl | hc
    · -- a row that is listed is not marked, and no other row has its id
      obtain ⟨hrow, hunsynced⟩ := mem_rows_of_isListing hlisted ha
      obtain ⟨r, hr, hid, hrs⟩ := isSynced_iff.mp hsync
      rw [List.inj_on_of_nodup_map h.ids hr hrow hid, hunsynced] at hrs
      cases hrs
    · exact h.listed c hc a ha hsync

theorem inv_commit {s : Sys} (h : Inv s) {n : Nat} {c : Call} (hn : s.calls[n]? = some c) {a : Article}
    {rest : List Article} (hrest : c.rest = a :: rest) {parent : Text} (hphase : c.phase = .commit parent)
    (store : State) (document : Text) :
    Inv { s with
      store := store
      calls := s.calls.set n { c with phase := .mark parent }
      committed := ⟨document, a.id⟩ :: s.committed } := by
  have hmarking : ({ c with phase := .mark parent } : Call).marking = some a.id := by rw [Call.marking, hrest]
  have hnone : c.marking = none := by rw [Call.marking, hrest, hphase]
  constructor
  · exact h.ids
  · exact Processes.forall_set h.known (h.known c (List.mem_of_getElem? hn))
  · intro id hid
    rcases List.mem_cons.mp hid with rfl | hid
    · exact .inr (.inl ⟨_, Processes.mem_set_self hn _, hmarking⟩)
    · rcases h.settled id hid with hsync | ⟨d, hd, hm⟩ | hs
      · exact .inl hsync
      · rcases Processes.eq_or_mem_set hn { c with phase := .mark parent } hd with rfl | hd
        · rw [hnone] at hm
          cases hm
        · exact .inr (.inl ⟨d, hd, hm⟩)
      · exact .inr (.inr hs)
  · intro d hd id hm
    rcases List.mem_or_eq_of_mem_set hd with hd | rfl
    · exact List.mem_cons_of_mem _ (h.marking d hd id hm)
    · obtain rfl : a.id = id := Option.some.inj (hmarking.symm.trans hm)
      exact List.mem_cons_self
  · exact fun id hid => List.mem_cons_of_mem _ (h.stranded id hid)
  · intro d hd b hb hsync
    rcases List.mem_or_eq_of_mem_set hd with hd | rfl
    · exact List.mem_cons_of_mem _ (h.listed d hd b hb hsync)
    · exact List.mem_cons_of_mem _ (h.listed c (List.mem_of_getElem? hn) b hb hsync)

theorem ids_markArticleSynced (rows : List Article) (id : Text) :
    (markArticleSynced rows id).map (·.id) = rows.map (·.id) := by
  rw [markArticleSynced, List.map_map]
  refine List.map_congr_left fun a _ => ?_
  rw [Function.comp_apply]
  split <;> rfl

/-- What a mark leaves marked: what was, and the rows of the article. -/
theorem mem_markArticleSynced {rows : List Article} {id : Text} {r : Article} (hr : r ∈ markArticleSynced rows id) :
    ∃ q ∈ rows, q.id = r.id ∧ (r.synced = true → q.synced = true ∨ q.id = id) := by
  obtain ⟨q, hq, rfl⟩ := List.mem_map.mp hr
  by_cases hid : q.id = id
  · rw [if_pos hid]
    exact ⟨q, hq, rfl, fun _ => .inr hid⟩
  · rw [if_neg hid]
    exact ⟨q, hq, rfl, .inl⟩

theorem marked_of_mem {rows : List Article} {q : Article} (hq : q ∈ rows) (id : Text)
    (h : q.synced = true ∨ q.id = id) : ∃ r ∈ markArticleSynced rows id, r.id = q.id ∧ r.synced = true := by
  refine ⟨_, List.mem_map_of_mem hq, ?_⟩
  by_cases hid : q.id = id
  · rw [if_pos hid]
    exact ⟨rfl, rfl⟩
  · rw [if_neg hid]
    exact ⟨rfl, h.resolve_right hid⟩

theorem inv_mark {s : Sys} (h : Inv s) {n : Nat} {c : Call} (hn : s.calls[n]? = some c) {a : Article}
    {rest : List Article} (hrest : c.rest = a :: rest) {parent : Text} (hphase : c.phase = .mark parent)
    {calls : List Call} (hcalls : ∀ d ∈ calls, d ∈ s.calls ∨ d = ⟨rest, .epub parent⟩)
    (hkept : ∀ d ∈ s.calls, d = c ∨ d ∈ calls) :
    Inv { s with rows := markArticleSynced s.rows a.id, calls := calls } := by
  have hmem : c ∈ s.calls := List.mem_of_getElem? hn
  have hmarking : c.marking = some a.id := by rw [Call.marking, hrest, hphase]
  have hnone : (⟨rest, .epub parent⟩ : Call).marking = none := by cases rest <;> rfl
  have hold : ∀ d ∈ calls, ∀ b ∈ d.rest, ∃ d' ∈ s.calls, b ∈ d'.rest := by
    intro d hd b hb
    rcases hcalls d hd with hd | rfl
    · exact ⟨d, hd, hb⟩
    · exact ⟨c, hmem, hrest ▸ List.mem_cons_of_mem _ hb⟩
  have hsynced : ∀ id, s.isSynced id = true ∨ id = a.id →
      ({ s with rows := markArticleSynced s.rows a.id, calls := calls } : Sys).isSynced id = true := by
    intro id hid
    refine isSynced_iff.mpr ?_
    rcases hid with hid | rfl
    · obtain ⟨q, hq, rfl, hs⟩ := isSynced_iff.mp hid
      exact marked_of_mem hq a.id (.inl hs)
    · obtain ⟨q, hq, hqid⟩ := h.known c hmem a (hrest ▸ List.mem_cons_self)
      exact hqid ▸ marked_of_mem hq a.id (.inr hqid)
  constructor
  · rw [ids_markArticleSynced]
    exact h.ids
  · intro d hd b hb
    obtain ⟨d', hd', hb⟩ := hold d hd b hb
    obtain ⟨q, hq, hqid⟩ := h.known d' hd' b hb
    have hid : b.id ∈ (markArticleSynced s.rows a.id).map (·.id) := by
      rw [ids_markArticleSynced]
      exact List.mem_map.mpr ⟨q, hq, hqid⟩
    exact List.mem_map.mp hid
  · intro id hid
    rcases h.settled id hid with hsync | ⟨d, hd, hm⟩ | hs
    · exact .inl (hsynced id (.inl hsync))
    · rcases hkept d hd with rfl | hd
      · exact .inl (hsynced id (.inr (Option.some.inj (hm.symm.trans hmarking))))
      · exact .inr (.inl ⟨d, hd, hm⟩)
    · exact .inr (.inr hs)
  · intro d hd id hm
    rcases hcalls d hd with hd | rfl
    · exact h.marking d hd id hm
    · rw [hnone] at hm
      cases hm
  · exact h.stranded
  · intro d hd b hb hsync
    obtain ⟨d', hd', hb⟩ := hold d hd b hb
    obtain ⟨r, hr, hrid, hrs⟩ := isSynced_iff.mp hsync
    obtain ⟨q, hq, hqid, hqs⟩ := mem_markArticleSynced hr
    rcases hqs hrs with hqs | hqa
    · exact h.listed d' hd' b hb (isSynced_iff.mpr ⟨q, hq, hqid.trans hrid, hqs⟩)
    · -- the article that is marked now was committed by the call that marks it
      rw [← hrid, ← hqid, hqa]
      exact h.marking c hmem a.id hmarking

theorem ids_updateArticleEpub (rows : List Article) (id path : Text) :
    (updateArticleEpub rows id path).map (·.id) = rows.map (·.id) := by
  rw [updateArticleEpub, List.map_map]
  refine List.map_congr_left fun a _ => ?_
  rw [Function.comp_apply]
  split <;> rfl

theorem any_updateArticleEpub (rows : List Article) (id path x : Text) :
    (updateArticleEpub rows id path).any (fun a => a.id == x && a.synced) = rows.any fun a => a.id == x && a.synced := by
  rw [updateArticleEpub, List.any_map]
  congr 1
  funext a
  rw [Function.comp_apply]
  split <;> rfl

theorem inv_save {s : Sys} (h : Inv s) (a : Article) (hunsynced : a.synced = false) :
    Inv { s with rows := saveArticle s.rows a } := by
  by_cases hany : s.rows.any (·.id == a.id) = true
  · rw [saveArticle, if_pos hany]
    exact h
  · rw [saveArticle, if_neg hany]
    refine h.frame ?_ (fun r hr => ⟨r, List.mem_append_left _ hr, rfl⟩) ?_ rfl (fun c hc b hb => ⟨c, hc, hb⟩)
      (fun c hc id hm => ⟨c, hc, hm⟩) (fun c hc id hm => .inl ⟨c, hc, hm⟩) (fun _ hid => hid) fun _ hid => .inl hid
    · simp only [List.any_eq_true, beq_iff_eq, not_exists, not_and] at hany
      rw [List.map_append, List.nodup_append]
      refine ⟨h.ids, List.nodup_singleton _, ?_⟩
      intro x hx y hy hxy
      obtain ⟨r, hr, rfl⟩ := List.mem_map.mp hx
      exact hany r hr (hxy.trans (List.mem_singleton.mp hy))
    · intro id
      simp [Sys.isSynced, hunsynced]

variable {env : Env}

/-- A commit that succeeds: the call it is of, its first article, and what is written. -/
theorem step_commit {s s' : Sys} {n : Nat} {input : Input} (h : step env s (.commit n input) = some s') :
    ∃ c a rest parent store document, s.calls[n]? = some c ∧ c.rest = a :: rest ∧ c.phase = .commit parent ∧
      s' = { s with
        store := store
        calls := s.calls.set n { c with phase := .mark parent }
        committed := ⟨document, a.id⟩ :: s.committed } := by
  obtain ⟨c, hn, h⟩ := Option.bind_eq_some_iff.mp h
  split at h
  · next a rest parent hrest hphase =>
    split at h
    · cases h
    · exact ⟨c, a, rest, parent, _, _, hn, hrest, hphase, (Option.some.inj h).symm⟩
  · cases h

theorem inv_step (s : Sys) (a : Action) (s' : Sys) (h : Inv s) (hstep : step env s a = some s') : Inv s' := by
  cases a with
  | list subscriptionId folder listed =>
    simp only [step] at hstep
    split at hstep
    · next hlisted =>
      split at hstep
      · cases hstep
        exact h
      · cases hstep
        exact inv_list h hlisted folder
    · cases hstep
  | ensureFolder n times attempts =>
    obtain ⟨c, hn, hstep⟩ := Option.bind_eq_some_iff.mp hstep
    split at hstep
    · next name hphase =>
      have hnone : c.marking = none := by
        rw [Call.marking, hphase]
        cases c.rest <;> rfl
      split at hstep
      · cases hstep
        exact h.ends_of_none hn hnone _
      · cases hstep
        refine h.proceed hn hnone rfl (fun _ _ _ _ _ => rfl) ?_ _
        rw [Call.marking]
        cases c.rest <;> rfl
    · cases hstep
  | epub n path =>
    obtain ⟨c, hn, hstep⟩ := Option.bind_eq_some_iff.mp hstep
    split at hstep
    · next a rest parent hrest hphase =>
      have hnone : c.marking = none := by rw [Call.marking, hrest, hphase]
      have hnone' : ({ c with phase := .commit parent } : Call).marking = none := by rw [Call.marking, hrest]
      cases hstep
      cases a.epubPath with
      | some _ => exact h.proceed hn hnone rfl (fun _ _ _ _ _ => rfl) hnone' _
      | none =>
        exact h.proceed hn hnone (ids_updateArticleEpub _ _ _) (fun _ _ _ _ _ => any_updateArticleEpub _ _ _ _) hnone' _
    · cases hstep
  | commit n input =>
    obtain ⟨c, a, rest, parent, store, document, hn, hrest, hphase, rfl⟩ := step_commit hstep
    exact inv_commit h hn hrest hphase store document
  | commitFails n input =>
    obtain ⟨c, hn, hstep⟩ := Option.bind_eq_some_iff.mp hstep
    split at hstep
    · next a rest parent hrest hphase =>
      split at hstep
      · cases hstep
        exact h.ends_of_none hn (by rw [Call.marking, hrest, hphase]) _
      · cases hstep
    · cases hstep
  | mark n =>
    obtain ⟨c, hn, hstep⟩ := Option.bind_eq_some_iff.mp hstep
    split at hstep
    · next a rest parent hrest hphase =>
      cases hstep
      refine inv_mark h hn hrest hphase ?_ ?_
      · intro d hd
        split at hd
        · exact .inl (List.mem_of_mem_eraseIdx hd)
        · exact List.mem_or_eq_of_mem_set hd
      · intro d hd
        split
        · exact Processes.eq_or_mem_eraseIdx hn hd
        · exact Processes.eq_or_mem_set hn _ hd
    · cases hstep
  | fail n =>
    obtain ⟨c, hn, rfl⟩ := Option.map_eq_some_iff.mp hstep
    exact h.ends hn
  | crash =>
    cases hstep
    refine h.frame h.ids (fun r hr => ⟨r, hr, rfl⟩) (fun _ => rfl) rfl (by simp) (by simp) ?_ ?_ ?_
    · exact fun c hc id hm => .inr (List.mem_append_left _ (List.mem_filterMap.mpr ⟨c, hc, hm⟩))
    · exact fun id hid => List.mem_append_right _ hid
    · intro id hid
      rcases List.mem_append.mp hid with hid | hid
      · exact .inr (List.mem_filterMap.mp hid)
      · exact .inl hid
  | save a =>
    cases hstep
    exact inv_save h _ rfl
  | others store =>
    cases hstep
    exact ⟨h.ids, h.known, h.settled, h.marking, h.stranded, h.listed⟩

theorem inv_start {rows : List Article} (hrows : (rows.map (·.id)).Nodup) (store : State) : Inv (.start rows store) where
  ids := hrows
  known := fun _ hc => by cases hc
  settled := fun _ hid => by cases hid
  marking := fun _ hc => by cases hc
  stranded := fun _ hid => by cases hid
  listed := fun _ hc => by cases hc

/-! ## At most one document -/

/-- A commit of an article is good exactly if no document was committed for the article before. -/
theorem good_iff {s s' : Sys} (h : Inv s) {n : Nat} {input : Input} (hstep : step env s (.commit n input) = some s') :
    ∃ id, s'.delivered = id :: s.delivered ∧ (good s (.commit n input) = true ↔ id ∉ s.delivered) := by
  obtain ⟨c, a, rest, parent, store, document, hn, hrest, hphase, rfl⟩ := step_commit hstep
  refine ⟨a.id, rfl, ?_⟩
  have hcond : good s (.commit n input) = true ↔
      s.isSynced a.id = false ∧ (∀ d ∈ s.calls, d.marking ≠ some a.id) ∧ a.id ∉ s.stranded := by
    simp [good, Sys.article, hn, hrest, and_assoc]
  rw [hcond]
  constructor
  · rintro ⟨hsync, hmarking, hstranded⟩ hid
    rcases h.settled a.id hid with hs | ⟨d, hd, hm⟩ | hs
    · rw [hsync] at hs
      cases hs
    · exact hmarking d hd hm
    · exact hstranded hs
  · intro hid
    refine ⟨Bool.eq_false_iff.mpr fun hs => hid ?_, fun d hd hm => hid (h.marking d hd a.id hm),
      fun hs => hid (h.stranded a.id hs)⟩
    exact h.listed c (List.mem_of_getElem? hn) a (hrest ▸ List.mem_cons_self) hs

/-- Only a commit adds a document. -/
theorem committed_of_step {s s' : Sys} {a : Action} (hstep : step env s a = some s') :
    s'.committed = s.committed ∨ ∃ n input, a = .commit n input := by
  cases a with
  | commit n input => exact .inr ⟨n, input, rfl⟩
  | list subscriptionId folder listed =>
    simp only [step] at hstep
    split at hstep
    · split at hstep <;> cases hstep <;> exact .inl rfl
    · cases hstep
  | ensureFolder n times attempts =>
    obtain ⟨c, hn, hstep⟩ := Option.bind_eq_some_iff.mp hstep
    split at hstep
    · split at hstep <;> cases hstep <;> exact .inl rfl
    · cases hstep
  | epub n path =>
    obtain ⟨c, hn, hstep⟩ := Option.bind_eq_some_iff.mp hstep
    split at hstep <;> cases hstep
    exact .inl rfl
  | commitFails n input =>
    obtain ⟨c, hn, hstep⟩ := Option.bind_eq_some_iff.mp hstep
    split at hstep
    · split at hstep <;> cases hstep
      exact .inl rfl
    · cases hstep
  | mark n =>
    obtain ⟨c, hn, hstep⟩ := Option.bind_eq_some_iff.mp hstep
    split at hstep <;> cases hstep
    exact .inl rfl
  | fail n =>
    obtain ⟨c, hn, rfl⟩ := Option.map_eq_some_iff.mp hstep
    exact .inl rfl
  | crash => cases hstep; exact .inl rfl
  | save a => cases hstep; exact .inl rfl
  | others store => cases hstep; exact .inl rfl

/-- One step keeps to one document an article exactly if it is good. -/
theorem nodup_step {s s' : Sys} {a : Action} (h : Inv s) (hstep : step env s a = some s') :
    s'.delivered.Nodup ↔ good s a = true ∧ s.delivered.Nodup := by
  rcases committed_of_step hstep with hsame | ⟨n, input, rfl⟩
  · have hgood : good s a = true := by
      cases a with
      | commit n input =>
        obtain ⟨id, hid, -⟩ := good_iff h hstep
        rw [Sys.delivered, hsame] at hid
        exact absurd hid.symm (List.cons_ne_self id _)
      | _ => rfl
    simp [Sys.delivered, hsame, hgood]
  · obtain ⟨id, hid, hgood⟩ := good_iff h hstep
    rw [hid, List.nodup_cons, hgood]

theorem nodup_run {s s' : Sys} {as : List Action} (h : Inv s) (hrun : run (step env) s as = some s') :
    s'.delivered.Nodup ↔ AllGood (step env) (fun s a => good s a = true) s as ∧ s.delivered.Nodup := by
  induction as generalizing s with
  | nil =>
    cases hrun
    exact ⟨fun hs => ⟨trivial, hs⟩, And.right⟩
  | cons a as ih =>
    obtain ⟨s₁, hstep, hrun⟩ := run_cons_eq_some.mp hrun
    rw [ih (inv_step s a s₁ h hstep) hrun, nodup_step h hstep, AllGood, hstep]
    constructor
    · rintro ⟨hall, hgood, hs⟩
      exact ⟨⟨hgood, fun s₂ hs₂ => Option.some.inj hs₂ ▸ hall⟩, hs⟩
    · rintro ⟨⟨hgood, hall⟩, hs⟩
      exact ⟨hall s₁ rfl, hgood, hs⟩

/-- In a run of any calls from a table whose ids are unique, every article has at most one document committed
exactly if every commit of the run is good. -/
theorem one_document_iff (env : Env) (rows : List Article) (store : State) (hrows : (rows.map (·.id)).Nodup)
    (as : List Action) (s : Sys) (hrun : run (step env) (.start rows store) as = some s) :
    (s.committed.map (·.article)).Nodup ↔ AllGood (step env) (fun s a => good s a = true) (.start rows store) as := by
  have h := nodup_run (inv_start hrows store) hrun
  exact ⟨fun hs => (h.mp hs).1, fun hall => h.mpr ⟨hall, List.nodup_nil⟩⟩

/-! ## Concrete runs -/

def postId : Text := "7d3f9a52-1c4e-4b60-9f21-3a5d8e6b0c11".toList

def post : Article := ⟨postId, "s".toList, "Post".toList, none, "2026".toList, false, none⟩

def postEpub : Text := "Post_7d3f9a52.epub".toList

def uuid (byte : UInt8) : Uuid := ⟨byte :: List.replicate 15 byte, by rw [List.length_cons, List.length_replicate]⟩

def input (byte : UInt8) : Input := ⟨⟨true, 0, 0⟩, uuid byte, [0x50, 0x4B], 0⟩

/-- A call for every subscription, up to the commit of the only article as the document of this id. -/
def upToCommit (byte : UInt8) : List Action :=
  [.list none [] [post], .ensureFolder 0 ⟨true, 0, 0⟩ [], .epub 0 postEpub, .commit 0 (input byte)]

/-- The process dies before the article is marked; the next process lists the article again. -/
def crashBeforeMark : List Action :=
  upToCommit 1 ++ [.crash, .list none [] [{ post with epubPath := some postEpub }]] ++ (upToCommit 2).tail

/-- A call is made while another has committed the article, and commits it too; both mark it. -/
def overlappingCalls : List Action :=
  upToCommit 1 ++ [.list (some "s".toList) [] [{ post with epubPath := some postEpub }]] ++ (upToCommit 2).tail ++
    [.mark 0, .mark 0]

/-- A call that marks what it committed, and another after it. -/
def oneAfterTheOther : List Action := upToCommit 1 ++ [.mark 0, .list none [] []]

/-- The runs begin with the same steps, which are evaluated once. -/
theorem evaluated_runs :
    (run (step .writing) (.start [post] (.new ∅ none [])) crashBeforeMark).map (fun s =>
      (s.committed, (rootEntries s.store s.store.root.hash).toOption.map (·.map (·.name)))) =
        some ([⟨(uuid 2).toText, postId⟩, ⟨(uuid 1).toText, postId⟩], some [(uuid 1).toText, (uuid 2).toText]) ∧
    (run (step .writing) (.start [post] (.new ∅ none [])) overlappingCalls).map (fun s => (s.calls, s.committed)) =
      some ([], [⟨(uuid 2).toText, postId⟩, ⟨(uuid 1).toText, postId⟩]) ∧
    (run (step .writing) (.start [post] (.new ∅ none [])) oneAfterTheOther).map (·.committed.length) = some 1 := by
  decide +kernel

theorem article_committed_twice :
    (∃ s, run (step .writing) (.start [post] (.new ∅ none [])) crashBeforeMark = some s ∧
      s.committed = [⟨(uuid 2).toText, postId⟩, ⟨(uuid 1).toText, postId⟩] ∧
        (rootEntries s.store s.store.root.hash).toOption.map (·.map (·.name)) = some [(uuid 1).toText, (uuid 2).toText]) ∧
    ∃ s, run (step .writing) (.start [post] (.new ∅ none [])) overlappingCalls = some s ∧ s.calls = [] ∧
      s.committed = [⟨(uuid 2).toText, postId⟩, ⟨(uuid 1).toText, postId⟩] := by
  obtain ⟨hcrash, hoverlap, -⟩ := evaluated_runs
  constructor
  · obtain ⟨s, hs, hfacts⟩ := Option.map_eq_some_iff.mp hcrash
    exact ⟨s, hs, congrArg Prod.fst hfacts, congrArg Prod.snd hfacts⟩
  · obtain ⟨s, hs, hfacts⟩ := Option.map_eq_some_iff.mp hoverlap
    exact ⟨s, hs, congrArg Prod.fst hfacts, congrArg Prod.snd hfacts⟩

theorem one_document_one_after_the_other : ∃ s,
    run (step .writing) (.start [post] (.new ∅ none [])) oneAfterTheOther = some s ∧ s.committed.length = 1 ∧
      AllGood (step .writing) (fun s a => good s a = true) (.start [post] (.new ∅ none [])) oneAfterTheOther := by
  obtain ⟨s, hs, hlen⟩ := Option.map_eq_some_iff.mp evaluated_runs.2.2
  refine ⟨s, hs, hlen, (one_document_iff .writing [post] (.new ∅ none []) (by decide) oneAfterTheOther s hs).mp ?_⟩
  obtain ⟨d, hd⟩ := List.length_eq_one_iff.mp hlen
  rw [hd]
  exact List.nodup_singleton _

end FeedSync
