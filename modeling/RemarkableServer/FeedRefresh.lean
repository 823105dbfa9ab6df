import Mathlib.Algebra.Group.Nat.Defs
import RemarkableServer.CalDav
import RemarkableServer.FeedSync
import RemarkableServer.Lib.TextSearch

/-!
# How a refresh saves the entries of a feed

`fetch_feed` takes the entries of a feed one by one and looks for the URL of
each in the articles table. Those it does not find become articles, which
`save_articles` inserts once the whole feed was looked through. The lock on the
database is taken for one lookup and for one save, so that the steps of several
refreshes of a subscription come in any order.
-/
namespace FeedRefresh

open RustText Transition

/-- What `fetch_feed` reads of an entry of a parsed feed. Times are their RFC 3339 texts. -/
structure Entry where
  id : Text
  title : Option Text
  /-- The `href` of each link. -/
  links : List Text
  authors : List Text
  /-- The body of the content, if there is content. -/
  content : Option (Option Text)
  summary : Option Text
  published : Option Text
  updated : Option Text
  deriving DecidableEq

/-- A row of the articles table. -/
structure Row where
  id : Text
  subscriptionId : Text
  title : Text
  url : Text
  author : Option Text
  summary : Option Text
  contentHtml : Option Text
  contentText : Option Text
  publishedAt : Option Text
  fetchedAt : Text
  read : Bool
  synced : Bool
  epubPath : Option Text
  wordCount : Option Nat
  deriving DecidableEq

structure Article extends Row where
  readingTimeMins : Option Nat
  deriving DecidableEq

/-- The characters outside the tags; `inTag` is set in a tag. -/
def outsideTags (inTag : Bool) : Text → Text
  | [] => []
  | c :: t =>
    if c = '<' then outsideTags true t
    else if c = '>' then outsideTags false t
    else if inTag then outsideTags inTag t
    else c :: outsideTags inTag t

def entities : List (Text × Text) :=
  [("&nbsp;".toList, " ".toList), ("&amp;".toList, "&".toList), ("&lt;".toList, "<".toList), ("&gt;".toList, ">".toList),
    ("&quot;".toList, "\"".toList), ("&#39;".toList, "'".toList)]

def stripHtml (html : Text) : Text :=
  entities.foldl (fun t entity => TextSearch.replace entity.1 entity.2 t) (outsideTags false html)

/-- The first link of an entry, or the empty text. -/
def Entry.url (e : Entry) : Text := e.links.head?.getD []

/-- The article that `fetch_feed` makes of an entry. -/
def articleOf (subscriptionId now id : Text) (e : Entry) : Article :=
  let contentHtml := (e.content.bind fun body => body).or e.summary
  let contentText := contentHtml.map stripHtml
  let wordCount := contentText.map fun t => (CalDav.splitWhitespace t).length % 2 ^ 32
  { id := id
    subscriptionId := subscriptionId
    title := e.title.getD "Untitled".toList
    url := e.url
    author := e.authors.head?
    summary := e.summary
    contentHtml := contentHtml
    contentText := contentText
    publishedAt := e.published.or e.updated
    fetchedAt := now
    read := false
    synced := false
    epubPath := none
    wordCount := wordCount
    readingTimeMins := wordCount.map fun w => max (w / 200) 1 }

def articleExistsByUrl (rows : List Row) (subscriptionId url : Text) : Bool :=
  rows.any fun r => r.subscriptionId == subscriptionId && r.url == url

/-- `INSERT OR IGNORE` of one article, with the count of those that were inserted. -/
def saveArticle (acc : List Row × Nat) (a : Article) : List Row × Nat :=
  if acc.1.any (·.id == a.id) then acc else (acc.1 ++ [a.toRow], acc.2 + 1)

def saveArticles (rows : List Row) (articles : List Article) : List Row × Nat := articles.foldl saveArticle (rows, 0)

/-- What the sync to the device lists of a row. -/
def Row.listed (r : Row) : FeedSync.Article :=
  ⟨r.id, r.subscriptionId, r.title, r.publishedAt, r.fetchedAt, r.synced, r.epubPath⟩

/-- A saved article is there for the next sync to the device. -/
theorem listed_saveArticle (acc : List Row × Nat) (a : Article) :
    (saveArticle acc a).1.map Row.listed = FeedSync.saveArticle (acc.1.map Row.listed) a.listed := by
  have hany : (acc.1.map Row.listed).any (·.id == a.listed.id) = acc.1.any (·.id == a.id) := List.any_map
  rw [saveArticle, FeedSync.saveArticle, hany]
  split
  · rfl
  · exact List.map_append

/-! ## The refreshes -/

/-- A refresh whose feed is parsed: the entries it still has to look up, and the articles it is to save. -/
structure Refresh where
  now : Text
  rest : List Entry
  articles : List Article
  deriving DecidableEq

/-- The table, the refreshes of one subscription, the ids that were drawn, each with the entry it was
drawn for, and the entries of the feeds that were parsed. -/
structure Sys where
  rows : List Row
  refreshes : List Refresh
  sources : List (Text × Entry)
  seen : List Entry

def Sys.start (rows : List Row) : Sys := ⟨rows, [], [], []⟩

inductive Action where
  /-- A refresh of the subscription has parsed a feed. -/
  | fetch (entries : List Entry) (now : Text)
  /-- A refresh draws an id for its next entry and looks the entry up. -/
  | check (refresh : Nat) (id : Text)
  | save (refresh : Nat)
  /-- An article of another subscription is saved. -/
  | other (row : Row)

/-- Ids of version 4 are drawn once. -/
def Sys.unused (s : Sys) (id : Text) : Bool := !s.sources.any (·.1 == id) && !s.rows.any (·.id == id)

def step (subscriptionId : Text) (s : Sys) : Action → Option Sys
  | .fetch entries now => some { s with refreshes := ⟨now, entries, []⟩ :: s.refreshes, seen := entries ++ s.seen }
  | .check n id => (s.refreshes[n]?).bind fun f =>
    match f.rest with
    | [] => none
    | e :: rest =>
      if s.unused id then
        if articleExistsByUrl s.rows subscriptionId e.url then
          some { s with
            refreshes := s.refreshes.set n { f with rest := rest }
            sources := (id, e) :: s.sources }
        else
          some { s with
            refreshes := s.refreshes.set n ⟨f.now, rest, f.articles ++ [articleOf subscriptionId f.now id e]⟩
            sources := (id, e) :: s.sources }
      else none
  | .save n => (s.refreshes[n]?).bind fun f =>
    match f.rest with
    | [] => some { s with rows := (saveArticles s.rows f.articles).1, refreshes := s.refreshes.eraseIdx n }
    | _ :: _ => none
  | .other row =>
    if row.subscriptionId ≠ subscriptionId ∧ s.unused row.id then some { s with rows := s.rows ++ [row] } else none

/-! ## The entries of the rows -/

/-- Two entries are the same if their keys are equal. -/
inductive EntryKey where
  | link (href : Text)
  | id (id : Text)
  deriving DecidableEq

def Entry.key (e : Entry) : EntryKey :=
  match e.links.head? with
  | some href => .link href
  | none => .id e.id

/-- The key of the entry that an id was drawn for. -/
def Sys.keyOf (s : Sys) (id : Text) : Option EntryKey := (s.sources.lookup id).map Entry.key

/-- The rows of the subscription. -/
def Sys.articles (subscriptionId : Text) (s : Sys) : List Row := s.rows.filter (·.subscriptionId == subscriptionId)

def Sys.stored (subscriptionId : Text) (s : Sys) : List (Option EntryKey) := (s.articles subscriptionId).map (s.keyOf ·.id)

/-- The keys of the articles that are to be saved. -/
def Sys.held (s : Sys) : List (Option EntryKey) := s.refreshes.flatMap fun f => f.articles.map (s.keyOf ·.id)

/-- The articles of the subscription are one row for each distinct entry. -/
structure Sys.OneRowEach (subscriptionId : Text) (s : Sys) : Prop where
  rowOf : ∀ r ∈ s.articles subscriptionId, ∃ e ∈ s.seen, s.keyOf r.id = some e.key ∧
    ∃ now, r = (articleOf subscriptionId now r.id e).toRow
  distinct : (s.stored subscriptionId).Nodup
  covered : ∀ e ∈ s.seen, some e.key ∈ s.stored subscriptionId

/-- An entry whose URL is in the table has a row or is to be saved by some refresh; one whose URL is not in
the table is to be saved by none, the one that looks it up included. -/
def good (subscriptionId : Text) (s : Sys) : Action → Bool
  | .check n _ => ((s.refreshes[n]?).bind (·.rest.head?)).all fun e =>
    if articleExistsByUrl s.rows subscriptionId e.url then (s.stored subscriptionId ++ s.held).contains (some e.key)
    else !s.held.contains (some e.key)
  | _ => true

/-! ## What the table and the refreshes have -/

/-- The ids of the articles that are to be saved. -/
def Sys.heldIds (s : Sys) : List Text := s.refreshes.flatMap fun f => f.articles.map (·.id)

def Sys.keys (subscriptionId : Text) (s : Sys) : List (Option EntryKey) := s.stored subscriptionId ++ s.held

/-- A row of the subscription and an article that is to be saved are of an entry that was looked up, and an
entry that was looked up has its URL in the table or is one of these. -/
structure Inv (subscriptionId : Text) (s : Sys) : Prop where
  rows : ∀ r ∈ s.articles subscriptionId, ∃ e ∈ s.sources.map Prod.snd, s.keyOf r.id = some e.key ∧
    ∃ now, r = (articleOf subscriptionId now r.id e).toRow
  articles : ∀ f ∈ s.refreshes, ∀ a ∈ f.articles, ∃ e ∈ s.sources.map Prod.snd, s.keyOf a.id = some e.key ∧
    a = articleOf subscriptionId f.now a.id e
  ids : s.heldIds.Nodup
  unsaved : ∀ id ∈ s.heldIds, ∀ r ∈ s.rows, r.id ≠ id
  looked : ∀ e ∈ s.sources.map Prod.snd,
    articleExistsByUrl s.rows subscriptionId e.url = true ∨ some e.key ∈ s.keys subscriptionId
  seen : ∀ e, e ∈ s.seen ↔ e ∈ s.sources.map Prod.snd ∨ ∃ f ∈ s.refreshes, e ∈ f.rest

variable {subscriptionId : Text} {s s' : Sys}

theorem unused_iff {id : Text} : s.unused id = true ↔ (∀ p ∈ s.sources, p.1 ≠ id) ∧ ∀ r ∈ s.rows, r.id ≠ id := by
  simp [Sys.unused]

theorem existsByUrl_iff {rows : List Row} {url : Text} :
    articleExistsByUrl rows subscriptionId url = true ↔ ∃ r ∈ rows, r.subscriptionId = subscriptionId ∧ r.url = url := by
  simp [articleExistsByUrl]

theorem existsByUrl_append {rows : List Row} {url : Text} (h : articleExistsByUrl rows subscriptionId url = true) (added : List Row) :
    articleExistsByUrl (rows ++ added) subscriptionId url = true := by
  rw [articleExistsByUrl, List.any_append, Bool.or_eq_true]
  exact .inl h

/-- The same entry has the same URL. -/
theorem url_eq_of_key_eq {e e' : Entry} (h : e.key = e'.key) : e.url = e'.url := by
  unfold Entry.key at h
  unfold Entry.url
  split at h
  next href hlink =>
    split at h
    next href' hlink' =>
      cases h
      rw [hlink, hlink']
    next hlink' => cases h
  next hlink =>
    split at h
    next href' hlink' => cases h
    next hlink' => rw [hlink, hlink']

/-- An id that has a key was drawn. -/
theorem ne_of_unused {id id' : Text} {k : EntryKey} (hid : s.unused id = true) (h : s.keyOf id' = some k) : id' ≠ id := by
  rintro rfl
  obtain ⟨e, hlookup, -⟩ := Option.map_eq_some_iff.mp h
  obtain ⟨before, after, hsources, -⟩ := List.lookup_eq_some_iff.mp hlookup
  exact (unused_iff.mp hid).1 (id', e) (hsources ▸ List.mem_append_right before List.mem_cons_self) rfl

theorem keyOf_draw {id id' : Text} {k : EntryKey} (hid : s.unused id = true) (h : s.keyOf id' = some k) (e : Entry)
    (hsources : s'.sources = (id, e) :: s.sources) : s'.keyOf id' = s.keyOf id' := by
  have hne : (id' == id) = false := beq_eq_false_iff_ne.mpr (ne_of_unused hid h)
  rw [Sys.keyOf, hsources, List.lookup_cons, hne]
  rfl

theorem keyOf_drawn {id : Text} {e : Entry} (hsources : s'.sources = (id, e) :: s.sources) : s'.keyOf id = some e.key := by
  rw [Sys.keyOf, hsources, List.lookup_cons_self, Option.map_some]

theorem mem_heldIds {id : Text} : id ∈ s.heldIds ↔ ∃ f ∈ s.refreshes, ∃ a ∈ f.articles, a.id = id := by
  simp [Sys.heldIds]

theorem Inv.stored_draw (h : Inv subscriptionId s) {id : Text} (hid : s.unused id = true) {e : Entry}
    (hsources : s'.sources = (id, e) :: s.sources) (hrows : s'.rows = s.rows) :
    s'.stored subscriptionId = s.stored subscriptionId := by
  rw [Sys.stored, Sys.stored, Sys.articles, hrows]
  refine List.map_congr_left fun r hr => ?_
  obtain ⟨e', -, hkey, -⟩ := h.rows r hr
  exact keyOf_draw hid hkey e hsources

theorem Inv.held_draw (h : Inv subscriptionId s) {id : Text} (hid : s.unused id = true) {e : Entry}
    (hsources : s'.sources = (id, e) :: s.sources) {f : Refresh} (hf : f ∈ s.refreshes) :
    f.articles.map (s'.keyOf ·.id) = f.articles.map (s.keyOf ·.id) := by
  refine List.map_congr_left fun a ha => ?_
  obtain ⟨e', -, hkey, -⟩ := h.articles f hf a ha
  exact keyOf_draw hid hkey e hsources

/-- Articles whose ids are new are all saved, in their order. -/
theorem saveArticles_eq {rows : List Row} {articles : List Article} (hids : (articles.map (·.id)).Nodup)
    (hnew : ∀ a ∈ articles, ∀ r ∈ rows, r.id ≠ a.id) :
    saveArticles rows articles = (rows ++ articles.map (·.toRow), articles.length) := by
  suffices h : ∀ n, articles.foldl saveArticle (rows, n) = (rows ++ articles.map (·.toRow), n + articles.length) by
    rw [saveArticles, h, Nat.zero_add]
  intro n
  induction articles generalizing rows n with
  | nil => simp
  | cons a articles ih =>
    rw [List.map_cons, List.nodup_cons] at hids
    have ha : rows.any (·.id == a.id) = false := by simpa using hnew a List.mem_cons_self
    rw [List.foldl_cons, saveArticle, ha, if_neg Bool.false_ne_true, ih hids.2, List.map_cons, List.append_assoc,
      List.length_cons, Nat.add_assoc, Nat.add_comm 1]
    · rfl
    · intro b hb r hr
      rcases List.mem_append.mp hr with hr | hr
      · exact hnew b (List.mem_cons_of_mem _ hb) r hr
      · rw [List.mem_singleton.mp hr]
        exact fun heq => hids.1 (List.mem_map.mpr ⟨b, hb, heq.symm⟩)

/-! ## The steps -/

/-- A refresh went on to its next entry, with these new articles. -/
def Sys.advanced (s : Sys) (n : Nat) (id : Text) (f : Refresh) (e : Entry) (rest : List Entry) (new : List Article) : Sys :=
  { s with
    refreshes := s.refreshes.set n ⟨f.now, rest, f.articles ++ new⟩
    sources := (id, e) :: s.sources }

theorem check_cases {n : Nat} {id : Text} (h : step subscriptionId s (.check n id) = some s') :
    ∃ f e rest, s.refreshes[n]? = some f ∧ f.rest = e :: rest ∧ s.unused id = true ∧
      (articleExistsByUrl s.rows subscriptionId e.url = true ∧ s' = s.advanced n id f e rest [] ∨
        articleExistsByUrl s.rows subscriptionId e.url = false ∧
          s' = s.advanced n id f e rest [articleOf subscriptionId f.now id e]) := by
  rw [step, Option.bind_eq_some_iff] at h
  obtain ⟨f, hf, h⟩ := h
  split at h
  next => cases h
  next e rest hrest =>
    split at h
    next hid =>
      refine ⟨f, e, rest, hf, hrest, hid, ?_⟩
      split at h
      next hurl =>
        cases h
        rw [Sys.advanced, List.append_nil]
        exact .inl ⟨hurl, rfl⟩
      next hurl =>
        cases h
        exact .inr ⟨Bool.eq_false_of_not_eq_true hurl, rfl⟩
    next => cases h

theorem save_cases {n : Nat} (h : step subscriptionId s (.save n) = some s') :
    ∃ f, s.refreshes[n]? = some f ∧ f.rest = [] ∧
      s' = { s with rows := (saveArticles s.rows f.articles).1, refreshes := s.refreshes.eraseIdx n } := by
  rw [step, Option.bind_eq_some_iff] at h
  obtain ⟨f, hf, h⟩ := h
  split at h
  next hrest =>
    cases h
    exact ⟨f, hf, hrest, rfl⟩
  next => cases h

theorem Inv.held_advanced (h : Inv subscriptionId s) {n : Nat} {id : Text} {f : Refresh} (hf : s.refreshes[n]? = some f)
    (hid : s.unused id = true) (e : Entry) (rest : List Entry) {new : List Article} (hnew : ∀ a ∈ new, a.id = id) :
    (s.advanced n id f e rest new).held.Perm (new.map (fun _ => some e.key) ++ s.held) := by
  have hnewKeys : new.map ((s.advanced n id f e rest new).keyOf ·.id) = new.map fun _ => some e.key :=
    List.map_congr_left fun a ha => (hnew a ha).symm ▸ keyOf_drawn rfl
  have hothers : (s.refreshes.eraseIdx n).flatMap (fun g => g.articles.map ((s.advanced n id f e rest new).keyOf ·.id)) =
      (s.refreshes.eraseIdx n).flatMap fun g => g.articles.map (s.keyOf ·.id) :=
    List.flatMap_congr fun g hg => h.held_draw hid rfl (List.mem_of_mem_eraseIdx hg)
  have hheld : s.held.Perm (f.articles.map (s.keyOf ·.id) ++
      (s.refreshes.eraseIdx n).flatMap fun g => g.articles.map (s.keyOf ·.id)) :=
    (Processes.perm_cons_eraseIdx hf).flatMap_right _
  have hperm := (Processes.set_perm_cons_eraseIdx hf ⟨f.now, rest, f.articles ++ new⟩).flatMap_right
    fun g => g.articles.map ((s.advanced n id f e rest new).keyOf ·.id)
  rw [List.flatMap_cons, List.map_append, hothers, hnewKeys, h.held_draw hid rfl (List.mem_of_getElem? hf)] at hperm
  refine hperm.trans ((List.perm_append_comm.append_right _).trans ?_)
  rw [List.append_assoc]
  exact hheld.symm.append_left _

theorem Inv.keys_advanced (h : Inv subscriptionId s) {n : Nat} {id : Text} {f : Refresh} (hf : s.refreshes[n]? = some f)
    (hid : s.unused id = true) (e : Entry) (rest : List Entry) {new : List Article} (hnew : ∀ a ∈ new, a.id = id) :
    ((s.advanced n id f e rest new).keys subscriptionId).Perm (new.map (fun _ => some e.key) ++ s.keys subscriptionId) := by
  have hstored : (s.advanced n id f e rest new).stored subscriptionId = s.stored subscriptionId := h.stored_draw hid rfl rfl
  rw [Sys.keys, Sys.keys, hstored]
  exact ((h.held_advanced hf hid e rest hnew).append_left _).trans (List.perm_append_comm_assoc _ _ _)

/-- The articles that a refresh is to save have ids that no row has. -/
theorem Inv.saves (h : Inv subscriptionId s) {n : Nat} {f : Refresh} (hf : s.refreshes[n]? = some f) :
    saveArticles s.rows f.articles = (s.rows ++ f.articles.map (·.toRow), f.articles.length) := by
  have hmem : f ∈ s.refreshes := List.mem_of_getElem? hf
  apply saveArticles_eq
  · exact (List.nodup_flatMap.mp h.ids).1 f hmem
  · intro a ha r hr
    exact h.unsaved a.id (mem_heldIds.mpr ⟨f, hmem, a, ha, rfl⟩) r hr

/-- A refresh has saved its articles. -/
def Sys.saved (s : Sys) (n : Nat) (f : Refresh) : Sys :=
  { s with rows := s.rows ++ f.articles.map (·.toRow), refreshes := s.refreshes.eraseIdx n }

theorem Inv.articles_saved (h : Inv subscriptionId s) {n : Nat} {f : Refresh} (hf : s.refreshes[n]? = some f) :
    (s.saved n f).articles subscriptionId = s.articles subscriptionId ++ f.articles.map (·.toRow) := by
  rw [Sys.articles, Sys.saved, List.filter_append]
  congr 1
  refine List.filter_eq_self.mpr fun r hr => ?_
  obtain ⟨a, ha, rfl⟩ := List.mem_map.mp hr
  obtain ⟨e, -, -, heq⟩ := h.articles f (List.mem_of_getElem? hf) a ha
  rw [heq]
  exact beq_self_eq_true subscriptionId

theorem Inv.keys_saved (h : Inv subscriptionId s) {n : Nat} {f : Refresh} (hf : s.refreshes[n]? = some f) :
    ((s.saved n f).keys subscriptionId).Perm (s.keys subscriptionId) := by
  have hstored : (s.saved n f).stored subscriptionId = s.stored subscriptionId ++ f.articles.map (s.keyOf ·.id) := by
    rw [Sys.stored, h.articles_saved hf, List.map_append, List.map_map]
    rfl
  have hheld : s.held.Perm (f.articles.map (s.keyOf ·.id) ++ (s.saved n f).held) :=
    (Processes.perm_cons_eraseIdx hf).flatMap_right _
  rw [Sys.keys, Sys.keys, hstored, List.append_assoc]
  exact hheld.symm.append_left _

theorem articles_other {row : Row} (h : row.subscriptionId ≠ subscriptionId) :
    ({ s with rows := s.rows ++ [row] } : Sys).articles subscriptionId = s.articles subscriptionId := by
  have hother : (row.subscriptionId == subscriptionId) = false := beq_eq_false_iff_ne.mpr h
  rw [Sys.articles, List.filter_append, List.filter_singleton, hother]
  exact List.append_nil _

theorem keys_other {row : Row} (h : row.subscriptionId ≠ subscriptionId) :
    ({ s with rows := s.rows ++ [row] } : Sys).keys subscriptionId = s.keys subscriptionId := by
  rw [Sys.keys, Sys.stored, articles_other h]
  rfl

/-- What a step does to the keys. -/
inductive Effect (subscriptionId : Text) (s : Sys) (a : Action) (s' : Sys) : Prop where
  | quiet (good : good subscriptionId s a = true) (keys : (s'.keys subscriptionId).Perm (s.keys subscriptionId))
      (sources : s'.sources = s.sources)
  | skipped (id : Text) (e : Entry) (good : good subscriptionId s a = true ↔ some e.key ∈ s.keys subscriptionId)
      (keys : (s'.keys subscriptionId).Perm (s.keys subscriptionId)) (sources : s'.sources = (id, e) :: s.sources)
      (url : articleExistsByUrl s.rows subscriptionId e.url = true)
  | found (id : Text) (e : Entry) (good : good subscriptionId s a = true ↔ some e.key ∉ s.held)
      (keys : (s'.keys subscriptionId).Perm (some e.key :: s.keys subscriptionId))
      (sources : s'.sources = (id, e) :: s.sources) (url : articleExistsByUrl s.rows subscriptionId e.url = false)

theorem effect_of_step {a : Action} (h : Inv subscriptionId s) (hstep : step subscriptionId s a = some s') :
    Effect subscriptionId s a s' := by
  cases a with
  | fetch entries now =>
    cases hstep
    exact .quiet rfl (.refl _) rfl
  | check n id =>
    obtain ⟨f, e, rest, hf, hrest, hid, ⟨hurl, rfl⟩ | ⟨hurl, rfl⟩⟩ := check_cases hstep
    · refine .skipped id e ?_ (h.keys_advanced hf hid e rest (by simp)) rfl hurl
      simp [good, hf, hrest, hurl, Sys.keys]
    · refine .found id e ?_ (h.keys_advanced hf hid e rest (by simp [articleOf])) rfl hurl
      simp [good, hf, hrest, hurl]
  | save n =>
    obtain ⟨f, hf, hrest, rfl⟩ := save_cases hstep
    rw [h.saves hf]
    exact .quiet rfl (h.keys_saved hf) rfl
  | other row =>
    rw [step] at hstep
    split at hstep
    next hrow =>
      cases hstep
      exact .quiet rfl (.of_eq (keys_other hrow.1)) rfl
    next => cases hstep

theorem Inv.key_of_heldId (h : Inv subscriptionId s) {id : Text} (hid : id ∈ s.heldIds) : ∃ k, s.keyOf id = some k := by
  obtain ⟨f, hf, a, ha, rfl⟩ := mem_heldIds.mp hid
  obtain ⟨e, -, hkey, -⟩ := h.articles f hf a ha
  exact ⟨e.key, hkey⟩

theorem Inv.not_heldId (h : Inv subscriptionId s) {id : Text} (hid : s.unused id = true) : id ∉ s.heldIds := by
  intro hmem
  obtain ⟨k, hk⟩ := h.key_of_heldId hmem
  exact ne_of_unused hid hk rfl

theorem Inv.fetched (h : Inv subscriptionId s) (entries : List Entry) (now : Text) :
    Inv subscriptionId { s with refreshes := ⟨now, entries, []⟩ :: s.refreshes, seen := entries ++ s.seen } := by
  refine ⟨h.rows, ?_, h.ids, h.unsaved, h.looked, fun e => ?_⟩
  · intro f hf a ha
    rcases List.mem_cons.mp hf with rfl | hf
    · cases ha
    · exact h.articles f hf a ha
  · rw [List.mem_append, h.seen]
    simp only [List.mem_cons, exists_eq_or_imp]
    exact or_left_comm

/-- The ids that a refresh is to save, when it went on to its next entry. -/
theorem heldIds_advanced {n : Nat} {f : Refresh} (hf : s.refreshes[n]? = some f) (id : Text) (e : Entry) (rest : List Entry)
    (new : List Article) : (s.advanced n id f e rest new).heldIds.Perm (new.map (·.id) ++ s.heldIds) := by
  have hheld : s.heldIds.Perm (f.articles.map (·.id) ++ (s.refreshes.eraseIdx n).flatMap fun g => g.articles.map (·.id)) :=
    (Processes.perm_cons_eraseIdx hf).flatMap_right _
  have hperm := (Processes.set_perm_cons_eraseIdx hf ⟨f.now, rest, f.articles ++ new⟩).flatMap_right
    fun g => g.articles.map (·.id)
  rw [List.flatMap_cons, List.map_append] at hperm
  refine hperm.trans ((List.perm_append_comm.append_right _).trans ?_)
  rw [List.append_assoc]
  exact hheld.symm.append_left _

theorem Inv.advanced (h : Inv subscriptionId s) {n : Nat} {id : Text} {f : Refresh} {e : Entry} {rest : List Entry}
    (hf : s.refreshes[n]? = some f) (hrest : f.rest = e :: rest) (hid : s.unused id = true) {new : List Article}
    (hnew : new = [] ∧ articleExistsByUrl s.rows subscriptionId e.url = true ∨
      new = [articleOf subscriptionId f.now id e]) : Inv subscriptionId (s.advanced n id f e rest new) := by
  have hnewIds : ∀ a ∈ new, a = articleOf subscriptionId f.now id e := by
    rcases hnew with ⟨rfl, -⟩ | rfl
    · exact fun a ha => nomatch ha
    · exact fun a ha => List.mem_singleton.mp ha
  have hkeys := h.keys_advanced hf hid e rest fun a ha => (hnewIds a ha).symm ▸ rfl
  have hids := heldIds_advanced hf id e rest new
  have hsources : (s.advanced n id f e rest new).sources = (id, e) :: s.sources := rfl
  constructor
  · intro r hr
    obtain ⟨e', he', hkey, hrow⟩ := h.rows r hr
    exact ⟨e', List.mem_cons_of_mem e he', (keyOf_draw hid hkey e hsources).trans hkey, hrow⟩
  · have hold : ∀ g ∈ s.refreshes, ∀ a ∈ g.articles, ∃ e' ∈ (s.advanced n id f e rest new).sources.map Prod.snd,
        (s.advanced n id f e rest new).keyOf a.id = some e'.key ∧ a = articleOf subscriptionId g.now a.id e' := by
      intro g hg a ha
      obtain ⟨e', he', hkey, hrow⟩ := h.articles g hg a ha
      exact ⟨e', List.mem_cons_of_mem e he', (keyOf_draw hid hkey e hsources).trans hkey, hrow⟩
    intro g hg a ha
    rcases List.mem_or_eq_of_mem_set hg with hg | rfl
    · exact hold g hg a ha
    · rcases List.mem_append.mp ha with ha | ha
      · exact hold f (List.mem_of_getElem? hf) a ha
      · rw [hnewIds a ha]
        exact ⟨e, List.mem_cons_self, keyOf_drawn hsources, rfl⟩
  · rw [hids.nodup_iff]
    rcases hnew with ⟨rfl, -⟩ | rfl
    · exact h.ids
    · exact List.nodup_cons.mpr ⟨h.not_heldId hid, h.ids⟩
  · intro id' hid' r hr
    rcases List.mem_append.mp (hids.mem_iff.mp hid') with hid' | hid'
    · obtain ⟨a, ha, rfl⟩ := List.mem_map.mp hid'
      rw [hnewIds a ha]
      exact (unused_iff.mp hid).2 r hr
    · exact h.unsaved id' hid' r hr
  · intro e' he'
    rcases List.mem_cons.mp he' with rfl | he'
    · rcases hnew with ⟨-, hurl⟩ | rfl
      · exact .inl hurl
      · exact .inr (hkeys.mem_iff.mpr List.mem_cons_self)
    · exact (h.looked e' he').imp_right fun hk => hkeys.mem_iff.mpr (List.mem_append_right _ hk)
  · intro e'
    have hset := fun g => (Processes.set_perm_cons_eraseIdx hf ⟨f.now, rest, f.articles ++ new⟩).mem_iff (a := g)
    have hall := fun g => (Processes.perm_cons_eraseIdx hf).mem_iff (a := g)
    refine (h.seen e').trans ?_
    simp only [Sys.advanced, List.map_cons, List.mem_cons, hset, hall, or_and_right, exists_or, exists_eq_left, hrest]
    tauto

theorem Inv.saved (h : Inv subscriptionId s) {n : Nat} {f : Refresh} (hf : s.refreshes[n]? = some f) (hrest : f.rest = []) :
    Inv subscriptionId (s.saved n f) := by
  have hmem : f ∈ s.refreshes := List.mem_of_getElem? hf
  have hids : s.heldIds.Perm (f.articles.map (·.id) ++ (s.saved n f).heldIds) :=
    (Processes.perm_cons_eraseIdx hf).flatMap_right _
  have hnodup := List.nodup_append.mp (hids.nodup_iff.mp h.ids)
  constructor
  · intro r hr
    rw [h.articles_saved hf] at hr
    rcases List.mem_append.mp hr with hr | hr
    · exact h.rows r hr
    · obtain ⟨a, ha, rfl⟩ := List.mem_map.mp hr
      obtain ⟨e, he, hkey, heq⟩ := h.articles f hmem a ha
      exact ⟨e, he, hkey, f.now, congrArg Article.toRow heq⟩
  · exact fun g hg => h.articles g (List.mem_of_mem_eraseIdx hg)
  · exact hnodup.2.1
  · intro id hid r hr
    rcases List.mem_append.mp hr with hr | hr
    · exact h.unsaved id (hids.mem_iff.mpr (List.mem_append_right _ hid)) r hr
    · obtain ⟨a, ha, rfl⟩ := List.mem_map.mp hr
      exact hnodup.2.2 a.id (List.mem_map_of_mem ha) id hid
  · intro e he
    exact (h.looked e he).imp (existsByUrl_append · _) (h.keys_saved hf).mem_iff.mpr
  · intro e
    have hall := fun g => (Processes.perm_cons_eraseIdx hf).mem_iff (a := g)
    refine (h.seen e).trans ?_
    simp [Sys.saved, hall, hrest]

theorem Inv.other (h : Inv subscriptionId s) {row : Row} (hrow : row.subscriptionId ≠ subscriptionId)
    (hid : s.unused row.id = true) : Inv subscriptionId { s with rows := s.rows ++ [row] } := by
  refine ⟨?_, h.articles, h.ids, ?_, fun e he => ?_, h.seen⟩
  · rw [articles_other hrow]
    exact h.rows
  · intro id hheld r hr
    rcases List.mem_append.mp hr with hr | hr
    · exact h.unsaved id hheld r hr
    · rw [List.mem_singleton.mp hr]
      exact fun heq => h.not_heldId hid (heq.symm ▸ hheld)
  · rw [keys_other hrow]
    exact (h.looked e he).imp_left (existsByUrl_append · _)

theorem inv_step {a : Action} (h : Inv subscriptionId s) (hstep : step subscriptionId s a = some s') : Inv subscriptionId s' := by
  cases a with
  | fetch entries now =>
    cases hstep
    exact h.fetched entries now
  | check n id =>
    obtain ⟨f, e, rest, hf, hrest, hid, ⟨hurl, rfl⟩ | ⟨-, rfl⟩⟩ := check_cases hstep
    · exact h.advanced hf hrest hid (.inl ⟨rfl, hurl⟩)
    · exact h.advanced hf hrest hid (.inr rfl)
  | save n =>
    obtain ⟨f, hf, hrest, rfl⟩ := save_cases hstep
    rw [h.saves hf]
    exact h.saved hf hrest
  | other row =>
    rw [step] at hstep
    split at hstep
    next hrow =>
      cases hstep
      exact h.other hrow.1 hrow.2
    next => cases hstep

theorem inv_start {rows : List Row} (h : ∀ r ∈ rows, r.subscriptionId ≠ subscriptionId) :
    Inv subscriptionId (.start rows) := by
  constructor
  · intro r hr
    obtain ⟨hmem, hsub⟩ := List.mem_filter.mp hr
    exact absurd (beq_iff_eq.mp hsub) (h r hmem)
  · exact fun f hf => nomatch hf
  · exact List.nodup_nil
  · exact fun id hid => nomatch hid
  · exact fun e he => nomatch he
  · simp [Sys.start]

/-! ## One row for each entry -/

/-- Of the entries that were looked up, each has its key once. -/
def Sys.Kept (subscriptionId : Text) (s : Sys) : Prop :=
  (s.keys subscriptionId).Nodup ∧ ∀ e ∈ s.sources.map Prod.snd, some e.key ∈ s.keys subscriptionId

/-- An entry that no row has the URL of has no row. -/
theorem Inv.not_stored (h : Inv subscriptionId s) {e : Entry} (hurl : articleExistsByUrl s.rows subscriptionId e.url = false) :
    some e.key ∉ s.stored subscriptionId := by
  intro hmem
  obtain ⟨r, hr, hkey⟩ := List.mem_map.mp hmem
  obtain ⟨e', -, hkey', now, hrow⟩ := h.rows r hr
  obtain ⟨hmem, hsub⟩ := List.mem_filter.mp hr
  have hsame : e'.url = e.url := url_eq_of_key_eq (Option.some.inj (hkey'.symm.trans hkey))
  have hrowUrl : r.url = e'.url := by rw [hrow, articleOf]
  exact absurd (existsByUrl_iff.mpr ⟨r, hmem, beq_iff_eq.mp hsub, hrowUrl.trans hsame⟩) (by simp [hurl])

/-- After a step the keys are as they should be exactly if they were before and the step is good. -/
theorem kept_step {a : Action} (h : Inv subscriptionId s) (hstep : step subscriptionId s a = some s') :
    s'.Kept subscriptionId ↔ good subscriptionId s a = true ∧ s.Kept subscriptionId := by
  cases effect_of_step h hstep with
  | quiet hgood hkeys hsources => simp only [Sys.Kept, hkeys.nodup_iff, hkeys.mem_iff, hsources, hgood, true_and]
  | skipped id e hgood hkeys hsources hurl =>
    simp only [Sys.Kept, hkeys.nodup_iff, hkeys.mem_iff, hsources, hgood, List.map_cons, List.forall_mem_cons]
    tauto
  | found id e hgood hkeys hsources hurl =>
    have hstored := h.not_stored hurl
    simp only [Sys.Kept, hkeys.nodup_iff, hkeys.mem_iff, hsources, hgood, List.map_cons, List.forall_mem_cons,
      List.nodup_cons, List.mem_cons_self, true_and]
    have hheld : some e.key ∉ s.keys subscriptionId ↔ some e.key ∉ s.held := by
      rw [Sys.keys, List.mem_append, not_or]
      exact and_iff_right hstored
    rw [hheld]
    constructor
    · rintro ⟨⟨hnew, hnodup⟩, hall⟩
      refine ⟨hnew, hnodup, fun e' he' => ?_⟩
      -- an entry that was skipped has its URL in the table, and so it is not the one that is found now
      rcases List.mem_cons.mp (hall e' he') with hsame | hk
      · rcases h.looked e' he' with hurl' | hk
        · rw [url_eq_of_key_eq (Option.some.inj hsame), hurl] at hurl'
          cases hurl'
        · exact hk
      · exact hk
    · rintro ⟨hnew, hnodup, hall⟩
      exact ⟨⟨hnew, hnodup⟩, fun e' he' => List.mem_cons_of_mem _ (hall e' he')⟩

theorem kept_run {as : List Action} (h : Inv subscriptionId s) (hrun : run (step subscriptionId) s as = some s') :
    Inv subscriptionId s' ∧ (s'.Kept subscriptionId ↔
      AllGood (step subscriptionId) (fun s a => good subscriptionId s a = true) s as ∧ s.Kept subscriptionId) := by
  induction as generalizing s with
  | nil =>
    cases hrun
    exact ⟨h, fun hs => ⟨trivial, hs⟩, And.right⟩
  | cons a as ih =>
    obtain ⟨s₁, hstep, hrun⟩ := run_cons_eq_some.mp hrun
    obtain ⟨hinv, hkept⟩ := ih (inv_step h hstep) hrun
    refine ⟨hinv, ?_⟩
    rw [hkept, kept_step h hstep, AllGood, hstep]
    constructor
    · rintro ⟨hall, hgood, hs⟩
      exact ⟨⟨hgood, fun s₂ hs₂ => Option.some.inj hs₂ ▸ hall⟩, hs⟩
    · rintro ⟨⟨hgood, hall⟩, hs⟩
      exact ⟨hall s₁ rfl, hgood, hs⟩

/-- When no refresh is left, the keys that are as they should be are those of the rows. -/
theorem Inv.oneRowEach_iff (h : Inv subscriptionId s) (hend : s.refreshes = []) :
    s.OneRowEach subscriptionId ↔ s.Kept subscriptionId := by
  have hkeys : s.keys subscriptionId = s.stored subscriptionId := by
    rw [Sys.keys, Sys.held, hend, List.flatMap_nil, List.append_nil]
  have hseen : ∀ e, e ∈ s.seen ↔ e ∈ s.sources.map Prod.snd := by
    intro e
    rw [h.seen e, hend]
    simp
  constructor
  · intro hone
    refine ⟨hkeys ▸ hone.distinct, fun e he => ?_⟩
    rw [hkeys]
    exact hone.covered e ((hseen e).mpr he)
  · rintro ⟨hdistinct, hcovered⟩
    rw [hkeys] at hdistinct hcovered
    refine ⟨fun r hr => ?_, hdistinct, fun e he => hcovered e ((hseen e).mp he)⟩
    obtain ⟨e, he, hrow⟩ := h.rows r hr
    exact ⟨e, (hseen e).mpr he, hrow⟩

/-- In a run of any refreshes of a subscription that has no articles, at the end of which none is left, its articles
are one row for each distinct entry exactly if every lookup of the run is good. -/
theorem one_row_each_iff (subscriptionId : Text) (rows : List Row) (hrows : ∀ r ∈ rows, r.subscriptionId ≠ subscriptionId)
    (as : List Action) (s : Sys) (hrun : run (step subscriptionId) (.start rows) as = some s) (hend : s.refreshes = []) :
    s.OneRowEach subscriptionId ↔
      AllGood (step subscriptionId) (fun s a => good subscriptionId s a = true) (.start rows) as := by
  obtain ⟨hinv, hkept⟩ := kept_run (inv_start hrows) hrun
  rw [hinv.oneRowEach_iff hend, hkept]
  refine and_iff_left ⟨?_, fun e he => nomatch he⟩
  have hnone : (Sys.start rows).keys subscriptionId = [] := by
    rw [Sys.keys, Sys.stored, Sys.articles, List.filter_eq_nil_iff.mpr]
    · rfl
    · exact fun r hr hsub => hrows r hr (beq_iff_eq.mp hsub)
  rw [hnone]
  exact List.nodup_nil

/-! ## Concrete runs -/

def post (id : String) (links : List String) : Entry :=
  ⟨id.toList, none, links.map String.toList, [], none, none, none, none⟩

/-- A refresh looks up its two entries and saves what it found. -/
def refreshOf (entries : List Entry) (ids : String × String) : List Action :=
  [.fetch entries "2026".toList, .check 0 ids.1.toList, .check 0 ids.2.toList, .save 0]

/-- Three feeds lose or double an entry: one lists an entry twice, one has two entries without a link of which the
second is in the later feed only, and one is parsed by two refreshes that look its entry up before either saves. -/
def repeated : List Action := refreshOf [post "a" ["u"], post "a" ["u"]] ("1", "2")

def withoutLink : List Action :=
  refreshOf [post "a" [], post "b" ["u"]] ("1", "2") ++ refreshOf [post "c" [], post "a" []] ("3", "4")

def overlapping : List Action :=
  [.fetch [post "a" ["u"]] "2026".toList, .fetch [post "a" ["u"]] "2026".toList, .check 0 "1".toList, .check 1 "2".toList,
    .save 0, .save 0]

/-- After the run no refresh is left, and some entry has no row or two. -/
def losesOrDoubles (as : List Action) : Bool :=
  (run (step "s".toList) (.start []) as).any fun s => s.refreshes.isEmpty &&
    !(decide (s.stored "s".toList).Nodup && s.seen.all fun e => (s.stored "s".toList).contains (some e.key))

theorem not_oneRowEach {as : List Action} (h : losesOrDoubles as = true) :
    ∃ s, run (step "s".toList) (.start []) as = some s ∧ s.refreshes = [] ∧ ¬ s.OneRowEach "s".toList := by
  obtain ⟨s, hs, hbad⟩ := (Option.any_eq_true _ _).mp h
  rw [Bool.and_eq_true, List.isEmpty_iff, Bool.not_eq_true', Bool.and_eq_false_iff] at hbad
  refine ⟨s, hs, hbad.1, fun hone => ?_⟩
  have hcovered : s.seen.all (fun e => (s.stored "s".toList).contains (some e.key)) = true :=
    List.all_eq_true.mpr fun e he => List.contains_iff_mem.mpr (hone.covered e he)
  rcases hbad.2 with hdistinct | hlost
  · exact absurd hone.distinct (of_decide_eq_false hdistinct)
  · rw [hcovered] at hlost
    cases hlost

theorem entries_lost_or_doubled :
    (∃ s, run (step "s".toList) (.start []) repeated = some s ∧ s.refreshes = [] ∧ ¬ s.OneRowEach "s".toList) ∧
    (∃ s, run (step "s".toList) (.start []) withoutLink = some s ∧ s.refreshes = [] ∧ ¬ s.OneRowEach "s".toList) ∧
    ∃ s, run (step "s".toList) (.start []) overlapping = some s ∧ s.refreshes = [] ∧ ¬ s.OneRowEach "s".toList :=
  ⟨not_oneRowEach (by decide +kernel), not_oneRowEach (by decide +kernel), not_oneRowEach (by decide +kernel)⟩

/-- The same feed twice, one refresh after the other. -/
def oneAfterTheOther : List Action :=
  refreshOf [post "a" ["u"], post "b" []] ("1", "2") ++ refreshOf [post "a" ["u"], post "b" []] ("3", "4")

theorem one_row_each_one_after_the_other : ∃ s, run (step "s".toList) (.start []) oneAfterTheOther = some s ∧
    s.OneRowEach "s".toList := by
  have hrun : (run (step "s".toList) (.start []) oneAfterTheOther).map (·.refreshes) = some [] := by decide +kernel
  obtain ⟨s, hs, hend⟩ := Option.map_eq_some_iff.mp hrun
  exact ⟨s, hs, (one_row_each_iff "s".toList [] (by decide) oneAfterTheOther s hs hend).mpr (by decide +kernel)⟩

end FeedRefresh
