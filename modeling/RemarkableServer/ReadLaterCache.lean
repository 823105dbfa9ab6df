import Mathlib.Data.List.Pairwise
import RemarkableServer.Lib.Transition
import RemarkableServer.ReadLaterTables

/-!
# The map of the articles is their table

Every call of the manager writes the table first and then the map, and finds the row it
writes by id, or by account and key. Here the calls come in any order and fail as they
like, and a call that fails has no effect.
-/
namespace ReadLaterCache

open RustText ReadLater Transition
open ReadLaterTables (mem_writeArticle mem_insertArticle recorded_key own_some distinctArticles_sublist mem_distinctFrom)

/-- The map is loaded from the table. -/
def load (rows : List Article) (accounts : List Text) : Manager := ⟨rows, accounts, rows⟩

def deleteArticle (m : Manager) (w : Write) (id : Text) : Manager × Bool :=
  m.write w (m.db.filter (·.id != id)) (m.articles.filter (·.id != id))

def readStatusSent (m : Manager) (w : Write) (id : Text) (status : ReadStatus) : Manager :=
  m.clearReadStatusPending w id (some status)

def dropReadStatusChange (m : Manager) (w : Write) (id : Text) : Manager := m.clearReadStatusPending w id none

inductive Call where
  | upsertArticle (article : Article)
  | recordFetched (accountId : Text) (keepPendingStatus : Bool) (articles : List Article)
  | planDeliveries (deliveries : List (Text × Text))
  | markDeliveredAll (now : Int) (deliveries : List (Text × Text))
  | readStatusSent (id : Text) (status : ReadStatus)
  | dropReadStatusChange (id : Text)
  | deleteArticle (id : Text)
  /-- Accounts are added or deleted. -/
  | accounts (ids : List Text)
  deriving DecidableEq, Repr

def perform (m : Manager) (w : Write) : Call → Manager
  | .upsertArticle a => (m.upsertArticle w a).1
  | .recordFetched accountId keep articles => (m.recordFetched w accountId keep articles).1
  | .planDeliveries deliveries => (m.planDeliveries w deliveries).1
  | .markDeliveredAll now deliveries => (m.markDeliveredAll w now deliveries).1
  | .readStatusSent id status => readStatusSent m w id status
  | .dropReadStatusChange id => dropReadStatusChange m w id
  | .deleteArticle id => (deleteArticle m w id).1
  | .accounts ids => { m with accounts := ids }

/-- No article that was fetched has the id of an article there is. -/
def Call.fresh (m : Manager) : Call → Bool
  | .recordFetched _ _ articles => articles.all fun a => m.db.all fun r => r.id != a.id
  | _ => true

/-- A call, and whether the database does what it is asked to. -/
abbrev Step := Call × Bool

def step (m : Manager) (s : Step) : Option Manager :=
  if s.1.fresh m then some (perform m (if s.2 then .done else .failed false) s.1) else none

/-! ## Rows -/

/-- Rows with different ids, not both of one account (or of none) for one key. -/
def Separate (a b : Article) : Prop := a.id ≠ b.id ∧ ¬(a.accountId = b.accountId ∧ a.key = b.key)

instance (a b : Article) : Decidable (Separate a b) :=
  inferInstanceAs (Decidable (a.id ≠ b.id ∧ ¬(a.accountId = b.accountId ∧ a.key = b.key)))

/-- The map is the table, with each id and each account's key once. -/
structure Mirror (m : Manager) : Prop where
  map : m.articles = m.db
  rows : m.db.Pairwise Separate

/-- A row of the article's account and key has its id. -/
def Fits (rows : List Article) (a : Article) : Prop :=
  ∀ r ∈ rows, r.accountId = a.accountId → r.key = a.key → r.id = a.id

variable {m : Manager} {rows : List Article} {a : Article}

instance : Std.Symm Separate where
  symm _ _ h := ⟨h.1.symm, fun hb => h.2 ⟨hb.1.symm, hb.2.symm⟩⟩

theorem eq_of_id (h : rows.Pairwise Separate) {r r' : Article} (hr : r ∈ rows) (hr' : r' ∈ rows) (hid : r.id = r'.id) :
    r = r' := by
  by_contra hne
  exact (h.forall hr hr' hne).1 hid

theorem eq_of_key (h : rows.Pairwise Separate) {r r' : Article} (hr : r ∈ rows) (hr' : r' ∈ rows)
    (haccount : r.accountId = r'.accountId) (hkey : r.key = r'.key) : r = r' := by
  by_contra hne
  exact (h.forall hr hr' hne).2 ⟨haccount, hkey⟩

/-- A row that fits replaces the row with its id only. -/
theorem writeArticle_eq (hfit : Fits rows a) : writeArticle rows a = insertArticle rows a := by
  have hsame : ∀ r ∈ rows, (!a.replaces r) = (r.id != a.id) := by
    intro r hr
    by_cases hid : r.id = a.id
    · simp [Article.replaces, hid]
    · have hkey : ¬(r.accountId = a.accountId ∧ r.key = a.key) := fun h => hid (hfit r hr h.1 h.2)
      simp only [Article.replaces, bne, Bool.not_eq_eq_eq_not]
      simp_all
  rw [writeArticle, insertArticle, List.filter_congr hsame]

theorem separate_insert (h : rows.Pairwise Separate) (hfit : Fits rows a) : (insertArticle rows a).Pairwise Separate := by
  rw [insertArticle, List.pairwise_append]
  constructor
  · exact h.sublist List.filter_sublist
  · constructor
    · simp
    · intro r hr b hb
      rw [List.mem_singleton.mp hb]
      have hr' : r ∈ rows ∧ r.id ≠ a.id := by simpa using hr
      exact ⟨hr'.2, fun hkey => hr'.2 (hfit r hr'.1 hkey.1 hkey.2)⟩

/-- One row is written to both. -/
theorem mirror_write (h : Mirror m) (hfit : Fits m.db a) :
    Mirror { m with db := writeArticle m.db a, articles := insertArticle m.articles a } := by
  constructor
  · rw [writeArticle_eq hfit, h.map]
  · rw [writeArticle_eq hfit]
    exact separate_insert h.rows hfit

/-- Rows of different keys are written to both one after the other. -/
theorem mirror_writes (h : Mirror m) {articles : List Article} (hfit : ∀ a ∈ articles, Fits m.db a)
    (hkeys : articles.Pairwise fun a b => a.key ≠ b.key) :
    Mirror { m with db := articles.foldl writeArticle m.db, articles := articles.foldl insertArticle m.articles } := by
  induction articles generalizing m with
  | nil => exact h
  | cons a articles ih =>
    obtain ⟨hfirst, hkeys⟩ := List.pairwise_cons.mp hkeys
    apply ih (mirror_write h (hfit a (by simp))) _ hkeys
    intro b hb r hr haccount hkey
    rcases mem_writeArticle.mp hr with ⟨hr, -⟩ | rfl
    · exact hfit b (by simp [hb]) r hr haccount hkey
    · exact absurd hkey (hfirst b hb)

/-! ## What is on the device -/

/-- No row that is on the device leaves it, other than one with the id. -/
def Keeps (own : Option Text) (rows rows' : List Article) : Prop :=
  ∀ r ∈ rows, r.syncedToDevice = true → ∀ r' ∈ rows', r'.id = r.id → r'.syncedToDevice = true ∨ own = some r.id

/-- An article that is written as a row with its state. -/
def CarriesOn (rows : List Article) (a : Article) : Prop :=
  ∀ r ∈ rows, r.id = a.id → r.syncedToDevice = true → a.syncedToDevice = true

theorem Keeps.refl (h : rows.Pairwise Separate) (own : Option Text) : Keeps own rows rows := by
  intro r hr hsynced r' hr' hid
  rw [eq_of_id h hr' hr hid]
  exact .inl hsynced

theorem mem_foldl_writeArticle {articles : List Article} {r : Article} (h : r ∈ articles.foldl writeArticle rows) :
    r ∈ rows ∨ r ∈ articles := by
  induction articles generalizing rows with
  | nil => exact .inl h
  | cons a articles ih =>
    rcases ih h with h | h
    · rcases mem_writeArticle.mp h with ⟨h, -⟩ | rfl
      · exact .inl h
      · exact .inr (by simp)
    · exact .inr (by simp [h])

theorem keeps_writes (h : rows.Pairwise Separate) (own : Option Text) {articles : List Article}
    (hcarry : ∀ a ∈ articles, own = some a.id ∨ CarriesOn rows a) : Keeps own rows (articles.foldl writeArticle rows) := by
  intro r hr hsynced r' hr' hid
  rcases mem_foldl_writeArticle hr' with hr' | hr'
  · exact Keeps.refl h own r hr hsynced r' hr' hid
  · rcases hcarry r' hr' with hown | hcarry
    · exact .inr (by rw [hown, hid])
    · exact .inl (hcarry r hr hid.symm hsynced)

/-! ## The calls -/

/-- What a call leaves: the map is the table still, and what is on the device stays there. -/
structure Sound (own : Option Text) (m m' : Manager) : Prop where
  mirror : Mirror m'
  keeps : Keeps own m.db m'.db

theorem sound_refl (h : Mirror m) (own : Option Text) : Sound own m m := ⟨h, Keeps.refl h.rows own⟩

/-- A write that fails has no effect. -/
theorem sound_write (h : Mirror m) {own : Option Text} {db articles : List Article}
    (hdone : Sound own m { m with db := db, articles := articles }) (ok : Bool) :
    Sound own m (m.write (if ok then .done else .failed false) db articles).1 := by
  cases ok with
  | true => exact hdone
  | false => exact sound_refl h own

theorem sound_writeArticle (h : Mirror m) {own : Option Text} (hfit : Fits m.db a)
    (hcarry : own = some a.id ∨ CarriesOn m.db a) (ok : Bool) :
    Sound own m (m.write (if ok then .done else .failed false) (writeArticle m.db a) (insertArticle m.articles a)).1 := by
  apply sound_write h
  constructor
  · exact mirror_write h hfit
  · have hone : Keeps own m.db ([a].foldl writeArticle m.db) := keeps_writes h.rows own (by simpa using hcarry)
    exact hone

theorem getArticle_mem (h : Mirror m) {id : Text} {r : Article} (hget : m.getArticle id = some r) : r ∈ m.db ∧ r.id = id := by
  constructor
  · rw [← h.map]
    exact List.mem_of_find?_eq_some hget
  · simpa using List.find?_some hget

theorem getArticle_of_mem (h : Mirror m) {r : Article} (hr : r ∈ m.db) : m.getArticle r.id = some r := by
  cases hget : m.getArticle r.id with
  | none =>
    rw [Manager.getArticle, h.map, List.find?_eq_none] at hget
    simpa using hget r hr
  | some r' =>
    obtain ⟨hr', hid⟩ := getArticle_mem h hget
    rw [eq_of_id h.rows hr' hr hid]

/-- What has the id, the account and the key of a row fits. -/
theorem fits_of_row (h : Mirror m) {r : Article} (hr : r ∈ m.db) (hid : a.id = r.id) (haccount : a.accountId = r.accountId)
    (hkey : a.key = r.key) : Fits m.db a := by
  intro r' hr' haccount' hkey'
  rw [eq_of_key h.rows hr' hr (haccount'.trans haccount) (hkey'.trans hkey), hid]

/-- A row is written in its place, with what it had on the device. -/
theorem sound_rewrite (h : Mirror m) {own : Option Text} {r : Article} (hr : r ∈ m.db) (hid : a.id = r.id)
    (haccount : a.accountId = r.accountId) (hkey : a.key = r.key) (hsynced : r.syncedToDevice = true → a.syncedToDevice = true)
    (ok : Bool) :
    Sound own m (m.write (if ok then .done else .failed false) (writeArticle m.db a) (insertArticle m.articles a)).1 := by
  apply sound_writeArticle h (fits_of_row h hr hid haccount hkey)
  right
  intro r' hr' hid' hsynced'
  apply hsynced
  rwa [eq_of_id h.rows hr' hr (hid'.trans hid)] at hsynced'

theorem sound_upsertArticle (h : Mirror m) (a : Article) (ok : Bool) :
    Sound (some a.id) m (m.upsertArticle (if ok then .done else .failed false) a).1 := by
  cases hfind : m.db.find? fun r => r.accountId == a.accountId && r.key == a.key with
  | none =>
    have hfit : Fits m.db a := by
      intro r hr haccount hkey
      have hno := List.find?_eq_none.mp hfind r hr
      simp [haccount, hkey] at hno
    simp only [Manager.upsertArticle, hfind, Option.map_none]
    exact sound_writeArticle h hfit (.inl rfl) ok
  | some x =>
    have hx : x ∈ m.db := List.mem_of_find?_eq_some hfind
    have hmatch : x.accountId = a.accountId ∧ x.key = a.key := by simpa using List.find?_some hfind
    by_cases hid : x.id = a.id
    · simp only [Manager.upsertArticle, hfind, Option.map_some, hid, beq_self_eq_true, if_true]
      exact sound_writeArticle h (fits_of_row h hx hid.symm hmatch.1.symm hmatch.2.symm) (.inl rfl) ok
    · have hne : (x.id == a.id) = false := by simpa using hid
      simp only [Manager.upsertArticle, hfind, Option.map_some, hne, Bool.false_eq_true, if_false, getArticle_of_mem h hx]
      apply sound_rewrite h hx
      · rfl
      · simp [keepDeviceState, hmatch.1]
      · exact hmatch.2.symm
      · intro hsynced
        simp [keepDeviceState, hsynced]

theorem sound_clearReadStatusPending (h : Mirror m) (id : Text) (sent : Option ReadStatus) (ok : Bool) :
    Sound none m (m.clearReadStatusPending (if ok then .done else .failed false) id sent) := by
  unfold Manager.clearReadStatusPending
  cases hget : m.getArticle id with
  | none => exact sound_refl h none
  | some r =>
    obtain ⟨hr, -⟩ := getArticle_mem h hget
    dsimp only
    split
    · exact sound_refl h none
    · apply sound_rewrite h hr
      · rfl
      · rfl
      · rfl
      · exact fun hsynced => hsynced

theorem sound_deleteArticle (h : Mirror m) (id : Text) (ok : Bool) :
    Sound none m (deleteArticle m (if ok then .done else .failed false) id).1 := by
  apply sound_write h
  constructor
  · exact ⟨congrArg (List.filter (·.id != id)) h.map, h.rows.sublist List.filter_sublist⟩
  · intro r hr hsynced r' hr' hid
    exact Keeps.refl h.rows none r hr hsynced r' (List.mem_filter.mp hr').1 hid

/-! ## Deliveries -/

theorem setDelivery_cases (delivered : Option Int) (delivery : Text × Text) (r : Article) :
    (setDelivery delivered delivery r).id = r.id ∧ (setDelivery delivered delivery r).accountId = r.accountId ∧
      (setDelivery delivered delivery r).key = r.key ∧
      (r.syncedToDevice = true → (setDelivery delivered delivery r).syncedToDevice = true) := by
  unfold setDelivery
  split
  · cases delivered with
    | some now => exact ⟨rfl, rfl, rfl, fun _ => rfl⟩
    | none =>
      dsimp only
      split
      · exact ⟨rfl, rfl, rfl, id⟩
      · exact ⟨rfl, rfl, rfl, id⟩
  · exact ⟨rfl, rfl, rfl, id⟩

theorem setDeliveries_pairwise (delivered : Option Int) (deliveries : List (Text × Text)) (h : rows.Pairwise Separate) :
    (setDeliveries delivered deliveries rows).Pairwise Separate := by
  induction deliveries generalizing rows with
  | nil => exact h
  | cons d deliveries ih =>
    apply ih
    rw [List.pairwise_map]
    apply h.imp
    intro r r' hsep
    obtain ⟨hid, haccount, hkey, -⟩ := setDelivery_cases delivered d r
    obtain ⟨hid', haccount', hkey', -⟩ := setDelivery_cases delivered d r'
    rwa [Separate, hid, hid', haccount, haccount', hkey, hkey']

theorem setDeliveries_mem (delivered : Option Int) (deliveries : List (Text × Text)) {r' : Article}
    (h : r' ∈ setDeliveries delivered deliveries rows) :
    ∃ r ∈ rows, r.id = r'.id ∧ (r.syncedToDevice = true → r'.syncedToDevice = true) := by
  induction deliveries generalizing rows with
  | nil => exact ⟨r', h, rfl, id⟩
  | cons d deliveries ih =>
    obtain ⟨r₁, hr₁, hid₁, hsynced₁⟩ := ih h
    obtain ⟨r, hr, rfl⟩ := List.mem_map.mp hr₁
    obtain ⟨hid, -, -, hsynced⟩ := setDelivery_cases delivered d r
    exact ⟨r, hr, hid.symm.trans hid₁, fun hs => hsynced₁ (hsynced hs)⟩

theorem sound_setDeliveryColumns (h : Mirror m) (deliveries : List (Text × Text)) (delivered : Option Int) (ok : Bool) :
    Sound none m (m.setDeliveryColumns (if ok then .done else .failed false) deliveries delivered).1 := by
  apply sound_write h
  constructor
  · exact ⟨congrArg (setDeliveries delivered deliveries) h.map, setDeliveries_pairwise delivered deliveries h.rows⟩
  · intro r hr hsynced r' hr' hid
    obtain ⟨r₀, hr₀, hid₀, hkept⟩ := setDeliveries_mem delivered deliveries hr'
    rw [eq_of_id h.rows hr₀ hr (hid₀.trans hid)] at hkept
    exact .inl (hkept hsynced)

/-! ## Fetched articles -/

theorem orphan_mem {accountId : Text} {prev : Article} (h : m.orphan accountId a = some prev) : prev ∈ m.articles := by
  have hmem := List.mem_of_find?_eq_some h
  rw [List.mem_insertionSort, List.mem_filter] at hmem
  exact hmem.1

/-- A fetched article is recorded as a row there is, with its state, or under its own id. -/
theorem recorded_carriesOn (h : Mirror m) (accountId : Text) (keep : Bool) (hfresh : ∀ r ∈ m.db, r.id ≠ a.id) :
    CarriesOn m.db (m.recorded accountId keep a) := by
  intro r hr hid hsynced
  have hprev : ∀ prev ∈ m.articles, r.id = prev.id → prev.syncedToDevice = true := by
    intro prev hprev hsame
    rw [h.map] at hprev
    rwa [← eq_of_id h.rows hr hprev hsame]
  cases hown : m.own accountId a with
  | some prev =>
    have hstate := hprev prev (own_some hown).1
    by_cases hpending : prev.readStatusPending && keep
    · simp only [Manager.recorded, hown, hpending, if_true, keepDeviceState] at hid ⊢
      simp [hstate hid]
    · simp only [Manager.recorded, hown, hpending, Bool.false_eq_true, if_false, keepDeviceState] at hid ⊢
      simp [hstate hid]
  | none =>
    cases horphan : m.orphan accountId a with
    | some prev =>
      have hstate := hprev prev (orphan_mem horphan)
      simp only [Manager.recorded, hown, horphan, keepDeviceState] at hid ⊢
      simp [hstate hid]
    | none =>
      simp only [Manager.recorded, hown, horphan] at hid
      exact absurd hid (hfresh r hr)

theorem recorded_fits (h : Mirror m) (accountId : Text) (keep : Bool) (a : Article) :
    Fits m.db (m.recorded accountId keep a) := by
  obtain ⟨hkey, haccount⟩ := recorded_key m accountId keep a
  cases hown : m.own accountId a with
  | none =>
    intro r hr hraccount hrkey
    have hno := List.find?_eq_none.mp hown r (h.map ▸ hr)
    simp [hraccount, haccount, hrkey, hkey] at hno
  | some prev =>
    obtain ⟨hprev, hprevkey, hprevaccount⟩ := own_some hown
    have hid : (m.recorded accountId keep a).id = prev.id := by
      by_cases hpending : prev.readStatusPending && keep
      · simp only [Manager.recorded, hown, hpending, if_true, keepDeviceState]
      · simp only [Manager.recorded, hown, hpending, Bool.false_eq_true, if_false, keepDeviceState]
    exact fits_of_row h (h.map ▸ hprev) hid (haccount.trans hprevaccount.symm) (hkey.trans hprevkey.symm)

theorem sound_recordFetched (h : Mirror m) (accountId : Text) (keep : Bool) {articles : List Article}
    (hfresh : ∀ a ∈ articles, ∀ r ∈ m.db, r.id ≠ a.id) (ok : Bool) :
    Sound none m (m.recordFetched (if ok then .done else .failed false) accountId keep articles).1 := by
  have hdistinct : (distinctArticles articles).Pairwise fun a b => a.key ≠ b.key := (mem_distinctFrom).2.1
  apply sound_write h
  constructor
  · apply mirror_writes h
    · intro b hb
      obtain ⟨a, -, rfl⟩ := List.mem_map.mp hb
      exact recorded_fits h accountId keep a
    · rw [List.pairwise_map]
      apply hdistinct.imp
      intro a b hab
      rwa [(recorded_key m accountId keep a).1, (recorded_key m accountId keep b).1]
  · apply keeps_writes h.rows
    intro b hb
    obtain ⟨a, ha, rfl⟩ := List.mem_map.mp hb
    exact .inr (recorded_carriesOn h accountId keep (hfresh a ((distinctArticles_sublist articles).subset ha)))

/-! ## Runs -/

/-- The id that an upsert may write anything under. -/
def Call.own : Call → Option Text
  | .upsertArticle a => some a.id
  | _ => none

/-- One call, one case for each. -/
theorem sound_step (h : Mirror m) {s : Step} {m' : Manager} (hstep : step m s = some m') : Sound s.1.own m m' := by
  obtain ⟨call, ok⟩ := s
  rw [step] at hstep
  split at hstep
  next hfresh =>
    obtain rfl := Option.some.inj hstep
    cases call with
    | upsertArticle a => exact sound_upsertArticle h a ok
    | recordFetched accountId keep articles =>
      apply sound_recordFetched h accountId keep
      simpa [Call.fresh] using hfresh
    | planDeliveries deliveries => exact sound_setDeliveryColumns h deliveries none ok
    | markDeliveredAll now deliveries => exact sound_setDeliveryColumns h deliveries (some now) ok
    | readStatusSent id status => exact sound_clearReadStatusPending h id (some status) ok
    | dropReadStatusChange id => exact sound_clearReadStatusPending h id none ok
    | deleteArticle id => exact sound_deleteArticle h id ok
    | accounts ids => exact ⟨⟨h.map, h.rows⟩, Keeps.refl h.rows none⟩
  · simp at hstep

theorem mirror_load {rows : List Article} (hrows : rows.Pairwise Separate) (accounts : List Text) :
    Mirror (load rows accounts) := ⟨rfl, hrows⟩

/-- After each call of a run the map is the table, no two rows have one id or are an account's for one key, and
nothing has left the device but by an upsert of an article under its own id. -/
theorem cache_is_its_table {rows : List Article} (hrows : rows.Pairwise Separate) (accounts : List Text)
    (steps : List Step) (s : Step) {m m' : Manager} (hrun : run step (load rows accounts) steps = some m)
    (hstep : step m s = some m') :
    m'.articles = m'.db ∧
      (m'.db.Pairwise fun r r' => r.id ≠ r'.id ∧ ¬(r.accountId = r'.accountId ∧ r.provider = r'.provider ∧
        r.providerId = r'.providerId)) ∧
      ∀ r ∈ m.db, r.syncedToDevice = true → ∀ r' ∈ m'.db, r'.id = r.id →
        r'.syncedToDevice = true ∨ ∃ a, s.1 = .upsertArticle a ∧ a.id = r.id := by
  have hmirror : Mirror m := invariant_of_step (fun m s m' h hs => (sound_step h hs).mirror) (mirror_load hrows accounts) hrun
  have hsound := sound_step hmirror hstep
  constructor
  · exact hsound.mirror.map
  · constructor
    · apply hsound.mirror.rows.imp
      intro r r' hsep
      exact ⟨hsep.1, fun hkey => hsep.2 ⟨hkey.1, by rw [Article.key, Article.key, hkey.2.1, hkey.2.2]⟩⟩
    · intro r hr hsynced r' hr' hid
      rcases hsound.keeps r hr hsynced r' hr' hid with hkept | hown
      · exact .inl hkept
      · cases hcall : s.1 with
        | upsertArticle a =>
          rw [hcall] at hown
          exact .inr ⟨a, rfl, Option.some.inj hown⟩
        | _ =>
          rw [hcall] at hown
          simp [Call.own] at hown

def listedAs (id : String) : Article :=
  Listed.toArticle .wallabag ⟨id.toList, "7".toList, "https://example.com/a".toList, [], .unread, false, 0, none⟩

/-- An article that is listed again after it was delivered. -/
theorem cache_is_its_table_listed_again :
    ∃ m m', run step (load [] []) [(.recordFetched "w".toList true [listedAs "b"], true),
        (.markDeliveredAll 5 [("b".toList, "d".toList)], true)] = some m ∧
      step m (.recordFetched "w".toList true [listedAs "c"], true) = some m' ∧ m'.articles = m'.db ∧
      ∀ r ∈ m.db, r.syncedToDevice = true → ∀ r' ∈ m'.db, r'.id = r.id → r'.syncedToDevice = true := by
  have hsound := cache_is_its_table List.Pairwise.nil []
    [(.recordFetched "w".toList true [listedAs "b"], true), (.markDeliveredAll 5 [("b".toList, "d".toList)], true)]
    (.recordFetched "w".toList true [listedAs "c"], true) rfl rfl
  refine ⟨_, _, rfl, rfl, hsound.1, ?_⟩
  intro r hr hsynced r' hr' hid
  rcases hsound.2.2 r hr hsynced r' hr' hid with h | ⟨a, ha, -⟩
  · exact h
  · simp at ha

end ReadLaterCache
