import RemarkableServer.Lib.Transition
import RemarkableServer.ReadLaterDelivery
import RemarkableServer.ReadLaterRun

/-!
# No status change is lost

A status that was changed here is pending until the provider has it. A sync reads the
pending changes, sends them one by one and then clears them, and an edit may come in
between; what is cleared after a success is only the status that was sent. When a sync
gives up instead, it clears whatever is pending: nothing is lost as long as the rejections
it counted were of the status the article has then.
-/
namespace ReadLaterStatus

open RustText ReadLaterTables ReadLaterRun Transition
open ReadLater hiding Sys Phase Action step
open ReadLaterDelivery (wallabag entry)

variable {account : ProviderAccount} {m : Manager} {s s' : Sys}

/-! ## The rows of the account -/

/-- A row of the account, whatever its provider. -/
def Mine (account : ProviderAccount) (r : Article) : Prop := r.accountId = some account.id

def withProvider (account : ProviderAccount) (p : ReadLaterProvider) : ProviderAccount := { account with provider := p }

def AllTables (account : ProviderAccount) (m : Manager) : Prop := ∀ p, Tables (withProvider account p) m

theorem Mine.own {r : Article} (h : Mine account r) : Own (withProvider account r.provider) r.providerId r := ⟨h, rfl⟩

theorem AllTables.eq_of_key (h : AllTables account m) {r r' : Article} (hr : r ∈ m.articles) (hr' : r' ∈ m.articles)
    (hm : Mine account r) (hm' : Mine account r') (hkey : r.key = r'.key) : r = r' :=
  (h r.provider).mapKeys hr hr' hm.own ⟨hm', hkey.symm⟩

theorem AllTables.eq_of_id (h : AllTables account m) {r r' : Article} (hr : r ∈ m.articles) (hr' : r' ∈ m.articles)
    (hid : r.id = r'.id) : r = r' := (h .pocket).mapIds r hr r' hr' hid

/-- The row fits whatever its provider. -/
def AllFits (account : ProviderAccount) (m : Manager) (a : Article) : Prop := ∀ p, Fits (withProvider account p) m a

/-- A row with the same id, key and account. -/
def SameRow (a r : Article) : Prop := a.id = r.id ∧ a.key = r.key ∧ a.accountId = r.accountId

theorem allFits_of_map {a r : Article} (h : AllTables account m) (hr : r ∈ m.articles) (hsame : SameRow a r) :
    AllFits account m a := fun p => fits_of_map (h p) hr hsame.1 hsame.2.1 hsame.2.2

theorem allTables_write {a : Article} (h : AllTables account m) (hfit : AllFits account m a) :
    AllTables account { m with db := writeArticle m.db a, articles := insertArticle m.articles a } :=
  fun p => tables_writeBoth (h p) (hfit p)

/-- An edited row is written in its place, or it is not one of the account and leaves the account's rows alone. -/
theorem upsertArticle_done {a r : Article} (h : AllTables account m) (hr : r ∈ m.articles) (hsame : SameRow a r) :
    ∃ b, (m.upsertArticle .done a).1 = { m with db := writeArticle m.db b, articles := insertArticle m.articles b } ∧
      AllFits account m b ∧ HasId m b.id ∧ (b = a ∨ ¬Mine account b) := by
  have hid : HasId m a.id := ⟨r, Or.inr hr, hsame.1.symm⟩
  unfold Manager.upsertArticle
  dsimp only
  split
  · exact ⟨a, rfl, allFits_of_map h hr hsame, hid, Or.inl rfl⟩
  next id hexisting =>
    obtain ⟨x, hfind, rfl⟩ := Option.map_eq_some_iff.mp hexisting
    have hx : x ∈ m.db := List.mem_of_find?_eq_some hfind
    have hmatch := List.find?_some hfind
    rw [Bool.and_eq_true, beq_iff_eq, beq_iff_eq] at hmatch
    split
    · exact ⟨a, rfl, allFits_of_map h hr hsame, hid, Or.inl rfl⟩
    next hne =>
      have hxid : x.id ≠ a.id := by simpa using hne
      have hother : ∀ b : Article, b.id = x.id → b.key = a.key → (b.accountId = a.accountId ∨
          ∃ prev ∈ m.articles, prev.id = x.id ∧ b.accountId = a.accountId.or prev.accountId) →
          AllFits account m b ∧ HasId m b.id ∧ (b = a ∨ ¬Mine account b) := by
        intro b hbid hbkey hbaccount
        have hfits := fun p => fits_of_other (h p) hr hsame.1 hsame.2.1 hsame.2.2 hx hmatch.1 hmatch.2 hxid hbid hbkey
          hbaccount
        exact ⟨fun p => (hfits p).1, ⟨x, Or.inl hx, hbid.symm⟩, Or.inr fun hm => (hfits b.provider).2 b.providerId hm.own⟩
      split
      · exact ⟨_, rfl, hother _ rfl rfl (Or.inl rfl)⟩
      next prev hget =>
        have hprev : prev ∈ m.articles := List.mem_of_find?_eq_some hget
        have hprevid : prev.id = x.id := by simpa using List.find?_some hget
        exact ⟨_, rfl, hother _ rfl rfl (Or.inr ⟨prev, hprev, hprevid, rfl⟩)⟩

/-- What an edit of the articles that goes well comes to. -/
theorem updateArticle_done (h : AllTables account m) (id : Text) (req : UpdateArticleRequest) (now : Int) :
    m.updateArticle .done id req now = m ∨
      ∃ b, m.updateArticle .done id req now =
          { m with db := writeArticle m.db b, articles := insertArticle m.articles b } ∧
        AllFits account m b ∧ HasId m b.id ∧ ((∃ r ∈ m.articles, b = r.update req now) ∨ ¬Mine account b) := by
  unfold Manager.updateArticle
  split
  · exact Or.inl rfl
  next r hget =>
    have hr : r ∈ m.articles := List.mem_of_find?_eq_some hget
    obtain ⟨b, hb, hfit, hid, hcase⟩ := upsertArticle_done (a := r.update req now) h hr ⟨rfl, rfl, rfl⟩
    refine Or.inr ⟨b, hb, hfit, hid, ?_⟩
    rcases hcase with rfl | hnot
    · exact Or.inl ⟨r, hr, rfl⟩
    · exact Or.inr hnot

theorem clearReadStatusPending_done (m : Manager) (id : Text) (sent : Option ReadStatus) :
    m.clearReadStatusPending .done id sent = m ∨
      ∃ r ∈ m.articles, r.id = id ∧ (∀ st, sent = some st → r.status = st) ∧
        m.clearReadStatusPending .done id sent =
          { m with
            db := writeArticle m.db { r with readStatusPending := false }
            articles := insertArticle m.articles { r with readStatusPending := false } } := by
  unfold Manager.clearReadStatusPending
  split
  · exact Or.inl rfl
  next r hget =>
    have hr : r ∈ m.articles := List.mem_of_find?_eq_some hget
    have hid : r.id = id := by simpa using List.find?_some hget
    split
    · exact Or.inl rfl
    next hclear =>
      refine Or.inr ⟨r, hr, hid, ?_, rfl⟩
      rintro st rfl
      have hsame : r.readStatusPending = true ∧ st = r.status := by simpa using hclear
      exact hsame.2.symm

/-- Rows with different ids. -/
def DistinctIds (articles : List Article) : Prop := articles.Pairwise fun a b => a.id ≠ b.id

theorem distinctIds_insert {articles : List Article} (h : DistinctIds articles) (a : Article) :
    DistinctIds (insertArticle articles a) := by
  refine List.pairwise_append.mpr ⟨h.sublist List.filter_sublist, List.pairwise_singleton _ _, fun r hr b hb => ?_⟩
  rw [List.mem_singleton.mp hb]
  simpa using (List.mem_filter.mp hr).2

/-! ## What the provider was told -/

/-- The status of the key that both sides have after the exchange. -/
def known (key : ReadLaterProvider × Text) : Exchange → Option ReadStatus
  | .sent k status | .fetched k status => if k = key then some status else none
  | .rejectedStatus _ _ _ | .rejectedArticle _ _ => none

/-- The status that was last sent to the provider or fetched from it. -/
def lastKnown (log : List Exchange) (key : ReadLaterProvider × Text) : Option ReadStatus := log.findSome? (known key)

def rejection (id : Text) : Exchange → Option (Nat × ReadStatus)
  | .rejectedStatus sync articleId status => if articleId = id then some (sync, status) else none
  | _ => none

/-- The syncs that rejected a status of the article, with that status, from the last one on. -/
def rejections (log : List Exchange) (id : Text) : List (Nat × ReadStatus) := log.filterMap (rejection id)

/-- The provider rejected this very status of the article in enough syncs. -/
def GivenUp (log : List Exchange) (r : Article) : Prop :=
  ∃ syncs : List Nat, syncs.length = maxItemFailures ∧ syncs.Nodup ∧
    ∀ n ∈ syncs, Exchange.rejectedStatus n r.id r.status ∈ log

/-- Why a status need not be sent. -/
def Accounted (log : List Exchange) (r : Article) : Prop := lastKnown log r.key = some r.status ∨ GivenUp log r

theorem mem_rejections {log : List Exchange} {id : Text} {e : Nat × ReadStatus} (h : e ∈ rejections log id) :
    Exchange.rejectedStatus e.1 id e.2 ∈ log := by
  obtain ⟨x, hx, he⟩ := List.mem_filterMap.mp h
  cases x with
  | rejectedStatus sync articleId status =>
    rw [rejection] at he
    split at he
    · cases he
      subst articleId
      exact hx
    · cases he
  | sent | fetched | rejectedArticle => cases he

theorem GivenUp.mono {log log' : List Exchange} {r : Article} (h : GivenUp log r) (hsub : ∀ e ∈ log, e ∈ log') :
    GivenUp log' r := by
  obtain ⟨syncs, hlen, hnodup, hall⟩ := h
  exact ⟨syncs, hlen, hnodup, fun n hn => hsub _ (hall n hn)⟩

theorem Accounted.cons {log : List Exchange} {r : Article} {e : Exchange} (h : Accounted log r) (he : known r.key e = none) :
    Accounted (e :: log) r := by
  rcases h with hknown | hgiven
  · left
    rw [lastKnown, List.findSome?_cons, he]
    exact hknown
  · exact Or.inr (hgiven.mono fun _ hin => List.mem_cons_of_mem e hin)

/-- Another row with the same id, key and status. -/
theorem Accounted.congr {log : List Exchange} {r r' : Article} (h : Accounted log r) (hid : r'.id = r.id)
    (hkey : r'.key = r.key) (hstatus : r'.status = r.status) : Accounted log r' := by
  rw [Accounted, GivenUp, hid, hkey, hstatus]
  exact h

/-! ## The invariant -/

/-- The change is still to be sent, whatever the status is by now. -/
def PendingRow (account : ProviderAccount) (m : Manager) (c : Article) : Prop :=
  ∃ r ∈ m.articles, r.id = c.id ∧ r.key = c.key ∧ Mine account r ∧ r.readStatusPending = true

/-- Changes that this sync has not looked at. -/
def ChangesOk (account : ProviderAccount) (s : Sys) (changes : List Article) : Prop :=
  DistinctIds changes ∧ ∀ c ∈ changes, PendingRow account s.manager c ∧ ∀ e ∈ rejections s.log c.id, e.1 < s.syncs

def PhaseOk (account : ProviderAccount) (s : Sys) : Phase → Prop
  | .refreshAuth => ∀ id, ∀ e ∈ rejections s.log id, e.1 < s.syncs
  | .sendReadStatus changes => ChangesOk account s changes
  | .recordStatus c sent changes =>
    ChangesOk account s changes ∧ (∀ d ∈ changes, c.id ≠ d.id) ∧ PendingRow account s.manager c ∧
      (∀ status, sent = some status → lastKnown s.log c.key = some status) ∧
      (sent = none → maxItemFailures ≤ (rejections s.log c.id).length)
  | .recordFetched selected => New account s.manager selected
  | _ => True

structure Inv (account : ProviderAccount) (s : Sys) : Prop where
  tables : AllTables account s.manager
  ids : DistinctIds s.manager.articles
  accounted : ∀ r ∈ s.manager.articles, Mine account r → r.readStatusPending = false → Accounted s.log r
  counted : ∀ id, failuresOf s.failures (.status id) ≤ (rejections s.log id).length
  distinct : ∀ id, ((rejections s.log id).map Prod.fst).Nodup
  past : ∀ id, ∀ e ∈ rejections s.log id, e.1 ≤ s.syncs
  phase : ∀ r ∈ s.run, PhaseOk account s r.phase

/-! ## Steps that leave the rows alone -/

theorem Inv.stop (h : Inv account s) : Inv account s.stop :=
  ⟨h.tables, h.ids, h.accounted, h.counted, h.distinct, h.past, fun _ hr => nomatch hr⟩

theorem Inv.go (h : Inv account s) (r : Run) {phase : Phase} (hphase : PhaseOk account s phase) :
    Inv account (s.go r phase) := by
  refine ⟨h.tables, h.ids, h.accounted, h.counted, h.distinct, h.past, fun r' hr' => ?_⟩
  obtain rfl := Option.some.inj hr'
  exact hphase

theorem Inv.finish (h : Inv account s) (r : Run) : Inv account (s.finish r) := by
  unfold Sys.finish
  split
  · exact h.stop
  · exact h.go r trivial

theorem Inv.deliver (h : Inv account s) (r : Run) (d : Delivery) : Inv account (s.deliver r d) := by
  unfold Sys.deliver
  split
  · exact h.finish r
  · exact h.go r trivial

theorem Inv.commitBatch (h : Inv account s) (r : Run) (d : Delivery) : Inv account (commitBatch s r d) := by
  unfold ReadLaterRun.commitBatch
  dsimp only
  split
  · exact h.go r trivial
  · exact h.go r trivial

theorem rejections_cons_none {log : List Exchange} {e : Exchange} {id : Text} (h : rejection id e = none) :
    rejections (e :: log) id = rejections log id := by
  rw [rejections, List.filterMap_cons, h, rejections]

theorem rejections_cons {log : List Exchange} (sync : Nat) (articleId : Text) (status : ReadStatus) (id : Text) :
    rejections (.rejectedStatus sync articleId status :: log) id =
      if articleId = id then (sync, status) :: rejections log id else rejections log id := by
  rw [rejections, List.filterMap_cons, rejection]
  by_cases hid : articleId = id
  · rw [if_pos hid, if_pos hid]
    rfl
  · rw [if_neg hid, if_neg hid]
    rfl

/-! ## Sending the changes -/

theorem inv_sent (h : Inv account s) {c : Article} {changes : List Article} (hok : ChangesOk account s (c :: changes))
    (r : Run) : Inv account (sendFirst s r c changes .ok) := by
  obtain ⟨hids, hrows⟩ := hok
  obtain ⟨hfirst, hids⟩ := List.pairwise_cons.mp hids
  obtain ⟨rc, hrc, hrcid, hrckey, hrcmine, hrcpending⟩ := (hrows c List.mem_cons_self).1
  have hsent : Inv account
      { s with failures := itemDone s.failures (.status c.id), log := .sent c.key c.status :: s.log, run := none } := by
    refine ⟨h.tables, h.ids, fun x hx hmine hpending => ?_, fun id => ?_, h.distinct, h.past, fun _ hr => nomatch hr⟩
    · refine (h.accounted x hx hmine hpending).cons (if_neg fun hkey => ?_)
      obtain rfl := h.tables.eq_of_key hrc hx hrcmine hmine (hrckey.trans hkey)
      rw [hrcpending] at hpending
      cases hpending
    · refine le_trans ?_ (h.counted id)
      rw [failuresOf_itemDone]
      split
      · exact Nat.zero_le _
      · exact Nat.le_refl _
  refine hsent.go _ ⟨⟨hids, fun d hd => hrows d (List.mem_cons_of_mem c hd)⟩, hfirst,
    (hrows c List.mem_cons_self).1, fun status hstatus => ?_, fun hnone => nomatch hnone⟩
  cases hstatus
  simp [lastKnown, known]

theorem inv_rejected (h : Inv account s) {c : Article} {changes : List Article} (hok : ChangesOk account s (c :: changes))
    (r : Run) : Inv account (sendFirst s r c changes .rejected) := by
  obtain ⟨hids, hrows⟩ := hok
  obtain ⟨hfirst, hids⟩ := List.pairwise_cons.mp hids
  have hlog : rejections (.rejectedStatus s.syncs c.id c.status :: s.log) c.id =
      (s.syncs, c.status) :: rejections s.log c.id := by rw [rejections_cons, if_pos rfl]
  have hother : ∀ id, c.id ≠ id →
      rejections (.rejectedStatus s.syncs c.id c.status :: s.log) id = rejections s.log id :=
    fun id hne => by rw [rejections_cons, if_neg hne]
  have hcount : ∀ id, failuresOf (itemFailed s.failures (.status c.id)) (.status id) ≤
      (rejections (.rejectedStatus s.syncs c.id c.status :: s.log) id).length := by
    intro id
    rw [failuresOf_itemFailed]
    by_cases hid : c.id = id
    · subst hid
      rw [if_pos rfl, hlog, List.length_cons]
      exact (Nat.min_le_left _ _).trans (Nat.succ_le_succ (h.counted c.id))
    · rw [if_neg (fun heq => hid (Item.status.inj heq).symm), hother id hid]
      exact h.counted id
  have hrejected : ∀ failures : Failures, (∀ id, failuresOf failures (.status id) ≤
      (rejections (.rejectedStatus s.syncs c.id c.status :: s.log) id).length) →
      Inv account { s with failures := failures, log := .rejectedStatus s.syncs c.id c.status :: s.log, run := none } := by
    intro failures hfailures
    refine ⟨h.tables, h.ids, fun x hx hmine hpending => (h.accounted x hx hmine hpending).cons rfl, hfailures,
      fun id => ?_, fun id e he => ?_, fun _ hr => nomatch hr⟩
    · by_cases hid : c.id = id
      · subst hid
        rw [hlog, List.map_cons, List.nodup_cons]
        refine ⟨fun hin => ?_, h.distinct c.id⟩
        obtain ⟨e, he, heq⟩ := List.mem_map.mp hin
        exact absurd heq (Nat.ne_of_lt ((hrows c List.mem_cons_self).2 e he))
      · exact (hother id hid).symm ▸ h.distinct id
    · by_cases hid : c.id = id
      · subst hid
        rcases List.mem_cons.mp (hlog ▸ he) with rfl | he
        · exact Nat.le_refl _
        · exact h.past c.id e he
      · exact h.past id e (hother id hid ▸ he)
  have hchanges : ∀ failures : Failures, ChangesOk account
      { s with failures := failures, log := .rejectedStatus s.syncs c.id c.status :: s.log, run := none } changes := by
    intro failures
    refine ⟨hids, fun d hd => ⟨(hrows d (List.mem_cons_of_mem c hd)).1, fun e he => ?_⟩⟩
    exact (hrows d (List.mem_cons_of_mem c hd)).2 e (hother d.id (hfirst d hd) ▸ he)
  unfold sendFirst
  dsimp only
  split
  · exact (hrejected _ hcount).go _ (hchanges _)
  next hmany =>
    refine (hrejected (itemDone (itemFailed s.failures (.status c.id)) (.status c.id)) fun id => ?_).go _
      ⟨hchanges _, hfirst, (hrows c List.mem_cons_self).1, fun _ hsome => (nomatch hsome), fun _ => ?_⟩
    · rw [failuresOf_itemDone]
      split
      · exact Nat.zero_le _
      · exact hcount id
    · exact (Nat.le_of_not_lt hmany).trans (hcount c.id)

theorem inv_sendFirst (h : Inv account s) {c : Article} {changes : List Article}
    (hok : ChangesOk account s (c :: changes)) (r : Run) (answer : Answer) :
    Inv account (sendFirst s r c changes answer) := by
  cases answer with
  | ok => exact inv_sent h hok r
  | network =>
    unfold sendFirst
    dsimp only
    split
    · refine h.go _ ⟨(List.pairwise_cons.mp hok.1).2, fun d hd => hok.2 d (List.mem_cons_of_mem c hd)⟩
    · exact h.stop
  | rejected => exact inv_rejected h hok r

/-! ## Writing a row -/

/-- A pending row stays one when another row is written, or it is written as a pending one. -/
theorem pendingRow_write {b c : Article} (h : PendingRow account m c) (hb : b.id = c.id →
    b.key = c.key ∧ Mine account b ∧ b.readStatusPending = true) :
    PendingRow account { m with db := writeArticle m.db b, articles := insertArticle m.articles b } c := by
  obtain ⟨r, hr, hid, hkey, hmine, hpending⟩ := h
  by_cases hsame : b.id = c.id
  · obtain ⟨hbkey, hbmine, hbpending⟩ := hb hsame
    exact ⟨b, mem_insertArticle.mpr (Or.inr rfl), hsame, hbkey, hbmine, hbpending⟩
  · refine ⟨r, mem_insertArticle.mpr (Or.inl ⟨hr, fun heq => hsame ?_⟩), hid, hkey, hmine, hpending⟩
    exact heq.symm.trans hid

/-- A row that is accounted for, if it is one of the account that is not pending, can be written. -/
theorem Inv.write (h : Inv account s) {b : Article} (hfit : AllFits account s.manager b)
    (hb : Mine account b → b.readStatusPending = false → Accounted s.log b) {run : Option Run}
    (hrun : ∀ r ∈ run, PhaseOk account
      { s with
        manager := { s.manager with
          db := writeArticle s.manager.db b, articles := insertArticle s.manager.articles b } } r.phase) :
    Inv account
      { s with
        manager := { s.manager with
          db := writeArticle s.manager.db b, articles := insertArticle s.manager.articles b }
        run := run } := by
  refine ⟨allTables_write h.tables hfit, distinctIds_insert h.ids b, fun x hx hmine hpending => ?_, h.counted, h.distinct,
    h.past, hrun⟩
  rcases mem_insertArticle.mp hx with ⟨hx, -⟩ | rfl
  · exact h.accounted x hx hmine hpending
  · exact hb hmine hpending

/-- The article whose change a sync is about to give up. -/
def givingUp (s : Sys) : Option Article :=
  match s.run.map Run.phase with
  | some (.recordStatus c none _) => some c
  | _ => none

def clearsStatus : Action → Bool
  | .clearReadStatusPending _ => true
  | _ => false

/-- What a sync gives up is the status the article has: all the rejections it counted were of it. -/
def GivesUpSame (s : Sys) (a : Action) : Prop :=
  clearsStatus a = true → ∀ c ∈ givingUp s, ∀ r ∈ s.manager.articles, r.id = c.id →
    ∀ e ∈ (rejections s.log c.id).take maxItemFailures, e.2 = r.status

instance (s : Sys) (a : Action) : Decidable (GivesUpSame s a) :=
  inferInstanceAs (Decidable (_ → ∀ c ∈ givingUp s, ∀ r ∈ s.manager.articles, _))

/-- Every write of the database succeeds, and new ids are not used before. -/
def Works (s : Sys) : Action → Prop
  | .fetchArticles _ (some listed) => (listed.Pairwise fun a b => a.id ≠ b.id) ∧
      ∀ l ∈ listed, ∀ r ∈ s.manager.db ++ s.manager.articles, r.id ≠ l.id
  | .clearReadStatusPending w | .recordFetched w | .mark w _ | .planDeliveries w | .updateArticle w _ _ _ => w = .done
  | _ => True

theorem givenUp_of_same {log : List Exchange} {r : Article} (hdistinct : ((rejections log r.id).map Prod.fst).Nodup)
    (hlen : maxItemFailures ≤ (rejections log r.id).length)
    (hsame : ∀ e ∈ (rejections log r.id).take maxItemFailures, e.2 = r.status) : GivenUp log r := by
  refine ⟨((rejections log r.id).take maxItemFailures).map Prod.fst, ?_, ?_, fun n hn => ?_⟩
  · rw [List.length_map, List.length_take, Nat.min_eq_left hlen]
  · exact hdistinct.sublist ((List.take_sublist _ _).map Prod.fst)
  · obtain ⟨e, he, rfl⟩ := List.mem_map.mp hn
    rw [← hsame e he]
    exact mem_rejections (List.mem_of_mem_take he)

theorem inv_recordStatus (h : Inv account s) {c : Article} {sent : Option ReadStatus} {changes : List Article}
    (hok : PhaseOk account s (.recordStatus c sent changes))
    (hsame : sent = none → ∀ r ∈ s.manager.articles, r.id = c.id →
      ∀ e ∈ (rejections s.log c.id).take maxItemFailures, e.2 = r.status) (r : Run) :
    Inv account
      (Sys.go { s with manager := s.manager.clearReadStatusPending .done c.id sent } r (.sendReadStatus changes)) := by
  obtain ⟨⟨hids, hrows⟩, hother, ⟨rc, hrc, hrcid, hrckey, hrcmine, -⟩, hsent, hmany⟩ := hok
  rcases clearReadStatusPending_done s.manager c.id sent with heq | ⟨x, hx, hxid, hstatus, heq⟩
  · rw [heq]
    exact h.go r ⟨hids, hrows⟩
  · rw [heq]
    obtain rfl := h.tables.eq_of_id hx hrc (hxid.trans hrcid.symm)
    have hfit : AllFits account s.manager { x with readStatusPending := false } :=
      allFits_of_map h.tables hx ⟨rfl, rfl, rfl⟩
    refine h.write hfit (fun _ _ => ?_) fun r' hr' => ?_
    · cases hcase : sent with
      | some status =>
        refine Or.inl ?_
        have hknown := hsent status hcase
        rw [← hrckey, ← hstatus status hcase] at hknown
        exact hknown
      | none =>
        refine Or.inr (givenUp_of_same (r := { x with readStatusPending := false }) (h.distinct x.id) ?_ ?_)
        · rw [hxid]
          exact hmany hcase
        · rw [hxid]
          exact hsame hcase x hx hxid
    · obtain rfl := Option.some.inj hr'
      refine ⟨hids, fun d hd => ⟨pendingRow_write (hrows d hd).1 fun hid => ?_, (hrows d hd).2⟩⟩
      exact absurd (hxid.symm.trans hid) (hother d hd)

/-! ## Edits between the steps -/

/-- A pending change is still one after an edit. -/
theorem pendingRow_update (h : AllTables account m) {id : Text} {req : UpdateArticleRequest} {now : Int} {c : Article}
    (hc : PendingRow account m c) : PendingRow account (m.updateArticle .done id req now) c := by
  rcases updateArticle_done h id req now with heq | ⟨b, heq, hfit, -, hcase⟩
  · rw [heq]
    exact hc
  · rw [heq]
    refine pendingRow_write hc fun hid => ?_
    obtain ⟨r, hr, hrid, hrkey, hrmine, hrpending⟩ := hc
    have hbmine : Mine account b := (((hfit r.provider).own r.providerId r hr hrmine.own).mp (hrid.trans hid.symm)).1
    rcases hcase with ⟨x, hx, rfl⟩ | hnot
    · obtain rfl := h.eq_of_id hx hr (hid.trans hrid.symm)
      refine ⟨hrkey, hrmine, ?_⟩
      simp [Article.update, hrpending]
    · exact absurd hbmine hnot

theorem new_update (h : AllTables account m) {id : Text} {req : UpdateArticleRequest} {now : Int} {selected : List Article}
    (hnew : New account m selected) : New account (m.updateArticle .done id req now) selected := by
  rcases updateArticle_done h id req now with heq | ⟨b, heq, -, hid, -⟩
  · rw [heq]
    exact hnew
  · rw [heq]
    refine ⟨hnew.listed, fun a ha => ?_, hnew.distinct⟩
    rintro ⟨r, hr | hr, hrid⟩
    · rcases mem_writeArticle.mp hr with ⟨hr, -⟩ | rfl
      · exact hnew.fresh a ha ⟨r, Or.inl hr, hrid⟩
      · exact hnew.fresh a ha (hrid ▸ hid)
    · rcases mem_insertArticle.mp hr with ⟨hr, -⟩ | rfl
      · exact hnew.fresh a ha ⟨r, Or.inr hr, hrid⟩
      · exact hnew.fresh a ha (hrid ▸ hid)

theorem phaseOk_update (h : AllTables account s.manager) (id : Text) (req : UpdateArticleRequest) (now : Int)
    {phase : Phase} (hok : PhaseOk account s phase) :
    PhaseOk account { s with manager := s.manager.updateArticle .done id req now } phase := by
  have hchanges : ∀ changes, ChangesOk account s changes →
      ChangesOk account { s with manager := s.manager.updateArticle .done id req now } changes :=
    fun changes hc => ⟨hc.1, fun c hin => ⟨pendingRow_update h (hc.2 c hin).1, (hc.2 c hin).2⟩⟩
  cases phase with
  | sendReadStatus changes => exact hchanges changes hok
  | recordStatus c sent changes =>
    exact ⟨hchanges changes hok.1, hok.2.1, pendingRow_update h hok.2.2.1, hok.2.2.2⟩
  | recordFetched selected => exact new_update h hok
  | refreshAuth => exact hok
  | rootNodeIds | markFound | deliver | render | convert | ensureFolder | stageDocuments | planDeliveries | commit
  | markDelivered | setLastSync => trivial

/-- An edit that changes the status makes it pending. -/
theorem inv_updateArticle (h : Inv account s) (id : Text) (req : UpdateArticleRequest) (now : Int) :
    Inv account { s with manager := s.manager.updateArticle .done id req now } := by
  have hphase := fun r hr => phaseOk_update h.tables id req now (h.phase r hr)
  rcases updateArticle_done h.tables id req now with heq | ⟨b, heq, hfit, -, hcase⟩
  · rw [heq]
    exact h
  · rw [heq] at hphase ⊢
    refine h.write hfit (fun hmine hpending => ?_) hphase
    rcases hcase with ⟨r, hr, rfl⟩ | hnot
    · have hsame : r.readStatusPending = false ∧ req.status.any (· != r.status) = false := by
        simpa [Article.update] using hpending
      refine (h.accounted r hr hmine hsame.1).congr rfl rfl ?_
      cases hstatus : req.status with
      | none => simp [Article.update, hstatus]
      | some status =>
        have hst : status = r.status := by simpa [hstatus] using hsame.2
        simp [Article.update, hstatus, hst]
    · exact absurd hmine hnot

/-! ## Recording what was fetched -/

theorem mem_foldl_insert {bs articles : List Article} {x : Article} (h : x ∈ bs.foldl insertArticle articles) :
    (x ∈ articles ∧ ∀ b ∈ bs, x.id ≠ b.id) ∨ x ∈ bs := by
  induction bs generalizing articles with
  | nil => exact Or.inl ⟨h, fun _ hb => nomatch hb⟩
  | cons b bs ih =>
    rcases ih h with ⟨hx, hids⟩ | hx
    · rcases mem_insertArticle.mp hx with ⟨hx, hne⟩ | rfl
      · exact Or.inl ⟨hx, List.forall_mem_cons.mpr ⟨hne, hids⟩⟩
      · exact Or.inr List.mem_cons_self
    · exact Or.inr (List.mem_cons_of_mem b hx)

theorem distinctIds_foldl {articles : List Article} (h : DistinctIds articles) (bs : List Article) :
    DistinctIds (bs.foldl insertArticle articles) := by
  induction bs generalizing articles with
  | nil => exact h
  | cons b bs ih => exact ih (distinctIds_insert h b)

/-- The exchanges of articles that were fetched. -/
def fetchedAll (articles : List Article) : List Exchange := articles.map fun a => .fetched a.key a.status

theorem lastKnown_fetched {articles : List Article} (h : articles.Pairwise fun a b => a.key ≠ b.key) {a : Article}
    (ha : a ∈ articles) (log : List Exchange) : lastKnown (fetchedAll articles ++ log) a.key = some a.status := by
  induction articles with
  | nil => cases ha
  | cons b articles ih =>
    obtain ⟨hfirst, hrest⟩ := List.pairwise_cons.mp h
    rw [lastKnown, fetchedAll, List.map_cons, List.cons_append, List.findSome?_cons]
    rcases List.mem_cons.mp ha with rfl | ha
    · rw [known, if_pos rfl]
    · rw [known, if_neg (hfirst a ha)]
      exact ih hrest ha

theorem rejections_fetched (articles : List Article) (log : List Exchange) (id : Text) :
    rejections (fetchedAll articles ++ log) id = rejections log id := by
  induction articles with
  | nil => rfl
  | cons a articles ih => exact (rejections_cons_none rfl).trans ih

theorem Accounted.fetched {log : List Exchange} {r : Article} (h : Accounted log r) {articles : List Article}
    (hnot : ∀ a ∈ articles, a.key ≠ r.key) : Accounted (fetchedAll articles ++ log) r := by
  induction articles with
  | nil => exact h
  | cons a articles ih =>
    obtain ⟨hfirst, hrest⟩ := List.forall_mem_cons.mp hnot
    exact (ih hrest).cons (if_neg hfirst)

/-- Recorded with the status that was fetched, or still pending. -/
theorem recorded_status (m : Manager) (accountId : Text) (keep : Bool) (a : Article) :
    (m.recorded accountId keep a).readStatusPending = true ∨ (m.recorded accountId keep a).status = a.status := by
  unfold Manager.recorded
  dsimp only
  split
  · split
    · exact Or.inl rfl
    · exact Or.inr rfl
  · split
    · exact Or.inr rfl
    · exact Or.inr rfl

/-- A row whose key was fetched is the one that is written. -/
theorem recorded_of_mine (h : AllTables account m) {x a : Article} (hx : x ∈ m.articles) (hmine : Mine account x)
    (keep : Bool) (hkey : a.key = x.key) : (m.recorded account.id keep a).id = x.id := by
  rcases recorded_cases m account.id keep a with ⟨prev, hown, hid, -⟩ | ⟨hown, -⟩ | ⟨hown, -⟩
  · obtain ⟨hprev, hprevkey, hprevaccount⟩ := own_some hown
    rw [hid, h.eq_of_key hprev hx hprevaccount hmine (hprevkey.trans hkey)]
  · exact absurd hkey.symm (@not_own_of_none (withProvider account x.provider) m a hown _ x hx hmine.own)
  · exact absurd hkey.symm (@not_own_of_none (withProvider account x.provider) m a hown _ x hx hmine.own)

theorem inv_recordFetched (h : Inv account s) {selected : List Article} (hnew : New account s.manager selected) (r : Run) :
    Inv account (afterRecord account s r selected .done) := by
  have hkeys := (@mem_distinctFrom selected []).2.1
  have hnew := hnew.sublist (distinctArticles_sublist selected)
  generalize hkeep : account.syncSettings.syncReadStatus = keep
  generalize hbs : (distinctArticles selected).map (s.manager.recorded account.id keep) = bs
  have hapart : Apart bs := hbs ▸ apart_recorded (h.tables account.provider) keep hnew hkeys
  have hmem : ∀ b ∈ bs, ∃ a ∈ distinctArticles selected, s.manager.recorded account.id keep a = b :=
    fun b hb => List.mem_map.mp (hbs ▸ hb)
  have hrecord : Inv account
      { s with
        manager := { s.manager with
          db := bs.foldl writeArticle s.manager.db, articles := bs.foldl insertArticle s.manager.articles }
        log := fetchedAll (distinctArticles selected) ++ s.log
        run := none } := by
    have hlog := fun id => rejections_fetched (distinctArticles selected) s.log id
    refine ⟨fun p => ?_, distinctIds_foldl h.ids bs, fun x hx hmine hpending => ?_, fun id => ?_, fun id => ?_,
      fun id => ?_, fun _ hr => nomatch hr⟩
    · refine (writes_both (h.tables p) (fun b hb => ?_) hapart).tables
      obtain ⟨a, ha, rfl⟩ := hmem b hb
      exact fits_recorded (h.tables p) (hnew.fresh a ha) keep
    · rcases mem_foldl_insert hx with ⟨hx, hids⟩ | hx
      · refine (h.accounted x hx hmine hpending).fetched fun a ha hkey => ?_
        exact hids _ (hbs ▸ List.mem_map_of_mem ha) (recorded_of_mine h.tables hx hmine keep hkey).symm
      · obtain ⟨a, ha, rfl⟩ := hmem x hx
        refine Or.inl ?_
        have hstatus := (recorded_status s.manager account.id keep a).resolve_left (by rw [hpending]; decide)
        rw [(recorded_key s.manager account.id keep a).1, hstatus]
        exact lastKnown_fetched hkeys ha s.log
    · exact (hlog id).symm ▸ h.counted id
    · exact (hlog id).symm ▸ h.distinct id
    · exact (hlog id).symm ▸ h.past id
  have hrun : s.manager.recordFetched .done account.id keep selected =
      ({ s.manager with
          db := bs.foldl writeArticle s.manager.db, articles := bs.foldl insertArticle s.manager.articles }, some bs) := by
    rw [← hbs]
    rfl
  unfold afterRecord
  rw [hkeep, hrun]
  dsimp only
  split
  · exact hrecord.finish r
  · exact hrecord.go r trivial

/-! ## The delivery -/

theorem setAll_status (delivered : Option Int) (deliveries : List (Text × Text)) (r : Article) :
    (setAll delivered deliveries r).status = r.status ∧
      (setAll delivered deliveries r).readStatusPending = r.readStatusPending := by
  induction deliveries generalizing r with
  | nil => exact ⟨rfl, rfl⟩
  | cons d deliveries ih =>
    have hone : (setDelivery delivered d r).status = r.status ∧
        (setDelivery delivered d r).readStatusPending = r.readStatusPending := by
      unfold setDelivery
      split
      · split
        · exact ⟨rfl, rfl⟩
        · split
          · exact ⟨rfl, rfl⟩
          · exact ⟨rfl, rfl⟩
      · exact ⟨rfl, rfl⟩
    have hrest := ih (setDelivery delivered d r)
    exact ⟨hrest.1.trans hone.1, hrest.2.trans hone.2⟩

theorem inv_columns (h : Inv account s) (deliveries : List (Text × Text)) (delivered : Option Int) :
    Inv account { s with manager := (s.manager.setDeliveryColumns .done deliveries delivered).1, run := none } := by
  have hrun : (s.manager.setDeliveryColumns .done deliveries delivered).1 =
      { s.manager with
        db := s.manager.db.map (setAll delivered deliveries)
        articles := s.manager.articles.map (setAll delivered deliveries) } := by
    unfold Manager.setDeliveryColumns
    rw [setDeliveries_eq_map, setDeliveries_eq_map]
    rfl
  have hsame := setAll_same delivered deliveries
  rw [hrun]
  refine ⟨fun p => tables_map (h.tables p) hsame hsame, ?_, fun x hx hmine hpending => ?_, h.counted, h.distinct, h.past,
    fun _ hr => nomatch hr⟩
  · refine List.pairwise_map.mpr (h.ids.imp fun {a b} hab hid => hab ?_)
    rwa [(hsame a).1, (hsame b).1] at hid
  · obtain ⟨r, hr, rfl⟩ := List.mem_map.mp hx
    obtain ⟨hstatus, hpend⟩ := setAll_status delivered deliveries r
    refine (h.accounted r hr ((hsame r).2.2.symm.trans hmine) (hpend.symm.trans hpending)).congr ?_ ?_ hstatus
    · exact (hsame r).1
    · exact (hsame r).2.1

theorem Inv.itemsDone (h : Inv account s) (hrun : s.run = none) (providerIds : List Text) :
    Inv account (s.itemsDone providerIds) := by
  refine ⟨h.tables, h.ids, h.accounted, fun id => ?_, h.distinct, h.past, fun r hr => ?_⟩
  · have hkept := @failuresOf_itemsDone s.failures providerIds (.status id) fun _ _ h => nomatch h
    exact hkept.le.trans (h.counted id)
  · rw [Sys.itemsDone, hrun] at hr
    cases hr

theorem inv_articleRejected (h : Inv account s) (r : Run) (article : Article) (d : Delivery) :
    Inv account (s.articleRejected r article d) := by
  have hrejected : Inv account
      { s with
        failures := itemFailed s.failures (.article article.providerId)
        log := .rejectedArticle s.syncs article.providerId :: s.log
        run := none } := by
    refine ⟨h.tables, h.ids, fun x hx hmine hpending => (h.accounted x hx hmine hpending).cons rfl, fun id => ?_,
      h.distinct, h.past, fun _ hr => nomatch hr⟩
    rw [failuresOf_itemFailed, if_neg (nomatch ·)]
    exact h.counted id
  exact hrejected.deliver _ d

theorem inv_phaseStep (h : Inv account s) {r : Run} (hok : PhaseOk account s r.phase) (hrun : s.run = some r) {a : Action}
    (hgood : Works s a ∧ GivesUpSame s a) (hstep : r.phase.step account s r a = some s') : Inv account s' := by
  generalize hphase : r.phase = phase at hok hstep
  unfold ReadLaterRun.Phase.step at hstep
  split at hstep
  next ok =>
    obtain rfl := Option.some.inj hstep
    split
    · refine h.go r ?_
      split
      · refine ⟨h.ids.sublist List.filter_sublist, fun c hc => ⟨?_, hok c.id⟩⟩
        obtain ⟨hc, hpending⟩ := List.mem_filter.mp hc
        rw [Bool.and_eq_true, beq_iff_eq] at hpending
        exact ⟨c, hc, rfl, rfl, hpending.2, hpending.1⟩
      · exact ⟨List.Pairwise.nil, fun _ hc => nomatch hc⟩
    · exact h.stop
  next c changes answer =>
    obtain rfl := Option.some.inj hstep
    exact inv_sendFirst h hok r answer
  next c sent changes w =>
    obtain rfl := Option.some.inj hstep
    obtain rfl : w = .done := hgood.1
    refine inv_recordStatus h hok (fun hnone => ?_) r
    have hgiving : givingUp s = some c := by rw [givingUp, hrun, Option.map_some, hphase, hnone]
    exact hgood.2 rfl c hgiving
  next =>
    obtain rfl := Option.some.inj hstep
    exact h.stop
  next now listed =>
    obtain rfl := Option.some.inj hstep
    unfold selectFetched
    dsimp only
    split
    · exact h.finish _
    · exact h.go _ (ReadLaterDelivery.new_selected hgood.1.1 hgood.1.2)
  next selected w =>
    obtain rfl := Option.some.inj hstep
    obtain rfl : w = .done := hgood.1
    exact inv_recordFetched h hok r
  next =>
    obtain rfl := Option.some.inj hstep
    exact h.stop
  next pending listed =>
    obtain rfl := Option.some.inj hstep
    unfold afterListing
    dsimp only
    split
    · exact h.deliver r _
    · exact h.go r trivial
  next found rest w now =>
    obtain rfl := Option.some.inj hstep
    obtain rfl : w = .done := hgood.1
    have hcolumns := inv_columns h (found.filterMap fun a => a.documentId.map fun d => (a.id, d)) (some now)
    exact (hcolumns.itemsDone rfl (found.map (·.providerId))).deliver r _
  next d allowed =>
    obtain rfl := Option.some.inj hstep
    unfold afterCheck
    split
    · exact h.stop
    · split
      · exact h.go r trivial
      · exact h.commitBatch r d
  next article d answer =>
    obtain rfl := Option.some.inj hstep
    cases answer with
    | ok => exact h.go _ trivial
    | network =>
      unfold afterContent
      dsimp only
      split
      · exact h.deliver _ d
      · exact h.deliver _ _
    | rejected => exact inv_articleRejected h _ article d
  next article d outcome =>
    obtain rfl := Option.some.inj hstep
    cases outcome with
    | done bytes =>
      unfold afterConvert
      dsimp only
      split
      · exact h.commitBatch r _
      · exact h.deliver r _
    | unavailable => exact h.deliver _ _
    | panicked => exact h.deliver _ _
    | rejected => exact inv_articleRejected h r article d
  next =>
    obtain rfl := Option.some.inj hstep
    exact h.stop
  next d batch id =>
    obtain rfl := Option.some.inj hstep
    exact h.go r trivial
  next =>
    obtain rfl := Option.some.inj hstep
    exact h.stop
  next d batch ids =>
    split at hstep
    · obtain rfl := Option.some.inj hstep
      exact h.go r trivial
    · cases hstep
  next d deliveries w =>
    obtain rfl := Option.some.inj hstep
    obtain rfl : w = .done := hgood.1
    exact (inv_columns h (pairs deliveries) none).go r trivial
  next d deliveries ok =>
    obtain rfl := Option.some.inj hstep
    split
    · exact h.go r trivial
    · exact h.stop
  next d deliveries w now =>
    obtain rfl := Option.some.inj hstep
    obtain rfl : w = .done := hgood.1
    have hcolumns := inv_columns h (pairs deliveries) (some now)
    exact (hcolumns.itemsDone rfl (deliveries.map fun d => d.1.providerId)).deliver r d
  next stored =>
    obtain rfl := Option.some.inj hstep
    exact ⟨h.tables, h.ids, h.accounted, h.counted, h.distinct, h.past, fun _ hr => nomatch hr⟩
  next => cases hstep

theorem phaseOk_accounts {phase : Phase} (hok : PhaseOk account s phase) (ids : List Text) :
    PhaseOk account { s with manager := { s.manager with accounts := ids } } phase := by
  cases phase with
  | recordFetched selected => exact ⟨hok.listed, hok.fresh, hok.distinct⟩
  | refreshAuth | sendReadStatus | recordStatus | rootNodeIds | markFound | deliver | render | convert | ensureFolder
  | stageDocuments | planDeliveries | commit | markDelivered | setLastSync => exact hok

theorem inv_step (account : ProviderAccount) (s : Sys) (a : Action) (s' : Sys) (h : Inv account s)
    (hgood : Works s a ∧ GivesUpSame s a) (hstep : step account s a = some s') : Inv account s' := by
  unfold ReadLaterRun.step at hstep
  split at hstep
  next =>
    split at hstep
    · cases hstep
    · obtain rfl := Option.some.inj hstep
      refine ⟨h.tables, h.ids, h.accounted, h.counted, h.distinct, fun id e he => Nat.le_succ_of_le (h.past id e he),
        fun r hr => ?_⟩
      obtain rfl := Option.some.inj hr
      exact fun id e he => Nat.lt_succ_of_le (h.past id e he)
  next =>
    obtain rfl := Option.some.inj hstep
    exact h.stop
  next ids =>
    obtain rfl := Option.some.inj hstep
    exact ⟨fun p => (ReadLaterDelivery.edited_accounts (h.tables p) ids).tables, h.ids, h.accounted, h.counted, h.distinct,
      h.past, fun r hr => phaseOk_accounts (h.phase r hr) ids⟩
  next w id req now =>
    obtain rfl := Option.some.inj hstep
    obtain rfl : w = .done := hgood.1
    exact inv_updateArticle h id req now
  next =>
    obtain ⟨r, hr, hstep⟩ := Option.bind_eq_some_iff.mp hstep
    exact inv_phaseStep h (h.phase r hr) hr hgood hstep

/-! ## Whole runs -/

theorem inv_start {rows : List Article} (hrows : ReadLaterDelivery.Keyed rows) (accounts : List Text)
    (lastSync : Option Int) : Inv account (.start account rows accounts lastSync []) := by
  have hknown : knownAtStart account.id rows =
      fetchedAll (rows.filter fun r => r.accountId == some account.id && !r.readStatusPending) ++ [] :=
    (List.append_nil _).symm
  have hlog : ∀ id, rejections (knownAtStart account.id rows) id = [] := by
    intro id
    rw [hknown, rejections_fetched]
    rfl
  have hkeys : (rows.filter fun r => r.accountId == some account.id && !r.readStatusPending).Pairwise
      fun a b => a.key ≠ b.key := by
    refine (hrows.sublist List.filter_sublist).imp_of_mem fun {a b} ha hb hab hkey => ?_
    have ha := (Bool.and_eq_true_iff.mp (List.mem_filter.mp ha).2).1
    have hb := (Bool.and_eq_true_iff.mp (List.mem_filter.mp hb).2).1
    have hreplaces : a.replaces b = true := by simp [Article.replaces, beq_iff_eq.mp ha, beq_iff_eq.mp hb, hkey]
    rw [hab.1] at hreplaces
    cases hreplaces
  refine ⟨fun p => (ReadLaterDelivery.inv_start hrows accounts ⟨[], true⟩).tables, ?_, fun r hr hmine hpending => ?_,
    fun id => Nat.zero_le _, fun id => ?_, fun id e he => ?_, fun _ hr => by cases hr⟩
  · refine hrows.imp fun {a b} hab hid => ?_
    rw [Article.replaces, hid, beq_self_eq_true, Bool.true_or] at hab
    cases hab.1
  · refine Or.inl (Eq.trans (congrArg (lastKnown · r.key) hknown) (lastKnown_fetched hkeys ?_ []))
    exact List.mem_filter.mpr ⟨hr, by rw [show r.accountId = some account.id from hmine, hpending]; simp⟩
  · exact (hlog id).symm ▸ List.nodup_nil
  · have hnil : e ∈ ([] : List (Nat × ReadStatus)) := hlog id ▸ he
    cases hnil

/-- In every run of edits and syncs in which what a sync gives up is the status the article has then, a
status that is not pending is the one last sent or fetched, or it was rejected often enough. -/
theorem no_status_change_lost (account : ProviderAccount) (rows : List Article) (accounts : List Text)
    (lastSync : Option Int) (hrows : ReadLaterDelivery.Keyed rows) (as : List Action) (s : Sys)
    (hworks : AllGood (step account) Works (.start account rows accounts lastSync []) as)
    (hsame : AllGood (step account) GivesUpSame (.start account rows accounts lastSync []) as)
    (hrun : run (step account) (.start account rows accounts lastSync []) as = some s) :
    ∀ r ∈ s.manager.articles, Mine account r → r.readStatusPending = false → Accounted s.log r := by
  have h : Inv account s :=
    invariant_of_allGood (inv_step account) (inv_start hrows accounts lastSync) (hworks.and hsame) hrun
  exact h.accounted

instance (s : Sys) : (a : Action) → Decidable (Works s a)
  | .fetchArticles _ (some _) => inferInstanceAs (Decidable (_ ∧ _))
  | .fetchArticles _ none => .isTrue trivial
  | .clearReadStatusPending w => inferInstanceAs (Decidable (w = .done))
  | .recordFetched w => inferInstanceAs (Decidable (w = .done))
  | .mark w _ => inferInstanceAs (Decidable (w = .done))
  | .planDeliveries w => inferInstanceAs (Decidable (w = .done))
  | .updateArticle w _ _ _ => inferInstanceAs (Decidable (w = .done))
  | .start => .isTrue trivial
  | .refreshAuth _ => .isTrue trivial
  | .updateReadStatus _ => .isTrue trivial
  | .rootNodeIds _ => .isTrue trivial
  | .stillAllowed _ => .isTrue trivial
  | .fetchContent _ => .isTrue trivial
  | .convert _ => .isTrue trivial
  | .ensureFolder _ => .isTrue trivial
  | .stageDocuments _ => .isTrue trivial
  | .commit _ => .isTrue trivial
  | .setLastSync _ => .isTrue trivial
  | .drop => .isTrue trivial
  | .accounts _ => .isTrue trivial

def emptyAtStart : Sys := .start wallabag [] ["w".toList] none []

/-- A first sync records an unread article. -/
def firstSync : List Action :=
  [.start, .refreshAuth true, .fetchArticles 0 (some [entry "a" "1"]), .recordFetched .done, .rootNodeIds none]

def setStatus (status : ReadStatus) : Action := .updateArticle .done "a".toList ⟨some status, none, none, none, none⟩ 1

/-- A sync in which the provider rejects the change. -/
def rejectingSync : List Action := [.start, .refreshAuth true, .updateReadStatus .rejected]

/-- The article is read, which the provider rejects three times. -/
def threeRejections : List Action :=
  firstSync ++ [setStatus .read] ++ rejectingSync ++ [.drop] ++ rejectingSync ++ [.drop] ++ rejectingSync

theorem mem_rejections_of {log : List Exchange} {n : Nat} {id : Text} {status : ReadStatus}
    (h : Exchange.rejectedStatus n id status ∈ log) : (n, status) ∈ rejections log id :=
  List.mem_filterMap.mpr ⟨_, h, if_pos rfl⟩

/-- The change is given up after the third rejection, and this is accounted for. -/
theorem rejected_change_given_up :
    ∃ s, run (step wallabag) emptyAtStart (threeRejections ++ [.clearReadStatusPending .done]) = some s ∧
      s.manager.articles.map (fun r => (r.status, r.readStatusPending)) = [(.read, false)] ∧
      ∀ r ∈ s.manager.articles, Mine wallabag r → r.readStatusPending = false → Accounted s.log r := by
  have hend : (run (step wallabag) emptyAtStart (threeRejections ++ [.clearReadStatusPending .done])).map
      (fun s => s.manager.articles.map fun r => (r.status, r.readStatusPending)) = some [(.read, false)] := by
    decide +kernel
  obtain ⟨s, hrun, hs⟩ := Option.map_eq_some_iff.mp hend
  exact ⟨s, hrun, hs, no_status_change_lost wallabag [] ["w".toList] none List.Pairwise.nil _ s (by decide +kernel)
    (by decide +kernel) hrun⟩

theorem not_accounted {log : List Exchange} {r : Article} (hknown : lastKnown log r.key ≠ some r.status)
    (hrejected : ∀ e ∈ rejections log r.id, e.2 ≠ r.status) : ¬Accounted log r := by
  rintro (heq | ⟨syncs, hlen, -, hall⟩)
  · exact hknown heq
  · cases syncs with
    | nil => cases hlen
    | cons n syncs => exact hrejected _ (mem_rejections_of (hall n List.mem_cons_self)) rfl

/-- The article is archived between the third rejection and the giving up: this change is not pending any more,
and the provider never heard of it. -/
theorem archived_change_lost :
    ∃ s, AllGood (step wallabag) Works emptyAtStart
        (threeRejections ++ [setStatus .archived, .clearReadStatusPending .done]) ∧
      run (step wallabag) emptyAtStart (threeRejections ++ [setStatus .archived, .clearReadStatusPending .done]) =
        some s ∧
      ∃ r ∈ s.manager.articles, Mine wallabag r ∧ r.readStatusPending = false ∧ ¬Accounted s.log r := by
  have hend : (run (step wallabag) emptyAtStart
      (threeRejections ++ [setStatus .archived, .clearReadStatusPending .done])).map
      (fun s => decide (∃ r ∈ s.manager.articles, r.accountId = some wallabag.id ∧ r.readStatusPending = false ∧
        lastKnown s.log r.key ≠ some r.status ∧ ∀ e ∈ rejections s.log r.id, e.2 ≠ r.status)) = some true := by
    decide +kernel
  obtain ⟨s, hrun, hs⟩ := Option.map_eq_some_iff.mp hend
  obtain ⟨r, hr, hmine, hpending, hknown, hrejected⟩ := of_decide_eq_true hs
  exact ⟨s, by decide +kernel, hrun, r, hr, hmine, hpending, not_accounted hknown hrejected⟩

end ReadLaterStatus
