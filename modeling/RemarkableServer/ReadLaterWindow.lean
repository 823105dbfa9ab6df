import RemarkableServer.Lib.Transition
import RemarkableServer.ReadLaterDelivery
import RemarkableServer.ReadLaterRun

/-!
# The window does not advance over an article

The provider is asked only for articles newer than `last_sync`, so a sync that stores it
must be done with every article it selected. Until its end, unless something is to be
retried, each of them is on the device, is given up, or waits in the rest of the delivery.
-/
namespace ReadLaterWindow

open RustText ReadLaterTables ReadLaterRun Transition
open ReadLater hiding Sys Phase Action step
open ReadLaterDelivery (Keyed wallabag entry)

variable {account : ProviderAccount} {m : Manager} {s s' : Sys} {r : Run}

/-- The rows of the provider id say that it is on the device. -/
def OnDevice (account : ProviderAccount) (m : Manager) (pid : Text) : Prop :=
  Both account m pid fun _ _ synced => synced = true

/-- The rows of the article have its id. -/
def Recorded (account : ProviderAccount) (m : Manager) (a : Article) : Prop :=
  Both account m a.providerId fun id _ _ => id = a.id

/-- The article was rejected in this sync, and in enough syncs. -/
def GivenUp (s : Sys) (pid : Text) : Prop :=
  Exchange.rejectedArticle s.syncs pid ∈ s.log ∧ maxItemFailures ≤ failuresOf s.failures (.article pid)

/-- The sync is done with the article. -/
def Settled (account : ProviderAccount) (s : Sys) (pid : Text) : Prop :=
  OnDevice account s.manager pid ∨ account.syncSettings.convertFormat = .html ∨ GivenUp s pid

/-- Unless it retries, the sync is done with each selected article that does not wait for its delivery. -/
def Waits (account : ProviderAccount) (s : Sys) (r : Run) (waiting : List Article) : Prop :=
  (∀ x ∈ waiting, Recorded account s.manager x) ∧
    (r.retry = false → ∀ a ∈ r.selected account, Settled account s a.providerId ∨ ∃ x ∈ waiting, x.providerId = a.providerId)

/-- The articles of a delivery that are not on the device. -/
def waiting (d : Delivery) : List Article := d.pending ++ d.batch.documents.map (·.1)

def PhaseOk (account : ProviderAccount) (s : Sys) (r : Run) : Phase → Prop
  | .refreshAuth | .sendReadStatus _ | .recordStatus _ _ _ => True
  | .recordFetched selected => selected = r.selected account ∧ New account s.manager selected
  | .rootNodeIds pending => Waits account s r pending
  | .markFound found rest => Waits account s r (found ++ rest) ∧ ∀ x ∈ found, x.documentId.isSome
  | .deliver d => Waits account s r (waiting d)
  | .render a d | .convert a d => Waits account s r (a :: waiting d)
  | .ensureFolder d batch | .stageDocuments d batch => Waits account s r (waiting d ++ batch)
  | .planDeliveries d deliveries | .commit d deliveries | .markDelivered d deliveries =>
    Waits account s r (waiting d ++ deliveries.map (·.1))
  | .setLastSync => ∀ a ∈ r.selected account, Settled account s a.providerId

structure Inv (account : ProviderAccount) (s : Sys) : Prop where
  tables : Tables account s.manager
  phase : ∀ r ∈ s.run, PhaseOk account s r r.phase

/-! ## Where the sync goes -/

theorem Inv.stop (h : Inv account s) : Inv account s.stop := ⟨h.tables, fun _ hr => nomatch hr⟩

theorem inv_go (h : Tables account s.manager) {phase : Phase} (hok : PhaseOk account s r phase) :
    Inv account (s.go r phase) := by
  refine ⟨h, fun r' hr' => ?_⟩
  obtain rfl := Option.some.inj hr'
  cases phase with
  | refreshAuth | sendReadStatus | recordStatus | recordFetched | rootNodeIds | markFound | deliver | render | convert
  | ensureFolder | stageDocuments | planDeliveries | commit | markDelivered | setLastSync => exact hok

theorem inv_finish (h : Tables account s.manager) (hok : Waits account s r []) : Inv account (s.finish r) := by
  unfold Sys.finish
  split
  · exact ⟨h, fun _ hr => nomatch hr⟩
  next hretry =>
    refine inv_go h fun a ha => ?_
    rcases hok.2 (Bool.eq_false_iff.mpr hretry) a ha with hsettled | ⟨x, hx, -⟩
    · exact hsettled
    · cases hx

theorem inv_deliver (h : Tables account s.manager) {d : Delivery} (hok : Waits account s r (waiting d)) :
    Inv account (s.deliver r d) := by
  unfold Sys.deliver
  split
  next hempty =>
    rw [Bool.and_eq_true, List.isEmpty_iff, List.isEmpty_iff] at hempty
    have hnone : waiting d = [] := by rw [waiting, hempty.1, hempty.2, List.map_nil, List.append_nil]
    exact inv_finish h (hnone ▸ hok)
  · exact inv_go h hok

theorem inv_commitBatch (h : Tables account s.manager) {d : Delivery} (hok : Waits account s r (waiting d)) :
    Inv account (commitBatch s r d) := by
  have hwaiting : waiting { d with batch := .empty } ++ d.batch.documents.map (·.1) = waiting d := by
    simp [waiting, Batch.empty]
  unfold commitBatch
  dsimp only
  split
  · exact inv_go h (show Waits account s r _ from hwaiting.symm ▸ hok)
  · exact inv_go h (show Waits account s r _ from hwaiting.symm ▸ hok)

/-- Another list of the same articles, or of more. -/
theorem Waits.of_subset {ws ws' : List Article} (h : Waits account s r ws) (hrows : ∀ x ∈ ws', x ∈ ws)
    (hall : ∀ x ∈ ws, x ∈ ws') : Waits account s r ws' := by
  refine ⟨fun x hx => h.1 x (hrows x hx), fun hretry a ha => ?_⟩
  rcases h.2 hretry a ha with hsettled | ⟨x, hx, hpid⟩
  · exact Or.inl hsettled
  · exact Or.inr ⟨x, hall x hx, hpid⟩

/-- When something is to be retried, articles may be left. -/
theorem waits_of_retry {ws : List Article} (hrows : ∀ x ∈ ws, Recorded account s.manager x) (hretry : r.retry = true) :
    Waits account s r ws := ⟨hrows, fun hno => absurd hretry (by rw [hno]; decide)⟩

/-! ## The rows of the deliveries -/

theorem setDelivery_synced {delivered : Option Int} {d : Text × Text} {x : Article} (h : x.syncedToDevice = true) :
    (setDelivery delivered d x).syncedToDevice = true := by
  unfold setDelivery
  split
  · split
    · rfl
    · exact h
  · exact h

theorem setAll_synced {delivered : Option Int} {deliveries : List (Text × Text)} {x : Article}
    (h : x.syncedToDevice = true) : (setAll delivered deliveries x).syncedToDevice = true := by
  induction deliveries generalizing x with
  | nil => exact h
  | cons d deliveries ih => exact ih (setDelivery_synced h)

theorem setAll_delivered {now : Int} {deliveries : List (Text × Text)} {x : Article}
    (h : x.id ∈ deliveries.map Prod.fst) : (setAll (some now) deliveries x).syncedToDevice = true := by
  induction deliveries generalizing x with
  | nil => cases h
  | cons d deliveries ih =>
    rcases List.mem_cons.mp h with hid | hin
    · have hfirst : (setDelivery (some now) d x).syncedToDevice = true := by simp [setDelivery, hid]
      exact setAll_synced (x := setDelivery (some now) d x) hfirst
    · refine ih ?_
      rw [(setDelivery_same (some now) d x).1]
      exact hin

/-- What the delivery columns keep, and what they tell of the articles that were delivered. -/
theorem columns_spec (h : Tables account m) (w : Write) (deliveries : List (Text × Text)) (delivered : Option Int) :
    Tables account (m.setDeliveryColumns w deliveries delivered).1 ∧
      (∀ x, Recorded account m x → Recorded account (m.setDeliveryColumns w deliveries delivered).1 x) ∧
      (∀ pid, OnDevice account m pid → OnDevice account (m.setDeliveryColumns w deliveries delivered).1 pid) ∧
      ((m.setDeliveryColumns w deliveries delivered).2 = true → delivered.isSome → ∀ x, Recorded account m x →
        x.id ∈ deliveries.map Prod.fst → OnDevice account (m.setDeliveryColumns w deliveries delivered).1 x.providerId) := by
  obtain ⟨f, g, hrun, hf, hg, hset⟩ := setDeliveryColumns_cases (m := m) w deliveries delivered
  have hkf := keepsKey_of_cases hf
  have hkg := keepsKey_of_cases hg
  have hsynced : ∀ f : Article → Article, (f = setAll delivered deliveries ∨ f = id) → ∀ x : Article,
      x.syncedToDevice = true → (f x).syncedToDevice = true := by
    rintro f (rfl | rfl) x hx
    · exact setAll_synced hx
    · exact hx
  rw [hrun]
  refine ⟨tables_map h hkf hkg, fun x hx => ?_, fun pid hpid => ?_, fun hok hsome x hx hin => ?_⟩
  · exact both_map hkf hkg hx (fun y _ _ hy => (hkf y).1.trans hy) fun y _ _ hy => (hkg y).1.trans hy
  · exact both_map hkf hkg hpid (fun y _ _ hy => hsynced f hf y hy) fun y _ _ hy => hsynced g hg y hy
  · obtain ⟨rfl, rfl⟩ := hset hok
    obtain ⟨now, rfl⟩ := Option.isSome_iff_exists.mp hsome
    refine both_map hkf hkg hx (fun y _ _ hy => ?_) fun y _ _ hy => ?_
    · exact setAll_delivered (hy ▸ hin)
    · exact setAll_delivered (hy ▸ hin)

/-! ## What stays settled -/

/-- Articles are delivered: those are on the device, and the rest is as it was. -/
theorem waits_delivered (h : Tables account s.manager) (w : Write) {deliveries : List (Text × Text)} {now : Int}
    {done rest : List Article} (hok : Waits account s r (done ++ rest)) (hids : ∀ x ∈ done, x.id ∈ deliveries.map Prod.fst)
    (hdone : (s.manager.markDeliveredAll w now deliveries).2 = true) :
    Waits account
      (Sys.itemsDone { s with manager := (s.manager.markDeliveredAll w now deliveries).1 } (done.map (·.providerId)))
      r rest := by
  obtain ⟨-, hrecorded, hondevice, hdelivered⟩ := columns_spec h w deliveries (some now)
  refine ⟨fun x hx => hrecorded x (hok.1 x (List.mem_append_right done hx)), fun hretry a ha => ?_⟩
  by_cases hin : a.providerId ∈ done.map (·.providerId)
  · obtain ⟨x, hx, hpid⟩ := List.mem_map.mp hin
    refine Or.inl (Or.inl (hpid ▸ hdelivered hdone rfl x (hok.1 x (List.mem_append_left rest hx)) (hids x hx)))
  · rcases hok.2 hretry a ha with (hon | hhtml | ⟨hlog, hcount⟩) | ⟨x, hx, hpid⟩
    · exact Or.inl (Or.inl (hondevice _ hon))
    · exact Or.inl (Or.inr (Or.inl hhtml))
    · have hother : ∀ p ∈ done.map (·.providerId), Item.article a.providerId ≠ .article p :=
        fun p hp heq => hin (Item.article.inj heq ▸ hp)
      have hkept := failuresOf_itemsDone s.failures hother
      exact Or.inl (Or.inr (Or.inr ⟨hlog, hcount.trans hkept.ge⟩))
    · rcases List.mem_append.mp hx with hx | hx
      · exact absurd (List.mem_map.mpr ⟨x, hx, hpid⟩) hin
      · exact Or.inr ⟨x, hx, hpid⟩

theorem waits_planned (h : Tables account s.manager) (w : Write) (deliveries : List (Text × Text)) {ws : List Article}
    (hok : Waits account s r ws) :
    Waits account { s with manager := (s.manager.planDeliveries w deliveries).1 } r ws := by
  obtain ⟨-, hrecorded, hondevice, -⟩ := columns_spec h w deliveries none
  refine ⟨fun x hx => hrecorded x (hok.1 x hx), fun hretry a ha => ?_⟩
  rcases hok.2 hretry a ha with (hon | hhtml | hgiven) | hwaits
  · exact Or.inl (Or.inl (hondevice _ hon))
  · exact Or.inl (Or.inr (Or.inl hhtml))
  · exact Or.inl (Or.inr (Or.inr hgiven))
  · exact Or.inr hwaits

/-- A rejected article is given up, or the window is to be retried. -/
theorem inv_articleRejected (h : Tables account s.manager) {article : Article} {d : Delivery}
    (hok : Waits account s r (article :: waiting d)) : Inv account (s.articleRejected r article d) := by
  unfold Sys.articleRejected
  dsimp only
  refine inv_deliver (s := { s with
    failures := itemFailed s.failures (.article article.providerId)
    log := .rejectedArticle s.syncs article.providerId :: s.log }) h
    ⟨fun x hx => hok.1 x (List.mem_cons_of_mem article hx), fun hretry a ha => ?_⟩
  rw [Bool.or_eq_false_iff, Bool.not_eq_false', decide_eq_true_iff] at hretry
  have hthis : GivenUp
      { s with
        failures := itemFailed s.failures (.article article.providerId)
        log := .rejectedArticle s.syncs article.providerId :: s.log } article.providerId :=
    ⟨List.mem_cons_self, hretry.2⟩
  rcases hok.2 hretry.1 a ha with (hon | hhtml | ⟨hlog, hcount⟩) | ⟨x, hx, hpid⟩
  · exact Or.inl (Or.inl hon)
  · exact Or.inl (Or.inr (Or.inl hhtml))
  · refine Or.inl (Or.inr (Or.inr ?_))
    by_cases hsame : a.providerId = article.providerId
    · exact hsame ▸ hthis
    · refine ⟨List.mem_cons_of_mem _ hlog, ?_⟩
      rw [failuresOf_itemFailed, if_neg fun heq => hsame (Item.article.inj heq)]
      exact hcount
  · rcases List.mem_cons.mp hx with rfl | hx
    · exact Or.inl (Or.inr (Or.inr (hpid ▸ hthis)))
    · exact Or.inr ⟨x, hx, hpid⟩

/-! ## Recording what was fetched -/

/-- Every key of a list is one of the distinct ones. -/
theorem distinctFrom_covers {articles : List Article} {seen : List (ReadLaterProvider × Text)} {a : Article}
    (h : a ∈ articles) : a.key ∈ seen ∨ ∃ b ∈ distinctFrom seen articles, b.key = a.key := by
  induction articles generalizing seen with
  | nil => cases h
  | cons c articles ih =>
    unfold distinctFrom
    split
    next hseen =>
      rcases List.mem_cons.mp h with rfl | h
      · exact Or.inl (by simpa using hseen)
      · exact ih h
    next hnew =>
      rcases List.mem_cons.mp h with rfl | h
      · exact Or.inr ⟨a, List.mem_cons_self, rfl⟩
      · rcases @ih (c.key :: seen) h with hin | ⟨b, hb, hkey⟩
        · rcases List.mem_cons.mp hin with hkey | hin
          · exact Or.inr ⟨c, List.mem_cons_self, hkey.symm⟩
          · exact Or.inl hin
        · exact Or.inr ⟨b, List.mem_cons_of_mem c hb, hkey⟩

theorem recordFetched_snd {w : Write} {accountId : Text} {keep : Bool} {articles recorded : List Article}
    (h : (m.recordFetched w accountId keep articles).2 = some recorded) :
    recorded = (distinctArticles articles).map (m.recorded accountId keep) := by
  unfold Manager.recordFetched at h
  dsimp only at h
  split at h
  · exact (Option.some.inj h).symm
  · cases h

theorem inv_recordFetched (h : Tables account s.manager) (hnew : New account s.manager (r.selected account)) (w : Write) :
    Inv account (afterRecord account s r (r.selected account) w) := by
  obtain ⟨htables, -, hrows⟩ := both_recordFetched h w account.syncSettings.syncReadStatus hnew
  unfold afterRecord
  dsimp only
  split
  · exact ⟨htables, fun _ hr => nomatch hr⟩
  next recorded hrecorded =>
    have hcover : ∀ a ∈ r.selected account, ∃ x ∈ recorded, x.providerId = a.providerId := by
      intro a ha
      obtain ⟨b, hb, hkey⟩ := (@distinctFrom_covers (r.selected account) [] a ha).resolve_left (List.not_mem_nil)
      rw [recordFetched_snd hrecorded]
      refine ⟨_, List.mem_map_of_mem hb, ?_⟩
      exact (congrArg Prod.snd (recorded_key s.manager account.id _ b).1).trans (congrArg Prod.snd hkey)
    have hok : Waits account
        { s with
          manager := (s.manager.recordFetched w account.id account.syncSettings.syncReadStatus (r.selected account)).1
          log := (distinctArticles (r.selected account)).map (fun a => Exchange.fetched a.key a.status) ++ s.log } r
        (recorded.filter (!·.syncedToDevice)) := by
      refine ⟨fun x hx => ?_, fun _ a ha => ?_⟩
      · exact ((hrows recorded hrecorded).2 x (List.mem_filter.mp hx).1).mono fun _ _ _ ht => ht.1
      · obtain ⟨x, hx, hpid⟩ := hcover a ha
        cases hsynced : x.syncedToDevice with
        | true =>
          refine Or.inl (Or.inl (hpid ▸ ((hrows recorded hrecorded).2 x hx).mono fun _ _ _ ht => ?_))
          exact ht.2.2.trans hsynced
        | false => exact Or.inr ⟨x, List.mem_filter.mpr ⟨hx, by rw [hsynced]; rfl⟩, hpid⟩
    split
    next hend =>
      refine inv_finish htables ⟨fun _ hx => (nomatch hx), fun hretry a ha => Or.inl ?_⟩
      rcases Bool.or_eq_true_iff.mp hend with hempty | hhtml
      · rcases hok.2 hretry a ha with hsettled | ⟨x, hx, -⟩
        · exact hsettled
        · rw [List.isEmpty_iff.mp hempty] at hx
          cases hx
      · exact Or.inr (Or.inl (beq_iff_eq.mp hhtml))
    · exact inv_go htables hok

/-! ## The steps of a sync -/

/-- Ids that are made up are not used before, and the API does not edit the articles. -/
def NoEdits (s : Sys) : Action → Prop
  | .fetchArticles _ (some listed) => (listed.Pairwise fun a b => a.id ≠ b.id) ∧
      ∀ l ∈ listed, ∀ r ∈ s.manager.db ++ s.manager.articles, r.id ≠ l.id
  | .updateArticle _ _ _ _ => False
  | _ => True

theorem inv_listing (h : Tables account s.manager) {pending : List Article} (hok : Waits account s r pending)
    (listed : List Text) : Inv account (afterListing s r pending listed) := by
  unfold afterListing
  dsimp only
  generalize hfound : (pending.filter fun a => a.documentId.any listed.contains) = found
  generalize hrest : (pending.filter fun a => !a.documentId.any listed.contains) = rest
  have hperm : (found ++ rest).Perm pending := by
    rw [← hfound, ← hrest]
    exact List.filter_append_perm (fun a : Article => a.documentId.any listed.contains) pending
  have hsplit := hok.of_subset (fun x hx => hperm.mem_iff.mp hx) fun x hx => hperm.mem_iff.mpr hx
  split
  next hempty =>
    rw [List.isEmpty_iff.mp hempty, List.nil_append] at hsplit
    exact inv_deliver h (show Waits account s r (waiting ⟨rest, .empty, none⟩) from
      hsplit.of_subset (by simp [waiting, Batch.empty]) (by simp [waiting, Batch.empty]))
  next =>
    refine inv_go h ⟨hsplit, fun x hx => ?_⟩
    rw [← hfound] at hx
    have hany := (List.mem_filter.mp hx).2
    cases hdoc : x.documentId with
    | some document => rfl
    | none =>
      rw [hdoc] at hany
      cases hany

theorem inv_markFound (h : Tables account s.manager) {found rest : List Article} (hok : Waits account s r (found ++ rest))
    (hdocs : ∀ x ∈ found, x.documentId.isSome) (w : Write) (now : Int) :
    Inv account (afterMarkFound s r found rest w now) := by
  have htables := (columns_spec h w (found.filterMap fun a => a.documentId.map fun d => (a.id, d)) (some now)).1
  unfold afterMarkFound
  dsimp only
  split
  next hdone =>
    refine inv_deliver htables ((waits_delivered h w hok (fun x hx => ?_) hdone).of_subset ?_ ?_)
    · obtain ⟨document, hdoc⟩ := Option.isSome_iff_exists.mp (hdocs x hx)
      exact List.mem_map.mpr ⟨(x.id, document), List.mem_filterMap.mpr ⟨x, hx, by rw [hdoc]; rfl⟩, rfl⟩
    · simp [waiting, Batch.empty]
    · simp [waiting, Batch.empty]
  · exact ⟨htables, fun _ hr => by cases hr⟩

theorem inv_afterCommit (h : Tables account s.manager) {d : Delivery} {deliveries : List (Article × Text)}
    (hok : Waits account s r (waiting d ++ deliveries.map (·.1))) (w : Write) (now : Int) :
    Inv account (afterCommit s r d deliveries w now) := by
  have htables := (columns_spec h w (pairs deliveries) (some now)).1
  have hswap : Waits account s r (deliveries.map (·.1) ++ waiting d) :=
    hok.of_subset (fun x hx => List.mem_append.mpr (List.mem_append.mp hx).symm)
      fun x hx => List.mem_append.mpr (List.mem_append.mp hx).symm
  have hids : ∀ x ∈ deliveries.map (·.1), x.id ∈ (pairs deliveries).map Prod.fst := by
    intro x hx
    obtain ⟨e, he, rfl⟩ := List.mem_map.mp hx
    exact List.mem_map.mpr ⟨(e.1.id, e.2), List.mem_map_of_mem he, rfl⟩
  have hpids : (deliveries.map (·.1)).map (·.providerId) = deliveries.map fun d => d.1.providerId := by
    rw [List.map_map]
    rfl
  unfold afterCommit
  dsimp only
  split
  next hdone =>
    refine inv_deliver htables ?_
    rw [← hpids]
    exact waits_delivered h w hswap hids hdone
  · exact ⟨htables, fun _ hr => nomatch hr⟩

theorem inv_check (h : Tables account s.manager) {d : Delivery} (hok : Waits account s r (waiting d)) (allowed : Bool) :
    Inv account (afterCheck s r d allowed) := by
  unfold afterCheck
  split
  · exact ⟨h, fun _ hr => nomatch hr⟩
  · split
    next a pending hpending =>
      refine inv_go h ?_
      have hwaiting : a :: waiting { d with pending := pending } = waiting d := by rw [waiting, waiting, hpending]; rfl
      exact (show Waits account s r _ from hwaiting ▸ hok)
    · exact inv_commitBatch h hok

theorem inv_stopRendering (h : Tables account s.manager) {d : Delivery} (hrows : ∀ x ∈ waiting d, Recorded account s.manager x) :
    Inv account (stopRendering s r d) := by
  refine inv_deliver h (waits_of_retry (fun x hx => hrows x ?_) rfl)
  exact List.mem_append_right d.pending hx

theorem inv_content (h : Tables account s.manager) {article : Article} {d : Delivery}
    (hok : Waits account s r (article :: waiting d)) (answer : Answer) :
    Inv account (afterContent s r article d answer) := by
  have hrows : ∀ x ∈ waiting d, Recorded account s.manager x := fun x hx => hok.1 x (List.mem_cons_of_mem article hx)
  cases answer with
  | ok => exact inv_go h (show Waits account s { r with unreachable := 0 } _ from hok)
  | network =>
    unfold afterContent
    dsimp only
    split
    · exact inv_deliver h (waits_of_retry hrows rfl)
    · exact inv_stopRendering h hrows
  | rejected => exact inv_articleRejected (r := { r with unreachable := 0 }) h hok

theorem inv_convert (h : Tables account s.manager) {article : Article} {d : Delivery}
    (hok : Waits account s r (article :: waiting d)) (outcome : Conversion) :
    Inv account (afterConvert s r article d outcome) := by
  have hrows : ∀ x ∈ waiting d, Recorded account s.manager x := fun x hx => hok.1 x (List.mem_cons_of_mem article hx)
  cases outcome with
  | done bytes =>
    have hpush : Waits account s r (waiting { d with batch := d.batch.push article bytes }) := by
      refine hok.of_subset (fun x hx => ?_) fun x hx => ?_
      · simp only [waiting, Batch.push, List.map_append, List.mem_append, List.mem_cons, List.map_cons, List.map_nil,
          List.not_mem_nil, or_false] at hx ⊢
        tauto
      · simp only [waiting, Batch.push, List.map_append, List.mem_append, List.mem_cons, List.map_cons, List.map_nil,
          List.not_mem_nil, or_false] at hx ⊢
        tauto
    unfold afterConvert
    dsimp only
    split
    · exact inv_commitBatch h hpush
    · exact inv_deliver h hpush
  | unavailable => exact inv_stopRendering h hrows
  | panicked => exact inv_stopRendering h hrows
  | rejected => exact inv_articleRejected h hok

theorem inv_sendFirst (h : Tables account s.manager) (c : Article) (changes : List Article) (answer : Answer) :
    Inv account (sendFirst s r c changes answer) := by
  have hgo : ∀ (failures : Failures) (log : List Exchange) (r : Run) (phase : Phase),
      (∀ s, PhaseOk account s r phase) → Inv account ({ s with failures := failures, log := log }.go r phase) :=
    fun failures log r phase hok => inv_go (s := { s with failures := failures, log := log }) h (hok _)
  cases answer with
  | ok => exact hgo _ _ _ _ fun _ => trivial
  | network =>
    unfold sendFirst
    dsimp only
    split
    · exact hgo _ _ _ _ fun _ => trivial
    · exact ⟨h, fun _ hr => nomatch hr⟩
  | rejected =>
    unfold sendFirst
    dsimp only
    split
    · exact hgo _ _ _ _ fun _ => trivial
    · exact hgo _ _ _ _ fun _ => trivial

theorem inv_phaseStep (h : Inv account s) (hok : PhaseOk account s r r.phase) {a : Action} (hgood : NoEdits s a)
    (hstep : r.phase.step account s r a = some s') : Inv account s' := by
  have htables := h.tables
  generalize hphase : r.phase = phase at hok hstep
  unfold ReadLaterRun.Phase.step at hstep
  split at hstep
  next ok =>
    obtain rfl := Option.some.inj hstep
    split
    · exact inv_go htables trivial
    · exact h.stop
  next c changes answer =>
    obtain rfl := Option.some.inj hstep
    exact inv_sendFirst htables c changes answer
  next c sent changes w =>
    obtain rfl := Option.some.inj hstep
    exact inv_go (edited_clearReadStatusPending htables w c.id sent).tables trivial
  next =>
    obtain rfl := Option.some.inj hstep
    exact h.stop
  next now listed =>
    obtain rfl := Option.some.inj hstep
    unfold selectFetched
    dsimp only
    split
    next hempty =>
      refine inv_finish htables ⟨fun _ hx => (nomatch hx), fun _ a ha => ?_⟩
      rw [List.isEmpty_iff.mp hempty] at ha
      cases ha
    · exact inv_go htables ⟨rfl, ReadLaterDelivery.new_selected hgood.1 hgood.2⟩
  next selected w =>
    obtain rfl := Option.some.inj hstep
    obtain ⟨rfl, hnew⟩ := hok
    exact inv_recordFetched htables hnew w
  next =>
    obtain rfl := Option.some.inj hstep
    exact h.stop
  next pending listed =>
    obtain rfl := Option.some.inj hstep
    exact inv_listing htables hok listed
  next found rest w now =>
    obtain rfl := Option.some.inj hstep
    exact inv_markFound htables hok.1 hok.2 w now
  next d allowed =>
    obtain rfl := Option.some.inj hstep
    exact inv_check htables hok allowed
  next article d answer =>
    obtain rfl := Option.some.inj hstep
    exact inv_content htables hok answer
  next article d outcome =>
    obtain rfl := Option.some.inj hstep
    exact inv_convert htables hok outcome
  next =>
    obtain rfl := Option.some.inj hstep
    exact h.stop
  next d batch id =>
    obtain rfl := Option.some.inj hstep
    exact inv_go htables hok
  next =>
    obtain rfl := Option.some.inj hstep
    exact h.stop
  next d batch ids =>
    split at hstep
    next hlen =>
      obtain rfl := Option.some.inj hstep
      refine inv_go htables ?_
      have hfst : (batch.zip ids).map (·.1) = batch := List.map_fst_zip (beq_iff_eq.mp hlen).ge
      exact (show Waits account s r (waiting d ++ (batch.zip ids).map (·.1)) from hfst.symm ▸ hok)
    · cases hstep
  next d deliveries w =>
    obtain rfl := Option.some.inj hstep
    unfold afterPlan
    dsimp only
    split
    · exact inv_go (columns_spec htables w (pairs deliveries) none).1 (waits_planned htables w (pairs deliveries) hok)
    · exact ⟨(columns_spec htables w (pairs deliveries) none).1, fun _ hr => nomatch hr⟩
  next d deliveries ok =>
    obtain rfl := Option.some.inj hstep
    split
    · exact inv_go htables hok
    · exact h.stop
  next d deliveries w now =>
    obtain rfl := Option.some.inj hstep
    exact inv_afterCommit htables hok w now
  next stored =>
    obtain rfl := Option.some.inj hstep
    exact ⟨htables, fun _ hr => nomatch hr⟩
  next => cases hstep

theorem inv_step (account : ProviderAccount) (s : Sys) (a : Action) (s' : Sys) (h : Inv account s) (hgood : NoEdits s a)
    (hstep : step account s a = some s') : Inv account s' := by
  unfold ReadLaterRun.step at hstep
  split at hstep
  next =>
    split at hstep
    · cases hstep
    · obtain rfl := Option.some.inj hstep
      refine ⟨h.tables, fun r hr => ?_⟩
      obtain rfl := Option.some.inj hr
      trivial
  next =>
    obtain rfl := Option.some.inj hstep
    exact h.stop
  next ids =>
    obtain rfl := Option.some.inj hstep
    refine ⟨(ReadLaterDelivery.edited_accounts h.tables ids).tables, fun r hr => ?_⟩
    have hok := h.phase r hr
    generalize r.phase = phase at hok ⊢
    cases phase with
    | recordFetched selected => exact ⟨hok.1, hok.2.listed, hok.2.fresh, hok.2.distinct⟩
    | refreshAuth | sendReadStatus | recordStatus | rootNodeIds | markFound | deliver | render | convert | ensureFolder
    | stageDocuments | planDeliveries | commit | markDelivered | setLastSync => exact hok
  next => exact hgood.elim
  next =>
    obtain ⟨r, hr, hstep⟩ := Option.bind_eq_some_iff.mp hstep
    exact inv_phaseStep h (h.phase r hr) hgood hstep

/-! ## Whole runs -/

/-- When a sync stores the start of its window, it is done with every article it selected: the article is on
the device, the account does not deliver, or the article was rejected in this sync and often enough. -/
theorem selected_not_skipped (account : ProviderAccount) (rows : List Article) (accounts : List Text)
    (lastSync : Option Int) (failures : Failures) (hrows : Keyed rows) (as : List Action) (s s' : Sys) (r : Run)
    (hgood : AllGood (step account) NoEdits (.start account rows accounts lastSync failures) as)
    (hrun : run (step account) (.start account rows accounts lastSync failures) as = some s) (hr : s.run = some r)
    (hstored : step account s (.setLastSync true) = some s') :
    s'.lastSync = some r.windowStart ∧ ∀ a ∈ r.selected account, Settled account s' a.providerId := by
  have hstart : Inv account (.start account rows accounts lastSync failures) :=
    ⟨(ReadLaterDelivery.inv_start hrows accounts ⟨[], true⟩).tables, fun _ hr => nomatch hr⟩
  have h : Inv account s := invariant_of_allGood (inv_step account) hstart hgood hrun
  have hok := h.phase r hr
  obtain ⟨r', hr', hstored⟩ := Option.bind_eq_some_iff.mp hstored
  obtain rfl := Option.some.inj (hr.symm.trans hr')
  generalize hphase : r.phase = phase at hok hstored
  cases phase with
  | setLastSync =>
    obtain rfl := Option.some.inj hstored
    exact ⟨rfl, hok⟩
  | sendReadStatus changes =>
    cases changes with
    | nil => cases hstored
    | cons c changes => cases hstored
  | refreshAuth | recordStatus | recordFetched | rootNodeIds | markFound | deliver | render | convert | ensureFolder
  | stageDocuments | planDeliveries | commit | markDelivered => cases hstored

instance (s : Sys) : (a : Action) → Decidable (NoEdits s a)
  | .fetchArticles _ (some _) => inferInstanceAs (Decidable (_ ∧ _))
  | .fetchArticles _ none => .isTrue trivial
  | .updateArticle _ _ _ _ => .isFalse id
  | .clearReadStatusPending _ => .isTrue trivial
  | .recordFetched _ => .isTrue trivial
  | .mark _ _ => .isTrue trivial
  | .planDeliveries _ => .isTrue trivial
  | .start => .isTrue trivial
  | .refreshAuth _ => .isTrue trivial
  | .updateReadStatus _ => .isTrue trivial
  | .rootNodeIds _ => .isTrue trivial
  | .stillAllowed _ => .isTrue trivial
  | .fetchContent _ => .isTrue trivial
  | .convert _ => .isTrue trivial
  | .ensureFolder _ => .isTrue trivial
  | .stageDocuments _ => .isTrue trivial
  | .commit _ => .isTrue trivial
  | .setLastSync _ => .isTrue trivial
  | .drop => .isTrue trivial
  | .accounts _ => .isTrue trivial

/-- Two articles: one is delivered, and the provider rejects the other for the third time. -/
def deliverOne : List Action :=
  [.start, .refreshAuth true, .fetchArticles 7 (some [entry "a" "1", entry "b" "2"]), .recordFetched .done,
    .rootNodeIds (some []), .stillAllowed true, .fetchContent .ok, .convert (.done 9), .stillAllowed true,
    .fetchContent .rejected, .stillAllowed true, .ensureFolder (some []), .stageDocuments (some ["d".toList]),
    .planDeliveries .done, .commit true, .mark .done 8]

theorem window_of_two_articles :
    ∃ s s' r, run (step wallabag) (.start wallabag [] ["w".toList] none [(.article "2".toList, 2)]) deliverOne = some s ∧
      s.run = some r ∧ step wallabag s (.setLastSync true) = some s' ∧
      (r.selected wallabag).map (·.providerId) = ["1".toList, "2".toList] ∧ s'.lastSync = some r.windowStart ∧
      ∀ a ∈ r.selected wallabag, Settled wallabag s' a.providerId := by
  have hend : ((run (step wallabag) (.start wallabag [] ["w".toList] none [(.article "2".toList, 2)]) deliverOne).bind
      fun s => s.run.bind fun r => (step wallabag s (.setLastSync true)).map fun _ =>
        (r.selected wallabag).map (·.providerId)) = some ["1".toList, "2".toList] := by decide +kernel
  obtain ⟨s, hrun, hs⟩ := Option.bind_eq_some_iff.mp hend
  obtain ⟨r, hr, hs⟩ := Option.bind_eq_some_iff.mp hs
  obtain ⟨s', hstored, hselected⟩ := Option.map_eq_some_iff.mp hs
  have hresult := selected_not_skipped wallabag [] ["w".toList] none [(.article "2".toList, 2)] List.Pairwise.nil deliverOne
    s s' r (by decide +kernel) hrun hr hstored
  exact ⟨s, s', r, hrun, hr, hstored, hselected, hresult⟩

end ReadLaterWindow
