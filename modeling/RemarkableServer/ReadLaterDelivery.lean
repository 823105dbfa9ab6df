import RemarkableServer.Lib.Transition
import RemarkableServer.ReadLaterTables

/-!
# A read-later article is put on the device at most once

A document that was staged for a provider id and is in a root is in the account's
row for it, in the table and in the map. A sync stages another document only for
an article whose row has none that is in the root, and writes the new document
into the row before the root is committed. So wherever a sync is cut off, the
document that got into the root is the one in the row.
-/
namespace ReadLaterDelivery

open RustText ReadLater ReadLaterTables Transition

variable {account : ProviderAccount} {s s' : Sys}

/-- No document that was staged for the provider id is in the root. -/
def Undelivered (s : Sys) (pid : Text) : Prop := ∀ document, (pid, document) ∈ s.staged → document ∉ s.tree.nodes

/-- The rows of the article are as it was recorded, and it is not on the device. -/
def Holds (account : ProviderAccount) (m : Manager) (a : Article) : Prop :=
  Both account m a.providerId fun id doc synced => id = a.id ∧ doc = a.documentId ∧ synced = false

/-- The article waits for its delivery. -/
def Awaits (account : ProviderAccount) (s : Sys) (a : Article) : Prop :=
  Holds account s.manager a ∧ Undelivered s a.providerId

/-- The rows of the article have the document. -/
def HasDocument (account : ProviderAccount) (m : Manager) (d : Article × Text) : Prop :=
  Both account m d.1.providerId fun id doc _ => id = d.1.id ∧ doc = some d.2

/-- Articles of different provider ids. -/
def DistinctIds (articles : List Article) : Prop := articles.Pairwise fun a b => a.providerId ≠ b.providerId

/-- The articles a delivery still has to put on the device. -/
def Delivery.waiting (run : Delivery) : List Article := run.pending ++ run.batch.documents.map (·.1)

/-- What holds of the articles of a sync, wherever it is. -/
def PhaseOk (account : ProviderAccount) (s : Sys) : Phase → Prop
  | .recordFetched selected => New account s.manager selected
  | .rootNodeIds pending => (∀ a ∈ pending, Holds account s.manager a) ∧ DistinctIds pending
  | .markFound found rest =>
    (∀ a ∈ found, Holds account s.manager a) ∧ (∀ a ∈ rest, Awaits account s a) ∧ DistinctIds (found ++ rest)
  | .render run => (∀ a ∈ Delivery.waiting run, Awaits account s a) ∧ DistinctIds (Delivery.waiting run)
  | .ensureFolder run batch =>
    (∀ a ∈ Delivery.waiting run ++ batch, Awaits account s a) ∧ DistinctIds (Delivery.waiting run ++ batch)
  | .stageDocuments run batch =>
    (∀ a ∈ Delivery.waiting run ++ batch, Awaits account s a) ∧ DistinctIds (Delivery.waiting run ++ batch)
  | .planDeliveries run deliveries =>
    (∀ a ∈ Delivery.waiting run ++ deliveries.map (·.1), Awaits account s a) ∧
      DistinctIds (Delivery.waiting run ++ deliveries.map (·.1)) ∧
      ∀ d ∈ deliveries, (d.1.providerId, d.2) ∈ s.staged
  | .commit run deliveries =>
    (∀ a ∈ Delivery.waiting run, Awaits account s a) ∧ DistinctIds (Delivery.waiting run ++ deliveries.map (·.1)) ∧
      ∀ d ∈ deliveries, (d.1.providerId, d.2) ∈ s.staged ∧ HasDocument account s.manager d ∧
        Undelivered s d.1.providerId
  | .markDelivered run deliveries =>
    (∀ a ∈ Delivery.waiting run, Awaits account s a) ∧ DistinctIds (Delivery.waiting run ++ deliveries.map (·.1)) ∧
      ∀ d ∈ deliveries, HasDocument account s.manager d

structure Inv (account : ProviderAccount) (s : Sys) : Prop where
  tables : Tables account s.manager
  recorded : ∀ pid document, (pid, document) ∈ s.staged → document ∈ s.tree.nodes →
    Both account s.manager pid fun _ doc _ => doc = some document
  functional : ∀ pid pid' document, (pid, document) ∈ s.staged → (pid', document) ∈ s.staged → pid = pid'
  roots : ∀ root ∈ s.roots, ∀ d ∈ s.staged, d.2 ∈ root → d.2 ∈ s.tree.nodes
  phase : ∀ phase ∈ s.phase, PhaseOk account s phase

/-! ## Steps that change one part -/

/-- The sync goes on, or ends, and nothing else changes. -/
theorem Inv.of_phase (h : Inv account s) (phase : Option Phase) (hphase : ∀ p ∈ phase, PhaseOk account s p) :
    Inv account { s with phase := phase } :=
  ⟨h.tables, h.recorded, h.functional, h.roots, hphase⟩

theorem Inv.idle (h : Inv account s) : Inv account { s with phase := none } :=
  h.of_phase none fun _ hp => nomatch hp

/-- What is staged is in the new root just when it was in the old one. -/
def SameNodes (s : Sys) (tree : Tree) : Prop := ∀ d ∈ s.staged, d.2 ∈ tree.nodes ↔ d.2 ∈ s.tree.nodes

theorem undelivered_setRoot {tree : Tree} (hsame : SameNodes s tree) {pid : Text} (h : Undelivered s pid) :
    Undelivered (s.setRoot tree) pid :=
  fun document hstaged hin => h document hstaged ((hsame _ hstaged).mp hin)

theorem awaits_setRoot {tree : Tree} (hsame : SameNodes s tree) {a : Article} (h : Awaits account s a) :
    Awaits account (s.setRoot tree) a := ⟨h.1, undelivered_setRoot hsame h.2⟩

theorem phaseOk_setRoot {tree : Tree} (hsame : SameNodes s tree) {phase : Phase} (h : PhaseOk account s phase) :
    PhaseOk account (s.setRoot tree) phase := by
  cases phase with
  | recordFetched selected => exact h
  | rootNodeIds pending => exact h
  | markFound found rest => exact ⟨h.1, fun a ha => awaits_setRoot hsame (h.2.1 a ha), h.2.2⟩
  | render run => exact ⟨fun a ha => awaits_setRoot hsame (h.1 a ha), h.2⟩
  | ensureFolder run batch => exact ⟨fun a ha => awaits_setRoot hsame (h.1 a ha), h.2⟩
  | stageDocuments run batch => exact ⟨fun a ha => awaits_setRoot hsame (h.1 a ha), h.2⟩
  | planDeliveries run deliveries => exact ⟨fun a ha => awaits_setRoot hsame (h.1 a ha), h.2⟩
  | commit run deliveries =>
    refine ⟨fun a ha => awaits_setRoot hsame (h.1 a ha), h.2.1, fun d hd => ?_⟩
    obtain ⟨hstaged, hdoc, hund⟩ := h.2.2 d hd
    exact ⟨hstaged, hdoc, undelivered_setRoot hsame hund⟩
  | markDelivered run deliveries => exact ⟨fun a ha => awaits_setRoot hsame (h.1 a ha), h.2⟩

/-- Another client's root, which has the same of the staged documents. -/
theorem Inv.setRoot (h : Inv account s) {tree : Tree} (hsame : SameNodes s tree) : Inv account (s.setRoot tree) where
  tables := h.tables
  recorded := fun pid document hstaged hin => h.recorded pid document hstaged ((hsame _ hstaged).mp hin)
  functional := h.functional
  roots := by
    intro root hroot d hd hin
    rcases List.mem_cons.mp hroot with rfl | hroot
    · exact hin
    · exact (hsame d hd).mpr (h.roots root hroot d hd hin)
  phase := fun phase hp => phaseOk_setRoot hsame (h.phase phase hp)

/-- A manager whose rows tell the same of the device. -/
theorem phaseOk_edited {m' : Manager} (he : Edited account s.manager m') {phase : Phase} (h : PhaseOk account s phase) :
    PhaseOk account { s with manager := m' } phase := by
  have hawaits : ∀ a, Awaits account s a → Awaits account { s with manager := m' } a :=
    fun a ha => ⟨he.both _ _ ha.1, ha.2⟩
  cases phase with
  | recordFetched selected =>
    exact ⟨h.listed, fun a ha hid => h.fresh a ha (he.ids _ hid), h.distinct⟩
  | rootNodeIds pending => exact ⟨fun a ha => he.both _ _ (h.1 a ha), h.2⟩
  | markFound found rest => exact ⟨fun a ha => he.both _ _ (h.1 a ha), fun a ha => hawaits a (h.2.1 a ha), h.2.2⟩
  | render run => exact ⟨fun a ha => hawaits a (h.1 a ha), h.2⟩
  | ensureFolder run batch => exact ⟨fun a ha => hawaits a (h.1 a ha), h.2⟩
  | stageDocuments run batch => exact ⟨fun a ha => hawaits a (h.1 a ha), h.2⟩
  | planDeliveries run deliveries => exact ⟨fun a ha => hawaits a (h.1 a ha), h.2⟩
  | commit run deliveries =>
    refine ⟨fun a ha => hawaits a (h.1 a ha), h.2.1, fun d hd => ?_⟩
    obtain ⟨hstaged, hdoc, hund⟩ := h.2.2 d hd
    exact ⟨hstaged, he.both _ _ hdoc, hund⟩
  | markDelivered run deliveries =>
    exact ⟨fun a ha => hawaits a (h.1 a ha), h.2.1, fun d hd => he.both _ _ (h.2.2 d hd)⟩

theorem Inv.edited (h : Inv account s) {m' : Manager} (he : Edited account s.manager m') :
    Inv account { s with manager := m' } where
  tables := he.tables
  recorded := fun pid document hstaged hin => he.both _ _ (h.recorded pid document hstaged hin)
  functional := h.functional
  roots := h.roots
  phase := fun phase hp => phaseOk_edited he (h.phase phase hp)

/-- The accounts are not looked at here. -/
theorem edited_accounts {m : Manager} (h : Tables account m) (ids : List Text) :
    Edited account m { m with accounts := ids } :=
  ⟨⟨h.dbIds, h.mapIds, h.dbKeys, h.mirrored, h.sameKey⟩, fun _ _ hb => hb, fun _ hid => hid⟩

theorem Inv.crash (h : Inv account s) : Inv account { s with manager := s.manager.reload, phase := none } where
  tables := h.tables.reload
  recorded := fun pid document hstaged hin => (h.recorded pid document hstaged hin).reload
  functional := h.functional
  roots := h.roots
  phase := fun _ hp => nomatch hp

/-! ## The deliveries of a batch -/

/-- A row with the id of an article is a row for its provider id. -/
theorem pid_of_id {m : Manager} (h : Tables account m) {pid : Text} {r a : Article} (hr : r ∈ m.db ∨ r ∈ m.articles)
    (ho : Own account pid r) {tells : Text → Option Text → Bool → Prop} (hb : Both account m a.providerId tells)
    (hid : ∀ id doc synced, tells id doc synced → id = a.id) (hsame : r.id = a.id) : pid = a.providerId := by
  obtain ⟨-, r₀, hr₀, ho₀, ht₀⟩ := hb
  have hrid : r.id = r₀.id := hsame.trans (hid _ _ _ ht₀).symm
  rcases hr with hr | hr
  · exact ho.unique ho₀ (h.sameKey r hr r₀ hr₀ hrid)
  · exact ho.unique ho₀ (congrArg Article.key (h.mapIds r hr r₀ hr₀ hrid))

section
variable {m : Manager} {deliveries : List (Article × Text)} (h : Tables account m)
  (hrows : ∀ d ∈ deliveries, Both account m d.1.providerId fun id _ _ => id = d.1.id)
include h hrows

/-- The row of another provider id is not among those of the deliveries. -/
theorem not_mem_pairs {pid : Text} (hpid : ∀ d ∈ deliveries, d.1.providerId ≠ pid) {r : Article}
    (hr : r ∈ m.db ∨ r ∈ m.articles) (ho : Own account pid r) : r.id ∉ (pairs deliveries).map Prod.fst := by
  intro hin
  simp only [pairs, List.map_map, List.mem_map, Function.comp_apply] at hin
  obtain ⟨d, hd, hid⟩ := hin
  exact hpid d hd (pid_of_id h hr ho (hrows d hd) (fun _ _ _ ht => ht) hid.symm).symm

theorem nodup_pairs (hdistinct : DistinctIds (deliveries.map (·.1))) : ((pairs deliveries).map Prod.fst).Nodup := by
  rw [DistinctIds, List.pairwise_map] at hdistinct
  rw [pairs, List.map_map, List.Nodup, List.pairwise_map]
  refine hdistinct.imp_of_mem fun {d e} hd he hne hsame => hne ?_
  obtain ⟨-, r, hr, ho, hid⟩ := hrows d hd
  exact pid_of_id h (Or.inr hr) ho (hrows e he) (fun _ _ _ ht => ht) (hid.trans hsame)

/-- The delivery columns of other provider ids are left as they are. -/
theorem both_columns_other {pid : Text} (hpid : ∀ d ∈ deliveries, d.1.providerId ≠ pid)
    {tells : Text → Option Text → Bool → Prop} (hb : Both account m pid tells) (w : Write) (delivered : Option Int) :
    Both account (m.setDeliveryColumns w (pairs deliveries) delivered).1 pid tells := by
  obtain ⟨f, g, hrun, hf, hg, -⟩ := setDeliveryColumns_cases (m := m) w (pairs deliveries) delivered
  have hsame : ∀ f : Article → Article, (f = setAll delivered (pairs deliveries) ∨ f = id) → ∀ r : Article,
      r.id ∉ (pairs deliveries).map Prod.fst → f r = r := by
    rintro f (rfl | rfl) r hr
    · exact setAll_of_not_mem hr
    · rfl
  rw [hrun]
  refine both_map (keepsKey_of_cases hf) (keepsKey_of_cases hg) hb (fun r hr ho ht => ?_) fun r hr ho ht => ?_
  · rwa [hsame f hf r (not_mem_pairs h hrows hpid (Or.inl hr) ho)]
  · rwa [hsame g hg r (not_mem_pairs h hrows hpid (Or.inr hr) ho)]

/-- A document that is delivered again stays. -/
theorem both_columns_document (hdocs : ∀ d ∈ deliveries, HasDocument account m d) {pid document : Text}
    (hb : Both account m pid fun _ doc _ => doc = some document) (w : Write) (delivered : Option Int) :
    Both account (m.setDeliveryColumns w (pairs deliveries) delivered).1 pid fun _ doc _ => doc = some document := by
  obtain ⟨f, g, hrun, hf, hg, -⟩ := setDeliveryColumns_cases (m := m) w (pairs deliveries) delivered
  have hrow : ∀ r, r ∈ m.db ∨ r ∈ m.articles → Own account pid r → ∀ p ∈ pairs deliveries, p.1 = r.id →
      r.documentId = some p.2 := by
    intro r hr ho p hp hid
    obtain ⟨d, hd, rfl⟩ := List.mem_map.mp hp
    obtain rfl := pid_of_id h hr ho (hrows d hd) (fun _ _ _ ht => ht) hid.symm
    obtain ⟨⟨x, hx, hxo, hxdoc⟩, y, hy, hyo, hydoc⟩ := hdocs d hd
    rcases hr with hr | hr
    · rw [h.dbKeys _ r hr x hx ho hxo]
      exact hxdoc.2
    · rw [h.mapKeys hr hy ho hyo]
      exact hydoc.2
  have hsame : ∀ f : Article → Article, (f = setAll delivered (pairs deliveries) ∨ f = id) → ∀ r : Article,
      r ∈ m.db ∨ r ∈ m.articles → Own account pid r → (f r).documentId = r.documentId := by
    rintro f (rfl | rfl) r hr ho
    · exact setAll_document (hrow r hr ho)
    · rfl
  rw [hrun]
  refine both_map (keepsKey_of_cases hf) (keepsKey_of_cases hg) hb (fun r hr ho ht => ?_) fun r hr ho ht => ?_
  · rwa [hsame f hf r (Or.inl hr) ho]
  · rwa [hsame g hg r (Or.inr hr) ho]

omit hrows in
theorem tables_columns (w : Write) (delivered : Option Int) :
    Tables account (m.setDeliveryColumns w (pairs deliveries) delivered).1 := by
  obtain ⟨f, g, hrun, hf, hg, -⟩ := setDeliveryColumns_cases (m := m) w (pairs deliveries) delivered
  rw [hrun]
  exact tables_map h (keepsKey_of_cases hf) (keepsKey_of_cases hg)

end

/-- A planned delivery is in both rows. -/
theorem hasDocument_plan {m : Manager} {deliveries : List (Article × Text)} (h : Tables account m)
    (hholds : ∀ d ∈ deliveries, Holds account m d.1) (hdistinct : DistinctIds (deliveries.map (·.1))) (w : Write)
    (hok : (m.planDeliveries w (pairs deliveries)).2 = true) {d : Article × Text} (hd : d ∈ deliveries) :
    HasDocument account (m.planDeliveries w (pairs deliveries)).1 d := by
  have hrows : ∀ d ∈ deliveries, Both account m d.1.providerId fun id _ _ => id = d.1.id :=
    fun d hd => (hholds d hd).mono fun _ _ _ ht => ht.1
  obtain ⟨f, g, hrun, hf, hg, hset⟩ := setDeliveryColumns_cases (m := m) w (pairs deliveries) none
  obtain ⟨rfl, rfl⟩ := hset hok
  have hrow : ∀ r : Article, r.id = d.1.id ∧ r.documentId = d.1.documentId ∧ r.syncedToDevice = false →
      (setAll none (pairs deliveries) r).id = d.1.id ∧ (setAll none (pairs deliveries) r).documentId = some d.2 := by
    rintro r ⟨hid, -, hsynced⟩
    have hmem : (r.id, d.2) ∈ pairs deliveries := by
      rw [hid]
      exact List.mem_map_of_mem hd
    rw [setAll_of_mem (nodup_pairs h hrows hdistinct) hmem]
    simp [setDelivery, hsynced, hid]
  unfold Manager.planDeliveries HasDocument
  rw [hrun]
  exact both_map (setAll_same none _) (setAll_same none _) (hholds d hd) (fun r _ _ => hrow r) fun r _ _ => hrow r

/-! ## The steps of a sync -/

/-- What is new with an action: ids that are made up, roots of other clients, edits. New ids are random, so
no row, no root and no staged document has them; other clients keep the documents there are, and the API
does not set what a sync records of the device. -/
def Good (s : Sys) : Action → Prop
  | .fetch listed => (listed.Pairwise fun a b => a.id ≠ b.id) ∧ ∀ l ∈ listed, ∀ r ∈ s.manager.db ++ s.manager.articles,
      r.id ≠ l.id
  | .ensureFolder (.created id) => ∀ d ∈ s.staged, d.2 ≠ id
  | .stage (some ids) => ids.Nodup ∧ ∀ id ∈ ids, (∀ d ∈ s.staged, d.2 ≠ id) ∧ id ∉ s.tree.nodes ∧
      ∀ root ∈ s.roots, id ∉ root
  | .client tree => ∀ d ∈ s.staged, d.2 ∈ tree.nodes ↔ d.2 ∈ s.tree.nodes
  | .updateArticle _ _ req _ => req.documentId = none ∧ req.syncedToDevice = none
  | _ => True

theorem new_selected {m : Manager} {listed : List Listed} (hdistinct : listed.Pairwise fun a b => a.id ≠ b.id)
    (hfresh : ∀ l ∈ listed, ∀ r ∈ m.db ++ m.articles, r.id ≠ l.id) :
    New account m (selectArticlesForSync (distinctArticles (listed.map (·.toArticle account.provider)))
      account.syncSettings) := by
  have hall : New account m (listed.map (·.toArticle account.provider)) := by
    refine ⟨fun a ha => ?_, fun a ha => ?_, List.pairwise_map.mpr hdistinct⟩
    · obtain ⟨l, -, rfl⟩ := List.mem_map.mp ha
      exact ⟨rfl, rfl⟩
    · obtain ⟨l, hl, rfl⟩ := List.mem_map.mp ha
      rintro ⟨r, hr, hid⟩
      exact hfresh l hl r (List.mem_append.mpr hr) hid
  have hfiltered := (hall.sublist (distinctArticles_sublist _)).sublist
    (List.filter_sublist (p := fun a => a.isSelected account.syncSettings))
  have hsorted := hfiltered.perm (List.perm_insertionSort (fun a b => b.addedAt ≤ a.addedAt) _).symm
  unfold selectArticlesForSync
  dsimp only
  split
  · exact hsorted.sublist (List.take_sublist _ _)
  · exact hsorted

theorem inv_recordFetched (h : Inv account s) {selected : List Article} (hnew : New account s.manager selected)
    (w : Write) (hstep : Phase.step account s (.recordFetched selected) (.recordFetched w) = some s') :
    Inv account s' := by
  obtain ⟨htables, hboth, hrecorded⟩ := both_recordFetched h.tables w account.syncSettings.syncReadStatus hnew
  unfold Phase.step at hstep
  dsimp only at hstep
  cases hstep
  refine ⟨htables, fun pid document hstaged hin => hboth pid document (h.recorded pid document hstaged hin), h.functional,
    h.roots, fun phase hphase => ?_⟩
  rw [Option.mem_def] at hphase
  split at hphase
  · cases hphase
  · cases hphase
    cases hrec : (s.manager.recordFetched w account.id account.syncSettings.syncReadStatus selected).2 with
    | none => exact ⟨List.forall_mem_nil _, List.Pairwise.nil⟩
    | some recorded =>
      obtain ⟨hdistinct, hrows⟩ := hrecorded recorded hrec
      refine ⟨fun a ha => ?_, hdistinct.sublist List.filter_sublist⟩
      obtain ⟨ha, hsynced⟩ := List.mem_filter.mp ha
      rw [Bool.not_eq_true'] at hsynced
      refine (hrows a ha).mono fun id doc synced ht => ⟨ht.1, ht.2.1, ?_⟩
      rw [ht.2.2, hsynced]

/-- The articles whose documents are not in the root have none there. -/
theorem undelivered_of_not_listed (h : Inv account s) {a : Article} (hholds : Holds account s.manager a)
    (hnot : a.documentId.any s.tree.nodes.contains = false) : Undelivered s a.providerId := by
  intro document hstaged hin
  obtain ⟨id, doc, synced, ⟨-, hdoc, -⟩, hdoc'⟩ :=
    h.tables.both_and hholds (h.recorded a.providerId document hstaged hin)
  rw [← hdoc, hdoc'] at hnot
  simp [hin] at hnot

theorem phaseOk_render {rest : List Article} (hrest : ∀ a ∈ rest, Awaits account s a) (hdistinct : DistinctIds rest) :
    PhaseOk account s (.render ⟨rest, .empty, none⟩) := by
  have hwaiting : Delivery.waiting ⟨rest, .empty, none⟩ = rest := List.append_nil rest
  rw [PhaseOk, hwaiting]
  exact ⟨hrest, hdistinct⟩

theorem inv_rootNodeIds (h : Inv account s) {pending : List Article}
    (hpending : PhaseOk account s (.rootNodeIds pending))
    (hstep : Phase.step account s (.rootNodeIds pending) .rootNodeIds = some s') : Inv account s' := by
  unfold Phase.step at hstep
  dsimp only at hstep
  cases hstep
  have hrest : ∀ a ∈ pending.filter fun a => !a.documentId.any s.tree.nodes.contains, Awaits account s a := by
    intro a ha
    obtain ⟨ha, hnot⟩ := List.mem_filter.mp ha
    rw [Bool.not_eq_true'] at hnot
    exact ⟨hpending.1 a ha, undelivered_of_not_listed h (hpending.1 a ha) hnot⟩
  refine h.of_phase _ fun phase hphase => ?_
  rw [Option.mem_def] at hphase
  split at hphase
  · cases hphase
  · split at hphase
    · cases hphase
      exact phaseOk_render hrest (hpending.2.sublist List.filter_sublist)
    · cases hphase
      refine ⟨fun a ha => hpending.1 a (List.mem_filter.mp ha).1, hrest, ?_⟩
      have hperm := List.filter_append_perm (fun a : Article => a.documentId.any s.tree.nodes.contains) pending
      exact (hperm.symm.pairwise_iff fun hab => hab.symm).mp hpending.2

theorem inv_markFound (h : Inv account s) {found rest : List Article} (hok : PhaseOk account s (.markFound found rest))
    (w : Write) (now : Int) (hstep : Phase.step account s (.markFound found rest) (.mark w now) = some s') :
    Inv account s' := by
  obtain ⟨hfound, hrest, hdistinct⟩ := hok
  have hpairs : (found.filterMap fun a => a.documentId.map fun d => (a.id, d)) =
      pairs (found.filterMap fun a => a.documentId.map fun d => (a, d)) := by
    rw [pairs, List.map_filterMap]
    congr 1
    funext a
    cases a.documentId <;> rfl
  have hmem : ∀ d ∈ found.filterMap fun a => a.documentId.map fun d => (a, d), d.1 ∈ found ∧ d.1.documentId = some d.2 := by
    intro d hd
    obtain ⟨a, ha, hdoc⟩ := List.mem_filterMap.mp hd
    obtain ⟨document, hdocument, rfl⟩ := Option.map_eq_some_iff.mp hdoc
    exact ⟨ha, hdocument⟩
  have hdocs : ∀ d ∈ found.filterMap fun a => a.documentId.map fun d => (a, d), HasDocument account s.manager d := by
    intro d hd
    obtain ⟨hin, hdoc⟩ := hmem d hd
    exact (hfound d.1 hin).mono fun id doc synced ht => ⟨ht.1, ht.2.1.trans hdoc⟩
  have hrows : ∀ d ∈ found.filterMap fun a => a.documentId.map fun d => (a, d),
      Both account s.manager d.1.providerId fun id _ _ => id = d.1.id :=
    fun d hd => (hdocs d hd).mono fun _ _ _ ht => ht.1
  unfold Phase.step at hstep
  dsimp only at hstep
  rw [hpairs] at hstep
  cases hstep
  refine ⟨tables_columns h.tables w (some now), fun pid document hstaged hin => ?_, h.functional, h.roots,
    fun phase hphase => ?_⟩
  · exact both_columns_document h.tables hrows hdocs (h.recorded pid document hstaged hin) w (some now)
  · rw [Option.mem_def] at hphase
    split at hphase
    · cases hphase
      obtain ⟨-, hlater, hcross⟩ := List.pairwise_append.mp hdistinct
      refine phaseOk_render (fun a ha => ?_) hlater
      refine ⟨both_columns_other h.tables hrows (fun d hd => ?_) (hrest a ha).1 w (some now), (hrest a ha).2⟩
      exact hcross d.1 (hmem d hd).1 a ha
    · cases hphase

/-- A batch that goes to its commit leaves the rest of the delivery. -/
theorem phaseOk_commitBatch {run : Delivery} (h : PhaseOk account s (.render run)) :
    PhaseOk account s run.commitBatch := by
  have hwaiting : Delivery.waiting { run with batch := .empty } ++ run.batch.documents.map (·.1) = Delivery.waiting run := by
    simp [Delivery.waiting, Batch.empty]
  have hok : (∀ a ∈ Delivery.waiting { run with batch := .empty } ++ run.batch.documents.map (·.1), Awaits account s a) ∧
      DistinctIds (Delivery.waiting { run with batch := .empty } ++ run.batch.documents.map (·.1)) := by
    rw [hwaiting]
    exact h
  unfold Delivery.commitBatch
  dsimp only
  split
  · exact hok
  · exact hok

/-- Less to wait for is as good. -/
theorem phaseOk_sublist {run run' : Delivery} (h : PhaseOk account s (.render run))
    (hsub : (Delivery.waiting run').Sublist (Delivery.waiting run)) : PhaseOk account s (.render run') :=
  ⟨fun a ha => h.1 a (hsub.subset ha), h.2.sublist hsub⟩

theorem phaseOk_perm {run run' : Delivery} (h : PhaseOk account s (.render run))
    (hperm : (Delivery.waiting run).Perm (Delivery.waiting run')) : PhaseOk account s (.render run') :=
  ⟨fun a ha => h.1 a (hperm.mem_iff.mpr ha), (hperm.pairwise_iff fun hab => hab.symm).mp h.2⟩

theorem phaseOk_rendered {run : Delivery} (h : PhaseOk account s (.render run)) (r : Rendering) :
    ∀ phase ∈ run.render r, PhaseOk account s phase := by
  intro phase hphase
  rw [Option.mem_def] at hphase
  unfold Delivery.render at hphase
  split at hphase
  · split at hphase
    · cases hphase
    · cases hphase
      exact phaseOk_commitBatch h
  next a pending hpending =>
    have hwaiting : Delivery.waiting run = a :: pending ++ run.batch.documents.map (·.1) := by
      rw [Delivery.waiting, hpending]
    dsimp only at hphase
    split at hphase
    next bytes =>
      have hpushed : PhaseOk account s (.render { run with pending := pending, batch := run.batch.push a bytes }) := by
        refine phaseOk_perm h ?_
        rw [hwaiting, Delivery.waiting]
        simp only [Batch.push, List.map_append, List.map_cons, List.map_nil]
        rw [← List.append_assoc]
        exact (List.perm_append_singleton a (pending ++ run.batch.documents.map (·.1))).symm
      cases hphase
      split
      · exact phaseOk_commitBatch hpushed
      · exact hpushed
    · cases hphase
      refine phaseOk_sublist h ?_
      rw [hwaiting]
      exact List.sublist_cons_self a _
    · cases hphase
      refine phaseOk_sublist h ?_
      rw [hwaiting]
      exact List.sublist_append_right (a :: pending) _

theorem inv_ensureFolder (h : Inv account s) {run : Delivery} {batch : List Article}
    (hok : PhaseOk account s (.ensureFolder run batch)) {outcome : FolderOutcome}
    (hgood : Good s (.ensureFolder outcome))
    (hstep : Phase.step account s (.ensureFolder run batch) (.ensureFolder outcome) = some s') : Inv account s' := by
  have hresolved : ∀ {s : Sys} (id : Text), PhaseOk account s (.ensureFolder run batch) →
      PhaseOk account s (.stageDocuments { run with parent := some id } batch) := fun _ h => h
  dsimp only [Phase.step] at hstep
  split at hstep
  · cases hstep
    refine h.of_phase _ fun phase hphase => ?_
    cases hphase
    exact hresolved [] hok
  · split at hstep
    · cases hstep
      exact h.idle
    · split at hstep
      · cases hstep
        exact h.idle
      next id =>
        cases hstep
        refine h.of_phase _ fun phase hphase => ?_
        cases hphase
        exact hresolved id hok
      next id =>
        cases hstep
        have hsame : SameNodes s { s.tree with nodes := s.tree.nodes ++ [id] } := by
          intro d hd
          simp [hgood d hd]
        refine (h.setRoot hsame).of_phase _ fun phase hphase => ?_
        cases hphase
        exact hresolved id (phaseOk_setRoot hsame hok)

/-- Different places of a zip have different second parts. -/
theorem eq_of_mem_zip {α β : Type} {xs : List α} {ys : List β} (hnodup : ys.Nodup) {x x' : α} {y : β}
    (h : (x, y) ∈ xs.zip ys) (h' : (x', y) ∈ xs.zip ys) : x = x' := by
  induction xs generalizing ys with
  | nil => cases h
  | cons z xs ih =>
    cases ys with
    | nil => cases h
    | cons w ys =>
      rw [List.nodup_cons] at hnodup
      rw [List.zip_cons_cons, List.mem_cons] at h h'
      rcases h with h | h
      · rcases h' with h' | h'
        · rw [(Prod.mk.inj h).1, (Prod.mk.inj h').1]
        · exact absurd ((Prod.mk.inj h).2 ▸ (List.of_mem_zip h').2) hnodup.1
      · rcases h' with h' | h'
        · exact absurd ((Prod.mk.inj h').2 ▸ (List.of_mem_zip h).2) hnodup.1
        · exact ih hnodup.2 h h'

theorem inv_stage (h : Inv account s) {run : Delivery} {batch : List Article}
    (hok : PhaseOk account s (.stageDocuments run batch)) {ids : List Text} (hgood : Good s (.stage (some ids)))
    (hstep : Phase.step account s (.stageDocuments run batch) (.stage (some ids)) = some s') : Inv account s' := by
  obtain ⟨hnodup, hfresh⟩ := hgood
  dsimp only [Phase.step] at hstep
  split at hstep
  · cases hstep
    exact h.idle
  · split at hstep
    next hlen =>
      have hlen : batch.length = ids.length := (beq_iff_eq.mp hlen).symm
      have hnew : ∀ d ∈ (batch.map (·.providerId)).zip ids, d.2 ∈ ids := fun d hd => (List.of_mem_zip hd).2
      have hundelivered : ∀ pid, Undelivered s pid → ∀ document,
          (pid, document) ∈ s.staged ++ (batch.map (·.providerId)).zip ids → document ∉ s.tree.nodes := by
        intro pid hund document hstaged
        rcases List.mem_append.mp hstaged with hstaged | hstaged
        · exact hund document hstaged
        · exact (hfresh document (hnew _ hstaged)).2.1
      cases hstep
      refine ⟨h.tables, fun pid document hstaged hin => ?_, fun pid pid' document hd hd' => ?_,
        fun root hroot d hd hin => ?_, fun phase hphase => ?_⟩
      · rcases List.mem_append.mp hstaged with hstaged | hstaged
        · exact h.recorded pid document hstaged hin
        · exact absurd hin (hfresh document (hnew _ hstaged)).2.1
      · rcases List.mem_append.mp hd with hd | hd
        · rcases List.mem_append.mp hd' with hd' | hd'
          · exact h.functional pid pid' document hd hd'
          · exact absurd rfl ((hfresh document (hnew _ hd')).1 _ hd)
        · rcases List.mem_append.mp hd' with hd' | hd'
          · exact absurd rfl ((hfresh document (hnew _ hd)).1 _ hd')
          · exact eq_of_mem_zip hnodup hd hd'
      · rcases List.mem_append.mp hd with hd | hd
        · exact h.roots root hroot d hd hin
        · exact absurd hin ((hfresh d.2 (hnew d hd)).2.2 root hroot)
      · cases hphase
        have hbatch : (batch.zip ids).map (·.1) = batch := List.map_fst_zip (Nat.le_of_eq hlen)
        rw [PhaseOk, hbatch]
        refine ⟨fun a ha => ⟨(hok.1 a ha).1, hundelivered _ (hok.1 a ha).2⟩, hok.2, fun d hd => ?_⟩
        refine List.mem_append_right _ ?_
        rw [List.zip_map_left]
        exact List.mem_map_of_mem hd
    · cases hstep

theorem inv_plan (h : Inv account s) {run : Delivery} {deliveries : List (Article × Text)}
    (hok : PhaseOk account s (.planDeliveries run deliveries)) (w : Write)
    (hstep : Phase.step account s (.planDeliveries run deliveries) (.plan w) = some s') : Inv account s' := by
  obtain ⟨hawaits, hdistinct, hstaged⟩ := hok
  have hdelivery : ∀ d ∈ deliveries, Awaits account s d.1 := fun d hd =>
    hawaits d.1 (List.mem_append_right _ (List.mem_map_of_mem hd))
  have hrows : ∀ d ∈ deliveries, Both account s.manager d.1.providerId fun id _ _ => id = d.1.id :=
    fun d hd => (hdelivery d hd).1.mono fun _ _ _ ht => ht.1
  obtain ⟨-, hlater, hcross⟩ := List.pairwise_append.mp hdistinct
  dsimp only [Phase.step] at hstep
  cases hstep
  refine ⟨tables_columns h.tables w none, fun pid document hin hnode => ?_, h.functional, h.roots, fun phase hphase => ?_⟩
  · refine both_columns_other h.tables hrows (fun d hd hpid => ?_) (h.recorded pid document hin hnode) w none
    exact (hdelivery d hd).2 document (hpid ▸ hin) hnode
  · rw [Option.mem_def] at hphase
    split at hphase
    next hdone =>
      cases hphase
      refine ⟨fun a ha => ?_, hdistinct, fun d hd => ?_⟩
      · have ha' := hawaits a (List.mem_append_left _ ha)
        refine ⟨both_columns_other h.tables hrows (fun d hd hpid => ?_) ha'.1 w none, ha'.2⟩
        exact hcross a ha d.1 (List.mem_map_of_mem hd) hpid.symm
      · refine ⟨hstaged d hd, ?_, (hdelivery d hd).2⟩
        exact hasDocument_plan h.tables (fun d hd => (hdelivery d hd).1) hlater w hdone hd
    · cases hphase

/-- The root with the documents of the batch. -/
theorem inv_landed (h : Inv account s) {run : Delivery} {deliveries : List (Article × Text)}
    (hok : PhaseOk account s (.commit run deliveries)) :
    Inv account { s.setRoot { s.tree with nodes := s.tree.nodes ++ deliveries.map (·.2) } with
      phase := some (.markDelivered run deliveries) } := by
  obtain ⟨hawaits, hdistinct, hplanned⟩ := hok
  obtain ⟨-, -, hcross⟩ := List.pairwise_append.mp hdistinct
  refine ⟨h.tables, fun pid document hstaged hin => ?_, h.functional, fun root hroot d hd hin => ?_, fun phase hphase => ?_⟩
  · rcases List.mem_append.mp hin with hin | hin
    · exact h.recorded pid document hstaged hin
    · obtain ⟨d, hd, rfl⟩ := List.mem_map.mp hin
      obtain ⟨hdstaged, hdoc, -⟩ := hplanned d hd
      obtain rfl := h.functional pid d.1.providerId d.2 hstaged hdstaged
      exact hdoc.mono fun _ _ _ ht => ht.2
  · rcases List.mem_cons.mp hroot with rfl | hroot
    · exact hin
    · exact List.mem_append_left _ (h.roots root hroot d hd hin)
  · cases hphase
    refine ⟨fun a ha => ⟨(hawaits a ha).1, fun document hstaged hin => ?_⟩, hdistinct, fun d hd => (hplanned d hd).2.1⟩
    rcases List.mem_append.mp hin with hin | hin
    · exact (hawaits a ha).2 document hstaged hin
    · obtain ⟨d, hd, rfl⟩ := List.mem_map.mp hin
      exact hcross a ha d.1 (List.mem_map_of_mem hd) (h.functional _ _ d.2 hstaged (hplanned d hd).1)

theorem inv_commit (h : Inv account s) {run : Delivery} {deliveries : List (Article × Text)}
    (hok : PhaseOk account s (.commit run deliveries)) (outcome : CommitOutcome)
    (hstep : Phase.step account s (.commit run deliveries) (.commit outcome) = some s') : Inv account s' := by
  dsimp only [Phase.step] at hstep
  split at hstep
  · cases hstep
    exact h.idle
  · split at hstep
    · cases hstep
      exact inv_landed h hok
    next landed =>
      cases hstep
      cases landed with
      | true => exact (inv_landed h hok).idle
      | false => exact h.idle

theorem inv_markDelivered (h : Inv account s) {run : Delivery} {deliveries : List (Article × Text)}
    (hok : PhaseOk account s (.markDelivered run deliveries)) (w : Write) (now : Int)
    (hstep : Phase.step account s (.markDelivered run deliveries) (.mark w now) = some s') : Inv account s' := by
  obtain ⟨hawaits, hdistinct, hdocs⟩ := hok
  obtain ⟨hwaiting, -, hcross⟩ := List.pairwise_append.mp hdistinct
  have hrows : ∀ d ∈ deliveries, Both account s.manager d.1.providerId fun id _ _ => id = d.1.id :=
    fun d hd => (hdocs d hd).mono fun _ _ _ ht => ht.1
  dsimp only [Phase.step] at hstep
  cases hstep
  refine ⟨tables_columns h.tables w (some now), fun pid document hin hnode => ?_, h.functional, h.roots,
    fun phase hphase => ?_⟩
  · exact both_columns_document h.tables hrows hdocs (h.recorded pid document hin hnode) w (some now)
  · rw [Option.mem_def] at hphase
    split at hphase
    · cases hphase
      refine ⟨fun a ha => ⟨?_, (hawaits a ha).2⟩, hwaiting⟩
      refine both_columns_other h.tables hrows (fun d hd hpid => ?_) (hawaits a ha).1 w (some now)
      exact hcross a ha d.1 (List.mem_map_of_mem hd) hpid.symm
    · cases hphase

theorem inv_phaseStep (h : Inv account s) {phase : Phase} (hok : PhaseOk account s phase) {a : Action} (hgood : Good s a)
    (hstep : phase.step account s a = some s') : Inv account s' := by
  unfold Phase.step at hstep
  split at hstep
  next selected w => exact inv_recordFetched h hok w hstep
  next pending => exact inv_rootNodeIds h hok hstep
  next found rest w now => exact inv_markFound h hok w now hstep
  next run r =>
    cases hstep
    exact h.of_phase _ (phaseOk_rendered hok r)
  next run batch outcome => exact inv_ensureFolder h hok hgood hstep
  next run batch =>
    cases hstep
    exact h.idle
  next run batch ids => exact inv_stage h hok hgood hstep
  next run deliveries w => exact inv_plan h hok w hstep
  next run deliveries outcome => exact inv_commit h hok outcome hstep
  next run deliveries w now => exact inv_markDelivered h hok w now hstep
  · cases hstep

theorem inv_step (account : ProviderAccount) (s : Sys) (a : Action) (s' : Sys) (h : Inv account s) (hgood : Good s a)
    (hstep : step account s a = some s') : Inv account s' := by
  unfold step at hstep
  split at hstep
  next listed =>
    dsimp only at hstep
    split at hstep
    · cases hstep
    · cases hstep
      refine h.of_phase _ fun phase hphase => ?_
      rw [Option.mem_def] at hphase
      split at hphase
      · cases hphase
      · cases hphase
        exact new_selected hgood.1 hgood.2
  · cases hstep
    exact h.idle
  · cases hstep
    exact h.crash
  next tree =>
    cases hstep
    exact h.setRoot hgood
  next ids =>
    cases hstep
    exact h.edited (edited_accounts h.tables ids)
  next w id req now =>
    cases hstep
    exact h.edited (edited_updateArticle h.tables w id now hgood.1 hgood.2)
  next w id sent =>
    cases hstep
    exact h.edited (edited_clearReadStatusPending h.tables w id sent)
  next =>
    obtain ⟨phase, hphase, hstep⟩ := Option.bind_eq_some_iff.mp hstep
    exact inv_phaseStep h (h.phase phase hphase) hgood hstep

/-! ## Whole runs -/

/-- The keys of the table: no row is one that another would replace. -/
def Keyed (rows : List Article) : Prop := rows.Pairwise fun a b => a.replaces b = false ∧ b.replaces a = false

theorem Keyed.eq {rows : List Article} (h : Keyed rows) {a b : Article} (ha : a ∈ rows) (hb : b ∈ rows)
    (hrep : a.replaces b = true) : a = b := by
  induction rows with
  | nil => cases ha
  | cons r rows ih =>
    obtain ⟨hfirst, hrest⟩ := List.pairwise_cons.mp h
    rcases List.mem_cons.mp ha with rfl | hina
    · rcases List.mem_cons.mp hb with rfl | hinb
      · rfl
      · rw [(hfirst b hinb).1] at hrep
        cases hrep
    · rcases List.mem_cons.mp hb with rfl | hinb
      · rw [(hfirst a hina).2] at hrep
        cases hrep
      · exact ih hrest hina hinb

theorem inv_start {rows : List Article} (hrows : Keyed rows) (accounts : List Text) (tree : Tree) :
    Inv account (.start rows accounts tree) where
  tables := by
    have hids : ∀ r ∈ rows, ∀ r' ∈ rows, r.id = r'.id → r = r' := by
      intro r hr r' hr' hid
      exact hrows.eq hr hr' (by simp [Article.replaces, hid])
    refine ⟨hids, hids, fun pid r hr r' hr' ho ho' => ?_, fun _ r hr ho => ⟨r, hr, ho, rfl⟩, fun r hr r' hr' hid => ?_⟩
    · exact hrows.eq hr hr' (by simp [Article.replaces, ho.1, ho'.1, ho.2, ho'.2])
    · rw [hids r hr r' hr' hid]
  recorded := fun _ _ hstaged => nomatch hstaged
  functional := fun _ _ _ hstaged => nomatch hstaged
  roots := fun _ _ _ hstaged => nomatch hstaged
  phase := fun _ hphase => nomatch hphase

/-- The document is in a root that was committed. -/
def Sys.everInRoot (s : Sys) (document : Text) : Prop := ∃ root ∈ s.roots, document ∈ root

/-- In every run of syncs of the account, with crashes, failed writes and other clients at any point, at most
one of the documents that were staged for a provider id was ever in a committed root. -/
theorem at_most_one_document (account : ProviderAccount) (rows : List Article) (accounts : List Text) (tree : Tree)
    (hrows : Keyed rows) (as : List Action) (s : Sys)
    (hgood : AllGood (step account) Good (.start rows accounts tree) as)
    (hrun : run (step account) (.start rows accounts tree) as = some s) :
    ∀ pid document document', (pid, document) ∈ s.staged → (pid, document') ∈ s.staged →
      Sys.everInRoot s document → Sys.everInRoot s document' → document = document' := by
  have h : Inv account s := invariant_of_allGood (inv_step account) (inv_start hrows accounts tree) hgood hrun
  rintro pid document document' hstaged hstaged' ⟨root, hroot, hin⟩ ⟨root', hroot', hin'⟩
  have hnow := h.recorded pid document hstaged (h.roots root hroot _ hstaged hin)
  have hnow' := h.recorded pid document' hstaged' (h.roots root' hroot' _ hstaged' hin')
  obtain ⟨id, doc, synced, hdoc, hdoc'⟩ := h.tables.both_and hnow hnow'
  exact Option.some.inj (hdoc.symm.trans hdoc')

instance (s : Sys) : (a : Action) → Decidable (Good s a)
  | .fetch _ => inferInstanceAs (Decidable (_ ∧ _))
  | .ensureFolder (.created _) => inferInstanceAs (Decidable (∀ d ∈ s.staged, _))
  | .ensureFolder .failed => .isTrue trivial
  | .ensureFolder (.found _) => .isTrue trivial
  | .stage (some _) => inferInstanceAs (Decidable (_ ∧ _))
  | .stage none => .isTrue trivial
  | .client _ => inferInstanceAs (Decidable (∀ d ∈ s.staged, _))
  | .updateArticle _ _ _ _ => inferInstanceAs (Decidable (_ ∧ _))
  | .recordFetched _ => .isTrue trivial
  | .rootNodeIds => .isTrue trivial
  | .mark _ _ => .isTrue trivial
  | .render _ => .isTrue trivial
  | .plan _ => .isTrue trivial
  | .commit _ => .isTrue trivial
  | .drop => .isTrue trivial
  | .crash => .isTrue trivial
  | .accounts _ => .isTrue trivial
  | .clearReadStatusPending _ _ _ => .isTrue trivial

def wallabag : ProviderAccount := ⟨"w".toList, .wallabag, ⟨50, .epub, true, [], false, false, none⟩⟩

def entry (id pid : String) : Listed := ⟨id.toList, pid.toList, "u".toList, [], .unread, false, 0, none⟩

/-- A sync up to the staging of one document. -/
def upToStage (id document : String) : List Action :=
  [.fetch [entry id "1"], .recordFetched .done, .rootNodeIds, .render (.done 9), .render .skipped, .ensureFolder .failed,
    .stage (some [document.toList])]

/-- The process dies before the commit of the first document and after that of the second; the third sync
finds the second document in the root. -/
def twoCrashes : List Action :=
  upToStage "a" "d1" ++ [.plan .done, .crash] ++ upToStage "b" "d2" ++ [.plan .done, .commit .done, .crash] ++
    [.fetch [entry "c" "1"], .recordFetched .done, .rootNodeIds, .mark .done 5, .render .skipped]

theorem one_document_after_two_crashes : ∃ s, run (step wallabag) (.start [] ["w".toList] ⟨[], true⟩) twoCrashes = some s ∧
    s.staged = [("1".toList, "d1".toList), ("1".toList, "d2".toList)] ∧ s.tree.nodes = ["d2".toList] ∧
    ∀ pid document document', (pid, document) ∈ s.staged → (pid, document') ∈ s.staged →
      Sys.everInRoot s document → Sys.everInRoot s document' → document = document' := by
  have hend : (run (step wallabag) (.start [] ["w".toList] ⟨[], true⟩) twoCrashes).map (fun s => (s.staged, s.tree.nodes)) =
      some ([("1".toList, "d1".toList), ("1".toList, "d2".toList)], ["d2".toList]) := by decide +kernel
  obtain ⟨s, hrun, hs⟩ := Option.map_eq_some_iff.mp hend
  refine ⟨s, hrun, congrArg Prod.fst hs, congrArg Prod.snd hs, ?_⟩
  exact at_most_one_document wallabag [] ["w".toList] ⟨[], true⟩ List.Pairwise.nil twoCrashes s (by decide +kernel) hrun

end ReadLaterDelivery
