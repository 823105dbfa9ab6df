import RemarkableServer.ReadLater

/-!
# The article table and the map that mirrors it

An account has at most one row for each provider id, in the table and in the map,
and the two rows have the same id. Every write of the manager keeps this, also one
that fails after it was applied to the table; and it changes what the row tells of
the device only as it is meant to.
-/
namespace ReadLaterTables

open RustText ReadLater

/-- A row of the account for the provider id. -/
def Own (account : ProviderAccount) (pid : Text) (r : Article) : Prop :=
  r.accountId = some account.id ∧ r.key = (account.provider, pid)

/-- The rows of the table and of the map, and how they go together. -/
structure Tables (account : ProviderAccount) (m : Manager) : Prop where
  dbIds : ∀ r ∈ m.db, ∀ r' ∈ m.db, r.id = r'.id → r = r'
  mapIds : ∀ r ∈ m.articles, ∀ r' ∈ m.articles, r.id = r'.id → r = r'
  dbKeys : ∀ pid, ∀ r ∈ m.db, ∀ r' ∈ m.db, Own account pid r → Own account pid r' → r = r'
  mirrored : ∀ pid, ∀ r ∈ m.articles, Own account pid r → ∃ r' ∈ m.db, Own account pid r' ∧ r'.id = r.id
  sameKey : ∀ r ∈ m.db, ∀ r' ∈ m.articles, r.id = r'.id → r.key = r'.key

/-- What both rows of the provider id tell: their ids, their documents and whether these were delivered. -/
def Both (account : ProviderAccount) (m : Manager) (pid : Text) (tells : Text → Option Text → Bool → Prop) : Prop :=
  (∃ r ∈ m.db, Own account pid r ∧ tells r.id r.documentId r.syncedToDevice) ∧
    ∃ r ∈ m.articles, Own account pid r ∧ tells r.id r.documentId r.syncedToDevice

variable {account : ProviderAccount} {m : Manager}

theorem Own.unique {pid pid' : Text} {r r' : Article} (h : Own account pid r) (h' : Own account pid' r')
    (hkey : r.key = r'.key) : pid = pid' := by
  have hpair := h.2.symm.trans (hkey.trans h'.2)
  exact (Prod.mk.inj hpair).2

theorem Tables.mapKeys (h : Tables account m) {pid : Text} {r r' : Article} (hr : r ∈ m.articles) (hr' : r' ∈ m.articles)
    (ho : Own account pid r) (ho' : Own account pid r') : r = r' := by
  obtain ⟨b, hb, hbo, hbid⟩ := h.mirrored pid r hr ho
  obtain ⟨b', hb', hbo', hbid'⟩ := h.mirrored pid r' hr' ho'
  obtain rfl := h.dbKeys pid b hb b' hb' hbo hbo'
  exact h.mapIds r hr r' hr' (hbid.symm.trans hbid')

/-- The row of the table has the id of the row of the map. -/
theorem Tables.own_id (h : Tables account m) {pid : Text} {r r' : Article} (hr : r ∈ m.db) (hr' : r' ∈ m.articles)
    (ho : Own account pid r) (ho' : Own account pid r') : r.id = r'.id := by
  obtain ⟨b, hb, hbo, hbid⟩ := h.mirrored pid r' hr' ho'
  rw [h.dbKeys pid r hr b hb ho hbo, hbid]

theorem Both.mono {pid : Text} {tells tells' : Text → Option Text → Bool → Prop} (h : Both account m pid tells)
    (himp : ∀ id doc synced, tells id doc synced → tells' id doc synced) : Both account m pid tells' := by
  obtain ⟨⟨r, hr, ho, hs⟩, r', hr', ho', hs'⟩ := h
  exact ⟨⟨r, hr, ho, himp _ _ _ hs⟩, r', hr', ho', himp _ _ _ hs'⟩

/-- Two statements about the rows of a provider id are about the same row of the map. -/
theorem Tables.both_and (h : Tables account m) {pid : Text} {tells tells' : Text → Option Text → Bool → Prop}
    (hb : Both account m pid tells) (hb' : Both account m pid tells') :
    ∃ id doc synced, tells id doc synced ∧ tells' id doc synced := by
  obtain ⟨-, r, hr, ho, hs⟩ := hb
  obtain ⟨-, r', hr', ho', hs'⟩ := hb'
  obtain rfl := h.mapKeys hr hr' ho ho'
  exact ⟨r.id, r.documentId, r.syncedToDevice, hs, hs'⟩

theorem Tables.reload (h : Tables account m) : Tables account m.reload where
  dbIds := h.dbIds
  mapIds := h.dbIds
  dbKeys := h.dbKeys
  mirrored := fun _ r hr ho => ⟨r, hr, ho, rfl⟩
  sameKey := by
    intro r hr r' hr' hid
    rw [h.dbIds r hr r' hr' hid]

theorem Both.reload {pid : Text} {tells : Text → Option Text → Bool → Prop} (h : Both account m pid tells) :
    Both account m.reload pid tells := ⟨h.1, h.1⟩

/-! ## Writing a row -/

theorem mem_writeArticle {rows : List Article} {a r : Article} :
    r ∈ writeArticle rows a ↔ r ∈ rows ∧ a.replaces r = false ∨ r = a := by
  simp [writeArticle]

theorem mem_insertArticle {articles : List Article} {a r : Article} :
    r ∈ insertArticle articles a ↔ r ∈ articles ∧ r.id ≠ a.id ∨ r = a := by
  simp [insertArticle]

/-- A row that is not replaced has another id, and is not a row of the same account and key. -/
theorem not_replaces {a r : Article} (h : a.replaces r = false) : r.id ≠ a.id := by
  intro hid
  simp [Article.replaces, hid] at h

theorem own_of_replaces {pid : Text} {a r : Article} (h : a.replaces r = true) (hid : r.id ≠ a.id)
    (ho : Own account pid r) : Own account pid a := by
  simp only [Article.replaces, Bool.or_eq_true, beq_iff_eq, hid, false_or, Bool.and_eq_true] at h
  exact ⟨h.1.2 ▸ ho.1, h.2 ▸ ho.2⟩

/-- The row can be written: its id stands for its key, and the account's row in the map has its id just
when it is a row of the account for the same provider id. -/
structure Fits (account : ProviderAccount) (m : Manager) (a : Article) : Prop where
  key : ∀ r, r ∈ m.db ∨ r ∈ m.articles → r.id = a.id → r.key = a.key
  own : ∀ pid, ∀ r ∈ m.articles, Own account pid r → (r.id = a.id ↔ Own account pid a)

section
variable {a : Article} (h : Tables account m) (hfit : Fits account m a)
include h hfit

/-- The table after the write and before it go with the map as it was. -/
theorem tables_writeDb : Tables account { m with db := writeArticle m.db a } where
  dbIds := by
    intro r hr r' hr' hid
    rcases mem_writeArticle.mp hr with ⟨hr, hnot⟩ | rfl
    · rcases mem_writeArticle.mp hr' with ⟨hr', -⟩ | rfl
      · exact h.dbIds r hr r' hr' hid
      · exact absurd hid (not_replaces hnot)
    · rcases mem_writeArticle.mp hr' with ⟨-, hnot⟩ | rfl
      · exact absurd hid.symm (not_replaces hnot)
      · rfl
  mapIds := h.mapIds
  dbKeys := by
    have hone : ∀ pid, ∀ r ∈ m.db, Own account pid r → Own account pid a → a.replaces r = true := by
      intro pid r hr ho hoa
      simp [Article.replaces, ho.1, hoa.1, ho.2, hoa.2]
    intro pid r hr r' hr' ho ho'
    rcases mem_writeArticle.mp hr with ⟨hold, hnot⟩ | rfl
    · rcases mem_writeArticle.mp hr' with ⟨hold', -⟩ | rfl
      · exact h.dbKeys pid r hold r' hold' ho ho'
      · rw [hone pid r hold ho ho'] at hnot
        cases hnot
    · rcases mem_writeArticle.mp hr' with ⟨hold', hnot⟩ | rfl
      · rw [hone pid r' hold' ho' ho] at hnot
        cases hnot
      · rfl
  mirrored := by
    intro pid r hr ho
    by_cases hid : r.id = a.id
    · exact ⟨a, mem_writeArticle.mpr (Or.inr rfl), (hfit.own pid r hr ho).mp hid, hid.symm⟩
    · obtain ⟨r', hr', ho', hid'⟩ := h.mirrored pid r hr ho
      refine ⟨r', mem_writeArticle.mpr (Or.inl ⟨hr', ?_⟩), ho', hid'⟩
      cases hrep : a.replaces r' with
      | false => rfl
      | true =>
        have hown := own_of_replaces hrep (by rwa [hid']) ho'
        exact absurd ((hfit.own pid r hr ho).mpr hown) hid
  sameKey := by
    intro r hr r' hr' hid
    rcases mem_writeArticle.mp hr with ⟨hr, -⟩ | rfl
    · exact h.sameKey r hr r' hr' hid
    · exact (hfit.key r' (Or.inr hr') hid.symm).symm

theorem tables_writeBoth :
    Tables account { m with db := writeArticle m.db a, articles := insertArticle m.articles a } where
  dbIds := (tables_writeDb h hfit).dbIds
  mapIds := by
    intro r hr r' hr' hid
    rcases mem_insertArticle.mp hr with ⟨hr, hnot⟩ | rfl
    · rcases mem_insertArticle.mp hr' with ⟨hr', -⟩ | rfl
      · exact h.mapIds r hr r' hr' hid
      · exact absurd hid hnot
    · rcases mem_insertArticle.mp hr' with ⟨-, hnot⟩ | rfl
      · exact absurd hid.symm hnot
      · rfl
  dbKeys := (tables_writeDb h hfit).dbKeys
  mirrored := by
    intro pid r hr ho
    rcases mem_insertArticle.mp hr with ⟨hr, -⟩ | rfl
    · exact (tables_writeDb h hfit).mirrored pid r hr ho
    · exact ⟨r, mem_writeArticle.mpr (Or.inr rfl), ho, rfl⟩
  sameKey := by
    intro r hr r' hr' hid
    rcases mem_insertArticle.mp hr' with ⟨hr', hnot⟩ | rfl
    · exact (tables_writeDb h hfit).sameKey r hr r' hr' hid
    · rcases mem_writeArticle.mp hr with ⟨-, hnot⟩ | rfl
      · exact absurd hid (not_replaces hnot)
      · rfl

/-- What the rows say is kept by the write of a row that tells it too, if it is one of theirs. -/
theorem both_writeDb {pid : Text} {tells : Text → Option Text → Bool → Prop} (hb : Both account m pid tells)
    (ha : Own account pid a → tells a.id a.documentId a.syncedToDevice) :
    Both account { m with db := writeArticle m.db a } pid tells := by
  obtain ⟨⟨r, hr, ho, hs⟩, r₀, hr₀, ho₀, hs₀⟩ := hb
  refine ⟨?_, r₀, hr₀, ho₀, hs₀⟩
  by_cases hown : Own account pid a
  · exact ⟨a, mem_writeArticle.mpr (Or.inr rfl), hown, ha hown⟩
  · have hid : r.id ≠ a.id := by
      rw [h.own_id hr hr₀ ho ho₀]
      exact fun hid => hown ((hfit.own pid r₀ hr₀ ho₀).mp hid)
    refine ⟨r, mem_writeArticle.mpr (Or.inl ⟨hr, ?_⟩), ho, hs⟩
    cases hrep : a.replaces r with
    | false => rfl
    | true => exact absurd (own_of_replaces hrep hid ho) hown

theorem both_writeBoth {pid : Text} {tells : Text → Option Text → Bool → Prop} (hb : Both account m pid tells)
    (ha : Own account pid a → tells a.id a.documentId a.syncedToDevice) :
    Both account { m with db := writeArticle m.db a, articles := insertArticle m.articles a } pid tells := by
  refine ⟨(both_writeDb h hfit hb ha).1, ?_⟩
  obtain ⟨-, r₀, hr₀, ho₀, hs₀⟩ := hb
  by_cases hown : Own account pid a
  · exact ⟨a, mem_insertArticle.mpr (Or.inr rfl), hown, ha hown⟩
  · have hid : r₀.id ≠ a.id := fun hid => hown ((hfit.own pid r₀ hr₀ ho₀).mp hid)
    exact ⟨r₀, mem_insertArticle.mpr (Or.inl ⟨hr₀, hid⟩), ho₀, hs₀⟩

end

/-! ## Writing several rows -/

/-- Rows with different ids and keys. -/
def Apart (articles : List Article) : Prop := articles.Pairwise fun a b => a.id ≠ b.id ∧ a.key ≠ b.key

theorem Fits.after_db {a b : Article} (hb : Fits account m b) (hid : a.id ≠ b.id) :
    Fits account { m with db := writeArticle m.db a } b where
  key := by
    rintro r (hr | hr) hrid
    · rcases mem_writeArticle.mp hr with ⟨hr, -⟩ | rfl
      · exact hb.key r (Or.inl hr) hrid
      · exact absurd hrid hid
    · exact hb.key r (Or.inr hr) hrid
  own := hb.own

theorem Fits.after_both {a b : Article} (hb : Fits account m b) (hid : a.id ≠ b.id) (hkey : a.key ≠ b.key) :
    Fits account { m with db := writeArticle m.db a, articles := insertArticle m.articles a } b where
  key := by
    rintro r (hr | hr) hrid
    · exact (hb.after_db hid).key r (Or.inl hr) hrid
    · rcases mem_insertArticle.mp hr with ⟨hr, -⟩ | rfl
      · exact hb.key r (Or.inr hr) hrid
      · exact absurd hrid hid
  own := by
    intro pid r hr ho
    rcases mem_insertArticle.mp hr with ⟨hr, -⟩ | rfl
    · exact hb.own pid r hr ho
    · exact ⟨fun h => absurd h hid, fun h => absurd (ho.2.trans h.2.symm) hkey⟩

/-- What a write keeps and what it leaves: the tables, what rows tell that the written ones tell too, and
no id that was not there before. -/
structure Writes (account : ProviderAccount) (articles : List Article) (m m' : Manager) : Prop where
  tables : Tables account m'
  both : ∀ pid tells, Both account m pid tells →
    (∀ a ∈ articles, Own account pid a → tells a.id a.documentId a.syncedToDevice) → Both account m' pid tells

theorem writes_db {articles : List Article} (h : Tables account m) (hfit : ∀ a ∈ articles, Fits account m a)
    (hapart : Apart articles) : Writes account articles m { m with db := articles.foldl writeArticle m.db } := by
  induction articles generalizing m with
  | nil => exact ⟨h, fun _ _ hb _ => hb⟩
  | cons a articles ih =>
    obtain ⟨hfirst, hapart⟩ := List.pairwise_cons.mp hapart
    have ha := hfit a List.mem_cons_self
    have hrest := ih (tables_writeDb h ha)
      (fun b hb => (hfit b (List.mem_cons_of_mem a hb)).after_db (hfirst b hb).1) hapart
    refine ⟨hrest.tables, fun pid tells hb htells => ?_⟩
    have hone := both_writeDb h ha hb (htells a List.mem_cons_self)
    exact hrest.both pid tells hone fun b hb => htells b (List.mem_cons_of_mem a hb)

theorem writes_both {articles : List Article} (h : Tables account m) (hfit : ∀ a ∈ articles, Fits account m a)
    (hapart : Apart articles) :
    Writes account articles m
      { m with db := articles.foldl writeArticle m.db, articles := articles.foldl insertArticle m.articles } := by
  induction articles generalizing m with
  | nil => exact ⟨h, fun _ _ hb _ => hb⟩
  | cons a articles ih =>
    obtain ⟨hfirst, hapart⟩ := List.pairwise_cons.mp hapart
    have ha := hfit a List.mem_cons_self
    have hrest := ih (tables_writeBoth h ha)
      (fun b hb => (hfit b (List.mem_cons_of_mem a hb)).after_both (hfirst b hb).1 (hfirst b hb).2) hapart
    refine ⟨hrest.tables, fun pid tells hb htells => ?_⟩
    have hone := both_writeBoth h ha hb (htells a List.mem_cons_self)
    exact hrest.both pid tells hone fun b hb => htells b (List.mem_cons_of_mem a hb)

/-- Each row that was written is the account's row afterwards. -/
theorem both_of_written {articles : List Article} (h : Tables account m) (hfit : ∀ a ∈ articles, Fits account m a)
    (hapart : Apart articles) {a : Article} (ha : a ∈ articles) {pid : Text} (ho : Own account pid a) :
    Both account
      { m with db := articles.foldl writeArticle m.db, articles := articles.foldl insertArticle m.articles } pid
      fun id doc synced => id = a.id ∧ doc = a.documentId ∧ synced = a.syncedToDevice := by
  induction articles generalizing m with
  | nil => cases ha
  | cons b articles ih =>
    obtain ⟨hfirst, hlater⟩ := List.pairwise_cons.mp hapart
    have hb := hfit b List.mem_cons_self
    have htables := tables_writeBoth h hb
    have hfits := fun c hc => (hfit c (List.mem_cons_of_mem b hc)).after_both (hfirst c hc).1 (hfirst c hc).2
    rcases List.mem_cons.mp ha with rfl | ha
    · refine (writes_both htables hfits hlater).both pid _ ?_ fun c hc hco => ?_
      · exact ⟨⟨a, mem_writeArticle.mpr (Or.inr rfl), ho, rfl, rfl, rfl⟩,
          a, mem_insertArticle.mpr (Or.inr rfl), ho, rfl, rfl, rfl⟩
      · exact absurd (ho.2.trans hco.2.symm) (hfirst c hc).2
    · exact ih htables hfits hlater ha

/-- A write of the manager: both, the table only, or nothing. -/
theorem write_cases (w : Write) (db articles : List Article) :
    m.write w db articles = ({ m with db := db, articles := articles }, true) ∨
      m.write w db articles = ({ m with db := db }, false) ∨ m.write w db articles = (m, false) := by
  cases w with
  | done => exact Or.inl rfl
  | failed applied =>
    cases applied with
    | true => exact Or.inr (Or.inl rfl)
    | false => exact Or.inr (Or.inr rfl)

/-- The ids of the rows, in the table or in the map. -/
def HasId (m : Manager) (id : Text) : Prop := ∃ r, (r ∈ m.db ∨ r ∈ m.articles) ∧ r.id = id

/-! ## Edits -/

/-- An edit of a row of the map, written under an id there is. -/
structure Edited (account : ProviderAccount) (m m' : Manager) : Prop where
  tables : Tables account m'
  both : ∀ pid tells, Both account m pid tells → Both account m' pid tells
  ids : ∀ id, HasId m' id → HasId m id

theorem edited_refl (h : Tables account m) : Edited account m m := ⟨h, fun _ _ hb => hb, fun _ hid => hid⟩

/-- A row that fits and says of the device what the account's row says is an edit. -/
theorem edited_write {a : Article} (h : Tables account m) (hfit : Fits account m a) (hid : HasId m a.id)
    (hown : ∀ pid, Own account pid a → ∃ r ∈ m.articles, Own account pid r ∧ r.id = a.id ∧
      r.documentId = a.documentId ∧ r.syncedToDevice = a.syncedToDevice) (w : Write) :
    Edited account m (m.write w (writeArticle m.db a) (insertArticle m.articles a)).1 := by
  have htells : ∀ pid tells, Both account m pid tells → Own account pid a →
      tells a.id a.documentId a.syncedToDevice := by
    intro pid tells hb ho
    obtain ⟨r, hr, hro, hrid, hdoc, hsynced⟩ := hown pid ho
    obtain ⟨-, r', hr', ho', htells⟩ := hb
    obtain rfl := h.mapKeys hr hr' hro ho'
    rwa [hrid, hdoc, hsynced] at htells
  have hdb : ∀ r ∈ writeArticle m.db a, HasId m r.id := by
    intro r hr
    rcases mem_writeArticle.mp hr with ⟨hr, -⟩ | rfl
    · exact ⟨r, Or.inl hr, rfl⟩
    · exact hid
  have hmap : ∀ r ∈ insertArticle m.articles a, HasId m r.id := by
    intro r hr
    rcases mem_insertArticle.mp hr with ⟨hr, -⟩ | rfl
    · exact ⟨r, Or.inr hr, rfl⟩
    · exact hid
  rcases write_cases (m := m) w (writeArticle m.db a) (insertArticle m.articles a) with hw | hw | hw
  · rw [hw]
    refine ⟨tables_writeBoth h hfit, fun pid tells hb => both_writeBoth h hfit hb (htells pid tells hb), ?_⟩
    rintro id ⟨r, hr | hr, rfl⟩
    · exact hdb r hr
    · exact hmap r hr
  · rw [hw]
    refine ⟨tables_writeDb h hfit, fun pid tells hb => both_writeDb h hfit hb (htells pid tells hb), ?_⟩
    rintro id ⟨r, hr | hr, rfl⟩
    · exact hdb r hr
    · exact ⟨r, Or.inr hr, rfl⟩
  · rw [hw]
    exact edited_refl h

/-- A row of the map that is changed in place fits. -/
theorem fits_of_map {a r : Article} (h : Tables account m) (hr : r ∈ m.articles) (hid : a.id = r.id) (hkey : a.key = r.key)
    (haccount : a.accountId = r.accountId) : Fits account m a where
  key := by
    rintro x (hx | hx) hxid
    · rw [h.sameKey x hx r hr (hxid.trans hid), hkey]
    · rw [h.mapIds x hx r hr (hxid.trans hid), hkey]
  own := by
    intro pid x hx ho
    constructor
    · intro hxid
      obtain rfl := h.mapIds x hx r hr (hxid.trans hid)
      exact ⟨haccount.trans ho.1, hkey.trans ho.2⟩
    · intro hoa
      have hor : Own account pid r := ⟨haccount ▸ hoa.1, hkey ▸ hoa.2⟩
      rw [h.mapKeys hx hr ho hor, hid]

theorem edited_clearReadStatusPending (h : Tables account m) (w : Write) (id : Text) (sent : Option ReadStatus) :
    Edited account m (m.clearReadStatusPending w id sent) := by
  unfold Manager.clearReadStatusPending
  split
  · exact edited_refl h
  next r hget =>
    have hr : r ∈ m.articles := List.mem_of_find?_eq_some hget
    split
    · exact edited_refl h
    · refine edited_write (a := { r with readStatusPending := false }) h (fits_of_map h hr rfl rfl rfl)
        ⟨r, Or.inr hr, rfl⟩ (fun pid ho => ?_) w
      exact ⟨r, hr, ho, rfl, rfl, rfl⟩

/-- A row that the table has under another id is not one of the account. -/
theorem fits_of_other {a b r x : Article} (h : Tables account m) (hr : r ∈ m.articles) (hrid : a.id = r.id)
    (hrkey : a.key = r.key) (hraccount : a.accountId = r.accountId) (hx : x ∈ m.db) (hxaccount : x.accountId = a.accountId)
    (hxkey : x.key = a.key) (hxid : x.id ≠ a.id) (hid : b.id = x.id) (hkey : b.key = a.key)
    (haccount : b.accountId = a.accountId ∨
      ∃ prev ∈ m.articles, prev.id = x.id ∧ b.accountId = a.accountId.or prev.accountId) :
    Fits account m b ∧ ∀ pid, ¬Own account pid b := by
  have hnotx : ∀ pid, ¬Own account pid x := by
    intro pid ho
    have hor : Own account pid r := ⟨(hxaccount.trans hraccount).symm.trans ho.1, (hxkey.trans hrkey).symm.trans ho.2⟩
    exact hxid ((h.own_id hx hr ho hor).trans hrid.symm)
  have hother : ∀ pid, ∀ y ∈ m.articles, Own account pid y → y.id ≠ x.id := by
    intro pid y hy ho hyid
    obtain ⟨y', hy', ho', hyid'⟩ := h.mirrored pid y hy ho
    obtain rfl := h.dbIds y' hy' x hx (hyid'.trans hyid)
    exact hnotx pid ho'
  have hnot : ∀ pid, ¬Own account pid b := by
    intro pid ho
    rcases haccount with haccount | ⟨prev, hprev, hprevid, haccount⟩
    · exact hnotx pid ⟨hxaccount.trans (haccount.symm.trans ho.1), hxkey.trans (hkey.symm.trans ho.2)⟩
    · cases ha : a.accountId with
      | some owner =>
        rw [ha, Option.some_or] at haccount
        exact hnotx pid ⟨hxaccount.trans (ha.trans (haccount.symm.trans ho.1)), hxkey.trans (hkey.symm.trans ho.2)⟩
      | none =>
        rw [ha, Option.none_or] at haccount
        have hprevkey : prev.key = b.key := by
          rw [← h.sameKey x hx prev hprev hprevid.symm, hxkey, hkey]
        exact hother pid prev hprev ⟨haccount.symm.trans ho.1, hprevkey.trans ho.2⟩ hprevid
  refine ⟨⟨?_, fun pid y hy ho => ?_⟩, hnot⟩
  · rintro y (hy | hy) hyid
    · rw [h.dbIds y hy x hx (hyid.trans hid), hxkey, hkey]
    · rw [← h.sameKey x hx y hy (hyid.trans hid).symm, hxkey, hkey]
  · rw [hid]
    exact ⟨fun hyid => absurd hyid (hother pid y hy ho), fun hoa => absurd hoa (hnot pid)⟩

theorem edited_upsertArticle {a r : Article} (h : Tables account m) (hr : r ∈ m.articles) (hid : a.id = r.id)
    (hkey : a.key = r.key) (haccount : a.accountId = r.accountId) (hdoc : a.documentId = r.documentId)
    (hsynced : a.syncedToDevice = r.syncedToDevice) (w : Write) : Edited account m (m.upsertArticle w a).1 := by
  have hsame : Edited account m (m.write w (writeArticle m.db a) (insertArticle m.articles a)).1 := by
    refine edited_write h (fits_of_map h hr hid hkey haccount) ⟨r, Or.inr hr, hid.symm⟩ (fun pid ho => ?_) w
    exact ⟨r, hr, ⟨haccount.symm.trans ho.1, hkey.symm.trans ho.2⟩, hid.symm, hdoc.symm, hsynced.symm⟩
  unfold Manager.upsertArticle
  dsimp only
  split
  · exact hsame
  next id hexisting =>
    obtain ⟨x, hfind, rfl⟩ := Option.map_eq_some_iff.mp hexisting
    have hx : x ∈ m.db := List.mem_of_find?_eq_some hfind
    have hmatch := List.find?_some hfind
    rw [Bool.and_eq_true, beq_iff_eq, beq_iff_eq] at hmatch
    split
    · exact hsame
    next hne =>
      have hxid : x.id ≠ a.id := by simpa using hne
      split
      · obtain ⟨hfit, hnot⟩ := fits_of_other (b := { a with id := x.id }) h hr hid hkey haccount hx hmatch.1 hmatch.2 hxid
          rfl rfl (Or.inl rfl)
        exact edited_write h hfit ⟨x, Or.inl hx, rfl⟩ (fun pid ho => absurd ho (hnot pid)) w
      next prev hget =>
        have hprev : prev ∈ m.articles := List.mem_of_find?_eq_some hget
        have hprevid : prev.id = x.id := by simpa using List.find?_some hget
        obtain ⟨hfit, hnot⟩ := fits_of_other
          (b := { keepDeviceState a prev with id := x.id, accountId := a.accountId.or prev.accountId }) h hr hid hkey
          haccount hx hmatch.1 hmatch.2 hxid rfl rfl (Or.inr ⟨prev, hprev, hprevid, rfl⟩)
        exact edited_write h hfit ⟨x, Or.inl hx, rfl⟩ (fun pid ho => absurd ho (hnot pid)) w

theorem edited_updateArticle (h : Tables account m) (w : Write) (id : Text) {req : UpdateArticleRequest} (now : Int)
    (hdoc : req.documentId = none) (hsynced : req.syncedToDevice = none) :
    Edited account m (m.updateArticle w id req now) := by
  unfold Manager.updateArticle
  split
  · exact edited_refl h
  next r hget =>
    have hr : r ∈ m.articles := List.mem_of_find?_eq_some hget
    refine edited_upsertArticle (a := r.update req now) h hr rfl rfl rfl ?_ ?_ w
    · simp [Article.update, hdoc]
    · simp [Article.update, hsynced]

/-! ## The delivery columns -/

/-- The columns of one row after the deliveries. -/
def setAll (delivered : Option Int) (deliveries : List (Text × Text)) (r : Article) : Article :=
  deliveries.foldl (fun r delivery => setDelivery delivered delivery r) r

theorem setDeliveries_eq_map (delivered : Option Int) (deliveries : List (Text × Text)) (rows : List Article) :
    setDeliveries delivered deliveries rows = rows.map (setAll delivered deliveries) := by
  induction deliveries generalizing rows with
  | nil => exact (List.map_id rows).symm
  | cons d deliveries ih =>
    have hstep : setDeliveries delivered (d :: deliveries) rows =
        setDeliveries delivered deliveries (rows.map (setDelivery delivered d)) := rfl
    rw [hstep, ih, List.map_map]
    rfl

theorem setDelivery_same (delivered : Option Int) (d : Text × Text) (r : Article) :
    (setDelivery delivered d r).id = r.id ∧ (setDelivery delivered d r).key = r.key ∧
      (setDelivery delivered d r).accountId = r.accountId := by
  unfold setDelivery
  split
  · split
    · exact ⟨rfl, rfl, rfl⟩
    · split
      · exact ⟨rfl, rfl, rfl⟩
      · exact ⟨rfl, rfl, rfl⟩
  · exact ⟨rfl, rfl, rfl⟩

theorem setAll_same (delivered : Option Int) (deliveries : List (Text × Text)) (r : Article) :
    (setAll delivered deliveries r).id = r.id ∧ (setAll delivered deliveries r).key = r.key ∧
      (setAll delivered deliveries r).accountId = r.accountId := by
  induction deliveries generalizing r with
  | nil => exact ⟨rfl, rfl, rfl⟩
  | cons d deliveries ih =>
    have hone := setDelivery_same delivered d r
    have hrest := ih (setDelivery delivered d r)
    exact ⟨hrest.1.trans hone.1, hrest.2.1.trans hone.2.1, hrest.2.2.trans hone.2.2⟩

theorem setAll_of_not_mem {delivered : Option Int} {deliveries : List (Text × Text)} {r : Article}
    (h : r.id ∉ deliveries.map Prod.fst) : setAll delivered deliveries r = r := by
  induction deliveries with
  | nil => rfl
  | cons d deliveries ih =>
    rw [List.map_cons, List.mem_cons, not_or] at h
    have hone : setDelivery delivered d r = r := by simp [setDelivery, h.1]
    have hstep : setAll delivered (d :: deliveries) r = setAll delivered deliveries (setDelivery delivered d r) := rfl
    rw [hstep, hone, ih h.2]

theorem setAll_of_mem {delivered : Option Int} {deliveries : List (Text × Text)} {r : Article} {document : Text}
    (hnodup : (deliveries.map Prod.fst).Nodup) (hmem : (r.id, document) ∈ deliveries) :
    setAll delivered deliveries r = setDelivery delivered (r.id, document) r := by
  induction deliveries generalizing r with
  | nil => cases hmem
  | cons d deliveries ih =>
    rw [List.map_cons, List.nodup_cons] at hnodup
    have hstep : setAll delivered (d :: deliveries) r = setAll delivered deliveries (setDelivery delivered d r) := rfl
    have hid := (setDelivery_same delivered d r).1
    rcases List.mem_cons.mp hmem with rfl | hmem
    · rw [hstep, setAll_of_not_mem (by rw [hid]; exact hnodup.1)]
    · have hother : r.id ≠ d.1 := by
        rintro hsame
        exact hnodup.1 (hsame ▸ List.mem_map_of_mem hmem)
      have hone : setDelivery delivered d r = r := by simp [setDelivery, hother]
      rw [hstep, hone, ih hnodup.2 hmem]

/-- A row keeps its document when that is what is delivered. -/
theorem setAll_document {delivered : Option Int} {deliveries : List (Text × Text)} {r : Article}
    (h : ∀ d ∈ deliveries, d.1 = r.id → r.documentId = some d.2) :
    (setAll delivered deliveries r).documentId = r.documentId := by
  induction deliveries generalizing r with
  | nil => rfl
  | cons d deliveries ih =>
    have hstep : setAll delivered (d :: deliveries) r = setAll delivered deliveries (setDelivery delivered d r) := rfl
    have hone : (setDelivery delivered d r).documentId = r.documentId := by
      unfold setDelivery
      split
      next hid =>
        have hdoc := h d List.mem_cons_self (by simpa using (beq_iff_eq.mp hid).symm)
        split
        · exact hdoc.symm
        · split
          · rfl
          · exact hdoc.symm
      · rfl
    rw [hstep, ih, hone]
    intro e he hid
    rw [hone]
    exact h e (List.mem_cons_of_mem d he) (hid.trans (setDelivery_same delivered d r).1)

/-- The identity of a row is kept by the function. -/
def KeepsKey (f : Article → Article) : Prop :=
  ∀ r, (f r).id = r.id ∧ (f r).key = r.key ∧ (f r).accountId = r.accountId

theorem own_map_iff {f : Article → Article} (hf : KeepsKey f) (pid : Text) (r : Article) :
    Own account pid (f r) ↔ Own account pid r := by
  rw [Own, Own, (hf r).2.1, (hf r).2.2]

theorem tables_map {f g : Article → Article} (h : Tables account m) (hf : KeepsKey f) (hg : KeepsKey g) :
    Tables account { m with db := m.db.map f, articles := m.articles.map g } where
  dbIds := by
    intro r hr r' hr' hid
    obtain ⟨x, hx, rfl⟩ := List.mem_map.mp hr
    obtain ⟨x', hx', rfl⟩ := List.mem_map.mp hr'
    rw [h.dbIds x hx x' hx' ((hf x).1.symm.trans (hid.trans (hf x').1))]
  mapIds := by
    intro r hr r' hr' hid
    obtain ⟨x, hx, rfl⟩ := List.mem_map.mp hr
    obtain ⟨x', hx', rfl⟩ := List.mem_map.mp hr'
    rw [h.mapIds x hx x' hx' ((hg x).1.symm.trans (hid.trans (hg x').1))]
  dbKeys := by
    intro pid r hr r' hr' ho ho'
    obtain ⟨x, hx, rfl⟩ := List.mem_map.mp hr
    obtain ⟨x', hx', rfl⟩ := List.mem_map.mp hr'
    rw [h.dbKeys pid x hx x' hx' ((own_map_iff hf pid x).mp ho) ((own_map_iff hf pid x').mp ho')]
  mirrored := by
    intro pid r hr ho
    obtain ⟨x, hx, rfl⟩ := List.mem_map.mp hr
    obtain ⟨x', hx', ho', hid⟩ := h.mirrored pid x hx ((own_map_iff hg pid x).mp ho)
    exact ⟨f x', List.mem_map_of_mem hx', (own_map_iff hf pid x').mpr ho', by rw [(hf x').1, (hg x).1, hid]⟩
  sameKey := by
    intro r hr r' hr' hid
    obtain ⟨x, hx, rfl⟩ := List.mem_map.mp hr
    obtain ⟨x', hx', rfl⟩ := List.mem_map.mp hr'
    rw [(hf x).2.1, (hg x').2.1]
    exact h.sameKey x hx x' hx' ((hf x).1.symm.trans (hid.trans (hg x').1))

theorem both_map {f g : Article → Article} (hf : KeepsKey f) (hg : KeepsKey g) {pid : Text}
    {tells tells' : Text → Option Text → Bool → Prop} (hb : Both account m pid tells)
    (hfr : ∀ r ∈ m.db, Own account pid r → tells r.id r.documentId r.syncedToDevice →
      tells' (f r).id (f r).documentId (f r).syncedToDevice)
    (hgr : ∀ r ∈ m.articles, Own account pid r → tells r.id r.documentId r.syncedToDevice →
      tells' (g r).id (g r).documentId (g r).syncedToDevice) :
    Both account { m with db := m.db.map f, articles := m.articles.map g } pid tells' := by
  obtain ⟨⟨r, hr, ho, hs⟩, r', hr', ho', hs'⟩ := hb
  exact ⟨⟨f r, List.mem_map_of_mem hr, (own_map_iff hf pid r).mpr ho, hfr r hr ho hs⟩,
    g r', List.mem_map_of_mem hr', (own_map_iff hg pid r').mpr ho', hgr r' hr' ho' hs'⟩

/-- What setting the delivery columns comes to: each of the two is set or left. -/
theorem setDeliveryColumns_cases (w : Write) (deliveries : List (Text × Text)) (delivered : Option Int) :
    ∃ f g, (m.setDeliveryColumns w deliveries delivered).1 = { m with db := m.db.map f, articles := m.articles.map g } ∧
      (f = setAll delivered deliveries ∨ f = id) ∧ (g = setAll delivered deliveries ∨ g = id) ∧
      ((m.setDeliveryColumns w deliveries delivered).2 = true →
        f = setAll delivered deliveries ∧ g = setAll delivered deliveries) := by
  unfold Manager.setDeliveryColumns
  rw [setDeliveries_eq_map, setDeliveries_eq_map]
  rcases write_cases (m := m) w (m.db.map (setAll delivered deliveries)) (m.articles.map (setAll delivered deliveries))
    with hw | hw | hw
  · rw [hw]
    exact ⟨_, _, rfl, Or.inl rfl, Or.inl rfl, fun _ => ⟨rfl, rfl⟩⟩
  · rw [hw]
    exact ⟨_, id, by rw [List.map_id], Or.inl rfl, Or.inr rfl, fun h => nomatch h⟩
  · rw [hw]
    exact ⟨id, id, by rw [List.map_id, List.map_id], Or.inr rfl, Or.inr rfl, fun h => nomatch h⟩

theorem keepsKey_of_cases {f : Article → Article} {delivered : Option Int} {deliveries : List (Text × Text)}
    (h : f = setAll delivered deliveries ∨ f = id) : KeepsKey f := by
  rcases h with rfl | rfl
  · exact setAll_same delivered deliveries
  · exact fun r => ⟨rfl, rfl, rfl⟩

/-! ## Recording what was fetched -/

/-- Articles as the provider of the account lists them, with ids that no row has. -/
structure New (account : ProviderAccount) (m : Manager) (articles : List Article) : Prop where
  listed : ∀ a ∈ articles, a.provider = account.provider ∧ a.documentId = none
  fresh : ∀ a ∈ articles, ¬HasId m a.id
  distinct : articles.Pairwise fun a b => a.id ≠ b.id

theorem New.sublist {articles articles' : List Article} (h : New account m articles) (hsub : articles'.Sublist articles) :
    New account m articles' where
  listed := fun a ha => h.listed a (hsub.subset ha)
  fresh := fun a ha => h.fresh a (hsub.subset ha)
  distinct := h.distinct.sublist hsub

theorem New.perm {articles articles' : List Article} (h : New account m articles) (hperm : articles.Perm articles') :
    New account m articles' where
  listed := fun a ha => h.listed a (hperm.mem_iff.mpr ha)
  fresh := fun a ha => h.fresh a (hperm.mem_iff.mpr ha)
  distinct := (hperm.pairwise_iff fun hab => hab.symm).mp h.distinct

theorem recorded_key (m : Manager) (accountId : Text) (keep : Bool) (a : Article) :
    (m.recorded accountId keep a).key = a.key ∧ (m.recorded accountId keep a).accountId = some accountId := by
  unfold Manager.recorded
  dsimp only
  split
  · split
    · exact ⟨rfl, rfl⟩
    · exact ⟨rfl, rfl⟩
  · split
    · exact ⟨rfl, rfl⟩
    · exact ⟨rfl, rfl⟩

/-- An article is recorded as the account's row for it, as a row of no account, or as a new one. -/
theorem recorded_cases (m : Manager) (accountId : Text) (keep : Bool) (a : Article) :
    (∃ prev, m.own accountId a = some prev ∧ (m.recorded accountId keep a).id = prev.id ∧
      (m.recorded accountId keep a).documentId = a.documentId.or prev.documentId) ∨
    (m.own accountId a = none ∧ ∃ prev ∈ m.articles, prev.key = a.key ∧ (m.recorded accountId keep a).id = prev.id) ∨
    (m.own accountId a = none ∧ (m.recorded accountId keep a).id = a.id) := by
  unfold Manager.recorded
  dsimp only
  split
  next prev hown =>
    refine Or.inl ⟨prev, hown, ?_⟩
    split
    · exact ⟨rfl, rfl⟩
    · exact ⟨rfl, rfl⟩
  next hown =>
    refine Or.inr ?_
    split
    next prev horphan =>
      refine Or.inl ⟨hown, prev, ?_⟩
      unfold Manager.orphan at horphan
      have hmem := (List.mem_insertionSort _).mp (List.mem_of_find?_eq_some horphan)
      rw [List.mem_filter, Bool.and_eq_true, beq_iff_eq] at hmem
      exact ⟨hmem.1, hmem.2.1, rfl⟩
    · exact Or.inr ⟨hown, rfl⟩

theorem own_some {accountId : Text} {a prev : Article} (h : m.own accountId a = some prev) :
    prev ∈ m.articles ∧ prev.key = a.key ∧ prev.accountId = some accountId := by
  have hmatch := List.find?_some h
  rw [Bool.and_eq_true, beq_iff_eq, beq_iff_eq] at hmatch
  exact ⟨List.mem_of_find?_eq_some h, hmatch.1, hmatch.2⟩

theorem not_own_of_none {a : Article} (h : m.own account.id a = none) {pid : Text} {r : Article} (hr : r ∈ m.articles)
    (ho : Own account pid r) : r.key ≠ a.key := by
  intro hkey
  have hnone := List.find?_eq_none.mp h r hr
  simp [hkey, ho.1] at hnone

theorem fits_recorded (h : Tables account m) {a : Article} (hfresh : ¬HasId m a.id) (keep : Bool) :
    Fits account m (m.recorded account.id keep a) := by
  obtain ⟨hkey, haccount⟩ := recorded_key m account.id keep a
  rcases recorded_cases m account.id keep a with ⟨prev, hown, hid, -⟩ | ⟨hown, prev, hprev, hprevkey, hid⟩ | ⟨hown, hid⟩
  · obtain ⟨hprev, hprevkey, hprevaccount⟩ := own_some hown
    exact fits_of_map h hprev hid (hkey.trans hprevkey.symm) (haccount.trans hprevaccount.symm)
  · refine ⟨?_, fun pid r hr ho => ⟨fun hrid => ?_, fun hoa => ?_⟩⟩
    · rintro r (hr | hr) hrid
      · rw [h.sameKey r hr prev hprev (hrid.trans hid), hprevkey, hkey]
      · rw [h.mapIds r hr prev hprev (hrid.trans hid), hprevkey, hkey]
    · obtain rfl := h.mapIds r hr prev hprev (hrid.trans hid)
      exact ⟨haccount, (hkey.trans hprevkey.symm).trans ho.2⟩
    · exact absurd (ho.2.trans (hoa.2.symm.trans hkey)) (not_own_of_none hown hr ho)
  · refine ⟨?_, fun pid r hr ho => ⟨fun hrid => ?_, fun hoa => ?_⟩⟩
    · exact fun r hr hrid => absurd ⟨r, hr, hrid.trans hid⟩ hfresh
    · exact absurd ⟨r, Or.inr hr, hrid.trans hid⟩ hfresh
    · exact absurd (ho.2.trans (hoa.2.symm.trans hkey)) (not_own_of_none hown hr ho)

theorem mem_distinctFrom {articles : List Article} {seen : List (ReadLaterProvider × Text)} :
    (distinctFrom seen articles).Sublist articles ∧
      (distinctFrom seen articles).Pairwise (fun a b => a.key ≠ b.key) ∧
      ∀ a ∈ distinctFrom seen articles, a.key ∉ seen := by
  induction articles generalizing seen with
  | nil => exact ⟨List.Sublist.refl _, List.Pairwise.nil, List.forall_mem_nil _⟩
  | cons a articles ih =>
    unfold distinctFrom
    split
    · obtain ⟨hsub, hkeys, hseen⟩ := @ih seen
      exact ⟨hsub.cons a, hkeys, hseen⟩
    next hnew =>
      obtain ⟨hsub, hkeys, hseen⟩ := @ih (a.key :: seen)
      refine ⟨hsub.cons_cons a, List.pairwise_cons.mpr ⟨fun b hb hkey => ?_, hkeys⟩, fun b hb => ?_⟩
      · exact hseen b hb (hkey ▸ List.mem_cons_self)
      · rcases List.mem_cons.mp hb with rfl | hb
        · simpa using hnew
        · exact fun hin => hseen b hb (List.mem_cons_of_mem _ hin)

theorem distinctArticles_sublist (articles : List Article) : (distinctArticles articles).Sublist articles :=
  mem_distinctFrom.1

/-- The recorded articles have different ids and keys. -/
theorem apart_recorded (h : Tables account m) (keep : Bool) {articles : List Article} (hnew : New account m articles)
    (hkeys : articles.Pairwise fun a b => a.key ≠ b.key) : Apart (articles.map (m.recorded account.id keep)) := by
  have hid : ∀ a ∈ articles, (m.recorded account.id keep a).id = a.id ∨
      ∃ prev ∈ m.articles, prev.key = a.key ∧ (m.recorded account.id keep a).id = prev.id := by
    intro a _
    rcases recorded_cases m account.id keep a with ⟨prev, hown, hid, -⟩ | ⟨-, hprev⟩ | ⟨-, hid⟩
    · exact Or.inr ⟨prev, (own_some hown).1, (own_some hown).2.1, hid⟩
    · exact Or.inr hprev
    · exact Or.inl hid
  rw [Apart, List.pairwise_map]
  refine (hnew.distinct.and hkeys).imp_of_mem fun {a b} ha hb hab => ⟨fun hsame => ?_, ?_⟩
  · rcases hid a ha with hida | ⟨prev, hprev, hprevkey, hida⟩
    · rcases hid b hb with hidb | ⟨prev, hprev, -, hidb⟩
      · exact hab.1 (hida.symm.trans (hsame.trans hidb))
      · exact hnew.fresh a ha ⟨prev, Or.inr hprev, hidb.symm.trans (hsame.symm.trans hida)⟩
    · rcases hid b hb with hidb | ⟨prev', hprev', hprevkey', hidb⟩
      · exact hnew.fresh b hb ⟨prev, Or.inr hprev, hida.symm.trans (hsame.trans hidb)⟩
      · have hrows := h.mapIds prev hprev prev' hprev' (hida.symm.trans (hsame.trans hidb))
        exact hab.2 (hprevkey.symm.trans ((congrArg Article.key hrows).trans hprevkey'))
  · rw [(recorded_key m account.id keep a).1, (recorded_key m account.id keep b).1]
    exact hab.2

/-- Recording keeps the document of every provider id that has one. -/
theorem both_recordFetched (h : Tables account m) (w : Write) (keep : Bool) {articles : List Article}
    (hnew : New account m articles) :
    Tables account (m.recordFetched w account.id keep articles).1 ∧
      (∀ pid document, (Both account m pid fun _ doc _ => doc = some document) →
        Both account (m.recordFetched w account.id keep articles).1 pid fun _ doc _ => doc = some document) ∧
      ∀ recorded, (m.recordFetched w account.id keep articles).2 = some recorded →
        (recorded.Pairwise fun a b => a.providerId ≠ b.providerId) ∧ ∀ a ∈ recorded,
          Both account (m.recordFetched w account.id keep articles).1 a.providerId
            fun id doc synced => id = a.id ∧ doc = a.documentId ∧ synced = a.syncedToDevice := by
  have hkeys := (@mem_distinctFrom articles []).2.1
  have hnew := hnew.sublist (distinctArticles_sublist articles)
  generalize hbs : (distinctArticles articles).map (m.recorded account.id keep) = bs
  have hapart : Apart bs := hbs ▸ apart_recorded h keep hnew hkeys
  have hfits : ∀ b ∈ bs, Fits account m b := by
    intro b hb
    rw [← hbs] at hb
    obtain ⟨a, ha, rfl⟩ := List.mem_map.mp hb
    exact fits_recorded h (hnew.fresh a ha) keep
  have hdoc : ∀ pid document, (Both account m pid fun _ doc _ => doc = some document) → ∀ b ∈ bs,
      Own account pid b → b.documentId = some document := by
    rintro pid document ⟨-, r, hr, hro, hrdoc⟩ b hb ho
    rw [← hbs] at hb
    obtain ⟨a, ha, rfl⟩ := List.mem_map.mp hb
    have hkey : r.key = a.key := (hro.2.trans ho.2.symm).trans (recorded_key m account.id keep a).1
    rcases recorded_cases m account.id keep a with ⟨prev, hown, -, hdoc⟩ | ⟨hown, -⟩ | ⟨hown, -⟩
    · obtain ⟨hprev, hprevkey, hprevaccount⟩ := own_some hown
      have hprevown : Own account pid prev := ⟨hprevaccount, hprevkey.trans (hkey.symm.trans hro.2)⟩
      rw [hdoc, (hnew.listed a ha).2, Option.none_or, h.mapKeys hprev hr hprevown hro]
      exact hrdoc
    · exact absurd hkey (not_own_of_none hown hr hro)
    · exact absurd hkey (not_own_of_none hown hr hro)
  have hrun : m.recordFetched w account.id keep articles =
      ((m.write w (bs.foldl writeArticle m.db) (bs.foldl insertArticle m.articles)).1,
        if (m.write w (bs.foldl writeArticle m.db) (bs.foldl insertArticle m.articles)).2 then some bs else none) := by
    rw [← hbs]
    rfl
  rw [hrun]
  rcases write_cases (m := m) w (bs.foldl writeArticle m.db) (bs.foldl insertArticle m.articles) with hw | hw | hw
  · rw [hw]
    have hwrites := writes_both h hfits hapart
    refine ⟨hwrites.tables, fun pid document hb => hwrites.both pid _ hb (hdoc pid document hb), fun recorded hrec => ?_⟩
    cases hrec
    have hown : ∀ b ∈ bs, Own account b.providerId b := by
      intro b hb
      rw [← hbs] at hb
      obtain ⟨a, ha, rfl⟩ := List.mem_map.mp hb
      obtain ⟨hkey, haccount⟩ := recorded_key m account.id keep a
      have hprovider : (m.recorded account.id keep a).provider = account.provider :=
        (congrArg Prod.fst hkey).trans (hnew.listed a ha).1
      exact ⟨haccount, by rw [Article.key, hprovider]⟩
    constructor
    · refine hapart.imp_of_mem fun {a b} ha hb hab hsame => hab.2 ?_
      rw [(hown a ha).2, (hown b hb).2, hsame]
    · exact fun a ha => both_of_written h hfits hapart ha (hown a ha)
  · rw [hw]
    have hwrites := writes_db h hfits hapart
    exact ⟨hwrites.tables, fun pid document hb => hwrites.both pid _ hb (hdoc pid document hb), fun _ hrec => nomatch hrec⟩
  · rw [hw]
    exact ⟨h, fun _ _ hb => hb, fun _ hrec => nomatch hrec⟩

end ReadLaterTables
