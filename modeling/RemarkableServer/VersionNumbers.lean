import RemarkableServer.Lib.Sha256
import RemarkableServer.Lib.Transition
import RemarkableServer.Versions

/-!
# Version numbers

A new version gets the number after the highest stored one. As long as retention
leaves the version with the highest number, every number that was given out is
below the next one; when it deletes that version, its number is given out again.
-/
namespace VersionNumbers

open RustText Versions Transition

variable {env : Env} {refused : List Text → Bool} {m : Manager} {docId : Text} {rows rows' : List Row} {r r' : Row}

/-! ## The highest number -/

theorem mem_ofDoc : r ∈ ofDoc docId rows ↔ r ∈ rows ∧ r.docId = docId := by simp [ofDoc]

theorem version_mem (hr : r ∈ rows) : r.version ∈ versionsOf r.docId rows :=
  List.mem_map_of_mem (mem_ofDoc.mpr ⟨hr, rfl⟩)

theorem le_maxVersion_of_mem {v : Nat} (h : v ∈ versionsOf docId rows) : v ≤ maxVersion docId rows :=
  List.le_max?_getD_of_mem h

theorem maxVersion_mem (h : versionsOf docId rows ≠ []) : maxVersion docId rows ∈ versionsOf docId rows := by
  unfold maxVersion
  cases hmax : (versionsOf docId rows).max? with
  | none => exact absurd (List.max?_eq_none_iff.mp hmax) h
  | some v => exact List.max?_mem hmax

theorem le_maxVersion (hr : r ∈ rows) : r.version ≤ maxVersion r.docId rows := le_maxVersion_of_mem (version_mem hr)

/-- A document that has rows has one with the highest number. -/
theorem exists_newest (hr : r ∈ rows) : ∃ newest ∈ rows, newest.docId = r.docId ∧
    newest.version = maxVersion r.docId rows := by
  have hmax : maxVersion r.docId rows ∈ versionsOf r.docId rows :=
    maxVersion_mem (List.ne_nil_of_mem (version_mem hr))
  obtain ⟨newest, hnewest, hversion⟩ := List.mem_map.mp hmax
  exact ⟨newest, (mem_ofDoc.mp hnewest).1, (mem_ofDoc.mp hnewest).2, hversion⟩

theorem rowAt_some {version : Nat} (h : rowAt docId version rows = some r) : r ∈ rows ∧ r.key = (docId, version) :=
  ⟨List.mem_of_find?_eq_some h, by simpa using List.find?_some h⟩

/-- No two rows have one key. -/
def Unique (rows : List Row) : Prop := rows.Pairwise fun r r' => r.key ≠ r'.key

theorem Unique.eq_of_key (h : Unique rows) (hr : r ∈ rows) (hr' : r' ∈ rows) (hkey : r.key = r'.key) : r = r' := by
  induction rows with
  | nil => exact nomatch hr
  | cons r₀ rows ih =>
    obtain ⟨hne, h⟩ := List.pairwise_cons.mp h
    rcases List.mem_cons.mp hr with rfl | hold
    · rcases List.mem_cons.mp hr' with rfl | hold'
      · rfl
      · exact absurd hkey (hne r' hold')
    · rcases List.mem_cons.mp hr' with rfl | hold'
      · exact absurd hkey.symm (hne r hold)
      · exact ih h hold hold'

theorem Unique.versions_nodup (h : Unique rows) (docId : Text) : (versionsOf docId rows).Nodup := by
  refine List.pairwise_map.mpr ((h.sublist List.filter_sublist).imp_of_mem fun {a b} ha hb hkey hversion => ?_)
  exact hkey (Prod.ext ((mem_ofDoc.mp ha).2.trans (mem_ofDoc.mp hb).2.symm) hversion)

/-! ## Retention -/

/-- Retention keeps the newest version, which was created at `createdAt`. -/
def spares (env : Env) (policy : RetentionPolicy) (createdAt : Text) (now : Int) : Bool :=
  let recent (maxAgeDays : Nat) := (env.subDays now maxAgeDays).all fun cutoff => !decide (createdAt < env.rfc3339 cutoff)
  match policy with
  | .count maxVersions => decide (0 < maxVersions)
  | .timeBased maxAgeDays => recent maxAgeDays
  | .combined maxVersions maxAgeDays => decide (0 < maxVersions) || recent maxAgeDays
  | .unlimited => true

theorem pairwise_newestFirst (docId : Text) (rows : List Row) : (newestFirst docId rows).Pairwise (· ≥ ·) :=
  List.pairwise_insertionSort _ _

theorem mem_newestFirst {v : Nat} : v ∈ newestFirst docId rows ↔ v ∈ versionsOf docId rows := List.mem_insertionSort _

/-- The first of the versions is the one with the highest number, and no other has it. -/
theorem newestFirst_cons (h : Unique rows) (hr : r ∈ rows) :
    ∃ older, newestFirst r.docId rows = maxVersion r.docId rows :: older ∧ maxVersion r.docId rows ∉ older := by
  have hnodup : (newestFirst r.docId rows).Nodup :=
    (List.perm_insertionSort _ _).nodup_iff.mpr (h.versions_nodup r.docId)
  have hmax : maxVersion r.docId rows ∈ newestFirst r.docId rows :=
    mem_newestFirst.mpr (maxVersion_mem (List.ne_nil_of_mem (version_mem hr)))
  have hsorted := pairwise_newestFirst r.docId rows
  cases hlist : newestFirst r.docId rows with
  | nil => simp [hlist] at hmax
  | cons v older =>
    have hv : v ∈ versionsOf r.docId rows := mem_newestFirst.mp (hlist ▸ List.mem_cons_self)
    rw [hlist] at hnodup hmax hsorted
    have hle : maxVersion r.docId rows ≤ v := by
      rcases List.mem_cons.mp hmax with heq | hold
      · exact heq.le
      · exact (List.pairwise_cons.mp hsorted).1 _ hold
    obtain rfl : v = maxVersion r.docId rows := Nat.le_antisymm (le_maxVersion_of_mem hv) hle
    exact ⟨older, rfl, (List.nodup_cons.mp hnodup).1⟩

theorem mem_olderThan {cutoff : Text} {v : Nat} (h : v ∈ olderThan docId cutoff rows) :
    ∃ r ∈ rows, r.docId = docId ∧ r.version = v ∧ r.createdAt < cutoff := by
  obtain ⟨r, hr, hversion⟩ := List.mem_map.mp h
  obtain ⟨hdoc, hold⟩ := List.mem_filter.mp hr
  exact ⟨r, (mem_ofDoc.mp hdoc).1, (mem_ofDoc.mp hdoc).2, hversion, by simpa using hold⟩

/-- A version that is recent enough is not among the older ones. -/
theorem not_mem_olderThan (h : Unique rows) (hr : r ∈ rows) {cutoff : Text} (hrecent : ¬ r.createdAt < cutoff) :
    r.version ∉ olderThan r.docId cutoff rows := by
  intro hin
  obtain ⟨r', hr', hdoc, hversion, hold⟩ := mem_olderThan hin
  obtain rfl := h.eq_of_key hr' hr (Prod.ext hdoc hversion)
  exact hrecent hold

theorem spares_newest (h : Unique rows) (hr : r ∈ rows) (hnewest : r.version = maxVersion r.docId rows)
    {policy : RetentionPolicy} {now : Int} (hspares : spares env policy r.createdAt now = true) {versions : List Nat}
    (hversions : versionsToDelete env policy r.docId now rows = .ok versions) : r.version ∉ versions := by
  obtain ⟨older, hfirst, hnot⟩ := newestFirst_cons h hr
  cases policy with
  | count maxVersions =>
    obtain ⟨n, rfl⟩ := Nat.exists_eq_succ_of_ne_zero (Nat.pos_iff_ne_zero.mp (of_decide_eq_true hspares))
    dsimp only [versionsToDelete] at hversions
    split at hversions
    · cases hversions
      rw [hfirst, List.drop_succ_cons, hnewest]
      exact fun hin => hnot (List.mem_of_mem_drop hin)
    · cases hversions
  | timeBased maxAgeDays =>
    dsimp only [versionsToDelete, spares] at hversions hspares
    cases hcutoff : env.subDays now maxAgeDays with
    | none => simp [hcutoff] at hversions
    | some cutoff =>
      simp only [hcutoff, Option.all_some, Bool.not_eq_true', decide_eq_false_iff_not] at hversions hspares
      cases hversions
      exact not_mem_olderThan h hr hspares
  | combined maxVersions maxAgeDays =>
    dsimp only [versionsToDelete, spares] at hversions hspares
    cases hcutoff : env.subDays now maxAgeDays with
    | none => simp [hcutoff] at hversions
    | some cutoff =>
      simp only [hcutoff, Option.all_some, Bool.or_eq_true, Bool.not_eq_true', decide_eq_true_eq,
        decide_eq_false_iff_not] at hversions hspares
      split at hversions
      · cases hversions
        intro hin
        obtain ⟨hold, hkept⟩ := List.mem_filter.mp hin
        rcases hspares with hpos | hrecent
        · obtain ⟨n, rfl⟩ := Nat.exists_eq_succ_of_ne_zero (Nat.pos_iff_ne_zero.mp hpos)
          simp [hfirst, hnewest] at hkept
        · exact not_mem_olderThan h hr hrecent hold
      · cases hversions
  | unlimited =>
    cases hversions
    exact List.not_mem_nil

/-- Some of the rows are left, and for each there is one of its document with a number at least as high. -/
structure Keeps (rows rows' : List Row) : Prop where
  sublist : rows'.Sublist rows
  covers : ∀ r ∈ rows, ∃ r' ∈ rows', r'.docId = r.docId ∧ r.version ≤ r'.version

theorem Keeps.refl (rows : List Row) : Keeps rows rows := ⟨List.Sublist.refl _, fun r hr => ⟨r, hr, rfl, Nat.le_refl _⟩⟩

theorem Keeps.trans {rows₁ rows₂ rows₃ : List Row} (h : Keeps rows₁ rows₂) (h' : Keeps rows₂ rows₃) :
    Keeps rows₁ rows₃ := by
  refine ⟨h'.sublist.trans h.sublist, fun r hr => ?_⟩
  obtain ⟨r₂, hr₂, hdoc₂, hle₂⟩ := h.covers r hr
  obtain ⟨r₃, hr₃, hdoc₃, hle₃⟩ := h'.covers r₂ hr₂
  exact ⟨r₃, hr₃, hdoc₃.trans hdoc₂, hle₂.trans hle₃⟩

/-- The highest numbers are the same. -/
theorem Keeps.newest (h : Keeps rows rows') (hr : r ∈ rows') (hnewest : r.version = maxVersion r.docId rows') :
    r.version = maxVersion r.docId rows := by
  refine Nat.le_antisymm (le_maxVersion (h.sublist.subset hr)) ?_
  obtain ⟨top, htop, hdoc, hversion⟩ := exists_newest (h.sublist.subset hr)
  obtain ⟨r', hr', hdoc', hle⟩ := h.covers top htop
  have hmax := le_maxVersion hr'
  rw [hdoc', hdoc] at hmax
  omega

/-- The versions whose turn comes before a refused one. -/
def deleted (env : Env) (refused : List Text → Bool) (docId : Text) (versions : List Nat) : List Nat :=
  versions.takeWhile fun version => !refused (env.versionPath docId version)

theorem deleted_subset (versions : List Nat) : deleted env refused docId versions ⊆ versions :=
  (List.takeWhile_sublist _).subset

theorem rows_deleteVersions (versions : List Nat) : (m.deleteVersions env refused docId versions).1.rows =
    m.rows.filter fun r => !(r.docId == docId && (deleted env refused docId versions).contains r.version) := by
  induction versions generalizing m with
  | nil => simp [Manager.deleteVersions, deleted]
  | cons v versions ih =>
    rw [Manager.deleteVersions, Manager.deleteVersionInternal]
    by_cases hrefused : refused (env.versionPath docId v)
    · simp [hrefused, deleted]
    · have hdeleted : deleted env refused docId (v :: versions) = v :: deleted env refused docId versions := by
        simp [deleted, hrefused]
      simp only [hrefused, Bool.false_eq_true, if_false]
      rw [ih, hdeleted, List.filter_filter]
      refine List.filter_congr fun r _ => ?_
      by_cases hdoc : r.docId = docId
      · by_cases hv : r.version = v
        · simp [Row.key, hdoc, hv]
        · simp [Row.key, hdoc, hv]
      · have hne : (r.docId == docId) = false := by simpa using hdoc
        simp [Row.key, hne, hdoc]

/-- Retention that spares the newest version leaves the highest number of every document. -/
theorem keeps_applyRetention (h : Unique m.rows) {now : Int}
    (hspares : ∀ r ∈ m.rows, r.docId = docId → r.version = maxVersion docId m.rows →
      spares env m.config.retention r.createdAt now = true) :
    Keeps m.rows (m.applyRetention env refused docId now).1.rows := by
  unfold Manager.applyRetention
  split
  · exact .refl _
  · split
    case h_1 versions hversions =>
      rw [rows_deleteVersions]
      refine ⟨List.filter_sublist, fun r hr => ?_⟩
      by_cases hdoc : r.docId = docId
      · obtain ⟨top, htop, hdoc', hnewest⟩ := exists_newest hr
        have htopdoc : top.docId = docId := hdoc'.trans hdoc
        subst htopdoc
        rw [hdoc] at hnewest
        have hnot : top.version ∉ deleted env refused top.docId versions := fun hin =>
          spares_newest h htop hnewest (hspares top htop rfl hnewest) hversions (deleted_subset versions hin)
        refine ⟨top, List.mem_filter.mpr ⟨htop, by simpa using hnot⟩, hdoc', ?_⟩
        rw [hnewest, ← hdoc]
        exact le_maxVersion hr
      · exact ⟨r, List.mem_filter.mpr ⟨hr, by simp [hdoc]⟩, rfl, Nat.le_refl _⟩
    · exact .refl _
    · exact .refl _

theorem config_deleteVersions (versions : List Nat) :
    (m.deleteVersions env refused docId versions).1.config = m.config := by
  induction versions generalizing m with
  | nil => rfl
  | cons v versions ih =>
    rw [Manager.deleteVersions, Manager.deleteVersionInternal]
    by_cases hrefused : refused (env.versionPath docId v)
    · simp [hrefused]
    · simp [hrefused, ih]

theorem config_applyRetention (now : Int) : (m.applyRetention env refused docId now).1.config = m.config := by
  unfold Manager.applyRetention
  split
  · rfl
  · split
    · exact config_deleteVersions _
    · rfl
    · rfl

/-- The newest version of every document is spared. -/
def PruneSpares (env : Env) (clock : Text → Int) (m : Manager) : Prop :=
  ∀ r ∈ m.rows, r.version = maxVersion r.docId m.rows → spares env m.config.retention r.createdAt (clock r.docId) = true

theorem keeps_pruneDocs {clock : Text → Int} (docs : List Text) (h : Unique m.rows) (hspares : PruneSpares env clock m) :
    Keeps m.rows (m.pruneDocs env refused clock docs).1.rows := by
  induction docs generalizing m with
  | nil => exact .refl _
  | cons docId docs ih =>
    have hkeeps : Keeps m.rows (m.applyRetention env refused docId (clock docId)).1.rows := by
      refine keeps_applyRetention h fun r hr hdoc hnewest => ?_
      subst hdoc
      exact hspares r hr hnewest
    have hconfig : (m.applyRetention env refused docId (clock docId)).1.config = m.config := config_applyRetention _
    rw [Manager.pruneDocs]
    rcases hkept : m.applyRetention env refused docId (clock docId) with ⟨m', _ | deleted⟩
    · rw [hkept] at hkeeps
      exact hkeeps
    · rw [hkept] at hkeeps hconfig
      refine hkeeps.trans (ih (h.sublist hkeeps.sublist) fun r hr hnewest => ?_)
      rw [hconfig]
      exact hspares r (hkeeps.sublist.subset hr) (hkeeps.newest hr hnewest)

theorem keeps_pruneAll {clock : Text → Int} (h : Unique m.rows) (hspares : PruneSpares env clock m) :
    Keeps m.rows (m.pruneAll env refused clock).1.rows := by
  unfold Manager.pruneAll
  split
  · exact .refl _
  · exact keeps_pruneDocs _ h hspares

/-! ## Creating versions -/

/-- If the content is stored, its number is one more than the highest, and retention spares it. -/
def NewSpared (env : Env) (docId : Text) (content : Bytes) (now later : Int) (m : Manager) : Prop :=
  (m.poisoned || m.unchanged env docId content) = false →
    maxVersion docId m.rows < maxInteger ∧ spares env m.config.retention (env.rfc3339 now) later = true

instance (env : Env) (docId : Text) (content : Bytes) (now later : Int) (m : Manager) :
    Decidable (NewSpared env docId content now later m) :=
  inferInstanceAs (Decidable (_ = false → _ ∧ _ = true))

theorem rows_writeSnapshot {content : Bytes} : (m.writeSnapshot env r content).rows = m.rows := by
  unfold Manager.writeSnapshot
  split <;> rfl

theorem config_writeSnapshot {content : Bytes} : (m.writeSnapshot env r content).config = m.config := by
  unfold Manager.writeSnapshot
  split <;> rfl

theorem nextVersion_eq (h : maxVersion docId rows < maxInteger) : nextVersion docId rows = maxVersion docId rows + 1 :=
  if_pos h

/-- Nothing is stored, and a stored version is reported if any; or the content gets a number of its own. -/
theorem create_cases (refused : List Text → Bool) (h : Unique m.rows) {content : Bytes}
    (deviceId message : Option Text) {now later : Int}
    (hspared : NewSpared env docId content now later m) :
    ((m.createVersion env refused docId content deviceId message now later).1.rows = m.rows ∧
      storedOf env docId content m = [] ∧
      ∀ r, (m.createVersion env refused docId content deviceId message now later).2 = .ok r → r ∈ m.rows) ∨
    ∃ new : Row, new.docId = docId ∧ new.version = maxVersion docId m.rows + 1 ∧
      storedOf env docId content m = [.stored new.docId new.version new.contentHash] ∧
      Keeps (new :: m.rows) (m.createVersion env refused docId content deviceId message now later).1.rows ∧
      ∀ r, (m.createVersion env refused docId content deviceId message now later).2 = .ok r → r = new := by
  unfold Manager.createVersion storedOf
  by_cases hpoisoned : m.poisoned
  · simp [hpoisoned]
  by_cases hunchanged : m.unchanged env docId content
  · refine .inl ?_
    simp only [hpoisoned, hunchanged, Bool.false_eq_true, if_false, if_true, Bool.or_true, true_and]
    intro r hr
    unfold Manager.getVersion at hr
    split at hr
    · exact nomatch hr
    · split at hr
      case h_1 r' hrow =>
        cases hr
        exact (rowAt_some hrow).1
      case h_2 => exact nomatch hr
  · obtain ⟨hmax, hspares⟩ := hspared (by simp [hpoisoned, hunchanged])
    have hnext : nextVersion docId m.rows = maxVersion docId m.rows + 1 := nextVersion_eq hmax
    have hfresh : ∀ r ∈ m.rows, r.key ≠ (docId, nextVersion docId m.rows) := by
      intro r hr hkey
      have hdoc : r.docId = docId := congrArg Prod.fst hkey
      have hversion : r.version = nextVersion docId m.rows := congrArg Prod.snd hkey
      have hle := le_maxVersion hr
      rw [hdoc] at hle
      omega
    generalize hnew : m.newRow env docId content deviceId message now = new
    have hdoc : new.docId = docId := hnew ▸ rfl
    have hversion : new.version = nextVersion docId m.rows := hnew ▸ rfl
    have hhash : new.contentHash = hexEncode (env.sha256 content) := hnew ▸ rfl
    have hcreated : new.createdAt = env.rfc3339 now := hnew ▸ rfl
    have hkey : new.key = (docId, nextVersion docId m.rows) := Prod.ext hdoc hversion
    have hnone : m.rows.any (fun r => r.key == (docId, nextVersion docId m.rows)) = false := by
      simpa using hfresh
    refine .inr ⟨new, hdoc, hversion.trans hnext, ?_⟩
    simp only [hpoisoned, hunchanged, hnone, hkey, rows_writeSnapshot, Bool.false_eq_true, if_false, Bool.or_self,
      hdoc, hversion, hhash, true_and]
    refine ⟨?_, fun r hr => ?_⟩
    · have hunique : Unique (new :: m.rows) :=
        List.pairwise_cons.mpr ⟨fun r hr hsame => hfresh r hr (hsame.symm.trans hkey), h⟩
      have htop : maxVersion docId (new :: m.rows) = nextVersion docId m.rows := by
        obtain ⟨top, htop, htopdoc, htopversion⟩ := exists_newest (List.mem_cons_self (a := new) (l := m.rows))
        have hle := le_maxVersion (List.mem_cons_self (a := new) (l := m.rows))
        rw [hdoc] at htopdoc htopversion hle
        rcases List.mem_cons.mp htop with rfl | hold
        · exact htopversion.symm.trans hversion
        · have hold := le_maxVersion hold
          rw [htopdoc] at hold
          omega
      refine keeps_applyRetention (m := { m.writeSnapshot env new content with rows := new :: m.rows }) hunique ?_
      intro r hr hrdoc hrversion
      obtain rfl : r = new := by
        refine hunique.eq_of_key hr List.mem_cons_self (Prod.ext (hrdoc.trans hdoc.symm) ?_)
        exact hrversion.trans (htop.trans hversion.symm)
      rw [hcreated]
      change spares env (m.writeSnapshot env r content).config.retention _ _ = true
      rw [config_writeSnapshot]
      exact hspares
    · cases hkept : (Manager.applyRetention env refused docId later
          { m.writeSnapshot env new content with rows := new :: m.rows }).2 with
      | error fault => simp [hkept, Except.map] at hr
      | ok deleted =>
        simp only [hkept, Except.map, Except.ok.injEq] at hr
        exact hr.symm

/-! ## Runs -/

/-- A version that is stored after another was reported has a higher number. -/
def Rises (newer older : Event) : Prop :=
  ∀ docId version hash version' hash', newer = .stored docId version hash → older = .reported docId version' hash' →
    version' < version

/-- No number was reported for two content hashes, and numbers rise. -/
structure NeverReused (events : List Event) : Prop where
  oneHash : ∀ docId version hash hash', Event.reported docId version hash ∈ events →
    Event.reported docId version hash' ∈ events → hash = hash'
  rises : events.Pairwise Rises

structure Inv (s : Sys) : Prop where
  unique : Unique s.manager.rows
  rowsStored : ∀ r ∈ s.manager.rows, Event.stored r.docId r.version r.contentHash ∈ s.events
  reportedStored : ∀ docId version hash, Event.reported docId version hash ∈ s.events →
    Event.stored docId version hash ∈ s.events
  storedOnce : ∀ docId version hash hash', Event.stored docId version hash ∈ s.events →
    Event.stored docId version hash' ∈ s.events → hash = hash'
  covered : ∀ docId version hash, Event.stored docId version hash ∈ s.events →
    ∃ r ∈ s.manager.rows, r.docId = docId ∧ version ≤ r.version
  rises : s.events.Pairwise Rises

variable {s s' : Sys}

theorem Inv.neverReused (h : Inv s) : NeverReused s.events where
  oneHash docId version hash hash' hr hr' :=
    h.storedOnce docId version hash hash' (h.reportedStored _ _ _ hr) (h.reportedStored _ _ _ hr')
  rises := h.rises

theorem inv_new (config : VersionConfig) : Inv (.new config) where
  unique := List.Pairwise.nil
  rowsStored := by simp [Sys.new, Manager.new]
  reportedStored := by simp [Sys.new]
  storedOnce := by simp [Sys.new]
  covered := by simp [Sys.new]
  rises := List.Pairwise.nil

/-- Rows are deleted, but for the highest numbers. -/
theorem Inv.of_keeps (h : Inv s) (hkeeps : Keeps s.manager.rows m.rows) : Inv ⟨m, s.events⟩ where
  unique := h.unique.sublist hkeeps.sublist
  rowsStored r hr := h.rowsStored r (hkeeps.sublist.subset hr)
  reportedStored := h.reportedStored
  storedOnce := h.storedOnce
  covered docId version hash hstored := by
    obtain ⟨r, hr, hdoc, hle⟩ := h.covered docId version hash hstored
    obtain ⟨r', hr', hdoc', hle'⟩ := hkeeps.covers r hr
    exact ⟨r', hr', hdoc'.trans hdoc, hle.trans hle'⟩
  rises := h.rises

/-- A stored version is reported. -/
theorem Inv.report (h : Inv s) (hr : Event.stored r.docId r.version r.contentHash ∈ s.events) :
    Inv ⟨s.manager, .reported r.docId r.version r.contentHash :: s.events⟩ where
  unique := h.unique
  rowsStored r hr := List.mem_cons_of_mem _ (h.rowsStored r hr)
  reportedStored docId version hash hin := by
    rcases List.mem_cons.mp hin with heq | hin
    · cases heq
      exact List.mem_cons_of_mem _ hr
    · exact List.mem_cons_of_mem _ (h.reportedStored docId version hash hin)
  storedOnce docId version hash hash' hin hin' := by
    simp only [List.mem_cons, reduceCtorEq, false_or] at hin hin'
    exact h.storedOnce docId version hash hash' hin hin'
  covered docId version hash hin := by
    simp only [List.mem_cons, reduceCtorEq, false_or] at hin
    exact h.covered docId version hash hin
  rises := List.pairwise_cons.mpr ⟨fun _ _ _ _ _ _ _ heq => (nomatch heq), h.rises⟩

/-- A version is stored under a number above the highest. -/
theorem Inv.store (h : Inv s) {new : Row} (hversion : new.version = maxVersion new.docId s.manager.rows + 1) :
    Inv ⟨{ s.manager with rows := new :: s.manager.rows },
      .stored new.docId new.version new.contentHash :: s.events⟩ := by
  have hbelow : ∀ version hash, Event.stored new.docId version hash ∈ s.events → version < new.version := by
    intro version hash hin
    obtain ⟨r, hr, hdoc, hle⟩ := h.covered new.docId version hash hin
    have hmax := le_maxVersion hr
    rw [hdoc] at hmax
    omega
  refine ⟨?_, fun r hr => ?_, fun docId version hash hin => ?_, fun docId version hash hash' hin hin' => ?_,
    fun docId version hash hin => ?_, ?_⟩
  · refine List.pairwise_cons.mpr ⟨fun r hr hkey => ?_, h.unique⟩
    have hdoc : new.docId = r.docId := congrArg Prod.fst hkey
    have hsame : new.version = r.version := congrArg Prod.snd hkey
    have hmax := le_maxVersion hr
    rw [← hdoc] at hmax
    omega
  · rcases List.mem_cons.mp hr with rfl | hr
    · exact List.mem_cons_self
    · exact List.mem_cons_of_mem _ (h.rowsStored r hr)
  · simp only [List.mem_cons, reduceCtorEq, false_or] at hin
    exact List.mem_cons_of_mem _ (h.reportedStored docId version hash hin)
  · rcases List.mem_cons.mp hin with heq | hin
    · rcases List.mem_cons.mp hin' with heq' | hin'
      · cases heq
        cases heq'
        rfl
      · cases heq
        exact absurd (hbelow _ _ hin') (Nat.lt_irrefl _)
    · rcases List.mem_cons.mp hin' with heq' | hin'
      · cases heq'
        exact absurd (hbelow _ _ hin) (Nat.lt_irrefl _)
      · exact h.storedOnce docId version hash hash' hin hin'
  · rcases List.mem_cons.mp hin with heq | hin
    · cases heq
      exact ⟨new, List.mem_cons_self, rfl, Nat.le_refl _⟩
    · obtain ⟨r, hr, hrest⟩ := h.covered docId version hash hin
      exact ⟨r, List.mem_cons_of_mem _ hr, hrest⟩
  · refine List.pairwise_cons.mpr ⟨fun e he docId version hash version' hash' hnew hold => ?_, h.rises⟩
    cases hnew
    subst hold
    exact hbelow version' hash' (h.reportedStored _ _ _ he)

theorem inv_create (h : Inv s) {content : Bytes} {deviceId message : Option Text} {now later : Int}
    (hspared : NewSpared env docId content now later s.manager) :
    Inv ⟨(s.manager.createVersion env refused docId content deviceId message now later).1,
      reportOf (s.manager.createVersion env refused docId content deviceId message now later).2 ++
        storedOf env docId content s.manager ++ s.events⟩ := by
  rcases create_cases refused h.unique deviceId message hspared with
    ⟨hrows, hstored, hreport⟩ | ⟨new, rfl, hversion, hstored, hkeeps, hreport⟩
  · rw [hstored]
    have hkept : Inv ⟨(s.manager.createVersion env refused docId content deviceId message now later).1, s.events⟩ :=
      h.of_keeps (hrows ▸ .refl _)
    cases hresult : (s.manager.createVersion env refused docId content deviceId message now later).2 with
    | error fault => exact hkept
    | ok r => exact hkept.report (h.rowsStored r (hreport r hresult))
  · rw [hstored]
    have hkept : Inv ⟨(s.manager.createVersion env refused new.docId content deviceId message now later).1,
        .stored new.docId new.version new.contentHash :: s.events⟩ := (h.store hversion).of_keeps hkeeps
    cases hresult : (s.manager.createVersion env refused new.docId content deviceId message now later).2 with
    | error fault => exact hkept
    | ok r =>
      obtain rfl := hreport r hresult
      exact hkept.report List.mem_cons_self

/-- What a restored version's content has to meet. -/
def RestoreSpared (env : Env) (docId : Text) (now later : Int) (m : Manager) : Except Fault Bytes → Prop
  | .ok content => NewSpared env docId content now later m
  | .error _ => True

instance (env : Env) (docId : Text) (now later : Int) (m : Manager) :
    (content : Except Fault Bytes) → Decidable (RestoreSpared env docId now later m content)
  | .ok content => inferInstanceAs (Decidable (NewSpared env docId content now later m))
  | .error _ => .isTrue trivial

/-- Wherever retention runs, it spares the version with the highest number, and that number can be counted on. -/
def NewestSpared (env : Env) (s : Sys) : Action → Prop
  | .create _ docId content _ _ now later => NewSpared env docId content now later s.manager
  | .restore _ storage docId version now later =>
    RestoreSpared env docId now later s.manager (s.manager.getVersionContent env storage docId version)
  | .setRetention _ => True
  | .pruneAll _ clock => PruneSpares env clock s.manager

instance (env : Env) (s : Sys) : (a : Action) → Decidable (NewestSpared env s a)
  | .create _ docId content _ _ now later => inferInstanceAs (Decidable (NewSpared env docId content now later s.manager))
  | .restore _ storage docId version now later =>
    inferInstanceAs (Decidable (RestoreSpared env docId now later s.manager
      (s.manager.getVersionContent env storage docId version)))
  | .setRetention _ => .isTrue trivial
  | .pruneAll _ clock => inferInstanceAs (Decidable (∀ r ∈ s.manager.rows, r.version = maxVersion r.docId s.manager.rows →
      spares env s.manager.config.retention r.createdAt (clock r.docId) = true))

theorem inv_restore (h : Inv s) {storage : Text → Option Bytes} {version : Nat} {now later : Int}
    (hspared : RestoreSpared env docId now later s.manager (s.manager.getVersionContent env storage docId version))
    (hstep : step env s (.restore refused storage docId version now later) = some s') : Inv s' := by
  dsimp only [step, Manager.restoreVersion] at hstep
  cases hcontent : s.manager.getVersionContent env storage docId version with
  | error fault =>
    rw [hcontent] at hstep
    cases hstep
    exact h
  | ok content =>
    rw [hcontent] at hstep hspared
    simp only [Except.toOption, Option.toList_some, List.flatMap_cons, List.flatMap_nil, List.append_nil] at hstep
    cases hstep
    exact inv_create h hspared

theorem inv_step {a : Action} (h : Inv s) (hspared : NewestSpared env s a) (hstep : step env s a = some s') :
    Inv s' := by
  cases a with
  | create refused docId content deviceId message now later =>
    cases hstep
    exact inv_create h hspared
  | restore refused storage docId version now later => exact inv_restore h hspared hstep
  | setRetention policy =>
    cases hstep
    exact h.of_keeps (.refl _)
  | pruneAll refused clock =>
    cases hstep
    exact h.of_keeps (keeps_pruneAll h.unique hspared)

/-- In a run in which retention spares the highest numbers, no number is reported for two contents, and every
version that is stored gets a number above those reported before. -/
theorem version_numbers_never_reused (env : Env) (config : VersionConfig) (actions : List Action)
    (hspared : AllGood (step env) (NewestSpared env) (.new config) actions)
    (hrun : run (step env) (.new config) actions = some s) : NeverReused s.events :=
  (invariant_of_allGood (fun _ _ _ h hspared hstep => inv_step h hspared hstep) (inv_new config) hspared hrun).neverReused

def nanos (seconds : Int) : Int := seconds * 1000000000

/-- Times of the first minute of 1970. -/
def firstMinute : Env where
  versionsDir := ["versions".toList]
  sha256 := Sha256.digest
  rfc3339 t :=
    let seconds := (t / nanos 1).toNat
    "1970-01-01T00:00:".toList ++ (if seconds < 10 then ['0'] else []) ++ showU64 seconds ++ "+00:00".toList
  subDays t days := some (t - nanos (days * 86400))

def doc : Text := "doc1".toList

def hashOf (content : Bytes) : Text := hexEncode (Sha256.digest content)

/-- Every snapshot can be removed. -/
def noneRefused (_ : List Text) : Bool := false

/-- Two contents and the first one again, pruned to ten versions. -/
def restoringRun : List Action :=
  [.create noneRefused doc [97] none none (nanos 1) (nanos 1),
   .create noneRefused doc [98] none none (nanos 2) (nanos 2),
   .restore noneRefused (fun _ => none) doc 1 (nanos 3) (nanos 4), .pruneAll noneRefused fun _ => nanos 5]

theorem restored_content_gets_new_number : ∃ s, run (step firstMinute) (.new .default) restoringRun = some s ∧
    s.events = [.reported doc 3 (hashOf [97]), .stored doc 3 (hashOf [97]), .reported doc 2 (hashOf [98]),
      .stored doc 2 (hashOf [98]), .reported doc 1 (hashOf [97]), .stored doc 1 (hashOf [97])] ∧
    NeverReused s.events := by
  have hend : (run (step firstMinute) (.new .default) restoringRun).map (·.events) =
      some [.reported doc 3 (hashOf [97]), .stored doc 3 (hashOf [97]), .reported doc 2 (hashOf [98]),
        .stored doc 2 (hashOf [98]), .reported doc 1 (hashOf [97]), .stored doc 1 (hashOf [97])] := by decide +kernel
  obtain ⟨s, hrun, hs⟩ := Option.map_eq_some_iff.mp hend
  exact ⟨s, hrun, hs, version_numbers_never_reused firstMinute .default restoringRun (by decide +kernel) hrun⟩

/-- Retention keeps no version at all. -/
def keepNothingRun : List Action :=
  [.setRetention (.count 0), .create noneRefused doc [97] none none (nanos 1) (nanos 1),
   .create noneRefused doc [98] none none (nanos 2) (nanos 2)]

theorem number_one_reported_twice : ¬ ∀ config actions s, run (step firstMinute) (.new config) actions = some s →
    NeverReused s.events := by
  intro h
  have hend : (run (step firstMinute) (.new .default) keepNothingRun).map (·.events) =
      some [.reported doc 1 (hashOf [98]), .stored doc 1 (hashOf [98]), .reported doc 1 (hashOf [97]),
        .stored doc 1 (hashOf [97])] := by decide +kernel
  obtain ⟨s, hrun, hs⟩ := Option.map_eq_some_iff.mp hend
  have hone := (h .default keepNothingRun s hrun).oneHash doc 1 (hashOf [98]) (hashOf [97])
  rw [hs] at hone
  exact absurd (hone (by simp) (by simp)) (by decide +kernel)

end VersionNumbers
