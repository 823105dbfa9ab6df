import Mathlib.Data.List.Perm.Subperm
import RemarkableServer.Lib.Rfc3339
import RemarkableServer.VersionNumbers

/-!
# What retention deletes

The versions past the highest ones, those before a cutoff, or those that are both. The
cutoff has to be a time that there is, since the subtraction panics with the database
locked otherwise, and the texts of the times have to compare as the times do. The
snapshots have to be removable, and no version of another document may have its
snapshot under the path of one of them.
-/
namespace VersionRetention

open RustText Versions VersionNumbers Transition Chrono Rfc3339

/-- Times as chrono has them. -/
abbrev chronoEnv (versionsDir : List Text) (sha256 : Bytes → Bytes) : Env :=
  ⟨versionsDir, sha256, toRfc3339, checkedSubDays⟩

variable {versionsDir : List Text} {sha256 : Bytes → Bytes} {env : Env} {refused : List Text → Bool} {m : Manager}
  {docId : Text} {rows : List Row} {r : Row}

/-! ## What is to be deleted -/

/-- The versions of the document that are higher than the row's. -/
def newer (docId : Text) (rows : List Row) (r : Row) : Nat := ((versionsOf docId rows).filter (r.version < ·)).length

def cutoff (now : Int) (maxAgeDays : Nat) : Int := now - days maxAgeDays

/-- The policy does not keep the row, which was created at the time given for it. -/
def outdated (policy : RetentionPolicy) (docId : Text) (rows : List Row) (created : Row → Int) (now : Int) (r : Row) :
    Prop :=
  match policy with
  | .count maxVersions => maxVersions ≤ newer docId rows r
  | .timeBased maxAgeDays => created r < cutoff now maxAgeDays
  | .combined maxVersions maxAgeDays => maxVersions ≤ newer docId rows r ∧ created r < cutoff now maxAgeDays
  | .unlimited => False

instance (docId : Text) (rows : List Row) (created : Row → Int) (now : Int) (r : Row) :
    (policy : RetentionPolicy) → Decidable (outdated policy docId rows created now r)
  | .count maxVersions => inferInstanceAs (Decidable (maxVersions ≤ newer docId rows r))
  | .timeBased maxAgeDays => inferInstanceAs (Decidable (created r < cutoff now maxAgeDays))
  | .combined maxVersions maxAgeDays =>
    inferInstanceAs (Decidable (maxVersions ≤ newer docId rows r ∧ created r < cutoff now maxAgeDays))
  | .unlimited => .isFalse id

/-- The row's snapshot, if it is there. -/
def snapshotOf (env : Env) (m : Manager) (r : Row) : Option Bytes :=
  m.snapshots.lookup (env.versionPath r.docId r.version)

/-- The outdated versions of the document are deleted, to the last, and nothing else; the database stays usable. -/
structure Exact (env : Env) (created : Row → Int) (docId : Text) (now : Int) (m : Manager)
    (after : Manager × Except Fault Nat) : Prop where
  noPanic : after.2 ≠ .error .panicked ∧ after.1.poisoned = false
  finished : after.2 ≠ .error .io
  rows : ∀ r, r ∈ after.1.rows ↔
    r ∈ m.rows ∧ ¬ (r.docId = docId ∧ outdated m.config.retention docId m.rows created now r)
  others : ∀ r ∈ m.rows, r.docId ≠ docId → snapshotOf env after.1 r = snapshotOf env m r

/-- A time the clock can show. -/
def Reading (t : Int) : Prop := 0 ≤ t ∧ InRange t

instance (t : Int) : Decidable (Reading t) := inferInstanceAs (Decidable (_ ∧ _))

/-- Rows as they are stored, with the times at which they were created. -/
structure History (m : Manager) (created : Row → Int) : Prop where
  unique : Unique m.rows
  integers : ∀ r ∈ m.rows, r.version ≤ maxInteger
  times : ∀ r ∈ m.rows, Reading (created r) ∧ r.createdAt = toRfc3339 (created r)

/-- The cutoff is a time, and is comparable with those of the versions that it decides about. -/
def CutoffMet (policy : RetentionPolicy) (docId : Text) (rows : List Row) (created : Row → Int) (now : Int) : Prop :=
  match policy with
  | .timeBased maxAgeDays => InRange (cutoff now maxAgeDays) ∧
      ∀ r ∈ rows, r.docId = docId → Comparable (year (created r)) (year (cutoff now maxAgeDays))
  | .combined maxVersions maxAgeDays => InRange (cutoff now maxAgeDays) ∧
      ∀ r ∈ rows, r.docId = docId → maxVersions ≤ newer docId rows r →
        Comparable (year (created r)) (year (cutoff now maxAgeDays))
  | .count _ | .unlimited => True

instance (docId : Text) (rows : List Row) (created : Row → Int) (now : Int) :
    (policy : RetentionPolicy) → Decidable (CutoffMet policy docId rows created now)
  | .count _ | .unlimited => .isTrue trivial
  | .timeBased maxAgeDays => inferInstanceAs (Decidable (InRange (cutoff now maxAgeDays) ∧
      ∀ r ∈ rows, r.docId = docId → Comparable (year (created r)) (year (cutoff now maxAgeDays))))
  | .combined maxVersions maxAgeDays => inferInstanceAs (Decidable (InRange (cutoff now maxAgeDays) ∧
      ∀ r ∈ rows, r.docId = docId → maxVersions ≤ newer docId rows r →
        Comparable (year (created r)) (year (cutoff now maxAgeDays))))

/-- The snapshots of the outdated versions can be removed, and those that are there are no other document's too. -/
def SnapshotsMet (env : Env) (refused : List Text → Bool) (created : Row → Int) (docId : Text) (now : Int)
    (m : Manager) : Prop :=
  ∀ r ∈ m.rows, r.docId = docId → outdated m.config.retention docId m.rows created now r →
    refused (env.versionPath r.docId r.version) = false ∧
      ∀ other ∈ m.rows, other.docId ≠ docId →
        env.versionPath other.docId other.version = env.versionPath r.docId r.version → snapshotOf env m r = none

instance (env : Env) (refused : List Text → Bool) (created : Row → Int) (docId : Text) (now : Int) (m : Manager) :
    Decidable (SnapshotsMet env refused created docId now m) :=
  inferInstanceAs (Decidable (∀ r ∈ m.rows, r.docId = docId → _ → _ ∧ ∀ other ∈ m.rows, _ → _ → _ = none))

/-! ## The highest versions -/

/-- Past the first `n` of a decreasing list are those with `n` greater ones. -/
theorem mem_drop_iff {l : List Nat} (h : l.Pairwise (· > ·)) (n x : Nat) :
    x ∈ l.drop n ↔ x ∈ l ∧ n ≤ (l.filter (x < ·)).length := by
  induction l generalizing n with
  | nil => simp
  | cons v l ih =>
    obtain ⟨hv, h⟩ := List.pairwise_cons.mp h
    cases n with
    | zero => simp
    | succ n =>
      rw [List.drop_succ_cons, ih h n, List.mem_cons, List.filter_cons]
      constructor
      · rintro ⟨hx, hn⟩
        have hlt := hv x hx
        simp [hx, hlt, hn]
      · rintro ⟨rfl | hx, hn⟩
        · have hnone : l.filter (x < ·) = [] := List.filter_eq_nil_iff.mpr fun y hy => by
            have := hv y hy
            simp only [decide_eq_true_eq]
            omega
          simp [hnone] at hn
        · have hlt := hv x hx
          simp only [hlt, decide_true, if_true, List.length_cons] at hn
          exact ⟨hx, by omega⟩

theorem newestFirst_decreasing (h : Unique rows) (docId : Text) : (newestFirst docId rows).Pairwise (· > ·) := by
  have hnodup : (newestFirst docId rows).Nodup := (List.perm_insertionSort _ _).nodup_iff.mpr (h.versions_nodup docId)
  refine (pairwise_newestFirst docId rows).imp₂ (fun a b hge hne => ?_) hnodup
  omega

theorem newer_eq (docId : Text) (rows : List Row) (r : Row) :
    ((newestFirst docId rows).filter (r.version < ·)).length = newer docId rows r :=
  ((List.perm_insertionSort _ _).filter _).length_eq

theorem mem_drop_newest (h : Unique rows) (hr : r ∈ rows) (n : Nat) :
    r.version ∈ (newestFirst r.docId rows).drop n ↔ n ≤ newer r.docId rows r := by
  rw [mem_drop_iff (newestFirst_decreasing h _), newer_eq]
  exact and_iff_right (mem_newestFirst.mpr (version_mem hr))

theorem mem_take_newest (h : Unique rows) (hr : r ∈ rows) (n : Nat) :
    r.version ∈ (newestFirst r.docId rows).take n ↔ ¬ n ≤ newer r.docId rows r := by
  rw [← mem_drop_newest h hr]
  have hin : r.version ∈ newestFirst r.docId rows := mem_newestFirst.mpr (version_mem hr)
  have hnodup : (newestFirst r.docId rows).Nodup := (newestFirst_decreasing h r.docId).imp fun hgt => by omega
  rw [← List.take_append_drop n (newestFirst r.docId rows)] at hin hnodup
  have hdisjoint := List.disjoint_of_nodup_append hnodup
  constructor
  · exact fun htake hdrop => hdisjoint htake hdrop
  · exact fun hdrop => (List.mem_append.mp hin).resolve_right hdrop

/-- There are no more versions than numbers for them. -/
theorem newer_le (h : Unique rows) (hmax : ∀ r ∈ rows, r.version ≤ maxInteger) (docId : Text) (r : Row) :
    newer docId rows r ≤ maxInteger := by
  have hnodup : ((versionsOf docId rows).filter (r.version < ·)).Nodup := (h.versions_nodup docId).filter _
  have hsubset : (versionsOf docId rows).filter (r.version < ·) ⊆ (List.range maxInteger).map (· + 1) := by
    intro v hv
    obtain ⟨hv, hlt⟩ := List.mem_filter.mp hv
    obtain ⟨r', hr', rfl⟩ := List.mem_map.mp hv
    have hle := hmax r' (mem_ofDoc.mp hr').1
    have hlt := of_decide_eq_true hlt
    exact List.mem_map.mpr ⟨r'.version - 1, List.mem_range.mpr (by omega), by omega⟩
  have hlength := (List.Nodup.subperm hnodup hsubset).length_le
  rwa [List.length_map, List.length_range] at hlength

theorem mem_olderThan_iff (h : Unique rows) (hr : r ∈ rows) (text : Text) :
    r.version ∈ olderThan r.docId text rows ↔ r.createdAt < text := by
  constructor
  · intro hin
    by_contra hrecent
    exact not_mem_olderThan h hr hrecent hin
  · intro hold
    exact List.mem_map.mpr ⟨r, List.mem_filter.mpr ⟨mem_ofDoc.mpr ⟨hr, rfl⟩, decide_eq_true hold⟩, rfl⟩

/-! ## Deleting -/

variable {created : Row → Int} {now : Int}

theorem deleted_eq {versions : List Nat} (h : ∀ v ∈ versions, refused (env.versionPath docId v) = false) :
    deleted env refused docId versions = versions :=
  List.takeWhile_eq_self_iff.mpr fun v hv => by simp [h v hv]

theorem lookup_deleteVersions (versions : List Nat) (path : List Text) :
    (m.deleteVersions env refused docId versions).1.snapshots.lookup path =
      if (deleted env refused docId versions).any (env.versionPath docId · == path) then none
      else m.snapshots.lookup path := by
  induction versions generalizing m with
  | nil => simp [Manager.deleteVersions, deleted]
  | cons v versions ih =>
    rw [Manager.deleteVersions, Manager.deleteVersionInternal]
    by_cases hrefused : refused (env.versionPath docId v)
    · simp [hrefused, deleted]
    · have hdeleted : deleted env refused docId (v :: versions) = v :: deleted env refused docId versions := by
        simp [deleted, hrefused]
      simp only [hrefused, Bool.false_eq_true, if_false]
      rw [ih, hdeleted, List.any_cons]
      by_cases hpath : env.versionPath docId v = path
      · simp [hpath]
      · have hne : (env.versionPath docId v == path) = false := by simpa using hpath
        rw [hne, Bool.false_or, AList.lookup_erase_ne (Ne.symm hpath)]

theorem poisoned_deleteVersions (versions : List Nat) :
    (m.deleteVersions env refused docId versions).1.poisoned = m.poisoned := by
  induction versions generalizing m with
  | nil => rfl
  | cons v versions ih =>
    rw [Manager.deleteVersions, Manager.deleteVersionInternal]
    by_cases hrefused : refused (env.versionPath docId v)
    · simp [hrefused]
    · simp [hrefused, ih]

/-- The deletion ends in an error at the first snapshot that cannot be removed. -/
theorem result_deleteVersions (versions : List Nat) : (m.deleteVersions env refused docId versions).2 =
    if versions.any fun v => refused (env.versionPath docId v) then .error .io else .ok versions.length := by
  induction versions generalizing m with
  | nil => rfl
  | cons v versions ih =>
    rw [Manager.deleteVersions, Manager.deleteVersionInternal]
    by_cases hrefused : refused (env.versionPath docId v)
    · simp [hrefused]
    · simp only [hrefused, Bool.false_eq_true, if_false, ih, List.any_cons, Bool.false_or]
      split
      · rfl
      · simp [Except.map, Nat.add_comm]

theorem mem_versionsToDelete {policy : RetentionPolicy} {versions : List Nat} {v : Nat}
    (h : versionsToDelete env policy docId now rows = .ok versions) (hv : v ∈ versions) :
    v ∈ versionsOf docId rows := by
  have hold : ∀ {text}, v ∈ olderThan docId text rows → v ∈ versionsOf docId rows :=
    fun hin => (List.filter_sublist.map _).subset hin
  unfold versionsToDelete at h
  split at h
  · split at h
    · cases h
      exact mem_newestFirst.mp (List.mem_of_mem_drop hv)
    · cases h
  · split at h
    · cases h
      exact hold hv
    · cases h
  · split at h
    · split at h
      · cases h
        exact hold (List.mem_filter.mp hv).1
      · cases h
    · cases h
  · cases h
    exact nomatch hv

/-- Listed versions are deleted: that is exact if they are the outdated ones and the snapshots meet the condition. -/
theorem exact_delete_iff (hfree : m.poisoned = false) {versions : List Nat}
    (hversions : versionsToDelete env m.config.retention docId now m.rows = .ok versions) :
    Exact env created docId now m (m.applyRetention env refused docId now) ↔
      (∀ r ∈ m.rows, r.docId = docId →
        (r.version ∈ versions ↔ outdated m.config.retention docId m.rows created now r)) ∧
      SnapshotsMet env refused created docId now m := by
  have happly : m.applyRetention env refused docId now = m.deleteVersions env refused docId versions := by
    rw [Manager.applyRetention, if_neg (by simp [hfree]), hversions]
  have hmem : ∀ r, r ∈ (m.deleteVersions env refused docId versions).1.rows ↔
      r ∈ m.rows ∧ ¬ (r.docId = docId ∧ r.version ∈ deleted env refused docId versions) := by
    intro r
    rw [rows_deleteVersions, List.mem_filter]
    simp [imp_iff_not_or]
  rw [happly]
  constructor
  · intro h
    have hnone : ∀ v ∈ versions, refused (env.versionPath docId v) = false := by
      have hfinished := h.finished
      rw [result_deleteVersions] at hfinished
      simpa using hfinished
    rw [deleted_eq hnone] at hmem
    have hsame : ∀ r ∈ m.rows, r.docId = docId →
        (r.version ∈ versions ↔ outdated m.config.retention docId m.rows created now r) := by
      intro r hr hdoc
      have hrows := h.rows r
      rw [hmem] at hrows
      tauto
    refine ⟨hsame, fun r hr hdoc hold => ?_⟩
    have hin : r.version ∈ versions := (hsame r hr hdoc).mpr hold
    refine ⟨hdoc ▸ hnone _ hin, fun other hother hne hpath => ?_⟩
    -- The shared snapshot is gone afterwards, so it was not there before.
    have hkept := h.others other hother hne
    rw [snapshotOf, snapshotOf, hpath, lookup_deleteVersions, deleted_eq hnone, if_pos] at hkept
    · exact hkept.symm
    · exact List.any_eq_true.mpr ⟨r.version, hin, by rw [hdoc, beq_self_eq_true]⟩
  · rintro ⟨hsame, hmet⟩
    have hrow : ∀ v ∈ versions, ∃ r ∈ m.rows, r.docId = docId ∧ r.version = v ∧
        outdated m.config.retention docId m.rows created now r := by
      intro v hv
      obtain ⟨r, hr, rfl⟩ := List.mem_map.mp (mem_versionsToDelete hversions hv)
      obtain ⟨hr, hdoc⟩ := mem_ofDoc.mp hr
      exact ⟨r, hr, hdoc, rfl, (hsame r hr hdoc).mp hv⟩
    have hnone : ∀ v ∈ versions, refused (env.versionPath docId v) = false := by
      intro v hv
      obtain ⟨r, hr, rfl, rfl, hold⟩ := hrow v hv
      exact (hmet r hr rfl hold).1
    have hresult : (m.deleteVersions env refused docId versions).2 = .ok versions.length := by
      rw [result_deleteVersions, if_neg (by simpa using hnone)]
    rw [deleted_eq hnone] at hmem
    refine ⟨⟨by simp [hresult], (poisoned_deleteVersions _).trans hfree⟩, by simp [hresult], fun r => ?_,
      fun other hother hne => ?_⟩
    · rw [hmem]
      have := hsame r
      tauto
    · rw [snapshotOf, lookup_deleteVersions, deleted_eq hnone]
      split
      case isTrue hshared =>
        obtain ⟨v, hv, hpath⟩ := List.any_eq_true.mp hshared
        obtain ⟨r, hr, rfl, rfl, hold⟩ := hrow v hv
        have hpath := eq_of_beq hpath
        have habsent := (hmet r hr rfl hold).2 other hother hne hpath.symm
        rw [snapshotOf, hpath] at habsent
        exact habsent.symm
      case isFalse => rfl

/-- Nothing is outdated and nothing is deleted. -/
theorem exact_of_none (hfree : m.poisoned = false)
    (hfault : versionsToDelete env m.config.retention docId now m.rows = .error .sql)
    (h : ∀ r ∈ m.rows, r.docId = docId → ¬ outdated m.config.retention docId m.rows created now r) :
    Exact env created docId now m (m.applyRetention env refused docId now) := by
  have happly : m.applyRetention env refused docId now = (m, .error .sql) := by
    rw [Manager.applyRetention, if_neg (by simp [hfree]), hfault]
  rw [happly]
  refine ⟨⟨by simp, hfree⟩, by simp, fun r => ?_, fun _ _ _ => rfl⟩
  have := h r
  tauto

theorem not_exact_of_panic (hfree : m.poisoned = false)
    (hfault : versionsToDelete env m.config.retention docId now m.rows = .error .panicked) :
    ¬ Exact env created docId now m (m.applyRetention env refused docId now) := by
  have happly : m.applyRetention env refused docId now = ({ m with poisoned := true }, .error .panicked) := by
    rw [Manager.applyRetention, if_neg (by simp [hfree]), hfault]
  rw [happly]
  exact fun h => h.noPanic.1 rfl

/-! ## The policies -/

variable {maxVersions maxAgeDays : Nat}

/-- The text of the cutoff decides as the cutoff does. -/
theorem textOrder_iff (h : History m created) (hr : r ∈ m.rows) {t : Int} (ht : InRange t) :
    (r.createdAt < toRfc3339 t ↔ created r < t) ↔ Comparable (year (created r)) (year t) := by
  obtain ⟨⟨hnonneg, hrange⟩, htext⟩ := h.times r hr
  rw [htext]
  have hyear := year_of_nonneg hnonneg
  have hlast := hrange.year_le
  have hlast' := ht.year_le
  exact lt_iff_lt_iff_comparable (by omega) (by omega)

theorem subDays_eq (now : Int) (maxAgeDays : Nat) : (chronoEnv versionsDir sha256).subDays now maxAgeDays =
    if InRange (cutoff now maxAgeDays) then some (cutoff now maxAgeDays) else none := rfl

theorem exact_count_iff (h : History m created) (hfree : m.poisoned = false)
    (hpolicy : m.config.retention = .count maxVersions) :
    Exact env created docId now m (m.applyRetention env refused docId now) ↔
      SnapshotsMet env refused created docId now m := by
  by_cases hmax : maxVersions ≤ maxInteger
  · have hversions : versionsToDelete env m.config.retention docId now m.rows =
        .ok ((newestFirst docId m.rows).drop maxVersions) := by
      rw [hpolicy, versionsToDelete, if_pos hmax]
    refine (exact_delete_iff hfree hversions).trans (and_iff_right fun r hr hdoc => ?_)
    subst hdoc
    rw [hpolicy]
    exact mem_drop_newest h.unique hr _
  · have hfault : versionsToDelete env m.config.retention docId now m.rows = .error .sql := by
      rw [hpolicy, versionsToDelete, if_neg hmax]
    have hkept : ∀ r ∈ m.rows, r.docId = docId → ¬ outdated m.config.retention docId m.rows created now r := by
      intro r hr hdoc
      have hfew := newer_le h.unique h.integers docId r
      rw [hpolicy]
      show ¬ maxVersions ≤ newer docId m.rows r
      omega
    exact iff_of_true (exact_of_none hfree hfault hkept) fun r hr hdoc hold => absurd hold (hkept r hr hdoc)

theorem exact_timeBased_iff (h : History m created) (hfree : m.poisoned = false)
    (hpolicy : m.config.retention = .timeBased maxAgeDays) :
    Exact (chronoEnv versionsDir sha256) created docId now m
        (m.applyRetention (chronoEnv versionsDir sha256) refused docId now) ↔
      CutoffMet (.timeBased maxAgeDays) docId m.rows created now ∧
        SnapshotsMet (chronoEnv versionsDir sha256) refused created docId now m := by
  by_cases hrange : InRange (cutoff now maxAgeDays)
  · have hversions : versionsToDelete (chronoEnv versionsDir sha256) m.config.retention docId now m.rows =
        .ok (olderThan docId (toRfc3339 (cutoff now maxAgeDays)) m.rows) := by
      rw [hpolicy, versionsToDelete, subDays_eq, if_pos hrange]
    rw [exact_delete_iff hfree hversions]
    refine and_congr_left' (Iff.trans ?_ (and_iff_right hrange).symm)
    refine forall₃_congr fun r hr hdoc => ?_
    subst hdoc
    rw [mem_olderThan_iff h.unique hr, hpolicy]
    exact textOrder_iff h hr hrange
  · have hfault : versionsToDelete (chronoEnv versionsDir sha256) m.config.retention docId now m.rows =
        .error .panicked := by
      rw [hpolicy, versionsToDelete, subDays_eq, if_neg hrange]
    exact iff_of_false (not_exact_of_panic hfree hfault) fun hmet => hrange hmet.1.1

theorem exact_combined_iff (h : History m created) (hfree : m.poisoned = false)
    (hpolicy : m.config.retention = .combined maxVersions maxAgeDays) :
    Exact (chronoEnv versionsDir sha256) created docId now m
        (m.applyRetention (chronoEnv versionsDir sha256) refused docId now) ↔
      CutoffMet (.combined maxVersions maxAgeDays) docId m.rows created now ∧
        SnapshotsMet (chronoEnv versionsDir sha256) refused created docId now m := by
  by_cases hrange : InRange (cutoff now maxAgeDays)
  · by_cases hmax : maxVersions ≤ maxInteger
    · have hversions : versionsToDelete (chronoEnv versionsDir sha256) m.config.retention docId now m.rows =
          .ok ((olderThan docId (toRfc3339 (cutoff now maxAgeDays)) m.rows).filter fun v =>
            !((newestFirst docId m.rows).take maxVersions).contains v) := by
        rw [hpolicy, versionsToDelete, subDays_eq, if_pos hrange]
        exact if_pos hmax
      rw [exact_delete_iff hfree hversions]
      refine and_congr_left' (Iff.trans ?_ (and_iff_right hrange).symm)
      refine forall₃_congr fun r hr hdoc => ?_
      subst hdoc
      have htext := textOrder_iff h hr hrange
      have hkept := mem_take_newest h.unique hr maxVersions
      have hold := mem_olderThan_iff h.unique hr (toRfc3339 (cutoff now maxAgeDays))
      rw [List.mem_filter, hold, Bool.not_eq_true', ← Bool.not_eq_true, List.contains_iff_mem, hkept, ← htext, hpolicy,
        outdated]
      tauto
    · have hfault : versionsToDelete (chronoEnv versionsDir sha256) m.config.retention docId now m.rows =
          .error .sql := by
        rw [hpolicy, versionsToDelete, subDays_eq, if_pos hrange]
        exact if_neg hmax
      have hfew : ∀ r, ¬ maxVersions ≤ newer docId m.rows r := by
        intro r
        have := newer_le h.unique h.integers docId r
        omega
      have hkept : ∀ r ∈ m.rows, r.docId = docId → ¬ outdated m.config.retention docId m.rows created now r := by
        intro r _ _
        rw [hpolicy]
        exact fun hold => hfew r hold.1
      refine iff_of_true (exact_of_none hfree hfault hkept) ⟨⟨hrange, fun r _ _ hle => absurd hle (hfew r)⟩, ?_⟩
      exact fun r hr hdoc hold => absurd hold (hkept r hr hdoc)
  · have hfault : versionsToDelete (chronoEnv versionsDir sha256) m.config.retention docId now m.rows =
        .error .panicked := by
      rw [hpolicy, versionsToDelete, subDays_eq, if_neg hrange]
    exact iff_of_false (not_exact_of_panic hfree hfault) fun hmet => hrange hmet.1.1

/-- Retention deletes exactly what the policy says and leaves the database usable, if the cutoff is a time, its text
compares with those of the versions as the times do, and the snapshots are removable and the document's own; and
only then. -/
theorem retention_exact_iff (versionsDir : List Text) (sha256 : Bytes → Bytes) (refused : List Text → Bool)
    {m : Manager} {created : Row → Int} (h : History m created) (hfree : m.poisoned = false) (docId : Text)
    (now : Int) :
    Exact (chronoEnv versionsDir sha256) created docId now m
        (m.applyRetention (chronoEnv versionsDir sha256) refused docId now) ↔
      CutoffMet m.config.retention docId m.rows created now ∧
        SnapshotsMet (chronoEnv versionsDir sha256) refused created docId now m := by
  cases hpolicy : m.config.retention with
  | count maxVersions => exact (exact_count_iff h hfree hpolicy).trans (and_iff_right trivial).symm
  | timeBased maxAgeDays => exact exact_timeBased_iff h hfree hpolicy
  | combined maxVersions maxAgeDays => exact exact_combined_iff h hfree hpolicy
  | unlimited =>
    have hversions : versionsToDelete (chronoEnv versionsDir sha256) m.config.retention docId now m.rows = .ok [] := by
      rw [hpolicy, versionsToDelete]
    refine (exact_delete_iff hfree hversions).trans (and_congr_left' (iff_of_true (fun r _ _ => ?_) trivial))
    rw [hpolicy]
    exact iff_of_false List.not_mem_nil id

/-! ## Histories -/

/-- Rows with numbers that are integers, each created at a time. -/
structure Stored (m : Manager) : Prop where
  unique : Unique m.rows
  integers : ∀ r ∈ m.rows, r.version ≤ maxInteger
  times : ∀ r ∈ m.rows, ∃ t, Reading t ∧ r.createdAt = toRfc3339 t

theorem Stored.history (h : Stored m) : ∃ created, History m created := by
  classical
  choose! created hcreated using h.times
  exact ⟨created, h.unique, h.integers, hcreated⟩

theorem Stored.of_sublist {m' : Manager} (h : Stored m) (hrows : m'.rows.Sublist m.rows) : Stored m' where
  unique := h.unique.sublist hrows
  integers r hr := h.integers r (hrows.subset hr)
  times r hr := h.times r (hrows.subset hr)

theorem sublist_applyRetention (env : Env) (refused : List Text → Bool) (m : Manager) (docId : Text) (now : Int) :
    (m.applyRetention env refused docId now).1.rows.Sublist m.rows := by
  unfold Manager.applyRetention
  split
  · exact List.Sublist.refl _
  · split
    · rw [rows_deleteVersions]
      exact List.filter_sublist
    · exact List.Sublist.refl _
    · exact List.Sublist.refl _

theorem sublist_pruneDocs (env : Env) (refused : List Text → Bool) (clock : Text → Int) (m : Manager)
    (docs : List Text) :
    (m.pruneDocs env refused clock docs).1.rows.Sublist m.rows := by
  induction docs generalizing m with
  | nil => exact List.Sublist.refl _
  | cons docId docs ih =>
    have hfirst := sublist_applyRetention env refused m docId (clock docId)
    rw [Manager.pruneDocs]
    rcases hkept : m.applyRetention env refused docId (clock docId) with ⟨m', _ | deleted⟩
    · rw [hkept] at hfirst
      exact hfirst
    · rw [hkept] at hfirst
      exact (ih m').trans hfirst

theorem nextVersion_le (docId : Text) (rows : List Row) : nextVersion docId rows ≤ maxInteger := by
  unfold nextVersion
  dsimp only
  split
  · assumption
  · decide

theorem Stored.create (h : Stored m) {content : Bytes} {deviceId message : Option Text} {now later : Int}
    (hnow : Reading now) :
    Stored (m.createVersion (chronoEnv versionsDir sha256) refused docId content deviceId message now later).1 := by
  unfold Manager.createVersion
  split
  · exact h
  split
  · exact h
  dsimp only
  split
  · refine h.of_sublist ?_
    rw [rows_writeSnapshot]
  case isFalse hfresh =>
    refine Stored.of_sublist ?_ (sublist_applyRetention _ _ _ _ _)
    rw [rows_writeSnapshot] at hfresh ⊢
    refine ⟨List.pairwise_cons.mpr ⟨fun r hr heq => hfresh ?_, h.unique⟩, fun r hr => ?_, fun r hr => ?_⟩
    · exact List.any_eq_true.mpr ⟨r, hr, beq_iff_eq.mpr heq.symm⟩
    · rcases List.mem_cons.mp hr with rfl | hold
      · exact nextVersion_le _ _
      · exact h.integers r hold
    · rcases List.mem_cons.mp hr with rfl | hold
      · exact ⟨now, hnow, rfl⟩
      · exact h.times r hold

/-- The times that an action stores are shown by the clock. -/
def ReadsClock : Action → Prop
  | .create _ _ _ _ _ now _ | .restore _ _ _ _ now _ => Reading now
  | .setRetention _ | .pruneAll _ _ => True

theorem Stored.step {s s' : Sys} {a : Action} (h : Stored s.manager) (ha : ReadsClock a)
    (hstep : Versions.step (chronoEnv versionsDir sha256) s a = some s') : Stored s'.manager := by
  cases a with
  | create refused docId content deviceId message now later =>
    cases hstep
    exact h.create ha
  | restore refused storage docId version now later =>
    cases hstep
    show Stored (Manager.restoreVersion _ refused storage docId version now later _).1
    unfold Manager.restoreVersion
    split
    · exact h
    · exact h.create ha
  | setRetention policy =>
    cases hstep
    exact ⟨h.unique, h.integers, h.times⟩
  | pruneAll refused clock =>
    cases hstep
    refine h.of_sublist ?_
    unfold Manager.pruneAll
    split
    · exact List.Sublist.refl _
    · exact sublist_pruneDocs _ _ _ _ _

/-- What a run has stored is a history. -/
theorem history_of_run {config : VersionConfig} {actions : List Action} {s : Sys}
    (hclock : ∀ a ∈ actions, ReadsClock a)
    (hrun : run (Versions.step (chronoEnv versionsDir sha256)) (.new config) actions = some s) :
    ∃ created, History s.manager created := by
  have hnew : Stored (Sys.new config).manager := ⟨.nil, fun _ hr => (nomatch hr), fun _ hr => nomatch hr⟩
  have hstep : ∀ s a s', Stored s.manager → ReadsClock a →
      step (chronoEnv versionsDir sha256) s a = some s' → Stored s'.manager :=
    fun s a s' h ha hstep => h.step ha hstep
  exact (invariant_of_allGood hstep hnew (allGood_of_forall hclock) hrun).history

/-! ## A cutoff in time, and one before it -/

/-- 1 January 2026. -/
def newYear : Int := days 20454

def versionOf (docId : Text) (version : Nat) (at_ : Int) : Row :=
  ⟨docId, version, [], toRfc3339 at_, none, 0, none, true⟩

def otherDoc : Text := "doc2".toList

def dir : List Text := ["versions".toList]

abbrev realEnv : Env := chronoEnv dir Sha256.digest

/-- A version of the day before, one that is a hundred days older, and one as old of another document. -/
def threeVersions (other : Text) (policy : RetentionPolicy) : Manager :=
  { Manager.new ⟨policy, true⟩ with
    rows := [versionOf doc 2 (newYear - days 1), versionOf doc 1 (newYear - days 101),
      versionOf other 1 (newYear - days 101)]
    snapshots := ((AList.singleton (realEnv.versionPath doc 2) [98]).insert (realEnv.versionPath doc 1) [97]).insert
      (realEnv.versionPath other 1) [99] }

def createdOf (r : Row) : Int := if r.version = 2 then newYear - days 1 else newYear - days 101

theorem threeVersions_history (policy : RetentionPolicy) : History (threeVersions otherDoc policy) createdOf where
  unique := by
    have hkeys : ((threeVersions otherDoc policy).rows.map Row.key).Nodup := by
      show [(doc, 2), (doc, 1), (otherDoc, 1)].Nodup
      decide
    exact List.pairwise_map.mp hkeys
  integers := by
    have hversions : ∀ v ∈ (threeVersions otherDoc policy).rows.map (·.version), v ≤ maxInteger := by
      show ∀ v ∈ [2, 1, 1], v ≤ maxInteger
      decide
    exact fun r hr => hversions _ (List.mem_map_of_mem hr)
  times := by
    intro r hr
    rcases List.mem_cons.mp hr with rfl | hr
    · exact ⟨by decide, rfl⟩
    rcases List.mem_pair.mp hr with rfl | rfl
    · exact ⟨by decide, rfl⟩
    · exact ⟨by decide, rfl⟩

theorem combined_policy_is_exact : Exact realEnv createdOf doc newYear (threeVersions otherDoc (.combined 1 30))
    ((threeVersions otherDoc (.combined 1 30)).applyRetention realEnv noneRefused doc newYear) :=
  (retention_exact_iff dir Sha256.digest noneRefused (threeVersions_history _) rfl doc newYear).mpr (by decide)

/-- The id of the other document leads to the same directory. -/
example : ¬ SnapshotsMet realEnv noneRefused createdOf doc newYear (threeVersions "./doc1".toList (.count 1)) := by
  decide

/-- All the days that there can be are more than there are before the clock. -/
theorem largest_age_panics : ¬ ∀ refused m created docId now, History m created → m.poisoned = false → Reading now →
    Exact realEnv created docId now m (m.applyRetention realEnv refused docId now) := by
  intro h
  have hexact := h noneRefused (threeVersions otherDoc (.timeBased 4294967295)) createdOf doc newYear
    (threeVersions_history _) rfl (by decide)
  exact hexact.noPanic.1 (by decide)

end VersionRetention
