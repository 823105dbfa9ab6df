import Mathlib.Data.List.Dedup
import RemarkableServer.SyncViews

/-!
# One path of a full sync

What a full sync plans, does and records for one path depends on that path alone:
the planning and the steps of the other paths leave its entries as they are.
-/
namespace CloudSync

open RustText Integrations CloudPaths Effect

variable {env : Env} {cfg : SyncConfig} {v : View} {P : Text} {A D E : Engine → Prop}
  {B : Option Planned → Engine → Prop} {key : Planned → Bool}

/-! ## Planning -/

theorem View.nodup_paths (v : View) : v.paths.Nodup :=
  (List.perm_insertionSort _ _).nodup_iff.mpr (List.nodup_dedup _)

theorem View.mem_paths {path : Text} : path ∈ v.paths ↔
    path ∈ v.files.keys ∨ path ∈ v.cloud.keys ∨ path ∈ v.base.elim [] (·.keys) := by
  rw [View.paths, sortedSet, (List.perm_insertionSort _ _).mem_iff, List.mem_dedup, List.mem_append, List.mem_append,
    or_assoc]

/-- What a decision comes to. -/
def settle (v : View) (path : Text) (entry : ManifestEntry) : Decision → Sync (Option Planned)
  | .step s => pure (some ⟨path, s, true, some entry⟩)
  | .drop => pure none
  | .keep => do
    remember (v.keptUnder path) entry
    pure none
  | .store e => do
    remember path e
    pure none
  | .deletedHere e => do
    modify fun w => { w with keptRemotely := w.keptRemotely ++ [path] }
    remember path e
    pure none
  | .leaveInPlace => do
    modify fun w => { w with notMoved := w.notMoved ++ [path] }
    remember (v.keptUnder path) entry
    pure none

/-- The file listed at the path. -/
def View.listed (v : View) (path : Text) : Option CloudFile := (v.cloud.lookup path).filter fun f => !f.isFolder

/-- A path in view that the manifest knows. -/
theorem planPath_known {entry : ManifestEntry} (hview : v.outOfView.any (· == P) = false)
    (hvisible : cfg.visible P = some true) (hentry : v.base.bind (·.lookup P) = some entry) :
    planPath env cfg v P = localChanged env (v.files.lookup P) entry.localId >>= fun changedHere =>
      settle v P entry (knownStep cfg v.listedNothing v.localOnly entry changedHere
        (remoteChanged (v.listed P) entry.remote) (v.files.lookup P) (v.listed P)) := by
  unfold planPath isTracked
  rw [hview, hvisible, hentry]
  rfl

/-- A path the manifest does not know. -/
theorem planPath_unknown (hentry : v.base.bind (·.lookup P) = none) :
    planPath env cfg v P = isTracked cfg v P >>= fun tracked =>
      pure ((unknownStep cfg v.localOnly (v.files.lookup P) (v.cloud.lookup P)).map
        fun s => ⟨P, s, tracked, none⟩) := by
  unfold planPath
  rw [hentry]
  congr 1
  funext tracked
  cases tracked <;> rfl

/-- A path out of view. -/
theorem planPath_outOfView (hview : v.outOfView.any (· == P) = true) :
    planPath env cfg v P = planUnknown cfg v P false (v.base.bind (·.lookup P)) := by
  unfold planPath isTracked
  rw [hview]
  rfl

theorem View.mem_paths_of_entry {entry : ManifestEntry} (h : v.base.bind (·.lookup P) = some entry) : P ∈ v.paths := by
  obtain ⟨m, hm, hentry⟩ := Option.bind_eq_some_iff.mp h
  rw [View.mem_paths, hm]
  refine Or.inr (Or.inr (AList.mem_keys.mp (AList.lookup_isSome.mp ?_)))
  rw [hentry]
  rfl

/-- Paths whose plan lets a property be are planned without it. -/
theorem triple_planPaths_other {paths : List Text}
    (hA : ∀ q ∈ paths, Triple A (planPath env cfg v q) (fun r w => A w ∧ ∀ p ∈ r, key p = false) E) :
    Triple A (planPaths env cfg v paths) (fun plan w => A w ∧ plan.filter key = []) E := by
  refine (triple_planPaths hA).mono (fun _ h => h) (fun plan w h => ⟨h.1, ?_⟩) fun _ h => h
  rw [List.filter_eq_nil_iff]
  intro p hp
  rw [h.2 p hp]
  exact Bool.false_ne_true

/-- One path is planned among others that let it be. -/
theorem triple_planPaths_at {paths : List Text} (hmem : P ∈ paths) (hnodup : paths.Nodup)
    (hA : ∀ q ∈ paths, q ≠ P → Triple A (planPath env cfg v q) (fun r w => A w ∧ ∀ p ∈ r, key p = false) E)
    (hB : ∀ r, ∀ q ∈ paths, q ≠ P →
      Triple (B r) (planPath env cfg v q) (fun r' w => B r w ∧ ∀ p ∈ r', key p = false) E)
    (hplan : Triple A (planPath env cfg v P) (fun r w => B r w ∧ ∀ p ∈ r, key p = true) E) :
    Triple A (planPaths env cfg v paths) (fun plan w => ∃ r, B r w ∧ plan.filter key = r.toList) E := by
  induction paths with
  | nil => cases hmem
  | cons q paths ih =>
    obtain ⟨hq, hnodup⟩ := List.nodup_cons.mp hnodup
    have htail : ∀ q' ∈ paths, q' ∈ q :: paths := fun q' hq' => List.mem_cons_of_mem q hq'
    by_cases hqP : q = P
    · subst hqP
      refine Triple.bind hplan fun planned => ?_
      refine Triple.assume fun hplanned => ?_
      refine Triple.bind (triple_planPaths_other fun q' hq' =>
        hB planned q' (htail q' hq') (ne_of_mem_of_not_mem hq' hq)) fun rest => ?_
      refine fun w h => ⟨planned, h.1, ?_⟩
      rw [List.filter_append, h.2, List.append_nil, List.filter_eq_self]
      exact fun p hp => hplanned p (Option.mem_toList.mp hp)
    · refine Triple.bind (hA q List.mem_cons_self hqP) fun planned => ?_
      refine Triple.assume fun hplanned => ?_
      have hmem : P ∈ paths := (List.mem_cons.mp hmem).resolve_left (Ne.symm hqP)
      refine Triple.bind (ih hmem hnodup (fun q' hq' => hA q' (htail q' hq'))
        fun r q' hq' => hB r q' (htail q' hq')) fun rest => ?_
      rintro w ⟨r, hr, hfilter⟩
      refine ⟨r, hr, ?_⟩
      have hnone : planned.toList.filter key = [] := by
        rw [List.filter_eq_nil_iff]
        intro p hp
        rw [hplanned p (Option.mem_toList.mp hp)]
        exact Bool.false_ne_true
      rw [List.filter_append, hnone, List.nil_append, hfilter]

/-! ## Steps -/

/-- What the planning and the steps of a sync do to one path: its plan leads from `A` to `B`, the step
planned for it from `B` to `D`, and the other paths keep these. -/
structure PathSpec (env : Env) (cfg : SyncConfig) (v : View) (P : Text) (key : Planned → Bool)
    (A D E : Engine → Prop) (B : Option Planned → Engine → Prop) : Prop where
  before : ∀ q ∈ v.paths, q ≠ P → Triple A (planPath env cfg v q) (fun r w => A w ∧ ∀ p ∈ r, key p = false) E
  planned : ∀ r, ∀ q ∈ v.paths, q ≠ P →
    Triple (B r) (planPath env cfg v q) (fun r' w => B r w ∧ ∀ p ∈ r', key p = false) E
  plan : Triple A (planPath env cfg v P) (fun r w => B r w ∧ ∀ p ∈ r, key p = true) E
  absent : P ∉ v.paths → ∀ w, A w → B none w
  others : ∀ r run p, cfg.allows p.step = true → key p = false →
    Triple (B r) (executeStep env cfg v run p) (fun _ => B r) E
  after : ∀ run p, cfg.allows p.step = true → key p = false →
    Triple D (executeStep env cfg v run p) (fun _ => D) E
  step : ∀ run p, key p = true → Triple (B (some p)) (executeStep env cfg v run p) (fun _ => D) E
  idle : ∀ w, B none w → D w

/-- The plan, taken in the order of its kinds. -/
def takePlan (env : Env) (cfg : SyncConfig) (v : View) (run : Text) (plan : List Planned) : Sync PUnit :=
  (plan.insertionSort Planned.le).forM (executeStep env cfg v run)

theorem filter_insertionSort {plan : List Planned} {r : Option Planned} (h : plan.filter key = r.toList) :
    (plan.insertionSort Planned.le).filter key = r.toList := by
  have hperm : ((plan.insertionSort Planned.le).filter key).Perm r.toList :=
    h ▸ (List.perm_insertionSort Planned.le plan).filter key
  cases r with
  | none => exact List.perm_nil.mp hperm
  | some p => exact List.perm_singleton.mp hperm

theorem PathSpec.triple_plan (h : PathSpec env cfg v P key A D E B) :
    Triple A (planPaths env cfg v v.paths) (fun plan w => ∃ r, B r w ∧ plan.filter key = r.toList) E := by
  by_cases hP : P ∈ v.paths
  · exact triple_planPaths_at hP v.nodup_paths h.before h.planned h.plan
  · have hA : Triple A (planPaths env cfg v v.paths) (fun plan w => A w ∧ plan.filter key = []) E :=
      triple_planPaths_other fun q hq => h.before q hq (ne_of_mem_of_not_mem hq hP)
    refine hA.mono (fun _ h => h) (fun plan w hw => ⟨none, h.absent hP w hw.1, hw.2⟩) fun _ h => h

theorem PathSpec.triple_takePlan (h : PathSpec env cfg v P key A D E B) (run : Text) {plan : List Planned}
    {r : Option Planned} (hallowed : ∀ p ∈ plan, cfg.allows p.step = true) (hr : plan.filter key = r.toList) :
    Triple (B r) (takePlan env cfg v run plan) (fun _ => D) E := by
  have hsorted := filter_insertionSort hr
  have hmem : ∀ p ∈ plan.insertionSort Planned.le, cfg.allows p.step = true :=
    fun p hp => hallowed p ((List.mem_insertionSort _).mp hp)
  cases r with
  | none =>
    have hkey : ∀ p ∈ plan.insertionSort Planned.le, key p = false := fun p hp =>
      Bool.eq_false_iff.mpr (List.filter_eq_nil_iff.mp hsorted p hp)
    refine (Triple.forM fun p hp => h.after run p (hmem p hp) (hkey p hp)).mono h.idle (fun _ _ h => h) fun _ h => h
  | some a =>
    have ha : key a = true := by
      have hin : a ∈ plan.filter key := hr ▸ List.mem_singleton_self a
      exact (List.mem_filter.mp hin).2
    exact Triple.forM_once hsorted (fun p hp => h.others (some a) run p (hmem p hp))
      (fun p hp => h.after run p (hmem p hp)) (h.step run a ha)

/-- The plan of another path keeps what is recorded for the path. -/
theorem triple_planPath_other {I : Engine → Prop} (hI : Beyond {P}ᶜ I) (hIE : ∀ w, I w → E w)
    (hkept : ∀ q, v.keptUnder q = q) {q : Text} (hq : q ≠ P) :
    Triple I (planPath env cfg v q) (fun r w => I w ∧ ∀ p ∈ r, (p.path == P) = false) E := by
  have hkeeps : Keeps I (planPath env cfg v q) := keeps_planPath hI hq ((hkept q).symm ▸ hq)
  refine (hkeeps.and (planPath_allowed v q)).mono (fun _ h => ⟨h, trivial⟩) (fun r w h => ⟨h.1, fun p hp => ?_⟩)
    fun w h => hIE w h.1
  rw [(h.2 p hp).1]
  exact beq_eq_false_iff_ne.mpr hq

/-- Where no spelling is carried, the other paths keep what does not depend on them. -/
theorem pathSpec_of_loose (hkept : ∀ q, v.keptUnder q = q) (hA : Beyond {P}ᶜ A) (hAE : ∀ w, A w → E w)
    (hB : ∀ r, Loose {P}ᶜ (B r)) (hBE : ∀ r w, B r w → E w) (hD : Loose {P}ᶜ D) (hDE : ∀ w, D w → E w)
    (hplan : Triple A (planPath env cfg v P) B E) (habsent : P ∉ v.paths → ∀ w, A w → B none w)
    (hstep : ∀ run p, p.path = P → Triple (B (some p)) (executeStep env cfg v run p) (fun _ => D) E)
    (hidle : ∀ w, B none w → D w) : PathSpec env cfg v P (fun p => p.path == P) A D E B where
  before := fun q _ hq => triple_planPath_other hA hAE hkept hq
  planned := fun r q _ hq => triple_planPath_other (hB r).beyond (hBE r) hkept hq
  plan := by
    refine (hplan.and (planPath_allowed v P)).mono (fun _ h => ⟨h, trivial⟩) (fun r w h => ⟨h.1, fun p hp => ?_⟩)
      fun w h => h.1
    rw [(h.2 p hp).1]
    exact beq_self_eq_true P
  absent := habsent
  others := by
    intro r run p hp hkey
    have hne : p.path ∈ ({P}ᶜ : Set Text) := beq_eq_false_iff_ne.mp hkey
    exact (keeps_executeStep (hB r).beyond hne ((hkept p.path).symm ▸ hne) ((hB r).keptByStep hne).named hp run).mono
      (fun _ h => h) (fun _ _ h => h) (hBE r)
  after := by
    intro run p hp hkey
    have hne : p.path ∈ ({P}ᶜ : Set Text) := beq_eq_false_iff_ne.mp hkey
    exact (keeps_executeStep hD.beyond hne ((hkept p.path).symm ▸ hne) (hD.keptByStep hne).named hp run).mono
      (fun _ h => h) (fun _ _ h => h) hDE
  step := fun run p hkey => hstep run p (beq_iff_eq.mp hkey)
  idle := hidle

/-- A path for which no step is planned. -/
theorem pathSpec_idle (hkept : ∀ q, v.keptUnder q = q) (hA : Beyond {P}ᶜ A) (hAE : ∀ w, A w → E w)
    (hD : Loose {P}ᶜ D) (hDE : ∀ w, D w → E w)
    (hplan : Triple A (planPath env cfg v P) (fun p w => p = none ∧ D w) E)
    (habsent : P ∉ v.paths → ∀ w, A w → D w) :
    PathSpec env cfg v P (fun p => p.path == P) A D E (fun p w => p = none ∧ D w) := by
  have hB : ∀ r : Option Planned, Loose {P}ᶜ fun w => r = none ∧ D w := fun r =>
    ⟨fun w e t he h => ⟨h.1, hD.event w e t he h.2⟩, fun w w' hs h => ⟨h.1, hD.fields w w' hs h.2⟩⟩
  refine pathSpec_of_loose hkept hA hAE hB (fun _ w h => hDE w h.2) hD hDE hplan ?_ ?_ fun _ h => h.2
  · exact fun hP w h => ⟨rfl, habsent hP w h⟩
  · rintro run p - w ⟨h, -⟩
    cases h

/-! ## The entry of the path -/

/-- Of the log, only the steps of the path matter to the property. -/
def OfSteps (P : Text) (L : Log → Prop) : Prop := ∀ log e, (∀ s, e ≠ .step P s) → L log → L (e :: log)

/-- The log has no step for the path. -/
def NoStep (P : Text) (log : Log) : Prop := ∀ s, .step P s ∉ log

theorem ofSteps_noStep : OfSteps P (NoStep P) := by
  intro log e he h s hs
  rcases List.mem_cons.mp hs with hs | hs
  · exact he s hs.symm
  · exact h s hs

/-- There are no steps before the plan. -/
theorem Untouched.noStep {w w' : Engine} (h : Untouched w w') : NoStep P w'.log :=
  fun _ hs => nomatch h.log _ hs

/-- What the sync has recorded for the path so far. -/
def Recording (P : Text) (X : Log → Option ManifestEntry → Prop) (w : Engine) : Prop :=
  w.state.manifest = none ∧ X w.log (w.manifest.lookup P)

/-- What the sync has recorded for the path in the manifest it leaves. -/
def Stored (P : Text) (X : Log → Option ManifestEntry → Prop) (w : Engine) : Prop :=
  ∃ m, w.state.manifest = some m ∧ X w.log (m.lookup P)

/-- What is in the log when the sync ends, and what it has recorded for the path if it leaves a manifest. -/
def Leaves (P : Text) (X : Log → Option ManifestEntry → Prop) (L : Log → Prop) (w : Engine) : Prop :=
  L w.log ∧ ∀ m, w.state.manifest = some m → X w.log (m.lookup P)

section Entry
variable {X : Log → Option ManifestEntry → Prop} {L : Log → Prop} (hX : ∀ o, OfSteps P (X · o))

theorem loose_of_steps {I : Engine → Prop}
    (hevent : ∀ w e t, (∀ s, e ≠ .step P s) → I w → I { w with log := e :: w.log, tree := t })
    (hfields : ∀ w w', SameBut {P}ᶜ w w' → I w → I w') : Loose {P}ᶜ I where
  event := by
    intro w e t he h
    refine hevent w e t ?_ h
    rintro s rfl
    exact he P s rfl rfl
  fields := hfields

include hX in
theorem loose_recording : Loose {P}ᶜ (Recording P X) := by
  refine loose_of_steps (fun w e t he h => ⟨h.1, hX _ _ _ he h.2⟩) fun w w' hs h => ⟨hs.stored.trans h.1, ?_⟩
  rw [hs.log, hs.manifest P (by simp)]
  exact h.2

include hX in
theorem loose_stored : Loose {P}ᶜ (Stored P X) := by
  refine loose_of_steps (fun w e t he h => ?_) fun w w' hs h => ?_
  · obtain ⟨m, hm, h⟩ := h
    exact ⟨m, hm, hX _ _ _ he h⟩
  · obtain ⟨m, hm, h⟩ := h
    exact ⟨m, hs.stored.trans hm, hs.log ▸ h⟩

theorem Recording.leaves (hXL : ∀ log o, X log o → L log) {w : Engine} (h : Recording P X w) : Leaves P X L w := by
  refine ⟨hXL _ _ h.2, fun m hm => ?_⟩
  rw [h.1] at hm
  cases hm

theorem Stored.leaves (hXL : ∀ log o, X log o → L log) {w : Engine} (h : Stored P X w) : Leaves P X L w := by
  obtain ⟨m, hm, h⟩ := h
  refine ⟨hXL _ _ h, fun m' hm' => ?_⟩
  rw [hm] at hm'
  cases hm'
  exact h

include hX in
/-- The recorded entry is the one in the manifest that is stored. -/
theorem triple_finishState (hXL : ∀ log o, X log o → L log) :
    Triple (Recording P X) (finishState env) (fun _ => Stored P X) (Leaves P X L) := by
  have hR := loose_recording hX
  have hS := loose_stored hX
  unfold finishState
  refine Triple.bind ((keeps_now hR.beyond.stable).mono (fun _ h => h) (fun _ _ h => h) fun _ h => h.leaves hXL)
    fun time => ?_
  refine Triple.bind (R := fun _ => Stored P X) (fun w h => ⟨w.manifest, rfl, h.2⟩) fun _ => ?_
  refine Triple.bind ((keeps_attempt hS.saveManifest).mono (fun _ h => h) (fun _ _ h => h) fun _ h => h.leaves hXL)
    fun r => ?_
  cases r with
  | ok _ => exact fun _ h => h
  | error e => exact (keeps_addError hS.beyond _).mono (fun _ h => h) (fun _ _ h => h) fun _ h => h.leaves hXL

include hX in
/-- A sync leaves of a path what its plan and its step recorded. -/
theorem PathSpec.triple_reconcileView
    (h : PathSpec env cfg v P key A (Recording P X) (Leaves P X L) B) (hXL : ∀ log o, X log o → L log)
    (run : Text) :
    Triple A (reconcileView env cfg v run) (fun _ => Leaves P X L) (Leaves P X L) := by
  have hR := loose_recording hX
  have hS := loose_stored hX
  have hRL : ∀ w, Recording P X w → Leaves P X L w := fun _ h => h.leaves hXL
  unfold reconcileView
  refine Triple.bind ((h.triple_plan.and (planPaths_allowed v v.paths)).mono
    (fun _ h => ⟨h, trivial⟩) (fun _ _ h => h) fun _ h => h.1) fun plan => ?_
  refine Triple.assume fun hallowed => ?_
  refine Triple.bind (R := fun _ => Recording P X) ?_ fun _ => ?_
  · rintro w ⟨r, hB, hr⟩
    exact h.triple_takePlan run hallowed hr w hB
  refine Triple.bind ((keeps_finishQuarantine hR.beyond (hR.pruneQuarantine _ _)).mono
    (fun _ h => h) (fun _ _ h => h) hRL) fun _ => ?_
  refine Triple.bind ((keeps_reportPaths hR.beyond v run).mono (fun _ h => h) (fun _ _ h => h) hRL) fun _ => ?_
  refine Triple.bind (triple_finishState hX hXL) fun _ => ?_
  refine Triple.bind ((keeps_record hS.beyond _).mono (fun _ h => h) (fun _ _ h => h) fun _ h => h.leaves hXL)
    fun _ => ?_
  exact Triple.bind (R := fun _ => Stored P X) (fun _ h => h) fun _ _ h => h.leaves hXL

end Entry

end CloudSync
