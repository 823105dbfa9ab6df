import RemarkableServer.GcBatches
import RemarkableServer.Lib.Transition

/-!
# The presence check and a concurrent collection

A `check_files` request touches the listed blobs and then tests them one by one,
while a collection plans and deletes batch by batch and any number of uploads
land. Time only moves forward.
-/
namespace CheckFiles

open RustText SyncIndex Store Projection GcBatches Transition

/-- What is left of an upload after its file landed. -/
inductive Upload where
  | catalogue (hash : Text) (size : Nat)
  | forget (hash : Text)
  deriving DecidableEq, Repr

/-- What happened to a blob, for the record. -/
inductive Event where
  | uploaded (hash : Text)
  | deleted (hash : Text)
  | tested (hash : Text) (present : Bool)
  deriving DecidableEq, Repr

inductive Phase where
  | idle
  | planned
  | running (rest : List (List Text))
  | ended
  deriving DecidableEq, Repr

/-- `pending` are the listed hashes not tested yet; the log has the latest event first. -/
structure Sys where
  store : State
  clock : Int
  uploads : List Upload
  plan : Option State.GcPlan
  gc : Phase
  touchedAt : Option Int
  pending : List Text
  log : List Event

/-- A request for `listed` arrives, nothing else has begun. -/
def Sys.start (store : State) (clock : Int) (listed : List Text) : Sys :=
  ⟨store, clock, [], none, .idle, none, listed, []⟩

inductive Action where
  | tick (seconds : Nat)
  | put (hash : Text) (data : Bytes) (modified : Int)
  | next (upload : Upload)
  | touch
  | test
  | plan (graceSecs : Nat)
  | lock
  | batch (unremovable : List Text)
  deriving DecidableEq, Repr

/-- A collection keeps uploads out from its first batch to its end. -/
def Phase.deleting : Phase → Bool
  | .running _ => true
  | _ => false

def step (s : Sys) : Action → Option Sys
  | .tick seconds => some { s with clock := s.clock + seconds }
  | .put hash data modified =>
    if isValidHash hash ∧ ¬ s.gc.deleting then
      some { s with
        store := s.store.writeFile hash data modified
        uploads := .catalogue hash data.length :: s.uploads
        log := .uploaded hash :: s.log }
    else none
  | .next upload =>
    if upload ∈ s.uploads then
      match upload with
      | .catalogue hash size =>
        some { s with
          store := s.store.catalogue hash size s.clock
          uploads := .forget hash :: s.uploads.erase upload }
      | .forget hash => some { s with store := s.store.forgetIndex hash, uploads := s.uploads.erase upload }
    else none
  | .touch =>
    if s.touchedAt = none then
      some { s with store := s.store.touch s.pending s.clock, touchedAt := some s.clock }
    else none
  | .test =>
    match s.touchedAt, s.pending with
    | some _, hash :: rest =>
      some { s with pending := rest, log := .tested hash (s.store.blobExists hash) :: s.log }
    | _, _ => none
  | .plan graceSecs =>
    if s.gc = .idle then
      match s.store.gcPlan graceSecs s.clock with
      | (store, .ok plan) => some { s with store := store, plan := some plan, gc := .planned }
      | (store, .error _) => some { s with store := store, gc := .ended }
    else none
  | .lock =>
    match s.gc, s.plan with
    | .planned, some plan =>
      if plan.rootHash.isEmpty then some { s with gc := .ended }
      else if s.uploads = [] then some { s with gc := .running plan.batches }
      else none
    | _, _ => none
  | .batch unremovable =>
    match s.gc, s.plan with
    | .running [], some _ => some { s with gc := .ended }
    | .running (batch :: rest), some plan =>
      let (store, report) := State.gcBatch plan unremovable s.store (plan.report false) batch
      some { s with
        store := store
        gc := if report.aborted.isSome then .ended else .running rest
        log := report.hashes.map .deleted ++ s.log }
    | _, _ => none

/-- The last thing that happened to the file of `hash` is its deletion. -/
def gone (log : List Event) (hash : Text) : Bool :=
  log.find? (fun e => e = .uploaded hash ∨ e = .deleted hash) = some (.deleted hash)

/-! ## Rows and the touch -/

theorem lookup_touch (s : State) (hashes : List Text) (now : Int) (k : Text) :
    (s.touch hashes now).blobs.lookup k =
      (s.blobs.lookup k).map fun row => if k ∈ hashes then { row with updatedAt := now } else row := by
  have fold : ∀ (hashes : List Text) (t : Table BlobRow), (hashes.foldl (State.touchOne now) t).lookup k =
      (t.lookup k).map fun row => if k ∈ hashes then { row with updatedAt := now } else row := by
    intro hashes
    induction hashes with
    | nil => intro t; simp
    | cons h hashes ih =>
      intro t
      rw [List.foldl_cons, ih, State.touchOne]
      cases hrow : t.lookup h with
      | none =>
        by_cases hk : k = h
        · subst hk
          simp [hrow]
        · simp [hk]
      | some row =>
        by_cases hk : k = h
        · subst hk
          simp [hrow]
        · simp [hk]
  exact fold hashes s.blobs

/-! ## The invariant -/

/-- The collection was planned with a cutoff before the touch. -/
def CutoffBefore (s : Sys) : Prop := ∀ t plan, s.touchedAt = some t → s.plan = some plan → plan.cutoff < t

structure Inv (listed : List Text) (s : Sys) : Prop where
  pending : ∀ h ∈ s.pending, h ∈ listed
  untouched : s.touchedAt = none → s.pending = listed ∧ ∀ h r, .tested h r ∉ s.log
  clock : ∀ t, s.touchedAt = some t → t ≤ s.clock
  idle : s.gc = .idle → s.plan = none
  batches : ∀ rest, s.gc = .running rest → ∃ plan, s.plan = some plan ∧
    ∀ batch ∈ rest, ∀ k ∈ batch, k ∈ plan.candidates
  rows : ∀ t, s.touchedAt = some t → ∀ h ∈ listed, ∀ row, s.store.blobs.lookup h = some row → t ≤ row.updatedAt
  tested : ∀ h r, .tested h r ∈ s.log → h ∈ listed
  promised : CutoffBefore s → ∀ h, .tested h true ∈ s.log → s.store.files.lookup h ≠ none
  gone : ∀ h, gone s.log h = true → s.store.files.lookup h = none
  reported : ∀ pre post h r, s.log = post ++ .tested h r :: pre → CheckFiles.gone pre h = true → r = false

theorem inv_start (store : State) (clock : Int) (listed : List Text) : Inv listed (.start store clock listed) where
  pending := fun _ => id
  untouched := fun _ => ⟨rfl, fun _ _ h => nomatch h⟩
  clock := fun _ h => nomatch h
  idle := fun _ => rfl
  batches := fun _ h => nomatch h
  rows := fun _ h => nomatch h
  tested := fun _ _ h => nomatch h
  promised := fun _ _ h => nomatch h
  gone := fun _ h => nomatch h
  reported := fun pre post _ _ h => by simp [Sys.start] at h

/-- A step that neither touches a file nor belongs to the request: rows only go or get the present
time, and a plan stays. -/
structure Quiet (s s' : Sys) : Prop where
  log : s'.log = s.log
  touchedAt : s'.touchedAt = s.touchedAt
  pending : s'.pending = s.pending
  files : s'.store.files = s.store.files
  clock : s.clock ≤ s'.clock
  rows : ∀ h row, s'.store.blobs.lookup h = some row → s.store.blobs.lookup h = some row ∨ row.updatedAt = s.clock
  plan : ∀ plan, s.plan = some plan → s'.plan = some plan
  idle : s'.gc = .idle → s.gc = .idle ∧ s'.plan = s.plan
  batches : ∀ rest, s'.gc = .running rest → s.gc = .running rest ∨ ∃ plan, s.plan = some plan ∧ rest = plan.batches

theorem inv_quiet {listed : List Text} {s s' : Sys} (h : Inv listed s) (q : Quiet s s') : Inv listed s' where
  pending := by rw [q.pending]; exact h.pending
  untouched := by rw [q.touchedAt, q.pending, q.log]; exact h.untouched
  clock := by
    rw [q.touchedAt]
    exact fun t ht => (h.clock t ht).trans q.clock
  idle := fun hi => by rw [(q.idle hi).2, h.idle (q.idle hi).1]
  batches := by
    intro rest hrest
    rcases q.batches rest hrest with hr | ⟨plan, hp, rfl⟩
    · obtain ⟨plan, hp, hsub⟩ := h.batches rest hr
      exact ⟨plan, q.plan plan hp, hsub⟩
    · exact ⟨plan, q.plan plan hp, fun batch hb => mem_candidates_of_mem_batches hb⟩
  rows := by
    rw [q.touchedAt]
    intro t ht k hk row hrow
    rcases q.rows k row hrow with hrow | hrow
    · exact h.rows t ht k hk row hrow
    · rw [hrow]
      exact h.clock t ht
  tested := by rw [q.log]; exact h.tested
  promised := by
    rw [q.log, q.files]
    intro hcut
    refine h.promised fun t plan ht hp => hcut t plan (by rw [q.touchedAt, ht]) (q.plan plan hp)
  gone := by rw [q.log, q.files]; exact h.gone
  reported := by rw [q.log]; exact h.reported

theorem inv_put {listed : List Text} {s : Sys} (h : Inv listed s) (hash : Text) (data : Bytes) (modified : Int)
    (uploads : List Upload) :
    Inv listed { s with
      store := s.store.writeFile hash data modified
      uploads := uploads
      log := .uploaded hash :: s.log } where
  pending := h.pending
  untouched := fun ht => ⟨(h.untouched ht).1, fun k r hk => by
    simp only [List.mem_cons, reduceCtorEq, false_or] at hk
    exact (h.untouched ht).2 k r hk⟩
  clock := h.clock
  idle := h.idle
  batches := h.batches
  rows := h.rows
  tested := fun k r hk => by
    simp only [List.mem_cons, reduceCtorEq, false_or] at hk
    exact h.tested k r hk
  promised := fun hcut k hk => by
    simp only [List.mem_cons, reduceCtorEq, false_or] at hk
    simp only [State.writeFile, lookup_insert_ite]
    split
    · exact Option.some_ne_none _
    · exact h.promised hcut k hk
  gone := fun k hk => by
    by_cases hkh : hash = k
    · simp [CheckFiles.gone, hkh] at hk
    · rw [State.writeFile, lookup_insert_ite, if_neg (Ne.symm hkh)]
      refine h.gone k ?_
      simpa [CheckFiles.gone, hkh] using hk
  reported := by
    intro pre post k r hlog
    cases post with
    | nil => simp at hlog
    | cons e post => exact h.reported pre post k r (List.cons.inj hlog).2

theorem inv_touch {listed : List Text} {s : Sys} (h : Inv listed s) (ht : s.touchedAt = none) :
    Inv listed { s with store := s.store.touch s.pending s.clock, touchedAt := some s.clock } where
  pending := h.pending
  untouched := fun hn => nomatch hn
  clock := fun t he => by cases he; exact Int.le_refl _
  idle := h.idle
  batches := h.batches
  rows := by
    intro t he k hk row hrow
    cases he
    obtain ⟨hpend, -⟩ := h.untouched ht
    rw [lookup_touch, hpend] at hrow
    obtain ⟨row₀, -, rfl⟩ := Option.map_eq_some_iff.mp hrow
    rw [if_pos hk]
  tested := h.tested
  promised := fun _ k hk => absurd hk ((h.untouched ht).2 k true)
  gone := h.gone
  reported := h.reported

theorem inv_test {listed : List Text} {s : Sys} {hash : Text} {rest : List Text} {t : Int} (h : Inv listed s)
    (ht : s.touchedAt = some t) (hp : s.pending = hash :: rest) :
    Inv listed { s with pending := rest, log := .tested hash (s.store.blobExists hash) :: s.log } where
  pending := fun k hk => h.pending k (by rw [hp]; exact List.mem_cons_of_mem hash hk)
  untouched := fun hn => by rw [ht] at hn; cases hn
  clock := h.clock
  idle := h.idle
  batches := h.batches
  rows := h.rows
  tested := fun k r hk => by
    rcases List.mem_cons.mp hk with he | hk
    · cases he
      exact h.pending _ (by rw [hp]; exact List.mem_cons_self)
    · exact h.tested k r hk
  promised := fun hcut k hk => by
    rcases List.mem_cons.mp hk with he | hk
    · obtain ⟨rfl, hex⟩ : k = hash ∧ true = s.store.blobExists hash := by simpa using he
      rw [State.blobExists, eq_comm, Bool.and_eq_true] at hex
      exact Option.isSome_iff_ne_none.mp hex.2
    · exact h.promised hcut k hk
  gone := fun k hk => h.gone k (by simpa [CheckFiles.gone] using hk)
  reported := by
    intro pre post k r hlog hgone
    cases post with
    | nil =>
      obtain ⟨he, rfl⟩ := List.cons.inj hlog
      obtain ⟨rfl, rfl⟩ : hash = k ∧ s.store.blobExists hash = r := by simpa using he
      simp [State.blobExists, h.gone hash hgone]
    | cons e post => exact h.reported pre post k r (List.cons.inj hlog).2 hgone

theorem tested_mem_deleted {hashes : List Text} {log : List Event} {h : Text} {r : Bool}
    (hmem : .tested h r ∈ hashes.map Event.deleted ++ log) : .tested h r ∈ log := by
  rcases List.mem_append.mp hmem with hd | hl
  · obtain ⟨k, -, he⟩ := List.mem_map.mp hd
    cases he
  · exact hl

theorem gone_deleted {hashes : List Text} {log : List Event} {k : Text} (hk : k ∉ hashes) :
    gone (hashes.map Event.deleted ++ log) k = gone log k := by
  have hnone : (hashes.map Event.deleted).find? (fun e => e = .uploaded k ∨ e = .deleted k) = none := by
    rw [List.find?_eq_none]
    intro e he
    obtain ⟨j, hj, rfl⟩ := List.mem_map.mp he
    simp only [reduceCtorEq, false_or, Event.deleted.injEq, decide_eq_true_eq]
    rintro rfl
    exact hk hj
  rw [gone, gone, List.find?_append, hnone, Option.none_or]

theorem split_deleted {hashes : List Text} {log pre post : List Event} {h : Text} {r : Bool}
    (hlog : hashes.map Event.deleted ++ log = post ++ .tested h r :: pre) :
    ∃ post', log = post' ++ .tested h r :: pre := by
  induction hashes generalizing post with
  | nil => exact ⟨post, hlog⟩
  | cons k hashes ih =>
    cases post with
    | nil => simp at hlog
    | cons e post => exact ih (List.cons.inj hlog).2

theorem inv_batch {listed : List Text} {s : Sys} {plan : State.GcPlan} {p : State × State.GcReport} {gc : Phase}
    (h : Inv listed s) (hplan : s.plan = some plan) (hrem : Removes plan.candidates plan.cutoff s.store p)
    (hidle : gc ≠ .idle) (hgc : ∀ rest, gc = .running rest → ∀ batch ∈ rest, ∀ k ∈ batch, k ∈ plan.candidates) :
    Inv listed { s with store := p.1, gc := gc, log := p.2.hashes.map .deleted ++ s.log } where
  pending := h.pending
  untouched := fun ht => ⟨(h.untouched ht).1, fun k r hk => (h.untouched ht).2 k r (tested_mem_deleted hk)⟩
  clock := h.clock
  idle := fun hi => absurd hi hidle
  batches := fun rest hr => ⟨plan, hplan, hgc rest hr⟩
  rows := fun t ht k hk row hrow => h.rows t ht k hk row (hrem.rows k row hrow)
  tested := fun k r hk => h.tested k r (tested_mem_deleted hk)
  promised := by
    intro hcut k hk
    have hk := tested_mem_deleted hk
    obtain ⟨t, ht⟩ : ∃ t, s.touchedAt = some t := by
      cases ht : s.touchedAt with
      | none => exact absurd hk ((h.untouched ht).2 k true)
      | some t => exact ⟨t, rfl⟩
    have hspared : k ∉ p.2.hashes := by
      intro hmem
      obtain ⟨row, hrow, hold⟩ := hrem.old k hmem
      have hnew := h.rows t ht k (h.tested k true hk) row hrow
      have := hcut t plan ht hplan
      omega
    rw [hrem.kept k hspared]
    exact h.promised hcut k hk
  gone := by
    intro k hk
    by_cases hmem : k ∈ p.2.hashes
    · exact hrem.gone k hmem
    · rw [hrem.kept k hmem]
      exact h.gone k (gone_deleted hmem ▸ hk)
  reported := by
    intro pre post k r hlog
    obtain ⟨post', hlog⟩ := split_deleted hlog
    exact h.reported pre post' k r hlog

theorem inv_step (listed : List Text) (s : Sys) (a : Action) (s' : Sys) (h : Inv listed s)
    (hstep : step s a = some s') : Inv listed s' := by
  cases a with
  | tick seconds =>
    cases hstep
    exact inv_quiet h ⟨rfl, rfl, rfl, rfl, Int.le_add_of_nonneg_right (Int.natCast_nonneg _), fun _ _ => .inl, fun _ => id, fun hi => ⟨hi, rfl⟩, fun _ => .inl⟩
  | put hash data modified =>
    simp only [step] at hstep
    split_ifs at hstep
    cases hstep
    exact inv_put h hash data modified _
  | next upload =>
    simp only [step] at hstep
    split_ifs at hstep
    cases upload with
    | catalogue hash size =>
      cases hstep
      refine inv_quiet h ⟨rfl, rfl, rfl, rfl, Int.le_refl _, fun k row hrow => ?_, fun _ => id, fun hi => ⟨hi, rfl⟩, fun _ => .inl⟩
      simp only [State.catalogue, lookup_insert_ite] at hrow
      split at hrow
      · cases hrow
        exact .inr rfl
      · exact .inl hrow
    | forget hash =>
      cases hstep
      exact inv_quiet h ⟨rfl, rfl, rfl, rfl, Int.le_refl _, fun _ _ => .inl, fun _ => id, fun hi => ⟨hi, rfl⟩, fun _ => .inl⟩
  | touch =>
    simp only [step] at hstep
    split_ifs at hstep with ht
    cases hstep
    exact inv_touch h ht
  | test =>
    simp only [step] at hstep
    split at hstep
    next ht hp =>
      cases hstep
      exact inv_test h ht hp
    next => cases hstep
  | plan graceSecs =>
    simp only [step] at hstep
    split_ifs at hstep with hidle
    have hrep := gcPlan_reparsed s.store graceSecs s.clock
    have hnone : ∀ {q : Option State.GcPlan} (plan : State.GcPlan), s.plan = some plan → q = some plan :=
      fun plan hp => by rw [h.idle hidle] at hp; cases hp
    split at hstep <;> cases hstep
    next store plan hp =>
      rw [hp] at hrep
      exact inv_quiet h ⟨rfl, rfl, rfl, hrep.files, Int.le_refl _, fun k row hr => .inl (hrep.blobs ▸ hr), hnone,
        fun hi => (nomatch hi), fun _ hr => nomatch hr⟩
    next store e hp =>
      rw [hp] at hrep
      exact inv_quiet h ⟨rfl, rfl, rfl, hrep.files, Int.le_refl _, fun k row hr => .inl (hrep.blobs ▸ hr), hnone,
        fun hi => (nomatch hi), fun _ hr => nomatch hr⟩
  | lock =>
    simp only [step] at hstep
    split at hstep
    next plan hgc hplan =>
      split_ifs at hstep <;> cases hstep
      · exact inv_quiet h ⟨rfl, rfl, rfl, rfl, Int.le_refl _, fun _ _ => .inl, fun _ => id,
          fun hi => (nomatch hi), fun _ hr => nomatch hr⟩
      · exact inv_quiet h ⟨rfl, rfl, rfl, rfl, Int.le_refl _, fun _ _ => .inl, fun _ => id,
          fun hi => (nomatch hi), fun _ hr => .inr ⟨plan, hplan, (Phase.running.inj hr).symm⟩⟩
    next => cases hstep
  | batch unremovable =>
    simp only [step] at hstep
    split at hstep
    · cases hstep
      exact inv_quiet h ⟨rfl, rfl, rfl, rfl, Int.le_refl _, fun _ _ => .inl, fun _ => id,
          fun hi => (nomatch hi), fun _ hr => nomatch hr⟩
    next batch rest plan hgc hplan =>
      cases hstep
      obtain ⟨plan', hplan', hsub⟩ := h.batches _ hgc
      obtain rfl : plan = plan' := Option.some.inj (hplan.symm.trans hplan')
      have hrem := removes_gcBatch unremovable (removes_start plan.candidates plan.cutoff s.store (plan.report false) rfl)
        (hsub batch List.mem_cons_self)
      refine inv_batch h hplan hrem (by split <;> simp) fun rest' hr => ?_
      split_ifs at hr
      cases hr
      exact fun b hb => hsub b (List.mem_cons_of_mem batch hb)
    next => cases hstep

/-- In every interleaving of a presence check, a collection and uploads: a listed blob found present
is stored from then on, through the end of a collection whose cutoff lies before the touch; and a
listed blob whose file the collection deleted, with no upload since, is reported missing. -/
theorem check_files_sound (store : State) (clock : Int) (listed : List Text) (as : List Action) (s : Sys)
    (hrun : run step (.start store clock listed) as = some s) :
    ((∀ t plan, s.touchedAt = some t → s.plan = some plan → plan.cutoff < t) →
      ∀ h, .tested h true ∈ s.log → s.store.files.lookup h ≠ none) ∧
    ∀ pre post h r, s.log = post ++ .tested h r :: pre → gone pre h = true → r = false :=
  have h := invariant_of_step (inv_step listed) (inv_start store clock listed) hrun
  ⟨h.promised, h.reported⟩

/-! ## A concrete run -/

/-- An empty root index and a blob outside the tree, both stored at time 0. -/
def orphanStore : State :=
  let s := ((State.new ∅ none []).writeFile (hashOf 'b') [1] 0).catalogue (hashOf 'b') 1 0
  ((s.writeFile (hashOf 'a') (leafIndex []) 0).setRootIf (hashOf 'a') none).1

/-- The plan lists the blob; the request touches and tests it before the batch comes to it. -/
def touchedAfterPlan : List Action := [.plan 0, .tick 1, .touch, .test, .lock, .batch [], .batch []]

theorem promised_blob_survives : ∃ s, run step (.start orphanStore 10 [hashOf 'b']) touchedAfterPlan = some s ∧
    s.gc = .ended ∧ (∃ plan, s.plan = some plan ∧ hashOf 'b' ∈ plan.candidates) ∧
      .tested (hashOf 'b') true ∈ s.log ∧ s.store.files.lookup (hashOf 'b') ≠ none := by
  obtain ⟨s, hs⟩ := Option.isSome_iff_exists.mp
    (show (run step (.start orphanStore 10 [hashOf 'b']) touchedAfterPlan).isSome = true by decide +kernel)
  have hgc : ((run step (.start orphanStore 10 [hashOf 'b']) touchedAfterPlan).map fun s => (s.gc, s.touchedAt)) =
      some (.ended, some 11) := by
    decide +kernel
  have hplan : ((run step (.start orphanStore 10 [hashOf 'b']) touchedAfterPlan).map fun s =>
      s.plan.map fun p => (p.cutoff, p.candidates)) = some (some (10, [hashOf 'b'])) := by
    decide +kernel
  have hlog : ((run step (.start orphanStore 10 [hashOf 'b']) touchedAfterPlan).map Sys.log) =
      some [.tested (hashOf 'b') true] := by
    decide +kernel
  rw [hs] at hgc hplan hlog
  obtain ⟨hgc, htouch⟩ := Prod.mk.inj (Option.some.inj hgc)
  obtain ⟨plan, hplan, hp⟩ := Option.map_eq_some_iff.mp (Option.some.inj hplan)
  obtain ⟨hc, hcand⟩ := Prod.mk.inj hp
  have hmem : .tested (hashOf 'b') true ∈ s.log := by rw [Option.some.inj hlog]; exact List.mem_singleton_self _
  refine ⟨s, hs, hgc, ⟨plan, hplan, by rw [hcand]; exact List.mem_singleton_self _⟩, hmem, ?_⟩
  refine (check_files_sound orphanStore 10 [hashOf 'b'] touchedAfterPlan s hs).1 ?_ (hashOf 'b') hmem
  intro t plan' ht hp
  rw [htouch] at ht
  rw [hplan] at hp
  cases ht
  cases hp
  omega

end CheckFiles
