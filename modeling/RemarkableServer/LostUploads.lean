import RemarkableServer.DeletionSafety

/-!
# An upload whose reply was lost

An upload that failed may still have been stored. The manifest entry keeps what it
was sending, so that the next sync knows the remote change for its own. The entry
is asked only where the local file is gone. A deletion or a new edit wins over the
old upload: nothing is written at the path.
-/
namespace LostUploads

open RustText Integrations CloudPaths CloudSync Effect FileTree
open DeletionSafety (Run)

/-- A path at a sync: its manifest entry, the local and the remote file, and the content the last upload
was sending. -/
structure Situation where
  path : Text
  parts : List Text
  entry : ManifestEntry
  here : Option DiskFile
  there : CloudFile
  content : Bytes

/-- The remote file has what the failed upload was sending, from before the local file's latest change, and
the local file has something else or is gone. -/
structure LostReply (sha256 : Bytes → Bytes) (s : Situation) : Prop where
  path : s.path = pathText s.parts
  components : cloudPathComponents s.path = .ok s.parts
  listable : CloudPaths.listable s.parts = true
  free : isReserved s.path = false
  remote : s.entry.remote.isSome = true
  localId : s.entry.localId.isSome = true
  sent : ∃ time, s.entry.sent = some ⟨s.content.length, time, some (hexEncode (sha256 s.content))⟩
  listedAt : s.there.path = s.path
  file : s.there.isFolder = false
  changed : remoteChanged (some s.there) s.entry.remote = true
  older : ∀ f ∈ s.here, s.there.modifiedAt < (LocalFile.of s.parts f).mtime
  other : ∀ f ∈ s.here, f.bytes ≠ s.content

/-- Nothing about the path changed remotely: no file is listed there, or the one the manifest knows. -/
def Unchanged (cfg : SyncConfig) (v : View) (q : Text) : Prop :=
  v.cloud.lookup q = none ∨ v.files.lookup q = none ∧ v.listed q = none ∨
    v.outOfView.any (· == q) = false ∧ cfg.visible q = some true ∧
      ∃ e, v.base.bind (·.lookup q) = some e ∧ remoteChanged (v.listed q) e.remote = false

/-- What the planning sees is the situation, and no other remote change. -/
structure Shows (cfg : SyncConfig) (s : Situation) (v : View) : Prop where
  inView : v.outOfView.any (· == s.path) = false
  entry : v.base.bind (·.lookup s.path) = some s.entry
  here : v.files.lookup s.path = s.here.map (LocalFile.of s.parts)
  there : v.cloud.lookup s.path = some s.there
  others : ∀ q, q ≠ s.path → Unchanged cfg v q

/-- A bidirectional sync under `newerWins` that deals with the path by its manifest entry and meets the
situation. -/
structure Meets (sha256 : Bytes → Bytes) (s : Situation) (r : Run) : Prop where
  direction : r.cfg.direction = .bidirectional
  strategy : r.cfg.conflictStrategy = .newerWins
  hashed : r.env.sha256 = sha256
  visible : r.cfg.visible s.path = some true
  layout : ∀ e ∈ r.finish.log, movesLayout e = false
  onDisk : r.start.tree.file? s.parts = s.here
  holds : ∀ log content, r.env.provider.downloadFile log s.there.id = .ok content → content = s.content
  shows : ∀ listing scan run w, Prepared r.env r.cfg r.start listing scan run w →
    Shows r.cfg s (viewOf r.env r.cfg r.localOnly listing scan r.before)

/-- Nothing is written at the path. -/
def Unwritten (p : List Text) (log : Log) : Prop := .disk (.write p) true ∉ log

/-- The local file counts as the recorded one: the same size, and the same time or content. -/
def CountsUnchanged (sha256 : Bytes → Bytes) (l : LocalIdentity) (f : DiskFile) : Prop :=
  f.bytes.length = l.size ∧
    (f.mtimeNs.isSome = true ∧ f.mtimeNs = l.mtimeNs ∨ l.sha256 = some (hexEncode (sha256 f.bytes)))

variable {env : Env} {cfg : SyncConfig} {v : View} {s : Situation} {r : Run} {sha256 : Bytes → Bytes}
  {p : List Text} {I : Engine → Prop}

/-! ## Steps that fetch nothing -/

/-- The step may bring remote content here. -/
def fetches : Step → Bool
  | .download | .both _ => true
  | .quarantine | .upload | .reupload => false

theorem knownStep_fetches {listedNothing : Bool} {localOnly : LocalOnly} {entry : ManifestEntry} {lc rc : Bool}
    {l : Option LocalFile} {file : Option CloudFile} {st : Step}
    (h : knownStep cfg listedNothing localOnly entry lc rc l file = .step st) (hrc : rc = false ∨ file = none) :
    fetches st = false := by
  unfold knownStep at h
  grind [fetches]

theorem unknownStep_fetches {localOnly : LocalOnly} {l : Option LocalFile} {cloud : Option CloudFile} {st : Step}
    (h : unknownStep cfg localOnly l cloud = some st)
    (hcloud : cloud = none ∨ l = none ∧ cloud.filter (fun f => !f.isFolder) = none) : fetches st = false := by
  unfold unknownStep at h
  grind [fetches]

/-- A step planned for a known path is what the comparison of its two sides with the entry says. -/
theorem planKnown_step (path : Text) (entry : ManifestEntry) :
    Triple (fun _ => True) (planKnown env cfg v path entry)
      (fun o _ => ∀ pl ∈ o, ∃ lc, knownStep cfg v.listedNothing v.localOnly entry lc
        (remoteChanged (v.listed path) entry.remote) (v.files.lookup path) (v.listed path) = .step pl.step)
      (fun _ => True) := by
  unfold planKnown
  refine Triple.bind (keeps_true _) fun lc => ?_
  split
  next st hs =>
    intro w _ pl hpl
    cases hpl
    exact ⟨lc, hs⟩
  · exact fun _ _ _ hpl => nomatch hpl
  · exact Triple.bind (keeps_true _) fun _ _ _ _ hpl => nomatch hpl
  · exact Triple.bind (keeps_true _) fun _ _ _ _ hpl => nomatch hpl
  · refine Triple.bind (keeps_true _) fun _ => ?_
    exact Triple.bind (keeps_true _) fun _ _ _ _ hpl => nomatch hpl
  · refine Triple.bind (keeps_true _) fun _ => ?_
    exact Triple.bind (keeps_true _) fun _ _ _ _ hpl => nomatch hpl

theorem planUnknown_fetches {path : Text} (hcloud : v.cloud.lookup path = none ∨
      v.files.lookup path = none ∧ v.listed path = none) (tracked : Bool) (entry : Option ManifestEntry) :
    Triple (fun _ => True) (planUnknown cfg v path tracked entry) (fun o _ => ∀ pl ∈ o, fetches pl.step = false)
      (fun _ => True) := by
  have hlast : ∀ pl ∈ (unknownStep cfg v.localOnly (v.files.lookup path) (v.cloud.lookup path)).map
      fun st => (⟨path, st, tracked, none⟩ : Planned), fetches pl.step = false := by
    intro pl hpl
    obtain ⟨st, hst, rfl⟩ := Option.map_eq_some_iff.mp hpl
    exact unknownStep_fetches hst hcloud
  unfold planUnknown
  split
  · exact Triple.bind (keeps_true _) fun _ _ _ => hlast
  · exact fun _ _ => hlast

/-- For a path without a remote change no step fetches anything. -/
theorem planPath_unchanged {path : Text} (h : Unchanged cfg v path) :
    Triple (fun _ => True) (planPath env cfg v path) (fun o _ => ∀ pl ∈ o, fetches pl.step = false)
      (fun _ => True) := by
  have hknown : ∀ entry : ManifestEntry, remoteChanged (v.listed path) entry.remote = false ∨ v.listed path = none →
      Triple (fun _ => True) (planKnown env cfg v path entry) (fun o _ => ∀ pl ∈ o, fetches pl.step = false)
        (fun _ => True) := by
    refine fun entry hentry => (planKnown_step path entry).mono (fun _ h => h) (fun o _ hstep pl hpl => ?_) fun _ h => h
    obtain ⟨lc, hlc⟩ := hstep pl hpl
    exact knownStep_fetches hlc hentry
  have hnone : v.cloud.lookup path = none ∨ v.files.lookup path = none ∧ v.listed path = none →
      Triple (fun _ => True) (planPath env cfg v path) (fun o _ => ∀ pl ∈ o, fetches pl.step = false)
        (fun _ => True) := by
    intro hcloud
    have hlisted : v.listed path = none := by
      rcases hcloud with hcloud | hcloud
      · rw [View.listed, hcloud]
        rfl
      · exact hcloud.2
    refine Triple.bind (keeps_true _) fun tracked => ?_
    split
    · exact hknown _ (Or.inr hlisted)
    · exact planUnknown_fetches hcloud _ _
  rcases h with hcloud | hcloud | ⟨hview, hvisible, entry, hentry, hsame⟩
  · exact hnone (Or.inl hcloud)
  · exact hnone (Or.inr hcloud)
  · have hplan : planPath env cfg v path = planKnown env cfg v path entry := by
      unfold planPath isTracked
      rw [hview, hvisible, hentry]
      rfl
    rw [hplan]
    exact hknown entry (Or.inl hsame)

/-! ## The step of the path -/

/-- The step of the path: a download where the local file is gone, the conflict of two changes otherwise. -/
structure OwnStep (s : Situation) (pl : Planned) : Prop where
  path : pl.path = s.path
  step : s.here = none ∧ pl.step = .download ∧ pl.old = some s.entry ∨ (∃ f, s.here = some f) ∧ pl.step = .both true

/-- A read that returns has the content of the file. -/
theorem triple_readFile (hI : Stable I) {f : DiskFile} (hfile : ∀ w, I w → w.tree.file? p = some f) :
    Triple I (attempt (readFile env p)) (fun o w => I w ∧ ∀ content, o = .ok content → content = f.bytes) I := by
  have hread : Triple I (readFile env p) (fun content w => I w ∧ content = f.bytes) I := by
    refine triple_disk (fun w => hI.failed w _) fun w a t hw ha => ?_
    rw [hfile w hw] at ha
    cases ha
    exact ⟨hI.log w rfl hw, rfl⟩
  refine (triple_attempt hread).mono (fun _ h => h) (fun o w h => ?_) fun _ h => h
  cases o with
  | error e => exact ⟨h, fun _ hc => nomatch hc⟩
  | ok content => exact ⟨h.1, fun _ hc => by cases hc; exact h.2⟩

/-- A file that does not count as unchanged is found changed. -/
theorem triple_matches (hI : Stable I) {f : DiskFile} (hfile : ∀ w, I w → w.tree.file? p = some f) {l : LocalIdentity}
    (h : ¬CountsUnchanged env.sha256 l f) :
    Triple I ((LocalFile.of p f).matches env l) (fun b w => I w ∧ b = false) I := by
  unfold LocalFile.matches
  split
  · exact fun w hw => ⟨hw, rfl⟩
  next hsize =>
    have hlen : f.bytes.length = l.size := by simpa [LocalFile.of] using hsize
    have hboth := not_or.mp fun h' => h ⟨hlen, h'⟩
    split
    next htime =>
      simp only [LocalFile.of, Bool.and_eq_true, beq_iff_eq] at htime
      exact absurd htime hboth.1
    · split
      · exact fun w hw => ⟨hw, rfl⟩
      next hash hhash =>
        refine Triple.bind (triple_readFile hI hfile) fun o => ?_
        cases o with
        | error e => exact fun w hw => ⟨hw.1, rfl⟩
        | ok content =>
          rintro w ⟨hw, hcontent⟩
          refine ⟨hw, beq_eq_false_iff_ne.mpr fun heq => hboth.2 ?_⟩
          rw [hhash, ← heq, hcontent content rfl]
          rfl

/-- The plan of the path. -/
theorem planPath_own (hI : Stable I) (hs : LostReply env.sha256 s) (hv : Shows cfg s v)
    (hdirection : cfg.direction = .bidirectional) (hvisible : cfg.visible s.path = some true)
    (hfile : ∀ w, I w → w.tree.file? s.parts = s.here)
    (hnot : ∀ f ∈ s.here, ∀ l ∈ s.entry.localId, ¬CountsUnchanged env.sha256 l f) :
    Triple I (planPath env cfg v s.path) (fun o w => I w ∧ ∀ pl ∈ o, OwnStep s pl) I := by
  obtain ⟨l, hl⟩ := Option.isSome_iff_exists.mp hs.localId
  have hlisted : v.listed s.path = some s.there := by
    rw [View.listed, hv.there, Option.filter_some, hs.file]
    rfl
  have hcan : cfg.canDownload = true := by
    rw [SyncConfig.canDownload, hdirection]
    rfl
  rw [planPath_known hv.inView hvisible hv.entry, hlisted, hs.changed, hv.here, hl]
  cases hhere : s.here with
  | none =>
    refine Triple.bind (R := fun b w => I w ∧ b = true) (fun w hw => ⟨hw, rfl⟩) fun b => ?_
    refine Triple.assume fun hb => ?_
    have hstep : knownStep cfg v.listedNothing v.localOnly s.entry true true none (some s.there) = .step .download := by
      simp [knownStep, hcan]
    rw [hb, Option.map_none, hstep]
    refine fun w hw => ⟨hw, fun pl hpl => ?_⟩
    cases hpl
    exact ⟨rfl, Or.inl ⟨hhere, rfl, rfl⟩⟩
  | some f =>
    have hchanged : Triple I (localChanged env (some (LocalFile.of s.parts f)) (some l)) (fun b w => I w ∧ b = true) I := by
      refine Triple.bind (triple_matches hI (fun w hw => (hfile w hw).trans hhere) (hnot f hhere l hl)) fun b => ?_
      rintro w ⟨hw, rfl⟩
      exact ⟨hw, rfl⟩
    refine Triple.bind hchanged fun b => ?_
    refine Triple.assume fun hb => ?_
    have hstep : knownStep cfg v.listedNothing v.localOnly s.entry true true (some (LocalFile.of s.parts f))
        (some s.there) = .step (.both true) := rfl
    rw [hb, Option.map_some, hstep]
    refine fun w hw => ⟨hw, fun pl hpl => ?_⟩
    cases hpl
    exact ⟨rfl, Or.inr ⟨⟨f, hhere⟩, rfl⟩⟩

/-! ## Taking the steps -/

theorem Unwritten.cons {log : Log} {e : Event} (h : Unwritten p log) (he : e ≠ .disk (.write p) true) :
    Unwritten p (e :: log) := by
  intro hmem
  rcases List.mem_cons.mp hmem with heq | hmem
  · exact he heq.symm
  · exact h hmem

theorem filesOnly_unwritten : FilesOnly fun w => Unwritten p w.log where
  stable := by
    intro w e t he h _
    refine h.cons ?_
    rintro rfl
    cases he
  fields := fun _ _ _ hlog _ h => hlog ▸ h

theorem keeps_quarantine (run path : Text) (src : List Text) :
    Keeps (fun w => Unwritten p w.log) (quarantine env run path src) :=
  triple_quarantine filesOnly_unwritten.stable filesOnly_unwritten.stable (fun _ h => h) run path src
    fun _ _ _ h _ _ _ => h.cons fun heq => nomatch heq

theorem keeps_uploadFile (path : Text) (l : LocalFile) :
    Keeps (fun w => Unwritten p w.log) (uploadFile env cfg path l) :=
  CloudSync.keeps_uploadFile filesOnly_unwritten.beyond (Set.mem_univ path)
    fun _ _ _ _ _ h => h.cons fun heq => nomatch heq

/-- A download of what was sent is dropped. -/
theorem keeps_downloadUnless_same (hI : Stable I) {f : CloudFile} {hash : Text}
    (hsame : ∀ log content, env.provider.downloadFile log f.id = .ok content → sha256Hex env content = hash) :
    Keeps I (downloadUnless env f (some hash)) := by
  unfold downloadUnless
  refine Triple.bind (keeps_ofExcept _) fun parts => ?_
  refine Triple.bind Keeps.get fun w => ?_
  dsimp only
  split
  · exact Keeps.throw _
  · refine Triple.bind (triple_call hI rfl) fun content => ?_
    refine Triple.assume ?_
    rintro ⟨log, hlog⟩
    rw [hsame log content hlog, if_pos (beq_self_eq_true _)]
    exact Keeps.pure _

/-- Of two changes the newer one is the local one. -/
theorem resolve_useLocal (hstrategy : cfg.conflictStrategy = .newerWins) {l : LocalFile} {f : CloudFile}
    (hlt : f.modifiedAt < l.mtime) (stamp : Text) :
    resolve cfg.conflictStrategy stamp (bothModified cfg l f) = .useLocal := by
  rw [hstrategy]
  exact if_pos hlt

theorem keeps_syncBoth_local (hI : Beyond Set.univ I) {path : Text} {l : LocalFile} {f : CloudFile}
    (hresolve : ∀ stamp, resolve cfg.conflictStrategy stamp (bothModified cfg l f) = .useLocal)
    (hup : Keeps I (uploadFile env cfg path l)) : Keeps I (syncBoth env cfg path l f true) := by
  unfold syncBoth
  refine Keeps.bind (keeps_sameOnBothSides hI _ _ _) fun o => ?_
  cases o with
  | some identity => exact Keeps.pure _
  | none =>
    refine Keeps.bind Keeps.get fun w => ?_
    have hconflict : conflictOf cfg w.state l f true = some (bothModified cfg l f) := rfl
    rw [hconflict]
    unfold settleConflict
    refine Keeps.bind (keeps_now hI.stable) fun time => ?_
    rw [hresolve]
    dsimp only
    split
    · exact keeps_uploadCounted hI hup _
    · exact Keeps.pure _

/-- The step of the path drops the download, or sends the local file. -/
theorem keeps_takeStep_own (hs : LostReply env.sha256 s) (hv : Shows cfg s v)
    (hstrategy : cfg.conflictStrategy = .newerWins)
    (hholds : ∀ log content, env.provider.downloadFile log s.there.id = .ok content → content = s.content)
    {pl : Planned} (hpl : OwnStep s pl) (run : Text) :
    Keeps (fun w => Unwritten p w.log) (takeStep env cfg v run pl) := by
  have hB : Beyond Set.univ fun w => Unwritten p w.log := filesOnly_unwritten.beyond
  unfold takeStep
  rw [hpl.path, hv.here, hv.there]
  rcases hpl.step with ⟨hhere, hstep, hold⟩ | ⟨⟨f, hhere⟩, hstep⟩
  · rw [hstep, hhere]
    dsimp only
    obtain ⟨time, hsent⟩ := hs.sent
    unfold stepDownload
    rw [hpl.path, hv.here, hhere, hold]
    dsimp only [Option.map_none, Option.isSome_none, Option.bind_some]
    rw [hsent, if_neg Bool.false_ne_true]
    dsimp only [Option.bind_some]
    refine Keeps.bind (keeps_downloadCounted hB (keeps_downloadUnless_same hB.stable fun log content hc => ?_)) fun o => ?_
    · rw [hholds log content hc]
      rfl
    · split
      · refine Keeps.bind (hB.modify fun _ => ⟨rfl, rfl, rfl, rfl, fun _ _ => rfl, fun _ _ => rfl⟩) fun _ => ?_
        exact Keeps.pure _
      · exact Keeps.pure _
  · rw [hstep, hhere]
    refine Keeps.bind (keeps_syncBoth_local hB (fun stamp => ?_) (keeps_uploadFile _ _)) fun _ => Keeps.pure _
    exact resolve_useLocal hstrategy (hs.older f hhere) stamp

/-- A step that fetches nothing writes nothing. -/
theorem keeps_takeStep_sending {pl : Planned} (hpl : fetches pl.step = false) (run : Text) :
    Keeps (fun w => Unwritten p w.log) (takeStep env cfg v run pl) := by
  have hB : Beyond Set.univ fun w => Unwritten p w.log := filesOnly_unwritten.beyond
  unfold takeStep
  split
  · refine Keeps.bind (keeps_attempt (keeps_quarantine run _ _)) fun o => ?_
    cases o with
    | ok dst =>
      refine Keeps.bind (keeps_record hB _) fun _ => ?_
      refine Keeps.bind (hB.modify fun _ => ⟨rfl, rfl, rfl, rfl, fun _ _ => rfl, fun _ _ => rfl⟩) fun _ => ?_
      exact Keeps.pure _
    | error e => exact Keeps.bind (keeps_addError hB _) fun _ => Keeps.pure _
  · exact keeps_stepUpload hB (keeps_uploadFile _ _) v _
  · exact keeps_stepUpload hB (keeps_uploadFile _ _) v _
  next hstep _ =>
    rw [hstep] at hpl
    cases hpl
  next hstep _ _ =>
    rw [hstep] at hpl
    cases hpl
  · exact Keeps.throw _

/-! ## The sync -/

/-- While the steps are planned, the files are as they were. -/
def Planning (s : Situation) (w : Engine) : Prop := Unwritten s.parts w.log ∧ w.tree.file? s.parts = s.here

theorem filesOnly_planning : FilesOnly (Planning s) where
  stable := fun w e t he h ht => ⟨filesOnly_unwritten.stable w e t he h.1 ht, (ht s.parts).trans h.2⟩
  fields := fun _ _ htree hlog _ h => ⟨hlog ▸ h.1, htree ▸ h.2⟩

theorem LostReply.not_own (hs : LostReply sha256 s) : s.parts ≠ [manifestFile] ∧ s.parts ≠ [layoutMarker] := by
  have hfree := hs.free
  rw [hs.path] at hfree
  constructor
  · intro h
    rw [isReserved_of_reservedTop ⟨manifestFile, [], h, by simp⟩] at hfree
    cases hfree
  · intro h
    rw [isReserved_of_reservedTop ⟨layoutMarker, [], h, List.mem_cons_self⟩] at hfree
    cases hfree

theorem LostReply.path_ne_nil (hs : LostReply sha256 s) : s.path ≠ [] := by
  intro hnil
  have hc := hs.components
  rw [hnil] at hc
  cases hc

theorem LostReply.parts_ne_nil (hs : LostReply sha256 s) : s.parts ≠ [] := by
  intro hnil
  have hpath := hs.path
  rw [hnil] at hpath
  have hc := hs.components
  rw [hpath] at hc
  cases hc

/-- Nothing but the engine's own marker is written before the steps. -/
theorem unwritten_of_untouched (hs : LostReply sha256 s) {w w' : Engine} (h : Untouched w w') :
    Unwritten s.parts w'.log := by
  intro hmem
  have hprep := h.log _ hmem
  exact hs.not_own.2 (beq_iff_eq.mp hprep)

/-- The steps write nothing at the path. -/
theorem unwritten_reconcileView (hs : LostReply env.sha256 s) (hv : Shows cfg s v)
    (hdirection : cfg.direction = .bidirectional) (hstrategy : cfg.conflictStrategy = .newerWins)
    (hvisible : cfg.visible s.path = some true)
    (hholds : ∀ log content, env.provider.downloadFile log s.there.id = .ok content → content = s.content)
    (hnot : ∀ f ∈ s.here, ∀ l ∈ s.entry.localId, ¬CountsUnchanged env.sha256 l f) (run : Text) :
    Triple (Planning s) (reconcileView env cfg v run) (fun _ w => Unwritten s.parts w.log)
      (fun w => Unwritten s.parts w.log) := by
  have hP : FilesOnly (Planning s) := filesOnly_planning
  have hU : FilesOnly fun w => Unwritten s.parts w.log := filesOnly_unwritten
  have hB : Beyond Set.univ fun w => Unwritten s.parts w.log := hU.beyond
  have hplan : Triple (Planning s) (planPaths env cfg v v.paths)
      (fun plan w => Planning s w ∧ ∀ pl ∈ plan, fetches pl.step = false ∨ OwnStep s pl) (Planning s) := by
    refine triple_planPaths fun q _ => ?_
    by_cases hq : q = s.path
    · subst hq
      exact (planPath_own hP.stable hs hv hdirection hvisible (fun _ h => h.2) hnot).mono (fun _ h => h)
        (fun _ _ h => ⟨h.1, fun pl hpl => Or.inr (h.2 pl hpl)⟩) fun _ h => h
    · have hkeep : Keeps (Planning s) (planPath env cfg v q) :=
        keeps_planPath (S := Set.univ) hP.beyond (Set.mem_univ _) (Set.mem_univ _)
      exact (hkeep.and (planPath_unchanged (hv.others q hq))).mono (fun _ h => ⟨h, trivial⟩)
        (fun _ _ h => ⟨h.1, fun pl hpl => Or.inl (h.2 pl hpl)⟩) fun _ h => h.1
  unfold reconcileView
  refine Triple.bind (hplan.mono (fun _ h => h) (fun _ _ h => h) fun _ h => h.1) fun plan => ?_
  refine Triple.assume fun hsteps => ?_
  have hall : ∀ pl ∈ plan.insertionSort Planned.le,
      Keeps (fun w => Unwritten s.parts w.log) (executeStep env cfg v run pl) := by
    intro pl hpl
    have htake : Keeps (fun w => Unwritten s.parts w.log) (takeStep env cfg v run pl) :=
      (hsteps pl ((List.mem_insertionSort _).mp hpl)).elim (fun h => keeps_takeStep_sending h run)
        fun h => keeps_takeStep_own hs hv hstrategy hholds h run
    refine Keeps.bind (Keeps.modify fun w h => h.cons fun heq => nomatch heq) fun _ => ?_
    exact Keeps.bind htake fun recorded => keeps_recordStep hB (Set.mem_univ _) (Set.mem_univ _) recorded
  refine Triple.bind ((Keeps.forM hall).mono (fun _ h => h.1) (fun _ _ h => h) fun _ h => h) fun _ => ?_
  refine Triple.bind (keeps_finishQuarantine hB (keeps_pruneQuarantine hU.stable
    (fun w name h => h.cons fun heq => nomatch heq) _ _)) fun _ => ?_
  refine Triple.bind (keeps_reportPaths hB v run) fun _ => ?_
  have hsave : Keeps (fun w => Unwritten s.parts w.log) (saveManifest env) :=
    keeps_saveManifest hU.stable fun w f h => h.cons fun heq =>
      hs.not_own.1 (DiskOp.write.inj (Event.disk.inj heq).1).symm
  refine Triple.bind (keeps_finishState hU hsave) fun _ => ?_
  exact Triple.bind (keeps_record hB _) fun _ => Triple.bind Keeps.get fun _ => Keeps.pure _

/-- A sync that meets the situation writes nothing at the path, unless the local file counts as unchanged. -/
theorem unwritten_of_changed (hs : LostReply sha256 s) (hr : Meets sha256 s r)
    (hnot : ∀ f ∈ s.here, ∀ l ∈ s.entry.localId, ¬CountsUnchanged sha256 l f) :
    Unwritten s.parts r.finish.log := by
  have hends : Ends r.env r.cfg r.localOnly r.start r.finish := reconcile_ends r.env r.cfg r.localOnly r.start
  obtain rfl := hr.hashed
  cases hends with
  | moved h =>
    obtain ⟨e, he, hmoved⟩ := h
    rw [hr.layout e he] at hmoved
    cases hmoved
  | early h _ => exact unwritten_of_untouched hs h
  | steps listing scan run w₁ h hw =>
    rw [hw]
    have hfile : w₁.tree.file? s.parts = s.here := (h.untouched.files s.parts hs.not_own.2).trans hr.onDisk
    exact (unwritten_reconcileView hs (hr.shows listing scan run w₁ h) hr.direction hr.strategy hr.visible hr.holds hnot
      run).final ⟨unwritten_of_untouched hs h.untouched, hfile⟩

end LostUploads
