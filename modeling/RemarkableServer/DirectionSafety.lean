import RemarkableServer.SyncKeepsContent
import RemarkableServer.SyncViews

/-!
# The direction of a sync

A sync that only uploads changes no local file but its own entries, one that only
downloads uploads nothing, and no sync changes a remote file it does not upload
over: every upload goes to a path that the local scan listed.
-/
namespace DirectionSafety

open RustText Integrations CloudPaths CloudSync Effect FileTree
open SyncKeepsContent (editEnv editConfig editEngine)

/-- The operation changes files only among the engine's own entries. -/
def InReserved : DiskOp → Prop
  | .write p | .removeAll p => ReservedTop p
  | .move src dst | .moveDir src dst => ReservedTop src ∧ ReservedTop dst
  | .stat _ | .read _ | .scan | .createDir _ | .removeDir _ | .sync _ => True

/-- The upload goes to a path that a scan of the tree lists. -/
def ToListed (cfg : SyncConfig) (t : LocalTree) : Call → Prop
  | .uploadFileAt _ components _ => ∃ path l, ScanLists cfg t path l ∧ cloudPathComponents path = .ok components
  | _ => False

/-- What a sync of the tree may do in its direction. -/
def Permitted (cfg : SyncConfig) (t : LocalTree) : Event → Prop
  | .disk op ok => ok = true → cfg.direction = .upload → InReserved op
  | .call c _ => c.quiet = true ∨ cfg.direction ≠ .download ∧ ToListed cfg t c
  | .clock | .step .. => True

/-- What the sync started at `w` has done so far. -/
structure Sound (cfg : SyncConfig) (w w' : Engine) : Prop where
  files : cfg.direction = .upload → ∀ p, ¬ReservedTop p → w'.tree.file? p = w.tree.file? p
  log : ∀ e ∈ w'.log, Permitted cfg w.tree e

variable {env : Env} {cfg : SyncConfig} {w w' : Engine}

theorem inReserved_of_quiet {op : DiskOp} (h : op.quiet = true) : InReserved op := by
  cases op <;> trivial

theorem permitted_of_quiet {t : LocalTree} {e : Event} (h : e.quiet = true) : Permitted cfg t e := by
  cases e with
  | clock => trivial
  | step path s => trivial
  | call c ok => exact Or.inl h
  | disk op ok =>
    intro hok _
    rw [Event.quiet, hok, Bool.not_true, Bool.or_false] at h
    exact inReserved_of_quiet h

/-- A permitted event that leaves the files to be left. -/
theorem Sound.event {e : Event} {t : LocalTree} (h : Sound cfg w w') (he : Permitted cfg w.tree e)
    (ht : cfg.direction = .upload → ∀ p, ¬ReservedTop p → t.file? p = w'.tree.file? p) :
    Sound cfg w { w' with log := e :: w'.log, tree := t } where
  files := fun hd p hp => (ht hd p hp).trans (h.files hd p hp)
  log := by
    intro e' he'
    rcases List.mem_cons.mp he' with rfl | he'
    · exact he
    · exact h.log e' he'

theorem Sound.fields {w₂ : Engine} (h : Sound cfg w w') (htree : w₂.tree = w'.tree) (hlog : w₂.log = w'.log) :
    Sound cfg w w₂ :=
  ⟨fun hd p hp => (congrArg (·.file? p) htree).trans (h.files hd p hp), fun e he => h.log e (hlog ▸ he)⟩

theorem filesOnly_sound (cfg : SyncConfig) (w : Engine) : FilesOnly (Sound cfg w) where
  stable := fun _ _ _ he h ht => h.event (permitted_of_quiet he) fun _ p _ => ht p
  fields := fun _ _ htree hlog _ h => h.fields htree hlog

/-- Before the steps only the marker of the old layout is written. -/
theorem sound_of_untouched (h : Untouched w w') : Sound cfg w w' where
  files := by
    intro _ p hp
    refine h.files p ?_
    rintro rfl
    exact hp ⟨layoutMarker, [], rfl, List.mem_cons_self⟩
  log := by
    intro e he
    have hprep := h.log e he
    unfold Event.prepares at hprep
    split at hprep
    next p =>
      intro _ _
      exact ⟨layoutMarker, [], beq_iff_eq.mp hprep, List.mem_cons_self⟩
    · exact permitted_of_quiet hprep

/-! ## The steps -/

theorem reservedTop_quarantine (rest : List Text) : ReservedTop (quarantineDir :: rest) :=
  ⟨quarantineDir, rest, rfl, by simp⟩

/-- In a direction that downloads, what is done to the disk is permitted. -/
theorem Sound.disk {op : DiskOp} {ok : Bool} {t : LocalTree} (hcan : cfg.canDownload = true) (h : Sound cfg w w') :
    Sound cfg w { w' with log := .disk op ok :: w'.log, tree := t } := by
  have hd : cfg.direction ≠ .upload := by simpa [SyncConfig.canDownload] using hcan
  exact h.event (fun _ hd' => absurd hd' hd) fun hd' => absurd hd' hd

theorem keeps_quarantine (hcan : cfg.canDownload = true) (run path : Text) (src : List Text) :
    Keeps (Sound cfg w) (quarantine env run path src) :=
  triple_quarantine (filesOnly_sound cfg w).stable (filesOnly_sound cfg w).stable (fun _ h => h) run path src
    fun _ _ _ h _ _ _ => h.disk hcan

theorem keeps_downloadUnless (hcan : cfg.canDownload = true) (f : CloudFile) (unlessHash : Option Text) :
    Keeps (Sound cfg w) (downloadUnless env f unlessHash) := by
  have hB : Beyond Set.univ (Sound cfg w) := (filesOnly_sound cfg w).beyond
  refine keeps_downloadUnless_of hB.incidental (K := fun _ => Sound cfg w) ?_ ?_ ?_ unlessHash
  · exact fun target _ => keeps_guardOverwrite hB.incidental fun run => keeps_quarantine hcan run f.path target
  · exact fun _ _ h => h.disk hcan
  · exact fun _ _ _ _ h => h.disk hcan

/-- A file the sync deals with is one the scan of the tree it started with lists. -/
theorem scanLists_of_view {localOnly : LocalOnly} {listing : List CloudFile} {scan : Scan} {run : Text}
    {base : Option SyncManifest} {path : Text} {l : LocalFile} (h : Prepared env cfg w listing scan run w')
    (hl : (viewOf env cfg localOnly listing scan base).files.lookup path = some l) :
    ScanLists cfg w.tree path l := by
  have hscan := lineUp_files hl
  rw [lookup_retain, Option.filter_eq_some_iff] at hscan
  obtain ⟨hscan, hvisible⟩ := hscan
  obtain hempty | ⟨p, f, hf, hreach, hsize, rfl, rfl⟩ := scanEntries_lists h.scanned hscan
  · cases hempty
  · refine ⟨p, f, ?_, hreach, hsize, rfl, rfl⟩
    rw [← h.untouched.files p ?_, hf]
    rintro rfl
    rw [isReserved_of_reservedTop ⟨layoutMarker, [], rfl, List.mem_cons_self⟩] at hvisible
    cases hvisible

theorem keptByStep_sound {localOnly : LocalOnly} {listing : List CloudFile} {scan : Scan} {run : Text}
    (base : Option SyncManifest) (h : Prepared env cfg w listing scan run w') (path : Text) :
    KeptByStep env cfg (viewOf env cfg localOnly listing scan base) path (Sound cfg w) where
  step := fun _ => Keeps.modify fun _ h => h.event trivial fun _ _ _ => rfl
  upload := by
    intro hcan l hl
    refine keeps_uploadFile (filesOnly_sound cfg w).beyond (Set.mem_univ path) fun w₂ components content ok hc h₂ => ?_
    have hd : cfg.direction ≠ .download := by simpa [SyncConfig.canUpload] using hcan
    exact h₂.event (Or.inr ⟨hd, path, l, scanLists_of_view h hl, hc⟩) fun _ _ _ => rfl
  download := fun hcan f _ => keeps_downloadUnless hcan f
  copy := fun hcan _ _ _ => keeps_downloadUnless hcan _ none
  quarantine := fun hcan l _ run => keeps_quarantine hcan run path l.path

theorem sound_reconcile (localOnly : LocalOnly)
    (hlayout : ¬LayoutMoved (final (reconcile env cfg localOnly) w).log) :
    Sound cfg w (final (reconcile env cfg localOnly) w) := by
  have hS := filesOnly_sound cfg w
  cases reconcile_ends env cfg localOnly w with
  | moved h => exact absurd h hlayout
  | early h _ => exact sound_of_untouched h
  | steps listing scan run w₁ h hw =>
    rw [hw]
    refine (keeps_reconcileView hS (fun path => (keptByStep_sound _ h path).named) ?_ ?_ run).final (sound_of_untouched h.untouched)
    · refine keeps_pruneQuarantine hS.stable fun w₂ name h₂ => h₂.event (fun _ _ => reservedTop_quarantine _) ?_
      intro _ p hp
      refine Tree.file?_removeAll _ fun hpre => hp ?_
      obtain ⟨rest, rfl⟩ := hpre
      exact reservedTop_quarantine _
    · have hmanifest : ReservedTop [manifestFile] := ⟨manifestFile, [], rfl, by simp⟩
      refine keeps_saveManifest hS.stable fun w₂ f h₂ => h₂.event (fun _ _ => hmanifest) fun _ p hp => ?_
      rw [Tree.file?_write, if_neg]
      rintro rfl
      exact hp hmanifest

/-! ## A full sync and a resync -/

/-- Sound, or a sync that moves an old layout. -/
def SoundOrMoved (cfg : SyncConfig) (w w' : Engine) : Prop := LayoutMoved w'.log ∨ Sound cfg w w'

theorem filesOnly_soundOrMoved (cfg : SyncConfig) (w : Engine) : FilesOnly (SoundOrMoved cfg w) where
  stable := fun w' e t he h ht => h.imp (layoutMoved_cons e) fun h => (filesOnly_sound cfg w).stable w' e t he h ht
  fields := fun _ _ htree hlog _ h => h.imp (fun h => hlog ▸ h) fun h => h.fields htree hlog

theorem soundOrMoved_reconcile (localOnly : LocalOnly) (w : Engine) :
    SoundOrMoved cfg w (final (reconcile env cfg localOnly) w) := by
  by_cases h : LayoutMoved (final (reconcile env cfg localOnly) w).log
  · exact Or.inl h
  · exact Or.inr (sound_reconcile localOnly h)

theorem soundOrMoved_sync (w : Engine) : SoundOrMoved cfg w (final (sync env cfg) w) := by
  have hrun : Triple (· = w) (sync env cfg) (fun _ => SoundOrMoved cfg w) (SoundOrMoved cfg w) := by
    refine Triple.bind ((Triple.start (reconcile env cfg .upload) w).mono (fun _ h => h) ?_ ?_) fun r => Keeps.pure _
    · rintro _ s rfl
      exact soundOrMoved_reconcile .upload w
    · rintro s rfl
      exact soundOrMoved_reconcile .upload w
  exact hrun.final rfl

/-- A resync asks for a cursor before it reconciles and stores it afterwards. -/
theorem soundOrMoved_resync (w : Engine) : SoundOrMoved cfg w (final (resync env cfg) w) := by
  have hS := filesOnly_soundOrMoved cfg w
  let asked (ok : Bool) : Engine := { w.start with log := [.call (.getChangesIn cfg.cloudFolder none) ok] }
  have hasked : SoundOrMoved cfg w (asked false) :=
    Or.inr ⟨fun _ _ _ => rfl, fun e he => by rw [List.mem_singleton.mp he]; exact Or.inl rfl⟩
  have hreconcile : SoundOrMoved cfg w (final (reconcile env cfg .keep) (asked true)) :=
    (soundOrMoved_reconcile .keep (asked true)).imp_right fun h => ⟨h.files, h.log⟩
  have hrun : Triple (· = w) (resync env cfg) (fun _ => SoundOrMoved cfg w) (SoundOrMoved cfg w) := by
    refine Triple.bind (R := fun _ => (· = w.start)) (fun s hs => congrArg Engine.start hs) fun _ => ?_
    refine Triple.bind (R := fun _ => (· = asked true)) ?_ fun page => ?_
    · rintro s rfl
      unfold call
      dsimp only
      cases env.provider.getChangesIn w.start.log cfg.cloudFolder none with
      | error e => exact hasked
      | ok page => rfl
    refine Triple.bind (R := fun _ => SoundOrMoved cfg w) ((Triple.start _ (asked true)).mono (fun _ h => h) ?_ ?_)
      fun r => ?_
    · rintro _ s rfl
      exact hreconcile
    · rintro s rfl
      exact hreconcile
    · split
      · exact Keeps.bind (keeps_updateState hS _) fun _ => Keeps.pure _
      · exact Keeps.pure _
  exact hrun.final rfl

/-- For every manifest, local tree, listing, provider and disk: a full sync or resync that moves no old
layout aside changes, when it only uploads, no local file but its own entries; uploads nothing when
it only downloads; and does nothing to the remote side but upload to paths the local scan lists. -/
theorem sync_respects_direction (env : Env) (cfg : SyncConfig) (w : Engine) (run : Sync SyncResult)
    (hrun : run = sync env cfg ∨ run = resync env cfg)
    (hlayout : ∀ e ∈ (final run w).log, movesLayout e = false) :
    (cfg.direction = .upload →
      (∀ p, ¬ReservedTop p → (final run w).tree.file? p = w.tree.file? p) ∧
        ∀ op, .disk op true ∈ (final run w).log → InReserved op) ∧
    (cfg.direction = .download → ∀ folder components content ok,
      .call (.uploadFileAt folder components content) ok ∉ (final run w).log) ∧
    ∀ c ok, .call c ok ∈ (final run w).log → c.quiet = true ∨ ToListed cfg w.tree c := by
  have hsound : Sound cfg w (final run w) := by
    have h : SoundOrMoved cfg w (final run w) := by
      rcases hrun with rfl | rfl
      · exact soundOrMoved_sync w
      · exact soundOrMoved_resync w
    rcases h with ⟨e, he, hmoved⟩ | h
    · rw [hlayout e he] at hmoved
      cases hmoved
    · exact h
  refine ⟨fun hd => ⟨hsound.files hd, fun op hop => hsound.log _ hop rfl hd⟩, ?_, ?_⟩
  · intro hd folder components content ok hup
    rcases hsound.log _ hup with hq | ⟨hne, -⟩
    · cases hq
    · exact hne hd
  · intro c ok hc
    rcases hsound.log _ hc with hq | ⟨-, hto⟩
    · exact Or.inl hq
    · exact Or.inr hto

/-- The provider of the edited file takes uploads. -/
def uploadEnv : Env :=
  { editEnv with
    provider := { editEnv.provider with
      uploadFileAt := fun _ _ _ _ => .ok ⟨"id".toList, "a.txt".toList, none, 1, 9, none, none, false, [], false⟩ } }

def uploadConfig : SyncConfig := { editConfig with direction := .upload, conflictStrategy := .localWins }

/-- The edited file goes up, and no other event of the run is more than asking. -/
theorem edited_file_goes_up :
    (∀ p, ¬ReservedTop p →
      (final (sync uploadEnv uploadConfig) editEngine).tree.file? p = editEngine.tree.file? p) ∧
    (final (sync uploadEnv uploadConfig) editEngine).log.filter (fun e => !e.quiet) =
      [.call (.uploadFileAt none ["a.txt".toList] [2]) true, .step "/a.txt".toList (.both true)] := by
  refine ⟨((sync_respects_direction uploadEnv uploadConfig editEngine _ (Or.inl rfl) ?_).1 rfl).1, ?_⟩
  · decide +kernel
  · decide +kernel

end DirectionSafety
