import RemarkableServer.LostUploads
import RemarkableServer.RemoteSpellings
import RemarkableServer.SteadyDisk

/-!
# Old content put back under a lost upload

A local file that counts as unchanged since the last sync, because its old content
was put back, is overwritten with the content of an upload whose reply was lost.
Every such situation occurs: a provider that lists the remote file alone and a
directory with the local file alone are a sync that meets it.
-/
namespace LostUploads

open RustText Integrations CloudPaths CloudSync Effect FileTree
open DeletionSafety (Run)
open SyncKeepsContent (editEnv editEngine)

variable {env : Env} {cfg : SyncConfig} {v : View} {s : Situation} {sha256 : Bytes → Bytes} {p : List Text}

/-! ## A sync that meets the situation -/

/-- A provider that lists the remote file alone, and a disk that never fails. -/
def plainEnv (sha256 : Bytes → Bytes) (s : Situation) : Env :=
  { editEnv with
    sha256 := sha256
    provider := { editEnv.provider with
      listFiles := fun _ _ => .ok [s.there]
      downloadFile := fun _ _ => .ok s.content } }

/-- Nothing is hidden, excluded or too large. -/
def plainConfig : SyncConfig := ⟨[], none, .bidirectional, .newerWins, [], [], none, true, false, none⟩

/-- The path's entry, and another one that knows the local content, so that the overwrite guard lets it go. -/
def plainManifest (sha256 : Bytes → Bytes) (s : Situation) (f : DiskFile) : SyncManifest :=
  ((∅ : SyncManifest).insert s.path s.entry).insert [] ⟨none, some ⟨0, none, some (hexEncode (sha256 f.bytes))⟩, none⟩

/-- The local file in its directories. -/
def plainTree (s : Situation) (f : DiskFile) : LocalTree :=
  ⟨(Tree.empty.write s.parts f).files, (List.range s.parts.length).map s.parts.take⟩

def plainRun (sha256 : Bytes → Bytes) (s : Situation) (f : DiskFile) : Run where
  env := plainEnv sha256 s
  cfg := plainConfig
  localOnly := .upload
  start := { editEngine with
    tree := plainTree s f
    state := ⟨none, none, ∅, ∅, ∅, some (plainManifest sha256 s f)⟩ }

theorem reaches_plain (above rest : List Text) : plainConfig.reaches above rest = some true := by
  induction rest generalizing above with
  | nil => rfl
  | cons name rest ih =>
    have hhidden : plainConfig.isHidden name = false := rfl
    have hexclude : shouldExclude plainConfig.excludePatterns name = some false := rfl
    have hfolder : plainConfig.shouldSyncFolder (above ++ [name]) = true := rfl
    unfold SyncConfig.reaches
    rw [hhidden, hexclude, hfolder, ih]
    cases rest <;> rfl

theorem visible_plain {path : Text} : plainConfig.visible path ≠ none := by
  unfold SyncConfig.visible
  split
  · exact Option.some_ne_none _
  · rw [reaches_plain]
    split <;> exact Option.some_ne_none _

theorem visible_plain_path (hs : LostReply sha256 s) : plainConfig.visible s.path = some true := by
  unfold SyncConfig.visible
  rw [hs.components]
  dsimp only
  rw [hs.listable, reaches_plain, hs.free]
  rfl

theorem file?_plainTree (s : Situation) (f : DiskFile) (q : List Text) :
    (plainTree s f).file? q = if q = s.parts then some f else none :=
  Tree.file?_write Tree.empty s.parts q f

theorem isDir_plainTree (s : Situation) (f : DiskFile) {q : List Text} :
    (plainTree s f).isDir q = true ↔ q = [] ∨ ∃ i < s.parts.length, s.parts.take i = q := by
  rw [Tree.isDir_iff, plainTree, List.mem_map]
  simp only [List.mem_range]

/-- The directories of the local file are there, and nothing else. -/
theorem isDir_plainTree_above (hs : LostReply sha256 s) (f : DiskFile) {q : List Text}
    (hq : q <+: s.parts.dropLast) : (plainTree s f).isDir q = true := by
  obtain ⟨rest, hrest⟩ := hq
  have hlen := congrArg List.length hrest
  rw [List.length_append, List.length_dropLast] at hlen
  have hpos : 0 < s.parts.length := List.length_pos_of_ne_nil hs.parts_ne_nil
  refine (isDir_plainTree s f).mpr (Or.inr ⟨q.length, by omega, ?_⟩)
  rw [← List.dropLast_append_getLast hs.parts_ne_nil, ← hrest, List.append_assoc, List.take_left]

theorem isDir_plainTree_file (hs : LostReply sha256 s) (f : DiskFile) : (plainTree s f).isDir s.parts = false := by
  refine Bool.eq_false_iff.mpr fun hdir => ?_
  obtain hnil | ⟨i, hi, htake⟩ := (isDir_plainTree s f).mp hdir
  · exact hs.parts_ne_nil hnil
  · have hlen := congrArg List.length htake
    rw [List.length_take] at hlen
    omega

theorem startManifest_plain (sha256 : Bytes → Bytes) (s : Situation) (f : DiskFile) :
    (plainRun sha256 s f).before = some (plainManifest sha256 s f) :=
  startManifest_unsaved _ rfl _

/-- The scan finds the local file and nothing else. -/
theorem scan_plain {f : DiskFile} {t : LocalTree} {scan : Scan} (hs : LostReply sha256 s)
    (ht : ∀ q, q ≠ [layoutMarker] → t.file? q = (plainTree s f).file? q)
    (hscan : scanEntries plainConfig t ⟨∅, []⟩ t.entries = some scan) :
    scan.files.lookup s.path = some (.of s.parts f) ∧ scan.tooLarge = [] := by
  have hmarker : ∀ q, pathText q = s.path → q ≠ [layoutMarker] := by
    rintro q hq rfl
    have hres := isReserved_of_reservedTop (p := [layoutMarker]) ⟨layoutMarker, [], rfl, List.mem_cons_self⟩
    rw [hq, hs.free] at hres
    cases hres
  have hfile : t.file? s.parts = some f := by
    rw [ht s.parts hs.not_own.2, file?_plainTree, if_pos rfl]
  have hlarge : ∀ q, q ∉ scan.tooLarge := by
    intro q hq
    obtain hempty | ⟨_, _, _, hover, _⟩ := scanEntries_tooLarge hscan hq
    · cases hempty
    · cases hover
  have hentry : s.parts ∈ t.entries :=
    List.mem_append_left _ (AList.mem_keys.mp (AList.lookup_isSome.mp (Option.isSome_of_eq_some hfile)))
  have hfound := (scanEntries_finds hscan hentry hfile (reaches_plain _ _)).resolve_right (hlarge _)
  rw [← hs.path] at hfound
  obtain ⟨l, hl⟩ := Option.isSome_iff_exists.mp hfound
  refine ⟨?_, List.eq_nil_iff_forall_not_mem.mpr hlarge⟩
  obtain hempty | ⟨q, g, hg, -, -, hq, rfl⟩ := scanEntries_lists hscan hl
  · cases hempty
  · rw [ht q (hmarker q hq.symm), file?_plainTree] at hg
    split at hg
    next hparts =>
      cases hg
      rw [hl, hparts]
    · cases hg

/-- The scan finds no other file. -/
theorem scan_plain_other {f : DiskFile} {scan : Scan} (hs : LostReply sha256 s)
    (hscan : scanEntries plainConfig (plainTree s f) ⟨∅, []⟩ (plainTree s f).entries = some scan) {q : Text}
    (hq : q ≠ s.path) : scan.files.lookup q = none := by
  refine Option.not_isSome_iff_eq_none.mp fun hsome => hq ?_
  obtain ⟨l, hl⟩ := Option.isSome_iff_exists.mp hsome
  obtain hempty | ⟨r, g, hg, -, -, hr, -⟩ := scanEntries_lists hscan hl
  · cases hempty
  · rw [file?_plainTree] at hg
    split at hg
    next hparts => rw [hr, hparts, hs.path]
    · cases hg

/-- The planning sees no other remote file. -/
theorem cloud_plain_other {scan : Scan} {base : Option SyncManifest} (hs : LostReply sha256 s) {q : Text}
    (hq : q ≠ s.path) :
    (viewOf (plainEnv sha256 s) plainConfig .upload [s.there] scan base).cloud.lookup q = none := by
  refine Option.not_isSome_iff_eq_none.mp fun hsome => hq ?_
  obtain ⟨g, hg⟩ := Option.isSome_iff_exists.mp hsome
  have hcase : (plainEnv sha256 s).provider.ignoresCase = false := rfl
  obtain ⟨hmem, hpath⟩ := RemoteSpellings.cloudMap_listed (viewOf_cloud_listed hcase hg)
  rw [List.mem_singleton] at hmem
  rw [← hpath, hmem, hs.listedAt]

/-- The planning sees the situation. -/
theorem shows_plain {f : DiskFile} {scan : Scan} (hs : LostReply sha256 s) (hhere : s.here = some f)
    (hfile : scan.files.lookup s.path = some (.of s.parts f)) (hlarge : scan.tooLarge = []) :
    Shows plainConfig s (viewOf (plainEnv sha256 s) plainConfig .upload [s.there] scan
      (some (plainManifest sha256 s f))) := by
  have hcase : (plainEnv sha256 s).provider.ignoresCase = false := rfl
  have hlisted : (cloudMap [s.there]).lookup s.path = some s.there := by
    have hmap : cloudMap [s.there] = (∅ : PathMap CloudFile).insert s.there.path s.there := rfl
    rw [hmap, hs.listedAt, AList.lookup_insert]
  have hsmall : plainConfig.tooLarge s.there = false := by
    simp [SyncConfig.tooLarge, SyncConfig.overLimit, plainConfig]
  constructor
  · rw [viewOf_outOfView hcase hs.free, hlisted, hlarge]
    simp [hsmall]
  · rw [viewOf_base hcase, plainManifest, Option.bind_some, lookup_insert_if, if_neg hs.path_ne_nil, AList.lookup_insert]
  · rw [viewOf_files hcase hs.free, hlisted, hfile, hhere]
    simp [hsmall]
  · rw [viewOf_cloud hcase hs.free, hlisted, hlarge]
    simp [hsmall]
  · exact fun q hq => Or.inl (cloud_plain_other hs hq)

/-- The scan does not panic. -/
theorem scanEntries_plain (t : LocalTree) (found : Scan) (ps : List (List Text)) :
    ∃ scan, scanEntries plainConfig t found ps = some scan := by
  induction ps generalizing found with
  | nil => exact ⟨found, rfl⟩
  | cons p ps ih =>
    have hentry : ∃ found', scanEntry plainConfig t found p = some found' := by
      unfold scanEntry
      rw [reaches_plain]
      dsimp only
      split
      · exact ⟨_, rfl⟩
      · split <;> exact ⟨_, rfl⟩
    obtain ⟨found', hfound⟩ := hentry
    unfold scanEntries
    rw [hfound]
    exact ih found'

/-- Where the steps of the sync start. -/
def plainEngine (sha256 : Bytes → Bytes) (s : Situation) (f : DiskFile) : Engine :=
  let start := (plainRun sha256 s f).start.start
  { start with
    log := [.clock, .disk .scan true, .call (.legacyLayoutDir none) true, .call (.listFiles none) true]
    state := { start.state with manifest := none }
    overwriteGuard := some (.of (plainManifest sha256 s f) (editEnv.runText 10)) }

/-- The sync comes to its steps with the tree it found. -/
theorem finish_plain {f : DiskFile} {scan : Scan}
    (hscan : scanEntries plainConfig (plainTree s f) ⟨∅, []⟩ (plainTree s f).entries = some scan) :
    (plainRun sha256 s f).finish = final (reconcileView (plainEnv sha256 s) plainConfig
      (viewOf (plainEnv sha256 s) plainConfig .upload [s.there] scan (some (plainManifest sha256 s f)))
      (editEnv.runText 10)) (plainEngine sha256 s f) := by
  have hlist : ∀ w : Engine, w.tree = plainTree s f →
      attempt (listLocalFiles (plainEnv sha256 s) plainConfig) w =
        .ok (.ok scan) { w with log := .disk .scan true :: w.log } := by
    intro w hw
    have hrun : listLocalFiles (plainEnv sha256 s) plainConfig w =
        .ok scan { w with log := .disk .scan true :: w.log } := by
      unfold listLocalFiles
      rw [bind_ok (x := disk (plainEnv sha256 s) .scan fun t => .ok (t, t)) (a := w.tree) rfl, hw, hscan]
      rfl
    rw [attempt, hrun]
  have hsteps : reconcile (plainEnv sha256 s) plainConfig .upload (plainRun sha256 s f).start =
      reconcileView (plainEnv sha256 s) plainConfig
        (viewOf (plainEnv sha256 s) plainConfig .upload [s.there] scan (some (plainManifest sha256 s f)))
        (editEnv.runText 10) (plainEngine sha256 s f) := by
    unfold reconcile
    rw [modify_bind, bind_ok (x := attempt (loadManifest _ _)) (a := .ok ⟨⟩) rfl]
    dsimp only
    rw [bind_ok (x := attempt (call _ _)) (a := .ok [s.there]) rfl]
    dsimp only
    unfold reconcileListing
    rw [bind_ok (x := attempt (moveLegacyLayout _ _ _)) (a := .ok ([], false)) rfl]
    dsimp only
    rw [record, modify_bind, bind_ok (hlist _ rfl)]
    dsimp only
    rw [bind_ok (x := now _) (a := 10) rfl, bind_ok (x := takeManifest _ _) (a := some (plainManifest sha256 s f)) rfl]
    rfl
  exact final_congr hsteps

/-- The plan of the path is a download. -/
theorem finds_planPath_unchanged {t : LocalTree} {g : OverwriteGuard} {f : DiskFile} {l : LocalIdentity}
    (hio : ∀ log op, env.ioError log op = none) (hs : LostReply env.sha256 s) (hv : Shows cfg s v)
    (hcan : cfg.canDownload = true) (hvisible : cfg.visible s.path = some true) (hhere : s.here = some f)
    (hfile : t.file? s.parts = some f) (hl : s.entry.localId = some l) (hsame : CountsUnchanged env.sha256 l f) :
    Finds t g (planPath env cfg v s.path) (some ⟨s.path, .download, true, some s.entry⟩) := by
  have hlisted : v.listed s.path = some s.there := by
    rw [View.listed, hv.there, Option.filter_some, hs.file]
    rfl
  rw [planPath_known hv.inView hvisible hv.entry, hlisted, hs.changed, hv.here, hl, hhere, Option.map_some]
  have hmatches : Finds t g (localChanged env (some (LocalFile.of s.parts f)) (some l)) false := by
    unfold localChanged
    exact Finds.bind (finds_matches hio hfile hsame.1 hsame.2) (Finds.pure false)
  refine Finds.bind hmatches ?_
  have hstep : knownStep cfg v.listedNothing v.localOnly s.entry false true (some (LocalFile.of s.parts f))
      (some s.there) = .step .download := by
    simp [knownStep, hcan]
  rw [hstep]
  exact Finds.pure _

theorem loose_written : Loose Set.univ fun w : Engine => .disk (.write p) true ∈ w.log :=
  ⟨fun _ e _ _ h => List.mem_cons_of_mem e h, fun _ _ hs h => hs.log ▸ h⟩

theorem filesOnly_written : FilesOnly fun w : Engine => .disk (.write p) true ∈ w.log where
  stable := loose_written.beyond.stable
  fields := fun _ _ _ hlog _ h => hlog ▸ h

/-- The download of the path comes to its write. -/
theorem triple_executeStep_done {t : LocalTree} {g : OverwriteGuard} {f : DiskFile} {content : Bytes}
    (hio : ∀ log op, env.ioError log op = none) (hs : LostReply env.sha256 s) (hv : Shows cfg s v)
    (hhere : s.here = some f) (hfetch : ∀ log, env.provider.downloadFile log s.there.id = .ok content)
    (hdirs : ∀ q, q <+: s.parts.dropLast → t.isDir q = true) (hdir : t.isDir s.parts = false)
    (hfile : t.file? s.parts = some f) (hknown : sha256Hex env f.bytes ∈ g.synced) (run : Text) :
    Triple (Intact t g) (executeStep env cfg v run ⟨s.path, .download, true, some s.entry⟩)
      (fun _ w => .disk (.write s.parts) true ∈ w.log) (fun w => .disk (.write s.parts) true ∈ w.log) := by
  have hB : Beyond Set.univ fun w : Engine => .disk (.write s.parts) true ∈ w.log := loose_written.beyond
  have hparts : cloudPathComponents s.there.path = .ok s.parts := by rw [hs.listedAt, hs.components]
  have hdown := triple_downloadUnless_done (g := g) hio hparts hs.parts_ne_nil hfetch hdirs hdir hfile hknown
  have hcounted : Triple (Intact t g) (downloadCounted env s.there none)
      (fun _ w => .disk (.write s.parts) true ∈ w.log) (fun w => .disk (.write s.parts) true ∈ w.log) := by
    unfold downloadCounted
    refine Triple.bind ((triple_attempt hdown).mono (fun _ h => h) (fun _ _ h => h) fun _ => False.elim) fun o => ?_
    cases o with
    | error e => exact fun _ h => h.elim
    | ok o =>
      cases o with
      | none => exact Keeps.pure _
      | some identity => exact Keeps.bind (keeps_record hB _) fun _ => Keeps.pure _
  have htake : Triple (Intact t g) (takeStep env cfg v run ⟨s.path, .download, true, some s.entry⟩)
      (fun _ w => .disk (.write s.parts) true ∈ w.log) (fun w => .disk (.write s.parts) true ∈ w.log) := by
    unfold takeStep
    rw [hv.here, hv.there, hhere]
    dsimp only [Option.map_some]
    unfold stepDownload
    rw [hv.here, hhere]
    dsimp only [Option.map_some, Option.isSome_some]
    refine Triple.bind hcounted fun o => ?_
    split
    · refine Keeps.bind (hB.modify fun _ => ⟨rfl, rfl, rfl, rfl, fun _ _ => rfl, fun _ _ => rfl⟩) fun _ => ?_
      exact Keeps.pure _
    · exact Keeps.pure _
  refine Finds.bind (Finds.modify fun _ => ⟨rfl, rfl⟩) ?_
  exact Triple.bind htake fun recorded => keeps_recordStep hB (Set.mem_univ _) (Set.mem_univ _) recorded

section
variable {f : DiskFile} {l : LocalIdentity}

/-- The overwrite guard knows the local content. -/
theorem known_plain (sha256 : Bytes → Bytes) (s : Situation) (f : DiskFile) (run : Text) :
    sha256Hex (plainEnv sha256 s) f.bytes ∈ (OverwriteGuard.of (plainManifest sha256 s f) run).synced := by
  unfold OverwriteGuard.of syncedContents plainManifest
  refine List.mem_filterMap.mpr ⟨_, AList.mem_lookup_iff.mp (AList.lookup_insert _), rfl⟩

/-- The content sent is written over the local file. -/
theorem written_plain (hs : LostReply sha256 s) (hhere : s.here = some f) (hl : s.entry.localId = some l)
    (hsame : CountsUnchanged sha256 l f) : .disk (.write s.parts) true ∈ (plainRun sha256 s f).finish.log := by
  obtain ⟨scan, hscan⟩ := scanEntries_plain (plainTree s f) ⟨∅, []⟩ (plainTree s f).entries
  obtain ⟨hfound, hlarge⟩ := scan_plain hs (fun _ _ => rfl) hscan
  rw [finish_plain hscan]
  generalize hview : viewOf (plainEnv sha256 s) plainConfig .upload [s.there] scan (some (plainManifest sha256 s f)) = v
  have hv : Shows plainConfig s v := hview ▸ shows_plain hs hhere hfound hlarge
  have hfile : (plainTree s f).file? s.parts = some f := by rw [file?_plainTree, if_pos rfl]
  have hnone : ∀ q, q ≠ s.path → v.files.lookup q = none ∧ v.cloud.lookup q = none := by
    intro q hq
    rw [← hview]
    refine ⟨Option.not_isSome_iff_eq_none.mp fun hsome => ?_, cloud_plain_other hs hq⟩
    obtain ⟨l, hl⟩ := Option.isSome_iff_exists.mp hsome
    have hretained := lineUp_files hl
    rw [lookup_retain, scan_plain_other hs hscan hq] at hretained
    cases hretained
  let g : OverwriteGuard := .of (plainManifest sha256 s f) (editEnv.runText 10)
  have hio : ∀ log op, (plainEnv sha256 s).ioError log op = none := fun _ _ => rfl
  have hother : ∀ q, q ≠ s.path → Finds (plainTree s f) g (planPath (plainEnv sha256 s) plainConfig v q) none :=
    fun q hq => finds_planPath_none visible_plain (hnone q hq).1 (hnone q hq).2
  have hown := finds_planPath_unchanged (g := g) hio hs hv rfl (visible_plain_path hs) hhere hfile hl hsame
  have hplan := finds_planPaths_one (View.mem_paths_of_entry hv.entry) hother hown
  have hstep := triple_executeStep_done (g := g) hio hs hv hhere (fun _ => rfl) (fun q => isDir_plainTree_above hs f)
    (isDir_plainTree_file hs f) hfile (known_plain sha256 s f _) (editEnv.runText 10)
  have hrun : Triple (Intact (plainTree s f) g) (reconcileView (plainEnv sha256 s) plainConfig v (editEnv.runText 10))
      (fun _ w => .disk (.write s.parts) true ∈ w.log) (fun w => .disk (.write s.parts) true ∈ w.log) := by
    have hB : Beyond Set.univ fun w : Engine => .disk (.write s.parts) true ∈ w.log := loose_written.beyond
    unfold reconcileView
    refine Finds.bind hplan ?_
    refine Triple.bind (Triple.bind hstep fun _ => Keeps.pure _) fun _ => ?_
    refine Triple.bind (keeps_finishQuarantine hB (loose_written.pruneQuarantine _ _)) fun _ => ?_
    refine Triple.bind (keeps_reportPaths hB v _) fun _ => ?_
    refine Triple.bind (keeps_finishState filesOnly_written loose_written.saveManifest) fun _ => ?_
    exact Triple.bind (keeps_record hB _) fun _ => Triple.bind Keeps.get fun _ => Keeps.pure _
  exact hrun.final ⟨rfl, rfl⟩

theorem meets_plain (hs : LostReply sha256 s) (hhere : s.here = some f) : Meets sha256 s (plainRun sha256 s f) where
  direction := rfl
  strategy := rfl
  hashed := rfl
  visible := visible_plain_path hs
  layout := by
    obtain ⟨scan, hscan⟩ := scanEntries_plain (plainTree s f) ⟨∅, []⟩ (plainTree s f).entries
    rw [finish_plain hscan]
    refine (keeps_layoutStays _ _).final fun e he => ?_
    simp only [plainEngine, List.mem_cons, List.not_mem_nil, or_false] at he
    rcases he with rfl | rfl | rfl | rfl <;> rfl
  onDisk := ((file?_plainTree s f s.parts).trans (if_pos rfl)).trans hhere.symm
  holds := fun _ _ h => (Except.ok.inj h).symm
  shows := by
    intro listing scan run w h
    obtain ⟨log, hlisting⟩ := h.listed
    obtain rfl := Except.ok.inj hlisting
    obtain ⟨hfound, hlarge⟩ := scan_plain hs h.untouched.files h.scanned
    rw [startManifest_plain]
    exact shows_plain hs hhere hfound hlarge

end

/-- A sync that meets the situation writes nothing at the path if and only if the local file is gone or does
not count as the recorded one. -/
theorem lost_reply_iff (sha256 : Bytes → Bytes) (s : Situation) (hs : LostReply sha256 s) :
    (∀ r, Meets sha256 s r → Unwritten s.parts r.finish.log) ↔
      ∀ f ∈ s.here, ∀ l ∈ s.entry.localId, ¬CountsUnchanged sha256 l f := by
  constructor
  · intro h f hhere l hl hsame
    exact h _ (meets_plain hs hhere) (written_plain hs hhere hl hsame)
  · exact fun hnot r hr => unwritten_of_changed hs hr hnot

/-- The upload of `2` failed and was stored; the last sync recorded `1`. Since then the local file was written. -/
def storedUpload (here : DiskFile) : Situation where
  path := "/a.txt".toList
  parts := ["a.txt".toList]
  entry := ⟨some ⟨"id".toList, some "old".toList, 1, 5⟩, some ⟨1, some 5000000000, some (sha256Hex editEnv [1])⟩,
    some ⟨1, some 6000000000, some (sha256Hex editEnv [2])⟩⟩
  here := some here
  there := ⟨"id".toList, "a.txt".toList, none, 1, 7, some "new".toList, none, false, "/a.txt".toList, false⟩
  content := [2]

theorem lostReply_storedUpload {bytes : Bytes} (h : bytes ≠ [2]) :
    LostReply Sha256.digest (storedUpload ⟨bytes, some 9000000000⟩) := by
  have hcomponents : cloudPathComponents "/a.txt".toList = .ok ["a.txt".toList] := by decide +kernel
  have hlistable : CloudPaths.listable ["a.txt".toList] = true := by decide
  have hfree : isReserved "/a.txt".toList = false := by decide
  have hchanged : remoteChanged (some (storedUpload ⟨[], none⟩).there) (storedUpload ⟨[], none⟩).entry.remote = true := by
    decide
  refine ⟨rfl, hcomponents, hlistable, hfree, rfl, rfl, ⟨_, rfl⟩, rfl, rfl, hchanged, ?_, ?_⟩
  · rintro f ⟨⟩
    have holder : (7 : Int) < 9000000000 / 1000000000 := by decide
    exact holder
  · rintro f ⟨⟩
    exact h

/-- A new edit is not overwritten. -/
theorem edit_is_not_overwritten :
    Unwritten ["a.txt".toList]
      (plainRun Sha256.digest (storedUpload ⟨[3, 3], some 9000000000⟩) ⟨[3, 3], some 9000000000⟩).finish.log := by
  have hs : LostReply Sha256.digest (storedUpload ⟨[3, 3], some 9000000000⟩) := lostReply_storedUpload (by decide)
  refine (lost_reply_iff Sha256.digest _ hs).mpr ?_ _ (meets_plain hs rfl)
  rintro f ⟨⟩ l ⟨⟩ hsame
  cases hsame.1

/-- Old content that was put back is overwritten with the content sent. -/
theorem put_back_content_is_overwritten :
    (¬∀ sha256 s r, LostReply sha256 s → Meets sha256 s r → Unwritten s.parts r.finish.log) ∧
      ((plainRun Sha256.digest (storedUpload ⟨[1], some 9000000000⟩) ⟨[1], some 9000000000⟩).finish.tree.file?
        ["a.txt".toList]).map (·.bytes) = some [2] := by
  have hs : LostReply Sha256.digest (storedUpload ⟨[1], some 9000000000⟩) := lostReply_storedUpload (by decide)
  refine ⟨fun h => ?_, by decide +kernel⟩
  exact h Sha256.digest _ _ hs (meets_plain hs rfl) (written_plain hs rfl rfl ⟨rfl, Or.inr rfl⟩)

end LostUploads
