import RemarkableServer.SyncKeepsContent
import RemarkableServer.SyncPaths

/-!
# A full sync never brings a deleted file back

The manifest remembers that a file was deleted on one side for as long as the
other side stays as it was: a remote file that was deleted here is not downloaded
again, and a local file that was deleted remotely is not uploaded again. Runs of
the sync follow each other, each with its own settings, provider answers and
local tree; the manifest one run leaves is the one the next starts from.
-/
namespace DeletionSafety

open RustText Integrations CloudPaths CloudSync Effect FileTree
open SyncKeepsContent (editEnv editConfig editManifest editEngine)

/-- A full sync, started at a state of the engine and the local tree. -/
structure Run where
  env : Env
  cfg : SyncConfig
  localOnly : LocalOnly
  start : Engine

namespace Run

def finish (r : Run) : Engine := final (reconcile r.env r.cfg r.localOnly) r.start

/-- The manifest the run starts from. -/
def before (r : Run) : Option SyncManifest := startManifest r.env r.cfg r.start

/-- The manifest the run leaves: its own, or the old one where it breaks off. -/
def after (r : Run) : Option SyncManifest := r.finish.state.manifest.or r.before

end Run

/-- The next run starts from the manifest the run before left. -/
def Follows (a b : Run) : Prop := b.before = a.after

/-- A run that deals with the path and moves no old layout. -/
structure Deals (P : Text) (r : Run) : Prop where
  tellsCase : r.env.provider.ignoresCase = false
  visible : r.cfg.visible P = some true
  layout : ∀ e ∈ r.finish.log, movesLayout e = false

/-- There is no local file at the path, and a listing that lists anything has the remote file there. -/
structure DeletedHere (P : Text) (remote : RemoteIdentity) (r : Run) : Prop extends Deals P r where
  absent : ∀ q, pathText q = P → r.start.tree.file? q = none
  listed : ∀ log listing, r.env.provider.listFiles log r.cfg.cloudFolder = .ok listing → listing ≠ [] →
    ∃ f, (cloudMap listing).lookup P = some f ∧ f.isFolder = false ∧ .of f = remote

variable {P : Text} {remote : RemoteIdentity} {r : Run}

theorem Deals.not_reserved (h : Deals P r) : isReserved P = false := by
  have hv := h.visible
  unfold SyncConfig.visible at hv
  split at hv
  · cases hv
  · split at hv
    · cases hv
    · split at hv
      · cases hv
      · cases hv
      · simpa using hv

theorem Deals.not_moved (h : Deals P r) : ¬LayoutMoved r.finish.log := by
  rintro ⟨e, he, hm⟩
  rw [h.layout e he] at hm
  cases hm

/-! ## Deleted here -/

/-- The entry still has the remote file. -/
def Remembers (P : Text) (remote : RemoteIdentity) (log : Log) (o : Option ManifestEntry) : Prop :=
  NoStep P log ∧ ∃ e, o = some e ∧ e.remote = some remote

theorem ofSteps_remembers (o : Option ManifestEntry) : OfSteps P (Remembers P remote · o) :=
  fun _ _ he h => ⟨ofSteps_noStep _ _ he h.1, h.2⟩

theorem same_self (a : RemoteIdentity) : a.same a = true := by
  unfold RemoteIdentity.same
  cases a.contentHash with
  | none => simp
  | some x => simp [eqIgnoreAsciiCase]

/-- With the remote file as it was and no local one, no step is planned, and the entry keeps it. -/
theorem knownStep_deletedHere (cfg : SyncConfig) (localOnly : LocalOnly) (listedNothing : Bool)
    {entry : ManifestEntry} {f : CloudFile} (hentry : entry.remote = some remote) (hf : .of f = remote) :
    ∃ e : ManifestEntry, e.remote = some remote ∧
      (knownStep cfg listedNothing localOnly entry entry.localId.isSome (remoteChanged (some f) entry.remote) none
        (some f) = .store e ∨
      knownStep cfg listedNothing localOnly entry entry.localId.isSome (remoteChanged (some f) entry.remote) none
        (some f) = .deletedHere e) := by
  have hsame : remoteChanged (some f) entry.remote = false := by
    rw [hentry]
    simp [remoteChanged, RemoteIdentity.matches, hf, same_self]
  rw [hsame]
  refine ⟨⟨some (.of f), none, none⟩, congrArg some hf, ?_⟩
  cases entry.localId with
  | none => exact Or.inl rfl
  | some l => exact Or.inr rfl

/-- The file of a sync path other than the engine's own is where it was when the run started. -/
theorem file?_prepared (h : Deals P r) {listing : List CloudFile} {scan : Scan} {run : Text} {w : Engine}
    (hw : Prepared r.env r.cfg r.start listing scan run w) {q : List Text} (hq : pathText q = P) :
    w.tree.file? q = r.start.tree.file? q := by
  refine hw.untouched.files q ?_
  rintro rfl
  have hres := isReserved_of_reservedTop (p := [layoutMarker]) ⟨layoutMarker, [], rfl, List.mem_cons_self⟩
  rw [hq, h.not_reserved] at hres
  cases hres

theorem scan_deletedHere (h : DeletedHere P remote r) {listing : List CloudFile} {scan : Scan} {run : Text}
    {w : Engine} (hw : Prepared r.env r.cfg r.start listing scan run w) :
    scan.files.lookup P = none ∧ P ∉ scan.tooLarge := by
  constructor
  · rw [← Option.not_isSome_iff_eq_none, Option.isSome_iff_exists]
    rintro ⟨l, hl⟩
    obtain hempty | ⟨q, f, hf, -, -, hq, -⟩ := scanEntries_lists hw.scanned hl
    · cases hempty
    · rw [file?_prepared h.toDeals hw hq.symm, h.absent q hq.symm] at hf
      cases hf
  · intro hl
    obtain hempty | ⟨q, f, hf, -, hq⟩ := scanEntries_tooLarge hw.scanned hl
    · cases hempty
    · rw [file?_prepared h.toDeals hw hq.symm, h.absent q hq.symm] at hf
      cases hf

/-- Nothing is recorded for the path yet. -/
def Open (P : Text) (w : Engine) : Prop := w.state.manifest = none ∧ NoStep P w.log

theorem loose_open : Loose {P}ᶜ (Open P) :=
  loose_of_steps (fun _ _ _ he h => ⟨h.1, ofSteps_noStep _ _ he h.2⟩)
    fun _ _ hs h => ⟨hs.stored.trans h.1, hs.log ▸ h.2⟩

theorem Open.leaves {X : Log → Option ManifestEntry → Prop} {w : Engine} (h : Open P w) : Leaves P X (NoStep P) w := by
  refine ⟨h.2, fun m hm => ?_⟩
  rw [h.1] at hm
  cases hm

/-- What a sync sees of the path: out of view, or in a listing of nothing, or the remote file as it was. -/
structure SeesDeletedHere (P : Text) (remote : RemoteIdentity) (cfg : SyncConfig) (v : View) : Prop where
  files : v.files.lookup P = none
  listed : v.outOfView.any (· == P) = true ∧ v.cloud.lookup P = none ∨
    v.outOfView.any (· == P) = false ∧ cfg.visible P = some true ∧
      (v.listed P = none ∧ v.listedNothing = true ∨ ∃ f, v.listed P = some f ∧ .of f = remote)

theorem sees_deletedHere (h : DeletedHere P remote r) {listing : List CloudFile} {scan : Scan} {run : Text}
    {w : Engine} (hw : Prepared r.env r.cfg r.start listing scan run w) :
    SeesDeletedHere P remote r.cfg (viewOf r.env r.cfg r.localOnly listing scan r.before) := by
  obtain ⟨hfiles, hlarge⟩ := scan_deletedHere h hw
  have hres := h.not_reserved
  refine ⟨by rw [viewOf_files h.tellsCase hres, hfiles, ite_self], ?_⟩
  rw [viewOf_outOfView h.tellsCase hres, View.listed, viewOf_cloud h.tellsCase hres, if_neg hlarge,
    decide_eq_false hlarge, Bool.false_or]
  by_cases hempty : listing = []
  · subst hempty
    exact Or.inr ⟨rfl, h.visible, Or.inl ⟨rfl, rfl⟩⟩
  · obtain ⟨log, hlog⟩ := hw.listed
    obtain ⟨f, hf, hfile, hid⟩ := h.listed log listing hlog hempty
    rw [hf]
    cases hbig : r.cfg.tooLarge f with
    | true => exact Or.inl ⟨by simp [hbig], by simp [hbig]⟩
    | false => exact Or.inr ⟨by simp [hbig], h.visible, Or.inr ⟨f, by simp [hbig, hfile], hid⟩⟩

/-- The plan has no step for the path, and the entry still has the remote file. -/
theorem plan_deletedHere (env : Env) {cfg : SyncConfig} {v : View} (h : SeesDeletedHere P remote cfg v)
    (hkept : v.keptUnder P = P) {entry : ManifestEntry} (hentry : v.base.bind (·.lookup P) = some entry)
    (hremote : entry.remote = some remote) :
    Triple (Open P) (planPath env cfg v P) (fun p w => p = none ∧ Recording P (Remembers P remote) w)
      (Leaves P (Remembers P remote) (NoStep P)) := by
  have hkeeps : ∀ e : ManifestEntry, e.remote = some remote → ∀ w, Open P w →
      Recording P (Remembers P remote) { w with manifest := w.manifest.insert P e } :=
    fun e he w hw => ⟨hw.1, hw.2, e, AList.lookup_insert _, he⟩
  rcases h.listed with ⟨hview, hcloud⟩ | ⟨hview, hvisible, hlisted⟩
  · rw [planPath_outOfView hview, hentry]
    unfold planUnknown
    rw [h.files, hcloud, hkept]
    exact fun w hw => ⟨rfl, hkeeps entry hremote w hw⟩
  · have hchanged : localChanged env none entry.localId = pure entry.localId.isSome := by
      cases entry.localId <;> rfl
    rw [planPath_known hview hvisible hentry, h.files, hchanged, pure_bind]
    rcases hlisted with ⟨hlisted, hnothing⟩ | ⟨f, hlisted, hid⟩
    · have hkeep : knownStep cfg true v.localOnly entry entry.localId.isSome (remoteChanged none entry.remote) none
          none = .keep := by
        simp [knownStep, hremote]
      rw [hlisted, hnothing, hkeep]
      unfold settle
      rw [hkept]
      exact fun w hw => ⟨rfl, hkeeps entry hremote w hw⟩
    · rw [hlisted]
      obtain ⟨e, he, hstore | hdeleted⟩ := knownStep_deletedHere cfg v.localOnly v.listedNothing hremote hid
      · rw [hstore]
        exact fun w hw => ⟨rfl, hkeeps e he w hw⟩
      · rw [hdeleted]
        exact fun w hw => ⟨rfl, hkeeps e he w hw⟩

/-- One run takes no step for the path and leaves an entry with the remote file. -/
theorem run_deletedHere (h : DeletedHere P remote r) {m : SyncManifest} {entry : ManifestEntry}
    (hbefore : r.before = some m) (hentry : m.lookup P = some entry) (hremote : entry.remote = some remote) :
    Leaves P (Remembers P remote) (NoStep P) r.finish := by
  have hX : ∀ o, OfSteps P (Remembers P remote · o) := ofSteps_remembers
  have hXL : ∀ log o, Remembers P remote log o → NoStep P log := fun _ _ h => h.1
  have hends : Ends r.env r.cfg r.localOnly r.start r.finish := reconcile_ends r.env r.cfg r.localOnly r.start
  cases hends with
  | moved hm => exact absurd hm h.not_moved
  | early hu hm =>
    refine ⟨hu.noStep, fun m' hm' => ⟨hu.noStep, entry, ?_, hremote⟩⟩
    have heq : some m' = some m := hm'.symm.trans (hm.trans hbefore)
    cases heq
    exact hentry
  | steps listing scan run w₁ hw heq =>
    rw [heq]
    have hkept : ∀ q, (viewOf r.env r.cfg r.localOnly listing scan r.before).keptUnder q = q :=
      viewOf_keptUnder h.tellsCase
    have hbase : (viewOf r.env r.cfg r.localOnly listing scan r.before).base.bind (·.lookup P) = some entry := by
      rw [viewOf_base h.tellsCase, hbefore]
      exact hentry
    have hspec := pathSpec_idle hkept loose_open.beyond (fun w hw => hw.leaves) (loose_recording hX) (fun w hw => hw.leaves hXL)
      (plan_deletedHere r.env (sees_deletedHere h hw) (hkept P) hbase hremote)
      fun hP => absurd (View.mem_paths_of_entry hbase) hP
    exact (hspec.triple_reconcileView hX hXL run).final ⟨hw.stored, hw.untouched.noStep⟩

/-- In no run of the sequence is there a step for the path. -/
theorem runs_deletedHere {first : Run} {rest : List Run} (hchain : List.IsChain Follows (first :: rest))
    (h : ∀ r ∈ first :: rest, DeletedHere P remote r) {m : SyncManifest} {entry : ManifestEntry}
    (hbefore : first.before = some m) (hentry : m.lookup P = some entry) (hremote : entry.remote = some remote) :
    ∀ r ∈ first :: rest, NoStep P r.finish.log := by
  induction rest generalizing first m entry with
  | nil =>
    intro r hr
    rw [List.mem_singleton.mp hr]
    exact (run_deletedHere (h first List.mem_cons_self) hbefore hentry hremote).1
  | cons next rest ih =>
    have hfirst := run_deletedHere (h first List.mem_cons_self) hbefore hentry hremote
    obtain ⟨hnext, hchain⟩ := List.isChain_cons_cons.mp hchain
    have hafter : ∃ m' e', next.before = some m' ∧ m'.lookup P = some e' ∧ e'.remote = some remote := by
      rw [hnext, Run.after]
      cases hm : first.finish.state.manifest with
      | none => exact ⟨m, entry, hbefore, hentry, hremote⟩
      | some m' =>
        obtain ⟨-, e', he', hr'⟩ := hfirst.2 m' hm
        exact ⟨m', e', rfl, he', hr'⟩
    obtain ⟨m', e', hm', he', hr'⟩ := hafter
    intro r hr
    rcases List.mem_cons.mp hr with rfl | hr
    · exact hfirst.1
    · exact ih hchain (fun r hr => h r (List.mem_cons_of_mem first hr)) hm' he' hr' r hr

/-! ## Deleted remotely -/

/-- The local file, if there is one, has the content that `l` recorded, and no listing has a file there. -/
structure DeletedThere (P : Text) (c : Bytes) (hash : Text) (l : LocalIdentity) (r : Run) : Prop
    extends Deals P r where
  content : ∀ q f, pathText q = P → r.start.tree.file? q = some f →
    f.bytes = c ∧ (l.sha256 = some hash ∨ f.mtimeNs.isSome = true ∧ f.mtimeNs = l.mtimeNs)
  hashed : sha256Hex r.env c = hash
  readable : ∀ log q, pathText q = P → r.env.ioError log (.read q) = none
  names : ∀ q f, r.start.tree.file? q = some f → ∀ name ∈ q, '/' ∉ name
  listed : ∀ log listing, r.env.provider.listFiles log r.cfg.cloudFolder = .ok listing →
    ∀ f, (cloudMap listing).lookup P = some f → f.isFolder = true

/-- There is no local file at the path when the run starts. -/
def Absent (P : Text) (r : Run) : Prop := ∀ q, pathText q = P → r.start.tree.file? q = none

/-- The run moved the file at the path aside. -/
def Moved (P : Text) (log : Log) : Prop := ∃ q dst, pathText q = P ∧ .disk (.move q dst) true ∈ log

/-- A file at the path is the one that was there when the run before started: it was neither put there
since nor moved aside by that run. -/
def InPlace (P : Text) (a b : Run) : Prop := Absent P b ∨ ¬Absent P a ∧ ¬Moved P a.finish.log

/-- The entry still has a remote file, and the content of the local one. -/
def Holds (c : Bytes) (hash : Text) (l : LocalIdentity) (e : ManifestEntry) : Prop :=
  e.remote.isSome = true ∧ ∃ l', e.localId = some l' ∧ l'.size = c.length ∧ l'.sha256 = l.sha256 ∧
    (l.sha256 = some hash ∨ l'.mtimeNs = l.mtimeNs)

/-- The only steps for the path move its file aside. -/
def OnlyAside (P : Text) (log : Log) : Prop := ∀ s, .step P s ∈ log → s = .quarantine

/-- The entry is kept, or it is gone and so is the file. -/
def KeptOrGone (P : Text) (c : Bytes) (hash : Text) (l : LocalIdentity) (r : Run) (log : Log)
    (o : Option ManifestEntry) : Prop :=
  OnlyAside P log ∧ ((∃ e, o = some e ∧ Holds c hash l e) ∨ o = none ∧ (Absent P r ∨ Moved P log))

variable {c : Bytes} {hash : Text} {l : LocalIdentity}

theorem ofSteps_onlyAside : OfSteps P (OnlyAside P) := by
  intro log e he h s hs
  rcases List.mem_cons.mp hs with hs | hs
  · exact absurd hs.symm (he s)
  · exact h s hs

theorem moved_cons {log : Log} (e : Event) (h : Moved P log) : Moved P (e :: log) := by
  obtain ⟨q, dst, hq, h⟩ := h
  exact ⟨q, dst, hq, List.mem_cons_of_mem e h⟩

theorem ofSteps_keptOrGone (o : Option ManifestEntry) : OfSteps P (KeptOrGone P c hash l r · o) := by
  intro log e he h
  refine ⟨ofSteps_onlyAside log e he h.1, h.2.imp_right fun h => ⟨h.1, ?_⟩⟩
  exact h.2.imp_right (moved_cons e)

/-- Nothing is done for the path yet, and its files are as they were when the run started. -/
def Waiting (P : Text) (r : Run) (w : Engine) : Prop :=
  Open P w ∧ w.manifest.lookup P = none ∧ ∀ q, pathText q = P → w.tree.file? q = r.start.tree.file? q

theorem beyond_waiting : Beyond {P}ᶜ (Waiting P r) where
  stable := fun w e t he h ht => ⟨loose_open.beyond.stable w e t he h.1 ht, h.2.1, fun q hq => (ht q).trans (h.2.2 q hq)⟩
  fields := fun w w' hs h => ⟨loose_open.fields w w' hs h.1, (hs.manifest P (by simp)).trans h.2.1,
    fun q hq => (congrArg (·.file? q) hs.tree).trans (h.2.2 q hq)⟩

/-- A file with the recorded content counts as unchanged. -/
theorem triple_matches (h : DeletedThere P c hash l r) {q : List Text} {f : DiskFile} {l' : LocalIdentity}
    (hq : pathText q = P) (hf : r.start.tree.file? q = some f) (hsize : l'.size = c.length)
    (hsha : l'.sha256 = l.sha256) (htime : l.sha256 = some hash ∨ l'.mtimeNs = l.mtimeNs) {E : Engine → Prop} :
    Triple (Waiting P r) ((LocalFile.of q f).matches r.env l') (fun b w => Waiting P r w ∧ b = true) E := by
  obtain ⟨hbytes, htouched⟩ := h.content q f hq hf
  unfold LocalFile.matches
  have hsame : ((LocalFile.of q f).size != l'.size) = false := by
    rw [hsize, ← hbytes]
    exact bne_self_eq_false _
  rw [hsame, if_neg Bool.false_ne_true]
  split
  · exact fun w hw => ⟨hw, rfl⟩
  next hmtime =>
    have hrecorded : l.sha256 = some hash := by
      rcases htouched with hs | ⟨hsome, hm⟩
      · exact hs
      · refine htime.resolve_right fun hl => hmtime ?_
        have hof : (LocalFile.of q f).mtimeNs = f.mtimeNs := rfl
        rw [hof, hsome, hm, hl, Bool.true_and]
        exact beq_self_eq_true _
    rw [hsha, hrecorded]
    dsimp only
    refine Triple.bind (R := fun content w => Waiting P r w ∧ content = .ok c) ?_ fun content => ?_
    · intro w hw
      have hread := attempt_readFile (h.readable w.log q hq) ((hw.2.2 q hq).trans hf)
      have hpath : (LocalFile.of q f).path = q := rfl
      rw [hpath, hread, hbytes]
      exact ⟨beyond_waiting.stable.log w rfl hw, rfl⟩
    · rintro w ⟨hw, rfl⟩
      exact ⟨hw, by rw [h.hashed]; exact beq_self_eq_true _⟩

/-- What a sync sees of the path: no remote file, and locally one that is out of view, or none, or the
file as it was. -/
structure SeesDeletedThere (P : Text) (r : Run) (v : View) : Prop where
  listed : v.listed P = none
  files : v.files.lookup P = none ∧ v.cloud.lookup P = none ∧ v.outOfView.any (· == P) = true ∨
    v.files.lookup P = none ∧ Absent P r ∧ v.outOfView.any (· == P) = false ∨
    v.outOfView.any (· == P) = false ∧ ∃ q f, pathText q = P ∧ r.start.tree.file? q = some f ∧
      v.files.lookup P = some (.of q f)

/-- The scan comes to a file whose sync path is visible. -/
theorem reaches_of_visible {cfg : SyncConfig} {q : List Text} (hvisible : cfg.visible (pathText q) = some true)
    (hnames : ∀ name ∈ q, '/' ∉ name) : cfg.reaches [] q = some true := by
  unfold SyncConfig.visible at hvisible
  split at hvisible
  · cases hvisible
  next parts hparts =>
    rw [cloudPathComponents_pathText hnames hparts] at hvisible
    split at hvisible
    · cases hvisible
    · split at hvisible
      · cases hvisible
      · cases hvisible
      next hreach => exact hreach

/-- The scan misses no file at the path. -/
theorem absent_of_scan (h : DeletedThere P c hash l r) {listing : List CloudFile} {scan : Scan} {run : Text}
    {w : Engine} (hw : Prepared r.env r.cfg r.start listing scan run w) (hfiles : scan.files.lookup P = none)
    (hlarge : P ∉ scan.tooLarge) : Absent P r := by
  intro q hq
  rw [← Option.not_isSome_iff_eq_none, Option.isSome_iff_exists]
  rintro ⟨f, hf⟩
  have hreach : r.cfg.reaches [] q = some true := reaches_of_visible (hq ▸ h.visible) (h.names q f hf)
  have hf' : w.tree.file? q = some f := (file?_prepared h.toDeals hw hq).trans hf
  have hentry : q ∈ w.tree.entries := by
    refine List.mem_append_left _ (AList.mem_keys.mp (AList.lookup_isSome.mp ?_))
    exact Option.isSome_of_eq_some hf'
  rcases scanEntries_finds hw.scanned hentry hf' hreach with hl | hl
  · rw [hq, hfiles] at hl
    cases hl
  · exact hlarge (hq ▸ hl)

theorem sees_deletedThere (h : DeletedThere P c hash l r) {listing : List CloudFile} {scan : Scan} {run : Text}
    {w : Engine} (hw : Prepared r.env r.cfg r.start listing scan run w) :
    SeesDeletedThere P r (viewOf r.env r.cfg r.localOnly listing scan r.before) := by
  have hres := h.not_reserved
  obtain ⟨log, hlog⟩ := hw.listed
  have hfolder := h.listed log listing hlog
  have hsmall : ((cloudMap listing).lookup P).any r.cfg.tooLarge = false := by
    cases hf : (cloudMap listing).lookup P with
    | none => rfl
    | some f => simp [SyncConfig.tooLarge, hfolder f hf]
  have hlisted : (viewOf r.env r.cfg r.localOnly listing scan r.before).listed P = none := by
    rw [View.listed, viewOf_cloud h.tellsCase hres]
    split
    · rfl
    · cases hf : (cloudMap listing).lookup P with
      | none => rfl
      | some f => simp [Option.filter_some, hfolder f hf]
  refine ⟨hlisted, ?_⟩
  rw [viewOf_files h.tellsCase hres, viewOf_outOfView h.tellsCase hres, viewOf_cloud h.tellsCase hres, hsmall,
    Bool.or_false, if_neg Bool.false_ne_true]
  cases hl : scan.files.lookup P with
  | none =>
    by_cases hlarge : P ∈ scan.tooLarge
    · exact Or.inl ⟨rfl, if_pos hlarge, decide_eq_true hlarge⟩
    · exact Or.inr (Or.inl ⟨rfl, absent_of_scan h hw hl hlarge, decide_eq_false hlarge⟩)
  | some found =>
    obtain hempty | ⟨q, f, hf, -, hsize, hq, rfl⟩ := scanEntries_lists hw.scanned hl
    · cases hempty
    · rw [file?_prepared h.toDeals hw hq.symm] at hf
      refine Or.inr (Or.inr ⟨decide_eq_false fun hlarge => ?_, q, f, hq.symm, hf, rfl⟩)
      obtain hempty | ⟨q', f', hf', hsize', hq'⟩ := scanEntries_tooLarge hw.scanned hlarge
      · cases hempty
      · rw [file?_prepared h.toDeals hw hq'.symm] at hf'
        rw [(h.content q' f' hq'.symm hf').1, ← (h.content q f hq.symm hf).1, hsize] at hsize'
        cases hsize'

/-- After the planning: nothing is to be done for the path, or its file is to be moved aside. -/
def AsidePlanned (P : Text) (c : Bytes) (hash : Text) (l : LocalIdentity) (r : Run) (v : View) :
    Option Planned → Engine → Prop
  | none => Recording P (KeptOrGone P c hash l r)
  | some p => fun w => (p.step = .quarantine ∧ p.track = true ∧ (∃ e, p.old = some e ∧ Holds c hash l e) ∧
      ∃ q f, pathText q = P ∧ v.files.lookup P = some (.of q f)) ∧ Open P w ∧ w.manifest.lookup P = none

theorem onlyAside_of_noStep {log : Log} (h : NoStep P log) : OnlyAside P log := fun s hs => absurd hs (h s)

theorem Waiting.recording {w : Engine} (h : Waiting P r w) {e : ManifestEntry} (he : Holds c hash l e) :
    Recording P (KeptOrGone P c hash l r) { w with manifest := w.manifest.insert P e } :=
  ⟨h.1.1, onlyAside_of_noStep h.1.2, Or.inl ⟨e, AList.lookup_insert _, he⟩⟩

/-- Without a remote file, a local file as it was is moved aside at most. -/
theorem plan_deletedThere (h : DeletedThere P c hash l r) {v : View} (hv : SeesDeletedThere P r v)
    (hkept : v.keptUnder P = P) {entry : ManifestEntry} (hentry : v.base.bind (·.lookup P) = some entry)
    (hholds : Holds c hash l entry) :
    Triple (Waiting P r) (planPath r.env r.cfg v P) (AsidePlanned P c hash l r v)
      (Leaves P (KeptOrGone P c hash l r) (OnlyAside P)) := by
  obtain ⟨hremote, l', hl', hsize, hsha, htime⟩ := hholds
  have hholds : Holds c hash l entry := ⟨hremote, l', hl', hsize, hsha, htime⟩
  rcases hv.files with ⟨hfiles, hcloud, hview⟩ | ⟨hfiles, habsent, hview⟩ | ⟨hview, q, f, hq, hf, hfiles⟩
  · rw [planPath_outOfView hview, hentry]
    unfold planUnknown
    rw [hfiles, hcloud, hkept]
    exact fun w hw => hw.recording hholds
  · rw [planPath_known hview h.visible hentry, hfiles, hv.listed, hl']
    have hdecision : knownStep r.cfg v.listedNothing v.localOnly entry true (remoteChanged none entry.remote) none none =
        if v.listedNothing then .keep else .drop := by
      simp [knownStep, hremote]
    refine Triple.bind (R := fun b w => Waiting P r w ∧ b = true) (fun w hw => ⟨hw, rfl⟩) fun b => ?_
    refine Triple.assume fun hb => ?_
    rw [hb, hdecision]
    split
    · unfold settle
      rw [hkept]
      exact fun w hw => hw.recording hholds
    · exact fun w hw => ⟨hw.1.1, onlyAside_of_noStep hw.1.2, Or.inr ⟨hw.2.1, Or.inl habsent⟩⟩
  · rw [planPath_known hview h.visible hentry, hfiles, hv.listed, hl']
    have hchanged : Triple (Waiting P r) (localChanged r.env (some (.of q f)) (some l'))
        (fun b w => Waiting P r w ∧ b = false) (Leaves P (KeptOrGone P c hash l r) (OnlyAside P)) := by
      refine Triple.bind (triple_matches h hq hf hsize hsha htime) fun b => ?_
      rintro w ⟨hw, rfl⟩
      exact ⟨hw, rfl⟩
    refine Triple.bind hchanged fun b => ?_
    refine Triple.assume fun hb => ?_
    have hgone : remoteChanged none entry.remote = true := by
      obtain ⟨remote, hr⟩ := Option.isSome_iff_exists.mp hremote
      rw [hr]
      rfl
    rw [hb, hgone]
    unfold knownStep
    dsimp only
    split
    · split
      · unfold settle
        rw [hkept]
        exact fun w hw => hw.recording hholds
      · exact fun w hw => ⟨⟨rfl, rfl, ⟨entry, rfl, hholds⟩, q, f, hq, hfiles⟩, hw.1, hw.2.1⟩
    · have hstored : Holds c hash l ⟨entry.remote, some ((LocalFile.of q f).identity (entry.localId.bind (·.sha256))),
          entry.sent⟩ := by
        obtain ⟨hbytes, htouched⟩ := h.content q f hq hf
        refine ⟨hremote, _, rfl, congrArg List.length hbytes, ?_, htouched.imp_right And.right⟩
        rw [hl']
        exact hsha
      exact fun w hw => hw.recording hstored

/-- While the step for the path is taken. -/
def Aside (P : Text) (w : Engine) : Prop :=
  w.state.manifest = none ∧ OnlyAside P w.log ∧ w.manifest.lookup P = none

theorem loose_aside : Loose {P}ᶜ (Aside P) := by
  refine loose_of_steps (fun _ _ _ he h => ⟨h.1, ofSteps_onlyAside _ _ he h.2.1, h.2.2⟩) fun _ _ hs h => ?_
  exact ⟨hs.stored.trans h.1, hs.log ▸ h.2.1, (hs.manifest P (by simp)).trans h.2.2⟩

theorem loose_asideMoved : Loose {P}ᶜ fun w => Aside P w ∧ Moved P w.log where
  event := fun w e t he h => ⟨loose_aside.event w e t he h.1, moved_cons e h.2⟩
  fields := fun w w' hs h => ⟨loose_aside.fields w w' hs h.1, hs.log ▸ h.2⟩

/-- The step moves the file aside, or leaves it with its entry. -/
theorem step_deletedThere {env : Env} {cfg : SyncConfig} {v : View} (hkept : v.keptUnder P = P) (run : Text)
    {p : Planned} (hp : p.path = P) :
    Triple (AsidePlanned P c hash l r v (some p)) (executeStep env cfg v run p)
      (fun _ => Recording P (KeptOrGone P c hash l r)) (Leaves P (KeptOrGone P c hash l r) (OnlyAside P)) := by
  refine Triple.assume_left fun ⟨hstep, htrack, ⟨e, hold, hholds⟩, q, f, hq, hfiles⟩ => ?_
  have hI : Loose {P}ᶜ (Aside P) := loose_aside
  have hJ : Loose {P}ᶜ fun w => Aside P w ∧ Moved P w.log := loose_asideMoved
  have hIE : ∀ w, Aside P w → Leaves P (KeptOrGone P c hash l r) (OnlyAside P) w := by
    refine fun w hw => ⟨hw.2.1, fun m hm => ?_⟩
    rw [hw.1] at hm
    cases hm
  unfold executeStep
  refine Triple.bind (R := fun _ => Aside P) ?_ fun _ => ?_
  · rintro w ⟨hw, hnone⟩
    refine ⟨hw.1, ?_, hnone⟩
    intro s hs
    rcases List.mem_cons.mp hs with hs | hs
    · cases hs
      exact hstep
    · exact absurd hs (hw.2 s)
  refine Triple.bind (R := fun recorded w => Aside P w ∧ (recorded = .movedAside ∧ Moved P w.log ∨ recorded = .nothing))
    ?_ fun recorded => ?_
  · unfold takeStep
    rw [hstep, hp, hfiles]
    dsimp only
    have hmove : Triple (Aside P) (quarantine env run P q) (fun _ w => Aside P w ∧ Moved P w.log) (Aside P) :=
      triple_quarantine hI.beyond.stable hJ.beyond.stable (fun _ h => h.1) run P q
        fun w _ dst hw _ _ _ => ⟨hI.disk w _ _ _ hw, q, dst, hq, List.mem_cons_self⟩
    refine Triple.bind ((triple_attempt hmove).mono (fun _ h => h) (fun _ _ h => h) hIE) fun result => ?_
    cases result with
    | ok dst =>
      refine Triple.bind ((keeps_record hJ.beyond _).mono (fun _ h => h) (fun _ _ h => h) fun w h => hIE w h.1) fun _ => ?_
      exact Triple.bind (R := fun _ w => Aside P w ∧ Moved P w.log) (fun _ h => h) fun _ w h => ⟨h.1, Or.inl ⟨rfl, h.2⟩⟩
    | error err =>
      refine Triple.bind ((keeps_addError hI.beyond _).mono (fun _ h => h) (fun _ _ h => h) hIE) fun _ => ?_
      exact fun w h => ⟨h, Or.inr rfl⟩
  · refine fun w hw => ?_
    obtain ⟨hw, ⟨rfl, hmoved⟩ | rfl⟩ := hw
    · exact ⟨hw.1, hw.2.1, Or.inr ⟨hw.2.2, Or.inr hmoved⟩⟩
    · have hrecord : recordStep v p .nothing w = .ok () { w with
          unconfirmed := w.unconfirmed.erase P
          manifest := w.manifest.insert P { e with sent := (w.unconfirmed.lookup P).or e.sent } } := by
        unfold recordStep
        rw [htrack, hold, hp, hkept]
        rfl
      rw [hrecord]
      exact ⟨hw.1, hw.2.1, Or.inl ⟨_, AList.lookup_insert _, hholds⟩⟩

theorem loose_asidePlanned {v : View} (p : Option Planned) : Loose {P}ᶜ (AsidePlanned P c hash l r v p) := by
  cases p with
  | none => exact loose_recording ofSteps_keptOrGone
  | some p =>
    refine ⟨fun w e t he h => ⟨h.1, loose_open.event w e t he h.2.1, h.2.2⟩, fun w w' hs h => ?_⟩
    exact ⟨h.1, loose_open.fields w w' hs h.2.1, (hs.manifest P (by simp)).trans h.2.2⟩

/-- What a run starts from: the entry, or neither an entry nor a file. -/
def StartsGone (P : Text) (c : Bytes) (hash : Text) (l : LocalIdentity) (r : Run) (m : SyncManifest) : Prop :=
  (∃ e, m.lookup P = some e ∧ Holds c hash l e) ∨ m.lookup P = none ∧ Absent P r

/-- Where there is neither an entry nor a file, nothing is planned. -/
theorem plan_absent {v : View} (hv : SeesDeletedThere P r v) (hvisible : r.cfg.visible P = some true)
    (hentry : v.base.bind (·.lookup P) = none) (habsent : Absent P r) :
    Triple (Waiting P r) (planPath r.env r.cfg v P) (AsidePlanned P c hash l r v)
      (Leaves P (KeptOrGone P c hash l r) (OnlyAside P)) := by
  have hfiles : v.files.lookup P = none := by
    rcases hv.files with ⟨h, -⟩ | ⟨h, -⟩ | ⟨-, q, f, hq, hf, -⟩
    · exact h
    · exact h
    · rw [habsent q hq] at hf
      cases hf
  have hstep : unknownStep r.cfg v.localOnly none (v.cloud.lookup P) = none := by
    have hlisted := hv.listed
    unfold View.listed at hlisted
    cases hc : v.cloud.lookup P with
    | none => rfl
    | some f =>
      rw [hc, Option.filter_eq_none_iff] at hlisted
      have hfolder := hlisted f rfl
      simp only [unknownStep]
      rw [if_neg]
      simpa using fun h => absurd h (by simpa using hfolder)
  have htracked : Triple (Waiting P r) (isTracked r.cfg v P) (fun _ => Waiting P r)
      (Leaves P (KeptOrGone P c hash l r) (OnlyAside P)) := by
    unfold isTracked
    rw [hvisible]
    split <;> exact fun _ h => h
  rw [planPath_unknown hentry, hfiles, hstep]
  refine Triple.bind htracked fun tracked => ?_
  exact fun w hw => ⟨hw.1.1, onlyAside_of_noStep hw.1.2, Or.inr ⟨hw.2.1, Or.inl habsent⟩⟩

/-- One run moves the file aside at most, and leaves the entry or neither an entry nor a file. -/
theorem run_deletedThere (h : DeletedThere P c hash l r) {m : SyncManifest} (hbefore : r.before = some m)
    (hstart : StartsGone P c hash l r m) : Leaves P (KeptOrGone P c hash l r) (OnlyAside P) r.finish := by
  have hX : ∀ o, OfSteps P (KeptOrGone P c hash l r · o) := ofSteps_keptOrGone
  have hXL : ∀ log o, KeptOrGone P c hash l r log o → OnlyAside P log := fun _ _ h => h.1
  have hends : Ends r.env r.cfg r.localOnly r.start r.finish := reconcile_ends r.env r.cfg r.localOnly r.start
  cases hends with
  | moved hm => exact absurd hm h.not_moved
  | early hu hm =>
    have haside : OnlyAside P r.finish.log := onlyAside_of_noStep hu.noStep
    refine ⟨haside, fun m' hm' => ⟨haside, ?_⟩⟩
    have heq : some m' = some m := hm'.symm.trans (hm.trans hbefore)
    cases heq
    exact hstart.imp_right fun h => ⟨h.1, Or.inl h.2⟩
  | steps listing scan run w₁ hw heq =>
    rw [heq]
    have hkept : ∀ q, (viewOf r.env r.cfg r.localOnly listing scan r.before).keptUnder q = q :=
      viewOf_keptUnder h.tellsCase
    have hbase : (viewOf r.env r.cfg r.localOnly listing scan r.before).base.bind (·.lookup P) = m.lookup P := by
      rw [viewOf_base h.tellsCase, hbefore]
      rfl
    have hsees := sees_deletedThere h hw
    have hspec : PathSpec r.env r.cfg (viewOf r.env r.cfg r.localOnly listing scan r.before) P (fun p => p.path == P)
        (Waiting P r) (Recording P (KeptOrGone P c hash l r)) (Leaves P (KeptOrGone P c hash l r) (OnlyAside P))
        (AsidePlanned P c hash l r (viewOf r.env r.cfg r.localOnly listing scan r.before)) := by
      refine pathSpec_of_loose hkept beyond_waiting (fun w hw => ?_) loose_asidePlanned (fun p w hw => ?_)
        (loose_recording hX) (fun w hw => hw.leaves hXL) ?_ (fun hP w hw => ?_)
        (fun run p hp => step_deletedThere (hkept P) run hp) fun w hw => hw
      · exact ⟨onlyAside_of_noStep hw.1.2, fun m hm => by rw [hw.1.1] at hm; cases hm⟩
      · cases p with
        | none => exact Recording.leaves hXL hw
        | some p => exact ⟨onlyAside_of_noStep hw.2.1.2, fun m hm => by rw [hw.2.1.1] at hm; cases hm⟩
      · rcases hstart with ⟨e, he, hholds⟩ | ⟨he, habsent⟩
        · exact plan_deletedThere h hsees (hkept P) (hbase.trans he) hholds
        · exact plan_absent hsees h.visible (hbase.trans he) habsent
      · rcases hstart with ⟨e, he, hholds⟩ | ⟨he, habsent⟩
        · exact absurd (View.mem_paths_of_entry (hbase.trans he)) hP
        · exact ⟨hw.1.1, onlyAside_of_noStep hw.1.2, Or.inr ⟨hw.2.1, Or.inl habsent⟩⟩
    refine (hspec.triple_reconcileView hX hXL run).final ⟨⟨hw.stored, hw.untouched.noStep⟩, ?_, ?_⟩
    · rw [hw.manifest]
      rfl
    · exact fun q hq => file?_prepared h.toDeals hw hq

/-- No run of the sequence does more for the path than move its file aside. -/
theorem runs_deletedThere {first : Run} {rest : List Run} (hchain : List.IsChain Follows (first :: rest))
    (hplace : List.IsChain (InPlace P) (first :: rest)) (h : ∀ r ∈ first :: rest, DeletedThere P c hash l r)
    {m : SyncManifest} (hbefore : first.before = some m) (hstart : StartsGone P c hash l first m) :
    ∀ r ∈ first :: rest, OnlyAside P r.finish.log := by
  induction rest generalizing first m with
  | nil =>
    intro r hr
    rw [List.mem_singleton.mp hr]
    exact (run_deletedThere (h first List.mem_cons_self) hbefore hstart).1
  | cons next rest ih =>
    have hfirst := run_deletedThere (h first List.mem_cons_self) hbefore hstart
    obtain ⟨hnext, hchain⟩ := List.isChain_cons_cons.mp hchain
    obtain ⟨hstays, hplace⟩ := List.isChain_cons_cons.mp hplace
    have hafter : ∃ m', next.before = some m' ∧ StartsGone P c hash l next m' := by
      rw [hnext, Run.after]
      cases hm : first.finish.state.manifest with
      | none =>
        refine ⟨m, hbefore, hstart.imp_right fun hgone => ⟨hgone.1, ?_⟩⟩
        exact hstays.resolve_right fun hthere => hthere.1 hgone.2
      | some m' =>
        refine ⟨m', rfl, (hfirst.2 m' hm).2.imp_right fun hgone => ⟨hgone.1, ?_⟩⟩
        exact hstays.resolve_right fun hthere => hgone.2.elim hthere.1 hthere.2
    obtain ⟨m', hm', hstart'⟩ := hafter
    intro r hr
    rcases List.mem_cons.mp hr with rfl | hr
    · exact hfirst.1
    · exact ih hchain hplace (fun r hr => h r (List.mem_cons_of_mem first hr)) hm' hstart' r hr

/-- For every sequence of full syncs, with any settings, listings and failures, in which each manifest
reaches the next run and the path is recorded on both sides at the start: as long as the file is
deleted here and the remote one is as it was, no run does anything for the path; and as long as no
listing has it and the local file keeps its content and its place, no run uploads it. -/
theorem deleted_file_stays_deleted (P : Text) (remote : RemoteIdentity) (l : LocalIdentity) (first : Run)
    (rest : List Run) (hchain : List.IsChain Follows (first :: rest)) (m : SyncManifest) (e : ManifestEntry)
    (hbefore : first.before = some m) (hentry : m.lookup P = some e) (hremote : e.remote = some remote)
    (hlocal : e.localId = some l) :
    ((∀ r ∈ first :: rest, DeletedHere P remote r) → ∀ r ∈ first :: rest, ∀ s, .step P s ∉ r.finish.log) ∧
    ∀ c hash, l.size = c.length → List.IsChain (InPlace P) (first :: rest) →
      (∀ r ∈ first :: rest, DeletedThere P c hash l r) →
        ∀ r ∈ first :: rest, ∀ s, .step P s ∈ r.finish.log → s = .quarantine := by
  constructor
  · exact fun h => runs_deletedHere hchain h hbefore hentry hremote
  · intro c hash hsize hplace h
    have hholds : Holds c hash l e := by
      refine ⟨Option.isSome_of_eq_some hremote, l, hlocal, hsize, rfl, Or.inr rfl⟩
    exact runs_deletedThere hchain hplace h hbefore (Or.inl ⟨e, hentry, hholds⟩)

/-- A provider that lists one file, with the content the last sync left. -/
def listingEnv (path : Text) : Env :=
  { editEnv with
    provider := { editEnv.provider with
      listFiles := fun _ _ =>
        .ok [⟨"id".toList, path, none, 1, 5, some "old".toList, none, false, '/' :: path, false⟩] } }

/-- The remote file is as it was, and the local one is gone. -/
def deletedRun : Run := ⟨listingEnv "a.txt".toList, editConfig, .upload, { editEngine with tree := Tree.empty }⟩

def laterRun : Run := { deletedRun with start := deletedRun.finish }

/-- The local file is as it was, and another one is listed. -/
def goneRun : Run :=
  ⟨listingEnv "b.txt".toList, editConfig, .upload,
    { editEngine with tree := Tree.empty.write ["a.txt".toList] ⟨[1], some 7⟩ }⟩

theorem visible_edit : editConfig.visible "/a.txt".toList = some true := by decide +kernel

theorem follows_laterRun : Follows deletedRun laterRun := by
  have hsome : deletedRun.finish.state.manifest.isSome = true := by decide +kernel
  obtain ⟨m, hm⟩ := Option.isSome_iff_exists.mp hsome
  have hload : laterRun.before = laterRun.start.state.manifest :=
    startManifest_unsaved laterRun.env rfl laterRun.start
  have hstart : laterRun.start = deletedRun.finish := by rw [laterRun]
  rw [Follows, hload, hstart, Run.after, hm]
  rfl

theorem deletedHere_of_empty {w : Engine} (htree : w.tree.files.entries = [])
    (h : ∀ e ∈ (Run.mk (listingEnv "a.txt".toList) editConfig .upload w).finish.log, movesLayout e = false) :
    DeletedHere "/a.txt".toList ⟨"id".toList, some "old".toList, 1, 5⟩
      ⟨listingEnv "a.txt".toList, editConfig, .upload, w⟩ where
  tellsCase := rfl
  visible := visible_edit
  layout := h
  absent := by
    intro q _
    have hnone : w.tree.files = ∅ := AList.ext htree
    have hfile : w.tree.file? q = w.tree.files.lookup q := rfl
    rw [hfile, hnone]
    rfl
  listed := by
    rintro log listing hl -
    cases hl
    exact ⟨_, rfl, rfl, rfl⟩

/-- The file deleted here is not fetched, by two syncs in turn; the one deleted remotely is moved aside. -/
theorem deleted_files_stay_deleted_twice :
    (∀ r ∈ [deletedRun, laterRun], ∀ s, .step "/a.txt".toList s ∉ r.finish.log) ∧
    (∀ s, .step "/a.txt".toList s ∈ goneRun.finish.log → s = .quarantine) ∧
      .step "/a.txt".toList .quarantine ∈ goneRun.finish.log := by
  have hdeleted : ∀ r ∈ [deletedRun, laterRun],
      DeletedHere "/a.txt".toList ⟨"id".toList, some "old".toList, 1, 5⟩ r := by
    rw [List.forall_mem_cons, List.forall_mem_singleton]
    exact ⟨deletedHere_of_empty (by decide +kernel) (by decide +kernel),
      deletedHere_of_empty (by decide +kernel) (by decide +kernel)⟩
  refine ⟨?_, ?_, by decide +kernel⟩
  · exact (deleted_file_stays_deleted "/a.txt".toList ⟨"id".toList, some "old".toList, 1, 5⟩
      ⟨1, some 5, some (sha256Hex editEnv [1])⟩ deletedRun [laterRun]
      (List.isChain_cons_cons.mpr ⟨follows_laterRun, List.IsChain.singleton _⟩) editManifest
      ⟨some ⟨"id".toList, some "old".toList, 1, 5⟩, some ⟨1, some 5, some (sha256Hex editEnv [1])⟩, none⟩
      (startManifest_unsaved _ rfl _) rfl rfl rfl).1 hdeleted
  · have hgone : DeletedThere "/a.txt".toList [1] (sha256Hex editEnv [1]) ⟨1, some 5, some (sha256Hex editEnv [1])⟩
        goneRun := by
      have hfile : ∀ q f, goneRun.start.tree.file? q = some f → q = ["a.txt".toList] ∧ f = ⟨[1], some 7⟩ := by
        intro q f hf
        have hwrite : goneRun.start.tree.file? q = if q = ["a.txt".toList] then some ⟨[1], some 7⟩ else none :=
          Tree.file?_write Tree.empty _ q _
        rw [hwrite] at hf
        split at hf
        next hq => exact ⟨hq, (Option.some.inj hf).symm⟩
        · cases hf
      exact
        { tellsCase := rfl
          visible := visible_edit
          layout := by decide +kernel
          content := fun q f _ hf => by rw [(hfile q f hf).2]; exact ⟨rfl, Or.inl rfl⟩
          hashed := rfl
          readable := fun _ _ _ => rfl
          names := fun q f hf => by rw [(hfile q f hf).1]; decide
          listed := by
            intro log listing hl f hf
            cases hl
            cases hf }
    exact (deleted_file_stays_deleted "/a.txt".toList ⟨"id".toList, some "old".toList, 1, 5⟩
      ⟨1, some 5, some (sha256Hex editEnv [1])⟩ goneRun [] (List.IsChain.singleton _) editManifest
      ⟨some ⟨"id".toList, some "old".toList, 1, 5⟩, some ⟨1, some 5, some (sha256Hex editEnv [1])⟩, none⟩
      (startManifest_unsaved _ rfl _) rfl rfl rfl).2 [1] (sha256Hex editEnv [1]) rfl (List.IsChain.singleton _)
      (List.forall_mem_singleton.mpr hgone) goneRun (List.mem_singleton_self _)

end DeletionSafety
