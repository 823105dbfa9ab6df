import RemarkableServer.DeltaSafety
import RemarkableServer.RemoteSpellings

/-!
# Remote names stay in the sync directory

Whatever a listing or a change feed says, a file is put below the sync directory
at a path of plain names, outside the engine's own entries, or below a run of the
quarantine. The one way around is the name of a conflict copy: its path is checked
for names that could leave the sync directory, but not for the reserved ones.
-/
namespace RemoteNames

open RustText Integrations CloudPaths CloudSync Effect FileTree RemoteSpellings
open SyncKeepsContent (editEnv editConfig editEngine)

/-! ## Names -/

/-- A name of one entry, which neither is empty nor leads elsewhere. -/
structure SafeName (name : Text) : Prop where
  nonempty : name ≠ []
  notDot : name ≠ ['.']
  notDots : name ≠ ['.', '.']
  short : byteLen name ≤ maxNameBytes
  noSlash : '/' ∉ name
  noBackslash : '\\' ∉ name
  noNul : '\x00' ∉ name

def SafePath (p : List Text) : Prop := p ≠ [] ∧ ∀ name ∈ p, SafeName name

/-- Below the sync directory, outside the engine's own entries. -/
def SafeWrite (p : List Text) : Prop := SafePath p ∧ ∀ name ∈ p, isReservedName name = false

/-- Below a run of the quarantine. -/
def SafeMove (p : List Text) : Prop := ∃ run rest, p = quarantineDir :: run :: rest ∧ SafePath rest

theorem segmentFault_none {part : Text} (h : segmentFault part = none) :
    part ≠ [] ∧ part ≠ ['.'] ∧ part ≠ ['.', '.'] ∧ byteLen part ≤ maxNameBytes := by
  unfold segmentFault at h
  split at h
  · cases h
  next hdots =>
    split at h
    · cases h
    next hlen =>
      simp only [Bool.or_eq_true, List.isEmpty_iff, beq_iff_eq, not_or] at hdots
      exact ⟨hdots.1.1, hdots.1.2, hdots.2, by omega⟩

/-- What passes the check of a remote path is a path of plain names. -/
theorem safePath_of_components {path : Text} {parts : List Text} (h : cloudPathComponents path = .ok parts) :
    SafePath parts := by
  unfold cloudPathComponents safeComponents at h
  dsimp only at h
  split at h
  · cases h
  · split at h
    · cases h
    next hnul =>
      split at h
      · cases h
      next hback =>
        split at h
        · cases h
        · split at h
          · cases h
          · split at h
            · cases h
            next hfaults =>
              cases h
              refine ⟨List.splitOn_ne_nil _ _, fun name hname => ?_⟩
              obtain ⟨hne, hdot, hdots, hshort⟩ := segmentFault_none (List.findSome?_eq_none_iff.mp hfaults name hname)
              have hin : ∀ c, c ∈ name → c ∈ relative path := fun c hc => mem_of_mem_splitOn hname hc
              refine ⟨hne, hdot, hdots, hshort, not_mem_of_mem_splitOn hname, fun hc => hback ?_, fun hc => hnul ?_⟩
              · exact List.any_eq_true.mpr ⟨_, hin _ hc, by decide⟩
              · exact List.any_eq_true.mpr ⟨_, hin _ hc, by decide⟩

theorem safeWrite_of_components {path : Text} {parts : List Text} (h : cloudPathComponents path = .ok parts)
    (hfree : isReserved path = false) : SafeWrite parts :=
  ⟨safePath_of_components h, DeltaSafety.not_reserved_components h hfree⟩

/-- A number after a plain name leaves it plain, as long as it is not too long. -/
theorem safeName_numbered {name : Text} (h : SafeName name) {n : Nat}
    (hshort : byteLen (numberedName name n) ≤ maxNameBytes) : SafeName (numberedName name n) := by
  unfold numberedName at hshort ⊢
  split
  · exact h
  next hn =>
    rw [if_neg hn] at hshort
    have hdigits : ∀ c ∈ showU64 (n + 1), c.isDigit = true := fun c hc =>
      Nat.isDigit_of_mem_toDigits (by decide) (by decide) hc
    have hout : ∀ c : Char, c ∉ name → c.isDigit = false → c ≠ ' ' → c ≠ '(' → c ≠ ')' →
        c ∉ name ++ " (".toList ++ showU64 (n + 1) ++ [')'] := by
      intro c hc hdigit hspace hopen hclose hmem
      have hnum : c ∉ showU64 (n + 1) := fun hc' => by
        rw [hdigits c hc'] at hdigit
        cases hdigit
      simp [hc, hnum, hspace, hopen, hclose] at hmem
    have hlast : ∀ t : Text, (name ++ " (".toList ++ showU64 (n + 1) ++ [')']) = t → t.getLast? = some ')' := by
      rintro t rfl
      exact List.getLast?_concat
    refine ⟨by simp, fun heq => ?_, fun heq => ?_, hshort, ?_, ?_, ?_⟩
    · cases hlast _ heq
    · cases hlast _ heq
    · exact hout '/' h.noSlash rfl (by decide) (by decide) (by decide)
    · exact hout '\\' h.noBackslash rfl (by decide) (by decide) (by decide)
    · exact hout '\x00' h.noNul rfl (by decide) (by decide) (by decide)

/-- The disk refuses to move a file to a name that is too long. -/
def RefusesLongNames (env : Env) : Prop :=
  ∀ log src dst, (∃ name ∈ dst, maxNameBytes < byteLen name) → env.ioError log (.move src dst) ≠ none

theorem safeMove_of_place {env : Env} (hdisk : RefusesLongNames env) {run path : Text} {src dst : List Text} {log : Log}
    (hplace : QuarantinePlace run path dst) (hok : env.ioError log (.move src dst) = none) : SafeMove dst := by
  obtain ⟨parts, name, n, hparts, hname, rfl⟩ := hplace
  obtain ⟨-, hsafe⟩ := safePath_of_components hparts
  have hshort : byteLen (numberedName name n) ≤ maxNameBytes := by
    by_contra hlong
    exact hdisk _ _ _ ⟨numberedName name n, by simp, by omega⟩ hok
  refine ⟨run, parts.dropLast ++ [numberedName name n], rfl, by simp, fun q hq => ?_⟩
  rcases List.mem_append.mp hq with hq | hq
  · exact hsafe q (List.dropLast_subset parts hq)
  · rw [List.mem_singleton.mp hq]
    exact safeName_numbered (hsafe name (List.mem_of_getLast? hname)) hshort

/-! ## What a sync does to the disk -/

/-- The files the engine keeps for itself. -/
def ownFiles : List (List Text) := [[manifestFile], [layoutMarker]]

/-- Where a file is created or replaced: at a plain path, at one of the engine's own files, or moved
below a run of the quarantine. Directories go to where the old layout is kept. -/
def SafeEvent : Event → Prop
  | .disk (.write p) true => SafeWrite p ∨ p ∈ ownFiles
  | .disk (.move _ dst) true => SafeMove dst
  | .disk (.moveDir _ dst) true => dst.head? = some oldLayoutDir
  | _ => True

/-- The engine's own files hold what they held, or what the engine itself writes there. -/
def OwnContents (env : Env) (t t' : LocalTree) : Prop :=
  ∀ p ∈ ownFiles, ∀ f, t'.file? p = some f →
    t.file? p = some f ∨ (∃ m, f.bytes = env.fromManifest m) ∨ ∃ dirs, f.bytes = env.fromMarker dirs

/-- What a sync started with the tree `t` has done so far. -/
structure Confined (env : Env) (t : LocalTree) (w : Engine) : Prop where
  log : ∀ e ∈ w.log, SafeEvent e
  own : OwnContents env t w.tree

variable {env : Env} {cfg : SyncConfig} {t : LocalTree} {I : Engine → Prop}

theorem safeEvent_of_quiet {e : Event} (h : e.quiet = true) : SafeEvent e := by
  unfold SafeEvent
  split
  · cases h
  · cases h
  · cases h
  · trivial

/-- The engine's own files lie at the top and are reserved. -/
theorem ownFiles_reserved {p : List Text} (hp : p ∈ ownFiles) : ∃ name, p = [name] ∧ isReservedName name = true ∧
    name ≠ quarantineDir ∧ name ≠ oldLayoutDir := by
  rcases List.mem_cons.mp hp with rfl | hp
  · exact ⟨manifestFile, rfl, by decide⟩
  · rw [List.mem_singleton] at hp
    exact ⟨layoutMarker, hp, by decide⟩

theorem OwnContents.congr {t₁ t₂ : LocalTree} (h : OwnContents env t t₁)
    (heq : ∀ p ∈ ownFiles, ∀ f, t₂.file? p = some f → t₁.file? p = some f) : OwnContents env t t₂ :=
  fun p hp f hf => h p hp f (heq p hp f hf)

theorem Confined.event {w : Engine} {e : Event} {t' : LocalTree} (h : Confined env t w) (he : SafeEvent e)
    (ht : OwnContents env t t') : Confined env t { w with log := e :: w.log, tree := t' } where
  log := by
    intro e' he'
    rcases List.mem_cons.mp he' with rfl | he'
    · exact he
    · exact h.log e' he'
  own := ht

theorem filesOnly_confined : FilesOnly (Confined env t) where
  stable := fun _ _ _ he h ht => h.event (safeEvent_of_quiet he) (h.own.congr fun p _ _ hf => (ht p).symm.trans hf)
  fields := fun _ _ htree hlog _ h => ⟨hlog ▸ h.log, htree ▸ h.own⟩

/-- A file is put at a path that is not one of the engine's own. -/
theorem Confined.write {w : Engine} {p : List Text} (h : Confined env t w) (hp : SafeWrite p) (f : DiskFile) :
    Confined env t { w with log := .disk (.write p) true :: w.log, tree := w.tree.write p f } := by
  refine h.event (Or.inl hp) (h.own.congr fun q hq g hg => ?_)
  rw [Tree.file?_write, if_neg ?_] at hg
  · exact hg
  · rintro rfl
    obtain ⟨name, rfl, hres, -⟩ := ownFiles_reserved hq
    rw [hp.2 name (List.mem_singleton_self name)] at hres
    cases hres

/-- The engine writes one of its own files. -/
theorem Confined.writeOwn {w : Engine} {p : List Text} (h : Confined env t w) (hp : p ∈ ownFiles) {f : DiskFile}
    (hf : (∃ m, f.bytes = env.fromManifest m) ∨ ∃ dirs, f.bytes = env.fromMarker dirs) :
    Confined env t { w with log := .disk (.write p) true :: w.log, tree := w.tree.write p f } := by
  refine h.event (Or.inr hp) fun q hq g hg => ?_
  rw [Tree.file?_write] at hg
  split at hg
  · cases hg
    exact Or.inr hf
  · exact h.own q hq g hg

theorem Confined.move {w : Engine} {src dst : List Text} {f : DiskFile} (h : Confined env t w)
    (hf : w.tree.file? src = some f) (hdst : SafeMove dst) :
    Confined env t { w with log := .disk (.move src dst) true :: w.log, tree := w.tree.move src dst } := by
  refine h.event hdst (h.own.congr fun q hq g hg => ?_)
  obtain ⟨run, rest, rfl, -⟩ := hdst
  obtain ⟨name, rfl, -⟩ := ownFiles_reserved hq
  rw [Tree.file?_move hf, if_neg (by simp)] at hg
  split at hg
  · cases hg
  · exact hg

theorem Confined.moveDir {w : Engine} {src dst : List Text} (h : Confined env t w)
    (hdst : dst.head? = some oldLayoutDir) :
    Confined env t { w with log := .disk (.moveDir src dst) true :: w.log, tree := w.tree.moveDir src dst } := by
  refine h.event hdst (h.own.congr fun q hq g hg => (Tree.file?_moveDir hg).resolve_left fun hpre => ?_)
  obtain ⟨name, rfl, -, -, hname⟩ := ownFiles_reserved hq
  obtain ⟨rest, rfl⟩ := List.head?_eq_some_iff.mp hdst
  obtain ⟨tail, htail⟩ := hpre
  exact hname (List.cons.inj htail).1.symm

/-! ## Downloads, quarantine and pruning -/

theorem keeps_quarantine (hdisk : RefusesLongNames env) (run path : Text) (src : List Text) :
    Keeps (Confined env t) (quarantine env run path src) :=
  triple_quarantine_place filesOnly_confined.stable filesOnly_confined.stable (fun _ h => h) run path src
    fun _ _ _ h hf _ hplace hok => h.move hf (safeMove_of_place hdisk hplace hok)

/-- A download of a file whose path is not reserved writes nowhere else. -/
theorem keeps_downloadUnless (hdisk : RefusesLongNames env) {f : CloudFile} (hfree : isReserved f.path = false)
    (unlessHash : Option Text) : Keeps (Confined env t) (downloadUnless env f unlessHash) := by
  have hB : Beyond Set.univ (Confined env t) := filesOnly_confined.beyond
  refine keeps_downloadUnless_of hB.incidental (K := fun _ => Confined env t) ?_ ?_ ?_ unlessHash
  · exact fun target _ => keeps_guardOverwrite hB.incidental fun run => keeps_quarantine hdisk run f.path target
  · exact fun w target h => filesOnly_confined.stable.failed w _ h
  · exact fun w target written htarget h => h.write (safeWrite_of_components htarget hfree) written

theorem keeps_prune (run : Text) (days : Option Nat) : Keeps (Confined env t) (pruneQuarantine env run days) := by
  refine keeps_pruneQuarantine filesOnly_confined.stable (fun w name h => ?_) run days
  refine h.event trivial (h.own.congr fun q hq g hg => ?_)
  rwa [Tree.file?_removeAll] at hg
  obtain ⟨own, rfl, -, hown, -⟩ := ownFiles_reserved hq
  rintro ⟨tail, htail⟩
  exact hown (List.cons.inj htail).1.symm

theorem keeps_save : Keeps (Confined env t) (saveManifest env) :=
  keeps_saveManifest_of filesOnly_confined.stable fun _ file _ h =>
    h.writeOwn List.mem_cons_self (Or.inl ⟨file, rfl⟩)

/-! ## The old layout -/

section OldLayout
variable (hI : Stable I)
  (hmove : ∀ w rel dst, dst.head? = some oldLayoutDir → I w →
    I { w with log := .disk (.moveDir rel dst) true :: w.log, tree := w.tree.moveDir rel dst })

include hI hmove

/-- A directory of the old layout goes to where the old layout is kept. -/
theorem keeps_moveLayoutDir {rel : List Text} (hrel : rel ≠ []) : Keeps I (moveLayoutDir env rel) := by
  unfold moveLayoutDir
  refine Keeps.bind Keeps.get fun w₀ => ?_
  refine Keeps.bind (keeps_createDirAll hI _) fun _ => ?_
  refine Keeps.bind (triple_disk (fun w => hI.failed w _) fun w a t' h ha => ?_) fun _ => Keeps.pure _
  cases ha
  refine hmove w rel _ ?_ h
  obtain ⟨n, hn⟩ := freePath_eq w₀.tree (oldLayoutDir :: rel).dropLast ((oldLayoutDir :: rel).getLast?.getD [])
  rw [hn, List.dropLast_cons_of_ne_nil hrel]
  rfl

theorem keeps_moveLayoutDirs {rels : List (List Text)} (hrels : ∀ rel ∈ rels, rel ≠ []) :
    Keeps I (moveLayoutDirs env rels) := by
  induction rels with
  | nil => exact Keeps.pure _
  | cons rel rels ih =>
    refine Keeps.bind (keeps_moveLayoutDir hI hmove (hrels rel List.mem_cons_self)) fun moved => ?_
    exact Keeps.bind (ih fun r hr => hrels r (List.mem_cons_of_mem rel hr)) fun rest => Keeps.pure _

theorem keeps_moveOldLayout {dir : List Text} (hdir : dir ≠ []) : Keeps I (moveOldLayout env dir) := by
  unfold moveOldLayout
  refine Keeps.bind (keeps_look hI rfl fun t a t' h => ?_) fun t => keeps_moveLayoutDirs hI hmove fun rel hrel => ?_
  · cases h
    rfl
  · rw [(List.perm_insertionSort _ _).mem_iff, List.mem_dedup, List.mem_filter, isOldLayout, Bool.and_eq_true,
      Bool.and_eq_true, beq_iff_eq] at hrel
    rintro rfl
    exact hdir (List.length_eq_zero_iff.mp hrel.2.1.1.symm)

/-- The old layout is moved aside once, and its marker written. -/
theorem keeps_moveLegacyLayout
    (hmarker : ∀ w dirs time, I w →
      I { w with log := .disk (.write [layoutMarker]) true :: w.log
                 tree := w.tree.write [layoutMarker] ⟨env.fromMarker dirs, time⟩ })
    (cloud : PathMap CloudFile) : Keeps I (moveLegacyLayout env cfg cloud) := by
  unfold moveLegacyLayout
  refine Keeps.bind (keeps_call hI rfl) fun dir => ?_
  cases dir with
  | none => exact Keeps.pure _
  | some dir =>
    dsimp only
    split
    · exact Keeps.pure _
    next hdir =>
      refine Keeps.bind (keeps_readMarker hI) fun handled => ?_
      split
      · exact Keeps.pure _
      · refine Keeps.bind (keeps_moveOldLayout hI hmove (by simpa using hdir)) fun moved => ?_
        refine Keeps.bind ((triple_writeReplace (fun w => hI.failed w _) fun w time h => hmarker w _ time h).mono
          (fun _ h => h) (fun _ _ h => h.2) fun _ h => h) fun _ => Keeps.pure _

end OldLayout

/-- A file of the tree was there from the start, unless it is among the engine's own entries. -/
def Brought (t t' : LocalTree) : Prop := ∀ p f, t'.file? p = some f → ReservedTop p ∨ t.file? p = some f

/-- Up to the local scan. -/
def Gathering (env : Env) (t : LocalTree) (w : Engine) : Prop := Confined env t w ∧ Brought t w.tree

theorem filesOnly_gathering : FilesOnly (Gathering env t) where
  stable := fun w e t' he h ht =>
    ⟨filesOnly_confined.stable w e t' he h.1 ht, fun p f hf => h.2 p f ((ht p).symm.trans hf)⟩
  fields := fun w w' htree hlog hguard h => ⟨filesOnly_confined.fields w w' htree hlog hguard h.1, htree ▸ h.2⟩

theorem gathering_moveDir {w : Engine} {src dst : List Text} (hdst : dst.head? = some oldLayoutDir)
    (h : Gathering env t w) :
    Gathering env t { w with log := .disk (.moveDir src dst) true :: w.log, tree := w.tree.moveDir src dst } := by
  refine ⟨h.1.moveDir hdst, fun p f hf => ?_⟩
  rcases Tree.file?_moveDir hf with ⟨tail, rfl⟩ | hf
  · obtain ⟨rest, rfl⟩ := List.head?_eq_some_iff.mp hdst
    exact Or.inl ⟨oldLayoutDir, rest ++ tail, rfl, by simp⟩
  · exact h.2 p f hf

theorem gathering_marker {w : Engine} (dirs : List Text) (time : Option Int) (h : Gathering env t w) :
    Gathering env t { w with log := .disk (.write [layoutMarker]) true :: w.log
                             tree := w.tree.write [layoutMarker] ⟨env.fromMarker dirs, time⟩ } := by
  refine ⟨h.1.writeOwn (by simp [ownFiles]) (Or.inr ⟨dirs, rfl⟩), fun p f hf => ?_⟩
  rw [Tree.file?_write] at hf
  split at hf
  next hp =>
    rw [hp]
    exact Or.inl ⟨layoutMarker, [], rfl, List.mem_cons_self⟩
  · exact h.2 p f hf

/-! ## Conflict copies -/

theorem isReserved_append (a b : Text) : isReserved (a ++ '/' :: b) = (isReserved a || isReserved b) := by
  rw [isReserved_eq, isReserved_eq, isReserved_eq, split, split, split, List.splitOn_append_cons_self, List.any_append]

theorem rsplitOnce_eq {sep : Char} {s before after : Text} (h : rsplitOnce sep s = some (before, after)) :
    s = before ++ sep :: after := by
  unfold rsplitOnce at h
  split at h
  · cases h
  next c rest hdrop =>
    cases h
    have hsep : c = sep := by
      have hnot := List.head?_dropWhile_not (fun d => decide (d ≠ sep)) s.reverse
      rw [hdrop] at hnot
      simpa using hnot
    have hall := List.takeWhile_append_dropWhile (p := fun d => decide (d ≠ sep)) (l := s.reverse)
    rw [hdrop, hsep] at hall
    have hrev := congrArg List.reverse hall
    rw [List.reverse_reverse, List.reverse_append, List.reverse_cons, List.append_assoc, List.singleton_append] at hrev
    exact hrev.symm

/-- A conflict copy beside a file is reserved only for its own name. -/
theorem isReserved_conflictCopy {f : CloudFile} (hfree : isReserved f.path = false) (renamedTo : Text) :
    isReserved (conflictCopy f renamedTo).path = isReserved renamedTo := by
  have hparent : isReserved (((rsplitOnce '/' f.path).map (·.1)).getD []) = false := by
    cases hs : rsplitOnce '/' f.path with
    | none => rfl
    | some parts =>
      obtain ⟨parent, last⟩ := parts
      rw [rsplitOnce_eq hs, isReserved_append, Bool.or_eq_false_iff] at hfree
      exact hfree.1
  unfold conflictCopy
  dsimp only
  rw [isReserved_append, hparent, Bool.false_or]

/-- Wherever the conflict strategy keeps both a local file of the tree and the file listed at its path, in
some spelling, no part of the copy's name is reserved. -/
def CopiesClear (env : Env) (cfg : SyncConfig) (t : LocalTree) : Prop :=
  cfg.canDownload = true → ∀ log listing, env.provider.listFiles log cfg.cloudFolder = .ok listing →
    ∀ f ∈ listing, ∀ p d, t.file? p = some d → env.toLowercase (pathText p) = env.toLowercase f.path →
      ∀ renamedTo, KeepsBoth env cfg (.of p d) f renamedTo → isReserved renamedTo = false

theorem keepsBoth_respelled {l : LocalFile} {f : CloudFile} {path renamedTo : Text}
    (h : KeepsBoth env cfg l { f with path := path } renamedTo) : KeepsBoth env cfg l f renamedTo := by
  obtain ⟨time, h⟩ := h
  refine ⟨time, h ▸ ?_⟩
  unfold resolve bothModified
  cases cfg.conflictStrategy <;> rfl

/-- The local files a sync may deal with were there from the start. -/
def FromTree (t : LocalTree) (scan : Scan) : Prop :=
  ∀ path l, scan.files.lookup path = some l → isReserved path = false →
    ∃ p d, t.file? p = some d ∧ path = pathText p ∧ l = .of p d

theorem fromTree_of_scan {w : Engine} (h : Gathering env t w) {scan : Scan}
    (hscan : scanEntries cfg w.tree ⟨∅, []⟩ w.tree.entries = some scan) : FromTree t scan := by
  intro path l hl hfree
  obtain hempty | ⟨p, d, hd, -, -, rfl, rfl⟩ := scanEntries_lists hscan hl
  · cases hempty
  · refine ⟨p, d, (h.2 p d hd).resolve_left fun hres => ?_, rfl, rfl⟩
    rw [isReserved_of_reservedTop hres] at hfree
    cases hfree

/-- Every step for a path keeps files in their place. -/
theorem keptByNamedStep_confined (hlower : Lowercases env.toLowercase) (hdisk : RefusesLongNames env)
    (hcopies : CopiesClear env cfg t) {localOnly : LocalOnly} {listing : List CloudFile} {scan : Scan}
    (base : Option SyncManifest) (hlisted : ∃ log, env.provider.listFiles log cfg.cloudFolder = .ok listing)
    (hscan : FromTree t scan) (path : Text) :
    KeptByNamedStep env cfg (viewOf env cfg localOnly listing scan base) path (Confined env t) where
  step := fun _ => Keeps.modify fun _ h => h.event trivial h.own
  upload := fun _ l _ => keeps_uploadFile filesOnly_confined.beyond (Set.mem_univ path)
    fun _ _ _ _ _ h => h.event trivial h.own
  download := by
    intro _ f hf
    have has := allListed_view hlower localOnly listing scan base path f hf
    exact keeps_downloadUnless hdisk (has.path_eq ▸ has.not_reserved hlower)
  copy := by
    intro hcan l f hl hf renamedTo hboth
    have has := allListed_view hlower localOnly listing scan base path f hf
    have hfree : isReserved f.path = false := has.path_eq ▸ has.not_reserved hlower
    refine keeps_downloadUnless hdisk ?_ none
    rw [isReserved_conflictCopy hfree]
    obtain ⟨g, hg, -, rfl, hsame⟩ := has
    have hfile := lineUp_files hl
    rw [lookup_retain, Option.filter_eq_some_iff] at hfile
    obtain ⟨p, d, hd, rfl, rfl⟩ := hscan path l hfile.1 hfree
    obtain ⟨log, hlog⟩ := hlisted
    exact hcopies hcan log listing hlog g hg p d hd hsame renamedTo (keepsBoth_respelled hboth)
  quarantine := fun _ l _ run => keeps_quarantine hdisk run path l.path

/-! ## Runs -/

/-- The files are as they were at the start. -/
def AsAtStart (t : LocalTree) (w : Engine) : Prop := ∀ p, w.tree.file? p = t.file? p

theorem AsAtStart.confined {w : Engine} (h : AsAtStart t w) (hlog : ∀ e ∈ w.log, SafeEvent e) : Confined env t w :=
  ⟨hlog, fun p _ _ hf => Or.inl ((h p).symm.trans hf)⟩

/-- Before anything is done, in a delta sync. -/
theorem filesOnly_asAtStart : FilesOnly fun w => Confined env t w ∧ AsAtStart t w where
  stable := fun w e t' he h ht => ⟨filesOnly_confined.stable w e t' he h.1 ht, fun p => (ht p).trans (h.2 p)⟩
  fields := fun w w' htree hlog hguard h => ⟨filesOnly_confined.fields w w' htree hlog hguard h.1,
    fun p => (congrArg (·.file? p) htree).trans (h.2 p)⟩

theorem keeps_failedGathering (e : SyncError) :
    Triple (Gathering env t) (failed e) (fun _ => Confined env t) (Confined env t) :=
  (keeps_failed (S := Set.univ) filesOnly_confined.beyond e).mono (fun _ h => h.1) (fun _ _ h => h) fun _ h => h

section Runs
variable (hlower : Lowercases env.toLowercase) (hdisk : RefusesLongNames env) (hcopies : CopiesClear env cfg t)

include hlower hdisk hcopies

theorem confined_reconcileListing (localOnly : LocalOnly) {listing : List CloudFile}
    (hlisted : ∃ log, env.provider.listFiles log cfg.cloudFolder = .ok listing) :
    Triple (Gathering env t) (reconcileListing env cfg localOnly listing) (fun _ => Confined env t) (Confined env t) := by
  have hG : FilesOnly (Gathering env t) := filesOnly_gathering
  have hC : FilesOnly (Confined env t) := filesOnly_confined
  unfold reconcileListing
  refine Triple.bind ((keeps_attempt (keeps_moveLegacyLayout hG.stable (fun _ _ _ => gathering_moveDir)
    (fun _ dirs time => gathering_marker dirs time) _)).mono (fun _ h => h) (fun _ _ h => h) fun _ h => h.1) fun r => ?_
  cases r with
  | error e => exact keeps_failedGathering _
  | ok moved =>
    dsimp only
    refine Triple.bind ((keeps_record (S := Set.univ) hG.beyond _).mono (fun _ h => h) (fun _ _ h => h)
      fun _ h => h.1) fun _ => ?_
    refine Triple.bind ((triple_attempt (triple_listLocalFiles hG.stable)).mono (fun _ h => h) (fun _ _ h => h)
      fun _ h => h.1) fun r => ?_
    cases r with
    | error e => exact keeps_failedGathering _
    | ok scan =>
      refine Triple.bind (R := fun _ w => Confined env t w ∧ FromTree t scan) ?_ fun time => ?_
      · exact fun w h => ⟨hC.stable.log w rfl h.1.1, fromTree_of_scan h.1 h.2⟩
      refine Triple.assume fun hscan => ?_
      refine Triple.bind (R := fun _ => Confined env t) (fun _ h => ⟨h.log, h.own⟩) fun base => ?_
      exact keeps_reconcileView hC (keptByNamedStep_confined hlower hdisk hcopies base hlisted hscan) keeps_prune
        keeps_save _

theorem confined_reconcile (localOnly : LocalOnly) :
    Triple (AsAtStart t) (reconcile env cfg localOnly) (fun _ => Confined env t) (Confined env t) := by
  have hG : FilesOnly (Gathering env t) := filesOnly_gathering
  unfold reconcile
  refine Triple.bind (R := fun _ => Gathering env t) ?_ fun _ => ?_
  · intro w h
    have hstart : AsAtStart t w.start := h
    exact ⟨hstart.confined fun e he => (nomatch he), fun p f hf => Or.inr ((h p).symm.trans hf)⟩
  refine Triple.bind ((keeps_attempt (keeps_loadManifest hG)).mono (fun _ h => h) (fun _ _ h => h) fun _ h => h.1)
    fun r => ?_
  cases r with
  | error e => exact keeps_failedGathering _
  | ok _ =>
    refine Triple.bind ((triple_attempt (triple_call hG.stable rfl)).mono (fun _ h => h) (fun _ _ h => h)
      fun _ h => h.1) fun r => ?_
    cases r with
    | error e => exact keeps_failedGathering _
    | ok listing => exact Triple.assume fun hlisted => confined_reconcileListing hlower hdisk hcopies localOnly hlisted

theorem confined_sync : Triple (AsAtStart t) (sync env cfg) (fun _ => Confined env t) (Confined env t) :=
  Triple.bind (confined_reconcile hlower hdisk hcopies .upload) fun _ => Keeps.pure _

/-- A resync takes a cursor before it reconciles and stores it afterwards. -/
theorem confined_resync : Triple (AsAtStart t) (resync env cfg) (fun _ => Confined env t) (Confined env t) := by
  have hA : FilesOnly fun w => Confined env t w ∧ AsAtStart t w := filesOnly_asAtStart
  unfold resync
  refine Triple.bind (R := fun _ w => Confined env t w ∧ AsAtStart t w) ?_ fun _ => ?_
  · intro w h
    have hstart : AsAtStart t w.start := h
    exact ⟨hstart.confined fun e he => (nomatch he), h⟩
  refine Triple.bind ((keeps_call hA.stable rfl).mono (fun _ h => h) (fun _ _ h => h) fun _ h => h.1) fun page => ?_
  refine Triple.bind ((confined_reconcile hlower hdisk hcopies .keep).mono (fun _ h => h.2) (fun _ _ h => h)
    fun _ h => h) fun r => ?_
  split
  · exact Keeps.bind (keeps_updateState filesOnly_confined _) fun _ => Keeps.pure _
  · exact Keeps.pure _

/-- A delta sync makes no conflict copy, and checks each change for reserved names. -/
theorem confined_deltaSync : Triple (AsAtStart t) (deltaSync env cfg) (fun _ => Confined env t) (Confined env t) := by
  have hA : FilesOnly fun w => Confined env t w ∧ AsAtStart t w := filesOnly_asAtStart
  have hC : FilesOnly (Confined env t) := filesOnly_confined
  have hdelta : DeltaSafety.Aloof (Confined env t) := DeltaSafety.aloof_of_filesOnly hC
  unfold deltaSync
  refine Triple.bind (R := fun _ w => Confined env t w ∧ AsAtStart t w) ?_ fun _ => ?_
  · intro w h
    have hstart : AsAtStart t w.start := h
    exact ⟨hstart.confined fun e he => (nomatch he), h⟩
  split
  · exact Triple.pure fun _ h => h.1
  · refine Triple.get fun w₀ => ?_
    cases w₀.state.cursor with
    | none => exact (confined_resync hlower hdisk hcopies).mono (fun _ h => h.1.2) (fun _ _ h => h) fun _ h => h
    | some cursor =>
      refine Triple.bind ((keeps_loadManifest hA).mono (fun _ h => h.1) (fun _ _ h => h) fun _ h => h.1) fun _ => ?_
      have hguard : Keeps (fun w => Confined env t w ∧ AsAtStart t w) (setGuard env) :=
        Keeps.bind (keeps_now hA.stable) fun time => Keeps.modify fun w h => ⟨⟨h.1.log, h.1.own⟩, h.2⟩
      refine Triple.bind (hguard.mono (fun _ h => h) (fun _ _ h => h) fun _ h => h.1) fun _ => ?_
      refine Triple.bind ((keeps_attempt (keeps_call hA.stable rfl)).mono (fun _ h => h) (fun _ _ h => h)
        fun _ h => h.1) fun page => ?_
      split
      · exact (confined_resync hlower hdisk hcopies).mono (fun _ h => h.2) (fun _ _ h => h) fun _ h => h
      · exact fun _ h => h.1
      next changes newCursor =>
        have hchanges : Keeps (Confined env t) (changes.forM (applyChange env cfg)) :=
          Keeps.forM fun f _ => hdelta.applyChange fun happlied => by
            simp only [isApplied, Bool.and_eq_true, Bool.not_eq_true'] at happlied
            exact keeps_downloadUnless hdisk happlied.1.2 none
        have hend : Keeps (Confined env t) (applyPage env cfg [] newCursor) :=
          hdelta.applyPage_nil newCursor (fun w _ h => hC.fields w _ rfl rfl rfl h)
            (fun w _ h => hC.fields w _ rfl rfl rfl h) keeps_save
        rw [DeltaSafety.applyPage_eq]
        exact (Keeps.bind hchanges fun _ => hend).mono (fun _ h => h.1) (fun _ _ h => h) fun _ h => h

end Runs

/-- For every listing and change feed, local tree, provider, strategy and disk that refuses long names:
in a full sync, resync or delta sync, as long as no part of a conflict copy's name is reserved, every
file is created or replaced at a plain path of the sync directory outside the engine's own entries,
or moved to one below a run of the quarantine, and the engine's own files hold only what it wrote. -/
theorem names_stay_inside (env : Env) (cfg : SyncConfig) (w : Engine) (run : Sync SyncResult)
    (hrun : run = sync env cfg ∨ run = resync env cfg ∨ run = deltaSync env cfg)
    (hlower : Lowercases env.toLowercase) (hdisk : RefusesLongNames env) (hcopies : CopiesClear env cfg w.tree) :
    (∀ e ∈ (final run w).log, SafeEvent e) ∧ OwnContents env w.tree (final run w).tree := by
  have hstart : AsAtStart w.tree w := fun _ => rfl
  have hconfined : Confined env w.tree (final run w) := by
    rcases hrun with rfl | rfl | rfl
    · exact (confined_sync hlower hdisk hcopies).final hstart
    · exact (confined_resync hlower hdisk hcopies).final hstart
    · exact (confined_deltaSync hlower hdisk hcopies).final hstart
  exact ⟨hconfined.log, hconfined.own⟩

/-- ASCII lowercasing, which leaves every other character as it is. -/
theorem lowercases_ascii : Lowercases (List.map Char.toLower) where
  pieces := by
    intro t
    refine ⟨t.map fun c => [c.toLower], ?_, by rw [← List.flatMap_def, List.map_eq_flatMap]⟩
    induction t with
    | nil => exact .nil
    | cons c t ih =>
      refine .cons ?_ ih
      unfold LowersTo
      split
      · rfl
      next hbig =>
        have hsame : c.toLower = c := toLower_of_not_isUpper fun hupper => hbig (ascii_of_isUpper hupper)
        dsimp only
        rw [hsame]
        refine ⟨by simp, fun d hd => ?_⟩
        rw [List.mem_singleton] at hd
        subst hd
        exact ⟨fun h => hbig (h ▸ by decide), fun name hname hmem => hbig (reservedNames_ascii hname hmem)⟩
  segments := by
    intro a b
    rw [List.map_append, List.map_cons]
    rfl

/-- A provider that lists the edited file under this name, and a disk that refuses long names. -/
def namedEnv (name : Text) : Env :=
  { editEnv with
    provider := { editEnv.provider with
      listFiles := fun _ _ =>
        .ok [⟨"id".toList, name, none, 1, 9, some "new".toList, none, false, "/a.txt".toList, false⟩] }
    ioError := fun _ op =>
      match op with
      | .move _ dst => if dst.any (byteLen · > maxNameBytes) then some .invalidFilename else none
      | _ => none }

def keepBothConfig : SyncConfig := { editConfig with conflictStrategy := .keepBoth }

theorem refusesLongNames_namedEnv (name : Text) : RefusesLongNames (namedEnv name) := by
  rintro log src dst ⟨q, hq, hlong⟩
  have hany : dst.any (byteLen · > maxNameBytes) = true := List.any_eq_true.mpr ⟨q, hq, decide_eq_true hlong⟩
  have hio : (namedEnv name).ioError log (.move src dst) = some .invalidFilename := if_pos hany
  rw [hio]
  exact Option.some_ne_none _

/-- The conflict copy of a remote file goes into the quarantine directory, by its name. -/
theorem copy_goes_into_the_quarantine :
    ¬∀ (env : Env) (cfg : SyncConfig) (w : Engine), Lowercases env.toLowercase → RefusesLongNames env →
      ∀ e ∈ (final (sync env cfg) w).log, SafeEvent e := by
  intro h
  have hcopy : .disk (.write [quarantineDir, "x_conflict_20260926_101500.txt".toList]) true ∈
      (final (sync (namedEnv ".rms-remote-deleted/x.txt".toList) keepBothConfig) editEngine).log := by
    decide +kernel
  rcases h _ _ _ lowercases_ascii (refusesLongNames_namedEnv _) _ hcopy with ⟨-, hfree⟩ | hown
  · exact absurd (hfree quarantineDir List.mem_cons_self) (by decide)
  · exact absurd hown (by decide)

/-- Under an ordinary name it goes beside the local file. -/
theorem copy_stays_beside_the_file :
    (∀ e ∈ (final (sync (namedEnv "a.txt".toList) keepBothConfig) editEngine).log, SafeEvent e) ∧
      .disk (.write ["a_conflict_20260926_101500.txt".toList]) true ∈
        (final (sync (namedEnv "a.txt".toList) keepBothConfig) editEngine).log := by
  refine ⟨(names_stay_inside _ _ editEngine _ (Or.inl rfl) lowercases_ascii (refusesLongNames_namedEnv _) ?_).1,
    by decide +kernel⟩
  intro _ log listing hl f hf p d _ _ renamedTo hboth
  cases hl
  rw [List.mem_singleton] at hf
  subst hf
  have hclear : isReserved (generateConflictName "20260926_101500".toList "a.txt".toList) = false := by decide +kernel
  obtain ⟨time, hboth⟩ := hboth
  cases hboth
  exact hclear

end RemoteNames
