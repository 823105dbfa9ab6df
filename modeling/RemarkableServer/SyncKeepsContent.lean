import RemarkableServer.Lib.Sha256
import RemarkableServer.SyncPhases

/-!
# A full sync loses no local content that was never synced

A sync that has a manifest from an earlier one moves a local file to the
quarantine before it writes over it, unless the manifest records the file's
content. So every content of the local tree is still at its path afterwards, or
in the quarantine, or recorded. The two state files of the engine itself are
rewritten and not counted. An old layout that is moved aside and a quarantine
that is pruned are excepted: the log tells whether that happened.
-/
namespace SyncKeepsContent

open RustText Integrations CloudPaths CloudSync Effect FileTree

/-- An old quarantine run was removed, or its removal begun. -/
def prunes : Event → Bool
  | .disk (.removeAll _) _ => true
  | _ => false

def Excepted (log : Log) : Prop := ∃ e ∈ log, movesLayout e = true ∨ prunes e = true

/-- Any path but those of the engine's own state files. -/
def UserPath (p : List Text) : Prop := p ≠ [manifestFile] ∧ p ≠ [layoutMarker]

/-- The manifest records the content as a synced local one. -/
def Recorded (env : Env) (m : SyncManifest) (content : Bytes) : Prop :=
  sha256Hex env content ∈ syncedContents m

/-- The contents of the first tree are kept in the second. -/
def ContentKept (env : Env) (m : SyncManifest) (t₀ t : LocalTree) : Prop :=
  Tree.Kept DiskFile.bytes UserPath InQuarantine (Recorded env m) t₀ t

/-- The invariant of the run, with a condition on the engine that goes along with it. -/
def Safe (env : Env) (m : SyncManifest) (t₀ : LocalTree) (R : Engine → Prop) (w : Engine) : Prop :=
  Excepted w.log ∨ ContentKept env m t₀ w.tree ∧ R w

/-- The overwrite guard knows the contents the manifest records. -/
def OnGuard (m : SyncManifest) (w : Engine) : Prop := w.overwriteGuard.map (·.synced) = some (syncedContents m)

/-- The target may be written over. -/
def Overwritable (env : Env) (m : SyncManifest) (target : List Text) (w : Engine) : Prop :=
  OnGuard m w ∧ ∀ c, w.tree.Holds DiskFile.bytes target c → Recorded env m c

variable {env : Env} {cfg : SyncConfig} {m : SyncManifest} {t₀ : LocalTree} {R : Engine → Prop}

theorem excepted_cons {log : Log} (e : Event) (h : Excepted log) : Excepted (e :: log) := by
  obtain ⟨e', he, h⟩ := h
  exact ⟨e', List.mem_cons_of_mem e he, h⟩

theorem stable_safe (hR : Stable R) : Stable (Safe env m t₀ R) := by
  rintro w e t he (h | ⟨hk, hr⟩) ht
  · exact Or.inl (excepted_cons e h)
  · exact Or.inr ⟨hk.congr ht, hR w e t he hr ht⟩

theorem Safe.mono {R' : Engine → Prop} {w : Engine} (h : Safe env m t₀ R w) (hR : R w → R' w) :
    Safe env m t₀ R' w :=
  h.imp_right fun ⟨hk, hr⟩ => ⟨hk, hR hr⟩

theorem stable_onGuard : Stable (OnGuard m) := fun _ _ _ _ h _ => h

theorem filesOnly_safe : FilesOnly (Safe env m t₀ (OnGuard m)) where
  stable := stable_safe stable_onGuard
  fields := by
    intro w w' htree hlog hguard h
    unfold Safe OnGuard at *
    rw [htree, hlog, hguard]
    exact h

theorem beyond_safe : Beyond Set.univ (Safe env m t₀ (OnGuard m)) := filesOnly_safe.beyond

/-! ## Moves to the quarantine -/

theorem stable_gone (src : List Text) : Stable fun w => OnGuard m w ∧ w.tree.file? src = none :=
  fun _ _ _ _ h ht => ⟨h.1, (ht src).trans h.2⟩

/-- The file goes to a free path in the quarantine; afterwards it is no longer where it was. -/
theorem triple_quarantine_safe (run path : Text) (src : List Text) :
    Triple (Safe env m t₀ (OnGuard m)) (quarantine env run path src)
      (fun _ => Safe env m t₀ fun w => OnGuard m w ∧ w.tree.file? src = none) (Safe env m t₀ (OnGuard m)) := by
  refine triple_quarantine (stable_safe stable_onGuard) (stable_safe (stable_gone src))
    (fun _ h => h.mono And.left) run path src fun w f dst h hf hfree hdst => ?_
  refine h.imp (excepted_cons _) fun ⟨hk, hr⟩ => ⟨hk.move hfree hdst, hr, ?_⟩
  rw [Tree.file?_move hf, if_neg ?_, if_pos rfl]
  rintro rfl
  rw [hfree] at hf
  cases hf

theorem keeps_quarantine (run path : Text) (src : List Text) :
    Keeps (Safe env m t₀ (OnGuard m)) (quarantine env run path src) :=
  (triple_quarantine_safe run path src).mono (fun _ h => h) (fun _ _ h => h.mono And.left) (fun _ h => h)

/-! ## Downloads -/

/-- A path holds one content. -/
theorem holds_unique {t : LocalTree} {p : List Text} {a b : Bytes} (ha : t.Holds DiskFile.bytes p a)
    (hb : t.Holds DiskFile.bytes p b) : a = b := by
  obtain ⟨f, hf, rfl⟩ := ha
  obtain ⟨g, hg, rfl⟩ := hb
  rw [Option.mem_unique hf hg]

/-- What is read is the content of the file there. -/
theorem triple_readFile (p : List Text) (w₀ : Engine) :
    Triple (fun w => Safe env m t₀ (OnGuard m) w ∧ w = w₀) (attempt (readFile env p))
      (fun r w => Safe env m t₀ (OnGuard m) w ∧ w.tree = w₀.tree ∧ w.overwriteGuard = w₀.overwriteGuard ∧
        ∀ content, r = .ok content → w.tree.Holds DiskFile.bytes p content)
      (Safe env m t₀ (OnGuard m)) := by
  have hS : Stable (Safe env m t₀ (OnGuard m)) := stable_safe stable_onGuard
  have hread : Triple (fun w => Safe env m t₀ (OnGuard m) w ∧ w = w₀) (readFile env p)
      (fun content w => Safe env m t₀ (OnGuard m) w ∧ w.tree = w₀.tree ∧
        w.overwriteGuard = w₀.overwriteGuard ∧ w.tree.Holds DiskFile.bytes p content)
      (fun w => Safe env m t₀ (OnGuard m) w ∧ w.tree = w₀.tree ∧ w.overwriteGuard = w₀.overwriteGuard) := by
    refine triple_disk ?_ ?_
    · rintro w ⟨h, rfl⟩
      exact ⟨hS.failed w _ h, rfl, rfl⟩
    · rintro w content t ⟨h, rfl⟩ ha
      split at ha
      next f hf =>
        cases ha
        exact ⟨hS.log w rfl h, rfl, rfl, f, hf, rfl⟩
      · cases ha
  refine (triple_attempt hread).mono (fun _ h => h) ?_ fun _ h => h.1
  intro r w h
  cases r with
  | error e => exact ⟨h.1, h.2.1, h.2.2, fun _ he => nomatch he⟩
  | ok content =>
    refine ⟨h.1, h.2.1, h.2.2.1, fun c hc => ?_⟩
    cases hc
    exact h.2.2.2

theorem triple_moveUnsynced (run path : Text) (target : List Text) :
    Triple (Safe env m t₀ (OnGuard m)) (moveUnsynced env run path target)
      (fun _ => Safe env m t₀ (Overwritable env m target)) (Safe env m t₀ (OnGuard m)) := by
  refine Triple.bind (triple_attempt (triple_quarantine_safe run path target)) fun r => ?_
  cases r with
  | error e => exact fun _ h => h
  | ok dst =>
    intro w h
    have hover : Safe env m t₀ (Overwritable env m target) w := by
      refine Safe.mono h fun hgone => ⟨hgone.1, fun c hc => ?_⟩
      obtain ⟨f, hf, -⟩ := hc
      rw [hgone.2] at hf
      cases hf
    exact hover

/-- Past the guard, the target holds nothing that may not be written over. -/
theorem triple_guardOverwrite (path : Text) (target : List Text) :
    Triple (Safe env m t₀ (OnGuard m)) (guardOverwrite env path target)
      (fun _ => Safe env m t₀ (Overwritable env m target)) (Safe env m t₀ (OnGuard m)) := by
  unfold guardOverwrite
  refine Triple.get fun w₀ => ?_
  split
  next hnone =>
    rintro w ⟨h, rfl⟩
    refine h.mono fun hg => ?_
    simp [OnGuard, hnone] at hg
  next g hsome =>
    split
    next hfile =>
      rintro w ⟨h, rfl⟩
      refine h.mono fun hg => ⟨hg, fun c hc => ?_⟩
      obtain ⟨f, hf, -⟩ := hc
      rw [Option.isNone_iff_eq_none.mp hfile] at hf
      cases hf
    · refine Triple.bind (triple_readFile target w₀) fun r => ?_
      cases r with
      | error e => exact (triple_moveUnsynced g.run path target).mono (fun _ h => h.1) (fun _ _ h => h) fun _ h => h
      | ok content =>
        dsimp only
        split
        next hsynced =>
          rintro w ⟨h, -, hguard, hcontent⟩
          refine h.mono fun hg => ⟨hg, fun c hc => ?_⟩
          have hgs : g.synced = syncedContents m := by
            simpa [OnGuard, hguard, hsome] using hg
          rw [← holds_unique (hcontent content rfl) hc, Recorded, ← hgs]
          simpa using hsynced
        · exact (triple_moveUnsynced g.run path target).mono (fun _ h => h.1) (fun _ _ h => h) fun _ h => h

/-- Every download goes past the guard, so it keeps the contents. -/
theorem keeps_downloadUnless (f : CloudFile) (unlessHash : Option Text) :
    Keeps (Safe env m t₀ (OnGuard m)) (downloadUnless env f unlessHash) := by
  refine keeps_downloadUnless_of beyond_safe.incidental (fun target _ => triple_guardOverwrite f.path target) ?_ ?_
    unlessHash
  · exact fun w target h => (stable_safe stable_onGuard).failed w _ (h.mono And.left)
  · intro w target written _ h
    exact h.imp (excepted_cons _) fun ⟨hk, hg, ho⟩ => ⟨hk.write _ ho, hg⟩

/-- An upload only reads. -/
theorem keptByStep_safe {v : View} (path : Text) : KeptByStep env cfg v path (Safe env m t₀ (OnGuard m)) where
  step := fun _ => Keeps.modify fun _ h => h.imp_left (excepted_cons _)
  upload := fun _ _ _ =>
    keeps_uploadFile beyond_safe (Set.mem_univ _) fun _ _ _ _ _ h => h.imp_left (excepted_cons _)
  download := fun _ f _ => keeps_downloadUnless f
  copy := fun _ _ _ _ => keeps_downloadUnless _ none
  quarantine := fun _ l _ run => keeps_quarantine run path l.path

/-! ## The engine's own files -/

/-- The engine may write a file of its own. -/
theorem safe_write {w : Engine} {p : List Text} (f : DiskFile) (e : Event)
    (hR : ∀ t, R w → R { w with log := e :: w.log, tree := t }) (hp : ¬UserPath p) (hq : ¬InQuarantine p)
    (h : Safe env m t₀ R w) : Safe env m t₀ R { w with log := e :: w.log, tree := w.tree.write p f } :=
  h.imp (excepted_cons e) fun ⟨hk, hr⟩ => ⟨hk.write_unwatched f hp hq, hR _ hr⟩

theorem not_inQuarantine_singleton (name : Text) : ¬InQuarantine [name] := by
  rintro ⟨rest, hrest, h⟩
  cases h
  exact hrest rfl

theorem keeps_saveManifest_safe : Keeps (Safe env m t₀ (OnGuard m)) (saveManifest env) := by
  refine keeps_saveManifest (stable_safe stable_onGuard) fun w f h => ?_
  exact safe_write f _ (fun _ h => h) (fun hp => hp.1 rfl) (not_inQuarantine_singleton _) h

/-- Pruning is logged where it removes anything. -/
theorem keeps_pruneQuarantine_safe (run : Text) (days : Option Nat) :
    Keeps (Safe env m t₀ (OnGuard m)) (pruneQuarantine env run days) :=
  keeps_pruneQuarantine (stable_safe stable_onGuard)
    (fun _ _ _ => Or.inl ⟨_, List.mem_cons_self, Or.inr rfl⟩) run days

/-! ## The whole run -/

theorem kept_of_untouched {w w' : Engine} (h : Untouched w w') : ContentKept env m w.tree w'.tree := by
  intro p c hp hc
  refine Or.inl ?_
  unfold Tree.Holds
  rw [h.files p hp.2]
  exact hc

theorem safe_of_prepared {listing : List CloudFile} {scan : Scan} {run : Text} {w w₁ : Engine}
    (hm : startManifest env cfg w = some m) (h : Prepared env cfg w listing scan run w₁) :
    Safe env m w.tree (OnGuard m) w₁ := by
  refine Or.inr ⟨kept_of_untouched h.untouched, ?_⟩
  unfold OnGuard
  rw [h.overwriteGuard, hm]
  rfl

theorem safe_reconcile (localOnly : LocalOnly) {w : Engine} (hm : startManifest env cfg w = some m) :
    Safe env m w.tree (fun _ => True) (final (reconcile env cfg localOnly) w) := by
  cases reconcile_ends env cfg localOnly w with
  | moved h =>
    obtain ⟨e, he, h⟩ := h
    exact Or.inl ⟨e, he, Or.inl h⟩
  | early h _ => exact Or.inr ⟨kept_of_untouched h, trivial⟩
  | steps listing scan run w₁ h hw =>
    rw [hw]
    refine Safe.mono (R := OnGuard m) ?_ fun _ => trivial
    exact (keeps_reconcileView filesOnly_safe (fun path => (keptByStep_safe path).named) keeps_pruneQuarantine_safe
      keeps_saveManifest_safe run).final (safe_of_prepared hm h)

/-- For every local tree, provider and disk: in a full sync that starts with a manifest, moves no old
layout aside and prunes no quarantine, every content of the local tree ends up at its path, in
the quarantine, or is one the manifest recorded. -/
theorem reconcile_keeps_unsynced (env : Env) (cfg : SyncConfig) (localOnly : LocalOnly) (w : Engine)
    (m : SyncManifest) (hm : startManifest env cfg w = some m)
    (hlayout : ∀ e ∈ (final (reconcile env cfg localOnly) w).log, movesLayout e = false)
    (hprune : ∀ e ∈ (final (reconcile env cfg localOnly) w).log, prunes e = false) :
    ContentKept env m w.tree (final (reconcile env cfg localOnly) w).tree := by
  rcases safe_reconcile localOnly hm with ⟨e, he, h | h⟩ | ⟨h, -⟩
  · rw [hlayout e he] at h
    cases h
  · rw [hprune e he] at h
    cases h
  · exact h

/-- A provider that lists one file, which changed since the last sync, and a disk that never fails. -/
def editEnv : Env where
  provider :=
    { providerType := .dropbox
      ignoresCase := false
      folderKey := fun folder => folder.getD []
      contentMatches := fun _ _ => false
      accountId := fun _ => .ok none
      listFiles := fun _ _ =>
        .ok [⟨"id".toList, "a.txt".toList, none, 1, 9, some "new".toList, none, false, "/a.txt".toList, false⟩]
      legacyLayoutDir := fun _ _ => .ok none
      uploadFileAt := fun _ _ _ _ => .error .quotaExceeded
      downloadFile := fun _ _ => .ok [3]
      getChangesIn := fun _ _ _ => .error .quotaExceeded }
  clock := fun _ => 10
  fileTime := fun _ => some 10
  ioError := fun _ _ => none
  sha256 := Sha256.digest
  toLowercase := List.map Char.toLower
  percentDecode := some
  runText := fun _ => "20260926T101500Z".toList
  parseRun := fun _ => none
  stampText := fun _ => "20260926_101500".toList
  toManifest := fun _ => .ok .empty
  fromManifest := fun _ => []
  toMarker := fun _ => .ok []
  fromMarker := fun _ => []

def editConfig : SyncConfig :=
  ⟨[], none, .bidirectional, .cloudWins, [], ["*.tmp".toList], none, false, false, none⟩

/-- The last sync left the content `1` in step. -/
def editManifest : SyncManifest :=
  AList.singleton "/a.txt".toList
    ⟨some ⟨"id".toList, some "old".toList, 1, 5⟩, some ⟨1, some 5, some (sha256Hex editEnv [1])⟩, none⟩

/-- The file holds `2` now, an edit no sync has seen. -/
def editEngine : Engine where
  tree := Tree.empty.write ["a.txt".toList] ⟨[2], some 7⟩
  log := []
  state := ⟨none, none, ∅, ∅, ∅, some editManifest⟩
  manifestKey := none
  overwriteGuard := none
  unconfirmed := ∅
  notices := []
  pendingConflicts := []
  result := .new
  retryNeeded := false
  manifest := ∅
  keptRemotely := []
  notMoved := []
  quarantined := []

/-- The remote version is downloaded over the edit, which goes to the quarantine first. -/
theorem edited_file_is_quarantined :
    ContentKept editEnv editManifest editEngine.tree (final (reconcile editEnv editConfig .upload) editEngine).tree ∧
      ((final (reconcile editEnv editConfig .upload) editEngine).tree.files.entries.map fun e =>
        (e.1, e.2.bytes)) =
        [(["a.txt".toList], [3]),
          ([quarantineDir, "20260926T101500Z".toList, "a.txt".toList], [2])] := by
  refine ⟨reconcile_keeps_unsynced editEnv editConfig .upload editEngine editManifest rfl ?_ ?_, ?_⟩
  · decide +kernel
  · decide +kernel
  · decide +kernel

end SyncKeepsContent
