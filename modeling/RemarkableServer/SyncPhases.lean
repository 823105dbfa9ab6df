import RemarkableServer.SyncInvariants

/-!
# The phases of a full sync

A full sync comes to its steps through the manifest, the listing, the old layout
and the local scan. Until then it changes no file but the marker of the old
layout, so what the steps start from is known from the state the sync started in.
-/
namespace CloudSync

open RustText Integrations CloudPaths Effect FileTree

variable {env : Env} {cfg : SyncConfig} {I J : Engine → Prop}

/-! ## Reading -/

/-- What a read returns where the disk does not fail. -/
theorem attempt_readFile {w : Engine} {q : List Text} {f : DiskFile} (hio : env.ioError w.log (.read q) = none)
    (hf : w.tree.file? q = some f) :
    attempt (readFile env q) w = .ok (.ok f.bytes) { w with log := .disk (.read q) true :: w.log } := by
  unfold attempt readFile disk
  rw [hio]
  dsimp only
  rw [hf]

/-! ## Moves to the quarantine -/

def InQuarantine (p : List Text) : Prop := ∃ rest, rest ≠ [] ∧ p = quarantineDir :: rest

theorem numberedName_injective (name : Text) : Function.Injective (numberedName name) := by
  have hdigits : ∀ n, Nat.ofDigitChars 10 (showU64 n) 0 = n := fun n =>
    Nat.ofDigitChars_toDigits (by decide) (by decide)
  intro a b h
  unfold numberedName at h
  split at h <;> split at h
  · omega
  · have hl := congrArg List.length h
    simp at hl
  · have hl := congrArg List.length h
    simp at hl
  · have hs : showU64 (a + 1) = showU64 (b + 1) := by
      simpa only [List.append_assoc, List.append_cancel_left_eq, List.append_cancel_right_eq] using h
    have hn := congrArg (Nat.ofDigitChars 10 · 0) hs
    simp only [hdigits] at hn
    omega

theorem taken_freePath (t : LocalTree) (dir : List Text) (name : Text) : t.taken (freePath t dir name) = false := by
  refine t.taken_firstFree ?_ ?_
  · intro a b h
    exact numberedName_injective name (List.singleton_inj.mp (List.append_cancel_left h))
  · intro n h
    simp at h

theorem freePath_eq (t : LocalTree) (dir : List Text) (name : Text) :
    ∃ n, freePath t dir name = dir ++ [numberedName name n] := by
  unfold freePath Tree.firstFree
  cases hf : List.find? (fun p => !t.taken p) _ with
  | none => exact ⟨0, rfl⟩
  | some p =>
    obtain ⟨n, -, rfl⟩ := List.mem_map.mp (List.mem_of_find?_eq_some hf)
    exact ⟨n, rfl⟩

/-- Where the quarantine run puts the file of a path: under the components of the path, the last one
with a number if it is taken. -/
def QuarantinePlace (run path : Text) (dst : List Text) : Prop :=
  ∃ parts name n, cloudPathComponents path = .ok parts ∧ parts.getLast? = some name ∧
    dst = quarantineDir :: run :: (parts.dropLast ++ [numberedName name n])

theorem QuarantinePlace.inQuarantine {run path : Text} {dst : List Text} (h : QuarantinePlace run path dst) :
    InQuarantine dst := by
  obtain ⟨parts, name, n, -, -, rfl⟩ := h
  exact ⟨run :: (parts.dropLast ++ [numberedName name n]), by simp, rfl⟩

theorem triple_ofExcept {α : Type} (r : Except IntegrationError α) :
    Triple I (ofExcept r) (fun a w => I w ∧ r = .ok a) I := by
  cases r with
  | ok a => exact fun _ h => ⟨h, rfl⟩
  | error e => exact fun _ h => h

/-- A file goes to its place in the quarantine, which is free, or stays where it is. -/
theorem triple_quarantine_place (hI : Stable I) (hJ : Stable J) (hweak : ∀ w, J w → I w) (run path : Text)
    (src : List Text)
    (hmove : ∀ w f dst, I w → w.tree.file? src = some f → w.tree.file? dst = none → QuarantinePlace run path dst →
      env.ioError w.log (.move src dst) = none →
      J { w with log := .disk (.move src dst) true :: w.log, tree := w.tree.move src dst }) :
    Triple I (quarantine env run path src) (fun _ => J) I := by
  unfold quarantine
  refine Triple.bind (triple_ofExcept _) fun parts => ?_
  refine Triple.assume fun hparts => ?_
  split
  · exact fun _ h => h
  next name hname =>
    refine Triple.bind (keeps_stat hI _) fun _ => ?_
    refine Triple.bind (keeps_stat hI _) fun _ => ?_
    refine Triple.bind (keeps_stat hI _) fun isDir => ?_
    dsimp only
    split
    · exact fun _ h => h
    · refine Triple.bind (triple_createDirsWithin hI _) fun dir => ?_
      split
      · exact fun _ h => h.1
      next dir =>
        refine Triple.get fun w₀ => ?_
        refine Triple.bind (R := fun _ => J) (triple_disk_done ?_ ?_) fun _ => ?_
        · rintro w ⟨⟨h, -⟩, -⟩
          exact hI.failed w _ h
        · rintro w a t ⟨⟨h, hdir⟩, rfl⟩ hio ha
          obtain rfl := hdir dir rfl
          obtain ⟨n, hn⟩ := freePath_eq w.tree ([quarantineDir, run] ++ parts.dropLast) name
          split at ha
          next hs =>
            cases ha
            obtain ⟨f, hf⟩ := Option.isSome_iff_exists.mp hs
            exact hmove w f _ h hf (Tree.taken_eq_false (taken_freePath _ _ _)) ⟨parts, name, n, hparts, hname, hn⟩ hio
          · cases ha
        · refine Triple.bind ((keeps_removeEmptied hJ _ _).mono (fun _ h => h) (fun _ _ h => h) hweak) fun _ => ?_
          exact fun _ h => h

theorem triple_quarantine (hI : Stable I) (hJ : Stable J) (hweak : ∀ w, J w → I w) (run path : Text)
    (src : List Text)
    (hmove : ∀ w f dst, I w → w.tree.file? src = some f → w.tree.file? dst = none → InQuarantine dst →
      J { w with log := .disk (.move src dst) true :: w.log, tree := w.tree.move src dst }) :
    Triple I (quarantine env run path src) (fun _ => J) I :=
  triple_quarantine_place hI hJ hweak run path src fun w f dst h hf hdst hplace _ =>
    hmove w f dst h hf hdst hplace.inQuarantine

/-! ## Downloads -/

/-- Neither a notice nor what is noted of a synced path matters to the property. -/
structure Incidental (I : Engine → Prop) : Prop where
  stable : Stable I
  notices : ∀ w n, I w → I { w with notices := n }
  synced : ∀ w path id hash time, I w → I { w with state := w.state.record path id hash time }

theorem Beyond.incidental {S : Set Text} (hI : Beyond S I) : Incidental I where
  stable := hI.stable
  notices := fun w _ => hI.fields w _ ⟨rfl, rfl, rfl, rfl, fun _ _ => rfl, fun _ _ => rfl⟩
  synced := fun w _ _ _ _ => hI.fields w _ ⟨rfl, rfl, rfl, rfl, fun _ _ => rfl, fun _ _ => rfl⟩

/-- The overwrite guard moves the file at the target to the quarantine or lets it be. -/
theorem keeps_guardOverwrite (hI : Incidental I) {path : Text} {target : List Text}
    (hmove : ∀ run, Keeps I (quarantine env run path target)) : Keeps I (guardOverwrite env path target) := by
  have hmoved : ∀ run, Keeps I (moveUnsynced env run path target) := by
    intro run
    refine Keeps.bind (keeps_attempt (hmove run)) fun r => ?_
    cases r with
    | ok dst => exact Keeps.modify fun w h => hI.notices w _ h
    | error e => exact Keeps.throw _
  unfold guardOverwrite
  refine Keeps.bind Keeps.get fun w => ?_
  split
  · exact Keeps.pure _
  · split
    · exact Keeps.pure _
    · refine Keeps.bind (keeps_attempt (keeps_readFile hI.stable _)) fun r => ?_
      cases r with
      | error e => exact hmoved _
      | ok content =>
        dsimp only
        split
        · exact Keeps.pure _
        · exact hmoved _

/-- A download fetches the content and writes it at the path of its file, past the guard. -/
theorem triple_downloadUnless {E : Engine → Prop} {F : Bytes → Engine → Prop} {K : Bytes → List Text → Engine → Prop}
    {Q : Bytes → DiskFile → Engine → Prop} {f : CloudFile} (hF : ∀ content, Stable (F content))
    (hQ : ∀ content written w, Q content written w → ∀ path id hash time,
      Q content written { w with state := w.state.record path id hash time })
    (hIE : ∀ w, I w → E w) (hFE : ∀ content w, F content w → E w)
    (hcall : ∀ w, I w → E { w with log := .call (.downloadFile f.id) false :: w.log })
    (hfetch : ∀ w content, I w → env.provider.downloadFile w.log f.id = .ok content →
      F content { w with log := .call (.downloadFile f.id) true :: w.log })
    (hguard : ∀ content target, cloudPathComponents f.path = .ok target →
      Triple (F content) (guardOverwrite env f.path target) (fun _ => K content target) E)
    (hfail : ∀ w content target, K content target w → E { w with log := .disk (.write target) false :: w.log })
    (hwrite : ∀ w content target time, cloudPathComponents f.path = .ok target → K content target w →
      Q content ⟨content, time⟩
        { w with log := .disk (.write target) true :: w.log, tree := w.tree.write target ⟨content, time⟩ })
    (unlessHash : Option Text) :
    Triple I (downloadUnless env f unlessHash)
      (fun r w => (r = none ∧ ∃ content, unlessHash = some (sha256Hex env content) ∧ F content w) ∨
        ∃ content written, r = some ⟨written.bytes.length, written.mtimeNs, some (sha256Hex env content)⟩ ∧
          written.bytes = content ∧ Q content written w) E := by
  unfold downloadUnless
  cases hparts : cloudPathComponents f.path with
  | error e => exact fun w h => hIE w h
  | ok parts =>
    refine Triple.bind (R := fun a w => I w ∧ a = parts) (fun w h => ⟨h, rfl⟩) fun a => ?_
    refine Triple.assume fun ha => ?_
    subst ha
    refine Triple.bind (R := fun _ => I) (fun _ h => h) fun w₀ => ?_
    dsimp only
    split
    · exact fun w h => hIE w h
    · refine Triple.bind (R := F) ?_ fun content => ?_
      · intro w h
        unfold call
        dsimp only
        cases ha : env.provider.downloadFile w.log f.id with
        | error e => exact hcall w h
        | ok content => exact hfetch w content h ha
      split
      next hsame => exact fun w h => Or.inl ⟨rfl, content, beq_iff_eq.mp hsame, h⟩
      · refine Triple.bind ((triple_writing (triple_createDirsWithin (hF content) _)).mono (fun _ h => h)
          (fun _ _ h => h) fun w h => hFE content w h) fun dir => ?_
        cases dir with
        | none => exact fun w h => hFE content w h.1
        | some dir =>
          refine Triple.assume fun hdir => ?_
          obtain rfl := hdir dir rfl
          have htarget : a.dropLast ++ a.getLast?.toList = a := by
            cases a using List.reverseRecOn <;> simp
          dsimp only
          rw [htarget]
          refine Triple.bind (hguard content a hparts) fun _ => ?_
          refine Triple.bind (triple_writing (triple_writeReplace (fun w h => hfail w content a h)
            fun w time h => hwrite w content a time hparts h)) fun written => ?_
          refine Triple.bind (R := fun _ w => written.bytes = content ∧ Q content written w) ?_ fun _ w h => ?_
          · exact fun w h => ⟨h.1, hQ content written w h.2 _ _ _ _⟩
          · exact Or.inr ⟨content, written, rfl, h⟩

/-- A download keeps what the guard and the write keep. -/
theorem keeps_downloadUnless_of (hI : Incidental I) {K : List Text → Engine → Prop} {f : CloudFile}
    (hguard : ∀ target, cloudPathComponents f.path = .ok target →
      Triple I (guardOverwrite env f.path target) (fun _ => K target) I)
    (hfail : ∀ w target, K target w → I { w with log := .disk (.write target) false :: w.log })
    (hwrite : ∀ w target written, cloudPathComponents f.path = .ok target → K target w →
      I { w with log := .disk (.write target) true :: w.log, tree := w.tree.write target written })
    (unlessHash : Option Text) : Keeps I (downloadUnless env f unlessHash) := by
  refine (triple_downloadUnless (F := fun _ => I) (K := fun _ => K) (Q := fun _ _ => I) (E := I)
    (fun _ => hI.stable) (fun _ _ w h _ _ _ _ => hI.synced w _ _ _ _ h) (fun _ h => h) (fun _ _ h => h)
    (fun w h => hI.stable.log w rfl h) (fun w _ h _ => hI.stable.log w rfl h) (fun _ => hguard)
    (fun w _ => hfail w) (fun w _ target _ hp h => hwrite w target _ hp h) unlessHash).mono
    (fun _ h => h) ?_ fun _ h => h
  rintro r w (⟨-, -, -, h⟩ | ⟨-, -, -, -, h⟩)
  · exact h
  · exact h

/-! ## Pruning -/

theorem keeps_pruneRun (hI : Stable I) (hremove : ∀ w name, I w →
      I { w with log := .disk (.removeAll [quarantineDir, name]) true :: w.log
                 tree := w.tree.removeAll [quarantineDir, name] })
    (run : Text) (cutoff : Option Int) (removed left : Nat) (name : Text) :
    Keeps I (pruneRun env run cutoff removed left name) := by
  unfold pruneRun
  refine Keeps.bind (keeps_stat hI _) fun isDir => ?_
  split
  · refine Keeps.bind (triple_disk (fun w => hI.failed w _) fun w a t h ha => ?_) fun _ => Keeps.pure _
    cases ha
    exact hremove w name h
  · exact Keeps.bind Keeps.get fun _ => Keeps.pure _

theorem keeps_pruneRuns (hI : Stable I) (hremove : ∀ w name, I w →
      I { w with log := .disk (.removeAll [quarantineDir, name]) true :: w.log
                 tree := w.tree.removeAll [quarantineDir, name] })
    (run : Text) (cutoff : Option Int) (removed left : Nat) (names : List Text) :
    Keeps I (pruneRuns env run cutoff removed left names) := by
  induction names generalizing removed left with
  | nil => exact Keeps.pure _
  | cons name names ih => exact Keeps.bind (keeps_pruneRun hI hremove run cutoff removed left name) fun n => ih n.1 n.2

/-- The pruning takes whole runs out of the quarantine. -/
theorem keeps_pruneQuarantine (hI : Stable I) (hremove : ∀ w name, I w →
      I { w with log := .disk (.removeAll [quarantineDir, name]) true :: w.log
                 tree := w.tree.removeAll [quarantineDir, name] })
    (run : Text) (days : Option Nat) : Keeps I (pruneQuarantine env run days) := by
  have hcutoff : Keeps I (pruneCutoff env run days) := by
    unfold pruneCutoff
    split
    · exact keeps_ofPanicking _
    · exact Keeps.pure _
  unfold pruneQuarantine
  refine Keeps.bind Keeps.get fun w => ?_
  split
  · exact Keeps.pure _
  · split
    · split
      · exact Keeps.pure _
      · exact Keeps.throw _
    · refine Keeps.bind hcutoff fun cutoff => ?_
      refine Keeps.bind (keeps_look hI rfl fun t a t' h => ?_) fun names =>
        keeps_pruneRuns hI hremove run cutoff 0 0 names
      cases h
      rfl

/-! ## What the disk and the provider do not matter to -/

/-- Neither what is done to the disk or asked of the provider nor what the steps for the paths `S`
record matters to the property. -/
structure Loose (S : Set Text) (I : Engine → Prop) : Prop where
  event : ∀ w e t, (∀ path s, e = .step path s → path ∈ S) → I w → I { w with log := e :: w.log, tree := t }
  fields : ∀ w w', SameBut S w w' → I w → I w'

section Loose
variable {S : Set Text} (hL : Loose S I)

include hL

theorem Loose.disk (w : Engine) (op : DiskOp) (ok : Bool) (t : LocalTree) (h : I w) :
    I { w with log := .disk op ok :: w.log, tree := t } :=
  hL.event w _ t (fun _ _ he => nomatch he) h

theorem Loose.beyond : Beyond S I where
  stable := by
    intro w e t he h _
    refine hL.event w e t ?_ h
    rintro path s rfl
    cases he
  fields := hL.fields

theorem Loose.quarantine (run path : Text) (src : List Text) : Keeps I (quarantine env run path src) :=
  triple_quarantine hL.beyond.stable hL.beyond.stable (fun _ h => h) run path src
    fun w _ _ h _ _ _ => hL.disk w _ _ _ h

theorem Loose.downloadUnless (f : CloudFile) (unlessHash : Option Text) :
    Keeps I (downloadUnless env f unlessHash) :=
  keeps_downloadUnless_of hL.beyond.incidental (K := fun _ => I)
    (fun target _ => keeps_guardOverwrite hL.beyond.incidental fun run => hL.quarantine run f.path target)
    (fun w _ h => hL.disk w _ _ _ h) (fun w _ _ _ h => hL.disk w _ _ _ h) unlessHash

/-- The steps for the paths `S` keep the property. -/
theorem Loose.keptByStep {v : View} {path : Text} (hpath : path ∈ S) : KeptByStep env cfg v path I where
  step := by
    refine fun s => Keeps.modify fun w h => hL.event w _ w.tree ?_ h
    intro path' s' he
    cases he
    exact hpath
  upload := fun _ _ _ =>
    keeps_uploadFile hL.beyond hpath fun w _ _ _ _ h => hL.event w _ w.tree (fun _ _ he => nomatch he) h
  download := fun _ f _ => hL.downloadUnless f
  copy := fun _ _ _ _ => hL.downloadUnless _ none
  quarantine := fun _ l _ run => hL.quarantine run path l.path

theorem Loose.pruneQuarantine (run : Text) (days : Option Nat) : Keeps I (pruneQuarantine env run days) :=
  keeps_pruneQuarantine hL.beyond.stable (fun w _ h => hL.disk w _ _ _ h) run days

theorem Loose.saveManifest : Keeps I (saveManifest env) :=
  keeps_saveManifest hL.beyond.stable fun w _ h => hL.disk w _ _ _ h

end Loose

/-! ## The old layout -/

/-- An old-layout directory was moved aside. -/
def movesLayout : Event → Bool
  | .disk (.moveDir _ _) true => true
  | _ => false

def LayoutMoved (log : Log) : Prop := ∃ e ∈ log, movesLayout e = true

theorem layoutMoved_cons {log : Log} (e : Event) (h : LayoutMoved log) : LayoutMoved (e :: log) := by
  obtain ⟨e', he, h⟩ := h
  exact ⟨e', List.mem_cons_of_mem e he, h⟩

theorem stable_layoutMoved : Stable fun w => LayoutMoved w.log := fun _ e _ _ h _ => layoutMoved_cons e h

theorem keeps_createDirAll (hI : Stable I) (rel : List Text) : Keeps I (createDirAll env rel) := by
  refine Keeps.bind (keeps_createDirsWithin hI _) fun dir => ?_
  cases dir with
  | some _ => exact Keeps.pure _
  | none => exact Keeps.throw _

/-- A directory moved aside is in the log. -/
theorem triple_moveLayoutDir (hI : Stable I) (rel : List Text) :
    Triple I (moveLayoutDir env rel) (fun _ w => LayoutMoved w.log) I := by
  unfold moveLayoutDir
  refine Triple.bind Keeps.get fun w₀ => ?_
  refine Triple.bind (keeps_createDirAll hI _) fun _ => ?_
  refine Triple.bind (R := fun _ (w : Engine) => LayoutMoved w.log)
    (triple_disk (fun w => hI.failed w _) fun w a t _ _ => ?_) fun _ _ h => h
  exact ⟨_, List.mem_cons_self, rfl⟩

theorem triple_moveLayoutDirs (hI : Stable I) (hmoved : ∀ w, LayoutMoved w.log → I w) (rels : List (List Text)) :
    Triple I (moveLayoutDirs env rels) (fun moved w => I w ∧ (moved ≠ [] → LayoutMoved w.log)) I := by
  induction rels generalizing I with
  | nil => exact fun w h => ⟨h, fun hne => absurd rfl hne⟩
  | cons rel rels ih =>
    refine Triple.bind (triple_moveLayoutDir hI rel) fun moved => ?_
    refine Triple.bind ((ih stable_layoutMoved fun _ h => h).mono (fun _ h => h) (fun _ _ h => h) hmoved) fun rest => ?_
    exact fun w h => ⟨hmoved w h.1, fun _ => h.1⟩

/-- Moving the old layout aside writes its marker, or says in the log that it moved something. -/
theorem triple_moveLegacyLayout (hI : Stable I) (hmoved : ∀ w, LayoutMoved w.log → I w)
    (hmarker : ∀ w f, I w →
      I { w with log := .disk (.write [layoutMarker]) true :: w.log, tree := w.tree.write [layoutMarker] f })
    (cloud : PathMap CloudFile) :
    Triple I (moveLegacyLayout env cfg cloud) (fun r w => I w ∧ (r.2 = true → LayoutMoved w.log)) I := by
  have hidle : ∀ w, I w → I w ∧ (false = true → LayoutMoved w.log) := fun w h => ⟨h, fun hf => nomatch hf⟩
  unfold moveLegacyLayout
  refine Triple.bind (keeps_call hI rfl) fun dir => ?_
  cases dir with
  | none => exact hidle
  | some dir =>
    dsimp only
    split
    · exact hidle
    · refine Triple.bind (keeps_readMarker hI) fun handled => ?_
      split
      · exact hidle
      · have hmove : Triple I (moveOldLayout env dir)
            (fun moved w => I w ∧ (moved ≠ [] → LayoutMoved w.log)) I := by
          refine Triple.bind (keeps_look hI rfl fun t a t' h => ?_) fun t => triple_moveLayoutDirs hI hmoved _
          cases h
          rfl
        refine Triple.bind hmove fun moved => ?_
        refine Triple.bind (R := fun _ w => I w ∧ (moved ≠ [] → LayoutMoved w.log))
          ((keeps_writeReplace ?_ ?_).mono (fun _ h => h) (fun _ _ h => h) fun _ h => h.1) fun _ => ?_
        · exact fun w e t he h ht => ⟨hI w e t he h.1 ht, fun hne => layoutMoved_cons e (h.2 hne)⟩
        · exact fun w f h => ⟨hmarker w f h.1, fun hne => layoutMoved_cons _ (h.2 hne)⟩
        · refine fun w h => ⟨h.1, fun hne => h.2 ?_⟩
          simpa using hne

/-! ## Up to the steps -/

/-- The manifest a sync starts from: the engine's own, or the stored one it loads. -/
def startManifest (env : Env) (cfg : SyncConfig) (w : Engine) : Option SyncManifest :=
  (final (loadManifest env cfg) w.start).state.manifest

/-- An engine that keeps no state on disk starts from its own manifest. -/
theorem startManifest_unsaved (env : Env) {cfg : SyncConfig} (hcfg : cfg.persistState = false) (w : Engine) :
    startManifest env cfg w = w.state.manifest := by
  have hload : loadManifest env cfg w.start = .ok () w.start := by
    unfold loadManifest
    rw [hcfg]
    rfl
  rw [startManifest, final, hload]
  rfl

/-- Nothing is changed but the marker of the old layout. -/
def Event.prepares : Event → Bool
  | .disk (.write p) true => p == [layoutMarker]
  | e => e.quiet

/-- The second state comes from the first before any step. -/
structure Untouched (w w' : Engine) : Prop where
  files : ∀ p, p ≠ [layoutMarker] → w'.tree.file? p = w.tree.file? p
  log : ∀ e ∈ w'.log, e.prepares = true

theorem prepares_of_quiet {e : Event} (h : e.quiet = true) : e.prepares = true := by
  unfold Event.prepares
  split
  · cases h
  · exact h

theorem Untouched.event {w w' : Engine} {e : Event} {t : LocalTree} (h : Untouched w w') (he : e.prepares = true)
    (ht : ∀ p, p ≠ [layoutMarker] → t.file? p = w'.tree.file? p) :
    Untouched w { w' with log := e :: w'.log, tree := t } where
  files := fun p hp => (ht p hp).trans (h.files p hp)
  log := by
    intro e' he'
    rcases List.mem_cons.mp he' with rfl | he'
    · exact he
    · exact h.log e' he'

theorem Untouched.fields {w w₁ w₂ : Engine} (h : Untouched w w₁) (htree : w₂.tree = w₁.tree)
    (hlog : w₂.log = w₁.log) : Untouched w w₂ :=
  ⟨fun p hp => (congrArg (·.file? p) htree).trans (h.files p hp), fun e he => h.log e (hlog ▸ he)⟩

theorem filesOnly_untouched (w : Engine) : FilesOnly (Untouched w) where
  stable := fun _ _ _ he h ht => h.event (prepares_of_quiet he) fun p _ => ht p
  fields := fun _ _ htree hlog _ h => h.fields htree hlog

theorem keeps_loadManifest (hI : FilesOnly I) : Keeps I (loadManifest env cfg) := by
  unfold loadManifest
  refine Keeps.bind Keeps.get fun w₀ => ?_
  split
  · exact Keeps.pure _
  · refine Keeps.bind (keeps_call hI.stable rfl) fun account => ?_
    dsimp only
    split
    · refine Keeps.bind (keeps_readManifestFile hI.stable) fun stored => ?_
      refine Keeps.bind (keeps_updateState hI _) fun _ => ?_
      exact hI.modify fun _ => ⟨rfl, rfl, rfl⟩
    · exact hI.modify fun _ => ⟨rfl, rfl, rfl⟩

/-- Before the steps, in a sync that has moved no old layout. -/
def Preparing (m : Option SyncManifest) (w w' : Engine) : Prop :=
  LayoutMoved w'.log ∨ Untouched w w' ∧ w'.state.manifest = m

theorem stable_preparing (m : Option SyncManifest) (w : Engine) : Stable (Preparing m w) := by
  intro w' e t he h ht
  exact h.imp (layoutMoved_cons e) fun ⟨hu, hm⟩ => ⟨(filesOnly_untouched w).stable w' e t he hu ht, hm⟩

theorem preparing_marker {m : Option SyncManifest} {w w' : Engine} (f : DiskFile) (h : Preparing m w w') :
    Preparing m w { w' with log := .disk (.write [layoutMarker]) true :: w'.log
                            tree := w'.tree.write [layoutMarker] f } := by
  refine h.imp (layoutMoved_cons _) fun ⟨hu, hm⟩ => ⟨hu.event rfl fun p hp => ?_, hm⟩
  rw [Tree.file?_write, if_neg hp]

/-- The two sides of a sync, from the listing, the scan and the manifest. -/
def viewOf (env : Env) (cfg : SyncConfig) (localOnly : LocalOnly) (listing : List CloudFile) (scan : Scan)
    (base : Option SyncManifest) : View :=
  let s := lineUp env cfg { scan with files := retain (fun path _ => !isReserved path) scan.files }
    (retain (fun path _ => !isReserved path) (cloudMap listing)) base
  ⟨s.files, s.cloud, s.base, s.outOfView, s.found, listing.isEmpty, localOnly⟩

/-- What the steps of a sync started at `w` start from. -/
structure Prepared (env : Env) (cfg : SyncConfig) (w : Engine) (listing : List CloudFile) (scan : Scan)
    (run : Text) (w₁ : Engine) : Prop where
  untouched : Untouched w w₁
  listed : ∃ log, env.provider.listFiles log cfg.cloudFolder = .ok listing
  scanned : scanEntries cfg w₁.tree ⟨∅, []⟩ w₁.tree.entries = some scan
  overwriteGuard : w₁.overwriteGuard = (startManifest env cfg w).map (OverwriteGuard.of · run)
  stored : w₁.state.manifest = none
  unconfirmed : w₁.unconfirmed = ∅
  manifest : w₁.manifest = ∅

/-- How a sync that moves no old layout ends: before the steps, with the manifest it started from,
or after the steps for the two sides it found. -/
inductive Ends (env : Env) (cfg : SyncConfig) (localOnly : LocalOnly) (w w' : Engine) : Prop where
  | moved (h : LayoutMoved w'.log)
  | early (h : Untouched w w') (hm : w'.state.manifest = startManifest env cfg w)
  | steps (listing : List CloudFile) (scan : Scan) (run : Text) (w₁ : Engine)
      (h : Prepared env cfg w listing scan run w₁)
      (hw : w' = final (reconcileView env cfg
        (viewOf env cfg localOnly listing scan (startManifest env cfg w)) run) w₁)

theorem filesOnly_layoutMoved : FilesOnly fun w => LayoutMoved w.log where
  stable := stable_layoutMoved
  fields := fun _ _ _ hlog _ h => hlog ▸ h

/-- A move of the old layout stays in the log. -/
theorem keeps_layoutMoved (v : View) (run : Text) :
    Keeps (fun w => LayoutMoved w.log) (reconcileView env cfg v run) := by
  have hL : Loose Set.univ fun w : Engine => LayoutMoved w.log :=
    ⟨fun _ e _ _ h => layoutMoved_cons e h, filesOnly_layoutMoved.beyond.fields⟩
  exact keeps_reconcileView filesOnly_layoutMoved (fun _ => (hL.keptByStep (Set.mem_univ _)).named) hL.pruneQuarantine
    hL.saveManifest run

/-- The steps move no old layout. -/
theorem keeps_layoutStays (v : View) (run : Text) :
    Keeps (fun w => ∀ e ∈ w.log, movesLayout e = false) (reconcileView env cfg v run) := by
  have hcons : ∀ {log : Log} {e : Event}, movesLayout e = false → (∀ e ∈ log, movesLayout e = false) →
      ∀ e' ∈ e :: log, movesLayout e' = false :=
    fun he h e' he' => (List.mem_cons.mp he').elim (fun heq => heq ▸ he) (h e')
  have hI : FilesOnly fun w : Engine => ∀ e ∈ w.log, movesLayout e = false := by
    refine ⟨fun w e t he h _ => hcons ?_ h, fun _ _ _ hlog _ h => hlog ▸ h⟩
    unfold movesLayout
    split
    · cases he
    · rfl
  have hB : Beyond Set.univ fun w : Engine => ∀ e ∈ w.log, movesLayout e = false := hI.beyond
  have hmove : ∀ run path src, Keeps (fun w : Engine => ∀ e ∈ w.log, movesLayout e = false)
      (quarantine env run path src) := fun run path src =>
    triple_quarantine hI.stable hI.stable (fun _ h => h) run path src fun _ _ _ h _ _ _ => hcons rfl h
  have hdown : ∀ f h, Keeps (fun w : Engine => ∀ e ∈ w.log, movesLayout e = false) (downloadUnless env f h) := fun f h =>
    keeps_downloadUnless_of hB.incidental (K := fun _ w => ∀ e ∈ w.log, movesLayout e = false)
      (fun target _ => keeps_guardOverwrite hB.incidental fun run => hmove run f.path target)
      (fun _ _ h => hcons rfl h) (fun _ _ _ _ h => hcons rfl h) h
  have hstep : ∀ path, KeptByStep env cfg v path fun w => ∀ e ∈ w.log, movesLayout e = false := by
    intro path
    constructor
    · exact fun _ => Keeps.modify fun _ h => hcons rfl h
    · exact fun _ _ _ => keeps_uploadFile hB (Set.mem_univ path) fun _ _ _ _ _ h => hcons rfl h
    · exact fun _ f _ h => hdown f h
    · exact fun _ _ _ _ => hdown _ none
    · exact fun _ l _ run => hmove run path l.path
  exact keeps_reconcileView hI (fun path => (hstep path).named)
    (keeps_pruneQuarantine hI.stable fun _ _ h => hcons rfl h) (keeps_saveManifest hI.stable fun _ _ h => hcons rfl h) run

/-- What a call returns is an answer of the provider. -/
theorem triple_call {α : Type} {c : Call} {answer : Log → Except IntegrationError α} (hI : Stable I)
    (hc : c.quiet = true) : Triple I (call c answer) (fun a w => I w ∧ ∃ log, answer log = .ok a) I := by
  intro w h
  unfold call
  cases ha : answer w.log with
  | error e => exact hI.log w hc h
  | ok a => exact ⟨hI.log w hc h, w.log, ha⟩

theorem triple_listLocalFiles (hI : Stable I) :
    Triple I (listLocalFiles env cfg)
      (fun scan w => I w ∧ scanEntries cfg w.tree ⟨∅, []⟩ w.tree.entries = some scan) I := by
  refine Triple.bind (R := fun t w => I w ∧ t = w.tree) (triple_disk (fun w => hI.failed w _) ?_) fun t => ?_
  · intro w a t h ha
    cases ha
    exact ⟨hI.log w rfl h, rfl⟩
  · rintro w ⟨h, rfl⟩
    cases hs : scanEntries cfg w.tree ⟨∅, []⟩ w.tree.entries with
    | none => exact h
    | some scan => exact ⟨h, hs⟩

theorem ends_of_preparing {localOnly : LocalOnly} {w w' : Engine}
    (h : Preparing (startManifest env cfg w) w w') : Ends env cfg localOnly w w' := by
  rcases h with h | ⟨hu, hm⟩
  · exact .moved h
  · exact .early hu hm

theorem triple_failed (localOnly : LocalOnly) (w : Engine) (e : SyncError) :
    Triple (Preparing (startManifest env cfg w) w) (failed e) (fun _ => Ends env cfg localOnly w)
      (Ends env cfg localOnly w) := by
  intro w' h
  have h' : Preparing (startManifest env cfg w) w
      { w' with result := { w'.result with status := .failed, errors := w'.result.errors ++ [e] } } :=
    h.imp_right fun ⟨hu, hm⟩ => ⟨hu.fields rfl rfl, hm⟩
  exact ends_of_preparing h'

theorem triple_reconcileListing (localOnly : LocalOnly) (w : Engine) {listing : List CloudFile}
    (hlisted : ∃ log, env.provider.listFiles log cfg.cloudFolder = .ok listing) :
    Triple (Preparing (startManifest env cfg w) w) (reconcileListing env cfg localOnly listing)
      (fun _ => Ends env cfg localOnly w) (Ends env cfg localOnly w) := by
  have hS : Stable (Preparing (startManifest env cfg w) w) := stable_preparing _ w
  unfold reconcileListing
  refine Triple.bind ((triple_attempt (triple_moveLegacyLayout hS (fun _ => Or.inl)
    (fun _ f h => preparing_marker f h) (cloudMap listing))).mono (fun _ h => h) (fun _ _ h => h)
    fun _ => ends_of_preparing) fun r => ?_
  cases r with
  | error e => exact triple_failed localOnly w _
  | ok r =>
    obtain ⟨notices, movedLayout⟩ := r
    let P (w' : Engine) : Prop :=
      Preparing (startManifest env cfg w) w w' ∧ (movedLayout = true → LayoutMoved w'.log)
    have hP : Stable P := fun w' e t he h ht => ⟨hS w' e t he h.1 ht, fun hm => layoutMoved_cons e (h.2 hm)⟩
    have hends : ∀ w', P w' → Ends env cfg localOnly w w' := fun _ h => ends_of_preparing h.1
    refine Triple.bind (R := fun _ => P) ?_ fun _ => ?_
    · rintro w' ⟨h, hm⟩
      exact ⟨h.imp_right fun ⟨hu, hb⟩ => ⟨hu.fields rfl rfl, hb⟩, hm⟩
    refine Triple.bind ((triple_attempt (triple_listLocalFiles hP)).mono (fun _ h => h) (fun _ _ h => h) hends)
      fun r => ?_
    cases r with
    | error e => exact (triple_failed localOnly w _).mono (fun _ h => h.1) (fun _ _ h => h) fun _ h => h
    | ok scan =>
      refine Triple.bind (R := fun time w' => P w' ∧ scanEntries cfg w'.tree ⟨∅, []⟩ w'.tree.entries = some scan)
        ?_ fun time => ?_
      · exact fun w' h => ⟨hP.log w' rfl h.1, h.2⟩
      refine Triple.bind (R := fun base w₁ => LayoutMoved w₁.log ∨
        base = startManifest env cfg w ∧ Prepared env cfg w listing scan (env.runText time) w₁) ?_ fun base => ?_
      · rintro w' ⟨⟨h, hmoved⟩, hscan⟩
        cases movedLayout with
        | true => exact Or.inl (hmoved rfl)
        | false =>
          refine h.imp_right fun ⟨hu, hm⟩ => ⟨hm, ?_⟩
          exact ⟨hu.fields rfl rfl, hlisted, hscan, congrArg (Option.map _) hm, rfl, rfl, rfl⟩
      · rintro w₁ (h | ⟨rfl, h⟩)
        · exact ((keeps_layoutMoved _ _).mono (fun _ h => h) (fun _ _ => .moved) fun _ => .moved) w₁ h
        · exact ((Triple.start _ w₁).mono (fun _ h => h) (fun _ _ => .steps listing scan _ w₁ h)
            fun _ => .steps listing scan _ w₁ h) w₁ rfl

/-- The phases of a full sync. -/
theorem reconcile_ends (env : Env) (cfg : SyncConfig) (localOnly : LocalOnly) (w : Engine) :
    Ends env cfg localOnly w (final (reconcile env cfg localOnly) w) := by
  have hload : ∀ s, s = final (attempt (loadManifest env cfg)) w.start →
      Preparing (startManifest env cfg w) w s := by
    rintro s rfl
    rw [final_attempt]
    have hstart : Untouched w w.start := ⟨fun _ _ => rfl, fun _ he => nomatch he⟩
    exact Or.inr ⟨(keeps_loadManifest (filesOnly_untouched w)).final hstart, rfl⟩
  have hS : Stable (Preparing (startManifest env cfg w) w) := stable_preparing _ w
  have hrun : Triple (· = w) (reconcile env cfg localOnly) (fun _ => Ends env cfg localOnly w)
      (Ends env cfg localOnly w) := by
    unfold reconcile
    refine Triple.bind (R := fun _ => (· = w.start)) (fun s hs => congrArg Engine.start hs) fun _ => ?_
    refine Triple.bind ((Triple.start (attempt (loadManifest env cfg)) w.start).mono (fun _ h => h)
      (fun _ => hload) fun s h => ends_of_preparing (hload s h)) fun r => ?_
    cases r with
    | error e => exact triple_failed localOnly w _
    | ok _ =>
      refine Triple.bind ((triple_attempt (triple_call hS rfl)).mono (fun _ h => h) (fun _ _ h => h)
        fun _ => ends_of_preparing) fun r => ?_
      cases r with
      | error e => exact triple_failed localOnly w _
      | ok listing => exact Triple.assume fun h => triple_reconcileListing localOnly w h
  exact hrun.final rfl

end CloudSync
