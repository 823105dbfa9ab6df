import RemarkableServer.Reconcile

/-!
# Properties a full sync keeps

Most of what the engine does neither creates, replaces nor moves a file, locally
or remotely: it asks the provider, reads, makes directories and updates its own
fields. A property of the files, the overwrite guard and the other events of the
log is kept by all of that. Only an upload, a download, a move to the quarantine,
the pruning and the saved manifest have to be looked at for each property.
-/
namespace CloudSync

open RustText Integrations CloudPaths Effect

variable {env : Env} {cfg : SyncConfig} {I : Engine → Prop} {α : Type}

/-- The operation changes no file. -/
def DiskOp.quiet : DiskOp → Bool
  | .stat _ | .read _ | .scan | .createDir _ | .removeDir _ | .sync _ => true
  | .write _ | .move _ _ | .moveDir _ _ | .removeAll _ => false

/-- The provider is only asked. -/
def Call.quiet : Call → Bool
  | .accountId | .listFiles _ | .legacyLayoutDir _ | .getChangesIn _ _ | .downloadFile _ => true
  | .uploadFileAt .. | .createFolder .. | .delete _ | .moveFile .. => false

/-- Nothing is changed, locally or remotely. -/
def Event.quiet : Event → Bool
  | .clock => true
  | .step .. => false
  | .disk op ok => op.quiet || !ok
  | .call c _ => c.quiet

/-- Neither a quiet event nor a change of directories matters to the property. -/
def Stable (I : Engine → Prop) : Prop :=
  ∀ w e t, e.quiet = true → I w → (∀ p, t.file? p = w.tree.file? p) →
    I { w with log := e :: w.log, tree := t }

/-- Of the engine's fields, only the overwrite guard matters to the property. -/
structure FilesOnly (I : Engine → Prop) : Prop where
  stable : Stable I
  fields : ∀ w w' : Engine, w'.tree = w.tree → w'.log = w.log → w'.overwriteGuard = w.overwriteGuard →
    I w → I w'

theorem FilesOnly.modify (hI : FilesOnly I) {f : Engine → Engine}
    (h : ∀ w, (f w).tree = w.tree ∧ (f w).log = w.log ∧ (f w).overwriteGuard = w.overwriteGuard) :
    Keeps I (modify f : Sync PUnit) :=
  Keeps.modify fun w hw => hI.fields w (f w) (h w).1 (h w).2.1 (h w).2.2 hw

/-- The states differ at most in what the steps for the paths `S` record. -/
structure SameBut (S : Set Text) (w w' : Engine) : Prop where
  tree : w'.tree = w.tree
  log : w'.log = w.log
  overwriteGuard : w'.overwriteGuard = w.overwriteGuard
  stored : w'.state.manifest = w.state.manifest
  manifest : ∀ k ∉ S, w'.manifest.lookup k = w.manifest.lookup k
  unconfirmed : ∀ k ∉ S, w'.unconfirmed.lookup k = w.unconfirmed.lookup k

/-- What the steps for the paths `S` record does not matter to the property. -/
structure Beyond (S : Set Text) (I : Engine → Prop) : Prop where
  stable : Stable I
  fields : ∀ w w', SameBut S w w' → I w → I w'

theorem FilesOnly.beyond (hI : FilesOnly I) {S : Set Text} : Beyond S I :=
  ⟨hI.stable, fun w w' h => hI.fields w w' h.tree h.log h.overwriteGuard⟩

theorem Beyond.modify {S : Set Text} (hI : Beyond S I) {f : Engine → Engine} (h : ∀ w, SameBut S w (f w)) :
    Keeps I (modify f : Sync PUnit) :=
  Keeps.modify fun w hw => hI.fields w (f w) (h w) hw

/-! ## Primitives -/

theorem triple_attempt {P E : Engine → Prop} {Q : α → Engine → Prop} {x : Sync α} (h : Triple P x Q E) :
    Triple P (attempt x) (fun r w => r.casesOn (fun _ => E w) (fun a => Q a w)) E := by
  intro w hw
  have hx := h w hw
  unfold attempt
  cases hr : x w with
  | ok a w' =>
    rw [hr] at hx
    exact hx
  | error e w' =>
    rw [hr] at hx
    cases e <;> exact hx

theorem keeps_attempt {x : Sync α} (h : Keeps I x) : Keeps I (attempt x) :=
  (triple_attempt h).mono (fun _ h => h) (fun r _ h => by cases r <;> exact h) (fun _ h => h)

theorem final_attempt (x : Sync α) (w : Engine) : final (attempt x) w = final x w := by
  unfold final attempt
  cases hr : x w with
  | ok a w' => rfl
  | error e w' => cases e <;> rfl

theorem keeps_ofExcept (r : Except IntegrationError α) : Keeps I (ofExcept r) := by
  cases r with
  | ok a => exact Keeps.pure a
  | error e => exact Keeps.throw _

theorem keeps_ofPanicking (r : Option α) : Keeps I (ofPanicking r) := by
  cases r with
  | some a => exact Keeps.pure a
  | none => exact Keeps.throw _

theorem Stable.log (hI : Stable I) (w : Engine) {e : Event} (he : e.quiet = true) (h : I w) :
    I { w with log := e :: w.log } :=
  hI w e w.tree he h fun _ => rfl

theorem Stable.failed (hI : Stable I) (w : Engine) (op : DiskOp) (h : I w) :
    I { w with log := .disk op false :: w.log } :=
  hI.log w (Bool.or_true _) h

/-- An operation on the disk leaves what its effect on the tree leaves, or only a longer log. -/
theorem triple_disk_done {op : DiskOp} {act : LocalTree → Except IoKind (α × LocalTree)} {P E : Engine → Prop}
    {Q : α → Engine → Prop} (hfail : ∀ w, P w → E { w with log := .disk op false :: w.log })
    (hact : ∀ w a t, P w → env.ioError w.log op = none → act w.tree = .ok (a, t) →
      Q a { w with log := .disk op true :: w.log, tree := t }) :
    Triple P (disk env op act) Q E := by
  intro w hw
  unfold disk
  cases hio : env.ioError w.log op with
  | some kind => exact hfail w hw
  | none =>
    cases ha : act w.tree with
    | error kind => exact hfail w hw
    | ok r => exact hact w r.1 r.2 hw hio ha

theorem triple_disk {op : DiskOp} {act : LocalTree → Except IoKind (α × LocalTree)} {P E : Engine → Prop}
    {Q : α → Engine → Prop} (hfail : ∀ w, P w → E { w with log := .disk op false :: w.log })
    (hact : ∀ w a t, P w → act w.tree = .ok (a, t) → Q a { w with log := .disk op true :: w.log, tree := t }) :
    Triple P (disk env op act) Q E :=
  triple_disk_done hfail fun w a t hw _ ha => hact w a t hw ha

theorem keeps_disk {op : DiskOp} {act : LocalTree → Except IoKind (α × LocalTree)} (hI : Stable I)
    (hop : op.quiet = true) (hact : ∀ t a t', act t = .ok (a, t') → ∀ p, t'.file? p = t.file? p) :
    Keeps I (disk env op act) := by
  refine triple_disk (fun w => hI.failed w op) fun w a t hw ha => ?_
  exact hI w _ t (by rw [Event.quiet, hop, Bool.true_or]) hw (hact w.tree a t ha)

theorem keeps_call_event {c : Call} {answer : Log → Except IntegrationError α}
    (h : ∀ w ok, I w → I { w with log := .call c ok :: w.log }) : Keeps I (call c answer) := by
  intro w hw
  unfold call
  cases answer w.log with
  | error e => exact h w false hw
  | ok a => exact h w true hw

theorem keeps_call {c : Call} {answer : Log → Except IntegrationError α} (hI : Stable I)
    (hc : c.quiet = true) : Keeps I (call c answer) :=
  keeps_call_event fun w _ hw => hI.log w hc hw

theorem keeps_now (hI : Stable I) : Keeps I (now env) := fun w hw => hI.log w rfl hw

/-- An operation that only looks at the tree. -/
theorem keeps_look {op : DiskOp} {act : LocalTree → Except IoKind (α × LocalTree)} (hI : Stable I)
    (hop : op.quiet = true) (hact : ∀ t a t', act t = .ok (a, t') → t' = t) : Keeps I (disk env op act) :=
  keeps_disk hI hop fun t a t' h p => by rw [hact t a t' h]

theorem keeps_stat (hI : Stable I) (p : List Text) : Keeps I (stat env p) := by
  refine keeps_look hI rfl fun t a t' h => ?_
  split at h
  · cases h
    rfl
  · cases h

theorem keeps_readFile (hI : Stable I) (p : List Text) : Keeps I (readFile env p) := by
  refine keeps_look hI rfl fun t a t' h => ?_
  split at h
  · cases h
    rfl
  · cases h

theorem keeps_createDirsFrom (hI : Stable I) (cur rel : List Text) : Keeps I (createDirsFrom env cur rel) := by
  induction rel generalizing cur with
  | nil => exact Keeps.pure _
  | cons c rel ih =>
    unfold createDirsFrom
    refine Keeps.bind Keeps.get fun w => ?_
    split
    · refine Keeps.bind (keeps_stat hI _) fun isDir => ?_
      split
      · exact ih _
      · exact Keeps.pure _
    · refine Keeps.bind (keeps_disk hI rfl fun t a t' h p => ?_) fun _ => ih _
      cases h
      rfl

theorem keeps_createDirsWithin (hI : Stable I) (rel : List Text) : Keeps I (createDirsWithin env rel) :=
  Keeps.bind (keeps_stat hI []) fun _ => keeps_createDirsFrom hI [] rel

theorem keeps_removeEmptied (hI : Stable I) (n : Nat) (p : List Text) : Keeps I (removeEmptied env n p) := by
  induction n generalizing p with
  | zero => exact Keeps.pure _
  | succ n ih =>
    unfold removeEmptied
    refine Keeps.bind (keeps_attempt (keeps_disk hI rfl fun t a t' h q => ?_)) fun removed => ?_
    · split at h
      next hr =>
        cases h
        exact FileTree.Tree.file?_rmdir? hr q
      · cases h
    · cases removed with
      | ok _ => exact ih _
      | error _ => exact Keeps.pure _

/-- The directory that is created or found is the one asked for. -/
theorem createDirsFrom_value (cur rel : List Text) :
    Triple (fun _ => True) (createDirsFrom env cur rel) (fun r _ => ∀ d, r = some d → d = cur ++ rel)
      (fun _ => True) := by
  have htrue : Stable fun _ => True := fun _ _ _ _ _ _ => trivial
  induction rel generalizing cur with
  | nil =>
    intro w _ d hd
    cases hd
    simp
  | cons c rel ih =>
    have hstep := ih (cur ++ [c])
    rw [List.append_assoc, List.singleton_append] at hstep
    unfold createDirsFrom
    refine Triple.bind Keeps.get fun w => ?_
    split
    · refine Triple.bind (keeps_stat htrue _) fun isDir => ?_
      split
      · exact hstep
      · intro w _ d hd
        cases hd
    · exact Triple.bind (triple_disk (fun _ _ => trivial) fun _ _ _ _ _ => trivial) fun _ => hstep

theorem triple_createDirsWithin (hI : Stable I) (rel : List Text) :
    Triple I (createDirsWithin env rel) (fun r w => I w ∧ ∀ d, r = some d → d = rel) I := by
  refine Triple.bind (keeps_stat hI []) fun _ => ?_
  refine ((keeps_createDirsFrom hI [] rel).and (createDirsFrom_value [] rel)).mono ?_ ?_ ?_
  · exact fun _ h => ⟨h, trivial⟩
  · exact fun _ _ h => h
  · exact fun _ h => h.1

/-- A write leaves what putting the file at its target leaves, or only a longer log. -/
theorem triple_writeReplace {P E : Engine → Prop} {Q : DiskFile → Engine → Prop} {dir target : List Text}
    {content : Bytes} (hfail : ∀ w, P w → E { w with log := .disk (.write target) false :: w.log })
    (hwrite : ∀ w time, P w → Q ⟨content, time⟩
      { w with log := .disk (.write target) true :: w.log, tree := w.tree.write target ⟨content, time⟩ }) :
    Triple P (writeReplace env dir target content) (fun written w => written.bytes = content ∧ Q written w) E := by
  unfold writeReplace
  refine Triple.bind (R := fun _ => P) (fun _ h => h) fun w₀ => ?_
  refine triple_disk hfail fun w a t hw ha => ?_
  split at ha
  · cases ha
  · split at ha
    · cases ha
    · cases ha
      exact ⟨rfl, hwrite w _ hw⟩

theorem keeps_writeReplace {dir target : List Text} {content : Bytes} (hI : Stable I)
    (hwrite : ∀ w f, I w →
      I { w with log := .disk (.write target) true :: w.log, tree := w.tree.write target f }) :
    Keeps I (writeReplace env dir target content) :=
  (triple_writeReplace (Q := fun _ => I) (fun w => hI.failed w _) fun w _ h => hwrite w _ h).mono
    (fun _ h => h) (fun _ _ h => h.2) fun _ h => h

theorem triple_writing {P E : Engine → Prop} {Q : α → Engine → Prop} {path : Text} {x : Sync α}
    (h : Triple P x Q E) : Triple P (writing path x) Q E := by
  refine Triple.bind (triple_attempt h) fun r => ?_
  cases r with
  | ok a => exact fun _ h => h
  | error e => exact fun _ h => h

theorem keeps_readManifestFile (hI : Stable I) : Keeps I (readManifestFile env) := by
  unfold readManifestFile
  refine Keeps.bind (keeps_attempt (keeps_readFile hI _)) fun r => ?_
  split
  · exact Keeps.pure _
  · exact Keeps.throw _
  · split
    · exact Keeps.throw _
    · split
      · exact Keeps.throw _
      · exact Keeps.pure _

theorem keeps_readMarker (hI : Stable I) : Keeps I (readMarker env) := by
  unfold readMarker
  refine Keeps.bind (keeps_attempt (keeps_readFile hI _)) fun r => ?_
  split
  · exact Keeps.pure _
  · exact Keeps.throw _
  · split
    · exact Keeps.throw _
    · exact Keeps.pure _

/-- Saving the manifest writes a manifest to the manifest file. -/
theorem keeps_saveManifest_of (hI : Stable I)
    (hwrite : ∀ w file time, I w →
      I { w with log := .disk (.write [manifestFile]) true :: w.log
                 tree := w.tree.write [manifestFile] ⟨env.fromManifest file, time⟩ }) :
    Keeps I (saveManifest env) := by
  unfold saveManifest
  refine Keeps.bind Keeps.get fun w => ?_
  split
  · refine Keeps.bind (keeps_readManifestFile hI) fun stored => ?_
    refine Keeps.bind (keeps_now hI) fun time => ?_
    refine Keeps.bind ((triple_writeReplace (fun w => hI.failed w _) fun w time h => hwrite w _ time h).mono
      (fun _ h => h) (fun _ _ h => h.2) fun _ h => h) fun _ => ?_
    refine keeps_look hI rfl fun t a t' h => ?_
    cases h
    rfl
  · exact Keeps.pure _

/-- Saving the manifest keeps what writing the manifest file keeps. -/
theorem keeps_saveManifest (hI : Stable I)
    (hwrite : ∀ w f, I w →
      I { w with log := .disk (.write [manifestFile]) true :: w.log, tree := w.tree.write [manifestFile] f }) :
    Keeps I (saveManifest env) :=
  keeps_saveManifest_of hI fun w _ _ h => hwrite w _ h

/-! ## The engine's own fields -/

section
variable {S : Set Text} (hI : Beyond S I)

include hI

theorem keeps_record (f : SyncResult → SyncResult) : Keeps I (record f) :=
  hI.modify fun _ => ⟨rfl, rfl, rfl, rfl, fun _ _ => rfl, fun _ _ => rfl⟩

theorem keeps_addError (e : SyncError) : Keeps I (addError e) := keeps_record hI _

theorem keeps_addNotice (n : Notice) : Keeps I (addNotice n) := keeps_record hI _

theorem keeps_errorIf (c : Bool) (e : SyncError) : Keeps I (errorIf c e) := by
  cases c
  · exact Keeps.pure _
  · exact keeps_addError hI e

theorem keeps_noticeIf (c : Bool) (n : Notice) : Keeps I (noticeIf c n) := by
  cases c
  · exact Keeps.pure _
  · exact keeps_addNotice hI n

theorem keeps_recordState (path id : Text) (hash : Option Text) (time : Int) :
    Keeps I (updateState (·.record path id hash time)) :=
  hI.modify fun _ => ⟨rfl, rfl, rfl, rfl, fun _ _ => rfl, fun _ _ => rfl⟩

theorem keeps_remember {path : Text} (hpath : path ∈ S) (e : ManifestEntry) : Keeps I (remember path e) :=
  hI.modify fun _ => ⟨rfl, rfl, rfl, rfl, fun _ hk => AList.lookup_insert_ne (ne_of_mem_of_not_mem hpath hk).symm,
    fun _ _ => rfl⟩

theorem keeps_noteFailure (e : IntegrationError) (what : SyncError) : Keeps I (noteFailure e what) := by
  refine Keeps.bind ?_ fun _ => keeps_addError hI _
  exact hI.modify fun _ => ⟨rfl, rfl, rfl, rfl, fun _ _ => rfl, fun _ _ => rfl⟩

theorem keeps_failed (e : SyncError) : Keeps I (failed e) :=
  Keeps.bind (keeps_record hI _) fun _ => Keeps.bind Keeps.get fun _ => Keeps.pure _

/-! ## Comparing and uploading -/

theorem keeps_matches (l : LocalFile) (base : LocalIdentity) : Keeps I (l.matches env base) := by
  unfold LocalFile.matches
  split
  · exact Keeps.pure _
  · split
    · exact Keeps.pure _
    · split
      · exact Keeps.pure _
      · refine Keeps.bind (keeps_attempt (keeps_readFile hI.stable _)) fun r => ?_
        cases r <;> exact Keeps.pure _

theorem keeps_localChanged (l : Option LocalFile) (base : Option LocalIdentity) :
    Keeps I (localChanged env l base) := by
  unfold localChanged
  split
  · exact Keeps.bind (keeps_matches hI _ _) fun _ => Keeps.pure _
  · exact Keeps.pure _
  · exact Keeps.pure _

theorem keeps_sameOnBothSides (path : Text) (l : LocalFile) (f : CloudFile) :
    Keeps I (sameOnBothSides env path l f) := by
  unfold sameOnBothSides
  split
  · exact Keeps.pure _
  · refine Keeps.bind (keeps_attempt (keeps_readFile hI.stable _)) fun r => ?_
    cases r with
    | error e => exact Keeps.pure _
    | ok content =>
      dsimp only
      split
      · exact Keeps.pure _
      · exact Keeps.bind (keeps_recordState hI _ _ _ _) fun _ => Keeps.pure _

/-! ## Planning -/

theorem keeps_planKnown {v : View} {path : Text} (hpath : path ∈ S) (hkept : v.keptUnder path ∈ S)
    (entry : ManifestEntry) : Keeps I (planKnown env cfg v path entry) := by
  unfold planKnown
  refine Keeps.bind (keeps_localChanged hI _ _) fun changedHere => ?_
  split
  · exact Keeps.pure _
  · exact Keeps.pure _
  · exact Keeps.bind (keeps_remember hI hkept _) fun _ => Keeps.pure _
  · exact Keeps.bind (keeps_remember hI hpath _) fun _ => Keeps.pure _
  · refine Keeps.bind (hI.modify fun _ => ⟨rfl, rfl, rfl, rfl, fun _ _ => rfl, fun _ _ => rfl⟩) fun _ => ?_
    exact Keeps.bind (keeps_remember hI hpath _) fun _ => Keeps.pure _
  · refine Keeps.bind (hI.modify fun _ => ⟨rfl, rfl, rfl, rfl, fun _ _ => rfl, fun _ _ => rfl⟩) fun _ => ?_
    exact Keeps.bind (keeps_remember hI hkept _) fun _ => Keeps.pure _

theorem keeps_planUnknown {v : View} {path : Text} (hkept : v.keptUnder path ∈ S) (tracked : Bool)
    (entry : Option ManifestEntry) : Keeps I (planUnknown cfg v path tracked entry) := by
  unfold planUnknown
  split
  · exact Keeps.bind (keeps_remember hI hkept _) fun _ => Keeps.pure _
  · exact Keeps.pure _

theorem keeps_planPath {v : View} {path : Text} (hpath : path ∈ S) (hkept : v.keptUnder path ∈ S) :
    Keeps I (planPath env cfg v path) := by
  have htracked : Keeps I (isTracked cfg v path) := by
    unfold isTracked
    split
    · exact Keeps.pure _
    · exact keeps_ofPanicking _
  refine Keeps.bind htracked fun tracked => ?_
  split
  · exact keeps_planKnown hI hpath hkept _
  · exact keeps_planUnknown hI hkept _ _

theorem keeps_planPaths {v : View} {paths : List Text} (hpaths : ∀ path ∈ paths, path ∈ S ∧ v.keptUnder path ∈ S) :
    Keeps I (planPaths env cfg v paths) := by
  induction paths with
  | nil => exact Keeps.pure _
  | cons path paths ih =>
    have hpath := hpaths path List.mem_cons_self
    refine Keeps.bind (keeps_planPath hI hpath.1 hpath.2) fun planned => ?_
    exact Keeps.bind (ih fun q hq => hpaths q (List.mem_cons_of_mem path hq)) fun rest => Keeps.pure _

end

/-! ## The direction -/

theorem unknownStep_allowed {localOnly : LocalOnly} {l : Option LocalFile} {cloud : Option CloudFile} {s : Step}
    (h : unknownStep cfg localOnly l cloud = some s) : cfg.allows s = true := by
  unfold unknownStep SyncConfig.uploadNew at h
  split at h
  · split at h
    next hu =>
      cases h
      exact (Bool.and_eq_true_iff.mp hu).1
    · cases h
  · split at h
    next hd =>
      cases h
      exact (Bool.and_eq_true_iff.mp hd).2
    · cases h
  · cases h
    rfl
  · cases h

theorem knownStep_allowed {listedNothing : Bool} {localOnly : LocalOnly} {entry : ManifestEntry} {lc rc : Bool}
    {l : Option LocalFile} {file : Option CloudFile} {s : Step}
    (h : knownStep cfg listedNothing localOnly entry lc rc l file = .step s) : cfg.allows s = true := by
  unfold knownStep SyncConfig.uploadNew at h
  split at h
  · split at h <;> cases h
  · cases h
  · split at h
    next hu =>
      cases h
      exact (Bool.and_eq_true_iff.mp hu).1
    · cases h
  · cases h
  · split at h
    next hd =>
      cases h
      exact hd
    · cases h
  · split at h
    next hd =>
      split at h
      · cases h
      · cases h
        exact hd
    · cases h
  · cases h
    rfl
  · split at h
    next hu =>
      cases h
      exact (Bool.and_eq_true_iff.mp hu).1
    · cases h
  · split at h
    next hd =>
      cases h
      exact hd
    · cases h

theorem planKnown_allowed (v : View) (path : Text) (entry : ManifestEntry) :
    Triple (fun _ => True) (planKnown env cfg v path entry)
      (fun r _ => ∀ p ∈ r, p.path = path ∧ cfg.allows p.step = true) (fun _ => True) := by
  unfold planKnown
  refine Triple.bind (keeps_true _) fun changedHere => ?_
  split
  next hs =>
    intro w _ p hp
    cases hp
    exact ⟨rfl, knownStep_allowed hs⟩
  · exact fun _ _ _ hp => nomatch hp
  · exact Triple.bind (keeps_true _) fun _ _ _ _ hp => nomatch hp
  · exact Triple.bind (keeps_true _) fun _ _ _ _ hp => nomatch hp
  · refine Triple.bind (keeps_true _) fun _ => ?_
    exact Triple.bind (keeps_true _) fun _ _ _ _ hp => nomatch hp
  · refine Triple.bind (keeps_true _) fun _ => ?_
    exact Triple.bind (keeps_true _) fun _ _ _ _ hp => nomatch hp

theorem planUnknown_allowed (v : View) (path : Text) (tracked : Bool) (entry : Option ManifestEntry) :
    Triple (fun _ => True) (planUnknown cfg v path tracked entry)
      (fun r _ => ∀ p ∈ r, p.path = path ∧ cfg.allows p.step = true) (fun _ => True) := by
  have hlast : ∀ p ∈ (unknownStep cfg v.localOnly (v.files.lookup path) (v.cloud.lookup path)).map
      fun s => (⟨path, s, tracked, none⟩ : Planned), p.path = path ∧ cfg.allows p.step = true := by
    intro p hp
    obtain ⟨s, hs, rfl⟩ := Option.map_eq_some_iff.mp hp
    exact ⟨rfl, unknownStep_allowed hs⟩
  unfold planUnknown
  split
  · exact Triple.bind (keeps_true _) fun _ _ _ => hlast
  · exact fun _ _ => hlast

/-- A step is planned for the path, and the direction allows it. -/
theorem planPath_allowed (v : View) (path : Text) :
    Triple (fun _ => True) (planPath env cfg v path)
      (fun r _ => ∀ p ∈ r, p.path = path ∧ cfg.allows p.step = true) (fun _ => True) := by
  refine Triple.bind (keeps_true _) fun tracked => ?_
  split
  · exact planKnown_allowed v path _
  · exact planUnknown_allowed v path _ _

/-- What holds of the steps planned for each path holds of the plan. -/
theorem triple_planPaths {A E : Engine → Prop} {K : Planned → Prop} {v : View} {paths : List Text}
    (h : ∀ q ∈ paths, Triple A (planPath env cfg v q) (fun r w => A w ∧ ∀ p ∈ r, K p) E) :
    Triple A (planPaths env cfg v paths) (fun plan w => A w ∧ ∀ p ∈ plan, K p) E := by
  induction paths with
  | nil => exact fun _ hw => ⟨hw, fun p hp => nomatch hp⟩
  | cons path paths ih =>
    refine Triple.bind (h path List.mem_cons_self) fun planned => ?_
    refine Triple.assume fun hplanned => ?_
    refine Triple.bind (ih fun q hq => h q (List.mem_cons_of_mem path hq)) fun rest => ?_
    refine fun w hw => ⟨hw.1, fun p hp => ?_⟩
    rcases List.mem_append.mp hp with hp | hp
    · exact hplanned p (Option.mem_toList.mp hp)
    · exact hw.2 p hp

/-- The plan has only steps that the direction allows. -/
theorem planPaths_allowed (v : View) (paths : List Text) :
    Triple (fun _ => True) (planPaths env cfg v paths) (fun plan _ => ∀ p ∈ plan, cfg.allows p.step = true)
      (fun _ => True) := by
  refine (triple_planPaths (A := fun _ => True) fun q _ => ?_).mono (fun _ h => h) (fun _ _ h => h.2) fun _ h => h
  exact (planPath_allowed v q).mono (fun _ h => h) (fun _ _ h => ⟨trivial, fun p hp => (h p hp).2⟩) fun _ h => h

/-! ## Steps -/

section
variable {S : Set Text} (hI : Beyond S I)

include hI

/-- What is kept of an upload in progress is under its path. -/
theorem keeps_unconfirmed {path : Text} (hpath : path ∈ S) (f : PathMap LocalIdentity → PathMap LocalIdentity)
    (hf : ∀ m k, k ≠ path → (f m).lookup k = m.lookup k) :
    Keeps I (modify fun w : Engine => { w with unconfirmed := f w.unconfirmed } : Sync PUnit) :=
  hI.modify fun _ => ⟨rfl, rfl, rfl, rfl, fun _ _ => rfl,
    fun k hk => hf _ k (ne_of_mem_of_not_mem hpath hk).symm⟩

/-- An upload keeps what its call keeps. -/
theorem keeps_uploadFile {path : Text} (hpath : path ∈ S) {l : LocalFile}
    (hcall : ∀ w components content ok, cloudPathComponents path = .ok components → I w →
      I { w with log := .call (.uploadFileAt cfg.cloudFolder components content) ok :: w.log }) :
    Keeps I (uploadFile env cfg path l) := by
  unfold uploadFile
  cases hc : cloudPathComponents path with
  | error e => exact Keeps.throw _
  | ok components =>
    refine Triple.bind (R := fun a w => I w ∧ a = components) (fun w h => ⟨h, rfl⟩) fun a => ?_
    refine Triple.assume fun ha => ?_
    subst ha
    refine Triple.bind (keeps_readFile hI.stable _) fun content => ?_
    refine Triple.bind (keeps_unconfirmed hI hpath _ fun _ _ hk => AList.lookup_insert_ne hk) fun _ => ?_
    refine Triple.bind (keeps_call_event fun w ok => hcall w a content ok hc) fun cloudFile => ?_
    refine Triple.bind (keeps_unconfirmed hI hpath _ fun _ _ hk => AList.lookup_erase_ne hk) fun _ => ?_
    exact Triple.bind (keeps_recordState hI _ _ _ _) fun _ => Keeps.pure _

theorem keeps_uploadCounted {path : Text} {l : LocalFile} (hup : Keeps I (uploadFile env cfg path l))
    (target : Option CloudFile) : Keeps I (uploadCounted env cfg path l target) := by
  unfold uploadCounted
  refine Keeps.bind (keeps_attempt hup) fun r => ?_
  cases r with
  | error e => exact Keeps.bind (keeps_addError hI _) fun _ => Keeps.pure _
  | ok entry =>
    refine Keeps.bind (keeps_record hI _) fun _ => ?_
    cases target with
    | none => exact Keeps.pure _
    | some target =>
      dsimp only
      split
      · exact Keeps.bind (keeps_addError hI _) fun _ => Keeps.pure _
      · exact Keeps.pure _

omit hI in
theorem keeps_downloadFile {f : CloudFile} (hdown : Keeps I (downloadUnless env f none)) :
    Keeps I (downloadFile env f) := by
  refine Keeps.bind hdown fun r => ?_
  cases r with
  | some identity => exact Keeps.pure _
  | none => exact Keeps.throw _

theorem keeps_downloadCounted {f : CloudFile} {unlessHash : Option Text}
    (hdown : Keeps I (downloadUnless env f unlessHash)) : Keeps I (downloadCounted env f unlessHash) := by
  unfold downloadCounted
  refine Keeps.bind (keeps_attempt hdown) fun r => ?_
  split
  · exact Keeps.pure _
  · exact Keeps.bind (keeps_record hI _) fun _ => Keeps.pure _
  · exact Keeps.bind (keeps_noteFailure hI _ _) fun _ => Keeps.pure _

/-- Both sides of the path changed. -/
def bothModified (cfg : SyncConfig) (l : LocalFile) (f : CloudFile) : Conflict :=
  ⟨cfg.localPath ++ l.path, f, l.mtime, l.size, .bothModified, none⟩

/-- The conflict strategy keeps both files, the remote one under this name. -/
def KeepsBoth (env : Env) (cfg : SyncConfig) (l : LocalFile) (f : CloudFile) (renamedTo : Text) : Prop :=
  ∃ time, resolve cfg.conflictStrategy (env.stampText time) (bothModified cfg l f) = .keepBoth renamedTo

omit hI in
theorem conflictOf_eq {state : SyncState} {l : LocalFile} {f : CloudFile} {known : Bool} {c : Conflict}
    (h : conflictOf cfg state l f known = some c) : c = bothModified cfg l f := by
  unfold conflictOf at h
  dsimp only at h
  split at h
  · cases h
    rfl
  · unfold detectConflict at h
    dsimp only at h
    split at h
    · cases h
      rfl
    · cases h

section Both
variable {path : Text} {l : LocalFile} {f : CloudFile}
  (hup : cfg.canUpload = true → Keeps I (uploadFile env cfg path l))
  (hdown : cfg.canDownload = true → ∀ h, Keeps I (downloadUnless env f h))
  (hcopy : cfg.canDownload = true → ∀ renamedTo, KeepsBoth env cfg l f renamedTo →
    Keeps I (downloadUnless env (conflictCopy f renamedTo) none))

include hup

include hcopy in
theorem keeps_keepBoth {renamedTo : Text} (hboth : KeepsBoth env cfg l f renamedTo) :
    Keeps I (keepBoth env cfg path l f renamedTo) := by
  unfold keepBoth
  split
  · exact Keeps.pure _
  next hd =>
    have hcan : cfg.canDownload = true := by simpa [SyncConfig.canDownload] using hd
    refine Keeps.bind (keeps_attempt (keeps_downloadFile (hcopy hcan _ hboth))) fun r => ?_
    cases r with
    | error e => exact Keeps.bind (keeps_noteFailure hI _ _) fun _ => Keeps.pure _
    | ok identity =>
      refine Keeps.bind (keeps_record hI _) fun _ => ?_
      split
      · exact Keeps.pure _
      next hu =>
        exact keeps_uploadCounted hI (hup (by simpa [SyncConfig.canUpload] using hu)) _

include hdown in
theorem keeps_syncByTime : Keeps I (syncByTime env cfg path l f) := by
  unfold syncByTime
  refine Keeps.bind Keeps.get fun w => ?_
  dsimp only
  split
  next hu => exact keeps_uploadCounted hI (hup (Bool.and_eq_true_iff.mp hu).2) _
  · split
    next hd => exact keeps_downloadCounted hI (hdown (Bool.and_eq_true_iff.mp hd).2 _)
    · exact Keeps.pure _

include hdown hcopy

theorem keeps_settleConflict {c : Conflict} (hc : c = bothModified cfg l f) :
    Keeps I (settleConflict env cfg path l f c) := by
  unfold settleConflict
  refine Keeps.bind (keeps_now hI.stable) fun time => ?_
  split
  · split
    next hu => exact keeps_uploadCounted hI (hup hu) _
    · exact Keeps.pure _
  · split
    next hd => exact keeps_downloadCounted hI (hdown hd _)
    · exact Keeps.pure _
  next hboth => exact keeps_keepBoth hI hup hcopy ⟨time, hc ▸ hboth⟩
  · refine Keeps.bind (hI.modify fun _ => ⟨rfl, rfl, rfl, rfl, fun _ _ => rfl, fun _ _ => rfl⟩) fun _ => ?_
    exact Keeps.bind (keeps_record hI _) fun _ => Keeps.pure _
  · exact Keeps.pure _
  · exact Keeps.pure _

theorem keeps_syncBoth (known : Bool) : Keeps I (syncBoth env cfg path l f known) := by
  unfold syncBoth
  refine Keeps.bind (keeps_sameOnBothSides hI _ _ _) fun r => ?_
  cases r with
  | some identity => exact Keeps.pure _
  | none =>
    refine Keeps.bind Keeps.get fun w => ?_
    split
    · exact keeps_syncByTime hI hup hdown
    next hc => exact keeps_settleConflict hI hup hdown hcopy (conflictOf_eq hc)

end Both

theorem keeps_stepUpload {path : Text} {l : LocalFile} (hup : Keeps I (uploadFile env cfg path l)) (v : View)
    (step : Step) : Keeps I (stepUpload env cfg v step path l) := by
  unfold stepUpload
  refine Keeps.bind (keeps_uploadCounted hI hup _) fun entry => ?_
  exact Keeps.bind (keeps_noticeIf hI _ _) fun _ => Keeps.pure _

theorem keeps_stepDownload (v : View) (p : Planned) {f : CloudFile} (hdown : ∀ h, Keeps I (downloadUnless env f h)) :
    Keeps I (stepDownload env v p f) := by
  unfold stepDownload
  refine Keeps.bind (keeps_downloadCounted hI (hdown _)) fun entry => ?_
  split
  · exact Keeps.bind (hI.modify fun _ => ⟨rfl, rfl, rfl, rfl, fun _ _ => rfl, fun _ _ => rfl⟩) fun _ => Keeps.pure _
  · exact Keeps.pure _

theorem keeps_recordStep {v : View} {p : Planned} (hpath : p.path ∈ S) (hkept : v.keptUnder p.path ∈ S)
    (recorded : Recorded) : Keeps I (recordStep v p recorded) := by
  unfold recordStep
  cases recorded with
  | movedAside => exact Keeps.pure _
  | entry e =>
    refine Keeps.bind (keeps_unconfirmed hI hpath _ fun _ _ hk => AList.lookup_erase_ne hk) fun _ => ?_
    split
    · exact keeps_remember hI hpath _
    · exact Keeps.pure _
  | nothing =>
    refine Keeps.bind Keeps.get fun w => ?_
    refine Keeps.bind (keeps_unconfirmed hI hpath _ fun _ _ hk => AList.lookup_erase_ne hk) fun _ => ?_
    split
    · exact keeps_remember hI hkept _
    · exact Keeps.pure _

theorem keeps_reportPaths (v : View) (run : Text) : Keeps I (reportPaths v run) := by
  unfold reportPaths
  refine Keeps.bind Keeps.get fun w => ?_
  refine Keeps.bind (keeps_noticeIf hI _ _) fun _ => ?_
  refine Keeps.bind (keeps_errorIf hI _ _) fun _ => ?_
  refine Keeps.bind (keeps_errorIf hI _ _) fun _ => ?_
  refine Keeps.bind (keeps_noticeIf hI _ _) fun _ => ?_
  exact keeps_noticeIf hI _ _

theorem keeps_finishQuarantine {run : Text}
    (hprune : Keeps I (pruneQuarantine env run cfg.quarantineKeepDays)) :
    Keeps I (finishQuarantine env cfg run) := by
  unfold finishQuarantine
  refine Keeps.bind (hI.modify fun _ => ⟨rfl, rfl, rfl, rfl, fun _ _ => rfl, fun _ _ => rfl⟩) fun _ => ?_
  refine Keeps.bind (keeps_attempt hprune) fun r => ?_
  cases r with
  | error e => exact keeps_addError hI _
  | ok n =>
    refine Keeps.bind (keeps_noticeIf hI _ _) fun _ => ?_
    exact keeps_noticeIf hI _ _

/-- What the direction allows a step for the path to put a property to: an upload of its local file, a
download of its remote file or of a conflict copy of it, and a move to the quarantine. -/
structure KeptByStep (env : Env) (cfg : SyncConfig) (v : View) (path : Text) (I : Engine → Prop) : Prop where
  step : ∀ s, Keeps I (beginStep path s)
  upload : cfg.canUpload = true → ∀ l, v.files.lookup path = some l → Keeps I (uploadFile env cfg path l)
  download : cfg.canDownload = true → ∀ f, v.cloud.lookup path = some f → ∀ h, Keeps I (downloadUnless env f h)
  copy : cfg.canDownload = true → ∀ f, v.cloud.lookup path = some f → ∀ renamedTo,
    Keeps I (downloadUnless env (conflictCopy f renamedTo) none)
  quarantine : cfg.canDownload = true → ∀ l, v.files.lookup path = some l → ∀ run,
    Keeps I (quarantine env run path l.path)

/-- As `KeptByStep`, with a conflict copy only under the name that the strategy gives it. -/
structure KeptByNamedStep (env : Env) (cfg : SyncConfig) (v : View) (path : Text) (I : Engine → Prop) : Prop where
  step : ∀ s, Keeps I (beginStep path s)
  upload : cfg.canUpload = true → ∀ l, v.files.lookup path = some l → Keeps I (uploadFile env cfg path l)
  download : cfg.canDownload = true → ∀ f, v.cloud.lookup path = some f → ∀ h, Keeps I (downloadUnless env f h)
  copy : cfg.canDownload = true → ∀ l f, v.files.lookup path = some l → v.cloud.lookup path = some f →
    ∀ renamedTo, KeepsBoth env cfg l f renamedTo → Keeps I (downloadUnless env (conflictCopy f renamedTo) none)
  quarantine : cfg.canDownload = true → ∀ l, v.files.lookup path = some l → ∀ run,
    Keeps I (quarantine env run path l.path)

omit hI in
theorem KeptByStep.named {v : View} {path : Text} (h : KeptByStep env cfg v path I) :
    KeptByNamedStep env cfg v path I where
  step := h.step
  upload := h.upload
  download := h.download
  copy := fun hcan _ f _ hf renamedTo _ => h.copy hcan f hf renamedTo
  quarantine := h.quarantine

theorem keeps_takeStep {v : View} {p : Planned} (hstep : KeptByNamedStep env cfg v p.path I)
    (hp : cfg.allows p.step = true) (run : Text) : Keeps I (takeStep env cfg v run p) := by
  unfold takeStep
  split
  next hs hl =>
    rw [hs] at hp
    refine Keeps.bind (keeps_attempt (hstep.quarantine hp _ hl _)) fun r => ?_
    cases r with
    | ok dst =>
      refine Keeps.bind (keeps_record hI _) fun _ => ?_
      refine Keeps.bind ?_ fun _ => Keeps.pure _
      exact hI.modify fun _ => ⟨rfl, rfl, rfl, rfl, fun _ _ => rfl, fun _ _ => rfl⟩
    | error e => exact Keeps.bind (keeps_addError hI _) fun _ => Keeps.pure _
  next hs hl =>
    rw [hs] at hp
    exact keeps_stepUpload hI (hstep.upload hp _ hl) v _
  next hs hl =>
    rw [hs] at hp
    exact keeps_stepUpload hI (hstep.upload hp _ hl) v _
  next hs hf =>
    rw [hs] at hp
    exact keeps_stepDownload hI v p fun h => hstep.download hp _ hf h
  next hs hl hf =>
    refine Keeps.bind ?_ fun _ => Keeps.pure _
    exact keeps_syncBoth hI (fun hu => hstep.upload hu _ hl) (fun hd => hstep.download hd _ hf)
      (fun hd => hstep.copy hd _ _ hl hf) _
  · exact Keeps.throw _

theorem keeps_executeStep {v : View} {p : Planned} (hpath : p.path ∈ S) (hkept : v.keptUnder p.path ∈ S)
    (hstep : KeptByNamedStep env cfg v p.path I) (hp : cfg.allows p.step = true) (run : Text) :
    Keeps I (executeStep env cfg v run p) := by
  refine Keeps.bind (hstep.step _) fun _ => ?_
  exact Keeps.bind (keeps_takeStep hI hstep hp run) fun recorded => keeps_recordStep hI hpath hkept recorded

end

/-! ## The whole run -/

section
variable (hI : FilesOnly I)

include hI

theorem keeps_updateState (f : SyncState → SyncState) : Keeps I (updateState f) :=
  hI.modify fun _ => ⟨rfl, rfl, rfl⟩

theorem keeps_finishState (hsave : Keeps I (saveManifest env)) : Keeps I (finishState env) := by
  unfold finishState
  refine Keeps.bind (keeps_now hI.stable) fun time => ?_
  refine Keeps.bind (hI.modify fun _ => ⟨rfl, rfl, rfl⟩) fun _ => ?_
  refine Keeps.bind (keeps_attempt hsave) fun r => ?_
  cases r with
  | ok _ => exact Keeps.pure _
  | error e => exact keeps_addError (S := Set.univ) hI.beyond _

/-- A property kept by the steps the direction allows, the pruning and the saved manifest is kept by
the sync of two sides already lined up. -/
theorem keeps_reconcileView {v : View} (hsteps : ∀ path, KeptByNamedStep env cfg v path I)
    (hprune : ∀ run days, Keeps I (pruneQuarantine env run days)) (hsave : Keeps I (saveManifest env))
    (run : Text) : Keeps I (reconcileView env cfg v run) := by
  have hB : Beyond Set.univ I := hI.beyond
  have hplan : Keeps I (planPaths env cfg v v.paths) :=
    keeps_planPaths hB fun _ _ => ⟨Set.mem_univ _, Set.mem_univ _⟩
  unfold reconcileView
  refine Triple.bind ((hplan.and (planPaths_allowed v v.paths)).mono
    (fun _ h => ⟨h, trivial⟩) (fun _ _ h => h) fun _ h => h.1) fun plan => ?_
  refine Triple.assume fun hallowed => ?_
  have hall : ∀ p ∈ plan.insertionSort Planned.le, Keeps I (executeStep env cfg v run p) := by
    intro p hp
    exact keeps_executeStep hB (Set.mem_univ _) (Set.mem_univ _) (hsteps p.path)
      (hallowed p ((List.mem_insertionSort _).mp hp)) run
  refine Triple.bind (Keeps.forM hall) fun _ => ?_
  refine Triple.bind (keeps_finishQuarantine hB (hprune _ _)) fun _ => ?_
  refine Triple.bind (keeps_reportPaths hB v run) fun _ => ?_
  refine Triple.bind (keeps_finishState hI hsave) fun _ => ?_
  refine Triple.bind (keeps_record hB _) fun _ => ?_
  exact Triple.bind Keeps.get fun _ => Keeps.pure _

end

end CloudSync
