import RemarkableServer.SyncKeepsContent
import RemarkableServer.SyncPaths

/-!
# What a delta sync downloads before it moves its cursor on

A page of the change feed is applied change by change, and the cursor moves past
it once no change is left to retry. A change is skipped for good when the file at
its path counts as edited: the disk says the file was written after the time that
was recorded at the last sync of the path, which after a download is the remote
file's own time and not the time of the write. So a file that only the sync has
written counts as edited, and its next change is downloaded only if the remote
time is past the time of that write.
-/
namespace DeltaSafety

open RustText Integrations CloudPaths CloudSync Effect FileTree
open SyncKeepsContent (editEnv editConfig editEngine)

/-! ## Applying a page -/

/-- The state in which a delta sync asks for its page. -/
def atPage (env : Env) (cfg : SyncConfig) (w : Engine) : Engine :=
  final (setGuard env) (final (loadManifest env cfg) w.start)

/-- The page of changes since the cursor, as the provider answers it. -/
def pageOf (env : Env) (cfg : SyncConfig) (w : Engine) (cursor : Text) :
    Except IntegrationError (List CloudFile × Option Text) :=
  env.provider.getChangesIn (atPage env cfg w).log cfg.cloudFolder (some cursor)

/-- The page has come. -/
def pageStart (env : Env) (cfg : SyncConfig) (w : Engine) (cursor : Text) : Engine :=
  { atPage env cfg w with log := .call (.getChangesIn cfg.cloudFolder (some cursor)) true :: (atPage env cfg w).log }

/-- The state in which a change comes up, after the changes before it in the page. -/
def stateBefore (env : Env) (cfg : SyncConfig) (w : Engine) (cursor : Text) (before : List CloudFile) : Engine :=
  final (before.forM (applyChange env cfg)) (pageStart env cfg w cursor)

/-- The change is recorded as failed, and not because of something that may go away. -/
def FailsForGood (env : Env) (cfg : SyncConfig) (f : CloudFile) (w : Engine) : Prop :=
  (final (applyChange env cfg f) w).result.errors ≠ w.result.errors ∧
    (final (applyChange env cfg f) w).retryNeeded = w.retryNeeded

/-- What the remote file holds was fetched after the log `since`, and is at the path. -/
def Arrived (env : Env) (since : Log) (f : CloudFile) (p : List Text) (w : Engine) : Prop :=
  ∃ content log, since <:+ log ∧ (.call (.downloadFile f.id) true :: log) <:+ w.log ∧
    env.provider.downloadFile log f.id = .ok content ∧ (w.tree.file? p).map (·.bytes) = some content

/-- The delta sync started at `w` moves its cursor past a page that has the change `f` after `before`
and before `later`; the change can be downloaded, is the last one for its local path `p`, and does not
fail for good. -/
structure MovesPast (env : Env) (cfg : SyncConfig) (w : Engine) (cursor : Text) (before : List CloudFile)
    (f : CloudFile) (later : List CloudFile) (p : List Text) : Prop where
  direction : cfg.direction ≠ .upload
  strategy : cfg.conflictStrategy = .newerWins
  held : w.state.cursor = some cursor
  page : ∃ newCursor, pageOf env cfg w cursor = .ok (before ++ f :: later, newCursor)
  moved : (final (deltaSync env cfg) w).state.cursor ≠ some cursor
  applied : isApplied cfg f = true
  path : cloudPathComponents f.path = .ok p
  last : ∀ g ∈ later, cloudPathComponents g.path ≠ .ok p
  succeeds : ¬FailsForGood env cfg f (stateBefore env cfg w cursor before)

/-- No change of the page is lost. -/
def NoChangeLost (env : Env) (cfg : SyncConfig) (w : Engine) : Prop :=
  ∀ cursor before f later p, MovesPast env cfg w cursor before f later p →
    Arrived env (stateBefore env cfg w cursor before).log f p (final (deltaSync env cfg) w)

/-- What is at the path was looked at. -/
def looked (w : Engine) (p : List Text) : Engine := { w with log := .disk (.stat p) true :: w.log }

/-- What is at the path does not keep the change from being downloaded: it is not newer than the time
recorded for the path, or it is older than the change. -/
def Overridable (env : Env) (f : CloudFile) (p : List Text) (w : Engine) : Prop :=
  w.tree.taken p = true →
    isNewer env (looked w p) f p = false ∨ localTime env (looked w p) p < f.modifiedAt

/-- The condition for every change of the page that counts. -/
def PageOverridable (env : Env) (cfg : SyncConfig) (w : Engine) : Prop :=
  ∀ cursor before f later p, MovesPast env cfg w cursor before f later p →
    Overridable env f p (stateBefore env cfg w cursor before)

variable {env : Env} {cfg : SyncConfig} {I : Engine → Prop}

/-! ## Properties a change keeps -/

/-- Nothing that a delta sync notes down matters to the property. -/
structure Aloof (I : Engine → Prop) : Prop extends Incidental I where
  result : ∀ w r, I w → I { w with result := r }
  pending : ∀ w c, I w → I { w with pendingConflicts := c }
  retry : ∀ w, I w → I { w with retryNeeded := true }
  manifest : ∀ w m, I w → I { w with state := { w.state with manifest := m } }

theorem aloof_of_filesOnly (hI : FilesOnly I) : Aloof I where
  toIncidental := (hI.beyond (S := Set.univ)).incidental
  result := fun w _ => hI.fields w _ rfl rfl rfl
  pending := fun w _ => hI.fields w _ rfl rfl rfl
  retry := fun w => hI.fields w _ rfl rfl rfl
  manifest := fun w _ => hI.fields w _ rfl rfl rfl

theorem Aloof.noteFailure (hI : Aloof I) (e : IntegrationError) (what : SyncError) :
    Keeps I (noteFailure e what) := by
  refine Keeps.bind (Keeps.modify fun w h => ?_) fun _ => Keeps.modify fun w h => hI.result w _ h
  cases hp : e.isPermanent with
  | true => simpa [hp] using h
  | false => simpa [hp] using hI.retry w h

theorem Aloof.recordDownload (hI : Aloof I) (f : CloudFile) (identity : LocalIdentity) :
    Keeps I (recordDownload cfg f identity) := by
  unfold CloudSync.recordDownload
  refine Keeps.bind (keeps_ofPanicking _) fun visible => ?_
  split
  · exact Keeps.modify fun w h => hI.manifest w _ h
  · exact Keeps.pure _

theorem Aloof.fetchChange (hI : Aloof I) {f : CloudFile} (hdown : Keeps I (downloadUnless env f none))
    (p : List Text) : Keeps I (fetchChange env cfg f p) := by
  have hfetch : Keeps I (do let identity ← downloadFile env f; pure (some identity) : Sync (Option LocalIdentity)) :=
    Keeps.bind (keeps_downloadFile hdown) fun _ => Keeps.pure _
  unfold CloudSync.fetchChange
  refine Keeps.bind Keeps.get fun w => ?_
  split
  · unfold fetchOverEdit
    refine Keeps.bind Keeps.get fun w => ?_
    refine Keeps.bind (keeps_now hI.stable) fun stamp => ?_
    split
    · exact hfetch
    · refine Keeps.bind (Keeps.modify fun w h => hI.pending w _ h) fun _ => ?_
      exact Keeps.bind (Keeps.modify fun w h => hI.result w _ h) fun _ => Keeps.pure _
    · exact Keeps.pure _
  · exact hfetch

theorem Aloof.takeChange (hI : Aloof I) {f : CloudFile} (hdown : Keeps I (downloadUnless env f none))
    (p : List Text) : Keeps I (takeChange env cfg f p) := by
  unfold CloudSync.takeChange
  refine Keeps.bind (keeps_attempt (hI.fetchChange hdown p)) fun r => ?_
  split
  · exact hI.noteFailure _ _
  · exact Keeps.pure _
  · exact Keeps.bind (Keeps.modify fun w h => hI.result w _ h) fun _ => hI.recordDownload _ _

/-- A change keeps what its download keeps. -/
theorem Aloof.applyChange (hI : Aloof I) {f : CloudFile}
    (hdown : isApplied cfg f = true → Keeps I (downloadUnless env f none)) : Keeps I (applyChange env cfg f) := by
  unfold CloudSync.applyChange
  split
  · exact Keeps.pure _
  next happlied =>
    have hd := hdown (by simpa using happlied)
    split
    · exact hI.noteFailure _ _
    · refine Keeps.bind Keeps.get fun w => ?_
      split
      · refine Keeps.bind (keeps_attempt (keeps_stat hI.stable _)) fun r => ?_
        cases r with
        | error e => exact hI.noteFailure _ _
        | ok isDir => exact hI.takeChange hd _
      · exact hI.takeChange hd _

/-! ## Changes for other paths -/

/-- The components of a path that is not reserved are not the engine's own. -/
theorem not_reserved_components {path : Text} {p : List Text} (hp : cloudPathComponents path = .ok p)
    (hfree : isReserved path = false) : ∀ name ∈ p, isReservedName name = false := by
  have hsplit : p = split '/' (relative path) := by
    unfold cloudPathComponents safeComponents at hp
    dsimp only at hp
    split_ifs at hp
    split at hp
    · cases hp
    · cases hp
      rfl
  rw [hsplit]
  simpa [isReserved] using hfree

/-- A property of the file at the path and of the log, which only grows. -/
structure AtPath (p : List Text) (I : Engine → Prop) : Prop where
  event : ∀ w e t, I w → t.file? p = w.tree.file? p → I { w with log := e :: w.log, tree := t }
  fields : ∀ w w' : Engine, w'.tree = w.tree → w'.log = w.log → I w → I w'

theorem AtPath.filesOnly {p : List Text} (hI : AtPath p I) : FilesOnly I where
  stable := fun w e t _ h ht => hI.event w e t h (ht p)
  fields := fun w w' htree hlog _ h => hI.fields w w' htree hlog h

theorem AtPath.quarantine {p : List Text} (hI : AtPath p I) (hp : ¬InQuarantine p) (run path : Text)
    {src : List Text} (hsrc : src ≠ p) : Keeps I (quarantine env run path src) := by
  refine triple_quarantine hI.filesOnly.stable hI.filesOnly.stable (fun _ h => h) run path src
    fun w f dst h hf _ hdst => hI.event w _ _ h ?_
  rw [Tree.file?_move hf, if_neg ?_, if_neg hsrc.symm]
  rintro rfl
  exact hp hdst

/-- A download for another path leaves the file where it is. -/
theorem AtPath.downloadUnless {p : List Text} (hI : AtPath p I) (hp : ¬InQuarantine p) {f : CloudFile}
    (hf : cloudPathComponents f.path ≠ .ok p) (unlessHash : Option Text) :
    Keeps I (downloadUnless env f unlessHash) := by
  have hinc : Incidental I := (aloof_of_filesOnly hI.filesOnly).toIncidental
  refine keeps_downloadUnless_of hinc (K := fun _ => I) ?_ ?_ ?_ unlessHash
  · intro target htarget
    refine keeps_guardOverwrite hinc fun run => hI.quarantine hp run f.path ?_
    rintro rfl
    exact hf htarget
  · exact fun w target h => hI.event w _ w.tree h rfl
  · intro w target written htarget h
    refine hI.event w _ _ h ?_
    rw [Tree.file?_write, if_neg ?_]
    rintro rfl
    exact hf htarget

theorem AtPath.changes {p : List Text} (hI : AtPath p I) (hp : ¬InQuarantine p) {changes : List CloudFile}
    (h : ∀ g ∈ changes, cloudPathComponents g.path ≠ .ok p) : Keeps I (changes.forM (applyChange env cfg)) :=
  Keeps.forM fun g hg => (aloof_of_filesOnly hI.filesOnly).applyChange fun _ => hI.downloadUnless hp (h g hg) none

/-! ## The cursor and the retries -/

/-- The property is not about the disk or the log, nor about what a download notes down. -/
theorem keeps_downloadUnless_fields (hI : Incidental I)
    (hdisk : ∀ w e t, I w → I { w with log := e :: w.log, tree := t }) (f : CloudFile) (unlessHash : Option Text) :
    Keeps I (downloadUnless env f unlessHash) := by
  refine keeps_downloadUnless_of hI (K := fun _ => I) ?_ ?_ ?_ unlessHash
  · intro target _
    refine keeps_guardOverwrite hI fun run => ?_
    exact triple_quarantine hI.stable hI.stable (fun _ h => h) run f.path target fun w _ _ h _ _ _ => hdisk w _ _ h
  · exact fun w target h => hdisk w _ w.tree h
  · exact fun w target written _ h => hdisk w _ _ h

theorem keeps_retryNeeded (env : Env) (cfg : SyncConfig) (f : CloudFile) : Keeps (·.retryNeeded = true) (applyChange env cfg f) := by
  have hI : Aloof fun w : Engine => w.retryNeeded = true :=
    { stable := fun _ _ _ _ h _ => h
      notices := fun _ _ h => h
      synced := fun _ _ _ _ _ h => h
      result := fun _ _ h => h
      pending := fun _ _ h => h
      retry := fun _ _ => rfl
      manifest := fun _ _ h => h }
  exact hI.applyChange fun _ => keeps_downloadUnless_fields hI.toIncidental (fun _ _ _ h => h) f none

theorem aloof_cursor (c : Option Text) : Aloof fun w : Engine => w.state.cursor = c where
  stable := fun _ _ _ _ h _ => h
  notices := fun _ _ h => h
  synced := fun _ _ _ _ _ h => h
  result := fun _ _ h => h
  pending := fun _ _ h => h
  retry := fun _ h => h
  manifest := fun _ _ h => h

theorem keeps_cursor (env : Env) (cfg : SyncConfig) (c : Option Text) (f : CloudFile) :
    Keeps (·.state.cursor = c) (applyChange env cfg f) :=
  (aloof_cursor c).applyChange fun _ =>
    keeps_downloadUnless_fields (aloof_cursor c).toIncidental (fun _ _ _ h => h) f none

/-! ## The change itself -/

section
variable {errors : List SyncError} {since : Log} {f : CloudFile} {p : List Text}

/-- No error has been added, since that log. -/
def Clean (errors : List SyncError) (since : Log) (w : Engine) : Prop :=
  w.result.errors = errors ∧ since <:+ w.log

/-- The content was fetched. -/
def Fetched (env : Env) (since : Log) (f : CloudFile) (content : Bytes) (log : Log) : Prop :=
  ∃ l, since <:+ l ∧ (.call (.downloadFile f.id) true :: l) <:+ log ∧ env.provider.downloadFile l f.id = .ok content

theorem Fetched.cons {content : Bytes} {log : Log} (h : Fetched env since f content log) (e : Event) :
    Fetched env since f content (e :: log) := by
  obtain ⟨l, hl, hs, hc⟩ := h
  exact ⟨l, hl, hs.trans (List.suffix_cons e log), hc⟩

theorem stable_clean : Stable (Clean errors since) :=
  fun w e _ _ h _ => ⟨h.1, h.2.trans (List.suffix_cons e w.log)⟩

theorem stable_fetched (content : Bytes) :
    Stable fun w => w.result.errors = errors ∧ Fetched env since f content w.log :=
  fun _ e _ _ h _ => ⟨h.1, h.2.cons e⟩

/-- A download that returns has put what it fetched at its path. -/
theorem triple_downloadFile (hp : cloudPathComponents f.path = .ok p) :
    Triple (Clean errors since) (downloadFile env f)
      (fun _ w => w.result.errors = errors ∧ Arrived env since f p w) (·.result.errors = errors) := by
  let F (content : Bytes) (w : Engine) : Prop := w.result.errors = errors ∧ Fetched env since f content w.log
  let Q (content : Bytes) (w : Engine) : Prop := F content w ∧ (w.tree.file? p).map (·.bytes) = some content
  have hinc : ∀ content, Incidental (F content) := fun content =>
    ⟨stable_fetched content, fun _ _ h => h, fun _ _ _ _ _ h => h⟩
  have hdown : Triple (Clean errors since) (downloadUnless env f none) _ (·.result.errors = errors) :=
    triple_downloadUnless (F := F) (K := fun content _ => F content) (Q := fun content _ => Q content)
      (fun content => stable_fetched content) (fun _ _ _ h _ _ _ _ => h) (fun _ h => h.1) (fun _ _ h => h.1)
      (fun _ h => h.1)
      (fun w content h hc => ⟨h.1, w.log, h.2, List.suffix_rfl, hc⟩)
      (fun content target _ => (keeps_guardOverwrite (hinc content) fun run =>
        triple_quarantine (stable_fetched content) (stable_fetched content) (fun _ h => h) run f.path target
          fun _ _ _ h _ _ _ => ⟨h.1, h.2.cons _⟩).mono (fun _ h => h) (fun _ _ h => h) fun _ h => h.1)
      (fun _ _ _ h => h.1)
      (fun w content target time htarget h => by
        rw [hp, Except.ok.injEq] at htarget
        subst htarget
        refine ⟨⟨h.1, h.2.cons _⟩, ?_⟩
        rw [Tree.file?_write, if_pos rfl]
        rfl)
      none
  refine Triple.bind hdown fun r => ?_
  rintro w (⟨-, content, hnone, -⟩ | ⟨content, written, rfl, -, ⟨herrors, l, hl, hs, hc⟩, hfile⟩)
  · cases hnone
  · exact ⟨herrors, content, l, hl, hs, hc, hfile⟩

/-- What is at the path lets the change be downloaded. -/
def GoesAhead (env : Env) (f : CloudFile) (p : List Text) (w : Engine) : Prop :=
  (w.tree.taken p && isNewer env w f p) = true → localTime env w p < f.modifiedAt

theorem triple_fetch (hp : cloudPathComponents f.path = .ok p) :
    Triple (Clean errors since)
      (do let identity ← downloadFile env f; pure (some identity) : Sync (Option LocalIdentity))
      (fun r w => r.isSome = true ∧ w.result.errors = errors ∧ Arrived env since f p w)
      (·.result.errors = errors) :=
  Triple.bind (triple_downloadFile hp) fun _ _ h => ⟨rfl, h⟩

/-- The newer side is the remote one. -/
theorem resolve_newerWins {cfg : SyncConfig} (hcfg : cfg.conflictStrategy = .newerWins) (stamp : Text) {c : Conflict}
    (htype : c.conflictType = .bothModified) (hlt : c.localModifiedAt < c.cloudFile.modifiedAt) :
    resolve cfg.conflictStrategy stamp c = .useCloud := by
  rw [hcfg, resolve, resolveByTime, htype]
  dsimp only
  rw [if_neg (by omega), if_pos hlt]

theorem triple_fetchOverEdit (hp : cloudPathComponents f.path = .ok p) (hcfg : cfg.conflictStrategy = .newerWins) :
    Triple (fun w => Clean errors since w ∧ localTime env w p < f.modifiedAt) (fetchOverEdit env cfg f p)
      (fun r w => r.isSome = true ∧ w.result.errors = errors ∧ Arrived env since f p w)
      (·.result.errors = errors) := by
  unfold fetchOverEdit
  refine Triple.get fun w₁ => ?_
  dsimp only
  refine Triple.bind (R := fun _ w => Clean errors since w ∧ localTime env w₁ p < f.modifiedAt) ?_ fun stamp => ?_
  · rintro w ⟨⟨h, hlt⟩, rfl⟩
    exact ⟨stable_clean.log w rfl h, hlt⟩
  · refine Triple.assume fun hlt => ?_
    rw [resolve_newerWins hcfg _ rfl hlt]
    exact triple_fetch hp

theorem triple_fetchChange (hp : cloudPathComponents f.path = .ok p) (hcfg : cfg.conflictStrategy = .newerWins) :
    Triple (fun w => Clean errors since w ∧ GoesAhead env f p w) (fetchChange env cfg f p)
      (fun r w => r.isSome = true ∧ w.result.errors = errors ∧ Arrived env since f p w)
      (·.result.errors = errors) := by
  unfold fetchChange
  refine Triple.get fun w₀ => ?_
  split
  next hnewer =>
    refine (triple_fetchOverEdit hp hcfg).mono ?_ (fun _ _ h => h) fun _ h => h
    rintro w ⟨⟨hclean, hgo⟩, rfl⟩
    exact ⟨hclean, hgo hnewer⟩
  · exact (triple_fetch hp).mono (fun _ h => h.1.1) (fun _ _ h => h) fun _ h => h

theorem atPath_arrived : AtPath p (Arrived env since f p) where
  event := by
    rintro w e t ⟨content, l, hl, hs, hc, hfile⟩ ht
    refine ⟨content, l, hl, hs.trans (List.suffix_cons e w.log), hc, ?_⟩
    rw [ht]
    exact hfile
  fields := by
    rintro w w' htree hlog ⟨content, l, hl, hs, hc, hfile⟩
    exact ⟨content, l, hl, hlog ▸ hs, hc, htree ▸ hfile⟩

/-- The change is noted as failed, or it has arrived. -/
def Dealt (env : Env) (errors : List SyncError) (since : Log) (f : CloudFile) (p : List Text) (w : Engine) : Prop :=
  w.result.errors ≠ errors ∨ Arrived env since f p w

theorem triple_noteFailure (e : IntegrationError) (what : SyncError) :
    Triple (·.result.errors = errors) (noteFailure e what) (fun _ => Dealt env errors since f p) fun _ => True := by
  refine Triple.bind (R := fun _ (w : Engine) => w.result.errors = errors) (fun _ h => h) fun _ => ?_
  rintro w rfl
  refine Or.inl fun h => ?_
  simp at h

theorem triple_takeChange (hp : cloudPathComponents f.path = .ok p) (hcfg : cfg.conflictStrategy = .newerWins) :
    Triple (fun w => Clean errors since w ∧ GoesAhead env f p w) (takeChange env cfg f p)
      (fun _ => Dealt env errors since f p) fun _ => True := by
  unfold takeChange
  refine Triple.bind ((triple_attempt (triple_fetchChange hp hcfg)).mono (fun _ h => h) (fun _ _ h => h)
    fun _ _ => trivial) fun r => ?_
  split
  · exact triple_noteFailure _ _
  · exact fun w h => nomatch h.1
  next identity =>
    have hA : Aloof (Arrived env since f p) := aloof_of_filesOnly atPath_arrived.filesOnly
    have hkeep : Keeps (Arrived env since f p) (do
        record fun r => { r with downloaded := r.downloaded + 1 }
        recordDownload cfg f identity) :=
      Keeps.bind (Keeps.modify fun w h => hA.result w _ h) fun _ => hA.recordDownload _ _
    exact hkeep.mono (fun _ h => h.2.2) (fun _ _ => Or.inr) fun _ _ => trivial

/-- A change that nothing at its path holds up has arrived afterwards, or is noted as failed. -/
theorem triple_applyChange (hp : cloudPathComponents f.path = .ok p) (hcfg : cfg.conflictStrategy = .newerWins)
    (happlied : isApplied cfg f = true) {s : Engine} (hs : Overridable env f p s) :
    Triple (· = s) (applyChange env cfg f) (fun _ => Dealt env s.result.errors s.log f p) fun _ => True := by
  have htake : Triple (fun w => Clean s.result.errors s.log w ∧ GoesAhead env f p w) (takeChange env cfg f p)
      (fun _ => Dealt env s.result.errors s.log f p) fun _ => True := triple_takeChange hp hcfg
  unfold applyChange
  rw [happlied, Bool.not_true, if_neg Bool.false_ne_true, hp]
  dsimp only
  refine Triple.get fun w₀ => ?_
  split
  next htaken =>
    have hlook : Triple (fun w => w = s ∧ w = w₀) (attempt (stat env p))
        (fun r w => r.casesOn (fun _ => w.result.errors = s.result.errors)
          fun _ => Clean s.result.errors s.log w ∧ GoesAhead env f p w) (·.result.errors = s.result.errors) := by
      refine triple_attempt (triple_disk ?_ ?_)
      · rintro w ⟨rfl, -⟩
        rfl
      · rintro w a t ⟨rfl, rfl⟩ ha
        rw [htaken, if_pos rfl, Except.ok.injEq, Prod.mk.injEq] at ha
        obtain ⟨-, rfl⟩ := ha
        refine ⟨⟨rfl, List.suffix_cons _ _⟩, fun hnewer => ?_⟩
        have hn : isNewer env (looked w p) f p = true := (Bool.and_eq_true_iff.mp hnewer).2
        rcases hs htaken with h | h
        · rw [hn] at h
          cases h
        · exact h
    refine Triple.bind (hlook.mono (fun _ h => h) (fun _ _ h => h) fun _ _ => trivial) fun r => ?_
    cases r with
    | error e => exact triple_noteFailure _ _
    | ok isDir => exact htake
  next hfree =>
    refine htake.mono ?_ (fun _ _ h => h) fun _ h => h
    rintro w ⟨rfl, rfl⟩
    refine ⟨⟨rfl, List.suffix_rfl⟩, fun hnewer => ?_⟩
    exact absurd (Bool.and_eq_true_iff.mp hnewer).1 hfree

end

/-! ## The whole page -/

theorem applyPage_eq (changes : List CloudFile) (c : Option Text) :
    applyPage env cfg changes c = (changes.forM (applyChange env cfg) >>= fun _ => applyPage env cfg [] c) := rfl

/-- After the changes, the cursor moves on if no retry is needed, and the manifest is saved. -/
theorem Aloof.applyPage_nil (hI : Aloof I) (c : Option Text)
    (hcursor : ∀ w : Engine, w.retryNeeded = false → I w → I { w with state := { w.state with cursor := c } })
    (hlast : ∀ w time, I w → I { w with state := { w.state with lastSync := time } })
    (hsave : Keeps I (saveManifest env)) : Keeps I (applyPage env cfg [] c) := by
  have hdone : Keeps I (do
      record fun r => { r with status := if r.errors.isEmpty then r.status else .partialSuccess }
      let w ← get
      pure w.result) :=
    Keeps.bind (Keeps.modify fun w h => hI.result w _ h) fun _ => Keeps.bind Keeps.get fun _ => Keeps.pure _
  have hrest : Keeps I (finishPage env) := by
    refine Keeps.bind (keeps_now hI.stable) fun time => ?_
    refine Keeps.bind (Keeps.modify fun w h => hlast w _ h) fun _ => ?_
    refine Keeps.bind (keeps_attempt hsave) fun r => ?_
    cases r with
    | ok _ => exact hdone
    | error e => exact Keeps.bind (Keeps.modify fun w h => hI.result w _ h) fun _ => hdone
  unfold applyPage
  refine Keeps.bind (Keeps.pure _) fun _ => ?_
  refine Keeps.bind (Keeps.modify fun w h => hI.result { w with notices := [] } _ (hI.notices w [] h)) fun _ => ?_
  refine Triple.get fun w₀ => ?_
  dsimp only
  split
  next hretry =>
    refine Triple.bind (R := fun _ => I) ?_ fun _ => hrest
    rintro w ⟨h, rfl⟩
    exact hcursor w (by simpa using hretry) h
  · exact hrest.mono (fun _ h => h.1) (fun _ _ h => h) fun _ h => h

section
variable {s₀ : Engine} {cursor : Text} {before later : List CloudFile} {f : CloudFile} {p : List Text}

/-- The page up to its changes: the cursor is where it was, and a retry is needed or the change has
arrived. -/
def Held (env : Env) (cursor : Text) (since : Log) (f : CloudFile) (p : List Text) (w : Engine) : Prop :=
  w.state.cursor = some cursor ∧ (w.retryNeeded = true ∨ Arrived env since f p w)

/-- The cursor was not moved past the change, or the change has arrived. -/
def Past (env : Env) (cursor : Text) (since : Log) (f : CloudFile) (p : List Text) (w : Engine) : Prop :=
  w.state.cursor = some cursor ∨ Arrived env since f p w

/-- A change that does not fail for good arrives, or holds the cursor. -/
theorem triple_applyChange_held (hp : cloudPathComponents f.path = .ok p) (hcfg : cfg.conflictStrategy = .newerWins)
    (happlied : isApplied cfg f = true) {s : Engine} (hs : Overridable env f p s) (hok : ¬FailsForGood env cfg f s)
    (hcursor : s.state.cursor = some cursor) :
    Triple (· = s) (applyChange env cfg f) (fun _ => Held env cursor s.log f p) (·.state.cursor = some cursor) := by
  rintro w rfl
  have hdealt := triple_applyChange hp hcfg happlied hs w rfl
  have hkept := keeps_cursor env cfg (some cursor) f w hcursor
  cases hr : applyChange env cfg f w with
  | error e w' =>
    rw [hr] at hkept
    exact hkept
  | ok a w' =>
    have hfinal : final (applyChange env cfg f) w = w' := by rw [final, hr]
    rw [hr] at hdealt hkept
    refine ⟨hkept, ?_⟩
    cases hretry : w'.retryNeeded with
    | true => exact Or.inl rfl
    | false =>
      refine Or.inr (hdealt.resolve_left fun herrors => hok ?_)
      refine ⟨hfinal ▸ herrors, ?_⟩
      rw [hfinal, hretry]
      cases hbefore : w.retryNeeded with
      | false => rfl
      | true =>
        have hmono := (keeps_retryNeeded env cfg f).final hbefore
        rw [hfinal, hretry] at hmono
        cases hmono

/-- Applying the page moves the cursor past the change only if it has arrived. -/
theorem triple_applyPage (hp : cloudPathComponents f.path = .ok p) (hcfg : cfg.conflictStrategy = .newerWins)
    (happlied : isApplied cfg f = true) (hlast : ∀ g ∈ later, cloudPathComponents g.path ≠ .ok p)
    (hcursor : s₀.state.cursor = some cursor) {s : Engine} (hs : s = final (before.forM (applyChange env cfg)) s₀)
    (hover : Overridable env f p s) (hok : ¬FailsForGood env cfg f s) (c : Option Text) :
    Triple (· = s₀) (applyPage env cfg (before ++ f :: later) c) (fun _ => Past env cursor s.log f p)
      (Past env cursor s.log f p) := by
  have hfree : ∀ name ∈ p, isReservedName name = false := by
    refine not_reserved_components hp ?_
    have h := happlied
    simp only [isApplied, Bool.and_eq_true, Bool.not_eq_true'] at h
    exact h.1.2
  have hquarantine : ¬InQuarantine p := by
    rintro ⟨rest, -, rfl⟩
    exact absurd (hfree _ List.mem_cons_self) (by decide)
  have hmanifest : p ≠ [manifestFile] := by
    rintro rfl
    exact absurd (hfree _ List.mem_cons_self) (by decide)
  have hbefore : Triple (· = s₀) (before.forM (applyChange env cfg)) (fun _ w => w = s) (·.state.cursor = some cursor) := by
    have hkeep : Keeps (·.state.cursor = some cursor) (before.forM (applyChange env cfg)) :=
      Keeps.forM fun g _ => keeps_cursor env cfg (some cursor) g
    refine ((Triple.start _ s₀).and hkeep).mono ?_ ?_ ?_
    · rintro w rfl
      exact ⟨rfl, hcursor⟩
    · exact fun _ _ h => h.1.trans hs.symm
    · exact fun _ h => h.2
  have hcursor' : s.state.cursor = some cursor := by
    rw [hs]
    exact (Keeps.forM fun g _ => keeps_cursor env cfg (some cursor) g).final hcursor
  have hlater : Triple (Held env cursor s.log f p) (later.forM (applyChange env cfg))
      (fun _ => Held env cursor s.log f p) (·.state.cursor = some cursor) := by
    have hkeep : Keeps (·.state.cursor = some cursor) (later.forM (applyChange env cfg)) :=
      Keeps.forM fun g _ => keeps_cursor env cfg (some cursor) g
    have hdone : Keeps (fun w => w.retryNeeded = true ∨ Arrived env s.log f p w) (later.forM (applyChange env cfg)) :=
      (Keeps.forM fun g _ => keeps_retryNeeded env cfg g).or (atPath_arrived.changes hquarantine hlast)
    exact (hkeep.and hdone).mono (fun _ h => h) (fun _ _ h => h) fun _ h => h.1
  have hend : Triple (Held env cursor s.log f p) (applyPage env cfg [] c) (fun _ => Past env cursor s.log f p)
      (Past env cursor s.log f p) := by
    have hheld : Keeps (fun w : Engine => w.retryNeeded = true ∧ w.state.cursor = some cursor)
        (applyPage env cfg [] c) := by
      refine Aloof.applyPage_nil ?_ c ?_ (fun _ _ h => h)
        (keeps_saveManifest (fun _ _ _ _ h _ => h) fun _ _ h => h)
      · exact
          { stable := fun _ _ _ _ h _ => h
            notices := fun _ _ h => h
            synced := fun _ _ _ _ _ h => h
            result := fun _ _ h => h
            pending := fun _ _ h => h
            retry := fun _ h => ⟨rfl, h.2⟩
            manifest := fun _ _ h => h }
      · intro w hno h
        rw [h.1] at hno
        cases hno
    have harrived : Keeps (Arrived env s.log f p) (applyPage env cfg [] c) := by
      refine (aloof_of_filesOnly atPath_arrived.filesOnly).applyPage_nil c ?_ ?_ ?_
      · exact fun w _ h => atPath_arrived.fields w _ rfl rfl h
      · exact fun w _ h => atPath_arrived.fields w _ rfl rfl h
      · refine keeps_saveManifest atPath_arrived.filesOnly.stable fun w g h => atPath_arrived.event w _ _ h ?_
        rw [Tree.file?_write, if_neg hmanifest]
    refine (hheld.or harrived).mono ?_ ?_ ?_
    · exact fun w h => h.2.imp (fun hretry => ⟨hretry, h.1⟩) id
    · exact fun _ w h => h.imp And.right id
    · exact fun w h => h.imp And.right id
  have hsplit : (before ++ f :: later).forM (applyChange env cfg) = (before.forM (applyChange env cfg) >>= fun _ =>
      applyChange env cfg f >>= fun _ => later.forM (applyChange env cfg)) := by
    exact List.forM_append
  rw [applyPage_eq, hsplit]
  refine Triple.bind (R := fun _ => Held env cursor s.log f p) ?_ fun _ => hend
  refine Triple.bind (hbefore.mono (fun _ h => h) (fun _ _ h => h) fun _ => Or.inl) fun _ => ?_
  refine Triple.bind ((triple_applyChange_held hp hcfg happlied hover hok hcursor').mono (fun _ h => h)
    (fun _ _ h => h) fun _ => Or.inl) fun _ => ?_
  exact hlater.mono (fun _ h => h) (fun _ _ h => h) fun _ => Or.inl

end

/-! ## Runs -/

theorem keeps_loadManifest_cursor (c : Option Text) : Keeps (·.state.cursor = c) (loadManifest env cfg) := by
  have hS : Stable fun w : Engine => w.state.cursor = c := fun _ _ _ _ h _ => h
  unfold loadManifest
  refine Keeps.bind Keeps.get fun w₀ => ?_
  split
  · exact Keeps.pure _
  · refine Keeps.bind (keeps_call hS rfl) fun account => ?_
    dsimp only
    split
    · refine Keeps.bind (keeps_readManifestFile hS) fun stored => ?_
      exact Keeps.bind (Keeps.modify fun _ h => h) fun _ => Keeps.modify fun _ h => h
    · exact Keeps.modify fun _ h => h

/-- A delta sync moves its cursor past a change only if the change has arrived. -/
theorem deltaSync_past {w : Engine} {cursor : Text} {before later : List CloudFile} {f : CloudFile} {p : List Text}
    (h : MovesPast env cfg w cursor before f later p)
    (hover : Overridable env f p (stateBefore env cfg w cursor before)) :
    Past env cursor (stateBefore env cfg w cursor before).log f p (final (deltaSync env cfg) w) := by
  obtain ⟨newCursor, hpage⟩ := h.page
  have hcursor : (pageStart env cfg w cursor).state.cursor = some cursor :=
    (keeps_loadManifest_cursor (some cursor)).final (s := w.start) h.held
  have hrun : Triple (· = w) (deltaSync env cfg)
      (fun _ => Past env cursor (stateBefore env cfg w cursor before).log f p)
      (Past env cursor (stateBefore env cfg w cursor before).log f p) := by
    unfold deltaSync
    refine Triple.bind (R := fun _ => (· = w.start)) (fun s hs => congrArg Engine.start hs) fun _ => ?_
    rw [if_neg (by simpa using h.direction)]
    refine Triple.get fun w₀ => ?_
    rintro s ⟨rfl, rfl⟩
    have hheld : w.start.state.cursor = some cursor := h.held
    rw [hheld]
    have hload : Triple (· = w.start) (loadManifest env cfg) (fun _ s => s = final (loadManifest env cfg) w.start)
        (Past env cursor (stateBefore env cfg w cursor before).log f p) := by
      refine (Triple.start _ w.start).mono (fun _ h => h) (fun _ _ h => h) ?_
      rintro s rfl
      exact Or.inl ((keeps_loadManifest_cursor (some cursor)).final h.held)
    refine Triple.bind hload (fun _ => ?_) w.start rfl
    refine Triple.bind (R := fun _ s => s = atPage env cfg w) (fun s hs => ?_) fun _ => ?_
    · rw [atPage, ← hs]
      rfl
    refine Triple.bind (R := fun r s => s = pageStart env cfg w cursor ∧ r = .ok (before ++ f :: later, newCursor))
      ?_ fun r => ?_
    · rintro s rfl
      unfold attempt call
      dsimp only
      have hanswer : env.provider.getChangesIn (atPage env cfg w).log cfg.cloudFolder (some cursor) =
          .ok (before ++ f :: later, newCursor) := hpage
      rw [hanswer]
      exact ⟨rfl, rfl⟩
    · refine Triple.assume ?_
      rintro rfl
      exact triple_applyPage h.path h.strategy h.applied h.last hcursor rfl hover h.succeeds newCursor
  exact hrun.final rfl

/-- The property holds at the start of every delta sync of a sequence, each with what it meets and its
settings. One that has no cursor is a resync. -/
def AlongDeltas (X : Env → SyncConfig → Engine → Prop) : List (Env × SyncConfig) → Engine → Prop
  | [], _ => True
  | c :: calls, w => X c.1 c.2 w ∧ AlongDeltas X calls (final (deltaSync c.1 c.2) w)

/-- For every sequence of delta syncs, with any pages, failures and times: if nothing at a local path
keeps a change of a page from being downloaded, no change is lost whenever the cursor moves past a page. -/
theorem deltas_lose_no_change (calls : List (Env × SyncConfig)) (w : Engine)
    (h : AlongDeltas PageOverridable calls w) : AlongDeltas NoChangeLost calls w := by
  induction calls generalizing w with
  | nil => trivial
  | cons c calls ih =>
    refine ⟨?_, ih _ h.2⟩
    intro cursor before f later p hpast
    exact (deltaSync_past hpast (h.1 cursor before f later p hpast)).resolve_left hpast.moved

/-- A provider whose one file was modified at second 5; the machine writes files at second 10. -/
def feedEnv : Env :=
  { editEnv with
    fileTime := fun _ => some 10000000000
    provider := { editEnv.provider with
      listFiles := fun _ _ =>
        .ok [⟨"id".toList, "a.txt".toList, none, 1, 5, some "old".toList, none, false, "/a.txt".toList, false⟩]
      downloadFile := fun _ _ => .ok [1]
      getChangesIn := fun _ _ _ => .ok ([], some "1".toList) } }

/-- The file as it is after a change at the given second. -/
def changedFile (modifiedAt : Int) : CloudFile :=
  ⟨"id".toList, "a.txt".toList, none, 1, modifiedAt, some "new".toList, none, false, "/a.txt".toList, false⟩

/-- The file was changed at the given second, and the feed says so. -/
def changedEnv (modifiedAt : Int) : Env :=
  { feedEnv with
    provider := { feedEnv.provider with
      downloadFile := fun _ _ => .ok [2]
      getChangesIn := fun _ _ _ => .ok ([changedFile modifiedAt], some "2".toList) } }

def feedConfig : SyncConfig := { editConfig with conflictStrategy := .newerWins }

def freshEngine : Engine := { editEngine with tree := Tree.empty, state := ⟨none, none, ∅, ∅, ∅, none⟩ }

/-- The engine after the resync. -/
def resynced : Engine := final (deltaSync feedEnv feedConfig) freshEngine

/-- A file that only the resync wrote, at second 10, is not replaced by a change of second 7, and the
cursor moves past the change. -/
theorem change_behind_the_write_is_lost :
    ¬∀ (calls : List (Env × SyncConfig)) (w : Engine), w.tree = Tree.empty → w.state.cursor = none →
      AlongDeltas NoChangeLost calls w := by
  intro h
  have hpast : MovesPast (changedEnv 7) feedConfig resynced "1".toList [] (changedFile 7) [] ["a.txt".toList] :=
    { direction := by decide
      strategy := rfl
      held := by decide +kernel
      page := ⟨some "2".toList, rfl⟩
      moved := by decide +kernel
      applied := by decide +kernel
      path := by decide +kernel
      last := fun _ hg => nomatch hg
      succeeds := by
        unfold FailsForGood
        decide +kernel }
  have hkept : NoChangeLost (changedEnv 7) feedConfig resynced := by
    rw [resynced]
    exact (h [(feedEnv, feedConfig), (changedEnv 7, feedConfig)] freshEngine rfl rfl).2.1
  obtain ⟨content, log, -, -, hcontent, hfile⟩ := hkept _ _ _ _ _ hpast
  have hold : ((final (deltaSync (changedEnv 7) feedConfig) resynced).tree.file? ["a.txt".toList]).map (·.bytes) =
      some [1] := by decide +kernel
  cases hcontent
  rw [hold] at hfile
  cases hfile

/-- A change of second 12 replaces it. -/
theorem change_past_the_write_arrives :
    AlongDeltas NoChangeLost [(feedEnv, feedConfig), (changedEnv 12, feedConfig)] freshEngine ∧
      ((final (deltaSync (changedEnv 12) feedConfig) resynced).tree.file? ["a.txt".toList]).map (·.bytes) =
        some [2] := by
  refine ⟨deltas_lose_no_change _ freshEngine ⟨?_, ?_, trivial⟩, by decide +kernel⟩
  · intro cursor before f later p hpast
    cases hpast.held
  · intro cursor before f later p hpast
    obtain ⟨newCursor, hpage⟩ := hpast.page
    have hchanges : before ++ f :: later = [changedFile 12] := (Prod.mk.inj (Except.ok.inj hpage)).1.symm
    obtain ⟨rfl, hlater⟩ : before = [] ∧ f :: later = [changedFile 12] := by
      cases before with
      | nil => exact ⟨rfl, hchanges⟩
      | cons g before => simp at hchanges
    obtain ⟨rfl, rfl⟩ := List.cons.inj hlater
    have hp : (["a.txt".toList] : List Text) = p := Except.ok.inj hpast.path
    have hcursor : some "1".toList = some cursor := by
      rw [← hpast.held]
      decide +kernel
    subst hp
    cases hcursor
    unfold Overridable
    decide +kernel

end DeltaSafety
