import RemarkableServer.SyncPaths

/-!
# A sync on a disk that never fails

What a sync does to a tree it has not changed yet is known step by step: what a
read returns, which directories are found, whether the overwrite guard lets a
file go, and that a download comes to its write.
-/
namespace CloudSync

open RustText Integrations CloudPaths Effect FileTree

variable {env : Env} {cfg : SyncConfig} {v : View} {t : LocalTree} {g : OverwriteGuard} {p : List Text} {α : Type}

/-- The tree is as it was found, and the guard is set. -/
structure Intact (t : LocalTree) (g : OverwriteGuard) (w : Engine) : Prop where
  tree : w.tree = t
  overwriteGuard : w.overwriteGuard = some g

/-- The computation leaves the tree as it was and returns the value. -/
def Finds (t : LocalTree) (g : OverwriteGuard) (x : Sync α) (a : α) : Prop :=
  Triple (Intact t g) x (fun b w => Intact t g w ∧ b = a) fun _ => False

theorem Finds.pure (a : α) : Finds t g (Pure.pure a) a := fun _ h => ⟨h, rfl⟩

theorem Finds.modify {f : Engine → Engine} (h : ∀ w, (f w).tree = w.tree ∧ (f w).overwriteGuard = w.overwriteGuard) :
    Finds t g (modify f) ⟨⟩ :=
  fun w hw => ⟨⟨(h w).1.trans hw.tree, (h w).2.trans hw.overwriteGuard⟩, rfl⟩

theorem Finds.attempt {x : Sync α} {a : α} (h : Finds t g x a) : Finds t g (CloudSync.attempt x) (.ok a) := by
  refine (triple_attempt h).mono (fun _ h => h) (fun r w hr => ?_) fun _ h => h
  cases r with
  | ok b => exact ⟨hr.1, congrArg Except.ok hr.2⟩
  | error e => exact hr.elim

theorem Finds.writing {path : Text} {x : Sync α} {a : α} (h : Finds t g x a) :
    Finds t g (CloudSync.writing path x) a := triple_writing h

/-- What is found is what the rest goes on with. -/
theorem Finds.bind {β : Type} {x : Sync α} {a : α} {f : α → Sync β} {Q : β → Engine → Prop} {E : Engine → Prop}
    (hx : Finds t g x a) (hf : Triple (Intact t g) (f a) Q E) : Triple (Intact t g) (x >>= f) Q E := by
  refine Triple.bind (hx.mono (fun _ h => h) (fun _ _ h => h) fun _ => False.elim) fun b => ?_
  refine Triple.assume fun hb => ?_
  rw [hb]
  exact hf

theorem Intact.get {β : Type} {f : Engine → Sync β} {Q : β → Engine → Prop} {E : Engine → Prop}
    (h : ∀ w, Intact t g w → Triple (Intact t g) (f w) Q E) : Triple (Intact t g) (get >>= f) Q E :=
  fun w hw => h w hw w hw

/-! ## Planning -/

theorem finds_remember (path : Text) (e : ManifestEntry) : Finds t g (remember path e) ⟨⟩ :=
  Finds.modify fun _ => ⟨rfl, rfl⟩

theorem finds_settle_none {path : Text} {entry : ManifestEntry} {d : Decision} (hd : ∀ s, d ≠ .step s) :
    Finds t g (settle v path entry d) none := by
  have hkeep : ∀ q e, Finds t g (remember q e >>= fun _ => pure none) (none : Option Planned) :=
    fun q e => Finds.bind (finds_remember q e) (Finds.pure none)
  cases d with
  | step s => exact absurd rfl (hd s)
  | drop => exact Finds.pure none
  | keep => exact hkeep _ _
  | store e => exact hkeep _ _
  | deletedHere e => exact Finds.bind (Finds.modify fun _ => ⟨rfl, rfl⟩) (hkeep _ _)
  | leaveInPlace => exact Finds.bind (Finds.modify fun _ => ⟨rfl, rfl⟩) (hkeep _ _)

/-- A path with no file on either side gets no step. -/
theorem finds_planPath_none {path : Text} (hvisible : cfg.visible path ≠ none) (hfile : v.files.lookup path = none)
    (hcloud : v.cloud.lookup path = none) : Finds t g (planPath env cfg v path) none := by
  have hlisted : v.listed path = none := by
    rw [View.listed, hcloud]
    rfl
  have htracked : ∃ b, Finds t g (isTracked cfg v path) b := by
    unfold isTracked
    split
    · exact ⟨false, Finds.pure false⟩
    · obtain ⟨b, hb⟩ := Option.ne_none_iff_exists'.mp hvisible
      rw [hb]
      exact ⟨b, Finds.pure b⟩
  have hknown : ∀ entry, Finds t g (planKnown env cfg v path entry) none := by
    intro entry
    have hchanged : ∃ lc, Finds t g (localChanged env none entry.localId) lc := by
      cases entry.localId with
      | none => exact ⟨false, Finds.pure false⟩
      | some l => exact ⟨true, Finds.pure true⟩
    obtain ⟨lc, hlc⟩ := hchanged
    have hplan : planKnown env cfg v path entry = localChanged env none entry.localId >>= fun lc =>
        settle v path entry (knownStep cfg v.listedNothing v.localOnly entry lc (remoteChanged none entry.remote)
          none none) := by
      rw [planKnown, hfile, hcloud]
      rfl
    rw [hplan]
    refine Finds.bind hlc (finds_settle_none fun st hst => ?_)
    unfold knownStep at hst
    grind
  have hunknown : ∀ b entry, Finds t g (planUnknown cfg v path b entry) none := by
    intro b entry
    unfold planUnknown
    rw [hfile, hcloud]
    cases entry with
    | none => exact Finds.pure none
    | some entry => exact Finds.bind (finds_remember _ _) (Finds.pure none)
  obtain ⟨b, hb⟩ := htracked
  refine Finds.bind hb ?_
  split
  · exact hknown _
  · exact hunknown _ _

/-- Where only one path has a file, its step is the plan. -/
theorem finds_planPaths_one {P : Text} {pl : Planned} (hmem : P ∈ v.paths)
    (hother : ∀ q, q ≠ P → Finds t g (planPath env cfg v q) none)
    (hown : Finds t g (planPath env cfg v P) (some pl)) : Finds t g (planPaths env cfg v v.paths) [pl] := by
  have hquiet : ∀ q, q ≠ P → Triple (Intact t g) (planPath env cfg v q)
      (fun o w => Intact t g w ∧ ∀ p ∈ o, (fun _ => true) p = false) fun _ => False := by
    intro q hq
    refine (hother q hq).mono (fun _ h => h) (fun o w h => ⟨h.1, ?_⟩) fun _ h => h
    rw [h.2]
    exact fun _ hp => nomatch hp
  have hall : Triple (Intact t g) (planPaths env cfg v v.paths)
      (fun plan w => ∃ r, (Intact t g w ∧ r = some pl) ∧ plan.filter (fun _ => true) = r.toList) fun _ => False := by
    refine triple_planPaths_at hmem v.nodup_paths (fun q _ hq => hquiet q hq) (fun r q _ hq => ?_) ?_
    · refine Triple.assume fun hr => ?_
      exact (hquiet q hq).mono (fun _ h => h) (fun o w h => ⟨⟨h.1, hr⟩, h.2⟩) fun _ h => h
    · exact hown.mono (fun _ h => h) (fun o w h => ⟨h, fun _ _ => rfl⟩) fun _ h => h
  refine hall.mono (fun _ h => h) ?_ fun _ h => h
  rintro plan w ⟨r, ⟨hw, rfl⟩, hplan⟩
  rw [List.filter_true] at hplan
  exact ⟨hw, hplan⟩

section
variable (hio : ∀ log op, env.ioError log op = none)

include hio

theorem finds_disk {op : DiskOp} {act : LocalTree → Except IoKind (α × LocalTree)} {a : α} (ha : act t = .ok (a, t)) :
    Finds t g (disk env op act) a := by
  intro w hw
  unfold disk
  rw [hio, hw.tree, ha]
  exact ⟨⟨rfl, hw.overwriteGuard⟩, rfl⟩

theorem finds_readFile {f : DiskFile} (hf : t.file? p = some f) : Finds t g (readFile env p) f.bytes := by
  refine finds_disk hio ?_
  rw [hf]

theorem finds_stat_dir (hp : t.isDir p = true) : Finds t g (stat env p) true := by
  refine finds_disk hio ?_
  rw [Tree.taken, hp, Bool.or_true, if_pos rfl]

/-- A file that counts as unchanged is found so. -/
theorem finds_matches {f : DiskFile} {l : LocalIdentity} (hf : t.file? p = some f) (hsize : f.bytes.length = l.size)
    (hsame : f.mtimeNs.isSome = true ∧ f.mtimeNs = l.mtimeNs ∨ l.sha256 = some (sha256Hex env f.bytes)) :
    Finds t g ((LocalFile.of p f).matches env l) true := by
  have hlen : ((LocalFile.of p f).size != l.size) = false := by simpa [LocalFile.of] using hsize
  unfold LocalFile.matches
  rw [hlen, if_neg Bool.false_ne_true]
  split
  · exact Finds.pure true
  next htime =>
    rcases hsame with hmtime | hhash
    · refine absurd ?_ htime
      simpa [LocalFile.of] using hmtime
    · rw [hhash]
      refine Finds.bind (finds_readFile hio hf).attempt ?_
      dsimp only
      rw [beq_self_eq_true]
      exact Finds.pure true

/-! ## A download -/

/-- Directories that are there are gone through. -/
theorem finds_createDirsFrom (cur rel : List Text) (hdirs : ∀ q, q <+: rel → q ≠ [] → t.isDir (cur ++ q) = true) :
    Finds t g (createDirsFrom env cur rel) (some (cur ++ rel)) := by
  induction rel generalizing cur with
  | nil =>
    rw [List.append_nil]
    exact Finds.pure _
  | cons c rel ih =>
    have hnext : t.isDir (cur ++ [c]) = true := hdirs [c] ⟨rel, rfl⟩ (List.cons_ne_nil _ _)
    have hrest : Finds t g (createDirsFrom env (cur ++ [c]) rel) (some (cur ++ c :: rel)) := by
      rw [List.append_cons cur c rel]
      refine ih (cur ++ [c]) fun q hq _ => ?_
      rw [List.append_assoc]
      exact hdirs (c :: q) (List.cons_prefix_cons.mpr ⟨rfl, hq⟩) (List.cons_ne_nil _ _)
    have htaken : t.taken (cur ++ [c]) = true := by rw [Tree.taken, hnext, Bool.or_true]
    unfold createDirsFrom
    refine Intact.get fun w hw => ?_
    rw [hw.tree, if_pos htaken]
    refine Finds.bind (finds_stat_dir hio hnext) ?_
    exact hrest

theorem finds_createDirsWithin {rel : List Text} (hdirs : ∀ q, q <+: rel → t.isDir q = true) :
    Finds t g (createDirsWithin env rel) (some rel) :=
  Finds.bind (finds_stat_dir hio rfl) (finds_createDirsFrom hio [] rel fun q hq _ => hdirs q hq)

/-- The overwrite guard lets a file go whose content is known. -/
theorem finds_guardOverwrite {path : Text} {f : DiskFile} (hf : t.file? p = some f)
    (hknown : sha256Hex env f.bytes ∈ g.synced) : Finds t g (guardOverwrite env path p) ⟨⟩ := by
  have hany : (g.synced.any (· == sha256Hex env f.bytes)) = true :=
    List.any_eq_true.mpr ⟨_, hknown, beq_self_eq_true _⟩
  unfold guardOverwrite
  refine Intact.get fun w hw => ?_
  rw [hw.overwriteGuard]
  dsimp only
  rw [hw.tree, hf, Option.isNone_some, if_neg Bool.false_ne_true]
  refine Finds.bind (finds_readFile hio hf).attempt ?_
  dsimp only
  rw [hany]
  exact Finds.pure _

theorem triple_writeReplace_done {dir : List Text} {content : Bytes} (hdir : t.isDir dir = true)
    (hp : t.isDir p = false) :
    Triple (Intact t g) (writeReplace env dir p content) (fun _ w => .disk (.write p) true ∈ w.log) fun _ => False := by
  intro w hw
  unfold writeReplace
  rw [get_bind, disk, hio, hw.tree, hdir, hp]
  exact List.mem_cons_self

/-- A download over a file with known content is written. -/
theorem triple_downloadUnless_done {f : CloudFile} {old : DiskFile} {content : Bytes}
    (hparts : cloudPathComponents f.path = .ok p) (hp : p ≠ [])
    (hfetch : ∀ log, env.provider.downloadFile log f.id = .ok content) (hdirs : ∀ q, q <+: p.dropLast → t.isDir q = true)
    (hdir : t.isDir p = false) (hf : t.file? p = some old) (hknown : sha256Hex env old.bytes ∈ g.synced) :
    Triple (Intact t g) (downloadUnless env f none) (fun _ w => .disk (.write p) true ∈ w.log) fun _ => False := by
  have hcall : Finds t g (call (.downloadFile f.id) (env.provider.downloadFile · f.id)) content := by
    intro w hw
    unfold call
    dsimp only
    rw [hfetch]
    exact ⟨⟨hw.tree, hw.overwriteGuard⟩, rfl⟩
  have htarget : p.dropLast ++ p.getLast?.toList = p := by
    rw [List.getLast?_eq_some_getLast hp]
    exact List.dropLast_append_getLast hp
  unfold downloadUnless
  rw [hparts]
  refine Finds.bind (Finds.pure p) ?_
  refine Intact.get fun w hw => ?_
  rw [hw.tree, hdir, if_neg Bool.false_ne_true]
  refine Finds.bind hcall ?_
  refine Finds.bind (finds_createDirsWithin hio hdirs).writing ?_
  dsimp only
  rw [htarget]
  refine Finds.bind (finds_guardOverwrite hio hf hknown) ?_
  refine Triple.bind (triple_writing (triple_writeReplace_done hio (hdirs _ (List.prefix_refl _)) hdir)) fun _ => ?_
  exact fun _ h => h

end

end CloudSync
