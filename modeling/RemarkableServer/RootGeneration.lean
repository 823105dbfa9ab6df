import RemarkableServer.Lib.Transition
import RemarkableServer.Store

/-!
# The generation of the root

The root lives in the database and in the mirror `root.json`, which is written
after the database committed and adopted at the next start if it is ahead. Reads,
commits and clears of any number of callers run in the steps in which they take
effect, and the process may crash between any two of them.
-/
namespace RootGeneration

open RustText Store Transition

/-- What is left of an operation in progress. A commit writes the mirror under the database lock
and caches its root after it; a clear resets the cached root and then removes the mirror. -/
inductive Call where
  | mirror (root : SyncRoot)
  | cache (root : SyncRoot)
  | uncache
  | unmirror
  deriving DecidableEq, Repr

/-- The store, the operations in progress and two records of the past: every root that was read,
and the root that the database committed last. -/
structure Sys where
  store : State
  calls : List Call
  served : List SyncRoot
  last : Text × Nat

inductive Action where
  | getRoot
  | getRootFailed
  | setRootIf (hash : Text) (expected : Option Nat)
  | clear
  | next (call : Call) (ok : Bool)
  | crash

/-- The database lock is held by a commit until its mirror is written. -/
def Sys.locked (s : Sys) : Bool := s.calls.any fun c => match c with
  | .mirror _ => true
  | _ => false

/-- A process on a directory left behind by another. -/
def start (s : State) : Option Sys :=
  match s.reopen with
  | .ok store => some ⟨store, [], [], (store.root.hash, store.root.generation)⟩
  | .error _ => none

/-- The next step of an operation; `ok` tells whether a file operation succeeds. -/
def advance (s : State) (ok : Bool) : Call → State × Option Call
  | .mirror root => (if ok then s.writeMirror root else s, some (.cache root))
  | .cache root => ({ s with cachedRoot := root }, none)
  | .uncache => ({ s with cachedRoot := .empty }, some .unmirror)
  | .unmirror => (if ok then s.removeMirror else s, none)

def step (s : Sys) : Action → Option Sys
  | .getRoot =>
    if s.locked then none
    else some { s with
      calls := .cache s.store.root.toSyncRoot :: s.calls
      served := s.store.root.toSyncRoot :: s.served }
  | .getRootFailed => some { s with served := s.store.cachedRoot :: s.served }
  | .setRootIf hash expected =>
    if s.locked then none
    else match s.store.commitRoot hash expected with
    | .error _ => some s
    | .ok (store, root) =>
      some { s with store := store, calls := .mirror root :: s.calls, last := (root.hash, root.generation) }
  | .clear =>
    if s.locked then none
    else some { s with store := s.store.clearFiles.clearTables, calls := .uncache :: s.calls, last := ([], 0) }
  | .next call ok =>
    if call ∈ s.calls then
      let (store, rest) := advance s.store ok call
      some { s with store := store, calls := rest.toList ++ s.calls.erase call }
    else none
  | .crash =>
    match s.store.reopen with
    | .ok store => some { s with store := store, calls := [] }
    | .error _ => none

/-- A clear resets the generation, so it is harmless only while nothing was ever committed. -/
def good (s : Sys) : Action → Bool
  | .clear => s.store.root.hash = [] && s.store.root.generation = 0
  | _ => true

/-- A root that the row may have held: an older one, or the current one. -/
def Known (s : State) (root : SyncRoot) : Prop :=
  root.generation ≤ s.root.generation ∧ (root.generation = s.root.generation → root.hash = s.root.hash)

/-- The root an operation in progress is going to write somewhere. -/
def Call.carries : Call → Option SyncRoot
  | .mirror root | .cache root => some root
  | .uncache => some .empty
  | .unmirror => none

structure Inv (s : Sys) : Prop where
  served : ∀ root ∈ s.served, Known s.store root
  calls : ∀ c ∈ s.calls, ∀ root, c.carries = some root → Known s.store root
  cached : Known s.store s.store.cachedRoot
  mirror : ∀ m, s.store.mirror = some m → m.generation ≤ s.store.root.generation ∧
    (m.generation = s.store.root.generation → m.hash = s.store.root.hash ∨ m.hash = [])
  last : s.last = (s.store.root.hash, s.store.root.generation)

theorem known_self (s : State) : Known s s.root.toSyncRoot := ⟨Nat.le_refl _, fun _ => rfl⟩

/-- Where the mirror is not ahead and does not disagree, opening keeps the row. -/
theorem reopen_of_mirror {s : State}
    (h : ∀ m, s.mirror = some m → m.generation ≤ s.root.generation ∧
      (m.generation = s.root.generation → m.hash = s.root.hash ∨ m.hash = [])) :
    ∃ s', s.reopen = .ok s' ∧ s'.root = s.root ∧ s'.cachedRoot = s.root.toSyncRoot ∧ s'.mirror = s.mirror := by
  have hadopt : State.adoptNewerRootJson s.mirror s.root = .ok s.root := by
    unfold State.adoptNewerRootJson
    cases hm : s.mirror with
    | none => rfl
    | some m =>
      obtain ⟨hle, heq⟩ := h m hm
      dsimp only
      rw [if_neg (Nat.not_lt.mpr hle), if_neg]
      rintro ⟨hg, hne, hemp⟩
      rcases heq hg with he | he
      · exact hne he
      · simp [he] at hemp
  refine ⟨({ s with cachedRoot := s.root.toSyncRoot }).reconcileBlobs, ?_, rfl, rfl, rfl⟩
  unfold State.reopen State.loadOrImportRoot
  rw [Option.getD_some, hadopt]
  rfl

theorem adopt_eq_ok {json : Option SyncRoot} {row row' : RootRow}
    (h : State.adoptNewerRootJson json row = .ok row') : ∀ m, json = some m → m.generation ≤ row'.generation ∧
      (m.generation = row'.generation → m.hash = row'.hash ∨ m.hash = []) := by
  rintro m rfl
  unfold State.adoptNewerRootJson at h
  dsimp only at h
  split_ifs at h with hahead hdis
  · cases h
    exact ⟨Nat.le_refl _, fun _ => .inl rfl⟩
  · cases h
    refine ⟨Nat.not_lt.mp hahead, fun hg => ?_⟩
    by_cases hh : m.hash = row.hash
    · exact .inl hh
    · by_cases he : m.hash = []
      · exact .inr he
      · exact absurd ⟨hg, hh, by simpa using he⟩ hdis

theorem inv_start {s₀ : State} {s : Sys} (h : start s₀ = some s) : Inv s := by
  unfold start at h
  split at h
  next store hopen =>
    cases h
    obtain ⟨row, hrow, rfl⟩ := map_eq_ok.mp hopen
    exact ⟨fun _ hr => (nomatch hr), fun _ hc => (nomatch hc), known_self _, adopt_eq_ok hrow, rfl⟩
  next => cases h

theorem known_congr {s s' : State} (h : s'.root.toSyncRoot = s.root.toSyncRoot) {root : SyncRoot} (hk : Known s root) : Known s' root := by
  rw [Known, h]
  exact hk

/-- A commit makes every root known before it an older one. -/
theorem known_of_commit {s s' : State} (h : s'.root.generation = s.root.generation + 1) {root : SyncRoot}
    (hk : Known s root) : Known s' root := by
  have hle := hk.1
  exact ⟨by omega, fun he => absurd he (by omega)⟩

/-- A step that keeps the root and only adds known roots keeps the invariant. -/
theorem inv_of_root_eq {s s' : Sys} (h : Inv s) (hroot : s'.store.root.toSyncRoot = s.store.root.toSyncRoot)
    (hlast : s'.last = s.last)
    (hserved : ∀ root ∈ s'.served, Known s.store root)
    (hcalls : ∀ c ∈ s'.calls, ∀ root, c.carries = some root → Known s.store root)
    (hcached : Known s.store s'.store.cachedRoot)
    (hmirror : ∀ m, s'.store.mirror = some m → s.store.mirror = some m ∨ Known s.store m) : Inv s' := by
  refine ⟨fun root hr => known_congr hroot (hserved root hr),
    fun c hc root hr => known_congr hroot (hcalls c hc root hr), known_congr hroot hcached, fun m hm => ?_,
    by rw [hlast, h.last, hroot]⟩
  rw [hroot]
  rcases hmirror m hm with hm | hk
  · exact h.mirror m hm
  · exact ⟨hk.1, fun he => .inl (hk.2 he)⟩

theorem inv_next {s : Sys} {c : Call} {ok : Bool} (h : Inv s) (hc : c ∈ s.calls) :
    Inv { s with
      store := (advance s.store ok c).1
      calls := (advance s.store ok c).2.toList ++ s.calls.erase c } := by
  have rest : ∀ {new : List Call}, (∀ d ∈ new, ∀ root, d.carries = some root → Known s.store root) →
      ∀ d ∈ new ++ s.calls.erase c, ∀ root, d.carries = some root → Known s.store root := by
    intro new hnew d hd
    rcases List.mem_append.mp hd with hd | hd
    · exact hnew d hd
    · exact h.calls d (List.mem_of_mem_erase hd)
  have none : ∀ d ∈ ([] : List Call), ∀ root, d.carries = some root → Known s.store root := fun d hd => nomatch hd
  cases c with
  | mirror root =>
    have hk := h.calls _ hc root rfl
    have hnew : ∀ d ∈ [Call.cache root], ∀ r, d.carries = some r → Known s.store r := by
      intro d hd r hr
      rw [List.mem_singleton.mp hd] at hr
      cases hr
      exact hk
    cases ok with
    | false => exact inv_of_root_eq h rfl rfl h.served (rest hnew) h.cached fun m hm => .inl hm
    | true =>
      have hw : (s.store.writeMirror root).root = s.store.root ∧
          Known s.store (s.store.writeMirror root).cachedRoot ∧
          ∀ m, (s.store.writeMirror root).mirror = some m → s.store.mirror = some m ∨ Known s.store m := by
        unfold State.writeMirror
        split
        · exact ⟨rfl, h.cached, fun m hm => .inl hm⟩
        · exact ⟨rfl, h.cached, fun m hm => .inr (by cases hm; exact hk)⟩
      exact inv_of_root_eq h (by rw [← hw.1]; rfl) rfl h.served (rest hnew) hw.2.1 hw.2.2
  | cache root =>
    exact inv_of_root_eq h rfl rfl h.served (rest none) (h.calls _ hc root rfl) fun m hm => .inl hm
  | uncache =>
    refine inv_of_root_eq h rfl rfl h.served (rest ?_) (h.calls _ hc .empty rfl) fun m hm => .inl hm
    intro d hd r hr
    rw [List.mem_singleton.mp hd] at hr
    cases hr
  | unmirror =>
    cases ok with
    | false => exact inv_of_root_eq h rfl rfl h.served (rest none) h.cached fun m hm => .inl hm
    | true => exact inv_of_root_eq h rfl rfl h.served (rest none) h.cached fun m hm => nomatch hm

theorem commitRoot_eq_ok {s s' : State} {hash : Text} {expected : Option Nat} {root : SyncRoot}
    (h : s.commitRoot hash expected = .ok (s', root)) :
    (∀ g, expected = some g → g = s.root.generation) ∧ root.generation = s.root.generation + 1 ∧
      s' = { s with root := ⟨root, s.root.hash⟩ } := by
  unfold State.commitRoot at h
  split_ifs at h with he
  cases h
  refine ⟨?_, rfl, rfl⟩
  rintro g rfl
  simpa using he

theorem inv_step (s : Sys) (a : Action) (s' : Sys) (h : Inv s) (hgood : good s a = true)
    (hstep : step s a = some s') : Inv s' := by
  cases a with
  | getRoot =>
    simp only [step] at hstep
    split_ifs at hstep
    cases hstep
    refine inv_of_root_eq h rfl rfl ?_ ?_ h.cached fun m hm => .inl hm
    · intro root hr
      rcases List.mem_cons.mp hr with rfl | hr
      · exact known_self _
      · exact h.served root hr
    · intro c hc root hr
      rcases List.mem_cons.mp hc with rfl | hc
      · cases hr
        exact known_self _
      · exact h.calls c hc root hr
  | getRootFailed =>
    cases hstep
    refine inv_of_root_eq h rfl rfl ?_ h.calls h.cached fun m hm => .inl hm
    intro root hr
    rcases List.mem_cons.mp hr with rfl | hr
    · exact h.cached
    · exact h.served root hr
  | setRootIf hash expected =>
    simp only [step] at hstep
    split_ifs at hstep
    split at hstep
    · cases hstep
      exact h
    next store root hcommit =>
      obtain ⟨-, hgen, rfl⟩ := commitRoot_eq_ok hcommit
      cases hstep
      refine ⟨fun r hr => known_of_commit hgen (h.served r hr), ?_, known_of_commit hgen h.cached, ?_, rfl⟩
      · intro c hc r hr
        rcases List.mem_cons.mp hc with rfl | hc
        · cases hr
          exact known_self _
        · exact known_of_commit hgen (h.calls c hc r hr)
      · intro m hm
        have hle := (h.mirror m hm).1
        refine ⟨?_, fun he => absurd he ?_⟩
        · change m.generation ≤ root.generation
          omega
        · change m.generation ≠ root.generation
          omega
  | clear =>
    simp only [step] at hstep
    split_ifs at hstep
    cases hstep
    rw [good, Bool.and_eq_true, decide_eq_true_iff, decide_eq_true_iff] at hgood
    obtain ⟨hhash, hgen⟩ := hgood
    have hroot : (⟨[], 0, s.store.root.schemaVersion⟩ : SyncRoot) = s.store.root.toSyncRoot := by
      rw [← hhash, ← hgen]
    refine inv_of_root_eq h hroot (by rw [h.last, hhash, hgen]) h.served ?_ h.cached fun m hm => .inl hm
    intro c hc root hr
    rcases List.mem_cons.mp hc with rfl | hc
    · cases hr
      exact ⟨Nat.zero_le _, fun _ => hhash.symm⟩
    · exact h.calls c hc root hr
  | next c ok =>
    simp only [step] at hstep
    split_ifs at hstep with hc
    cases hstep
    exact inv_next h hc
  | crash =>
    simp only [step] at hstep
    obtain ⟨store, hopen, hroot, hcached, hmirror⟩ := reopen_of_mirror h.mirror
    rw [hopen] at hstep
    cases hstep
    refine inv_of_root_eq h (by rw [hroot]) rfl h.served (fun c hc => nomatch hc) ?_ fun m hm => .inl (hmirror ▸ hm)
    rw [hcached]
    exact known_self _

/-- Along every run whose clears find nothing committed: whoever read a root at a generation replaces
that very root if a conditional commit at this generation succeeds, and a crash at any point is
followed by a start that serves the root the database committed last. -/
theorem generation_identifies_root (s₀ : State) (s₁ s : Sys) (as : List Action) (hstart : start s₀ = some s₁)
    (hgood : AllGood step (fun s a => good s a = true) s₁ as) (hrun : run step s₁ as = some s) :
    (∀ root ∈ s.served, ∀ hash store new, s.store.commitRoot hash (some root.generation) = .ok (store, new) →
      s.store.root.hash = root.hash) ∧
    ∃ s', step s .crash = some s' ∧ (s'.store.root.hash, s'.store.root.generation) = s.last ∧
      s'.store.cachedRoot = s'.store.root.toSyncRoot := by
  have h := invariant_of_allGood inv_step (inv_start hstart) hgood hrun
  refine ⟨fun root hr hash store new hcommit => ?_, ?_⟩
  · obtain ⟨hgen, -⟩ := commitRoot_eq_ok hcommit
    exact ((h.served root hr).2 (hgen _ rfl)).symm
  · obtain ⟨store, hopen, hroot, hcached, -⟩ := reopen_of_mirror h.mirror
    refine ⟨{ s with store := store, calls := [] }, ?_, ?_, ?_⟩
    · simp only [step, hopen]
    · rw [h.last, ← hroot]
    · rw [← hroot] at hcached
      exact hcached

/-! ## Concrete runs -/

/-- The state after a run on a new directory. -/
def fromNew (as : List Action) : Option Sys := (start (.new ∅ none [])).bind fun s => run step s as

theorem fromNew_eq_some {as : List Action} {s : Sys} (h : fromNew as = some s) :
    ∃ s₁, start (.new ∅ none []) = some s₁ ∧ run step s₁ as = some s :=
  Option.bind_eq_some_iff.mp h

/-- Commit a root, write its mirror and cache it. -/
def commit (hash : Text) (generation : Nat) : List Action :=
  [.setRootIf hash none, .next (.mirror ⟨hash, generation, 3⟩) true, .next (.cache ⟨hash, generation, 3⟩) true]

theorem read_root_is_replaced : ∃ s, fromNew (commit ['a'] 1 ++ [.getRoot]) = some s ∧
    ⟨['a'], 1, 3⟩ ∈ s.served ∧ (s.store.commitRoot ['b'] (some 1)).isOk = true ∧ s.store.root.hash = ['a'] := by
  obtain ⟨s, hs⟩ := Option.isSome_iff_exists.mp
    (show (fromNew (commit ['a'] 1 ++ [.getRoot])).isSome = true by decide +kernel)
  have hfacts : ((fromNew (commit ['a'] 1 ++ [.getRoot])).map fun s =>
      (decide (⟨['a'], 1, 3⟩ ∈ s.served), (s.store.commitRoot ['b'] (some 1)).isOk)) = some (true, true) := by
    decide +kernel
  rw [hs] at hfacts
  obtain ⟨hserved, hok⟩ := Prod.mk.inj (Option.some.inj hfacts)
  obtain ⟨s₁, hstart, hrun⟩ := fromNew_eq_some hs
  have hgood : AllGood step (fun s a => good s a = true) s₁ (commit ['a'] 1 ++ [.getRoot]) := by
    have : ∀ s ∈ start (.new ∅ none []), AllGood step (fun s a => good s a = true) s (commit ['a'] 1 ++ [.getRoot]) := by
      decide +kernel
    exact this s₁ hstart
  obtain ⟨hread, -⟩ := generation_identifies_root (.new ∅ none []) s₁ s (commit ['a'] 1 ++ [.getRoot]) hstart hgood hrun
  refine ⟨s, hs, of_decide_eq_true hserved, hok, ?_⟩
  cases hc : s.store.commitRoot ['b'] (some 1) with
  | error e => rw [hc] at hok; cases hok
  | ok r => exact hread _ (of_decide_eq_true hserved) ['b'] r.1 r.2 hc

/-- Read a root, clear, commit another one: both have generation 1. -/
def clearedBetween : List Action :=
  commit ['a'] 1 ++ [.getRoot, .clear, .next .uncache true, .next .unmirror true] ++ commit ['b'] 1

/-- Crash after the database forgot the root and before its mirror is removed. -/
def crashedClear : List Action := commit ['a'] 1 ++ [.clear, .crash]

/-- A clear lets two roots have one generation, and a crash inside it brings the old root back. -/
theorem clear_reuses_generation :
    (∃ s root store new, fromNew clearedBetween = some s ∧ root ∈ s.served ∧
      s.store.commitRoot ['c'] (some root.generation) = .ok (store, new) ∧ s.store.root.hash ≠ root.hash) ∧
    ∃ s, fromNew crashedClear = some s ∧ (s.store.root.hash, s.store.root.generation) ≠ s.last := by
  refine ⟨?_, ?_⟩
  · obtain ⟨s, hs⟩ := Option.isSome_iff_exists.mp
      (show (fromNew clearedBetween).isSome = true by decide +kernel)
    have hfacts : ((fromNew clearedBetween).map fun s =>
        (decide (⟨['a'], 1, 3⟩ ∈ s.served), (s.store.commitRoot ['c'] (some 1)).isOk, s.store.root.hash)) =
          some (true, true, ['b']) := by
      decide +kernel
    rw [hs] at hfacts
    obtain ⟨hserved, hfacts⟩ := Prod.mk.inj (Option.some.inj hfacts)
    obtain ⟨hok, hhash⟩ := Prod.mk.inj hfacts
    cases hc : s.store.commitRoot ['c'] (some 1) with
    | error e => rw [hc] at hok; cases hok
    | ok r => exact ⟨s, ⟨['a'], 1, 3⟩, r.1, r.2, hs, of_decide_eq_true hserved, hc, by rw [hhash]; decide⟩
  · obtain ⟨s, hs⟩ := Option.isSome_iff_exists.mp
      (show (fromNew crashedClear).isSome = true by decide +kernel)
    have hfacts : ((fromNew crashedClear).map fun s =>
        decide ((s.store.root.hash, s.store.root.generation) ≠ s.last)) = some true := by
      decide +kernel
    rw [hs] at hfacts
    exact ⟨s, hs, of_decide_eq_true (Option.some.inj hfacts)⟩

end RootGeneration
