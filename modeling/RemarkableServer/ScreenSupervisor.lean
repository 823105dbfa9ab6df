import Mathlib.Algebra.Group.Nat.Defs
import RemarkableServer.Lib.RustText
import RemarkableServer.Lib.Transition

/-!
# The supervisor of the screen viewer

`watch` counts its watcher, sets the running flag and, if it was clear, spawns a supervisor: three
steps. A supervisor keeps up sessions with the tablet until nobody watches; its last step clears
the flag, and sets it again for a new supervisor if somebody watches by then.
-/
namespace ScreenSupervisor

open RustText Transition

def maxRetries : Nat := 5
def retryBase : Nat := 1
def retryCap : Nat := 30
def pollNotSharing : Nat := 3

/-- Seconds before a retry. -/
def retryDelay (attempt : Nat) : Nat := min (retryBase * 2 ^ attempt) retryCap

inductive Status where
  | idle
  | connecting
  | notSharing
  | reconnecting (attempt max inSecs : Nat) (message : Text)
  | stopped
  | error (message : Text)
  deriving DecidableEq, Repr

inductive SessionEnd where
  | notSharing
  | noWatchers
  | stopped (roomId : Text)
  | failed (message : Text) (streamed : Bool)
  deriving DecidableEq, Repr

def gaveUp (message : Text) : Text :=
  "gave up after ".toList ++ showU64 maxRetries ++ " attempts: ".toList ++ message

/-- Where the loop of a supervisor is. -/
inductive Phase where
  | looking
  | session
  | sleeping (secs : Nat)
  /-- It gave up, and waits for the watchers to leave. -/
  | leaving
  /-- It left the loop, and its last step is to come. -/
  | ending
  deriving DecidableEq, Repr

structure Supervisor where
  attempt : Nat
  endedRoom : Option Text
  phase : Phase
  deriving DecidableEq, Repr

def Supervisor.new : Supervisor := ⟨0, none, .looking⟩

namespace Supervisor

/-- The top of the loop: wait for another room than the ended one, or begin a session. -/
def look (activeRoom : Option Text) (p : Supervisor) : Supervisor :=
  match p.endedRoom with
  | some room =>
    if activeRoom.any (· != room) then { p with endedRoom := none } else { p with phase := .sleeping pollNotSharing }
  | none => { p with phase := .session }

def lookStatus (p : Supervisor) (status : Status) : Status :=
  if p.endedRoom.isNone && p.attempt == 0 then .connecting else status

/-- What the loop does about the end of a session, and the status it sets. -/
def afterSession (ended : SessionEnd) (p : Supervisor) (status : Status) : Supervisor × Status :=
  match ended with
  | .noWatchers => ({ p with phase := .ending }, status)
  | .notSharing => ({ p with attempt := 0, phase := .sleeping pollNotSharing }, .notSharing)
  | .stopped roomId => (⟨0, some roomId, .sleeping pollNotSharing⟩, .stopped)
  | .failed message streamed =>
    let attempt := if streamed then 1 else p.attempt + 1
    if attempt > maxRetries then ({ p with attempt := attempt, phase := .leaving }, .error (gaveUp message))
    else ({ p with attempt := attempt, phase := .sleeping (retryDelay attempt) },
      .reconnecting attempt maxRetries (retryDelay attempt) message)

end Supervisor

/-- `counted`, `starting` and `returning` are the numbers of `watch` calls that have counted their watcher, that have to
spawn, and that have only to return; `held` are the watchers that were returned and not dropped. -/
structure Viewer where
  watchers : Nat
  running : Bool
  counted : Nat
  starting : Nat
  returning : Nat
  held : Nat
  supervisors : List Supervisor
  status : Status
  deriving DecidableEq, Repr

def Viewer.new : Viewer := ⟨0, false, 0, 0, 0, 0, [], .idle⟩

inductive Action where
  | count
  | swap
  | spawn
  | ret
  | drop
  | look (supervisor : Nat) (activeRoom : Option Text)
  | sessionEnds (supervisor : Nat) (ended : SessionEnd)
  | slept (supervisor : Nat)
  /-- Nobody has watched for a while. -/
  | idle (supervisor : Nat)
  /-- The last step, under the lock of the flag. -/
  | finish (supervisor : Nat)

def Viewer.finish (supervisor : Nat) (v : Viewer) : Viewer :=
  if v.watchers > 0 then
    { v with running := true, supervisors := .new :: v.supervisors.eraseIdx supervisor, status := .idle }
  else { v with running := false, supervisors := v.supervisors.eraseIdx supervisor, status := .idle }

def step (v : Viewer) : Action → Option Viewer
  | .count => some { v with watchers := v.watchers + 1, counted := v.counted + 1 }
  | .swap =>
    if v.counted = 0 then none
    else if v.running then some { v with counted := v.counted - 1, returning := v.returning + 1 }
    else some { v with running := true, counted := v.counted - 1, starting := v.starting + 1 }
  | .spawn =>
    if v.starting = 0 then none
    else some { v with starting := v.starting - 1, returning := v.returning + 1, supervisors := .new :: v.supervisors }
  | .ret => if v.returning = 0 then none else some { v with returning := v.returning - 1, held := v.held + 1 }
  | .drop => if v.held = 0 then none else some { v with held := v.held - 1, watchers := v.watchers - 1 }
  | .look i activeRoom => (v.supervisors[i]?).bind fun p =>
    if p.phase = .looking then
      some { v with supervisors := v.supervisors.set i (p.look activeRoom), status := p.lookStatus v.status }
    else none
  | .sessionEnds i ended => (v.supervisors[i]?).bind fun p =>
    if p.phase = .session then
      some { v with
        supervisors := v.supervisors.set i (p.afterSession ended v.status).1
        status := (p.afterSession ended v.status).2 }
    else none
  | .slept i => (v.supervisors[i]?).bind fun p =>
    match p.phase with
    | .sleeping _ => some { v with supervisors := v.supervisors.set i { p with phase := .looking } }
    | _ => none
  | .idle i => (v.supervisors[i]?).bind fun p =>
    match p.phase with
    | .sleeping _ | .leaving => some { v with supervisors := v.supervisors.set i { p with phase := .ending } }
    | _ => none
  | .finish i => (v.supervisors[i]?).bind fun p => if p.phase = .ending then some (v.finish i) else none

/-! ## One supervisor -/

/-- The flag stands for the one supervisor there is or is to be, and without it nobody has got a watcher. -/
structure Inv (v : Viewer) : Prop where
  watchers : v.watchers = v.counted + v.starting + v.returning + v.held
  set : v.running = true → v.supervisors.length + v.starting = 1
  clear : v.running = false → v.supervisors.length + v.starting + v.returning + v.held = 0

variable {v v' : Viewer} {a : Action}

theorem inv_new : Inv .new := ⟨rfl, by simp [Viewer.new], fun _ => rfl⟩

/-- A step of a supervisor within its loop. -/
theorem Inv.within (h : Inv v) (i : Nat) (p : Supervisor) (status : Status) :
    Inv { v with supervisors := v.supervisors.set i p, status := status } :=
  ⟨h.watchers, by simpa using h.set, by simpa using h.clear⟩

theorem inv_finish (h : Inv v) {i : Nat} (hi : i < v.supervisors.length) : Inv (v.finish i) := by
  have hrunning : v.running = true := by
    by_contra hclear
    have hnone := h.clear (by simpa using hclear)
    omega
  have hone := h.set hrunning
  have hlength := List.length_eraseIdx_of_lt hi
  have hwatchers := h.watchers
  simp only [Viewer.finish]
  split
  · exact ⟨h.watchers, fun _ => by simp only [List.length_cons]; omega, by simp⟩
  · exact ⟨h.watchers, by simp, fun _ => by simp only; omega⟩

theorem inv_step (h : Inv v) (hstep : step v a = some v') : Inv v' := by
  have hwatchers := h.watchers
  cases a with
  | count =>
    cases hstep
    exact ⟨by simp only; omega, h.set, h.clear⟩
  | swap =>
    simp only [step] at hstep
    split at hstep
    · cases hstep
    · split at hstep
      next hrunning =>
        cases hstep
        exact ⟨by simp only; omega, h.set, fun hclear => by simp [hrunning] at hclear⟩
      next hclear =>
        cases hstep
        have hnone := h.clear (by simpa using hclear)
        exact ⟨by simp only; omega, fun _ => by simp only; omega, by simp⟩
  | spawn =>
    simp only [step] at hstep
    split at hstep
    · cases hstep
    · cases hstep
      constructor
      · simp only
        omega
      · intro hrunning
        have hone := h.set hrunning
        simp only [List.length_cons]
        omega
      · intro hclear
        have hnone := h.clear hclear
        omega
  | ret =>
    simp only [step] at hstep
    split at hstep
    · cases hstep
    · cases hstep
      exact ⟨by simp only; omega, h.set, fun hclear => by have := h.clear hclear; omega⟩
  | drop =>
    simp only [step] at hstep
    split at hstep
    · cases hstep
    · cases hstep
      exact ⟨by simp only; omega, h.set, fun hclear => by have := h.clear hclear; omega⟩
  | look i activeRoom =>
    obtain ⟨p, -, hstep⟩ := Option.bind_eq_some_iff.mp hstep
    split at hstep
    · cases hstep
      exact h.within i _ _
    · cases hstep
  | sessionEnds i ended =>
    obtain ⟨p, -, hstep⟩ := Option.bind_eq_some_iff.mp hstep
    split at hstep
    · cases hstep
      exact h.within i _ _
    · cases hstep
  | slept i =>
    obtain ⟨p, -, hstep⟩ := Option.bind_eq_some_iff.mp hstep
    split at hstep
    · cases hstep
      exact h.within i _ _
    · cases hstep
  | idle i =>
    obtain ⟨p, -, hstep⟩ := Option.bind_eq_some_iff.mp hstep
    split at hstep
    · cases hstep
      exact h.within i _ _
    · cases hstep
      exact h.within i _ _
    · cases hstep
  | finish i =>
    obtain ⟨p, hp, hstep⟩ := Option.bind_eq_some_iff.mp hstep
    split at hstep
    · cases hstep
      exact inv_finish h (List.getElem?_eq_some_iff.mp hp).1
    · cases hstep

/-- At any time there is at most one supervisor before its last step; and while there is a watcher there is one, or the one
`watch` call that set the flag is about to spawn it. -/
theorem one_supervisor (as : List Action) (v : Viewer) (hrun : run step .new as = some v) :
    v.supervisors.length ≤ 1 ∧ (0 < v.held → v.supervisors.length + v.starting = 1) := by
  have h : Inv v := invariant_of_step (fun _ _ _ h hstep => inv_step h hstep) inv_new hrun
  cases hrunning : v.running with
  | true =>
    have hone := h.set hrunning
    exact ⟨by omega, fun _ => hone⟩
  | false =>
    have hnone := h.clear hrunning
    exact ⟨by omega, fun hheld => by omega⟩

/-- A watcher comes back as the last one leaves: the supervisor that ends starts the next one. -/
def backInTime : List Action :=
  [.count, .swap, .spawn, .ret, .look 0 none, .sessionEnds 0 .noWatchers, .drop, .count, .finish 0, .swap, .ret]

theorem watcher_back_in_time : ∃ v, run step .new backInTime = some v ∧ 0 < v.held ∧
    v.supervisors.length + v.starting = 1 := by
  obtain ⟨v, hv⟩ := Option.isSome_iff_exists.mp (show (run step .new backInTime).isSome = true by decide)
  have hheld : ((run step .new backInTime).map fun v => v.held) = some 1 := by decide
  rw [hv, Option.map_some, Option.some.injEq] at hheld
  have hheld : 0 < v.held := by omega
  exact ⟨v, hv, hheld, (one_supervisor _ v hv).2 hheld⟩

/-- A second call returns its watcher before the first one has spawned the supervisor. -/
theorem watcher_before_supervisor :
    ∃ v, run step .new [.count, .swap, .count, .swap, .ret] = some v ∧ 0 < v.held ∧ v.supervisors = [] := by
  refine ⟨_, rfl, ?_, rfl⟩
  decide

end ScreenSupervisor
