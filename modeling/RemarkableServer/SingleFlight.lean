import Mathlib.Logic.Function.Basic
import RemarkableServer.Lib.Transition

/-!
# One task per key

A caller joins the task that runs for its key, or starts one. The entry of a task
leaves the map after its work is done (or has panicked) and before its result is
there, so tasks of one key follow each other, and nobody is given the result of a
task that was over when they came. What the tasks of a key do to the world is then
done by one of them at a time.
-/
namespace SingleFlight

open Transition

/-- The work: the state a task starts in, what it may do to the world (a task that is over has a value,
or panicked), and what else happens to the world. -/
structure Program (K ω τ V β ε : Type) where
  task : K → τ
  act : ω → K → τ → β → Option (ω × (τ ⊕ Option V))
  outside : ω → ε → Option ω

/-- `ended`: the work is over, and the guard has not dropped yet. -/
inductive Stage (τ V : Type) where
  | running (t : τ)
  | ended (result : Option V)
  | landed (result : Option V) (at_ : Nat)

structure Flight (K τ V : Type) where
  key : K
  started : Nat
  stage : Stage τ V

/-- A request, the task whose result it awaits, and that result once it has it. -/
structure Caller (K V : Type) where
  key : K
  flight : Nat
  called : Nat
  answer : Option (Option V)

/-- The tasks and the callers are listed in the order in which they came. -/
structure Sys (K ω τ V : Type) where
  now : Nat
  world : ω
  running : K → Option Nat
  flights : List (Flight K τ V)
  callers : List (Caller K V)

inductive Action (K β ε : Type) where
  | joinOrStart (key : K)
  | act (n : Nat) (b : β)
  | land (n : Nat)
  | answer (c : Nat)
  | outside (e : ε)

variable {K ω τ V β ε : Type}

def Stage.isLanded : Stage τ V → Bool
  | .landed _ _ => true
  | _ => false

def Stage.task : Stage τ V → Option τ
  | .running t => some t
  | _ => none

def Sys.setStage (s : Sys K ω τ V) (n : Nat) (f : Flight K τ V) (stage : Stage τ V) : Sys K ω τ V :=
  { s with flights := s.flights.set n { f with stage := stage } }

variable (prog : Program K ω τ V β ε)

/-- What an action does, if it can be taken. -/
def effect [DecidableEq K] (s : Sys K ω τ V) : Action K β ε → Option (Sys K ω τ V)
  | .joinOrStart key =>
    match s.running key with
    | some n => some { s with callers := s.callers ++ [⟨key, n, s.now, none⟩] }
    | none =>
      let n := s.flights.length
      some { s with
        flights := s.flights ++ [⟨key, s.now, .running (prog.task key)⟩]
        running := Function.update s.running key (some n)
        callers := s.callers ++ [⟨key, n, s.now, none⟩] }
  | .act n b =>
    s.flights[n]?.bind fun f =>
      match f.stage with
      | .running t =>
        match prog.act s.world f.key t b with
        | some (world, .inl t) => some { s.setStage n f (.running t) with world := world }
        | some (world, .inr result) => some { s.setStage n f (.ended result) with world := world }
        | none => none
      | _ => none
  | .land n =>
    s.flights[n]?.bind fun f =>
      match f.stage with
      | .ended result => some { s.setStage n f (.landed result s.now) with running := Function.update s.running f.key none }
      | _ => none
  | .answer c =>
    s.callers[c]?.bind fun caller =>
      match (s.flights[caller.flight]?).map Flight.stage with
      | some (.landed result _) => some { s with callers := s.callers.set c { caller with answer := some result } }
      | _ => none
  | .outside e => (prog.outside s.world e).map fun world => { s with world := world }

def Sys.tick (s : Sys K ω τ V) : Sys K ω τ V := { s with now := s.now + 1 }

def step [DecidableEq K] (s : Sys K ω τ V) (a : Action K β ε) : Option (Sys K ω τ V) := (effect prog s a).map Sys.tick

def start (world : ω) : Sys K ω τ V := ⟨0, world, fun _ => none, [], []⟩

/-! ## Tasks of one key follow each other -/

structure Inv (s : Sys K ω τ V) : Prop where
  /-- The map has the tasks that have not landed. -/
  running : ∀ (key : K) (n : Nat), s.running key = some n ↔
    ∃ f : Flight K τ V, s.flights[n]? = some f ∧ f.key = key ∧ f.stage.isLanded = false
  times : ∀ (n : Nat) (f : Flight K τ V), s.flights[n]? = some f →
    f.started < s.now ∧ ∀ r t, f.stage = .landed r t → f.started < t ∧ t < s.now
  /-- A task of a key starts after those before it have landed. -/
  order : ∀ (i j : Nat) (f g : Flight K τ V), s.flights[i]? = some f → s.flights[j]? = some g → i < j →
    f.key = g.key → ∃ r t, f.stage = .landed r t ∧ t < g.started
  callers : ∀ c ∈ s.callers, c.called < s.now ∧ ∃ f : Flight K τ V, s.flights[c.flight]? = some f ∧ f.key = c.key ∧
    f.started ≤ c.called ∧ (∀ r t, f.stage = .landed r t → c.called < t) ∧
    ∀ a, c.answer = some a → ∃ t, f.stage = .landed a t

variable {s s' : Sys K ω τ V} {n : Nat} {f : Flight K τ V}

theorem getElem?_setStage (hn : s.flights[n]? = some f) (stage : Stage τ V) (m : Nat) :
    (s.setStage n f stage).flights[m]? = if m = n then some { f with stage := stage } else s.flights[m]? := by
  obtain ⟨hlt, -⟩ := List.getElem?_eq_some_iff.mp hn
  by_cases h : m = n
  · subst h
    simp [Sys.setStage, List.getElem?_set_self hlt]
  · simp [Sys.setStage, h, List.getElem?_set_ne (Ne.symm h)]

/-- A later state of the clock and another world are no matter. -/
theorem Inv.tick (h : Inv s) (world : ω) : Inv { s with world := world, now := s.now + 1 } := by
  refine ⟨h.running, fun m g hg => ?_, h.order, fun c hc => ?_⟩
  · obtain ⟨hstart, hland⟩ := h.times m g hg
    exact ⟨Nat.lt_succ_of_lt hstart, fun r t ht => (hland r t ht).imp_right Nat.lt_succ_of_lt⟩
  · obtain ⟨hcalled, hrest⟩ := h.callers c hc
    exact ⟨Nat.lt_succ_of_lt hcalled, hrest⟩

/-- A task goes on, or its work is over; it has not landed before or after. -/
theorem Inv.advance (h : Inv s) (hn : s.flights[n]? = some f) (hf : f.stage.isLanded = false) {stage : Stage τ V}
    (hstage : stage.isLanded = false) : Inv (s.setStage n f stage) := by
  have hnot : ∀ r t, stage ≠ .landed r t := by
    rintro r t rfl
    cases hstage
  have hnotf : ∀ r t, f.stage ≠ .landed r t := by
    intro r t he
    rw [he] at hf
    cases hf
  refine ⟨fun key m => ?_, fun m g hg => ?_, fun i j g₁ g₂ h₁ h₂ hij hkey => ?_, fun c hc => ?_⟩
  · rw [getElem?_setStage hn]
    change s.running key = some m ↔ _
    rw [h.running]
    by_cases he : m = n
    · subst he
      simp [hn, hf, hstage]
    · simp [he]
  · rw [getElem?_setStage hn] at hg
    split at hg
    · cases hg
      exact ⟨(h.times n f hn).1, fun r t ht => absurd ht (hnot r t)⟩
    · exact h.times m g hg
  · rw [getElem?_setStage hn] at h₁ h₂
    split at h₁
    next hi =>
      cases h₁
      split at h₂
      next hj => omega
      · obtain ⟨r, t, ht, -⟩ := h.order i j f g₂ (hi ▸ hn) h₂ hij hkey
        exact absurd ht (hnotf r t)
    · split at h₂
      next hj =>
        cases h₂
        exact h.order i j g₁ f h₁ (hj ▸ hn) hij hkey
      · exact h.order i j g₁ g₂ h₁ h₂ hij hkey
  · obtain ⟨hcalled, g, hg, hkey, hstarted, hland, hanswer⟩ := h.callers c hc
    refine ⟨hcalled, ?_⟩
    rw [getElem?_setStage hn]
    by_cases he : c.flight = n
    · rw [he, hn] at hg
      cases hg
      refine ⟨_, if_pos he, hkey, hstarted, fun r t ht => absurd ht (hnot r t), fun a ha => ?_⟩
      obtain ⟨t, ht⟩ := hanswer a ha
      exact absurd ht (hnotf a t)
    · exact ⟨g, (if_neg he).trans hg, hkey, hstarted, hland, hanswer⟩

/-- A task lands, and its entry is gone. -/
theorem Inv.land [DecidableEq K] (h : Inv s) (hn : s.flights[n]? = some f) (hf : f.stage.isLanded = false) (r : Option V) :
    Inv { s.setStage n f (.landed r s.now) with running := Function.update s.running f.key none, now := s.now + 1 } := by
  have hrun : s.running f.key = some n := (h.running f.key n).mpr ⟨f, hn, rfl, hf⟩
  have hget := getElem?_setStage hn (.landed r s.now)
  have hnotf : ∀ r t, f.stage ≠ .landed r t := by
    intro r t he
    rw [he] at hf
    cases hf
  refine ⟨fun key m => ?_, fun m g hg => ?_, fun i j g₁ g₂ h₁ h₂ hij hkey => ?_, fun c hc => ?_⟩
  · change Function.update s.running f.key none key = some m ↔ ∃ g, (s.setStage n f (.landed r s.now)).flights[m]? = some g ∧ _
    rw [hget]
    by_cases hk : key = f.key
    · subst hk
      rw [Function.update_self]
      constructor
      · intro he
        cases he
      · rintro ⟨g, hg, hgk, hgl⟩
        split at hg
        · cases hg
          cases hgl
        next hm =>
          have := (h.running f.key m).mpr ⟨g, hg, hgk, hgl⟩
          rw [hrun] at this
          exact absurd (Option.some.inj this).symm hm
    · rw [Function.update_of_ne hk, h.running]
      by_cases hm : m = n
      · subst hm
        simp [hn, Ne.symm hk]
      · simp [hm]
  · change (s.setStage n f (.landed r s.now)).flights[m]? = some g at hg
    rw [hget] at hg
    split at hg
    · cases hg
      have hstart := (h.times n f hn).1
      refine ⟨Nat.lt_succ_of_lt hstart, fun r' t ht => ?_⟩
      cases ht
      exact ⟨hstart, Nat.lt_succ_self _⟩
    · obtain ⟨hstart, hland⟩ := h.times m g hg
      exact ⟨Nat.lt_succ_of_lt hstart, fun r t ht => (hland r t ht).imp_right Nat.lt_succ_of_lt⟩
  · change (s.setStage n f (.landed r s.now)).flights[i]? = some g₁ at h₁
    change (s.setStage n f (.landed r s.now)).flights[j]? = some g₂ at h₂
    rw [hget] at h₁ h₂
    split at h₁
    next hi =>
      cases h₁
      split at h₂
      next hj => omega
      · obtain ⟨r', t, ht, -⟩ := h.order i j f g₂ (hi ▸ hn) h₂ hij hkey
        exact absurd ht (hnotf r' t)
    · split at h₂
      next hj =>
        cases h₂
        exact h.order i j g₁ f h₁ (hj ▸ hn) hij hkey
      · exact h.order i j g₁ g₂ h₁ h₂ hij hkey
  · obtain ⟨hcalled, g, hg, hkey, hstarted, hland, hanswer⟩ := h.callers c hc
    refine ⟨Nat.lt_succ_of_lt hcalled, ?_⟩
    change ∃ g', (s.setStage n f (.landed r s.now)).flights[c.flight]? = some g' ∧ _
    rw [hget]
    by_cases he : c.flight = n
    · rw [he, hn] at hg
      cases hg
      refine ⟨_, if_pos he, hkey, hstarted, fun r' t ht => ?_, fun a ha => ?_⟩
      · cases ht
        exact hcalled
      · obtain ⟨t, ht⟩ := hanswer a ha
        exact absurd ht (hnotf a t)
    · exact ⟨g, (if_neg he).trans hg, hkey, hstarted, hland, hanswer⟩

/-- A caller joins the task that runs for its key. -/
theorem Inv.join (h : Inv s) {key : K} (hrun : s.running key = some n) :
    Inv { s with callers := s.callers ++ [⟨key, n, s.now, none⟩], now := s.now + 1 } := by
  have htick := h.tick s.world
  refine ⟨htick.running, htick.times, htick.order, fun c hc => ?_⟩
  rcases List.mem_append.mp hc with hc | hc
  · exact htick.callers c hc
  · obtain rfl := List.mem_singleton.mp hc
    obtain ⟨f, hn, hkey, hf⟩ := (h.running key n).mp hrun
    refine ⟨Nat.lt_succ_self _, f, hn, hkey, Nat.le_of_lt (h.times n f hn).1, fun r t ht => ?_, fun a ha => by cases ha⟩
    rw [ht] at hf
    cases hf

/-- A caller starts a task where none runs for its key. -/
theorem Inv.begin [DecidableEq K] (h : Inv s) {key : K} (hrun : s.running key = none) (t : τ) :
    Inv { s with
      flights := s.flights ++ [⟨key, s.now, .running t⟩]
      running := Function.update s.running key (some s.flights.length)
      callers := s.callers ++ [⟨key, s.flights.length, s.now, none⟩]
      now := s.now + 1 } := by
  have hget : ∀ (m : Nat) (g : Flight K τ V), (s.flights ++ [⟨key, s.now, .running t⟩])[m]? = some g ↔
      s.flights[m]? = some g ∨ m = s.flights.length ∧ g = ⟨key, s.now, .running t⟩ := by
    intro m g
    rcases Nat.lt_trichotomy m s.flights.length with hm | rfl | hm
    · simp [List.getElem?_append_left hm, Nat.ne_of_lt hm]
    · simp [eq_comm]
    · rw [List.getElem?_append_right (Nat.le_of_lt hm), List.getElem?_eq_none (Nat.le_of_lt hm)]
      have hne : m - s.flights.length ≠ 0 := by omega
      simp [hne, Nat.ne_of_gt hm]
  have hlast : (s.flights ++ [⟨key, s.now, .running t⟩])[s.flights.length]? = some ⟨key, s.now, .running t⟩ :=
    (hget _ _).mpr (.inr ⟨rfl, rfl⟩)
  refine ⟨fun k m => ?_, fun m g hg => ?_, fun i j g₁ g₂ h₁ h₂ hij hkey => ?_, fun c hc => ?_⟩
  · simp only [hget]
    by_cases hk : k = key
    · subst hk
      rw [Function.update_self]
      constructor
      · intro he
        cases he
        exact ⟨_, .inr ⟨rfl, rfl⟩, rfl, rfl⟩
      · rintro ⟨g, hg | ⟨rfl, rfl⟩, hgk, hgl⟩
        · have := (h.running k m).mpr ⟨g, hg, hgk, hgl⟩
          rw [hrun] at this
          cases this
        · rfl
    · rw [Function.update_of_ne hk, h.running]
      constructor
      · rintro ⟨g, hg, hrest⟩
        exact ⟨g, .inl hg, hrest⟩
      · rintro ⟨g, hg | ⟨rfl, rfl⟩, hgk, hgl⟩
        · exact ⟨g, hg, hgk, hgl⟩
        · exact absurd hgk.symm hk
  · rcases (hget m g).mp hg with hg | ⟨rfl, rfl⟩
    · obtain ⟨hstart, hland⟩ := h.times m g hg
      exact ⟨Nat.lt_succ_of_lt hstart, fun r t ht => (hland r t ht).imp_right Nat.lt_succ_of_lt⟩
    · exact ⟨Nat.lt_succ_self _, fun r t ht => by cases ht⟩
  · rcases (hget i g₁).mp h₁ with h₁ | ⟨rfl, rfl⟩
    · rcases (hget j g₂).mp h₂ with h₂ | ⟨rfl, rfl⟩
      · exact h.order i j g₁ g₂ h₁ h₂ hij hkey
      · cases hstage : g₁.stage with
        | landed r t => exact ⟨r, t, rfl, ((h.times i g₁ h₁).2 r t hstage).2⟩
        | running t =>
          have := (h.running key i).mpr ⟨g₁, h₁, hkey, by rw [hstage]; rfl⟩
          rw [hrun] at this
          cases this
        | ended r =>
          have := (h.running key i).mpr ⟨g₁, h₁, hkey, by rw [hstage]; rfl⟩
          rw [hrun] at this
          cases this
    · rcases (hget j g₂).mp h₂ with h₂ | ⟨rfl, rfl⟩
      · have := (List.getElem?_eq_some_iff.mp h₂).1
        omega
      · omega
  · rcases List.mem_append.mp hc with hc | hc
    · obtain ⟨hcalled, g, hg, hrest⟩ := h.callers c hc
      exact ⟨Nat.lt_succ_of_lt hcalled, g, (hget _ _).mpr (.inl hg), hrest⟩
    · obtain rfl := List.mem_singleton.mp hc
      refine ⟨Nat.lt_succ_self _, _, hlast, rfl, Nat.le_refl _, ?_, ?_⟩
      · intro r t ht
        cases ht
      · intro a ha
        cases ha

/-- A caller is given the result of its task. -/
theorem Inv.answer (h : Inv s) {i : Nat} {c : Caller K V} (hc : s.callers[i]? = some c) {r : Option V} {t : Nat}
    (hr : (s.flights[c.flight]?).map Flight.stage = some (.landed r t)) :
    Inv { s with callers := s.callers.set i { c with answer := some r } } := by
  refine ⟨h.running, h.times, h.order, fun d hd => ?_⟩
  rcases List.mem_or_eq_of_mem_set hd with hd | rfl
  · exact h.callers d hd
  · obtain ⟨hcalled, f, hf, hkey, hstarted, hland, -⟩ := h.callers c (List.mem_of_getElem? hc)
    refine ⟨hcalled, f, hf, hkey, hstarted, hland, fun a ha => ?_⟩
    cases ha
    rw [hf, Option.map_some, Option.some_inj] at hr
    exact ⟨t, hr⟩

theorem inv_step [DecidableEq K] (s : Sys K ω τ V) (a : Action K β ε) (s' : Sys K ω τ V) (h : Inv s) (hstep : step prog s a = some s') :
    Inv s' := by
  obtain ⟨s₁, heffect, rfl⟩ := Option.map_eq_some_iff.mp hstep
  cases a with
  | joinOrStart key =>
    simp only [effect] at heffect
    split at heffect
    next n hrun =>
      cases heffect
      exact h.join hrun
    next hrun =>
      cases heffect
      exact h.begin hrun _
  | act n b =>
    obtain ⟨f, hn, heffect⟩ := Option.bind_eq_some_iff.mp heffect
    split at heffect
    next t ht =>
      have hf : f.stage.isLanded = false := by rw [ht]; rfl
      split at heffect
      · cases heffect
        exact (h.advance hn hf rfl).tick _
      · cases heffect
        exact (h.advance hn hf rfl).tick _
      · cases heffect
    · cases heffect
  | land n =>
    obtain ⟨f, hn, heffect⟩ := Option.bind_eq_some_iff.mp heffect
    split at heffect
    next r hr =>
      cases heffect
      exact h.land hn (by rw [hr]; rfl) r
    · cases heffect
  | answer i =>
    obtain ⟨c, hc, heffect⟩ := Option.bind_eq_some_iff.mp heffect
    split at heffect
    next r t hr =>
      cases heffect
      exact (h.answer hc hr).tick _
    · cases heffect
  | outside e =>
    obtain ⟨world, -, rfl⟩ := Option.map_eq_some_iff.mp heffect
    exact h.tick world

theorem inv_start (world : ω) : Inv (start world : Sys K ω τ V) := by
  refine ⟨fun key n => ?_, by simp [start], by simp [start], by simp [start]⟩
  simp [start]

theorem inv_run [DecidableEq K] {world : ω} {as : List (Action K β ε)} (h : run (step prog) (start world) as = some s) : Inv s :=
  invariant_of_step (inv_step prog) (inv_start world) h

/-- Tasks of one key never overlap, the map holds those that have not landed, and who is answered is
answered by a task for their key that had not landed when they came. -/
theorem one_task_per_key [DecidableEq K] {world : ω} {as : List (Action K β ε)}
    (h : run (step prog) (start world) as = some s) :
    (∀ (i j : Nat) (f g : Flight K τ V), s.flights[i]? = some f → s.flights[j]? = some g → i < j → f.key = g.key →
      ∃ r t, f.stage = .landed r t ∧ t < g.started) ∧
    (∀ (key : K) (n : Nat), s.running key = some n ↔
      ∃ f : Flight K τ V, s.flights[n]? = some f ∧ f.key = key ∧ f.stage.isLanded = false) ∧
    ∀ c ∈ s.callers, ∀ a, c.answer = some a → ∃ (f : Flight K τ V) (t : Nat), s.flights[c.flight]? = some f ∧
      f.key = c.key ∧ f.stage = .landed a t ∧ f.started ≤ c.called ∧ c.called < t := by
  have hinv := inv_run prog h
  refine ⟨hinv.order, hinv.running, fun c hc a ha => ?_⟩
  obtain ⟨-, f, hf, hkey, hstarted, hland, hanswer⟩ := hinv.callers c hc
  obtain ⟨t, ht⟩ := hanswer a ha
  exact ⟨f, t, hf, hkey, ht, hstarted, hland a t ht⟩

/-- Tasks that count themselves, one of which panics. -/
def counting : Program Bool Nat Unit Nat Bool Unit :=
  ⟨fun _ => (), fun n _ _ ok => some (n + 1, .inr (if ok then some (n + 1) else none)), fun n _ => some n⟩

def twoTasks : List (Action Bool Bool Unit) :=
  [.joinOrStart true, .joinOrStart true, .act 0 false, .joinOrStart true, .land 0, .answer 1, .joinOrStart true, .act 1 true,
    .land 1, .answer 3, .answer 2]

theorem twoTasks_answers : (run (step counting) (start 0) twoTasks).map (fun s => s.callers.map Caller.answer) =
    some [none, some none, some none, some (some 2)] := by decide

theorem one_task_per_key_twoTasks : ∃ s, run (step counting) (start 0) twoTasks = some s ∧
    (∀ (i j : Nat) (f g : Flight Bool Unit Nat), s.flights[i]? = some f → s.flights[j]? = some g → i < j → f.key = g.key →
      ∃ r t, f.stage = .landed r t ∧ t < g.started) ∧
    (∀ (key : Bool) (n : Nat), s.running key = some n ↔
      ∃ f : Flight Bool Unit Nat, s.flights[n]? = some f ∧ f.key = key ∧ f.stage.isLanded = false) ∧
    ∀ c ∈ s.callers, ∀ a, c.answer = some a → ∃ (f : Flight Bool Unit Nat) (t : Nat), s.flights[c.flight]? = some f ∧
      f.key = c.key ∧ f.stage = .landed a t ∧ f.started ≤ c.called ∧ c.called < t := by
  obtain ⟨s, hs, -⟩ := Option.map_eq_some_iff.mp twoTasks_answers
  exact ⟨s, hs, one_task_per_key counting hs⟩

/-! ## The task of a key and the world -/

/-- What the running task of a key is at. -/
def Sys.task (s : Sys K ω τ V) (key : K) : Option τ :=
  (s.running key).bind fun n => (s.flights[n]?).bind fun f => f.stage.task

theorem task_eq (hn : s.flights[n]? = some f) (hrun : s.running f.key = some n) : s.task f.key = f.stage.task := by
  simp [Sys.task, hrun, hn]

theorem task_setStage [DecidableEq K] (h : Inv s) (hn : s.flights[n]? = some f) (hf : f.stage.isLanded = false) (stage : Stage τ V)
    (key : K) : (s.setStage n f stage).task key = if key = f.key then stage.task else s.task key := by
  have hrun : s.running f.key = some n := (h.running f.key n).mpr ⟨f, hn, rfl, hf⟩
  change ((s.running key).bind fun m => ((s.setStage n f stage).flights[m]?).bind fun g => g.stage.task) = _
  by_cases hk : key = f.key
  · rw [hk, hrun, Option.bind_some, getElem?_setStage hn, if_pos rfl, if_pos rfl]
    rfl
  · rw [if_neg hk, Sys.task]
    cases hm : s.running key with
    | none => rfl
    | some m =>
      have hmn : m ≠ n := by
        rintro rfl
        obtain ⟨g, hg, hgk, -⟩ := (h.running key m).mp hm
        rw [hn] at hg
        cases hg
        exact hk hgk.symm
      rw [Option.bind_some, Option.bind_some, getElem?_setStage hn, if_neg hmn]

theorem task_begin [DecidableEq K] (h : Inv s) {key : K} (hrun : s.running key = none) (t : τ) (k : K) :
    Sys.task { s with
      flights := s.flights ++ [⟨key, s.now, .running t⟩]
      running := Function.update s.running key (some s.flights.length)
      callers := s.callers ++ [⟨key, s.flights.length, s.now, none⟩] } k = if k = key then some t else s.task k := by
  by_cases hk : k = key
  · subst hk
    simp [Sys.task, Stage.task]
  · simp only [Sys.task, Function.update_of_ne hk, if_neg hk]
    cases hm : s.running k with
    | none => rfl
    | some m =>
      obtain ⟨g, hg, -⟩ := (h.running k m).mp hm
      rw [Option.bind_some, Option.bind_some, List.getElem?_append_left (List.getElem?_eq_some_iff.mp hg).1]

/-- The work of a task that lands was over before. -/
theorem task_land [DecidableEq K] (h : Inv s) (hn : s.flights[n]? = some f) {r : Option V} (hr : f.stage = .ended r) (k : K) :
    Sys.task { s.setStage n f (.landed r s.now) with running := Function.update s.running f.key none } k = s.task k := by
  have hf : f.stage.isLanded = false := by rw [hr]; rfl
  have hrun : s.running f.key = some n := (h.running f.key n).mpr ⟨f, hn, rfl, hf⟩
  by_cases hk : k = f.key
  · rw [hk, task_eq hn hrun, hr]
    simp [Sys.task, Stage.task]
  · have hset := task_setStage h hn hf (.landed r s.now) k
    rw [if_neg hk] at hset
    rw [← hset]
    simp only [Sys.task, Function.update_of_ne hk]
    rfl

/-- What a program keeps of the world for each key, given that one task at a time works for it. -/
structure Keeps [DecidableEq K] (J : K → ω → Option τ → Prop) : Prop where
  begin : ∀ k w, J k w none → J k w (some (prog.task k))
  act : ∀ k w t b w' r, J k w (some t) → prog.act w k t b = some (w', r) → J k w' (r.elim some fun _ => none)
  other : ∀ k k' w t b w' r o, k' ≠ k → J k w (some t) → J k' w o → prog.act w k t b = some (w', r) → J k' w' o
  outside : ∀ k w e w' o, J k w o → prog.outside w e = some w' → J k w' o

variable {prog} {J : K → ω → Option τ → Prop}

/-- One step keeps it, for the task of every key. -/
theorem Keeps.step [DecidableEq K] (h : Keeps prog J) (s : Sys K ω τ V) (a : Action K β ε) (s' : Sys K ω τ V)
    (hs : Inv s ∧ ∀ k, J k s.world (s.task k)) (hstep : SingleFlight.step prog s a = some s') :
    Inv s' ∧ ∀ k, J k s'.world (s'.task k) := by
  obtain ⟨hinv, hJ⟩ := hs
  refine ⟨inv_step prog s a s' hinv hstep, ?_⟩
  obtain ⟨s₁, heffect, rfl⟩ := Option.map_eq_some_iff.mp hstep
  change ∀ k, J k s₁.world (s₁.task k)
  cases a with
  | joinOrStart key =>
    simp only [effect] at heffect
    split at heffect
    next n hrun =>
      cases heffect
      exact hJ
    next hrun =>
      cases heffect
      intro k
      rw [task_begin hinv hrun]
      split
      next hk =>
        have hnone : s.task k = none := by simp [hk, Sys.task, hrun]
        have hfree := hJ k
        rw [hnone] at hfree
        exact hk ▸ h.begin k _ hfree
      · exact hJ k
  | act n b =>
    obtain ⟨f, hn, heffect⟩ := Option.bind_eq_some_iff.mp heffect
    split at heffect
    next t ht =>
      have hf : f.stage.isLanded = false := by rw [ht]; rfl
      have hrun : s.running f.key = some n := (hinv.running f.key n).mpr ⟨f, hn, rfl, hf⟩
      have htask : J f.key s.world (some t) := by
        have := hJ f.key
        rwa [task_eq hn hrun, ht] at this
      -- the task of the key goes on or is over, and the others keep what they have
      have hgo : ∀ world' r stage, prog.act s.world f.key t b = some (world', r) →
          stage.task = r.elim some (fun _ => none) → ∀ k, J k world' ((s.setStage n f stage).task k) := by
        intro world' r stage hact' hstage k
        rw [task_setStage hinv hn hf]
        split
        next hk =>
          rw [hk, hstage]
          exact h.act _ _ _ _ _ _ htask hact'
        next hk => exact h.other _ _ _ _ _ _ _ _ hk htask (hJ k) hact'
      split at heffect
      next hact' =>
        cases heffect
        exact hgo _ _ _ hact' rfl
      next hact' =>
        cases heffect
        exact hgo _ _ _ hact' rfl
      · cases heffect
    · cases heffect
  | land n =>
    obtain ⟨f, hn, heffect⟩ := Option.bind_eq_some_iff.mp heffect
    split at heffect
    next r hr =>
      cases heffect
      intro k
      rw [task_land hinv hn hr]
      exact hJ k
    · cases heffect
  | answer i =>
    obtain ⟨c, -, heffect⟩ := Option.bind_eq_some_iff.mp heffect
    split at heffect
    · cases heffect
      exact hJ
    · cases heffect
  | outside e =>
    obtain ⟨world, hworld, rfl⟩ := Option.map_eq_some_iff.mp heffect
    exact fun k => h.outside k _ e _ _ (hJ k) hworld

/-- What the tasks of each key keep of the world, one at a time, holds in every run. -/
theorem Keeps.run [DecidableEq K] (h : Keeps prog J) {world : ω} (hstart : ∀ k, J k world none)
    {as : List (Action K β ε)} (hrun : Transition.run (SingleFlight.step prog) (start world) as = some s) (key : K) :
    J key s.world (s.task key) :=
  (invariant_of_step h.step ⟨inv_start world, fun k => hstart k⟩ hrun).2 key

end SingleFlight
