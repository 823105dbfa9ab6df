import RemarkableServer.Lib.Chrono
import RemarkableServer.Lib.Utf8
import RemarkableServer.SyncLocal

/-!
# Pruning the quarantine

`prune_quarantine` over whatever the quarantine holds: files of any size, directories,
symlinks and the like, under any names. What a walk with a stack counts is compared with
the bytes of the tree, and what is removed with the runs that are too old.
-/
namespace QuarantinePruning

open RustText Integrations CloudPaths CloudSync Chrono

/-- What is at a path. A symlink, a socket and so on are neither file nor directory. -/
inductive Entry where
  | file (len : UInt64)
  | dir (entries : List Entry)
  | other

def Entry.isDir : Entry → Bool
  | .dir _ => true
  | _ => false

mutual

/-- The bytes of the files at or under an entry. -/
def Entry.bytes : Entry → Nat
  | .file len => len.toNat
  | .dir entries => bytesIn entries
  | .other => 0

def bytesIn : List Entry → Nat
  | [] => 0
  | e :: entries => e.bytes + bytesIn entries

end

mutual

/-- The entries at or under an entry. -/
def Entry.count : Entry → Nat
  | .dir entries => countIn entries + 1
  | _ => 1

def countIn : List Entry → Nat
  | [] => 0
  | e :: entries => e.count + countIn entries

end

theorem bytesIn_append (a b : List Entry) : bytesIn (a ++ b) = bytesIn a + bytesIn b := by
  induction a with
  | nil => simp [bytesIn]
  | cons e a ih =>
    simp only [List.cons_append, bytesIn, ih]
    omega

theorem countIn_append (a b : List Entry) : countIn (a ++ b) = countIn a + countIn b := by
  induction a with
  | nil => simp [countIn]
  | cons e a ih =>
    simp only [List.cons_append, countIn, ih]
    omega

@[simp] theorem bytesIn_reverse (entries : List Entry) : bytesIn entries.reverse = bytesIn entries := by
  induction entries with
  | nil => rfl
  | cons e entries ih =>
    simp only [List.reverse_cons, bytesIn_append, bytesIn, ih]
    omega

@[simp] theorem countIn_reverse (entries : List Entry) : countIn entries.reverse = countIn entries := by
  induction entries with
  | nil => rfl
  | cons e entries ih =>
    simp only [List.reverse_cons, countIn_append, countIn, ih]
    omega

/-! ## Counting -/

section

variable (checks : Bool)

/-- A total in a `u64`: with overflow checks it panics when it is too large, without them it wraps. -/
def u64Total (n : Nat) : Option UInt64 := if checks = true ∧ 2 ^ 64 ≤ n then none else some (UInt64.ofNat n)

def u64Add (a b : UInt64) : Option UInt64 := u64Total checks (a.toNat + b.toNat)

/-- The stack has its top first: what a directory holds is pushed in the order it is listed. -/
def diskUsageFrom (total : UInt64) : List Entry → Option UInt64
  | [] => some total
  | .dir entries :: stack => diskUsageFrom total (entries.reverse ++ stack)
  | .file len :: stack =>
    match u64Add checks total len with
    | none => none
    | some total => diskUsageFrom total stack
  | .other :: stack => diskUsageFrom total stack
termination_by stack => countIn stack
decreasing_by
  · simp only [List.unattach_reverse, List.unattach_attach, countIn_append, countIn_reverse, countIn, Entry.count]
    omega
  · simp only [countIn, Entry.count]
    omega
  · simp only [countIn, Entry.count]
    omega

/-- `disk_usage`; `none` if it panics. -/
def diskUsage (e : Entry) : Option UInt64 := diskUsageFrom checks 0 [e]

@[simp] theorem u64Total_toNat (n : UInt64) : u64Total checks n.toNat = some n := by
  have hlt := n.toNat_lt
  rw [u64Total, if_neg (by omega), UInt64.ofNat_toNat]

/-- Sums of sums, whether they panic, wrap or are exact. -/
theorem u64Total_add (n k : Nat) :
    ((u64Total checks n).bind fun total => u64Total checks (total.toNat + k)) = u64Total checks (n + k) := by
  by_cases h : checks = true ∧ 2 ^ 64 ≤ n
  · rw [u64Total, u64Total, if_pos h, if_pos ⟨h.1, by omega⟩]
    rfl
  · have hn : checks = true → (UInt64.ofNat n).toNat = n := by
      intro hchecks
      have hlt : ¬2 ^ 64 ≤ n := fun hle => h ⟨hchecks, hle⟩
      rw [UInt64.toNat_ofNat', Nat.mod_eq_of_lt (by omega)]
    have hcast : UInt64.ofNat ((UInt64.ofNat n).toNat + k) = UInt64.ofNat (n + k) := by
      rw [UInt64.ofNat_add, UInt64.ofNat_toNat, UInt64.ofNat_add]
    rw [u64Total, if_neg h, Option.bind_some, u64Total, u64Total, hcast]
    by_cases hchecks : checks = true
    · rw [hn hchecks]
    · rw [if_neg fun hc => hchecks hc.1, if_neg fun hc => hchecks hc.1]

/-- A total is exact when it fits. -/
theorem u64Total_exact_iff {n : Nat} : (∃ total, u64Total checks n = some total ∧ total.toNat = n) ↔ n < 2 ^ 64 := by
  constructor
  · rintro ⟨total, -, rfl⟩
    exact total.toNat_lt
  · intro h
    refine ⟨UInt64.ofNat n, ?_, ?_⟩
    · rw [u64Total, if_neg (by omega)]
    · rw [UInt64.toNat_ofNat', Nat.mod_eq_of_lt h]

/-- The stack is counted whatever the order of the directories. -/
theorem diskUsageFrom_eq (total : UInt64) (stack : List Entry) :
    diskUsageFrom checks total stack = u64Total checks (total.toNat + bytesIn stack) := by
  induction total, stack using diskUsageFrom.induct checks with
  | case1 total => simp [diskUsageFrom, bytesIn]
  | case2 total entries stack ih =>
    simp only [List.unattach_reverse, List.unattach_attach] at ih
    rw [diskUsageFrom, ih]
    simp [bytesIn_append, bytesIn, Entry.bytes]
  | case3 total len stack h =>
    have hsum := u64Total_add checks (total.toNat + len.toNat) (bytesIn stack)
    rw [show u64Total checks (total.toNat + len.toNat) = none from h] at hsum
    rw [diskUsageFrom, h, bytesIn, Entry.bytes, ← Nat.add_assoc, ← hsum]
    rfl
  | case4 total len stack total' h ih =>
    have hsum := u64Total_add checks (total.toNat + len.toNat) (bytesIn stack)
    rw [show u64Total checks (total.toNat + len.toNat) = some total' from h] at hsum
    rw [diskUsageFrom, h, bytesIn, Entry.bytes, ← Nat.add_assoc, ← hsum]
    exact ih
  | case5 total stack ih =>
    rw [diskUsageFrom, ih]
    simp [bytesIn, Entry.bytes]

theorem diskUsage_eq (e : Entry) : diskUsage checks e = u64Total checks e.bytes := by
  simp [diskUsage, diskUsageFrom_eq, bytesIn]

end

/-! ## Pruning -/

/-- How `chrono` writes and reads times in the format of the runs, `%Y%m%dT%H%M%SZ`. -/
structure RunFormat where
  format : NaiveDateTime → Text
  parse : Text → Option NaiveDateTime

/-- The time of a sync, to the second; the system's clock has no leap seconds. -/
structure RunTime where
  date : NaiveDate
  secs : Fin 86400

def RunTime.start (run : RunTime) : NaiveDateTime := ⟨run.date, run.secs, 0, by simp⟩

/-- A time that was written is read, if at all, as itself. (Four digits of a year are.) -/
def RunFormat.ReadsWritten (fmt : RunFormat) : Prop :=
  ∀ (run : RunTime) (t : NaiveDateTime), fmt.parse (fmt.format run.start) = some t → t = run.start

/-- What the quarantine directory lists; a name need not be UTF-8. -/
abbrev Run := List UInt8 × Entry

structure Pruned where
  removed : Nat
  left : UInt64

inductive Quarantine where
  | absent
  | notADirectory
  | directory (runs : List Run)

inductive Outcome where
  | panicked
  | failed (e : IntegrationError)
  | pruned (p : Pruned)

section

variable (fmt : RunFormat) (checks : Bool)

/-- When the run of a name started, as far as it is one. -/
def started (name : List UInt8) : Option NaiveDateTime := (Utf8Codec.decode name).bind fmt.parse

/-- The time before which runs are removed, if there is one; `none` if the subtraction panics. -/
def pruneCutoff (now : Text) (keepDays : Option UInt32) : Option (Option NaiveDateTime) :=
  match keepDays, fmt.parse now with
  | some days, some now => (now.checkedSubSigned (Chrono.days days.toNat)).map some
  | _, _ => some none

def isOldRun (now : Text) (cutoff : Option NaiveDateTime) (run : Run) : Bool :=
  match cutoff, started fmt run.1, run.2.isDir with
  | some cutoff, some started, true => decide (started < cutoff) && decide (Utf8Codec.decode run.1 ≠ some now)
  | _, _, _ => false

/-- What is left of the directory, and what was counted, unless that panicked. -/
def pruneRuns (now : Text) (cutoff : Option NaiveDateTime) : List Run → Pruned → List Run × Option Pruned
  | [], pruned => ([], some pruned)
  | run :: runs, pruned =>
    if isOldRun fmt now cutoff run then pruneRuns now cutoff runs ⟨pruned.removed + 1, pruned.left⟩
    else
      match (diskUsage checks run.2).bind (u64Add checks pruned.left) with
      | none => (run :: runs, none)
      | some left =>
        let rest := pruneRuns now cutoff runs ⟨pruned.removed, left⟩
        (run :: rest.1, rest.2)

/-- `prune_quarantine`, of a disk that does not fail. -/
def pruneQuarantine (quarantine : Quarantine) (now : Text) (keepDays : Option UInt32) : Quarantine × Outcome :=
  match quarantine with
  | .absent => (.absent, .pruned ⟨0, 0⟩)
  | .notADirectory =>
    if keepDays.isNone then (.notADirectory, .pruned ⟨0, 0⟩)
    else (.notADirectory, .failed (.localPathUnusable quarantineDir .notADirectory))
  | .directory runs =>
    match pruneCutoff fmt now keepDays with
    | none => (.directory runs, .panicked)
    | some cutoff =>
      match pruneRuns fmt checks now cutoff runs ⟨0, 0⟩ with
      | (left, none) => (.directory left, .panicked)
      | (left, some pruned) => (.directory left, .pruned pruned)

end

/-! ## What is to be removed -/

def Quarantine.runs : Quarantine → List Run
  | .directory runs => runs
  | _ => []

def runBytes (runs : List Run) : Nat := bytesIn (runs.map Prod.snd)

/-- A directory of a run that started so many days before this one, on a calendar with no end. -/
def Expired (fmt : RunFormat) (now : RunTime) (keepDays : Option UInt32) (run : Run) : Prop :=
  run.2.isDir = true ∧ Utf8Codec.decode run.1 ≠ some (fmt.format now.start) ∧
    ∃ days ∈ keepDays, ∃ t ∈ started fmt run.1, t.key + days.toNat * 86400 * 2000000000 < now.start.key

instance (fmt : RunFormat) (now : RunTime) (keepDays : Option UInt32) (run : Run) :
    Decidable (Expired fmt now keepDays run) :=
  match hdays : keepDays, ht : started fmt run.1 with
  | none, _ => isFalse fun h => by
      obtain ⟨-, -, days, hmem, -⟩ := h
      cases hmem
  | some _, none => isFalse fun h => by
      obtain ⟨-, -, -, -, t, hmem, -⟩ := h
      rw [ht] at hmem
      cases hmem
  | some days, some t =>
    decidable_of_iff (run.2.isDir = true ∧ Utf8Codec.decode run.1 ≠ some (fmt.format now.start) ∧
        t.key + days.toNat * 86400 * 2000000000 < now.start.key) (by simp [Expired, ht])

/-- The runs that are to stay. -/
def staying (fmt : RunFormat) (now : RunTime) (keepDays : Option UInt32) (runs : List Run) : List Run :=
  runs.filter fun run => decide ¬Expired fmt now keepDays run

/-- The expired runs and nothing else are removed, and the rest is counted. -/
structure Exact (fmt : RunFormat) (now : RunTime) (keepDays : Option UInt32) (before : Quarantine)
    (after : Quarantine × Outcome) : Prop where
  total : after.2 ≠ .panicked
  removed : after.1.runs = staying fmt now keepDays before.runs
  left : ∀ pruned, after.2 = .pruned pruned → pruned.left.toNat = runBytes after.1.runs

/-- A quarantine that is not a directory, or: the days can be taken from this run's time, if that reads back, and what
is to stay has less than 2^64 bytes. -/
def Prunable (fmt : RunFormat) (now : RunTime) (keepDays : Option UInt32) : Quarantine → Prop
  | .directory runs =>
    (∀ days ∈ keepDays,
      if (fmt.parse (fmt.format now.start)).isSome = true then minDay ≤ now.date.day - days.toNat
      else ∀ run ∈ runs, ¬Expired fmt now keepDays run) ∧
    runBytes (staying fmt now keepDays runs) < 2 ^ 64
  | _ => True

/-! ## What is removed -/

theorem runBytes_cons (run : Run) (runs : List Run) : runBytes (run :: runs) = run.2.bytes + runBytes runs := rfl

theorem runBytes_filter_le (p : Run → Bool) (runs : List Run) : runBytes (runs.filter p) ≤ runBytes runs := by
  induction runs with
  | nil => simp
  | cons run runs ih =>
    by_cases h : p run = true
    · rw [List.filter_cons_of_pos h, runBytes_cons, runBytes_cons]
      omega
    · rw [List.filter_cons_of_neg h, runBytes_cons]
      omega

section

variable (fmt : RunFormat) (checks : Bool)

/-- The runs that are kept with a cutoff. -/
def kept (text : Text) (cutoff : Option NaiveDateTime) (runs : List Run) : List Run :=
  runs.filter fun run => !isOldRun fmt text cutoff run

variable {text : Text} {cutoff : Option NaiveDateTime} {run : Run}

theorem kept_cons_old (runs : List Run) (h : isOldRun fmt text cutoff run = true) :
    kept fmt text cutoff (run :: runs) = kept fmt text cutoff runs :=
  List.filter_cons_of_neg (by simp [h])

theorem kept_cons (runs : List Run) (h : ¬isOldRun fmt text cutoff run = true) :
    kept fmt text cutoff (run :: runs) = run :: kept fmt text cutoff runs :=
  List.filter_cons_of_pos (by simp [h])

variable (text cutoff)

theorem pruneRuns_left (runs : List Run) (pruned : Pruned) :
    (pruneRuns fmt checks text cutoff runs pruned).2.map Pruned.left =
      u64Total checks (pruned.left.toNat + runBytes (kept fmt text cutoff runs)) := by
  induction runs generalizing pruned with
  | nil => simp [pruneRuns, kept, runBytes, bytesIn]
  | cons run runs ih =>
    by_cases hold : isOldRun fmt text cutoff run = true
    · rw [pruneRuns, if_pos hold, ih, kept_cons_old fmt runs hold]
    · have hadd : (diskUsage checks run.2).bind (u64Add checks pruned.left) =
          u64Total checks (pruned.left.toNat + run.2.bytes) := by
        rw [diskUsage_eq, Nat.add_comm pruned.left.toNat, ← u64Total_add]
        congr 1
        funext n
        rw [u64Add, Nat.add_comm]
      have hsum := u64Total_add checks (pruned.left.toNat + run.2.bytes)
        (runBytes (kept fmt text cutoff runs))
      rw [pruneRuns, if_neg hold, hadd, kept_cons fmt runs hold, runBytes_cons, ← Nat.add_assoc,
        ← hsum]
      cases u64Total checks (pruned.left.toNat + run.2.bytes) with
      | none => rfl
      | some left => exact ih ⟨pruned.removed, left⟩

theorem pruneRuns_runs (runs : List Run) (pruned : Pruned)
    (h : (pruneRuns fmt checks text cutoff runs pruned).2.isSome = true) :
    (pruneRuns fmt checks text cutoff runs pruned).1 = kept fmt text cutoff runs := by
  induction runs generalizing pruned with
  | nil => rfl
  | cons run runs ih =>
    rw [pruneRuns] at h ⊢
    by_cases hold : isOldRun fmt text cutoff run = true
    · rw [if_pos hold] at h ⊢
      rw [ih _ h, kept_cons_old fmt runs hold]
    · rw [if_neg hold] at h ⊢
      rw [kept_cons fmt runs hold]
      cases hleft : (diskUsage checks run.2).bind (u64Add checks pruned.left) with
      | none =>
        rw [hleft] at h
        cases h
      | some left =>
        rw [hleft] at h
        dsimp only at h ⊢
        rw [ih _ h]

theorem kept_none (runs : List Run) : kept fmt text none runs = runs := by
  simp [kept, isOldRun]

end

section

variable {fmt : RunFormat} {checks : Bool} {now : RunTime} {keepDays : Option UInt32}

/-- Whole days are taken from a time of day to the second. -/
theorem start_checkedSubSigned (run : RunTime) (n : Nat) :
    run.start.checkedSubSigned (Chrono.days n) =
      (NaiveDate.ofDay (run.date.day - n)).map fun date => RunTime.start ⟨date, run.secs⟩ := by
  have hsecs := run.secs.isLt
  have hwhole : NaiveDateTime.addToTime run.start.time (-Chrono.days n) = ((run.secs.val : Int) - n * 86400, 0) := by
    have hnum : NaiveDateTime.numSeconds (-Chrono.days n) = -((n : Int) * 86400) := by
      unfold NaiveDateTime.numSeconds Chrono.days Chrono.seconds
      split <;> omega
    have hsub : NaiveDateTime.subsecNanos (-Chrono.days n) = 0 := by
      unfold NaiveDateTime.subsecNanos
      rw [hnum]
      unfold Chrono.days Chrono.seconds
      omega
    simp only [NaiveDateTime.addToTime, hnum, hsub, RunTime.start]
    simp
    omega
  unfold NaiveDateTime.checkedSubSigned NaiveDateTime.checkedAddSigned
  simp only [hwhole]
  have hday : run.start.date.day + ((run.secs.val : Int) - n * 86400) / 86400 = run.date.day - n := by
    simp only [RunTime.start]
    omega
  rw [hday]
  congr 1
  funext date
  apply NaiveDateTime.key_injective
  simp only [NaiveDateTime.key, RunTime.start]
  simp
  omega

theorem key_start (run : RunTime) : run.start.key = (run.date.day * 86400 + run.secs.val) * 2000000000 := by
  simp [NaiveDateTime.key, RunTime.start]

theorem key_cutoff {run : RunTime} {n : Nat} {cutoff : NaiveDateTime}
    (h : run.start.checkedSubSigned (Chrono.days n) = some cutoff) :
    cutoff.key + n * 86400 * 2000000000 = run.start.key := by
  rw [start_checkedSubSigned] at h
  obtain ⟨date, hdate, rfl⟩ := Option.map_eq_some_iff.mp h
  have hday := NaiveDate.ofDay_eq_some.mp hdate
  rw [key_start, key_start, hday]
  dsimp only
  omega

theorem isSome_cutoff (run : RunTime) (n : Nat) :
    (run.start.checkedSubSigned (Chrono.days n)).isSome = true ↔ minDay ≤ run.date.day - n := by
  rw [start_checkedSubSigned, Option.isSome_map, NaiveDate.isSome_ofDay]
  have := run.date.inRange
  omega

/-- Nothing is before the earliest time, so nothing is as old as days that reach beyond it. -/
theorem not_expired_of_early (run : Run) (h : ∀ days ∈ keepDays, now.date.day - days.toNat < minDay) :
    ¬Expired fmt now keepDays run := by
  rintro ⟨-, -, days, hdays, t, -, hlt⟩
  have hrange := t.date.inRange
  have hearly := h days hdays
  have hsecs := now.secs.isLt
  rw [key_start] at hlt
  unfold NaiveDateTime.key at hlt
  omega

/-- Given the cutoff, the runs that are removed are the expired ones. -/
theorem isOldRun_iff {days : UInt32} {cutoff : NaiveDateTime} (run : Run)
    (h : now.start.checkedSubSigned (Chrono.days days.toNat) = some cutoff) :
    isOldRun fmt (fmt.format now.start) (some cutoff) run = true ↔ Expired fmt now (some days) run := by
  have hkey := key_cutoff h
  unfold isOldRun Expired
  cases hstart : started fmt run.1 with
  | none => simp
  | some t =>
    cases hdir : run.2.isDir with
    | false => simp
    | true =>
      simp only [Bool.and_eq_true, decide_eq_true_eq, NaiveDateTime.lt_iff, Option.mem_some_iff, exists_eq_left', true_and]
      rw [and_comm]
      apply and_congr_right
      intro
      omega

/-- Without a panic at the cutoff, it matters what is kept and whether the bytes of it fit. -/
theorem exact_of_cutoff {runs : List Run} {cutoff : Option NaiveDateTime}
    (h : pruneCutoff fmt (fmt.format now.start) keepDays = some cutoff) :
    Exact fmt now keepDays (.directory runs)
        (pruneQuarantine fmt checks (.directory runs) (fmt.format now.start) keepDays) ↔
      kept fmt (fmt.format now.start) cutoff runs = staying fmt now keepDays runs ∧
        runBytes (kept fmt (fmt.format now.start) cutoff runs) < 2 ^ 64 := by
  have hleft := pruneRuns_left fmt checks (fmt.format now.start) cutoff runs ⟨0, 0⟩
  have hruns := pruneRuns_runs fmt checks (fmt.format now.start) cutoff runs ⟨0, 0⟩
  have hfits :
      (∃ total, u64Total checks (runBytes (kept fmt (fmt.format now.start) cutoff runs)) = some total ∧ _) ↔ _ :=
    u64Total_exact_iff checks
  simp only [UInt64.toNat_zero, Nat.zero_add] at hleft
  simp only [pruneQuarantine, h]
  generalize kept fmt (fmt.format now.start) cutoff runs = runs' at hleft hruns hfits ⊢
  rw [← hfits, ← hleft]
  generalize pruneRuns fmt checks (fmt.format now.start) cutoff runs ⟨0, 0⟩ = pruning at hruns ⊢
  obtain ⟨rest, pruned⟩ := pruning
  cases pruned with
  | none =>
    apply iff_of_false
    · exact fun hexact => hexact.total rfl
    · rintro ⟨-, total, hnone, -⟩
      cases hnone
  | some pruned =>
    have hrest : rest = runs' := hruns rfl
    subst hrest
    constructor
    · intro hexact
      exact ⟨hexact.removed, pruned.left, rfl, hexact.left pruned rfl⟩
    · rintro ⟨hkept, total, htotal, hbytes⟩
      cases htotal
      exact ⟨by simp, hkept, by rintro p ⟨⟩; exact hbytes⟩

theorem staying_eq_self_iff {runs : List Run} :
    runs = staying fmt now keepDays runs ↔ ∀ run ∈ runs, ¬Expired fmt now keepDays run := by
  rw [eq_comm, staying, List.filter_eq_self]
  simp

end

/-- Pruning is exact for the quarantines that are prunable, and for no others. -/
theorem prune_exact_iff (fmt : RunFormat) (hfmt : fmt.ReadsWritten) (checks : Bool) (quarantine : Quarantine)
    (now : RunTime) (keepDays : Option UInt32) :
    Exact fmt now keepDays quarantine (pruneQuarantine fmt checks quarantine (fmt.format now.start) keepDays) ↔
      Prunable fmt now keepDays quarantine := by
  cases quarantine with
  | absent =>
    apply iff_of_true _ trivial
    exact ⟨by simp [pruneQuarantine], rfl, by rintro pruned ⟨⟩; rfl⟩
  | notADirectory =>
    apply iff_of_true _ trivial
    cases keepDays with
    | none => exact ⟨by simp [pruneQuarantine], rfl, by rintro pruned ⟨⟩; rfl⟩
    | some days => exact ⟨by simp [pruneQuarantine], rfl, by rintro pruned ⟨⟩⟩
  | directory runs =>
    cases keepDays with
    | none =>
      have hself : runs = staying fmt now none runs := by
        simp [staying, Expired]
      rw [exact_of_cutoff rfl, kept_none, ← hself]
      simp [Prunable, ← hself]
    | some days =>
      cases hparse : fmt.parse (fmt.format now.start) with
      | none =>
        have hcutoff : pruneCutoff fmt (fmt.format now.start) (some days) = some none := by
          simp [pruneCutoff, hparse]
        rw [exact_of_cutoff hcutoff, kept_none, staying_eq_self_iff]
        simp only [Prunable, hparse, Option.mem_some_iff, forall_eq', Option.isSome_none, Bool.false_eq_true, if_false]
        apply and_congr_right
        intro hnone
        rw [← staying_eq_self_iff.mpr hnone]
      | some t =>
        have ht := hfmt now t hparse
        subst ht
        have hcutoff : pruneCutoff fmt (fmt.format now.start) (some days) =
            (now.start.checkedSubSigned (Chrono.days days.toNat)).map some := by
          simp [pruneCutoff, hparse]
        simp only [Prunable, hparse, Option.mem_some_iff, forall_eq', Option.isSome_some, if_true, ← isSome_cutoff]
        cases hsub : now.start.checkedSubSigned (Chrono.days days.toNat) with
        | none =>
          rw [hsub] at hcutoff
          apply iff_of_false
          · exact fun hexact => hexact.total (by simp [pruneQuarantine, hcutoff])
          · simp
        | some cutoff =>
          rw [hsub] at hcutoff
          have hkept : kept fmt (fmt.format now.start) (some cutoff) runs = staying fmt now (some days) runs := by
            unfold kept staying
            congr 1
            funext run
            rw [Bool.eq_iff_iff]
            simp [← isOldRun_iff run hsub]
          rw [exact_of_cutoff hcutoff, hkept]
          simp

/-! ## The sync's own pruning -/

/-- The seconds since 1970, of which a leap second has the ones before it. -/
def unixSeconds (t : NaiveDateTime) : Int := (t.date.day - 719528) * 86400 + t.time.secs.val

theorem minTime_eq : minTime = (minDay - 719528) * 86400 := by decide

/-- The sync panics at the cutoff when the calendar does, and has the same cutoff when it does not. -/
theorem pruneCutoff_agrees {env : Env} {fmt : RunFormat} (hfmt : fmt.ReadsWritten)
    (henv : ∀ text, env.parseRun text = (fmt.parse text).map unixSeconds) (now : RunTime) (keepDays : Option UInt32) :
    CloudSync.pruneCutoff env (fmt.format now.start) (keepDays.map UInt32.toNat) =
      ofPanicking ((pruneCutoff fmt (fmt.format now.start) keepDays).map (·.map unixSeconds)) := by
  cases keepDays with
  | none => rfl
  | some days =>
    cases hparse : fmt.parse (fmt.format now.start) with
    | none =>
      simp [CloudSync.pruneCutoff, pruneCutoff, henv, hparse]
      rfl
    | some t =>
      have ht := hfmt now t hparse
      subst ht
      simp only [CloudSync.pruneCutoff, pruneCutoff, henv, hparse, Option.map_some]
      congr 1
      have hsecs := now.secs.isLt
      have hstart : unixSeconds now.start = (now.date.day - 719528) * 86400 + now.secs.val := rfl
      have hsome := isSome_cutoff now days.toNat
      rw [minTime_eq]
      rw [start_checkedSubSigned] at hsome ⊢
      cases hdate : NaiveDate.ofDay (now.date.day - days.toNat) with
      | none =>
        rw [hdate] at hsome
        have hearly : ¬minDay ≤ now.date.day - days.toNat := fun h => Bool.false_ne_true (hsome.mpr h)
        rw [if_pos (by omega)]
        rfl
      | some date =>
        rw [hdate] at hsome
        have hrange := hsome.mp rfl
        have hday := NaiveDate.ofDay_eq_some.mp hdate
        have hcutoff : unixSeconds (RunTime.start ⟨date, now.secs⟩) = unixSeconds now.start - 86400 * days.toNat := by
          rw [hstart, show unixSeconds (RunTime.start ⟨date, now.secs⟩) = (date.day - 719528) * 86400 + now.secs.val from rfl]
          omega
        rw [if_neg (by omega), ← hcutoff]
        rfl

/-- The sync takes the same runs for old ones. -/
theorem isOldRun_agrees {env : Env} {fmt : RunFormat} (henv : ∀ text, env.parseRun text = (fmt.parse text).map unixSeconds)
    (now name : Text) (cutoff : Option RunTime) (e : Entry) :
    CloudSync.isOldRun env now (cutoff.map fun c => unixSeconds c.start) e.isDir name =
      isOldRun fmt now (cutoff.map RunTime.start) (Utf8Codec.encode name, e) := by
  cases cutoff with
  | none => simp [CloudSync.isOldRun, isOldRun]
  | some cutoff =>
    have hstarted : started fmt (Utf8Codec.encode name) = fmt.parse name := by
      simp [started, Utf8Codec.decode_encode]
    cases hname : fmt.parse name with
    | none => simp [CloudSync.isOldRun, isOldRun, henv, hstarted, hname]
    | some t =>
      have hlt : t < cutoff.start ↔ unixSeconds t < unixSeconds cutoff.start := by
        have hfrac := t.time.frac.isLt
        rw [NaiveDateTime.lt_iff, key_start]
        unfold NaiveDateTime.key unixSeconds RunTime.start
        dsimp only
        omega
      cases hdir : e.isDir with
      | false => simp [CloudSync.isOldRun, isOldRun, henv, hstarted, hname, hdir]
      | true =>
        have hname' : (name != now) = decide (some name ≠ some now) := by
          rw [Bool.eq_iff_iff]
          simp
        simp only [CloudSync.isOldRun, isOldRun, henv, hstarted, hname, hdir, Utf8Codec.decode_encode, Option.map_some,
          hname', decide_eq_decide.mpr hlt, Bool.true_and]

/-! ## A run -/

/-- The format of a year of four digits, as far as one run goes. -/
def formatOf (run : RunTime) (text : Text) : RunFormat where
  format t := if t = run.start then text else []
  parse written := if written = text then some run.start else none

theorem readsWritten_formatOf (run : RunTime) {text : Text} (h : text ≠ []) : (formatOf run text).ReadsWritten := by
  intro run' t ht
  by_cases hsame : run'.start = run.start
  · simpa [formatOf, hsame, eq_comm] using ht
  · simp [formatOf, hsame, h.symm] at ht

theorem parse_formatOf (run : RunTime) (text : Text) :
    (formatOf run text).parse ((formatOf run text).format run.start) = some run.start := by
  simp [formatOf]

/-- The 26th of September 2026, at 10:15:00. -/
def aRun : RunTime := ⟨⟨740250, by decide⟩, 36900⟩

def aFormat : RunFormat := formatOf aRun "20260926T101500Z".toList

theorem aFormat_readsWritten : aFormat.ReadsWritten :=
  readsWritten_formatOf aRun (by decide)

def aQuarantine : Quarantine := .directory [(Utf8Codec.encode "20260926T101500Z".toList, .dir [.file 5, .other])]

/-- With thirty days to keep, this run itself is counted. -/
theorem prune_this_run :
    Exact aFormat aRun (some 30) aQuarantine
      (pruneQuarantine aFormat true aQuarantine (aFormat.format aRun.start) (some 30)) := by
  apply (prune_exact_iff aFormat aFormat_readsWritten true aQuarantine aRun (some 30)).mpr
  constructor
  · intro days hdays
    cases hdays
    have hparse : aFormat.parse (aFormat.format aRun.start) = some aRun.start := parse_formatOf aRun _
    rw [hparse, Option.isSome_some, if_pos rfl]
    decide
  · apply Nat.lt_of_le_of_lt (runBytes_filter_le _ _)
    decide

/-- The largest number of days reaches back before the earliest date. -/
theorem prune_panics :
    aFormat.ReadsWritten ∧
      ¬Exact aFormat aRun (some 4294967295) (.directory [])
        (pruneQuarantine aFormat true (.directory []) (aFormat.format aRun.start) (some 4294967295)) := by
  constructor
  · exact aFormat_readsWritten
  · intro hexact
    apply hexact.total
    have hparse : aFormat.parse (aFormat.format aRun.start) = some aRun.start := parse_formatOf aRun _
    have hsub : aRun.start.checkedSubSigned (Chrono.days (4294967295 : Nat)) = none := by
      rw [← Option.not_isSome_iff_eq_none, isSome_cutoff]
      decide
    have hcutoff : pruneCutoff aFormat (aFormat.format aRun.start) (some 4294967295) = none := by
      simp only [pruneCutoff, hparse]
      exact congrArg (Option.map some) hsub
    simp only [pruneQuarantine, hcutoff]

end QuarantinePruning
