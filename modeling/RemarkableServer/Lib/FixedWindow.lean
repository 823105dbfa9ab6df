import Mathlib.Data.List.Count
import Mathlib.Tactic.Ring

/-!
# Fixed-window counters

A counter admits at most `max` events and starts again at zero when `width` has
passed since it was started. Its windows start at least `width` apart, so an
interval of `n` widths meets at most `n + 1` of them, and this bounds the events
that were admitted within it.
-/
namespace FixedWindow

structure Window where
  start : Nat
  count : Nat
  deriving DecidableEq, Repr

def Window.fresh (now : Nat) : Window := ⟨now, 0⟩

/-- A window that is over is replaced by one that starts now. -/
def Window.roll (width now : Nat) (w : Window) : Window :=
  if width ≤ now - w.start then .fresh now else w

def Window.add (w : Window) : Window := { w with count := w.count + 1 }

/-- The windows that start after `t - width` and before `start`, if their starts are `width` apart. -/
def windowsSince (width start t : Nat) : Nat := (start - t + (width - 1)) / width

/-- The counter `w` accounts for the times `ts` at which it has admitted. -/
structure Accounts (width max : Nat) (w : Window) (ts : List Nat) : Prop where
  ended : ∀ t ∈ ts, t < w.start + width
  atMost : w.count ≤ max
  since : ∀ t, ts.countP (t ≤ ·) ≤ w.count + max * windowsSince width w.start t

variable {width max now : Nat} {w : Window} {ts : List Nat}

theorem accounts_fresh : Accounts width max (.fresh now) [] :=
  { ended := by simp
    atMost := Nat.zero_le _
    since := fun _ => Nat.zero_le _ }

/-- A start that is a width later has one window more behind it. -/
theorem windowsSince_later (hwidth : 0 < width) {start start' t : Nat} (hstart : start + width ≤ start')
    (ht : t < start') : windowsSince width start t + 1 ≤ windowsSince width start' t := by
  unfold windowsSince
  by_cases hold : t ≤ start
  · rw [← Nat.add_div_right _ hwidth]
    refine Nat.div_le_div_right ?_
    omega
  · have hnone : (start - t + (width - 1)) / width = 0 := Nat.div_eq_of_lt (by omega)
    rw [hnone, Nat.zero_add, Nat.le_div_iff_mul_le hwidth]
    omega

theorem windowsSince_interval (hwidth : 0 < width) {start n : Nat} (hstart : start ≤ now) :
    windowsSince width start (now - n * width) ≤ n := by
  unfold windowsSince
  have hle : start - (now - n * width) + (width - 1) < (n + 1) * width := by
    rw [Nat.succ_mul]
    omega
  exact Nat.lt_succ_iff.mp ((Nat.div_lt_iff_lt_mul hwidth).mpr hle)

theorem Accounts.roll (hwidth : 0 < width) (h : Accounts width max w ts) :
    Accounts width max (w.roll width now) ts := by
  unfold Window.roll
  split
  case isFalse => exact h
  case isTrue hover =>
    refine ⟨fun t ht => ?_, Nat.zero_le _, fun t => ?_⟩
    · have := h.ended t ht
      simp only [Window.fresh]
      omega
    · by_cases ht : t < now
      · have hlater : windowsSince width w.start t + 1 ≤ windowsSince width now t :=
          windowsSince_later hwidth (by omega) ht
        calc ts.countP (t ≤ ·) ≤ w.count + max * windowsSince width w.start t := h.since t
          _ ≤ max + max * windowsSince width w.start t := Nat.add_le_add_right h.atMost _
          _ = max * (windowsSince width w.start t + 1) := by ring
          _ ≤ max * windowsSince width now t := Nat.mul_le_mul_left max hlater
          _ ≤ _ := Nat.le_add_left _ _
      · have hnone : ts.countP (t ≤ ·) = 0 := by
          rw [List.countP_eq_zero]
          intro t' ht'
          have := h.ended t' ht'
          simp only [decide_eq_true_eq]
          omega
        rw [hnone]
        exact Nat.zero_le _

theorem roll_current (hwidth : 0 < width) : now - (w.roll width now).start < width := by
  unfold Window.roll
  split
  case isTrue => simpa [Window.fresh] using hwidth
  case isFalse h => omega

theorem Accounts.counted (h : Accounts width max w ts) (hroom : w.count < max) (hnow : now - w.start < width) :
    Accounts width max w.add (now :: ts) := by
  refine ⟨fun t ht => ?_, hroom, fun t => ?_⟩
  · rcases List.mem_cons.mp ht with rfl | ht
    · simp only [Window.add]
      omega
    · exact h.ended t ht
  · have := h.since t
    rw [List.countP_cons]
    simp only [Window.add]
    split <;> omega

/-- At most `max` times a window more than the interval has widths. -/
theorem Accounts.interval (hwidth : 0 < width) (h : Accounts width max w ts) (hstart : w.start ≤ now) (n : Nat) :
    ts.countP (now - n * width ≤ ·) ≤ max * (n + 1) := by
  calc ts.countP (now - n * width ≤ ·) ≤ w.count + max * windowsSince width w.start (now - n * width) := h.since _
    _ ≤ max + max * n := Nat.add_le_add h.atMost (Nat.mul_le_mul_left max (windowsSince_interval hwidth hstart))
    _ = max * (n + 1) := by ring

end FixedWindow
