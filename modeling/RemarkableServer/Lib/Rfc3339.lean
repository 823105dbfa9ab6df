import Mathlib.Data.Char
import Mathlib.Data.List.Lex
import RemarkableServer.Lib.Chrono

/-!
# Times as text

`to_rfc3339` of a time in UTC. Times are nanoseconds since 1970. As long as the years have
four digits, the texts come in the order of the times; longer years have a sign in front.
-/
namespace Rfc3339

open Civil Chrono

/-! ## The text -/

/-- Decimal digits, with zeros in front up to a width. -/
def padded (width n : Nat) : List Char := (Nat.toDigits 10 n).leftpad width '0'

/-- A sign, where four digits are not enough. -/
def yearText (y : Int) : List Char :=
  if 0 ≤ y ∧ y ≤ 9999 then padded 4 y.toNat else (if y < 0 then '-' else '+') :: padded 4 y.natAbs

def dateText (day : Int) : List Char :=
  yearText (yearOf day) ++ '-' :: padded 2 (monthOf day) ++ '-' :: padded 2 (dayOf day).toNat

def timeText (secs : Nat) : List Char :=
  padded 2 (secs / 3600) ++ ':' :: padded 2 (secs / 60 % 60) ++ ':' :: padded 2 (secs % 60)

/-- No more groups of three digits than the nanoseconds need. -/
def fractionText (nanos : Nat) : List Char :=
  if nanos = 0 then []
  else if nanos % 1000000 = 0 then '.' :: padded 3 (nanos / 1000000)
  else if nanos % 1000 = 0 then '.' :: padded 6 (nanos / 1000)
  else '.' :: padded 9 nanos

/-- The day number of 1 January 1970. -/
def epochDay : Int := yearStart 1970

/-- The day number of a time. -/
def dayNumber (t : Int) : Int := t / days 1 + epochDay

def secondOfDay (t : Int) : Nat := (t / seconds 1 % 86400).toNat

def nanosecond (t : Int) : Nat := (t % seconds 1).toNat

def year (t : Int) : Int := yearOf (dayNumber t)

def toRfc3339 (t : Int) : List Char :=
  dateText (dayNumber t) ++ 'T' :: timeText (secondOfDay t) ++ fractionText (nanosecond t) ++ "+00:00".toList

/-- The times that there are. -/
def InRange (t : Int) : Prop := minDay ≤ dayNumber t ∧ dayNumber t ≤ maxDay

instance (t : Int) : Decidable (InRange t) := inferInstanceAs (Decidable (_ ∧ _))

/-- `checked_sub_signed` of whole days. -/
def checkedSubDays (t : Int) (n : Nat) : Option Int := if InRange (t - days n) then some (t - days n) else none

/-! ## Texts that come first whatever follows them -/

variable {xs ys : List Char}

def Precedes (xs ys : List Char) : Prop := ∀ u v, xs ++ u < ys ++ v

theorem Precedes.lt (h : Precedes xs ys) : xs < ys := by
  have := h [] []
  rwa [List.append_nil, List.append_nil] at this

theorem Precedes.append (h : Precedes xs ys) (u v : List Char) : Precedes (xs ++ u) (ys ++ v) := by
  intro u' v'
  rw [List.append_assoc, List.append_assoc]
  exact h _ _

theorem Precedes.prepend (h : Precedes xs ys) (p : List Char) : Precedes (p ++ xs) (p ++ ys) := by
  intro u v
  rw [List.append_assoc, List.append_assoc]
  exact List.append_left_lt (h u v)

theorem precedes_cons {a b : Char} (h : a < b) (u v : List Char) : Precedes (a :: u) (b :: v) :=
  fun _ _ => List.cons_lt_cons_iff.mpr (.inl h)

theorem precedes_cons_self (a : Char) (h : Precedes xs ys) : Precedes (a :: xs) (a :: ys) := h.prepend [a]

/-! ## Numbers of one width -/

theorem digitChar_lt {a b : Nat} (h : a < b) (hb : b < 10) : Nat.digitChar a < Nat.digitChar b := by
  interval_cases b <;> interval_cases a <;> decide

theorem padded_one {n : Nat} (h : n < 10) : padded 1 n = [Nat.digitChar n] := by
  rw [padded, Nat.toDigits_of_lt_base h]
  rfl

theorem padded_succ (w n : Nat) : padded (w + 2) n = padded (w + 1) (n / 10) ++ [Nat.digitChar (n % 10)] := by
  unfold padded List.leftpad
  by_cases hn : n < 10
  · rw [Nat.toDigits_of_lt_base hn, Nat.div_eq_of_lt hn, Nat.toDigits_zero, Nat.mod_eq_of_lt hn]
    simp [List.replicate_succ']
  · rw [Nat.toDigits_of_base_le (by decide) (by omega), List.length_append, List.length_singleton, ← List.append_assoc]
    congr 3
    omega

theorem precedes_padded {w a b : Nat} (hab : a < b) (hb : b < 10 ^ (w + 1)) :
    Precedes (padded (w + 1) a) (padded (w + 1) b) := by
  induction w generalizing a b with
  | zero =>
    rw [padded_one (by omega), padded_one hb]
    exact precedes_cons (digitChar_lt hab hb) _ _
  | succ w ih =>
    rw [padded_succ w a, padded_succ w b]
    rw [Nat.pow_succ] at hb
    by_cases hfirst : a / 10 < b / 10
    · exact (ih hfirst (Nat.div_lt_of_lt_mul (Nat.mul_comm _ _ ▸ hb))).append _ _
    · have hsame : a / 10 = b / 10 := by omega
      rw [hsame]
      exact (precedes_cons (digitChar_lt (by omega) (by omega)) _ _).prepend _

/-- Digits in excess of the width are all there. -/
theorem padded_of_le {w v n : Nat} (hw : 10 ^ w ≤ n) (hv : v ≤ w + 1) : padded v n = Nat.toDigits 10 n := by
  have hlength : w + 1 ≤ (Nat.toDigits 10 n).length := by
    by_contra hshort
    rcases Nat.eq_zero_or_pos w with rfl | hpos
    · have := Nat.length_toDigits_pos (b := 10) (n := n)
      omega
    · have := (Nat.length_toDigits_le_iff (b := 10) (n := n) (by decide) hpos).mp (by omega)
      omega
  unfold padded List.leftpad
  rw [Nat.sub_eq_zero_of_le (by omega)]
  rfl

/-! ## Parts of a time in order -/

variable {a b : Int}

/-- Days of one year, told apart by month and day. -/
theorem precedes_monthDay (hyear : yearOf a = yearOf b) (h : a < b) (p : List Char) :
    Precedes (p ++ '-' :: padded 2 (monthOf a) ++ '-' :: padded 2 (dayOf a).toNat)
      (p ++ '-' :: padded 2 (monthOf b) ++ '-' :: padded 2 (dayOf b).toNat) := by
  have hmonthA := monthOf_spec a
  have hmonthB := monthOf_spec b
  have hlength := monthLength_pos (isLeap (yearOf b)) (monthOf b)
  have hindex := monthIndex_le h.le
  unfold monthIndex at hindex
  by_cases hmonth : monthOf a < monthOf b
  · refine Precedes.append (Precedes.prepend ?_ p) _ _
    exact precedes_cons_self _ (precedes_padded hmonth (by omega))
  · have hsame : monthOf a = monthOf b := by omega
    have hday : dayOf a < dayOf b := by
      unfold dayOf
      rw [hyear, hsame]
      omega
    rw [hsame]
    exact Precedes.prepend (precedes_cons_self _ (precedes_padded (by omega) (by omega))) _

theorem precedes_timeText {m n : Nat} (h : m < n) (hn : n < 86400) : Precedes (timeText m) (timeText n) := by
  unfold timeText
  by_cases hhour : m / 3600 < n / 3600
  · exact ((precedes_padded hhour (by omega)).append _ _).append _ _
  have hhour : m / 3600 = n / 3600 := by omega
  rw [hhour]
  by_cases hminute : m / 60 % 60 < n / 60 % 60
  · exact ((precedes_cons_self _ (precedes_padded hminute (by omega))).prepend _).append _ _
  have hminute : m / 60 % 60 = n / 60 % 60 := by omega
  rw [hminute]
  exact (precedes_cons_self _ (precedes_padded (by omega) (by omega))).prepend _

theorem padded_group (w n : Nat) : padded (w + 4) n = padded (w + 1) (n / 1000) ++ padded 3 (n % 1000) := by
  rw [padded_succ (w + 2), padded_succ (w + 1), padded_succ w, padded_succ 1, padded_succ 0, padded_one (by omega),
    Nat.div_div_eq_div_mul, Nat.div_div_eq_div_mul, show n % 1000 / 10 / 10 = n / 10 / 10 % 10 by omega,
    show n % 1000 / 10 % 10 = n / 10 % 10 by omega, show n % 1000 % 10 = n % 10 by omega, Nat.div_div_eq_div_mul]
  simp only [List.append_assoc]

variable (zone : List Char)

/-- The groups of a fraction, each only where something follows it. -/
theorem fractionText_groups (n : Nat) : fractionText n ++ '+' :: zone =
    if n = 0 then '+' :: zone
    else '.' :: (padded 3 (n / 1000000) ++
      if n % 1000000 = 0 then '+' :: zone
      else padded 3 (n / 1000 % 1000) ++ if n % 1000 = 0 then '+' :: zone else padded 3 (n % 1000) ++ '+' :: zone) := by
  unfold fractionText
  split
  · rfl
  split
  · rfl
  split
  · rw [padded_group 2, Nat.div_div_eq_div_mul]
    simp
  · rw [padded_group 5, padded_group 2, Nat.div_div_eq_div_mul]
    simp

/-- A sign comes before a digit. -/
theorem sign_lt_padded {sign : Char} (hsign : sign < '0') {w n : Nat} (hn : n < 10 ^ (w + 1)) (t u : List Char) :
    sign :: t < padded (w + 1) n ++ u := by
  induction w generalizing n u with
  | zero =>
    rw [padded_one hn]
    refine List.cons_lt_cons_iff.mpr (.inl (lt_of_lt_of_le hsign ?_))
    rcases Nat.eq_zero_or_pos n with rfl | hpos
    · exact le_rfl
    · exact (digitChar_lt hpos hn).le
  | succ w ih =>
    rw [padded_succ, List.append_assoc]
    rw [Nat.pow_succ] at hn
    exact ih (Nat.div_lt_of_lt_mul (Nat.mul_comm _ _ ▸ hn)) _

/-- The parts of a second, with the zone after them. -/
theorem fractionText_lt {m n : Nat} (h : m < n) (hn : n < 1000000000) :
    fractionText m ++ '+' :: zone < fractionText n ++ '+' :: zone := by
  rw [fractionText_groups, fractionText_groups, if_neg (show n ≠ 0 by omega)]
  split
  · exact List.cons_lt_cons_iff.mpr (.inl (by decide))
  rw [List.cons_lt_cons_self]
  by_cases hfirst : m / 1000000 < n / 1000000
  · exact precedes_padded hfirst (by omega) _ _
  rw [show m / 1000000 = n / 1000000 by omega, if_neg (show n % 1000000 ≠ 0 by omega)]
  apply List.append_left_lt
  split
  · exact sign_lt_padded (by decide) (by omega) _ _
  by_cases hsecond : m / 1000 % 1000 < n / 1000 % 1000
  · exact precedes_padded hsecond (by omega) _ _
  rw [show m / 1000 % 1000 = n / 1000 % 1000 by omega, if_neg (show n % 1000 ≠ 0 by omega)]
  apply List.append_left_lt
  split
  · exact sign_lt_padded (by decide) (by omega) _ _
  · exact precedes_padded (by omega) (by omega) _ _

/-! ## Times in order -/

variable {s t : Int}

/-- What follows the year. -/
def afterYear (t : Int) : List Char :=
  '-' :: padded 2 (monthOf (dayNumber t)) ++ '-' :: padded 2 (dayOf (dayNumber t)).toNat ++
    'T' :: timeText (secondOfDay t) ++ fractionText (nanosecond t) ++ "+00:00".toList

theorem toRfc3339_eq (t : Int) : toRfc3339 t = yearText (year t) ++ afterYear t := by
  simp only [toRfc3339, dateText, afterYear, year, List.append_assoc, List.cons_append]

theorem dayNumber_le (h : s ≤ t) : dayNumber s ≤ dayNumber t := by
  unfold dayNumber days seconds
  omega

theorem year_le (h : s ≤ t) : year s ≤ year t := by
  have hs := (yearOf_spec (dayNumber s)).1
  have ht := (yearOf_spec (dayNumber t)).2
  have hday := dayNumber_le h
  by_contra hlt
  have hstart := yearStart_le (show yearOf (dayNumber t) + 1 ≤ yearOf (dayNumber s) by unfold year at hlt; omega)
  omega

/-- The texts of two times of one year come in the order of the times. -/
theorem toRfc3339_lt_of_year_eq (hyear : year s = year t) (h : s < t) : toRfc3339 s < toRfc3339 t := by
  unfold toRfc3339 dateText
  rw [show yearOf (dayNumber s) = yearOf (dayNumber t) from hyear]
  by_cases hday : dayNumber s < dayNumber t
  · exact (((precedes_monthDay hyear hday _).append _ _).append _ _).append _ _ |>.lt
  have hday : dayNumber s = dayNumber t := by
    have := dayNumber_le h.le
    omega
  rw [hday]
  by_cases hsecond : secondOfDay s < secondOfDay t
  · have hbound : secondOfDay t < 86400 := by
      unfold secondOfDay
      omega
    exact (((precedes_cons_self _ (precedes_timeText hsecond hbound)).prepend _).append _ _).append _ _ |>.lt
  have hsecond : secondOfDay s = secondOfDay t ∧ nanosecond s < nanosecond t ∧ nanosecond t < 1000000000 := by
    unfold secondOfDay nanosecond dayNumber days seconds at *
    omega
  rw [hsecond.1, List.append_assoc, List.append_assoc _ (fractionText (nanosecond t))]
  exact List.append_left_lt (fractionText_lt _ hsecond.2.1 hsecond.2.2)

/-! ## Years of several widths -/

variable {y z : Int}

theorem yearText_four (h : 0 ≤ y ∧ y ≤ 9999) : yearText y = padded 4 y.toNat := if_pos h

theorem yearText_neg (h : y < 0) : yearText y = '-' :: padded 4 y.natAbs := by
  rw [yearText, if_neg (by omega), if_pos h]

theorem yearText_five (h : 10000 ≤ y) : yearText y = '+' :: padded 5 y.toNat := by
  rw [yearText, if_neg (by omega), if_neg (by omega), padded_of_le (w := 4) (by omega) (by omega),
    padded_of_le (w := 4) (by omega) (by omega), show y.natAbs = y.toNat by omega]

theorem yearText_six (h : 100000 ≤ y) : yearText y = '+' :: padded 6 y.toNat := by
  rw [yearText, if_neg (by omega), if_neg (by omega), padded_of_le (w := 5) (by omega) (by omega),
    padded_of_le (w := 5) (by omega) (by omega), show y.natAbs = y.toNat by omega]

/-- Two years that are written in as many characters. -/
inductive OneWidth (y z : Int) : Prop where
  | four (hy : 0 ≤ y ∧ y ≤ 9999) (hz : 0 ≤ z ∧ z ≤ 9999)
  | five (hy : 10000 ≤ y ∧ y ≤ 99999) (hz : 10000 ≤ z ∧ z ≤ 99999)
  | six (hy : 100000 ≤ y ∧ y ≤ 999999) (hz : 100000 ≤ z ∧ z ≤ 999999)

theorem OneWidth.symm (h : OneWidth y z) : OneWidth z y := by
  cases h with
  | four hy hz => exact .four hz hy
  | five hy hz => exact .five hz hy
  | six hy hz => exact .six hz hy

theorem OneWidth.precedes (h : OneWidth y z) (hlt : y < z) : Precedes (yearText y) (yearText z) := by
  cases h with
  | four hy hz =>
    rw [yearText_four hy, yearText_four hz]
    exact precedes_padded (by omega) (by omega)
  | five hy hz =>
    rw [yearText_five hy.1, yearText_five hz.1]
    exact precedes_cons_self _ (precedes_padded (by omega) (by omega))
  | six hy hz =>
    rw [yearText_six hy.1, yearText_six hz.1]
    exact precedes_cons_self _ (precedes_padded (by omega) (by omega))

theorem OneWidth.lt_of_lt (h : OneWidth (year s) (year t)) (hlt : s < t) : toRfc3339 s < toRfc3339 t := by
  rcases eq_or_lt_of_le (year_le hlt.le) with hyear | hyear
  · exact toRfc3339_lt_of_year_eq hyear hlt
  · rw [toRfc3339_eq, toRfc3339_eq]
    exact h.precedes hyear _ _

/-- The texts of years of one width come in the order of the times. -/
theorem OneWidth.lt_iff (h : OneWidth (year s) (year t)) : toRfc3339 s < toRfc3339 t ↔ s < t := by
  constructor
  · intro htext
    rcases lt_trichotomy s t with hlt | heq | hgt
    · exact hlt
    · rw [heq] at htext
      exact absurd htext (lt_irrefl _)
    · exact absurd htext (lt_asymm (h.symm.lt_of_lt hgt))
  · exact h.lt_of_lt

theorem toRfc3339_lt_iff (hs : 0 ≤ year s ∧ year s ≤ 9999) (ht : 0 ≤ year t ∧ year t ≤ 9999) :
    toRfc3339 s < toRfc3339 t ↔ s < t :=
  (OneWidth.four hs ht).lt_iff

/-- A time with a sign comes before one of four digits, and the plus before the minus. -/
theorem lt_of_plus (hs : 10000 ≤ year s) (ht : year t ≤ 9999) : toRfc3339 s < toRfc3339 t := by
  rw [toRfc3339_eq, toRfc3339_eq, yearText_five hs, List.cons_append]
  by_cases hneg : year t < 0
  · rw [yearText_neg hneg, List.cons_append]
    exact List.cons_lt_cons_iff.mpr (.inl (by decide))
  · rw [yearText_four ⟨by omega, ht⟩]
    exact sign_lt_padded (by decide) (by omega) _ _

theorem lt_of_minus (hs : year s < 0) (ht : 0 ≤ year t ∧ year t ≤ 9999) : toRfc3339 s < toRfc3339 t := by
  rw [toRfc3339_eq, toRfc3339_eq, yearText_neg hs, yearText_four ht, List.cons_append]
  exact sign_lt_padded (by decide) (by omega) _ _

/-- Five digits before six: the first five of the six decide. -/
theorem five_lt_six (hs : 10000 ≤ year s ∧ year s ≤ 99999) (ht : 100000 ≤ year t ∧ year t ≤ 999999)
    (h : 10 * year s ≤ year t) : toRfc3339 s < toRfc3339 t := by
  rw [toRfc3339_eq, toRfc3339_eq, yearText_five hs.1, yearText_six ht.1, padded_succ 4, List.cons_append, List.cons_append,
    List.cons_lt_cons_self, List.append_assoc]
  rcases eq_or_lt_of_le (show (year s).toNat ≤ (year t).toNat / 10 by omega) with hsame | hless
  · rw [hsame]
    apply List.append_left_lt
    have hdigit : (year t).toNat % 10 < 10 := by omega
    rw [← padded_one hdigit]
    exact sign_lt_padded (by decide) hdigit _ _
  · have hbound : (year t).toNat / 10 < 10 ^ 5 := by omega
    exact precedes_padded hless hbound _ _

theorem six_lt_five (hs : 10000 ≤ year s ∧ year s ≤ 99999) (ht : 100000 ≤ year t ∧ year t ≤ 999999)
    (h : year t < 10 * year s) : toRfc3339 t < toRfc3339 s := by
  rw [toRfc3339_eq, toRfc3339_eq, yearText_five hs.1, yearText_six ht.1, padded_succ 4, List.cons_append, List.cons_append,
    List.cons_lt_cons_self, List.append_assoc]
  have hbound : (year s).toNat < 10 ^ 5 := by omega
  exact precedes_padded (by omega) hbound _ _

/-- Years whose texts come in their order. -/
def Comparable (y z : Int) : Prop :=
  (y ≤ 9999 ↔ z ≤ 9999) ∧ (10000 ≤ y → y ≤ 99999 → 100000 ≤ z → 10 * y ≤ z) ∧
    (10000 ≤ z → z ≤ 99999 → 100000 ≤ y → 10 * z ≤ y)

instance (y z : Int) : Decidable (Comparable y z) := inferInstanceAs (Decidable (_ ∧ _ ∧ _))

theorem lt_of_year_lt (h : year s < year t) : s < t := by
  by_contra hle
  have := year_le (show t ≤ s by omega)
  omega

/-- Whether the texts compare as the times do, for a time from the year 0 on and any other. -/
theorem lt_iff_lt_iff_comparable (hs : 0 ≤ year s ∧ year s ≤ 999999) (ht : year t ≤ 999999) :
    (toRfc3339 s < toRfc3339 t ↔ s < t) ↔ Comparable (year s) (year t) := by
  unfold Comparable
  by_cases hs4 : year s ≤ 9999
  · by_cases htneg : year t < 0
    · have htext := lt_of_minus htneg ⟨hs.1, hs4⟩
      have htime := lt_of_year_lt (show year t < year s by omega)
      refine iff_of_true (iff_of_false (lt_asymm htext) (by omega)) (by omega)
    · by_cases ht4 : year t ≤ 9999
      · exact iff_of_true (toRfc3339_lt_iff ⟨hs.1, hs4⟩ ⟨by omega, ht4⟩) (by omega)
      · have htext := lt_of_plus (show 10000 ≤ year t by omega) hs4
        have htime := lt_of_year_lt (show year s < year t by omega)
        exact iff_of_false (fun h => lt_asymm htext (h.mpr htime)) (by omega)
  · by_cases ht4 : year t ≤ 9999
    · have htext := lt_of_plus (show 10000 ≤ year s by omega) ht4
      have htime := lt_of_year_lt (show year t < year s by omega)
      exact iff_of_false (fun h => lt_asymm htime (h.mp htext)) (by omega)
    · by_cases hs5 : year s ≤ 99999
      · by_cases ht5 : year t ≤ 99999
        · exact iff_of_true (OneWidth.five (by omega) (by omega)).lt_iff (by omega)
        · have htime := lt_of_year_lt (show year s < year t by omega)
          by_cases hlead : 10 * year s ≤ year t
          · exact iff_of_true (iff_of_true (five_lt_six (by omega) (by omega) hlead) htime) (by omega)
          · have htext := six_lt_five (by omega) (by omega) (show year t < 10 * year s by omega)
            exact iff_of_false (fun h => lt_asymm htext (h.mpr htime)) (by omega)
      · by_cases ht5 : year t ≤ 99999
        · have htime := lt_of_year_lt (show year t < year s by omega)
          by_cases hlead : 10 * year t ≤ year s
          · have htext := five_lt_six (by omega) (by omega) hlead
            exact iff_of_true (iff_of_false (lt_asymm htext) (lt_asymm htime)) (by omega)
          · have htext := six_lt_five (by omega) (by omega) (show year s < 10 * year t by omega)
            exact iff_of_false (fun h => lt_asymm htime (h.mp htext)) (by omega)
        · exact iff_of_true (OneWidth.six (by omega) (by omega)).lt_iff (by omega)

/-! ## The range -/

theorem year_ge {n : Int} (h : yearStart n ≤ dayNumber t) : n ≤ year t := by
  have hspec := (yearOf_spec (dayNumber t)).2
  by_contra hlt
  have hstart := yearStart_le (show yearOf (dayNumber t) + 1 ≤ n by unfold year at hlt; omega)
  omega

theorem year_lt {n : Int} (h : dayNumber t < yearStart n) : year t < n := by
  have hspec := (yearOf_spec (dayNumber t)).1
  by_contra hle
  have hstart := yearStart_le (show n ≤ yearOf (dayNumber t) by unfold year at hle; omega)
  omega

theorem year_of_nonneg (h : 0 ≤ t) : 1970 ≤ year t := by
  apply year_ge
  unfold dayNumber epochDay days seconds
  omega

theorem InRange.year_le (h : InRange t) : year t ≤ 262142 := by
  have hday := h.2
  unfold maxDay at hday
  have := year_lt (show dayNumber t < yearStart 262143 by omega)
  omega

end Rfc3339
