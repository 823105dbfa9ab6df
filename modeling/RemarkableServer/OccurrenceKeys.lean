import RemarkableServer.Ics

/-!
# The keys of occurrences

What names an occurrence of a series is its date, or its start in UTC: two occurrences have
the same key only if they are on one date, or start in the same second.
-/
namespace OccurrenceKeys

open RustText Civil Chrono Ics

/-! ## Digits -/

theorem ofDigitChars_padded (width n : Nat) : Nat.ofDigitChars 10 (padded width n) 0 = n := by
  unfold padded showU64
  rw [Nat.ofDigitChars_append, Nat.ofDigitChars_replicate_zero, Nat.mul_zero]
  exact Nat.ofDigitChars_ten_toDigits

theorem padded_injective (width : Nat) : Function.Injective (padded width) := by
  intro m n h
  rw [← ofDigitChars_padded width m, h, ofDigitChars_padded]

theorem length_padded {n : Nat} (h : n < 100) : (padded 2 n).length = 2 := by
  have hlength : (showU64 n).length ≤ 2 := (Nat.length_toDigits_le_iff (by decide) (by decide)).mpr h
  unfold padded
  rw [List.length_append, List.length_replicate]
  omega

theorem isDigit_padded {width n : Nat} {c : Char} (h : c ∈ padded width n) : c.isDigit = true := by
  rcases List.mem_append.mp h with h | h
  · rw [List.eq_of_mem_replicate h]
    rfl
  · exact Nat.isDigit_of_mem_toDigits (by decide) (by decide) h

theorem append_padded_inj {p q : Text} {m n : Nat} (hm : m < 100) (hn : n < 100) :
    p ++ padded 2 m = q ++ padded 2 n ↔ p = q ∧ m = n := by
  constructor
  · intro h
    obtain ⟨hp, hpadded⟩ := List.append_inj' h ((length_padded hm).trans (length_padded hn).symm)
    exact ⟨hp, padded_injective 2 hpadded⟩
  · rintro ⟨rfl, rfl⟩
    rfl

/-! ## Dates and times -/

/-- A sign is no digit. -/
theorem yearText_ne {y z : Int} (hy : ¬(0 ≤ y ∧ y < 10000)) (hz : 0 ≤ z ∧ z < 10000) : yearText y ≠ yearText z := by
  intro h
  rw [yearText, yearText, if_neg hy, if_pos hz] at h
  have hdigit := isDigit_padded (h ▸ List.mem_cons_self : (if y < 0 then '-' else '+') ∈ padded 4 z.toNat)
  split at hdigit <;> cases hdigit

theorem yearText_injective : Function.Injective yearText := by
  intro y z h
  by_cases hy : 0 ≤ y ∧ y < 10000
  · by_cases hz : 0 ≤ z ∧ z < 10000
    · rw [yearText, yearText, if_pos hy, if_pos hz] at h
      have := padded_injective 4 h
      omega
    · exact absurd h.symm (yearText_ne hz hy)
  · by_cases hz : 0 ≤ z ∧ z < 10000
    · exact absurd h (yearText_ne hy hz)
    · rw [yearText, yearText, if_neg hy, if_neg hz] at h
      obtain ⟨hsign, hdigits⟩ := List.cons.inj h
      have := padded_injective 4 hdigits
      have hnegative : y < 0 ↔ z < 0 := by
        split at hsign
        next hneg =>
          split at hsign
          next hneg' => exact iff_of_true hneg hneg'
          next => cases hsign
        next hneg =>
          split at hsign
          next => cases hsign
          next hneg' => exact iff_of_false hneg hneg'
      omega

theorem dateText_inj {a b : NaiveDate} : dateText a = dateText b ↔ a = b := by
  constructor
  · intro h
    have ha := monthOf_spec a.day
    have hb := monthOf_spec b.day
    have hlength := monthLength_pos (isLeap a.year) a.month
    have hlength' := monthLength_pos (isLeap b.year) b.month
    unfold NaiveDate.year NaiveDate.month at hlength hlength'
    unfold dateText NaiveDate.year NaiveDate.month NaiveDate.dayOfMonth at h
    obtain ⟨h, hday⟩ := (append_padded_inj (by omega) (by omega)).mp h
    obtain ⟨hyear, hmonth⟩ := (append_padded_inj (by omega) (by omega)).mp h
    apply NaiveDate.ext_day
    have hday' : dayOf a.day = dayOf b.day := by omega
    rw [← ofYmd_parts a.day, yearText_injective hyear, hmonth, hday', ofYmd_parts]
  · exact congrArg dateText

/-- The second of a day, leap seconds apart. -/
theorem timeText_inj {a b : NaiveTime} :
    timeText a = timeText b ↔ a.secs = b.secs ∧ (1000000000 ≤ a.frac.val ↔ 1000000000 ≤ b.frac.val) := by
  have ha := a.secs.isLt
  have hb := b.secs.isLt
  have hfrac := a.frac.isLt
  have hfrac' := b.frac.isLt
  have hleap := a.leap
  have hleap' := b.leap
  unfold timeText
  rw [append_padded_inj (by omega) (by omega), append_padded_inj (by omega) (by omega),
    (padded_injective 2).eq_iff, Fin.ext_iff]
  omega

/-! ## Keys -/

variable {a b : NaiveDateTime}

theorem occurrenceKey_date : occurrenceKey true a = occurrenceKey true b ↔ a.date = b.date := dateText_inj

/-- The same second on the clock, leap seconds apart. -/
theorem occurrenceKey_time :
    occurrenceKey false a = occurrenceKey false b ↔ a.clock = b.clock ∧ a.leapSecond = b.leapSecond := by
  have ha := a.time.secs.isLt
  have hb := b.time.secs.isLt
  have hlength : ∀ t : NaiveTime, (timeText t ++ ['Z']).length = 7 := by
    intro t
    have hsecs := t.secs.isLt
    have hfrac := t.frac.isLt
    unfold timeText
    rw [List.length_append, List.length_append, List.length_append, length_padded (by omega), length_padded (by omega),
      length_padded (by omega)]
    rfl
  show dateText a.date ++ ['T'] ++ timeText a.time ++ ['Z'] = dateText b.date ++ ['T'] ++ timeText b.time ++ ['Z'] ↔ _
  rw [List.append_assoc _ (timeText a.time), List.append_assoc _ (timeText b.time)]
  constructor
  · intro h
    obtain ⟨hdate, htime⟩ := List.append_inj' h ((hlength _).trans (hlength _).symm)
    obtain ⟨hsecs, hleap⟩ := timeText_inj.mp (List.append_cancel_right htime)
    rw [NaiveDateTime.clock, NaiveDateTime.clock, dateText_inj.mp (List.append_cancel_right hdate), hsecs]
    refine ⟨rfl, ?_⟩
    unfold NaiveDateTime.leapSecond
    exact if_congr hleap rfl rfl
  · rintro ⟨hclock, hleap⟩
    unfold NaiveDateTime.clock at hclock
    have hdate : a.date = b.date := NaiveDate.ext_day (by omega)
    have htime : timeText a.time = timeText b.time := by
      have ha := a.leapSecond_cases
      have hb := b.leapSecond_cases
      refine timeText_inj.mpr ⟨Fin.ext (by omega), by omega⟩
    rw [hdate, htime]

end OccurrenceKeys
