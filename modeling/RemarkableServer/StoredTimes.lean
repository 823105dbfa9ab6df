import Mathlib.Order.Monotone.Basic
import RemarkableServer.Lib.Rfc3339
import RemarkableServer.Lib.RustText
import RemarkableServer.Lib.Utf8

/-!
# Times in the databases

Times are stored as the text that `to_rfc3339` gives, and SQL compares the bytes of it. The texts
have four lengths, and a leap second is written as second 60; with years of four digits they still
come in the order of the times, so that the statements select the rows that they are meant to.
-/
namespace StoredTimes

open RustText Civil Chrono Rfc3339

/-! ## The text of a time -/

/-- The seconds of a time in a leap second are 60. -/
def clockText (t : NaiveTime) : Text :=
  padded 2 (t.secs.val / 3600) ++ ':' :: padded 2 (t.secs.val / 60 % 60) ++
    ':' :: padded 2 (t.secs.val % 60 + t.frac.val / 1000000000)

/-- `to_rfc3339` of a time in UTC. -/
def instantText (t : NaiveDateTime) : Text :=
  dateText t.date.day ++ 'T' :: clockText t.time ++ fractionText (t.time.frac.val % 1000000000) ++ "+00:00".toList

/-- What a column holds. -/
def stored (t : NaiveDateTime) : Bytes := Utf8Codec.encode (instantText t)

/-- A year from 0 to 9999. -/
def FourDigits (t : NaiveDateTime) : Prop := 0 ≤ t.date.year ∧ t.date.year ≤ 9999

instance (t : NaiveDateTime) : Decidable (FourDigits t) := inferInstanceAs (Decidable (_ ∧ _))

example : instantText ⟨⟨719528, by decide⟩, ⟨86399, 1500000000, by decide⟩⟩ = "1970-01-01T23:59:60.500+00:00".toList := by
  decide +kernel

variable {s t : NaiveDateTime}

/-- The nanoseconds of a time since 1970. -/
def sinceEpoch (t : NaiveDateTime) : Int := t.nanos - days epochDay

/-- Outside leap seconds the text is that of the nanoseconds since 1970. -/
theorem instantText_eq_toRfc3339 (h : t.time.frac.val < 1000000000) : instantText t = toRfc3339 (sinceEpoch t) := by
  have hsecs := t.time.secs.isLt
  have hepoch : epochDay = 719528 := by decide
  have hday : dayNumber (sinceEpoch t) = t.date.day := by
    unfold dayNumber sinceEpoch NaiveDateTime.nanos days seconds
    omega
  have hsecond : secondOfDay (sinceEpoch t) = t.time.secs.val := by
    unfold secondOfDay sinceEpoch NaiveDateTime.nanos days seconds
    omega
  have hnanos : nanosecond (sinceEpoch t) = t.time.frac.val := by
    unfold nanosecond sinceEpoch NaiveDateTime.nanos days seconds
    omega
  unfold instantText toRfc3339 clockText timeText
  rw [hday, hsecond, hnanos, Nat.div_eq_of_lt h, Nat.mod_eq_of_lt h, Nat.add_zero]

/-! ## The texts in order -/

theorem yearOf_le {a b : Int} (h : a ≤ b) : yearOf a ≤ yearOf b := by
  have ha := (yearOf_spec a).1
  have hb := (yearOf_spec b).2
  by_contra hlt
  have := yearStart_le (show yearOf b + 1 ≤ yearOf a by omega)
  omega

theorem precedes_dateText {a b : Int} (ha : 0 ≤ yearOf a ∧ yearOf a ≤ 9999) (hb : 0 ≤ yearOf b ∧ yearOf b ≤ 9999)
    (h : a < b) : Precedes (dateText a) (dateText b) := by
  unfold dateText
  rcases eq_or_lt_of_le (yearOf_le h.le) with hyear | hyear
  · have := precedes_monthDay hyear h (yearText (yearOf b))
    rw [hyear]
    exact this
  · exact (((OneWidth.four ha hb).precedes hyear).append _ _).append _ _

/-- A later time of day has a later text up to the seconds, or the same one and a longer fraction. -/
theorem clockText_cases {s t : NaiveTime} (h : s.secs < t.secs ∨ (s.secs = t.secs ∧ s.frac < t.frac)) :
    Precedes (clockText s) (clockText t) ∨
      (clockText s = clockText t ∧ s.frac.val % 1000000000 < t.frac.val % 1000000000) := by
  have hs := s.secs.isLt
  have ht := t.secs.isLt
  have hsfrac := s.frac.isLt
  have htfrac := t.frac.isLt
  have hsleap := s.leap
  have htleap := t.leap
  rw [Fin.lt_def, Fin.lt_def, Fin.ext_iff] at h
  unfold clockText
  by_cases hhour : s.secs.val / 3600 < t.secs.val / 3600
  · exact .inl (((precedes_padded hhour (by omega)).append _ _).append _ _)
  have hhour : s.secs.val / 3600 = t.secs.val / 3600 := by omega
  rw [hhour]
  by_cases hminute : s.secs.val / 60 % 60 < t.secs.val / 60 % 60
  · exact .inl (((precedes_cons_self _ (precedes_padded hminute (by omega))).prepend _).append _ _)
  have hminute : s.secs.val / 60 % 60 = t.secs.val / 60 % 60 := by omega
  rw [hminute]
  by_cases hsecond : s.secs.val % 60 + s.frac.val / 1000000000 < t.secs.val % 60 + t.frac.val / 1000000000
  · exact .inl ((precedes_cons_self _ (precedes_padded hsecond (by omega))).prepend _)
  -- a leap second is the last of its minute, so that the seconds are the same only within one
  have hsecond : s.secs.val % 60 + s.frac.val / 1000000000 = t.secs.val % 60 + t.frac.val / 1000000000 := by omega
  rw [hsecond]
  exact .inr ⟨rfl, by omega⟩

theorem instantText_lt (hs : FourDigits s) (ht : FourDigits t) (h : s < t) : instantText s < instantText t := by
  have hssecs := s.time.secs.isLt
  have htsecs := t.time.secs.isLt
  have hsfrac := s.time.frac.isLt
  have htfrac := t.time.frac.isLt
  rw [NaiveDateTime.lt_iff] at h
  unfold NaiveDateTime.key at h
  unfold instantText
  by_cases hday : s.date.day < t.date.day
  · exact ((((precedes_dateText hs ht hday).append _ _).append _ _).append _ _).lt
  have hday : s.date.day = t.date.day := by omega
  have hclock : s.time.secs < t.time.secs ∨ (s.time.secs = t.time.secs ∧ s.time.frac < t.time.frac) := by
    rw [Fin.lt_def, Fin.lt_def, Fin.ext_iff]
    omega
  rw [hday]
  rcases clockText_cases hclock with hclock | ⟨hclock, hfrac⟩
  · exact ((((precedes_cons_self _ hclock).prepend _).append _ _).append _ _).lt
  · rw [hclock, List.append_assoc, List.append_assoc _ (fractionText (t.time.frac.val % 1000000000))]
    exact List.append_left_lt (fractionText_lt _ hfrac (Nat.mod_lt _ (by decide)))

/-! ## The bytes in order -/

theorem ascii_padded (w n : Nat) : ∀ c ∈ padded w n, c.toNat < 128 := by
  intro c hc
  unfold padded List.leftpad at hc
  rcases List.mem_append.mp hc with hzero | hdigit
  · rw [List.eq_of_mem_replicate hzero]
    decide
  · have hbounds := Char.isDigit_iff_toNat.mp (Nat.isDigit_of_mem_toDigits (by decide) (by decide) hdigit)
    exact hbounds.2.trans_lt (by decide)

theorem ascii_fractionText (n : Nat) : ∀ c ∈ fractionText n, c.toNat < 128 := by
  have hpoint : ∀ w m, ∀ c ∈ '.' :: padded w m, c.toNat < 128 := by
    intro w m c hc
    rcases List.mem_cons.mp hc with rfl | hc
    · decide
    · exact ascii_padded w m c hc
  unfold fractionText
  split
  · intro c hc
    cases hc
  split
  · exact hpoint _ _
  split
  · exact hpoint _ _
  · exact hpoint _ _

theorem ascii_instantText (ht : FourDigits t) : ∀ c ∈ instantText t, c.toNat < 128 := by
  have hzone : ∀ c ∈ "+00:00".toList, c.toNat < 128 :=
    List.forall_iff_forall_mem.mp (show List.Forall (fun c => c.toNat < 128) "+00:00".toList by decide)
  have hpadded : ∀ {w n c}, c ∈ padded w n → c.toNat < 128 := fun hc => ascii_padded _ _ _ hc
  have hmark : ∀ {m c : Char}, m.toNat < 128 → c = m → c.toNat < 128 := fun hm hc => hc ▸ hm
  have hyear : yearText (yearOf t.date.day) = padded 4 t.date.year.toNat := yearText_four ht
  intro c hc
  simp only [instantText, clockText, dateText, hyear, List.mem_append, List.mem_cons] at hc
  rcases hc with (((hdate | hmark' | hclock) | hfraction) | hc)
  · rcases hdate with (hc | hc | hc) | hc | hc
    · exact hpadded hc
    · exact hmark (by decide) hc
    · exact hpadded hc
    · exact hmark (by decide) hc
    · exact hpadded hc
  · exact hmark (by decide) hmark'
  · rcases hclock with (hc | hc | hc) | hc | hc
    · exact hpadded hc
    · exact hmark (by decide) hc
    · exact hpadded hc
    · exact hmark (by decide) hc
    · exact hpadded hc
  · exact ascii_fractionText _ c hfraction
  · exact hzone c hc

theorem encodeChar_ascii {c : Char} (h : c.toNat < 128) : String.utf8EncodeChar c = [UInt8.ofNat c.toNat] := by
  have hval : c.toNat ≤ 127 := Nat.le_of_lt_succ h
  simp [String.utf8EncodeChar, hval]

/-- ASCII texts have bytes in their order. -/
theorem encode_lt {a b : Text} (ha : ∀ c ∈ a, c.toNat < 128) (hb : ∀ c ∈ b, c.toNat < 128) (h : a < b) :
    Utf8Codec.encode a < Utf8Codec.encode b := by
  induction h with
  | nil =>
    rw [Utf8Codec.encode_cons, encodeChar_ascii (hb _ List.mem_cons_self)]
    exact List.Lex.nil
  | cons _ ih =>
    rw [Utf8Codec.encode_cons, Utf8Codec.encode_cons, encodeChar_ascii (hb _ List.mem_cons_self)]
    exact List.Lex.cons (ih (fun c hc => ha c (List.mem_cons_of_mem _ hc)) fun c hc => hb c (List.mem_cons_of_mem _ hc))
  | @rel c as d bs hlt =>
    have hc := ha c List.mem_cons_self
    have hd := hb d List.mem_cons_self
    rw [Utf8Codec.encode_cons, Utf8Codec.encode_cons, encodeChar_ascii hc, encodeChar_ascii hd]
    refine List.Lex.rel ?_
    rw [UInt8.lt_iff_toNat_lt, UInt8.toNat_ofNat', UInt8.toNat_ofNat', Nat.mod_eq_of_lt (by omega), Nat.mod_eq_of_lt (by omega)]
    exact hlt

theorem stored_lt (hs : FourDigits s) (ht : FourDigits t) (h : s < t) : stored s < stored t :=
  encode_lt (ascii_instantText hs) (ascii_instantText ht) (instantText_lt hs ht h)

/-- The bytes compare as the times do. -/
theorem stored_lt_iff (hs : FourDigits s) (ht : FourDigits t) : stored s < stored t ↔ s < t := by
  constructor
  · intro hbytes
    rcases lt_trichotomy s t with hlt | heq | hgt
    · exact hlt
    · rw [heq] at hbytes
      exact absurd hbytes (List.lt_irrefl _)
    · exact absurd hbytes (List.lt_asymm (stored_lt ht hs hgt))
  · exact stored_lt hs ht

theorem stored_eq_iff (hs : FourDigits s) (ht : FourDigits t) : stored s = stored t ↔ s = t := by
  constructor
  · intro hbytes
    rcases lt_trichotomy s t with hlt | heq | hgt
    · have hlt := stored_lt hs ht hlt
      rw [hbytes] at hlt
      exact absurd hlt (List.lt_irrefl _)
    · exact heq
    · have hgt := stored_lt ht hs hgt
      rw [hbytes] at hgt
      exact absurd hgt (List.lt_irrefl _)
  · exact congrArg stored

/-! ## The statements -/

/-- A row with a time in the column that is compared. -/
structure Timed (R τ : Type) where
  row : R
  time : τ
  deriving DecidableEq

def Timed.map {R τ σ : Type} (f : τ → σ) (r : Timed R τ) : Timed R σ := ⟨r.row, f r.time⟩

/-- `column < ?`, `column >= ?` and `column <= ?`. -/
inductive TimeTest where
  | before | notBefore | notAfter
  deriving DecidableEq, Repr

def TimeTest.holds {τ : Type} [LT τ] [DecidableLT τ] (column parameter : τ) : TimeTest → Bool
  | .before => decide (column < parameter)
  | .notBefore => !decide (column < parameter)
  | .notAfter => !decide (parameter < column)

/-- A condition on rows: what it says about the other columns of a table, and its comparisons. -/
structure Condition (R τ : Type) where
  others : List R → R → Bool
  tests : List (TimeTest × τ)

def Condition.map {R τ σ : Type} (f : τ → σ) (c : Condition R τ) : Condition R σ :=
  ⟨c.others, c.tests.map fun test => (test.1, f test.2)⟩

def Condition.select {R τ : Type} [LT τ] [DecidableLT τ] (c : Condition R τ) (rows : List (Timed R τ)) : List (Timed R τ) :=
  rows.filter fun r => c.others (rows.map Timed.row) r.row && c.tests.all fun test => test.1.holds r.time test.2

structure PendingCode where
  code : Text
  userId : Text

structure ResetRow where
  requestId : Text
  userId : Text
  deviceId : Text

structure VersionRow where
  docId : Text
  version : Nat

structure EventRow where
  id : Text
  calendarId : Text

variable {τ : Type}

/-- `create_pairing_code` deletes these codes. -/
def expiredCodes (now : τ) : Condition PendingCode τ := ⟨fun _ _ => true, [(.before, now)]⟩

/-- `create_passcode_reset` and `purge_expired_passcode_resets` delete these requests. -/
def expiredResets (userId : Text) (now : τ) : Condition ResetRow τ := ⟨fun _ r => r.userId == userId, [(.before, now)]⟩

/-- `create_passcode_reset` deletes these, whoever has them. -/
def staleResets (requestId : Text) (now : τ) : Condition ResetRow τ := ⟨fun _ r => r.requestId == requestId, [(.before, now)]⟩

/-- `approve_passcode_reset` updates these. -/
def liveResets (requestId userId : Text) (callerDevice : Option Text) (now : τ) : Condition ResetRow τ :=
  ⟨fun _ r => r.requestId == requestId && r.userId == userId && callerDevice.all (r.deviceId != ·), [(.notBefore, now)]⟩

/-- `apply_retention` by time. -/
def oldVersions (docId : Text) (cutoff : τ) : Condition VersionRow τ := ⟨fun _ r => r.docId == docId, [(.before, cutoff)]⟩

/-- `ORDER BY version DESC LIMIT ?` of a document. -/
def newestVersions (docId : Text) (limit : Nat) (rows : List VersionRow) : List Nat :=
  (((rows.filter fun r => r.docId == docId).map VersionRow.version).mergeSort (decide <| · ≥ ·)).take limit

/-- `apply_retention` by number and time. -/
def oldPastNewest (docId : Text) (maxVersions : Nat) (cutoff : τ) : Condition VersionRow τ :=
  ⟨fun rows r => r.docId == docId && !(newestVersions docId maxVersions rows).contains r.version, [(.before, cutoff)]⟩

/-- `get_events` and `replace_events_in_range` select these. -/
def eventsInRange (calendarId : Text) (start stop : τ) : Condition EventRow τ :=
  ⟨fun _ r => r.calendarId == calendarId, [(.notBefore, start), (.notAfter, stop)]⟩

/-! ## The rows that are selected -/

theorem TimeTest.holds_stored (test : TimeTest) (hs : FourDigits s) (ht : FourDigits t) :
    test.holds (stored s) (stored t) = test.holds s t := by
  have hlt := stored_lt_iff hs ht
  have hgt := stored_lt_iff ht hs
  cases test with
  | before => simp only [holds, hlt]
  | notBefore => simp only [holds, hlt]
  | notAfter => simp only [holds, hgt]

/-- A condition selects the rows by the stored texts that it selects by the times. -/
theorem select_stored {R : Type} (c : Condition R NaiveDateTime) (rows : List (Timed R NaiveDateTime))
    (hrows : ∀ r ∈ rows, FourDigits r.time) (htests : ∀ test ∈ c.tests, FourDigits test.2) :
    (c.map stored).select (rows.map (Timed.map stored)) = (c.select rows).map (Timed.map stored) := by
  have hcolumns : (rows.map (Timed.map stored)).map Timed.row = rows.map Timed.row := by
    rw [List.map_map]
    rfl
  unfold Condition.select
  rw [List.filter_map, hcolumns]
  congr 1
  apply List.filter_congr
  intro r hr
  dsimp only [Function.comp_apply, Condition.map, Timed.map]
  rw [List.all_map]
  congr 1
  apply Bool.eq_iff_iff.mpr
  rw [List.all_eq_true, List.all_eq_true]
  constructor
  · intro hall test htest
    rw [← test.1.holds_stored (hrows r hr) (htests test htest)]
    exact hall test htest
  · intro hall test htest
    exact (test.1.holds_stored (hrows r hr) (htests test htest)).trans (hall test htest)

/-- `ORDER BY start_time`. -/
def byTime {R : Type} [LT τ] [DecidableLT τ] (rows : List (Timed R τ)) : List (Timed R τ) :=
  rows.mergeSort fun a b => !decide (b.time < a.time)

theorem byTime_stored {R : Type} (rows : List (Timed R NaiveDateTime)) (hrows : ∀ r ∈ rows, FourDigits r.time) :
    byTime (rows.map (Timed.map stored)) = (byTime rows).map (Timed.map stored) := by
  refine (List.map_mergeSort ?_).symm
  intro a ha b hb
  have hlt := stored_lt_iff (hrows b hb) (hrows a ha)
  simp only [Timed.map, hlt]

/-- A table as the database has it. -/
def storedRows {R : Type} (rows : List (Timed R NaiveDateTime)) : List (Timed R Bytes) := rows.map (Timed.map stored)

/-- With years of four digits, stored times compare as the times do, and every statement that compares
them selects the rows that the times select, and in their order. -/
theorem stored_times_compare :
    (∀ s t, FourDigits s → FourDigits t → (stored s < stored t ↔ s < t) ∧ (stored s = stored t ↔ s = t)) ∧
    (∀ now (rows : List (Timed PendingCode NaiveDateTime)), FourDigits now → (∀ r ∈ rows, FourDigits r.time) →
      (expiredCodes (stored now)).select (storedRows rows) = storedRows ((expiredCodes now).select rows)) ∧
    (∀ now (rows : List (Timed ResetRow NaiveDateTime)), FourDigits now → (∀ r ∈ rows, FourDigits r.time) →
      ∀ requestId userId callerDevice,
        (expiredResets userId (stored now)).select (storedRows rows) = storedRows ((expiredResets userId now).select rows) ∧
        (staleResets requestId (stored now)).select (storedRows rows) =
          storedRows ((staleResets requestId now).select rows) ∧
        (liveResets requestId userId callerDevice (stored now)).select (storedRows rows) =
          storedRows ((liveResets requestId userId callerDevice now).select rows)) ∧
    (∀ cutoff (rows : List (Timed VersionRow NaiveDateTime)), FourDigits cutoff → (∀ r ∈ rows, FourDigits r.time) →
      ∀ docId maxVersions,
        (oldVersions docId (stored cutoff)).select (storedRows rows) = storedRows ((oldVersions docId cutoff).select rows) ∧
        (oldPastNewest docId maxVersions (stored cutoff)).select (storedRows rows) =
          storedRows ((oldPastNewest docId maxVersions cutoff).select rows)) ∧
    (∀ start stop (rows : List (Timed EventRow NaiveDateTime)), FourDigits start → FourDigits stop →
      (∀ r ∈ rows, FourDigits r.time) → ∀ calendarId,
        (eventsInRange calendarId (stored start) (stored stop)).select (storedRows rows) =
          storedRows ((eventsInRange calendarId start stop).select rows) ∧
        byTime (storedRows rows) = storedRows (byTime rows)) := by
  have hone : ∀ {now} (test : TimeTest), FourDigits now → ∀ p ∈ [(test, now)], FourDigits p.2 := by
    intro now test hnow p hp
    rw [List.mem_singleton.mp hp]
    exact hnow
  refine ⟨?_, ?_, ?_, ?_, ?_⟩
  · intro s t hs ht
    exact ⟨stored_lt_iff hs ht, stored_eq_iff hs ht⟩
  · intro now rows hnow hrows
    exact select_stored (expiredCodes now) rows hrows (hone .before hnow)
  · intro now rows hnow hrows requestId userId callerDevice
    exact ⟨select_stored (expiredResets userId now) rows hrows (hone .before hnow),
      select_stored (staleResets requestId now) rows hrows (hone .before hnow),
      select_stored (liveResets requestId userId callerDevice now) rows hrows (hone .notBefore hnow)⟩
  · intro cutoff rows hcutoff hrows docId maxVersions
    exact ⟨select_stored (oldVersions docId cutoff) rows hrows (hone .before hcutoff),
      select_stored (oldPastNewest docId maxVersions cutoff) rows hrows (hone .before hcutoff)⟩
  · intro start stop rows hstart hstop hrows calendarId
    refine ⟨select_stored (eventsInRange calendarId start stop) rows hrows ?_, byTime_stored rows hrows⟩
    intro p hp
    rcases List.mem_cons.mp hp with rfl | hp
    · exact hstart
    · exact hone .notAfter hstop p hp

/-- Half a second into a leap second, and the midnight after it. -/
def leapSecond : NaiveDateTime := ⟨⟨736694, by decide⟩, ⟨86399, 1500000000, by decide⟩⟩

def nextDay : NaiveDateTime := ⟨⟨736695, by decide⟩, .midnight⟩

theorem stored_times_compare_leapSecond :
    stored leapSecond < stored nextDay ∧
      (expiredCodes (stored nextDay)).select (storedRows [⟨⟨[], []⟩, leapSecond⟩]) =
        storedRows ((expiredCodes nextDay).select [⟨⟨[], []⟩, leapSecond⟩]) := by
  have hleap : FourDigits leapSecond := by decide
  have hnext : FourDigits nextDay := by decide
  refine ⟨(stored_times_compare.1 leapSecond nextDay hleap hnext).1.mpr (by decide), ?_⟩
  apply stored_times_compare.2.1 nextDay _ hnext
  intro r hr
  rw [List.mem_singleton.mp hr]
  exact hleap

end StoredTimes
