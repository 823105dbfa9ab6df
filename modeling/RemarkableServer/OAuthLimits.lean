import RemarkableServer.OAuthCodes

/-!
# The limiter keeps pending codes from being pushed out

A device code in the table, or taken out of it, was inserted at a time at which the
limiter admitted a request. The limiter admits at most `globalMax` requests in a
window, a code lives for ten windows, and eleven windows' worth of codes fit into
the table: an insertion has no need to make room.
-/
namespace OAuthLimits

open RustText FixedWindow OAuth OAuthCodes Transition

/-! ## Counting codes by their time of insertion -/

/-- The outstanding and the taken codes that were inserted at `t` or later. -/
def heldSince (t : Nat) (s : Sys) : Nat :=
  (s.codes.map.entries.countP fun e => t ≤ e.2.issuedAt) + s.taken.countP fun e => t ≤ e.2.issuedAt

/-- The codes that were handed out at `t` or later. -/
def handedOutSince (t : Nat) (s : Sys) : Nat := (s.handedOut.map (·.2)).countP (t ≤ ·)

/-- Every code that is held was handed out. -/
def Counted (s : Sys) : Prop := ∀ t, heldSince t s ≤ handedOutSince t s

variable {s s' : Sys} {c : PendingCodes} {now : Nat}

/-- An entry of a table and the others. -/
theorem countP_kerase {k : Text} {p : Pending} (h : c.map.lookup k = some p) (q : (Σ _ : Text, Pending) → Bool) :
    c.map.entries.countP q = (c.map.erase k).entries.countP q + if q ⟨k, p⟩ then 1 else 0 := by
  have hmem := AList.mem_lookup_iff.mp h
  obtain ⟨p', before, after, hnot, hentries, herase⟩ := List.exists_of_kerase (List.mem_map_of_mem (f := Sigma.fst) hmem)
  have hp' : c.map.lookup k = some p' := by
    refine AList.mem_lookup_iff.mpr ?_
    rw [hentries]
    simp
  rw [h] at hp'
  cases hp'
  change _ = (List.kerase k c.map.entries).countP q + _
  rw [herase, hentries]
  simp only [List.countP_append, List.countP_cons]
  omega

theorem countP_insert (k : Text) (p : Pending) (q : (Σ _ : Text, Pending) → Bool) :
    (c.map.insert k p).entries.countP q = (c.map.erase k).entries.countP q + if q ⟨k, p⟩ then 1 else 0 := by
  rw [AList.entries_insert, List.countP_cons]
  rfl

theorem countP_erase_le (k : Text) (q : (Σ _ : Text, Pending) → Bool) :
    (c.map.erase k).entries.countP q ≤ c.map.entries.countP q := (List.kerase_sublist ..).countP_le

/-- A code that was changed keeps its time. -/
theorem countP_update {k : Text} {p p' : Pending} (h : c.map.lookup k = some p) (hat : p'.issuedAt = p.issuedAt)
    (t : Nat) : ((c.map.insert k p').entries.countP fun e => t ≤ e.2.issuedAt) =
      c.map.entries.countP fun e => t ≤ e.2.issuedAt := by
  rw [countP_insert, countP_kerase h, hat]

theorem countP_within {c' : PendingCodes} (h : Within c' c) (q : (Σ _ : Text, Pending) → Bool) :
    c'.map.entries.countP q ≤ c.map.entries.countP q := h.entries.countP_le

/-- What leaves the taken codes was one of them. -/
theorem countP_leave {e : Text × Pending} (he : e ∈ s.taken) (q : Text × Pending → Bool) :
    (s.leave e.1).taken.countP q + (if q e then 1 else 0) ≤ s.taken.countP q := by
  have hsplit := List.countP_eq_countP_filter_add s.taken q fun e' => decide (e'.1 ≠ e.1)
  rw [hsplit]
  refine Nat.add_le_add (Nat.le_refl _) ?_
  split
  · refine List.one_le_countP_iff.mpr ⟨e, ?_, by assumption⟩
    simpa using he
  · exact Nat.zero_le _

theorem handedOutSince_cons (deviceCode : Text) (t : Nat) : (((deviceCode, now) :: s.handedOut).map (·.2)).countP (t ≤ ·) =
    handedOutSince t s + if t ≤ now then 1 else 0 := by
  rw [List.map_cons, List.countP_cons, handedOutSince]
  simp

theorem counted_new (cap clock : Nat) : Counted (.new cap clock) := fun _ => Nat.zero_le _

theorem counted_insert (h : Counted s) (deviceCode userCode deviceId : Text) :
    Counted { s with
      codes := s.codes.insert deviceCode userCode deviceId now
      clock := now
      handedOut := (deviceCode, now) :: s.handedOut } := by
  intro t
  have hheld := h t
  unfold heldSince at hheld ⊢
  unfold handedOutSince
  rw [handedOutSince_cons]
  dsimp only [PendingCodes.insert]
  rw [countP_insert]
  have hwithin := countP_within ((@within_makeRoom (s.codes.evict now) now (s.codes.evict now).map.len).trans within_evict)
    fun e => t ≤ e.2.issuedAt
  have herase := (countP_erase_le deviceCode fun e => t ≤ e.2.issuedAt).trans hwithin
  simp only [decide_eq_true_eq]
  omega

/-- The table after an approval or a poll has no more codes of any age than before it. -/
theorem counted_of_le (h : Counted s) (hhanded : s'.handedOut = s.handedOut)
    (hle : ∀ t, heldSince t s' ≤ heldSince t s) : Counted s' := by
  intro t
  unfold handedOutSince
  rw [hhanded]
  exact (hle t).trans (h t)

theorem counted_step {a : Action} (h : Counted s) (hstep : step s a = some s') : Counted s' := by
  rcases step_cases hstep with ⟨deviceCode, userCode, deviceId, now, -, rfl⟩ | ⟨userCode, userId, now, rfl⟩ |
    ⟨deviceCode, now, rfl⟩ | ⟨e, he, rfl⟩ | ⟨e, he, -, rfl⟩ | ⟨map, expired, hperm, rfl⟩
  · exact counted_insert h deviceCode userCode deviceId
  · refine counted_of_le h rfl fun t => Nat.add_le_add_right ?_ _
    change (s.codes.approve userCode userId now).2.map.entries.countP _ ≤ _
    rcases approve_cases userCode userId s.codes now with ⟨heq, -⟩ | ⟨k, p, hp, -, heq⟩
    · rw [heq]
      exact countP_within within_evict _
    · rw [heq]
      exact (countP_update hp rfl t).trans_le (countP_within within_evict _)
  · refine counted_of_le h rfl fun t => ?_
    have hwithin := countP_within (@within_evict s.codes now) fun e => t ≤ e.2.issuedAt
    unfold heldSince Sys.poll
    rcases poll_cases deviceCode s.codes now with ⟨hnone, heq⟩ | ⟨p, p', hp, -, hat, -, hnone, heq⟩ |
      ⟨p, hp, -, hsome, heq⟩
    · simp only [hnone, heq, Option.map_none, Option.toList_none, List.nil_append]
      exact Nat.add_le_add_right hwithin _
    · simp only [hnone, heq, Option.map_none, Option.toList_none, List.nil_append, countP_update hp hat]
      exact Nat.add_le_add_right hwithin _
    · have hkerase := countP_kerase hp fun e => t ≤ e.2.issuedAt
      dsimp only at hkerase
      simp only [hsome, heq, Option.map_some, Option.toList_some, List.cons_append, List.nil_append, List.countP_cons]
      omega
  · refine counted_of_le h rfl fun t => Nat.add_le_add_left ?_ _
    exact (Nat.le_add_right _ _).trans (countP_leave he _)
  · refine counted_of_le h rfl fun t => ?_
    have hleave := countP_leave he fun e => t ≤ e.2.issuedAt
    have herase := countP_erase_le (c := s.codes) e.1 fun e => t ≤ e.2.issuedAt
    unfold heldSince
    dsimp only [PendingCodes.restore]
    rw [countP_insert]
    dsimp only
    omega
  · refine counted_of_le h rfl fun t => Nat.add_le_add_right ?_ _
    exact (hperm.countP_eq _).le

/-! ## The limiter -/

variable {g : LimiterInner}

/-- An admitted request is counted in the current window. -/
theorem check_ok {ip : IpAddr} {u : Unit} (h : (g.check ip now).1 = .ok u) :
    (g.global.roll globalWindow now).count < globalMax ∧
      (g.check ip now).2.global = (g.global.roll globalWindow now).add := by
  dsimp only [LimiterInner.check] at h ⊢
  split at h
  case h_1 => exact nomatch h
  case h_2 =>
    split at h
    case isTrue => exact nomatch h
    case isFalse hroom =>
      rw [if_neg hroom]
      simp only [Bool.or_eq_true, decide_eq_true_eq, not_or, Nat.not_le] at hroom
      exact ⟨hroom.1, rfl⟩

/-- A request that is turned away is not counted. -/
theorem check_error {ip : IpAddr} {wait : Nat} (h : (g.check ip now).1 = .error wait) :
    (g.check ip now).2.global = g.global ∨ (g.check ip now).2.global = g.global.roll globalWindow now := by
  dsimp only [LimiterInner.check] at h ⊢
  split at h
  case h_1 => exact .inl rfl
  case h_2 =>
    split at h
    case isTrue hfull =>
      rw [if_pos hfull]
      exact .inr rfl
    case isFalse => exact nomatch h

theorem globalWindow_pos : 0 < globalWindow := by decide

theorem roll_start_le {w : Window} {clock : Nat} (hw : w.start ≤ clock) (hclock : clock ≤ now) :
    (w.roll globalWindow now).start ≤ now := by
  unfold Window.roll
  split
  · exact Nat.le_refl now
  · exact hw.trans hclock

/-! ## The server with its limiter -/

variable {l l' : Limited}

structure Inv (l : Limited) : Prop where
  accounts : Accounts globalWindow globalMax l.limiter.global (l.sys.handedOut.map (·.2))
  started : l.limiter.global.start ≤ l.sys.clock
  counted : Counted l.sys
  cap : l.sys.codes.cap = maxPending

theorem inv_new (clock : Nat) : Inv (.new maxPending clock) :=
  ⟨accounts_fresh, Nat.le_refl _, counted_new maxPending clock, rfl⟩

theorem step_clock {a : Action} (h : step s a = some s') : s.clock ≤ s'.clock := by
  cases a with
  | insert deviceCode userCode deviceId now =>
    obtain ⟨hclock, h⟩ := Option.ite_none_right_eq_some.mp h
    cases h
    exact hclock
  | approve userCode userId now =>
    obtain ⟨hclock, h⟩ := Option.ite_none_right_eq_some.mp h
    cases h
    exact hclock
  | poll deviceCode now =>
    obtain ⟨hclock, h⟩ := Option.ite_none_right_eq_some.mp h
    cases h
    exact hclock
  | issue deviceCode =>
    obtain ⟨e, -, rfl⟩ := Option.map_eq_some_iff.mp h
    exact Nat.le_refl _
  | restore deviceCode =>
    obtain ⟨e, -, rfl⟩ := Option.map_eq_some_iff.mp h
    exact Nat.le_refl _
  | reorder map expired =>
    obtain ⟨-, h⟩ := Option.ite_none_right_eq_some.mp h
    cases h
    exact Nat.le_refl _

/-- Only an insertion hands out a code. -/
theorem step_handedOut {a : Action} (ha : ∀ deviceCode userCode deviceId now, a ≠ .insert deviceCode userCode deviceId now)
    (h : step s a = some s') : s'.handedOut = s.handedOut := by
  rcases step_cases h with ⟨deviceCode, userCode, deviceId, now, rfl, -⟩ | ⟨userCode, userId, now, rfl⟩ |
    ⟨deviceCode, now, rfl⟩ | ⟨e, he, rfl⟩ | ⟨e, he, -, rfl⟩ | ⟨map, expired, hperm, rfl⟩
  · exact absurd rfl (ha deviceCode userCode deviceId now)
  · rfl
  · rfl
  · rfl
  · rfl
  · rfl

/-- What the server does with a request. -/
theorem limited_cases {r : Request} (h : l.step r = some l') :
    (∃ ip deviceCode userCode deviceId now, r = .deviceCode ip deviceCode userCode deviceId now ∧
      ((∃ u, (l.limiter.check ip now).1 = .ok u) ∧ l.sys.clock ≤ now ∧ l' = ⟨(l.limiter.check ip now).2, { l.sys with
        codes := l.sys.codes.insert deviceCode userCode deviceId now
        clock := now
        handedOut := (deviceCode, now) :: l.sys.handedOut }⟩ ∨
      (∃ wait, (l.limiter.check ip now).1 = .error wait) ∧ l.sys.clock ≤ now ∧
        l' = ⟨(l.limiter.check ip now).2, { l.sys with clock := now }⟩)) ∨
    ∃ a sys, r = .other a ∧ (∀ deviceCode userCode deviceId now, a ≠ .insert deviceCode userCode deviceId now) ∧
      step l.sys a = some sys ∧ l' = ⟨l.limiter, sys⟩ := by
  cases r with
  | deviceCode ip deviceCode userCode deviceId now =>
    refine .inl ⟨ip, deviceCode, userCode, deviceId, now, rfl, ?_⟩
    dsimp only [Limited.step] at h
    cases hcheck : (l.limiter.check ip now).1 with
    | ok u =>
      rw [hcheck] at h
      obtain ⟨sys, hsys, rfl⟩ := Option.map_eq_some_iff.mp h
      obtain ⟨hclock, hsys⟩ := Option.ite_none_right_eq_some.mp hsys
      cases hsys
      exact .inl ⟨⟨u, rfl⟩, hclock, rfl⟩
    | error wait =>
      rw [hcheck] at h
      obtain ⟨hclock, h⟩ := Option.ite_none_right_eq_some.mp h
      exact .inr ⟨⟨wait, rfl⟩, hclock, (Option.some.inj h).symm⟩
  | other a =>
    cases a with
    | insert deviceCode userCode deviceId now => exact nomatch h
    | _ =>
      obtain ⟨sys, hsys, rfl⟩ := Option.map_eq_some_iff.mp h
      exact .inr ⟨_, sys, rfl, by simp, hsys, rfl⟩

theorem inv_step {r : Request} (h : Inv l) (hstep : l.step r = some l') : Inv l' := by
  rcases limited_cases hstep with ⟨ip, deviceCode, userCode, deviceId, now, -,
    ⟨⟨u, hok⟩, hclock, rfl⟩ | ⟨⟨wait, herror⟩, hclock, rfl⟩⟩ | ⟨a, sys, -, ha, hsys, rfl⟩
  · obtain ⟨hroom, hglobal⟩ := check_ok hok
    refine ⟨?_, ?_, counted_insert h.counted deviceCode userCode deviceId, insert_cap.trans h.cap⟩
    · rw [hglobal]
      exact (h.accounts.roll globalWindow_pos).counted hroom (roll_current globalWindow_pos)
    · rw [hglobal]
      exact roll_start_le h.started hclock
  · rcases check_error herror with hglobal | hglobal
    · refine ⟨?_, ?_, h.counted, h.cap⟩
      · rw [hglobal]
        exact h.accounts
      · rw [hglobal]
        exact h.started.trans hclock
    · refine ⟨?_, ?_, h.counted, h.cap⟩
      · rw [hglobal]
        exact h.accounts.roll globalWindow_pos
      · rw [hglobal]
        exact roll_start_le h.started hclock
  · refine ⟨?_, h.started.trans (step_clock hsys), counted_step h.counted hsys, (step_cap hsys).trans h.cap⟩
    rw [step_handedOut ha hsys]
    exact h.accounts

/-- The codes that have not expired leave room for one more. -/
theorem evict_len_lt (h : Inv l) (hclock : l.sys.clock ≤ now) :
    (l.sys.codes.evict now).map.len < maxPending := by
  have hlive : (l.sys.codes.evict now).map.len =
      (l.sys.codes.evict now).map.entries.countP fun e => now - 10 * globalWindow ≤ e.2.issuedAt := by
    refine (List.countP_eq_length.mpr fun e he => ?_).symm
    have hbound := live_bound (evict_live (AList.mem_lookup_iff.mpr he))
    have httl : deviceCodeTtl = 10 * globalWindow := by decide
    simp only [decide_eq_true_eq]
    omega
  calc (l.sys.codes.evict now).map.len
      = (l.sys.codes.evict now).map.entries.countP fun e => now - 10 * globalWindow ≤ e.2.issuedAt := hlive
    _ ≤ l.sys.codes.map.entries.countP fun e => now - 10 * globalWindow ≤ e.2.issuedAt := countP_within within_evict _
    _ ≤ heldSince (now - 10 * globalWindow) l.sys := Nat.le_add_right _ _
    _ ≤ handedOutSince (now - 10 * globalWindow) l.sys := h.counted _
    _ ≤ globalMax * (10 + 1) := h.accounts.interval globalWindow_pos (h.started.trans hclock) 10
    _ < maxPending := by decide

/-- Whatever requests came before, from whichever clients: an insertion that the limiter admits keeps every
outstanding code that has not expired. -/
theorem live_codes_kept (clock : Nat) (requests : List Request)
    (hrun : run Limited.step (.new maxPending clock) requests = some l) (ip : IpAddr) (deviceCode userCode deviceId : Text)
    (now : Nat) (hstep : l.step (.deviceCode ip deviceCode userCode deviceId now) = some l') :
    ∀ k p, l.sys.codes.map.lookup k = some p → PendingCodes.isExpired now p = false → k ≠ deviceCode →
      l'.sys.codes.map.lookup k = some p := by
  intro k p hp hlive hne
  have hinv : Inv l := invariant_of_step (fun _ _ _ h hs => inv_step h hs) (inv_new clock) hrun
  rcases limited_cases hstep with ⟨_, _, _, _, _, heq, ⟨-, hclock, rfl⟩ | ⟨-, hclock, rfl⟩⟩ | ⟨a, sys, heq, -⟩
  · cases heq
    have hroom := evict_len_lt hinv hclock
    have hcap : (l.sys.codes.evict now).cap = maxPending := within_evict.cap.trans hinv.cap
    dsimp only [PendingCodes.insert]
    rw [makeRoom_of_room (hcap ▸ hroom), AList.lookup_insert_ne hne]
    exact evict_keeps hp hlive
  · exact hp
  · exact nomatch heq

/-- The n-th of twenty codes a minute, five for each client. -/
def busyRequest (n : Nat) : Request :=
  .deviceCode (.v4 203 0 113 (UInt8.ofNat (n / 5))) ('d' :: Nat.toDigits 10 n) ('u' :: Nat.toDigits 10 n)
    ('t' :: Nat.toDigits 10 (n / 5)) (fromSecs (60 * (n / 20)))

/-- Two minutes in which the limiter admits no more. -/
def busyMinutes : List Request := (List.range 40).map busyRequest

def otherTablet : IpAddr := .v6 0x2001 0xdb8 0 1 0 0 0 7

def newCode : Request :=
  .deviceCode otherTablet "d40".toList "3333-4444".toList "oauth-2".toList (fromSecs 600)

/-- The code as it was inserted, ten minutes ago. -/
def firstCode : Pending := ⟨"t0".toList, "u0".toList, 0, none, fromSecs 5, none⟩

theorem ten_minutes_old_code_kept : ∃ l l', run Limited.step (.new maxPending 0) busyMinutes = some l ∧
    l.sys.codes.map.len = 40 ∧ l.step newCode = some l' ∧ l'.sys.codes.map.lookup "d0".toList = some firstCode := by
  have hend : (run Limited.step (.new maxPending 0) busyMinutes).map (fun l =>
      (l.sys.codes.map.len, l.sys.codes.map.lookup "d0".toList, (l.step newCode).isSome)) =
      some (40, some firstCode, true) := by decide +kernel
  obtain ⟨l, hrun, hl⟩ := Option.map_eq_some_iff.mp hend
  have hlen := congrArg Prod.fst hl
  have hfirst := congrArg (·.2.1) hl
  have hadmitted := congrArg (·.2.2) hl
  obtain ⟨l', hstep⟩ := Option.isSome_iff_exists.mp hadmitted
  refine ⟨l, l', hrun, hlen, hstep, ?_⟩
  exact live_codes_kept 0 _ hrun otherTablet _ _ _ (fromSecs 600) hstep "d0".toList firstCode hfirst (by decide)
    (by decide)

end OAuthLimits
