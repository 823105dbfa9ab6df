import Mathlib.Data.List.Pairwise
import RemarkableServer.Lib.Transition
import RemarkableServer.PasscodeResets

/-!
# Who approves a passcode reset

A row is approved by the admin or by another device of its user, before it expires, and
stays as it is until it is removed. As long as the years have four digits, the texts of
the times tell which rows are expired; a day before the year 10000 they no longer do.
-/
namespace PasscodeApprovals

open RustText Chrono Rfc3339 Transition PasscodeResets

variable {db : Db} {call : Call} {now later : Int} {r r' : Row}

/-! ## What a call does to a row -/

/-- The user whose device calls; the admin has none. -/
def userOf : Call → Option Text
  | .create userId _ | .get _ userId | .purge userId | .deny _ userId _ => some userId
  | .approve _ caller => caller.map Prod.fst

/-- The row is approved: by the admin, or by another device of its user. -/
structure Approves (call : Call) (now : Int) (r : Row) : Prop where
  live : expired now r = false
  other : call = .approve r.reset.requestId none ∨
    ∃ deviceId, call = .approve r.reset.requestId (some (r.userId, deviceId)) ∧ deviceId ≠ r.reset.deviceId

/-- The row is removed: it is expired, or denied by another device of its user. -/
inductive Removes (call : Call) (now : Int) (r : Row) : Prop where
  | expired (h : expired now r = true)
      (hcall : call = .purge r.userId ∨ (∃ reset, call = .create r.userId reset) ∨
        ∃ userId reset, call = .create userId reset ∧ reset.requestId = r.reset.requestId)
  | denied (deviceId : Text) (hcall : call = .deny r.reset.requestId r.userId deviceId) (hother : deviceId ≠ r.reset.deviceId)

/-- The row is new, and no other has its id. -/
structure Inserts (call : Call) (after : Db) (r : Row) : Prop where
  call : ∃ reset, call = .create r.userId reset ∧ r.reset = { reset with approved := false }
  fresh : ∃ rest, after = r :: rest ∧ ∀ r' ∈ rest, r'.reset.requestId ≠ r.reset.requestId

theorem approves_of_approvable {requestId userId : Text} {caller : Option (Text × Text)}
    (huser : ∀ u ∈ caller.map Prod.fst, u = userId)
    (h : approvable requestId userId (caller.map Prod.snd) now r = true) : Approves (.approve requestId caller) now r := by
  simp only [approvable, Bool.and_eq_true, Bool.not_eq_true', beq_iff_eq] at h
  obtain ⟨⟨⟨rfl, rfl⟩, hlive⟩, hdevice⟩ := h
  refine ⟨hlive, ?_⟩
  cases caller with
  | none => exact .inl rfl
  | some caller =>
    obtain ⟨u, d⟩ := caller
    obtain rfl := huser u rfl
    refine .inr ⟨d, rfl, fun heq => ?_⟩
    simp [heq] at hdevice

/-- The rows that are left when a request is made. -/
def unexpired (userId requestId : Text) (now : Int) (r : Row) : Bool :=
  !(r.userId == userId && expired now r) && !(r.reset.requestId == requestId && expired now r)

theorem create_cases (reset : PasscodeReset) (userId : Text) (now : Int) (db : Db) :
    createPasscodeReset reset userId now db = (db.filter (unexpired userId reset.requestId now), false) ∨
      ((∀ r ∈ db.filter (unexpired userId reset.requestId now), r.reset.requestId ≠ reset.requestId) ∧
        createPasscodeReset reset userId now db =
          (⟨userId, { reset with approved := false }⟩ :: db.filter (unexpired userId reset.requestId now), true)) := by
  have hkept : (db.filter fun r => !(r.userId == userId && expired now r)).filter
      (fun r => !(r.reset.requestId == reset.requestId && expired now r)) =
      db.filter (unexpired userId reset.requestId now) := by
    rw [List.filter_filter]
    exact List.filter_congr fun r _ => Bool.and_comm _ _
  unfold createPasscodeReset
  dsimp only
  rw [hkept]
  split
  · exact .inl rfl
  case isFalse hfresh =>
    refine .inr ⟨fun r hr heq => hfresh ?_, rfl⟩
    exact List.any_eq_true.mpr ⟨r, hr, beq_iff_eq.mpr heq⟩

theorem mem_create {reset : PasscodeReset} {userId : Text} (hr : r ∈ db) (hkept : unexpired userId reset.requestId now r = true) :
    r ∈ (createPasscodeReset reset userId now db).1 := by
  have hin := List.mem_filter.mpr ⟨hr, hkept⟩
  obtain h | ⟨-, h⟩ := create_cases reset userId now db
  · rw [h]
    exact hin
  · rw [h]
    exact List.mem_cons_of_mem _ hin

theorem approve_cases (requestId : Text) (caller : Option (Text × Text)) (now later : Int) (db : Db) :
    (approvePasscodeReset requestId (caller.map Prod.fst) (caller.map Prod.snd) now later db).1 = db ∨
      ∃ userId, (∀ u ∈ caller.map Prod.fst, u = userId) ∧
        (approvePasscodeReset requestId (caller.map Prod.fst) (caller.map Prod.snd) now later db).1 =
          db.map fun r => if approvable requestId userId (caller.map Prod.snd) now r then r.approve else r := by
  unfold approvePasscodeReset
  split
  · exact .inl rfl
  case h_2 found _ =>
    split
    · exact .inl rfl
    case isFalse howner =>
      split
      · refine .inr ⟨found.userId, fun u hu => ?_, rfl⟩
        simp only [Option.mem_def] at hu
        simpa [hu] using howner
      · exact .inl rfl

/-- What becomes of a row. -/
theorem exec_before (call : Call) (now later : Int) (hr : r ∈ db) :
    r ∈ (call.exec now later db).1 ∨ (r.approve ∈ (call.exec now later db).1 ∧ Approves call now r) ∨
      Removes call now r := by
  cases call with
  | create userId reset =>
    by_cases hkept : unexpired userId reset.requestId now r = true
    · exact .inl (mem_create hr hkept)
    · simp only [unexpired, Bool.and_eq_true, Bool.not_eq_true', not_and_or, Bool.not_eq_false, beq_iff_eq] at hkept
      obtain ⟨hmine, hexpired⟩ | ⟨hid, hexpired⟩ := hkept
      · exact .inr (.inr (.expired hexpired (.inr (.inl ⟨reset, by rw [hmine]⟩))))
      · exact .inr (.inr (.expired hexpired (.inr (.inr ⟨userId, reset, rfl, hid.symm⟩))))
  | get requestId userId => exact .inl hr
  | approve requestId caller =>
    obtain h | ⟨userId, huser, h⟩ := approve_cases requestId caller now later db
    · left
      show r ∈ (approvePasscodeReset ..).1
      rw [h]
      exact hr
    · by_cases happrovable : approvable requestId userId (caller.map Prod.snd) now r = true
      · refine .inr (.inl ⟨?_, approves_of_approvable huser happrovable⟩)
        show r.approve ∈ (approvePasscodeReset ..).1
        rw [h]
        exact List.mem_map.mpr ⟨r, hr, if_pos happrovable⟩
      · left
        show r ∈ (approvePasscodeReset ..).1
        rw [h]
        exact List.mem_map.mpr ⟨r, hr, if_neg happrovable⟩
  | purge userId =>
    by_cases hgone : r.userId = userId ∧ expired now r = true
    · exact .inr (.inr (.expired hgone.2 (.inl (by rw [hgone.1]))))
    · exact .inl (List.mem_filter.mpr ⟨hr, by simpa [imp_iff_not_or] using hgone⟩)
  | deny requestId userId callerDevice =>
    by_cases hgone : deniable requestId userId callerDevice r = true
    · simp only [deniable, Bool.and_eq_true, beq_iff_eq, bne_iff_ne] at hgone
      obtain ⟨⟨rfl, rfl⟩, hother⟩ := hgone
      exact .inr (.inr (.denied callerDevice rfl hother.symm))
    · left
      show r ∈ (denyPasscodeReset ..).1
      unfold denyPasscodeReset
      split
      · exact List.mem_filter.mpr ⟨hr, by simpa using hgone⟩
      · exact hr

/-- Where a row comes from. -/
theorem exec_after (call : Call) (now later : Int) (hr : r ∈ (call.exec now later db).1) :
    r ∈ db ∨ (∃ r₀ ∈ db, r = r₀.approve ∧ Approves call now r₀) ∨ Inserts call (call.exec now later db).1 r := by
  cases call with
  | create userId reset =>
    change r ∈ (createPasscodeReset reset userId now db).1 at hr
    obtain h | ⟨hfresh, h⟩ := create_cases reset userId now db
    · rw [h] at hr
      exact .inl (List.mem_of_mem_filter hr)
    · rw [h] at hr
      rcases List.mem_cons.mp hr with rfl | hold
      · refine .inr (.inr ⟨⟨reset, rfl, rfl⟩, _, ?_, hfresh⟩)
        show (createPasscodeReset reset userId now db).1 = _
        rw [h]
      · exact .inl (List.mem_of_mem_filter hold)
  | get requestId userId => exact .inl hr
  | approve requestId caller =>
    change r ∈ (approvePasscodeReset ..).1 at hr
    obtain h | ⟨userId, huser, h⟩ := approve_cases requestId caller now later db
    · rw [h] at hr
      exact .inl hr
    · rw [h] at hr
      obtain ⟨r₀, hr₀, rfl⟩ := List.mem_map.mp hr
      split
      case isTrue happrovable => exact .inr (.inl ⟨r₀, hr₀, rfl, approves_of_approvable huser happrovable⟩)
      case isFalse => exact .inl hr₀
  | purge userId => exact .inl (List.mem_of_mem_filter hr)
  | deny requestId userId callerDevice =>
    change r ∈ (denyPasscodeReset ..).1 at hr
    unfold denyPasscodeReset at hr
    split at hr
    · exact .inl (List.mem_of_mem_filter hr)
    · exact .inl hr

/-! ## What a call tells -/

variable {requestId userId : Text} {reset : PasscodeReset}

theorem parse_ok {t t' : Int} (h : parse t = .ok t') : t' = t := by
  unfold parse at h
  split at h
  · cases h
    rfl
  · cases h

theorem read_ok (h : readPasscodeReset requestId userId now db = .ok reset) : (⟨userId, reset⟩ : Row) ∈ db := by
  unfold readPasscodeReset at h
  split at h
  · cases h
  case h_2 r hfound =>
    have hmem := List.mem_of_find?_eq_some hfound
    have hkey := List.find?_some hfound
    simp only [Bool.and_eq_true, beq_iff_eq] at hkey
    obtain ⟨userOfRow, resetOfRow⟩ := r
    obtain rfl : userOfRow = userId := hkey.2
    cases hcreated : parse resetOfRow.created with
    | error e => simp [hcreated, bind, Except.bind] at h
    | ok created =>
      cases hexpires : parse resetOfRow.expires with
      | error e => simp [hcreated, hexpires, bind, Except.bind] at h
      | ok expires =>
        simp only [hcreated, hexpires, bind, Except.bind] at h
        split at h
        · cases h
        · obtain rfl := parse_ok hcreated
          obtain rfl := parse_ok hexpires
          cases h
          exact hmem

theorem answerOf_reset {α : Type} {ok : α → Answer} {x : Except Fault α} {owner : Option Text}
    (h : answerOf ok x = .reset owner reset) : ∃ a, x = .ok a ∧ ok a = .reset owner reset := by
  cases x with
  | error e => cases h
  | ok a => exact ⟨a, rfl, h⟩

/-- A reset that is told about is one of the caller's user. -/
theorem exec_shows {owner : Option Text} (huser : userOf call = some userId)
    (h : (call.exec now later db).2 = .reset owner reset) :
    (⟨userId, reset⟩ : Row) ∈ (call.exec now later db).1 ∧ ∀ u ∈ owner, u = userId := by
  cases call with
  | create u reset => cases h
  | get id u =>
    cases huser
    obtain ⟨found, hfound, heq⟩ := answerOf_reset h
    cases heq
    exact ⟨read_ok hfound, fun u hu => nomatch hu⟩
  | approve id caller =>
    obtain ⟨⟨u, d⟩, rfl, hu⟩ := Option.map_eq_some_iff.mp huser
    obtain rfl : u = userId := hu
    obtain ⟨⟨owner', found⟩, hfound, heq⟩ := answerOf_reset h
    cases heq
    change (⟨u, reset⟩ : Row) ∈ (approvePasscodeReset ..).1 ∧ _
    simp only [Option.map_some] at hfound ⊢
    unfold approvePasscodeReset
    split at hfound
    · cases hfound
    case h_2 row hrow =>
      dsimp only at hfound ⊢
      split at hfound
      · cases hfound
      case isFalse howner =>
        obtain rfl : u = row.userId := by simpa using howner
        rw [if_neg howner]
        split at hfound
        case isTrue hany =>
          rw [if_pos hany]
          obtain ⟨read, hread, heq⟩ := map_eq_ok.mp hfound
          cases heq
          exact ⟨read_ok hread, fun v hv => (Option.some.inj hv).symm⟩
        · cases hfound
  | purge u => cases h
  | deny id u d =>
    obtain ⟨_, _, heq⟩ := answerOf_reset h
    cases heq

/-- The rows of a user. -/
def own (userId : Text) (db : Db) : Db := db.filter (·.userId == userId)

/-- No two rows have one id. -/
def Unique (db : Db) : Prop := db.Pairwise fun r r' => r.reset.requestId ≠ r'.reset.requestId

theorem Unique.eq_of_id (h : Unique db) (hr : r ∈ db) (hr' : r' ∈ db) (hid : r.reset.requestId = r'.reset.requestId) :
    r = r' := by
  have : Std.Symm fun r r' : Row => r.reset.requestId ≠ r'.reset.requestId := ⟨fun _ _ hne => hne.symm⟩
  by_contra hne
  exact h.forall hr hr' hne hid

theorem Unique.find (h : Unique db) (hr : r ∈ db) (hid : r.reset.requestId = requestId) :
    db.find? (fun r => r.reset.requestId == requestId) = some r := by
  cases hfound : db.find? fun r => r.reset.requestId == requestId with
  | none =>
    have hnone := List.find?_eq_none.mp hfound r hr
    exact absurd (beq_iff_eq.mpr hid) hnone
  | some r' =>
    have hkey : r'.reset.requestId = requestId := by simpa using List.find?_some hfound
    rw [h.eq_of_id (List.mem_of_find?_eq_some hfound) hr (hkey.trans hid.symm)]

theorem find_own (p : Row → Bool) (hp : ∀ r, p r = true → r.userId = userId) : (own userId db).find? p = db.find? p := by
  rw [own, List.find?_filter]
  congr 1
  funext r
  by_cases h : p r = true
  · simp [h, hp r h]
  · simp [h]

theorem any_own (p : Row → Bool) (hp : ∀ r, p r = true → r.userId = userId) : (own userId db).any p = db.any p := by
  rw [own, List.any_filter]
  congr 1
  funext r
  by_cases h : p r = true
  · simp [h, hp r h]
  · simp [h]

theorem read_own (requestId userId : Text) (now : Int) (db : Db) :
    readPasscodeReset requestId userId now (own userId db) = readPasscodeReset requestId userId now db := by
  unfold readPasscodeReset
  rw [find_own]
  intro r hr
  simp only [Bool.and_eq_true, beq_iff_eq] at hr
  exact hr.2

theorem miss_own (requestId userId : Text) (device : Option Text) (now : Int) (db : Db) :
    passcodeResetMiss requestId userId device now (own userId db) = passcodeResetMiss requestId userId device now db := by
  unfold passcodeResetMiss
  rw [read_own]

theorem own_map {f : Row → Row} (hf : ∀ r, (f r).userId = r.userId) (userId : Text) (db : Db) :
    (own userId db).map f = own userId (db.map f) := by
  rw [own, own, List.filter_map]
  congr 2
  funext r
  simp [hf]

theorem approve_own (h : Unique db) (device : Text) :
    (approvePasscodeReset requestId (some userId) (some device) now later (own userId db)).2 =
      (approvePasscodeReset requestId (some userId) (some device) now later db).2 := by
  have hown : Unique (own userId db) := h.sublist List.filter_sublist
  unfold approvePasscodeReset
  cases hfound : db.find? fun r => r.reset.requestId == requestId with
  | none =>
    have hnone : (own userId db).find? (fun r => r.reset.requestId == requestId) = none :=
      List.find?_eq_none.mpr fun r hr => List.find?_eq_none.mp hfound r (List.mem_of_mem_filter hr)
    rw [hnone]
  | some found =>
    have hmem := List.mem_of_find?_eq_some hfound
    have hid : found.reset.requestId = requestId := by simpa using List.find?_some hfound
    by_cases hmine : found.userId = userId
    · subst hmine
      rw [hown.find (List.mem_filter.mpr ⟨hmem, beq_self_eq_true _⟩) hid]
      have happrovable : ∀ r, approvable requestId found.userId (some device) now r = true → r.userId = found.userId := by
        intro r hr
        simp only [approvable, Bool.and_eq_true, beq_iff_eq] at hr
        exact hr.1.1.2
      dsimp only
      rw [any_own _ happrovable, own_map, read_own, miss_own]
      · split
        · rfl
        · split <;> rfl
      · intro r
        split <;> rfl
    · have hnone : (own userId db).find? (fun r => r.reset.requestId == requestId) = none := by
        refine List.find?_eq_none.mpr fun r hr hkey => hmine ?_
        obtain ⟨hr, huser⟩ := List.mem_filter.mp hr
        rw [← h.eq_of_id hr hmem ((beq_iff_eq.mp hkey).trans hid.symm)]
        exact beq_iff_eq.mp huser
      rw [hnone]
      simp [Ne.symm hmine]

/-- But for whether an id is free, a user's device is told the same whatever rows other users have. -/
theorem exec_blind (h : Unique db) (huser : userOf call = some userId) (hcall : ∀ reset, call ≠ .create userId reset) :
    (call.exec now later (own userId db)).2 = (call.exec now later db).2 := by
  cases call with
  | create u reset =>
    cases huser
    exact absurd rfl (hcall reset)
  | get id u =>
    cases huser
    exact congrArg (answerOf _) (read_own ..)
  | approve id caller =>
    obtain ⟨⟨u, d⟩, rfl, hu⟩ := Option.map_eq_some_iff.mp huser
    obtain rfl : u = userId := hu
    exact congrArg (answerOf _) (approve_own h d)
  | purge u =>
    cases huser
    show Answer.dropped _ = Answer.dropped _
    rw [own, List.filter_filter]
    congr 2
    refine List.filter_congr fun r _ => ?_
    cases r.userId == userId <;> simp
  | deny id u d =>
    cases huser
    have hdeniable : ∀ r, deniable id userId d r = true → r.userId = userId := by
      intro r hr
      simp only [deniable, Bool.and_eq_true, beq_iff_eq] at hr
      exact hr.1.2
    show answerOf _ (denyPasscodeReset ..).2 = answerOf _ (denyPasscodeReset ..).2
    unfold denyPasscodeReset
    rw [any_own _ hdeniable, miss_own]
    split <;> rfl

/-! ## Every call -/

/-- Years of four digits. -/
def FourDigits (t : Int) : Prop := 0 ≤ year t ∧ year t ≤ 9999

/-- A day later the year still has four digits. -/
def Early (t : Int) : Prop := 0 ≤ t ∧ year (t + resetTtl) ≤ 9999

theorem Early.fourDigits {t : Int} (h : Early t) : FourDigits t ∧ FourDigits (t + resetTtl) := by
  have hle : year t ≤ year (t + resetTtl) := year_le (by unfold resetTtl hours seconds; omega)
  have hstart := year_of_nonneg h.1
  have hend := h.2
  exact ⟨⟨by omega, by omega⟩, by omega, hend⟩

theorem live_iff (hnow : FourDigits now) (hrow : FourDigits r.reset.expires) :
    expired now r = false ↔ now ≤ r.reset.expires := by
  rw [expired, decide_eq_false_iff_not, toRfc3339_lt_iff hrow hnow]
  omega

/-- What a call may do, by who makes it. -/
structure Respects (e : Entry) : Prop where
  /-- Denying removes what another device of the user asked for. -/
  denied : ∀ requestId userId deviceId, e.call = .deny requestId userId deviceId → ∀ r ∈ e.before, r ∉ e.after →
    r.reset.requestId = requestId ∧ r.userId = userId ∧ r.reset.deviceId ≠ deviceId
  /-- A row that is not expired stays, unless it is approved or denied by one who may. -/
  kept : ∀ r ∈ e.before, e.now ≤ r.reset.expires → r ∈ e.after ∨ (r.approve ∈ e.after ∧ Approves e.call e.now r) ∨
    ∃ deviceId, e.call = .deny r.reset.requestId r.userId deviceId ∧ deviceId ≠ r.reset.deviceId
  /-- No user's device changes what others have asked for. -/
  others : ∀ userId, userOf e.call = some userId → ∀ r ∈ e.before, r.userId ≠ userId → e.now ≤ r.reset.expires →
    r ∈ e.after
  /-- A device is shown requests of its user. -/
  shown : ∀ userId owner reset, userOf e.call = some userId → e.answer = .reset owner reset →
    (⟨userId, reset⟩ : Row) ∈ e.after ∧ ∀ u ∈ owner, u = userId
  /-- The answer does not depend on other users' rows, except for whether an id is free. -/
  blind : ∀ userId, userOf e.call = some userId → (∀ reset, e.call ≠ .create userId reset) →
    e.answer = (e.call.exec e.now e.later (own userId e.before)).2

theorem respects_exec (h : Unique db) (hdated : ∀ r ∈ db, FourDigits r.reset.expires) (hnow : FourDigits now) :
    Respects ⟨call, now, later, db, (call.exec now later db).1, (call.exec now later db).2⟩ where
  denied := by
    rintro requestId userId deviceId rfl r hr hgone
    obtain hstays | ⟨-, happroves⟩ | hremoves := exec_before (.deny requestId userId deviceId) now later hr
    · exact absurd hstays hgone
    · obtain hcall | ⟨_, hcall, _⟩ := happroves.other <;> cases hcall
    · cases hremoves with
      | expired _ hcall => obtain hcall | ⟨_, hcall⟩ | ⟨_, _, hcall, _⟩ := hcall <;> cases hcall
      | denied device hcall hother =>
        cases hcall
        exact ⟨rfl, rfl, hother.symm⟩
  kept := by
    intro r hr hlive
    have hlive := (live_iff hnow (hdated r hr)).mpr hlive
    obtain hstays | happroves | hremoves := exec_before call now later hr
    · exact .inl hstays
    · exact .inr (.inl happroves)
    · cases hremoves with
      | expired hexpired _ =>
        rw [hlive] at hexpired
        cases hexpired
      | denied device hcall hother => exact .inr (.inr ⟨device, hcall, hother⟩)
  others := by
    intro userId huser r hr hother hlive
    have hlive := (live_iff hnow (hdated r hr)).mpr hlive
    obtain hstays | ⟨-, happroves⟩ | hremoves := exec_before call now later hr
    · exact hstays
    · obtain hcall | ⟨_, hcall, _⟩ := happroves.other
      · rw [show call = _ from hcall] at huser
        cases huser
      · rw [show call = _ from hcall] at huser
        exact absurd (Option.some.inj huser) hother
    · cases hremoves with
      | expired hexpired _ =>
        rw [hlive] at hexpired
        cases hexpired
      | denied device hcall _ =>
        rw [show call = _ from hcall] at huser
        exact absurd (Option.some.inj huser) hother
  shown userId owner reset huser hanswer := exec_shows huser hanswer
  blind userId huser hcall := (exec_blind h huser hcall).symm

/-! ## Every run -/

/-- Somewhere in the log the row was approved by one who may, before it expired, and since then it is there as it is. -/
def Vouched (log : List Entry) (r : Row) : Prop :=
  ∃ newer e older, log = newer ++ e :: older ∧ (∃ r₀ ∈ e.before, r = r₀.approve ∧ Approves e.call e.now r₀) ∧
    e.now ≤ r.reset.expires ∧ r ∈ e.after ∧ ∀ e' ∈ newer, r ∈ e'.before ∧ r ∈ e'.after

/-- Approved rows are vouched for, and every call respects the others' requests. -/
structure Guarded (s : Sys) : Prop where
  vouched : ∀ r ∈ s.db, r.reset.approved = true → Vouched s.log r
  respects : ∀ e ∈ s.log, Respects e

structure Inv (s : Sys) : Prop where
  guarded : Guarded s
  unique : Unique s.db
  dated : ∀ r ∈ s.db, FourDigits r.reset.expires
  asked : ∀ calls ∈ s.inFlight, ∀ userId reset, Call.create userId reset ∈ calls → FourDigits reset.expires

/-- The clock is read a day before the year 10000 at the latest. -/
def EarlyAction : Action → Prop
  | .arrive (.create _ _ now) => Early now
  | .arrive _ => True
  | .serve _ now _ => Early now

theorem Unique.exec (h : Unique db) (call : Call) (now later : Int) : Unique (call.exec now later db).1 := by
  cases call with
  | create userId reset =>
    show Unique (createPasscodeReset reset userId now db).1
    obtain heq | ⟨hfresh, heq⟩ := create_cases reset userId now db
    · rw [heq]
      exact h.sublist List.filter_sublist
    · rw [heq]
      exact List.pairwise_cons.mpr ⟨fun r hr => (hfresh r hr).symm, h.sublist List.filter_sublist⟩
  | get requestId userId => exact h
  | approve requestId caller =>
    show Unique (approvePasscodeReset ..).1
    obtain heq | ⟨userId, -, heq⟩ := approve_cases requestId caller now later db
    · rw [heq]
      exact h
    · rw [heq]
      refine List.pairwise_map.mpr (h.imp fun {r r'} hne => ?_)
      split <;> split <;> exact hne
  | purge userId => exact h.sublist List.filter_sublist
  | deny requestId userId callerDevice =>
    show Unique (denyPasscodeReset ..).1
    unfold denyPasscodeReset
    split
    · exact h.sublist List.filter_sublist
    · exact h

theorem dated_exec (hdated : ∀ r ∈ db, FourDigits r.reset.expires)
    (hcall : ∀ userId reset, call = .create userId reset → FourDigits reset.expires) :
    ∀ r ∈ (call.exec now later db).1, FourDigits r.reset.expires := by
  intro r hr
  obtain hold | ⟨r₀, hr₀, rfl, -⟩ | hnew := exec_after call now later hr
  · exact hdated r hold
  · exact hdated r₀ hr₀
  · obtain ⟨reset, hcreate, hreset⟩ := hnew.call
    rw [hreset]
    exact hcall r.userId reset hcreate

/-- An approved row was approved by this call, or stays. -/
theorem vouched_exec {log : List Entry} (hvouched : ∀ r ∈ db, r.reset.approved = true → Vouched log r)
    (hdated : ∀ r ∈ db, FourDigits r.reset.expires) (hnow : FourDigits now) (hr : r ∈ (call.exec now later db).1)
    (happroved : r.reset.approved = true) :
    Vouched (⟨call, now, later, db, (call.exec now later db).1, (call.exec now later db).2⟩ :: log) r := by
  obtain hold | ⟨r₀, hr₀, rfl, happroves⟩ | hnew := exec_after call now later hr
  · obtain ⟨newer, e, older, rfl, happroves, hexpires, hafter, hsince⟩ := hvouched r hold happroved
    refine ⟨_ :: newer, e, older, rfl, happroves, hexpires, hafter, fun e' he' => ?_⟩
    rcases List.mem_cons.mp he' with rfl | he'
    · exact ⟨hold, hr⟩
    · exact hsince e' he'
  · have hlive := (live_iff hnow (hdated r₀ hr₀)).mp happroves.live
    exact ⟨[], _, log, rfl, ⟨r₀, hr₀, rfl, happroves⟩, hlive, hr, fun _ he' => nomatch he'⟩
  · obtain ⟨reset, -, hreset⟩ := hnew.call
    rw [hreset] at happroved
    cases happroved

/-- A request asks for a row that expires a day later. -/
theorem asked_calls {request : Request} (h : EarlyAction (.arrive request)) {userId : Text} {reset : PasscodeReset}
    (hin : Call.create userId reset ∈ request.calls) : FourDigits reset.expires := by
  cases request with
  | create caller requestId now =>
    rw [Request.calls] at hin
    split at hin
    · simp only [List.mem_cons, Call.create.injEq, reduceCtorEq, List.not_mem_nil, or_self, or_false] at hin
      obtain ⟨-, rfl⟩ := hin
      exact h.fourDigits.2
    · exact nomatch hin
  | get caller requestId | approve requestId | deviceApprove caller requestId | deviceDeny caller requestId =>
    simp [Request.calls] at hin

theorem inv_step {s s' : Sys} {a : Action} (h : Inv s) (ha : EarlyAction a) (hstep : step s a = some s') : Inv s' := by
  cases a with
  | arrive request =>
    cases hstep
    refine ⟨⟨h.guarded.vouched, h.guarded.respects⟩, h.unique, h.dated, fun calls hcalls userId reset hin => ?_⟩
    rcases List.mem_cons.mp hcalls with rfl | hcalls
    · exact asked_calls ha hin
    · exact h.asked calls hcalls userId reset hin
  | serve index now later =>
    unfold step at hstep
    dsimp only at hstep
    split at hstep
    case h_1 call calls hnext =>
      cases hstep
      have hmem := List.mem_of_getElem? hnext
      have hnow := (Early.fourDigits ha).1
      refine ⟨⟨fun r hr => ?_, fun e he => ?_⟩, h.unique.exec call now later, ?_, fun calls' hcalls userId reset hin => ?_⟩
      · exact vouched_exec h.guarded.vouched h.dated hnow hr
      · rcases List.mem_cons.mp he with rfl | he
        · exact respects_exec h.unique h.dated hnow
        · exact h.guarded.respects e he
      · refine dated_exec h.dated fun userId reset hcall => h.asked _ hmem userId reset ?_
        rw [hcall]
        exact List.mem_cons_self
      · rcases List.mem_or_eq_of_mem_set hcalls with hcalls | rfl
        · exact h.asked _ hcalls userId reset hin
        · exact h.asked _ hmem userId reset (List.mem_cons_of_mem _ hin)
    case h_2 => cases hstep

theorem inv_new : Inv .new where
  guarded := ⟨fun _ hr => (nomatch hr), fun _ he => nomatch he⟩
  unique := .nil
  dated _ hr := nomatch hr
  asked _ hcalls := nomatch hcalls

/-- In a run whose clock stays a day below the year 10000, a reset is approved by the admin or by another device of
its user, before it expires, and no call removes, changes or shows what it must not. -/
theorem resets_are_guarded {actions : List Action} {s : Sys} (hearly : ∀ a ∈ actions, EarlyAction a)
    (hrun : run step .new actions = some s) : Guarded s := by
  have hstep : ∀ s a s', Inv s → EarlyAction a → step s a = some s' → Inv s' := fun s a s' => inv_step
  exact (invariant_of_allGood hstep inv_new (allGood_of_forall hearly) hrun).guarded

/-! ## A run in time, and one too late -/

/-- 1 January 2026, and noon of 31 December 9999. -/
def newYear : Int := days 20454
def lastNoon : Int := days 2932896 + hours 12

def tabletA : Caller := ⟨"user-1".toList, "tablet-a".toList, "remarkable".toList⟩
def tabletB : Caller := ⟨"user-1".toList, "tablet-b".toList, "remarkable".toList⟩
def tabletM : Caller := ⟨"user-2".toList, "tablet-m".toList, "remarkable".toList⟩

def request : Text := "request".toList

/-- The tablet asks, and the other one of its user approves. -/
def approvingRun : List Action :=
  [.arrive (.create tabletA request newYear), .serve 0 newYear newYear, .serve 0 newYear newYear,
   .arrive (.deviceApprove tabletB request), .serve 0 (newYear + hours 1) (newYear + hours 1),
   .serve 0 (newYear + hours 1) (newYear + hours 1)]

instance (t : Int) : Decidable (Early t) := inferInstanceAs (Decidable (_ ∧ _))

instance : (a : Action) → Decidable (EarlyAction a)
  | .arrive (.create _ _ now) => inferInstanceAs (Decidable (Early now))
  | .arrive (.get ..) | .arrive (.approve _) | .arrive (.deviceApprove ..) | .arrive (.deviceDeny ..) => .isTrue trivial
  | .serve _ now _ => inferInstanceAs (Decidable (Early now))

theorem other_tablet_approves : ∃ s, run step .new approvingRun = some s ∧
    s.db.map (·.reset.approved) = [true] ∧ Guarded s := by
  have hend : (run step .new approvingRun).map (·.db.map (·.reset.approved)) = some [true] := by decide +kernel
  obtain ⟨s, hrun, hs⟩ := Option.map_eq_some_iff.mp hend
  exact ⟨s, hrun, hs, resets_are_guarded (by decide +kernel) hrun⟩

/-- Another user asks under the id of a request that expires in the year 10000. -/
def lateRun : List Action :=
  [.arrive (.create tabletA request lastNoon), .serve 0 lastNoon lastNoon,
   .arrive (.create tabletM request (lastNoon + hours 1)), .serve 0 (lastNoon + hours 1) (lastNoon + hours 1)]

theorem late_reset_is_taken_over : ¬ ∀ actions s, run step .new actions = some s → Guarded s := by
  intro h
  have hend : (run step .new lateRun).map (fun s => s.log.head?.map fun e => (e.call, e.now, e.before, e.after)) =
      some (some (.create tabletM.userId (newReset tabletM request (lastNoon + hours 1)), lastNoon + hours 1,
        [⟨tabletA.userId, newReset tabletA request lastNoon⟩],
        [⟨tabletM.userId, newReset tabletM request (lastNoon + hours 1)⟩])) := by decide +kernel
  obtain ⟨s, hrun, hs⟩ := Option.map_eq_some_iff.mp hend
  obtain ⟨e, he, hentry⟩ := Option.map_eq_some_iff.mp hs
  obtain ⟨hcall, hnow, hbefore, hafter⟩ : e.call = _ ∧ e.now = _ ∧ e.before = _ ∧ e.after = _ := by
    simpa only [Prod.mk.injEq] using hentry
  have hothers := ((h lateRun s hrun).respects e (List.mem_of_mem_head? he)).others tabletM.userId
  rw [hcall, hnow, hbefore, hafter] at hothers
  exact absurd (hothers rfl _ List.mem_cons_self (by decide) (by decide)) (by decide)

end PasscodeApprovals
