import RemarkableServer.Lib.Transition
import RemarkableServer.OAuth

/-!
# Device codes are redeemed once, by the user who approved them

What each operation does to the outstanding codes, and what holds of them and of
the codes whose bundle is being minted in every run. A code that is restored comes
back into a table that may have filled up, or given its user code away, while it
was taken.
-/
namespace OAuthCodes

open RustText OAuth Transition

variable {c : PendingCodes} {now : Nat}

/-! ## Tables -/

section Table

variable {K V : Type} {t : Table K V} {k k' : K} {v v' : V}

theorem len_eq_keys : Table.len t = t.keys.length := (List.length_map ..).symm

theorem minByKey_mem {f : V → Nat} {p : V → Bool} (h : Table.minByKey f p t = some k) : k ∈ t := by
  obtain ⟨e, he, rfl⟩ := Option.map_eq_some_iff.mp h
  have hmem : e ∈ t.entries := List.mem_of_mem_filter (List.minOn?_mem he)
  exact AList.mem_keys.mpr (List.mem_map_of_mem hmem)

theorem minByKey_none {f : V → Nat} (h : Table.minByKey f (fun _ => true) t = none) : Table.len t = 0 := by
  unfold Table.minByKey at h
  rw [Option.map_eq_none_iff, ← Option.not_isSome_iff_eq_none, List.isSome_minOn?_iff, not_not] at h
  simp only [List.filter_true] at h
  simp [Table.len, h]

variable [DecidableEq K]

theorem len_erase_lt (h : k ∈ t) : Table.len (t.erase k) + 1 = Table.len t := by
  have hk : k ∈ t.keys := AList.mem_keys.mp h
  rw [len_eq_keys, len_eq_keys, AList.keys_erase, List.length_erase_of_mem hk]
  exact Nat.sub_add_cancel (List.length_pos_of_mem hk)

theorem len_insert_le : Table.len (t.insert k v) ≤ Table.len t + 1 := by
  rw [len_eq_keys, len_eq_keys, AList.keys_insert, List.length_cons]
  exact Nat.add_le_add_right (List.length_erase_le ..) 1

theorem len_insert_of_mem (h : k ∈ t) : Table.len (t.insert k v) = Table.len t := by
  have hk : k ∈ t.keys := AList.mem_keys.mp h
  rw [len_eq_keys, len_eq_keys, AList.keys_insert, List.length_cons, List.length_erase_of_mem hk]
  exact Nat.sub_add_cancel (List.length_pos_of_mem hk)

theorem mem_of_lookup (h : t.lookup k = some v) : k ∈ t := AList.lookup_isSome.mp (by simp [h])

/-- What is in a table after an insertion. -/
theorem lookup_insert_some (h : (t.insert k v).lookup k' = some v') :
    (k' = k ∧ v' = v) ∨ (k' ≠ k ∧ t.lookup k' = some v') := by
  by_cases hk : k' = k
  · subst hk
    rw [AList.lookup_insert] at h
    exact .inl ⟨rfl, (Option.some.inj h).symm⟩
  · rw [AList.lookup_insert_ne hk] at h
    exact .inr ⟨hk, h⟩

end Table

/-! ## Operations on the outstanding codes -/

/-- The codes of `c'` are codes of `c`, unchanged. -/
structure Within (c' c : PendingCodes) : Prop where
  cap : c'.cap = c.cap
  entries : c'.map.entries.Sublist c.map.entries

theorem Within.refl (c : PendingCodes) : Within c c := ⟨rfl, List.Sublist.refl _⟩

theorem Within.trans {c₁ c₂ c₃ : PendingCodes} (h : Within c₁ c₂) (h' : Within c₂ c₃) : Within c₁ c₃ :=
  ⟨h.cap.trans h'.cap, h.entries.trans h'.entries⟩

theorem Within.lookup {c' : PendingCodes} (h : Within c' c) {deviceCode : Text} {p : Pending}
    (hp : c'.map.lookup deviceCode = some p) : c.map.lookup deviceCode = some p :=
  AList.mem_lookup_iff.mpr (h.entries.subset (AList.mem_lookup_iff.mp hp))

theorem Within.len {c' : PendingCodes} (h : Within c' c) : c'.map.len ≤ c.map.len := h.entries.length_le

theorem within_drop (deviceCode : Text) : Within (c.drop now deviceCode) c := ⟨rfl, List.kerase_sublist ..⟩

theorem within_foldl_drop (gone : List Text) : Within (gone.foldl (PendingCodes.drop now) c) c := by
  induction gone generalizing c with
  | nil => exact .refl c
  | cons k gone ih => exact ih.trans (within_drop k)

/-- A dropped code is not outstanding any more. -/
theorem foldl_drop_lookup (gone : List Text) {k : Text} (hk : k ∈ gone) :
    (gone.foldl (PendingCodes.drop now) c).map.lookup k = none := by
  induction gone generalizing c with
  | nil => exact nomatch hk
  | cons k' gone ih =>
    rcases List.mem_cons.mp hk with rfl | hk
    · rw [← Option.not_isSome_iff_eq_none]
      intro hsome
      obtain ⟨p, hp⟩ := Option.isSome_iff_exists.mp hsome
      have hdropped := (within_foldl_drop gone).lookup hp
      simp [PendingCodes.drop, PendingCodes.rememberExpired] at hdropped
    · exact ih hk

/-- The others stay. -/
theorem foldl_drop_keeps (gone : List Text) {k : Text} (hk : k ∉ gone) :
    (gone.foldl (PendingCodes.drop now) c).map.lookup k = c.map.lookup k := by
  induction gone generalizing c with
  | nil => rfl
  | cons k' gone ih =>
    rw [List.mem_cons, not_or] at hk
    rw [List.foldl_cons, ih hk.2]
    exact AList.lookup_erase_ne hk.1

theorem within_evict : Within (c.evict now) c :=
  ⟨(@within_foldl_drop c now _).cap, (@within_foldl_drop c now _).entries⟩

theorem evict_live {deviceCode : Text} {p : Pending} (hp : (c.evict now).map.lookup deviceCode = some p) :
    PendingCodes.isExpired now p = false := by
  rw [← Bool.not_eq_true]
  intro hexpired
  have hmem := AList.mem_lookup_iff.mp (within_evict.lookup hp)
  have hgone : deviceCode ∈ (c.map.entries.filter fun e => PendingCodes.isExpired now e.2).map (·.1) :=
    List.mem_map_of_mem (f := (·.1)) (List.mem_filter.mpr ⟨hmem, hexpired⟩)
  have hnone := @foldl_drop_lookup c now _ _ hgone
  exact absurd (hnone.symm.trans hp) (by simp)

theorem evict_keeps {deviceCode : Text} {p : Pending} (hp : c.map.lookup deviceCode = some p)
    (hlive : PendingCodes.isExpired now p = false) : (c.evict now).map.lookup deviceCode = some p := by
  refine (foldl_drop_keeps _ ?_).trans hp
  intro hgone
  obtain ⟨⟨k, p'⟩, he, rfl⟩ := List.mem_map.mp hgone
  obtain ⟨hmem, hexpired⟩ := List.mem_filter.mp he
  have hp' : c.map.lookup k = some p' := AList.mem_lookup_iff.mpr hmem
  rw [hp] at hp'
  cases hp'
  simp [hlive] at hexpired

theorem within_makeRoom (rounds : Nat) : Within (c.makeRoom now rounds) c := by
  induction rounds generalizing c with
  | zero => exact .refl c
  | succ rounds ih =>
    rw [PendingCodes.makeRoom]
    split
    · split
      · exact ih.trans (within_drop _)
      · exact .refl c
    · exact .refl c

theorem victim_mem {map : Table Text Pending} {k : Text} (h : PendingCodes.victim map = some k) : k ∈ map := by
  rcases Option.or_eq_some_iff.mp h with h | ⟨-, h⟩
  · exact minByKey_mem h
  · exact minByKey_mem h

theorem victim_none {map : Table Text Pending} (h : PendingCodes.victim map = none) : map.len = 0 :=
  minByKey_none (Option.or_eq_none_iff.mp h).2

/-- There is room for one code more. -/
theorem makeRoom_room {rounds : Nat} (hcap : 0 < c.cap) (hrounds : c.map.len ≤ rounds) :
    (c.makeRoom now rounds).map.len < c.cap := by
  induction rounds generalizing c with
  | zero =>
    rw [PendingCodes.makeRoom]
    omega
  | succ rounds ih =>
    rw [PendingCodes.makeRoom]
    split
    case isFalse h => omega
    case isTrue h =>
      split
      case h_1 k hvictim =>
        have hlen := len_erase_lt (victim_mem hvictim)
        have hroom : (c.drop now k).map.len ≤ rounds := by
          change Table.len (c.map.erase k) ≤ rounds
          omega
        exact ih hcap hroom
      case h_2 hnone =>
        have := victim_none hnone
        omega

/-- Nothing is dropped while there is room. -/
theorem makeRoom_of_room {rounds : Nat} (h : c.map.len < c.cap) : c.makeRoom now rounds = c := by
  cases rounds with
  | zero => rfl
  | succ rounds =>
    rw [PendingCodes.makeRoom, if_neg]
    omega

theorem mem_withUserCode {k userCode : Text} :
    k ∈ c.withUserCode userCode ↔ ∃ p, c.map.lookup k = some p ∧ p.userCode = userCode := by
  unfold PendingCodes.withUserCode
  constructor
  · intro h
    obtain ⟨e, he, rfl⟩ := List.mem_map.mp h
    obtain ⟨hmem, hcode⟩ := List.mem_filter.mp he
    exact ⟨e.2, AList.mem_lookup_iff.mpr hmem, by simpa using hcode⟩
  · rintro ⟨p, hp, rfl⟩
    exact List.mem_map.mpr ⟨⟨k, p⟩, List.mem_filter.mpr ⟨AList.mem_lookup_iff.mp hp, by simp⟩, rfl⟩

/-- An approval marks one code with the user code, if one is outstanding. -/
theorem approve_cases (userCode userId : Text) (c : PendingCodes) (now : Nat) :
    ((c.approve userCode userId now).2 = c.evict now ∧ (c.evict now).withUserCode userCode = []) ∨
    ∃ k p, (c.evict now).map.lookup k = some p ∧ p.userCode = userCode ∧
      (c.approve userCode userId now).2 =
        { c.evict now with map := (c.evict now).map.insert k { p with approvedBy := some userId } } := by
  dsimp only [PendingCodes.approve]
  cases hfind : (c.evict now).map.entries.find? fun e => e.2.userCode == userCode with
  | none =>
    refine .inl ⟨rfl, ?_⟩
    rw [List.find?_eq_none] at hfind
    unfold PendingCodes.withUserCode
    rw [List.map_eq_nil_iff, List.filter_eq_nil_iff]
    exact hfind
  | some e =>
    have hcode := List.find?_some hfind
    exact .inr ⟨e.1, e.2, AList.mem_lookup_iff.mpr (List.mem_of_find?_eq_some hfind), by simpa using hcode, rfl⟩

/-- A poll takes an approved code out; another code stays as it is, but for its interval and last poll. -/
theorem poll_cases (k : Text) (c : PendingCodes) (now : Nat) :
    ((c.poll k now).1.2 = none ∧ (c.poll k now).2 = c.evict now) ∨
    (∃ p p', (c.evict now).map.lookup k = some p ∧ p'.userCode = p.userCode ∧ p'.issuedAt = p.issuedAt ∧
      p'.approvedBy = p.approvedBy ∧ (c.poll k now).1.2 = none ∧
      (c.poll k now).2 = { c.evict now with map := (c.evict now).map.insert k p' }) ∨
    ∃ p, (c.evict now).map.lookup k = some p ∧ p.approvedBy.isSome ∧ (c.poll k now).1.2 = some p ∧
      (c.poll k now).2 = { c.evict now with map := (c.evict now).map.erase k } := by
  cases hlookup : (c.evict now).map.lookup k with
  | none => exact .inl (by simp [PendingCodes.poll, hlookup])
  | some p =>
    cases happroved : p.approvedBy with
    | none =>
      by_cases hearly : PendingCodes.isEarly now p
      · have hpoll : (c.poll k now).1.2 = none ∧ (c.poll k now).2 = { c.evict now with
            map := (c.evict now).map.insert k
              { p with lastPoll := some now, interval := p.interval + slowDownStep } } := by
          simp [PendingCodes.poll, hlookup, happroved, hearly]
        exact .inr (.inl ⟨p, _, rfl, by simp, by simp, by simp, hpoll⟩)
      · have hpoll : (c.poll k now).1.2 = none ∧ (c.poll k now).2 =
            { c.evict now with map := (c.evict now).map.insert k { p with lastPoll := some now } } := by
          simp [PendingCodes.poll, hlookup, happroved, hearly]
        exact .inr (.inl ⟨p, _, rfl, by simp, by simp, by simp, hpoll⟩)
    | some userId =>
      have hpoll : (c.poll k now).1.2 = some p ∧
          (c.poll k now).2 = { c.evict now with map := (c.evict now).map.erase k } := by
        simp [PendingCodes.poll, hlookup, happroved]
      exact .inr (.inr ⟨p, rfl, by simp [happroved], hpoll⟩)

/-! ## Codes that can still be redeemed -/

variable {s s' : Sys} {deviceCode : Text} {p : Pending}

/-- The code is outstanding, or its bundle is being minted. -/
def Held (s : Sys) (deviceCode : Text) (p : Pending) : Prop :=
  s.codes.map.lookup deviceCode = some p ∨ (deviceCode, p) ∈ s.taken

/-- The device code was handed out. -/
def Known (s : Sys) (deviceCode : Text) : Prop := deviceCode ∈ s.handedOut.map (·.1)

/-- The last approval of the device code: by whom, and when. -/
def lastApproval (deviceCode : Text) (s : Sys) : Option (Text × Nat) :=
  (s.approvals.find? (·.1 == deviceCode)).map (·.2)

/-- Device codes are fresh, and the user code of a new code was checked. -/
def Checked (s : Sys) : Action → Prop
  | .insert deviceCode userCode _ _ => ¬ Known s deviceCode ∧ s.codes.hasUserCode userCode = false
  | _ => True

/-- A code that is restored finds room, and its user code was not given away. -/
def RestoreFits (s : Sys) : Action → Prop
  | .restore deviceCode =>
    s.codes.map.len < s.codes.cap ∧
      ∀ e ∈ s.taken, e.1 = deviceCode → s.codes.hasUserCode e.2.userCode = false
  | _ => True

instance (s : Sys) : (a : Action) → Decidable (Checked s a)
  | .insert deviceCode userCode _ _ =>
    inferInstanceAs (Decidable (¬ deviceCode ∈ s.handedOut.map (·.1) ∧ s.codes.hasUserCode userCode = false))
  | .approve .. | .poll .. | .issue _ | .restore _ | .reorder .. => .isTrue trivial

instance (s : Sys) : (a : Action) → Decidable (RestoreFits s a)
  | .restore deviceCode =>
    inferInstanceAs (Decidable (s.codes.map.len < s.codes.cap ∧
      ∀ e ∈ s.taken, e.1 = deviceCode → s.codes.hasUserCode e.2.userCode = false))
  | .insert .. | .approve .. | .poll .. | .issue _ | .reorder .. => .isTrue trivial

/-- At most one bundle for a device code. -/
def Once (s : Sys) : Prop := (s.issued.map (·.1)).Nodup

/-- Every bundle is for a user who approved its code before it expired. -/
def Approved (s : Sys) : Prop :=
  ∀ b ∈ s.issued, ∃ issuedAt approvedAt, (b.1, issuedAt) ∈ s.handedOut ∧ (b.1, b.2, approvedAt) ∈ s.approvals ∧
    approvedAt ≤ issuedAt + deviceCodeTtl

/-- Every bundle is for the user who approved its code last, before it expired. -/
def ForLastApprover (s : Sys) : Prop :=
  ∀ b ∈ s.issued, ∃ issuedAt approvedAt, (b.1, issuedAt) ∈ s.handedOut ∧
    lastApproval b.1 s = some (b.2, approvedAt) ∧ approvedAt ≤ issuedAt + deviceCodeTtl

/-- No two outstanding codes have one user code. -/
def DistinctUserCodes (c : PendingCodes) : Prop :=
  (c.map.entries.map fun e => e.2.userCode).Nodup

/-- What holds whatever the restored codes come back to. -/
structure Inv (s : Sys) : Prop where
  apart : ∀ e ∈ s.taken, s.codes.map.lookup e.1 = none
  handed : ∀ k p, Held s k p → (k, p.issuedAt) ∈ s.handedOut
  gone : ∀ b ∈ s.issued, Known s b.1 ∧ ∀ p, ¬ Held s b.1 p
  once : Once s
  approved : ∀ k p user, Held s k p → p.approvedBy = some user →
    ∃ at', (k, user, at') ∈ s.approvals ∧ at' ≤ p.issuedAt + deviceCodeTtl
  takenApproved : ∀ e ∈ s.taken, e.2.approvedBy.isSome
  bundles : Approved s

theorem Inv.known (h : Inv s) {k : Text} (hk : Held s k p) : Known s k := List.mem_map_of_mem (h.handed k p hk)

theorem inv_new (cap clock : Nat) : Inv (.new cap clock) where
  apart := by simp [Sys.new]
  handed k p h := by simp [Held, Sys.new, PendingCodes.new] at h
  gone := by simp [Sys.new]
  once := List.nodup_nil
  approved k p user h := by simp [Held, Sys.new, PendingCodes.new] at h
  takenApproved := by simp [Sys.new]
  bundles := by simp [Approved, Sys.new]

/-- The codes that can be redeemed after a step were there before, and nothing was issued or approved. -/
theorem Inv.of_held (h : Inv s)
    (hheld : ∀ k p, Held s' k p → ∃ p₀, Held s k p₀ ∧ p.issuedAt = p₀.issuedAt ∧ p.approvedBy = p₀.approvedBy)
    (hapart : ∀ e ∈ s'.taken, s'.codes.map.lookup e.1 = none)
    (htaken : ∀ e ∈ s'.taken, e.2.approvedBy.isSome)
    (hhanded : s'.handedOut = s.handedOut) (happrovals : s'.approvals = s.approvals) (hissued : s'.issued = s.issued) :
    Inv s' where
  apart := hapart
  handed k p hk := by
    obtain ⟨p₀, hp₀, hat, -⟩ := hheld k p hk
    rw [hhanded, hat]
    exact h.handed k p₀ hp₀
  gone b hb := by
    rw [hissued] at hb
    obtain ⟨hknown, hnot⟩ := h.gone b hb
    refine ⟨by rwa [Known, hhanded], fun p hp => ?_⟩
    obtain ⟨p₀, hp₀, -⟩ := hheld b.1 p hp
    exact hnot p₀ hp₀
  once := by
    unfold Once
    rw [hissued]
    exact h.once
  approved k p user hk huser := by
    obtain ⟨p₀, hp₀, hat, hby⟩ := hheld k p hk
    rw [happrovals, hat]
    exact h.approved k p₀ user hp₀ (hby ▸ huser)
  takenApproved := htaken
  bundles b hb := by
    rw [hissued] at hb
    rw [hhanded, happrovals]
    exact h.bundles b hb

theorem lookup_none_of_within {c' : PendingCodes} (h : Within c' c) {k : Text} (hk : c.map.lookup k = none) :
    c'.map.lookup k = none := by
  cases hp : c'.map.lookup k with
  | none => rfl
  | some p => simp [h.lookup hp] at hk

theorem evict_apart (h : Inv s) : ∀ e ∈ s.taken, (s.codes.evict now).map.lookup e.1 = none :=
  fun e he => lookup_none_of_within within_evict (h.apart e he)

theorem live_bound (hlive : PendingCodes.isExpired now p = false) : now ≤ p.issuedAt + deviceCodeTtl := by
  simp only [PendingCodes.isExpired, decide_eq_false_iff_not] at hlive
  omega

theorem inv_insert (h : Inv s) {userCode deviceId : Text} (hfresh : ¬ Known s deviceCode) :
    Inv { s with
      codes := s.codes.insert deviceCode userCode deviceId now
      clock := now
      handedOut := (deviceCode, now) :: s.handedOut } := by
  have hwithin : Within ((s.codes.evict now).makeRoom now (s.codes.evict now).map.len) s.codes :=
    (within_makeRoom _).trans within_evict
  have hheld : ∀ k p, Held { s with
      codes := s.codes.insert deviceCode userCode deviceId now
      clock := now
      handedOut := (deviceCode, now) :: s.handedOut } k p →
      (k = deviceCode ∧ p.issuedAt = now ∧ p.approvedBy = none) ∨ Held s k p := by
    rintro k p (hp | hp)
    · rcases lookup_insert_some hp with ⟨rfl, rfl⟩ | ⟨-, hp⟩
      · exact .inl ⟨rfl, rfl, rfl⟩
      · exact .inr (.inl (hwithin.lookup hp))
    · exact .inr (.inr hp)
  refine ⟨fun e he => ?_, fun k p hk => ?_, fun b hb => ?_, h.once, fun k p user hk huser => ?_, h.takenApproved,
    fun b hb => ?_⟩
  · have hne : e.1 ≠ deviceCode := by
      rintro rfl
      exact hfresh (h.known (.inr he))
    exact (AList.lookup_insert_ne hne).trans (lookup_none_of_within hwithin (h.apart e he))
  · rcases hheld k p hk with ⟨rfl, rfl, -⟩ | hk
    · exact List.mem_cons_self
    · exact List.mem_cons_of_mem _ (h.handed k p hk)
  · obtain ⟨hknown, hnot⟩ := h.gone b hb
    refine ⟨List.mem_cons_of_mem _ hknown, fun p hp => ?_⟩
    rcases hheld b.1 p hp with ⟨hb, -⟩ | hp
    · exact hfresh (hb ▸ hknown)
    · exact hnot p hp
  · rcases hheld k p hk with ⟨-, -, hnone⟩ | hk
    · simp [hnone] at huser
    · exact h.approved k p user hk huser
  · obtain ⟨issuedAt, approvedAt, hhanded, hrest⟩ := h.bundles b hb
    exact ⟨issuedAt, approvedAt, List.mem_cons_of_mem _ hhanded, hrest⟩

/-- An approval leaves the codes as they are, but for the approver of one that has the user code. -/
theorem held_approve (userCode userId : Text) (now : Nat) {k : Text}
    (hk : Held (s.approve userCode userId now) k p) :
    ∃ p₀, Held s k p₀ ∧ p.issuedAt = p₀.issuedAt ∧ (p.approvedBy = p₀.approvedBy ∨
      (p.approvedBy = some userId ∧ k ∈ (s.codes.evict now).withUserCode userCode ∧
        now ≤ p₀.issuedAt + deviceCodeTtl)) := by
  rcases hk with hk | hk
  · change (s.codes.approve userCode userId now).2.map.lookup k = some p at hk
    rcases approve_cases userCode userId s.codes now with ⟨heq, -⟩ | ⟨k', p', hp', hcode, heq⟩
    · rw [heq] at hk
      exact ⟨p, .inl (within_evict.lookup hk), rfl, .inl rfl⟩
    · rw [heq] at hk
      rcases lookup_insert_some hk with ⟨rfl, rfl⟩ | ⟨-, hk⟩
      · refine ⟨p', .inl (within_evict.lookup hp'), rfl, .inr ⟨rfl, ?_, live_bound (evict_live hp')⟩⟩
        exact mem_withUserCode.mpr ⟨p', hp', hcode⟩
      · exact ⟨p, .inl (within_evict.lookup hk), rfl, .inl rfl⟩
  · exact ⟨p, .inr hk, rfl, .inl rfl⟩

theorem inv_approve (h : Inv s) (userCode userId : Text) :
    Inv { s.approve userCode userId now with clock := now } := by
  have hheld := fun k p => held_approve (s := s) (p := p) userCode userId now (k := k)
  refine ⟨fun e he => ?_, fun k p hk => ?_, fun b hb => ?_, h.once, fun k p user hk huser => ?_, h.takenApproved,
    fun b hb => ?_⟩
  · change (s.codes.approve userCode userId now).2.map.lookup e.1 = none
    have hnone : (s.codes.evict now).map.lookup e.1 = none := evict_apart h e he
    rcases approve_cases userCode userId s.codes now with ⟨heq, -⟩ | ⟨k, p, hp, -, heq⟩
    · rw [heq]
      exact hnone
    · rw [heq]
      refine (AList.lookup_insert_ne ?_).trans hnone
      rintro rfl
      simp [hp] at hnone
  · obtain ⟨p₀, hp₀, hat, -⟩ := hheld k p hk
    rw [hat]
    exact h.handed k p₀ hp₀
  · obtain ⟨hknown, hnot⟩ := h.gone b hb
    refine ⟨hknown, fun p hp => ?_⟩
    obtain ⟨p₀, hp₀, -⟩ := hheld b.1 p hp
    exact hnot p₀ hp₀
  · obtain ⟨p₀, hp₀, hat, hby | ⟨hby, hout, hlive⟩⟩ := hheld k p hk
    · obtain ⟨at', hmem, hle⟩ := h.approved k p₀ user hp₀ (hby ▸ huser)
      exact ⟨at', List.mem_append_right _ hmem, hat ▸ hle⟩
    · rw [hby] at huser
      cases huser
      exact ⟨now, List.mem_append_left _ (List.mem_map.mpr ⟨k, hout, rfl⟩), hat ▸ hlive⟩
  · obtain ⟨issuedAt, approvedAt, hhanded, happroved, hle⟩ := h.bundles b hb
    exact ⟨issuedAt, approvedAt, hhanded, List.mem_append_right _ happroved, hle⟩

/-- A poll leaves the codes as they are, but for their intervals and last polls. -/
theorem held_poll (deviceCode : Text) (now : Nat) {k : Text} (hk : Held (s.poll deviceCode now) k p) :
    ∃ p₀, Held s k p₀ ∧ p.userCode = p₀.userCode ∧ p.issuedAt = p₀.issuedAt ∧ p.approvedBy = p₀.approvedBy := by
  unfold Held Sys.poll at hk
  rcases poll_cases deviceCode s.codes now with ⟨hnone, heq⟩ | ⟨p', p'', hp', hcode, hat, hby, hnone, heq⟩ |
    ⟨p', hp', -, hsome, heq⟩
  · simp only [hnone, heq] at hk
    rcases hk with hk | hk
    · exact ⟨p, .inl (within_evict.lookup hk), rfl, rfl, rfl⟩
    · exact ⟨p, .inr hk, rfl, rfl, rfl⟩
  · simp only [hnone, heq] at hk
    rcases hk with hk | hk
    · rcases lookup_insert_some hk with ⟨rfl, rfl⟩ | ⟨-, hk⟩
      · exact ⟨p', .inl (within_evict.lookup hp'), hcode, hat, hby⟩
      · exact ⟨p, .inl (within_evict.lookup hk), rfl, rfl, rfl⟩
    · exact ⟨p, .inr hk, rfl, rfl, rfl⟩
  · simp only [hsome, heq, Option.map_some, Option.toList_some, List.cons_append, List.nil_append,
      List.mem_cons, Prod.mk.injEq] at hk
    rcases hk with hk | ⟨rfl, rfl⟩ | hk
    · have hne : k ≠ deviceCode := by
        rintro rfl
        simp at hk
      rw [AList.lookup_erase_ne hne] at hk
      exact ⟨p, .inl (within_evict.lookup hk), rfl, rfl, rfl⟩
    · exact ⟨p, .inl (within_evict.lookup hp'), rfl, rfl, rfl⟩
    · exact ⟨p, .inr hk, rfl, rfl, rfl⟩

theorem poll_apart (h : Inv s) : ∀ e ∈ (s.poll deviceCode now).taken,
    (s.poll deviceCode now).codes.map.lookup e.1 = none := by
  intro e he
  unfold Sys.poll at he ⊢
  rcases poll_cases deviceCode s.codes now with ⟨hnone, heq⟩ | ⟨p', p'', hp', -, -, -, hnone, heq⟩ |
    ⟨p', hp', -, hsome, heq⟩
  · simp only [hnone, heq] at he ⊢
    exact evict_apart h e he
  · simp only [hnone, heq] at he ⊢
    have hlookup : (s.codes.evict now).map.lookup e.1 = none := evict_apart h e he
    refine (AList.lookup_insert_ne ?_).trans hlookup
    rintro rfl
    simp [hp'] at hlookup
  · simp only [hsome, heq, Option.map_some, Option.toList_some, List.cons_append, List.nil_append,
      List.mem_cons] at he ⊢
    by_cases hne : e.1 = deviceCode
    · rw [hne]
      exact AList.lookup_erase _ _
    · rcases he with rfl | he
      · exact absurd rfl hne
      · rw [AList.lookup_erase_ne hne]
        exact evict_apart h e he

theorem poll_taken (h : Inv s) : ∀ e ∈ (s.poll deviceCode now).taken, e.2.approvedBy.isSome := by
  intro e he
  unfold Sys.poll at he
  rcases poll_cases deviceCode s.codes now with ⟨hnone, -⟩ | ⟨-, -, -, -, -, -, hnone, -⟩ | ⟨p', -, hby, hsome, -⟩
  · simp only [hnone] at he
    exact h.takenApproved e he
  · simp only [hnone] at he
    exact h.takenApproved e he
  · simp only [hsome, Option.map_some, Option.toList_some, List.cons_append, List.nil_append, List.mem_cons] at he
    rcases he with rfl | he
    · exact hby
    · exact h.takenApproved e he

theorem inv_poll (h : Inv s) : Inv { s.poll deviceCode now with clock := now } := by
  refine h.of_held (fun k p hk => ?_) (poll_apart h) (poll_taken h) rfl rfl rfl
  obtain ⟨p₀, hp₀, -, hat, hby⟩ := held_poll (s := s) deviceCode now hk
  exact ⟨p₀, hp₀, hat, hby⟩

theorem mem_leave {e : Text × Pending} : e ∈ (s.leave deviceCode).taken ↔ e ∈ s.taken ∧ e.1 ≠ deviceCode := by
  simp [Sys.leave]

theorem mem_of_find_taken {e : Text × Pending} (h : s.taken.find? (·.1 == deviceCode) = some e) :
    e ∈ s.taken ∧ e.1 = deviceCode :=
  ⟨List.mem_of_find?_eq_some h, by simpa using List.find?_some h⟩

theorem inv_issue (h : Inv s) {e : Text × Pending} (he : e ∈ s.taken) :
    Inv { s.leave e.1 with issued := (e.1, e.2.approvedBy.getD []) :: s.issued } := by
  have hheld : ∀ k p, Held { s.leave e.1 with issued := (e.1, e.2.approvedBy.getD []) :: s.issued } k p →
      Held s k p ∧ k ≠ e.1 := by
    rintro k p (hp | hp)
    · refine ⟨.inl hp, ?_⟩
      rintro rfl
      exact absurd ((h.apart e he).symm.trans hp) (by simp)
    · exact ⟨.inr (mem_leave.mp hp).1, (mem_leave.mp hp).2⟩
  refine ⟨fun e' he' => h.apart e' (mem_leave.mp he').1, fun k p hk => h.handed k p (hheld k p hk).1, ?_, ?_,
    fun k p user hk => h.approved k p user (hheld k p hk).1, fun e' he' => h.takenApproved e' (mem_leave.mp he').1, ?_⟩
  · intro b hb
    rcases List.mem_cons.mp hb with rfl | hb
    · exact ⟨h.known (.inr he), fun p hp => (hheld _ p hp).2 rfl⟩
    · exact ⟨(h.gone b hb).1, fun p hp => (h.gone b hb).2 p (hheld b.1 p hp).1⟩
  · refine List.nodup_cons.mpr ⟨fun hin => ?_, h.once⟩
    obtain ⟨b, hb, hkey⟩ := List.mem_map.mp hin
    exact (h.gone b hb).2 e.2 (hkey ▸ .inr he)
  · intro b hb
    rcases List.mem_cons.mp hb with rfl | hb
    · obtain ⟨user, huser⟩ := Option.isSome_iff_exists.mp (h.takenApproved e he)
      obtain ⟨at', hmem, hle⟩ := h.approved e.1 e.2 user (.inr he) huser
      refine ⟨e.2.issuedAt, at', h.handed e.1 e.2 (.inr he), ?_, hle⟩
      rw [huser]
      exact hmem
    · exact h.bundles b hb

theorem held_restore {e : Text × Pending} (he : e ∈ s.taken) {k : Text}
    (hk : Held { s.leave e.1 with codes := s.codes.restore e.1 e.2 } k p) : Held s k p := by
  rcases hk with hk | hk
  · rcases lookup_insert_some hk with ⟨rfl, rfl⟩ | ⟨-, hk⟩
    · exact .inr he
    · exact .inl hk
  · exact .inr (mem_leave.mp hk).1

theorem inv_restore (h : Inv s) {e : Text × Pending} (he : e ∈ s.taken) :
    Inv { s.leave e.1 with codes := s.codes.restore e.1 e.2 } := by
  refine h.of_held (fun k p hk => ⟨p, held_restore he hk, rfl, rfl⟩) (fun e' he' => ?_)
    (fun e' he' => h.takenApproved e' (mem_leave.mp he').1) rfl rfl rfl
  exact (AList.lookup_insert_ne (mem_leave.mp he').2).trans (h.apart e' (mem_leave.mp he').1)

theorem inv_reorder (h : Inv s) {map : Table Text Pending} (expired : Table Text Nat)
    (hperm : map.entries.Perm s.codes.map.entries) :
    Inv { s with codes := { s.codes with map := map, expired := expired } } := by
  have hlookup : ∀ k, map.lookup k = s.codes.map.lookup k := fun k => AList.perm_lookup hperm
  refine h.of_held (fun k p hk => ⟨p, ?_, rfl, rfl⟩) (fun e he => (hlookup e.1).trans (h.apart e he))
    h.takenApproved rfl rfl rfl
  exact hk.imp_left (hlookup k).symm.trans

/-- What a step does, by its action. -/
theorem step_cases {a : Action} (h : step s a = some s') :
    (∃ deviceCode userCode deviceId now, a = .insert deviceCode userCode deviceId now ∧ s' = { s with
      codes := s.codes.insert deviceCode userCode deviceId now
      clock := now
      handedOut := (deviceCode, now) :: s.handedOut }) ∨
    (∃ userCode userId now, s' = { s.approve userCode userId now with clock := now }) ∨
    (∃ deviceCode now, s' = { s.poll deviceCode now with clock := now }) ∨
    (∃ e ∈ s.taken, s' = { s.leave e.1 with issued := (e.1, e.2.approvedBy.getD []) :: s.issued }) ∨
    (∃ e ∈ s.taken, a = .restore e.1 ∧ s' = { s.leave e.1 with codes := s.codes.restore e.1 e.2 }) ∨
    ∃ map expired, map.entries.Perm s.codes.map.entries ∧
      s' = { s with codes := { s.codes with map := map, expired := expired } } := by
  cases a with
  | insert deviceCode userCode deviceId now =>
    obtain ⟨-, h⟩ := Option.ite_none_right_eq_some.mp h
    exact .inl ⟨deviceCode, userCode, deviceId, now, rfl, (Option.some.inj h).symm⟩
  | approve userCode userId now =>
    obtain ⟨-, h⟩ := Option.ite_none_right_eq_some.mp h
    exact .inr (.inl ⟨userCode, userId, now, (Option.some.inj h).symm⟩)
  | poll deviceCode now =>
    obtain ⟨-, h⟩ := Option.ite_none_right_eq_some.mp h
    exact .inr (.inr (.inl ⟨deviceCode, now, (Option.some.inj h).symm⟩))
  | issue deviceCode =>
    obtain ⟨e, hfind, rfl⟩ := Option.map_eq_some_iff.mp h
    obtain ⟨he, rfl⟩ := mem_of_find_taken hfind
    exact .inr (.inr (.inr (.inl ⟨e, he, rfl⟩)))
  | restore deviceCode =>
    obtain ⟨e, hfind, rfl⟩ := Option.map_eq_some_iff.mp h
    obtain ⟨he, rfl⟩ := mem_of_find_taken hfind
    exact .inr (.inr (.inr (.inr (.inl ⟨e, he, rfl, rfl⟩))))
  | reorder map expired =>
    obtain ⟨⟨hperm, -⟩, h⟩ := Option.ite_none_right_eq_some.mp h
    exact .inr (.inr (.inr (.inr (.inr ⟨map, expired, hperm, (Option.some.inj h).symm⟩))))

theorem inv_step {a : Action} (h : Inv s) (hchecked : Checked s a) (hstep : step s a = some s') : Inv s' := by
  rcases step_cases hstep with ⟨deviceCode, userCode, deviceId, now, rfl, rfl⟩ | ⟨userCode, userId, now, rfl⟩ |
    ⟨deviceCode, now, rfl⟩ | ⟨e, he, rfl⟩ | ⟨e, he, -, rfl⟩ | ⟨map, expired, hperm, rfl⟩
  · exact inv_insert h hchecked.1
  · exact inv_approve h userCode userId
  · exact inv_poll h
  · exact inv_issue h he
  · exact inv_restore h he
  · exact inv_reorder h expired hperm

/-! ## Restored codes that fit -/

theorem distinctUserCodes_iff : DistinctUserCodes c ↔ ∀ k k' p p', c.map.lookup k = some p →
    c.map.lookup k' = some p' → p.userCode = p'.userCode → k = k' := by
  constructor
  · intro h k k' p p' hp hp' hcode
    have heq := List.inj_on_of_nodup_map h (AList.mem_lookup_iff.mp hp) (AList.mem_lookup_iff.mp hp') hcode
    exact congrArg Sigma.fst heq
  · intro h
    refine List.Nodup.map_on (fun e he e' he' hcode => ?_) c.map.nodupKeys.nodup
    exact c.map.nodupKeys.eq_of_fst_eq he he' (h e.1 e'.1 e.2 e'.2 (AList.mem_lookup_iff.mpr he)
      (AList.mem_lookup_iff.mpr he') hcode)

theorem DistinctUserCodes.within {c' : PendingCodes} (h : DistinctUserCodes c) (hw : Within c' c) :
    DistinctUserCodes c' := h.sublist (hw.entries.map _)

theorem hasUserCode_false {userCode : Text} (h : c.hasUserCode userCode = false) {k : Text}
    (hp : c.map.lookup k = some p) : p.userCode ≠ userCode := by
  have hall := List.any_eq_false.mp h _ (AList.mem_lookup_iff.mp hp)
  simpa using hall

/-- A code with a user code of its own is added, or one keeps its user code. -/
theorem DistinctUserCodes.insert (h : DistinctUserCodes c) {k : Text}
    (hcode : ∀ k' p', k' ≠ k → c.map.lookup k' = some p' → p'.userCode ≠ p.userCode) :
    DistinctUserCodes { c with map := c.map.insert k p } := by
  rw [distinctUserCodes_iff] at h ⊢
  intro k₁ k₂ p₁ p₂ h₁ h₂ hsame
  rcases lookup_insert_some h₁ with ⟨rfl, rfl⟩ | ⟨hne₁, hold₁⟩
  · rcases lookup_insert_some h₂ with ⟨rfl, rfl⟩ | ⟨hne₂, hold₂⟩
    · rfl
    · exact absurd hsame.symm (hcode k₂ p₂ hne₂ hold₂)
  · rcases lookup_insert_some h₂ with ⟨rfl, rfl⟩ | ⟨hne₂, hold₂⟩
    · exact absurd hsame (hcode k₁ p₁ hne₁ hold₁)
    · exact h k₁ k₂ p₁ p₂ hold₁ hold₂ hsame

/-- The code is approved by its last approver, if it has one, and was before it expired. -/
def LastApproved (s : Sys) (k : Text) (p : Pending) : Prop :=
  p.approvedBy = (lastApproval k s).map (·.1) ∧ ∀ a ∈ lastApproval k s, a.2 ≤ p.issuedAt + deviceCodeTtl

/-- What holds when the restored codes fit. -/
structure Fit (s : Sys) : Prop where
  last : ∀ k p, Held s k p → LastApproved s k p
  unknown : ∀ k, ¬ Known s k → lastApproval k s = none
  distinct : DistinctUserCodes s.codes
  capped : s.codes.map.len ≤ s.codes.cap
  bundles : ForLastApprover s

theorem fit_new (cap clock : Nat) : Fit (.new cap clock) where
  last k p h := by simp [Held, Sys.new, PendingCodes.new] at h
  unknown k _ := rfl
  distinct := List.nodup_nil
  capped := Nat.zero_le _
  bundles := by simp [ForLastApprover, Sys.new]

theorem lastApproval_approve (userCode userId : Text) (now : Nat) (k : Text) :
    lastApproval k (s.approve userCode userId now) =
      if k ∈ (s.codes.evict now).withUserCode userCode then some (userId, now) else lastApproval k s := by
  unfold lastApproval Sys.approve
  generalize (s.codes.evict now).withUserCode userCode = outstanding
  simp only [List.find?_append]
  induction outstanding with
  | nil => simp
  | cons k' outstanding ih =>
    by_cases hk : k' = k
    · subst hk
      simp
    · have hk' : k ≠ k' := Ne.symm hk
      simp only [List.map_cons, List.mem_cons, hk', false_or]
      rw [List.find?_cons_of_neg (by simpa using hk)]
      exact ih

theorem fit_insert (hf : Fit s) (hcap : 0 < s.codes.cap) {userCode deviceId : Text}
    (hfresh : ¬ Known s deviceCode) (hcode : s.codes.hasUserCode userCode = false) :
    Fit { s with
      codes := s.codes.insert deviceCode userCode deviceId now
      clock := now
      handedOut := (deviceCode, now) :: s.handedOut } := by
  have hwithin : Within ((s.codes.evict now).makeRoom now (s.codes.evict now).map.len) s.codes :=
    (within_makeRoom _).trans within_evict
  refine ⟨fun k p hk => ?_, fun k hk => ?_, ?_, ?_, fun b hb => ?_⟩
  · rcases hk with hk | hk
    · rcases lookup_insert_some hk with ⟨rfl, rfl⟩ | ⟨-, hk⟩
      · have hnone := hf.unknown k hfresh
        refine ⟨?_, fun a ha => absurd (hnone.symm.trans ha) (by simp)⟩
        change none = (lastApproval k s).map (·.1)
        rw [hnone]
        rfl
      · exact hf.last k p (.inl (hwithin.lookup hk))
    · exact hf.last k p (.inr hk)
  · exact hf.unknown k fun hknown => hk (List.mem_cons_of_mem _ hknown)
  · refine (hf.distinct.within hwithin).insert fun k' p' _ hp' => ?_
    exact hasUserCode_false hcode (hwithin.lookup hp')
  · have hcap' : (s.codes.evict now).cap = s.codes.cap := (@within_evict s.codes now).cap
    have hroom := @makeRoom_room (s.codes.evict now) now _ (hcap' ▸ hcap) (Nat.le_refl _)
    rw [hcap'] at hroom
    exact len_insert_le.trans (hroom.trans_le (Nat.le_of_eq hwithin.cap.symm))
  · obtain ⟨issuedAt, approvedAt, hhanded, hrest⟩ := hf.bundles b hb
    exact ⟨issuedAt, approvedAt, List.mem_cons_of_mem _ hhanded, hrest⟩

theorem fit_approve (h : Inv s) (hf : Fit s) (userCode userId : Text) :
    Fit { s.approve userCode userId now with clock := now } := by
  have hdistinct := hf.distinct.within (@within_evict s.codes now)
  have hlen := (@within_evict s.codes now).len
  have hcap := (@within_evict s.codes now).cap
  have hlast := fun k => lastApproval_approve (s := s) userCode userId now k
  -- A code that is not outstanding keeps its last approval.
  have hsame : ∀ k, (∀ p, (s.codes.evict now).map.lookup k ≠ some p) →
      lastApproval k (s.approve userCode userId now) = lastApproval k s := by
    intro k hk
    rw [hlast, if_neg]
    intro hout
    obtain ⟨p, hp, -⟩ := mem_withUserCode.mp hout
    exact hk p hp
  refine ⟨fun k p hk => ?_, fun k hk => ?_, ?_, ?_, fun b hb => ?_⟩
  · rcases hk with hk | hk
    · change (s.codes.approve userCode userId now).2.map.lookup k = some p at hk
      change p.approvedBy = (lastApproval k (s.approve userCode userId now)).map (·.1) ∧
        ∀ a ∈ lastApproval k (s.approve userCode userId now), a.2 ≤ p.issuedAt + deviceCodeTtl
      rcases approve_cases userCode userId s.codes now with ⟨heq, hnone⟩ | ⟨k', p', hp', hcode, heq⟩
      · rw [heq] at hk
        rw [hlast, hnone, if_neg List.not_mem_nil]
        exact hf.last k p (.inl (within_evict.lookup hk))
      · rw [heq] at hk
        rcases lookup_insert_some hk with ⟨rfl, rfl⟩ | ⟨hne, hk⟩
        · rw [hlast, if_pos (mem_withUserCode.mpr ⟨p', hp', hcode⟩)]
          have hlive := live_bound (evict_live hp')
          refine ⟨rfl, fun a ha => ?_⟩
          cases ha
          exact hlive
        · rw [hlast, if_neg]
          · exact hf.last k p (.inl (within_evict.lookup hk))
          · intro hout
            obtain ⟨p₁, hp₁, hcode₁⟩ := mem_withUserCode.mp hout
            exact hne (distinctUserCodes_iff.mp hdistinct k k' p₁ p' hp₁ hp' (hcode₁.trans hcode.symm))
    · have hnone : (s.codes.evict now).map.lookup k = none := evict_apart h (k, p) hk
      have heq := hsame k fun p' hp' => absurd (hnone.symm.trans hp') (by simp)
      obtain ⟨hby, hle⟩ := hf.last k p (.inr hk)
      exact ⟨hby.trans (congrArg (Option.map (·.1)) heq.symm), fun a ha => hle a (heq.symm.trans ha)⟩
  · refine (hsame k fun p hp => hk ?_).trans (hf.unknown k hk)
    exact h.known (.inl (within_evict.lookup hp))
  · change DistinctUserCodes (s.codes.approve userCode userId now).2
    rcases approve_cases userCode userId s.codes now with ⟨heq, -⟩ | ⟨k', p', hp', hcode, heq⟩
    · rw [heq]
      exact hdistinct
    · rw [heq]
      refine hdistinct.insert fun k p hne hp hsame => hne ?_
      exact distinctUserCodes_iff.mp hdistinct k k' p p' hp hp' hsame
  · change (s.codes.approve userCode userId now).2.map.len ≤ (s.codes.approve userCode userId now).2.cap
    rcases approve_cases userCode userId s.codes now with ⟨heq, -⟩ | ⟨k', p', hp', hcode, heq⟩
    · rw [heq, hcap]
      exact hlen.trans hf.capped
    · rw [heq]
      change Table.len ((s.codes.evict now).map.insert k' _) ≤ (s.codes.evict now).cap
      rw [len_insert_of_mem (mem_of_lookup hp'), hcap]
      exact hlen.trans hf.capped
  · obtain ⟨issuedAt, approvedAt, hhanded, hlastb, hle⟩ := hf.bundles b hb
    refine ⟨issuedAt, approvedAt, hhanded, (hsame b.1 fun p hp => ?_).trans hlastb, hle⟩
    exact (h.gone b hb).2 p (.inl (within_evict.lookup hp))

/-- The codes that can be redeemed were there before, with their approvals. -/
theorem Fit.last_of_held (hf : Fit s) (happrovals : s'.approvals = s.approvals)
    (hheld : ∀ k p, Held s' k p → ∃ p₀, Held s k p₀ ∧ p.userCode = p₀.userCode ∧ p.issuedAt = p₀.issuedAt ∧
      p.approvedBy = p₀.approvedBy) : ∀ k p, Held s' k p → LastApproved s' k p := by
  intro k p hk
  obtain ⟨p₀, hp₀, -, hat, hby⟩ := hheld k p hk
  unfold LastApproved lastApproval
  rw [happrovals, hat, hby]
  exact hf.last k p₀ hp₀

theorem fit_poll (hf : Fit s) : Fit { s.poll deviceCode now with clock := now } := by
  have hdistinct := hf.distinct.within (@within_evict s.codes now)
  have hlen := (@within_evict s.codes now).len
  have hcap := (@within_evict s.codes now).cap
  refine ⟨hf.last_of_held rfl fun k p hk => held_poll deviceCode now hk, hf.unknown, ?_, ?_, hf.bundles⟩
  · change DistinctUserCodes (s.codes.poll deviceCode now).2
    rcases poll_cases deviceCode s.codes now with ⟨-, heq⟩ | ⟨p, p', hp, hcode, -, -, -, heq⟩ | ⟨p, hp, -, -, heq⟩
    · rw [heq]
      exact hdistinct
    · rw [heq]
      refine hdistinct.insert fun k p₁ hne hp₁ hsame => hne ?_
      exact distinctUserCodes_iff.mp hdistinct k deviceCode p₁ p hp₁ hp (hsame.trans hcode)
    · rw [heq]
      exact hdistinct.sublist ((List.kerase_sublist ..).map _)
  · change (s.codes.poll deviceCode now).2.map.len ≤ (s.codes.poll deviceCode now).2.cap
    rcases poll_cases deviceCode s.codes now with ⟨-, heq⟩ | ⟨p, p', hp, hcode, -, -, -, heq⟩ | ⟨p, hp, -, -, heq⟩
    · rw [heq, hcap]
      exact hlen.trans hf.capped
    · rw [heq]
      change Table.len ((s.codes.evict now).map.insert deviceCode p') ≤ (s.codes.evict now).cap
      rw [len_insert_of_mem (mem_of_lookup hp), hcap]
      exact hlen.trans hf.capped
    · rw [heq]
      change Table.len ((s.codes.evict now).map.erase deviceCode) ≤ (s.codes.evict now).cap
      have := len_erase_lt (mem_of_lookup hp)
      have := hf.capped
      omega

theorem fit_issue (h : Inv s) (hf : Fit s) {e : Text × Pending} (he : e ∈ s.taken) :
    Fit { s.leave e.1 with issued := (e.1, e.2.approvedBy.getD []) :: s.issued } := by
  refine ⟨hf.last_of_held rfl fun k p hk => ⟨p, ?_, rfl, rfl, rfl⟩, hf.unknown, hf.distinct, hf.capped, ?_⟩
  · exact hk.imp_right fun hp => (mem_leave.mp hp).1
  · intro b hb
    rcases List.mem_cons.mp hb with rfl | hb
    · obtain ⟨hby, hle⟩ := hf.last e.1 e.2 (.inr he)
      obtain ⟨user, huser⟩ := Option.isSome_iff_exists.mp (h.takenApproved e he)
      rw [huser] at hby
      obtain ⟨⟨user', approvedAt⟩, hlast, rfl⟩ := Option.map_eq_some_iff.mp hby.symm
      refine ⟨e.2.issuedAt, approvedAt, h.handed e.1 e.2 (.inr he), ?_, hle _ hlast⟩
      rw [huser]
      exact hlast
    · exact hf.bundles b hb

theorem fit_restore (hf : Fit s) {e : Text × Pending} (he : e ∈ s.taken) (hfits : RestoreFits s (.restore e.1)) :
    Fit { s.leave e.1 with codes := s.codes.restore e.1 e.2 } := by
  refine ⟨hf.last_of_held rfl fun k p hk => ⟨p, held_restore he hk, rfl, rfl, rfl⟩, hf.unknown, ?_, ?_, hf.bundles⟩
  · refine hf.distinct.insert fun k p _ hp => ?_
    exact hasUserCode_false (hfits.2 e he rfl) hp
  · exact len_insert_le.trans hfits.1

theorem fit_reorder (hf : Fit s) {map : Table Text Pending} (expired : Table Text Nat)
    (hperm : map.entries.Perm s.codes.map.entries) :
    Fit { s with codes := { s.codes with map := map, expired := expired } } := by
  refine ⟨hf.last_of_held rfl fun k p hk => ⟨p, ?_, rfl, rfl, rfl⟩, hf.unknown, ?_, ?_, hf.bundles⟩
  · exact hk.imp_left (AList.perm_lookup hperm).symm.trans
  · exact (hperm.map _).nodup_iff.mpr hf.distinct
  · exact hperm.length_eq.trans_le hf.capped

theorem insert_cap {userCode deviceId : Text} : (s.codes.insert deviceCode userCode deviceId now).cap = s.codes.cap :=
  ((within_makeRoom _).trans within_evict).cap

/-- No step changes the cap. -/
theorem step_cap {a : Action} (hstep : step s a = some s') : s'.codes.cap = s.codes.cap := by
  rcases step_cases hstep with ⟨deviceCode, userCode, deviceId, now, rfl, rfl⟩ | ⟨userCode, userId, now, rfl⟩ |
    ⟨deviceCode, now, rfl⟩ | ⟨e, he, rfl⟩ | ⟨e, he, -, rfl⟩ | ⟨map, expired, hperm, rfl⟩
  · exact insert_cap
  · change (s.codes.approve userCode userId now).2.cap = s.codes.cap
    rcases approve_cases userCode userId s.codes now with ⟨heq, -⟩ | ⟨_, _, -, -, heq⟩
    · rw [heq, within_evict.cap]
    · rw [heq]
      exact within_evict.cap
  · change (s.codes.poll deviceCode now).2.cap = s.codes.cap
    rcases poll_cases deviceCode s.codes now with ⟨-, heq⟩ | ⟨_, _, -, -, -, -, -, heq⟩ | ⟨_, -, -, -, heq⟩
    · rw [heq, within_evict.cap]
    · rw [heq]
      exact within_evict.cap
    · rw [heq]
      exact within_evict.cap
  · rfl
  · rfl
  · rfl

theorem fit_step {a : Action} (h : Inv s) (hf : Fit s) (hcap : 0 < s.codes.cap) (hchecked : Checked s a)
    (hfits : RestoreFits s a) (hstep : step s a = some s') : Fit s' := by
  rcases step_cases hstep with ⟨deviceCode, userCode, deviceId, now, rfl, rfl⟩ | ⟨userCode, userId, now, rfl⟩ |
    ⟨deviceCode, now, rfl⟩ | ⟨e, he, rfl⟩ | ⟨e, he, rfl, rfl⟩ | ⟨map, expired, hperm, rfl⟩
  · exact fit_insert hf hcap hchecked.1 hchecked.2
  · exact fit_approve h hf userCode userId
  · exact fit_poll hf
  · exact fit_issue h hf he
  · exact fit_restore hf he hfits
  · exact fit_reorder hf expired hperm

/-- What a run with fresh device codes and checked user codes leads to; with restores that fit, the bundles are
for the last approvers, the outstanding user codes are distinct, and there are at most `cap` of them. -/
theorem device_codes_safe (cap clock : Nat) (actions : List Action)
    (hchecked : AllGood step Checked (.new cap clock) actions) (hrun : run step (.new cap clock) actions = some s) :
    Once s ∧ Approved s ∧ (0 < cap → AllGood step RestoreFits (.new cap clock) actions →
      ForLastApprover s ∧ DistinctUserCodes s.codes ∧ s.codes.map.len ≤ cap) := by
  have hinv : Inv s :=
    invariant_of_allGood (fun _ _ _ h hchecked hstep => inv_step h hchecked hstep) (inv_new cap clock) hchecked hrun
  refine ⟨hinv.once, hinv.bundles, fun hcap hfits => ?_⟩
  have hstep : ∀ s a s', (Inv s ∧ Fit s ∧ s.codes.cap = cap) → (Checked s a ∧ RestoreFits s a) → step s a = some s' →
      Inv s' ∧ Fit s' ∧ s'.codes.cap = cap := by
    rintro s a s' ⟨h, hf, hsame⟩ ⟨hchecked, hfits⟩ hstep
    exact ⟨inv_step h hchecked hstep, fit_step h hf (hsame ▸ hcap) hchecked hfits hstep, (step_cap hstep).trans hsame⟩
  obtain ⟨-, hfit, hsame⟩ := invariant_of_allGood hstep ⟨inv_new cap clock, fit_new cap clock, rfl⟩
    (hchecked.and hfits) hrun
  exact ⟨hfit.bundles, hfit.distinct, hsame ▸ hfit.capped⟩

/-- A bundle that could not be minted the first time. -/
def retriedRun : List Action :=
  [.insert "d1".toList "1111-2222".toList "oauth-1".toList 0, .approve "1111-2222".toList "a".toList (fromSecs 10),
   .poll "d1".toList (fromSecs 12), .insert "d2".toList "3333-4444".toList "oauth-2".toList (fromSecs 13),
   .restore "d1".toList, .approve "1111-2222".toList "b".toList (fromSecs 15), .poll "d1".toList (fromSecs 17),
   .issue "d1".toList]

theorem retried_code_issued_once : ∃ s, run step (.new maxPending 0) retriedRun = some s ∧
    s.issued = [("d1".toList, "b".toList)] ∧ Once s ∧ Approved s ∧ ForLastApprover s ∧ DistinctUserCodes s.codes ∧
    s.codes.map.len ≤ maxPending := by
  have hend : (run step (.new maxPending 0) retriedRun).map (·.issued) = some [("d1".toList, "b".toList)] := by
    decide +kernel
  obtain ⟨s, hrun, hs⟩ := Option.map_eq_some_iff.mp hend
  obtain ⟨honce, happroved, hrest⟩ := device_codes_safe maxPending 0 retriedRun (by decide +kernel) hrun
  exact ⟨s, hrun, hs, honce, happroved, hrest (by decide) (by decide +kernel)⟩

/-- While the bundle of the first code is being minted, a second code gets its user code. -/
def reusedRun : List Action :=
  [.insert "d1".toList "1111-2222".toList "oauth-1".toList 0, .approve "1111-2222".toList "a".toList (fromSecs 10),
   .poll "d1".toList (fromSecs 12), .insert "d2".toList "1111-2222".toList "oauth-2".toList (fromSecs 12),
   .restore "d1".toList]

theorem restored_code_shares_user_code : ¬ ∀ actions s, AllGood step Checked (.new maxPending 0) actions →
    run step (.new maxPending 0) actions = some s →
      Once s ∧ ForLastApprover s ∧ DistinctUserCodes s.codes ∧ s.codes.map.len ≤ maxPending := by
  intro h
  have hend : (run step (.new maxPending 0) reusedRun).map (fun s => s.codes.map.entries.map fun e => e.2.userCode) =
      some ["1111-2222".toList, "1111-2222".toList] := by decide +kernel
  obtain ⟨s, hrun, hs⟩ := Option.map_eq_some_iff.mp hend
  have hdistinct := (h reusedRun s (by decide +kernel) hrun).2.2.1
  unfold DistinctUserCodes at hdistinct
  rw [hs] at hdistinct
  exact absurd hdistinct (by decide)

end OAuthCodes
