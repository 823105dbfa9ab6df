import RemarkableServer.Email
import RemarkableServer.Smtp

/-!
# The device a mail names

The address is checked against the table in lowercase, and the mail is recorded under the
address in uppercase. That is one device for the ids that are in upper case.
-/
namespace EmailAddresses

open RustText Email Smtp

/-! ## Case mappings -/

def ascii (t : Text) : Text := t.map Char.toLower

/-- What the lowercase of a character is made of: an ASCII character has its ASCII lowercase; another one has itself
or something else, whatever is around it, with nothing in it that has a lowercase of its own. -/
def LowersTo (same : Char → Bool) (c : Char) (piece : Text) : Prop :=
  if c.toNat < 128 then piece = [c.toLower]
  else piece ≠ [] ∧ (piece = [c] ↔ same c = true) ∧
    ∀ d ∈ piece, ¬d.isUpper ∧ d ≠ '@' ∧ (128 ≤ d.toNat → same d = true)

/-- What is known of `str::to_lowercase`: it goes character by character. -/
def Lowercases (same : Char → Bool) (lower : Text → Text) : Prop :=
  ∀ t, ∃ ps, List.Forall₂ (LowersTo same) t ps ∧ lower t = ps.flatten

/-- For ASCII lowercasing it is as good as lowercase. -/
def Same (same : Char → Bool) (c : Char) : Prop := 128 ≤ c.toNat → same c = true

variable {same : Char → Bool} {lower : Text → Text} {t : Text} {ps : List Text}

theorem same_toLower {c : Char} : Same same c.toLower ↔ Same same c := by
  by_cases hu : c.isUpper
  · obtain ⟨hlo, hhi⟩ := isUpper_iff.mp hu
    refine iff_of_true (fun hbig => absurd hbig ?_) (fun hbig => absurd hbig (by omega))
    rw [toNat_toLower hu]
    omega
  · rw [toLower_of_not_isUpper hu]

theorem lowersTo_ne_nil {c : Char} {piece : Text} (h : LowersTo same c piece) : piece ≠ [] := by
  unfold LowersTo at h
  split at h
  · simp [h]
  · exact h.1

theorem lowersTo_ascii {c : Char} {piece : Text} (h : LowersTo same c piece) : piece = [c.toLower] ↔ Same same c := by
  unfold LowersTo at h
  split at h
  next hc => exact iff_of_true h fun hbig => absurd hc (by omega)
  next hc =>
    have hself : c.toLower = c := toLower_of_not_isUpper fun hu => hc (ascii_of_isUpper hu)
    rw [hself, h.2.1]
    exact ⟨fun hs _ => hs, fun hs => hs (by omega)⟩

theorem length_le_flatten (h : List.Forall₂ (LowersTo same) t ps) : t.length ≤ ps.flatten.length := by
  induction h with
  | nil => exact Nat.le_refl _
  | cons hc _ ih =>
    have hpos := List.length_pos_iff.mpr (lowersTo_ne_nil hc)
    rw [List.length_cons, List.flatten_cons, List.length_append]
    omega

theorem flatten_eq_ascii (h : List.Forall₂ (LowersTo same) t ps) : ps.flatten = ascii t ↔ ∀ c ∈ t, Same same c := by
  induction h with
  | nil => simp [ascii]
  | @cons c piece t ps hc hrest ih =>
    rw [List.forall_mem_cons, ← ih, ← lowersTo_ascii hc, ascii, List.map_cons, List.flatten_cons]
    constructor
    · intro heq
      obtain ⟨d, piece, rfl⟩ := List.exists_cons_of_ne_nil (lowersTo_ne_nil hc)
      obtain ⟨hd, hall⟩ := List.cons.inj heq
      have hle := length_le_flatten hrest
      have hlength : (piece ++ ps.flatten).length = (t.map Char.toLower).length := congrArg List.length hall
      rw [List.length_append, List.length_map] at hlength
      have hnil : piece = [] := List.length_eq_zero_iff.mp (by omega)
      subst hnil
      exact ⟨by rw [hd], hall⟩
    · rintro ⟨rfl, hall⟩
      rw [hall]
      rfl

/-- Lowercasing is ASCII lowercasing as long as no other letter changes. -/
theorem lower_eq_ascii (h : Lowercases same lower) (t : Text) : lower t = ascii t ↔ ∀ c ∈ t, Same same c := by
  obtain ⟨ps, hps, hlower⟩ := h t
  rw [hlower]
  exact flatten_eq_ascii hps

theorem length_le_lower (h : Lowercases same lower) (t : Text) : t.length ≤ (lower t).length := by
  obtain ⟨ps, hps, hlower⟩ := h t
  rw [hlower]
  exact length_le_flatten hps

theorem mem_flatten (h : List.Forall₂ (LowersTo same) t ps) {d : Char} (hd : d ∈ ps.flatten) :
    ¬d.isUpper ∧ Same same d ∧ (d = '@' → '@' ∈ t) := by
  induction h with
  | nil => cases hd
  | @cons c piece t ps hc _ ih =>
    rw [List.flatten_cons, List.mem_append] at hd
    obtain hd | hd := hd
    · unfold LowersTo at hc
      split at hc
      next hsmall =>
        rw [hc, List.mem_singleton] at hd
        subst hd
        exact ⟨not_isUpper_toLower c, same_toLower.mpr fun hbig => absurd hbig (by omega),
          fun hat => eq_of_toLower_eq hat (by decide) ▸ List.mem_cons_self⟩
      next =>
        obtain ⟨hupper, hat, hsame⟩ := hc.2.2 d hd
        exact ⟨hupper, hsame, fun h => absurd h hat⟩
    · obtain ⟨hupper, hsame, hat⟩ := ih hd
      exact ⟨hupper, hsame, fun h => List.mem_cons_of_mem c (hat h)⟩

theorem mem_lower (h : Lowercases same lower) {d : Char} (hd : d ∈ lower t) :
    ¬d.isUpper ∧ Same same d ∧ (d = '@' → '@' ∈ t) := by
  obtain ⟨ps, hps, hlower⟩ := h t
  rw [hlower] at hd
  exact mem_flatten hps hd

theorem ascii_lower (h : Lowercases same lower) (t : Text) : ascii (lower t) = lower t := by
  rw [ascii]
  nth_rewrite 2 [← List.map_id (lower t)]
  exact List.map_congr_left fun d hd => toLower_of_not_isUpper (mem_lower h hd).1

/-! ## The argument of RCPT -/

/-- After the address: whitespace and something, or nothing. -/
structure Params (params : Text) : Prop where
  start : ∀ c, params.head? = some c → isWhitespace c = true
  stop : ∀ c, params.getLast? = some c → isWhitespace c = false

def withBrackets (brackets : Bool) (address : Text) : Text := if brackets then '<' :: address ++ ['>'] else address

def rcptLine (brackets : Bool) (address params : Text) : Text := "RCPT TO:".toList ++ (withBrackets brackets address ++ params)

variable {a params : Text}

theorem trim_eq_self (hstart : ∀ c, t.head? = some c → isWhitespace c = false)
    (hstop : ∀ c, t.getLast? = some c → isWhitespace c = false) : trim t = t := by
  have hdrop : t.dropWhile isWhitespace = t := by
    cases t with
    | nil => rfl
    | cons c t => rw [List.dropWhile_cons_of_neg (by rw [hstart c rfl]; exact Bool.false_ne_true)]
  rw [trim, hdrop]
  cases h : t.getLast? with
  | none => rw [List.getLast?_eq_none_iff.mp h]; rfl
  | some c =>
    obtain ⟨t, rfl⟩ := List.getLast?_eq_some_iff.mp h
    rw [List.rdropWhile_concat_neg _ _ _ (by rw [hstop c h]; exact Bool.false_ne_true)]

theorem firstWord_append (ha : ∀ c ∈ a, isWhitespace c = false) (hne : a ≠ []) (hparams : Params params) :
    firstWord (a ++ params) = some a := by
  have hdrop : (a ++ params).dropWhile isWhitespace = a ++ params := by
    obtain ⟨c, a, rfl⟩ := List.exists_cons_of_ne_nil hne
    rw [List.cons_append, List.dropWhile_cons_of_neg (by rw [ha c List.mem_cons_self]; exact Bool.false_ne_true)]
  have htake : params.takeWhile (fun c => !isWhitespace c) = [] := by
    cases params with
    | nil => rfl
    | cons c params => rw [List.takeWhile_cons_of_neg (by rw [hparams.start c rfl]; exact Bool.false_ne_true)]
  have hall : ∀ c ∈ a, (!isWhitespace c) = true := fun c hc => by rw [ha c hc]; rfl
  rw [firstWord, hdrop, List.takeWhile_append_of_pos hall, htake, List.append_nil, if_neg (by simpa using hne)]

theorem stop_append (ha : ∀ c, a.getLast? = some c → isWhitespace c = false) (hparams : Params params) :
    ∀ c, (a ++ params).getLast? = some c → isWhitespace c = false := by
  intro c hc
  rw [List.getLast?_append] at hc
  cases h : params.getLast? with
  | none => rw [h] at hc; exact ha c hc
  | some d => rw [h] at hc; cases hc; exact hparams.stop _ h

/-- Brackets around the argument are taken for those of the address. -/
theorem extract_bracketed (ha : ∀ c ∈ a, isWhitespace c = false) (hparams : Params params) :
    extractEmailAddress (withBrackets true a ++ params) =
      if params.getLast? = some '>' then a ++ '>' :: params.dropLast else a := by
  have htrim : trim (withBrackets true a ++ params) = withBrackets true a ++ params := by
    refine trim_eq_self (fun c hc => ?_) (stop_append (fun c hc => ?_) hparams)
    · cases hc
      decide
    · rw [withBrackets, if_pos rfl, List.getLast?_concat] at hc
      cases hc
      decide
  have hinner : bracketed (withBrackets true a) = true ∧ (withBrackets true a).tail.dropLast = a := by
    constructor
    · rw [bracketed, withBrackets, if_pos rfl, List.getLast?_concat]
      rfl
    · simp [withBrackets]
  have hword : firstWord (withBrackets true a ++ params) = some (withBrackets true a) := by
    refine firstWord_append (fun c hc => ?_) (by simp [withBrackets]) hparams
    simp only [withBrackets, if_true, List.cons_append, List.mem_cons, List.mem_append, List.not_mem_nil, or_false] at hc
    obtain rfl | hc | rfl := hc
    · decide
    · exact ha c hc
    · decide
  have hhead : (withBrackets true a ++ params).head? = some '<' := rfl
  rw [extractEmailAddress, htrim]
  by_cases hlast : params.getLast? = some '>'
  · obtain ⟨q, rfl⟩ := List.getLast?_eq_some_iff.mp hlast
    have hboth : bracketed (withBrackets true a ++ (q ++ ['>'])) = true := by
      rw [bracketed, hhead, ← List.append_assoc, List.getLast?_concat]
      rfl
    rw [if_pos hboth, if_pos hlast]
    simp [withBrackets, List.dropLast_append_of_ne_nil, List.dropLast_cons_of_ne_nil]
  · rw [if_neg hlast]
    cases h : params.getLast? with
    | none =>
      rw [List.getLast?_eq_none_iff.mp h, List.append_nil, if_pos hinner.1]
      exact hinner.2
    | some c =>
      have hneither : ¬ bracketed (withBrackets true a ++ params) = true := by
        rw [bracketed, List.getLast?_append, h, hhead]
        simpa [h] using hlast
      rw [if_neg hneither, hword]
      dsimp only
      rw [if_pos hinner.1]
      exact hinner.2

theorem extract_bare (ha : ∀ c ∈ a, isWhitespace c = false) (hne : a ≠ []) (hstart : a.head? ≠ some '<')
    (hparams : Params params) :
    extractEmailAddress (withBrackets false a ++ params) = a := by
  have hhead : (a ++ params).head? = a.head? := List.head?_append_of_ne_nil _ hne
  have htrim : trim (a ++ params) = a ++ params := by
    refine trim_eq_self (fun c hc => ?_) (stop_append (fun c hc => ha c (List.mem_of_getLast? hc)) hparams)
    rw [hhead] at hc
    exact ha c (List.mem_of_head? hc)
  have hbare : ∀ q, ¬ bracketed (a ++ q) = true := by
    intro q
    rw [bracketed, List.head?_append_of_ne_nil _ hne, beq_eq_false_iff_ne.mpr hstart]
    exact Bool.false_ne_true
  have hword : ¬ bracketed a = true := by
    have h := hbare []
    rwa [List.append_nil] at h
  rw [withBrackets, if_neg Bool.false_ne_true, extractEmailAddress, htrim, if_neg (hbare params),
    firstWord_append ha hne hparams]
  dsimp only
  rw [if_neg hword]

/-- There is a line with brackets for every address. -/
theorem trim_rcptLine (a : Text) (hparams : Params params) :
    trim (Utf8Codec.decodeLossy (Utf8Codec.encode (rcptLine true a params))) = rcptLine true a params := by
  have hlast : ∀ c, ("RCPT TO:".toList ++ withBrackets true a).getLast? = some c → isWhitespace c = false := by
    intro c hc
    have hbrackets : withBrackets true a = '<' :: a ++ ['>'] := rfl
    rw [hbrackets, ← List.append_assoc, List.getLast?_concat] at hc
    rw [← Option.some.inj hc]
    rfl
  have hstop := stop_append hlast hparams
  rw [List.append_assoc] at hstop
  rw [Utf8Codec.decodeLossy_of_decode (Utf8Codec.decode_encode _)]
  refine trim_eq_self (fun c hc => ?_) hstop
  have hfirst : (rcptLine true a params).head? = some 'R' := rfl
  rw [hfirst] at hc
  cases hc
  decide

theorem parseCommand_rcpt (t : Text) : parseCommand ("RCPT TO:".toList ++ t) = .rcptTo t := rfl

/-! ## The address of a device -/

def address (localPart d domain : Text) : Text := localPart ++ '@' :: (d ++ '.' :: domain)

theorem split_address {localPart dm : Text} (hlocal : '@' ∉ localPart) (hdm : '@' ∉ dm) :
    split '@' (localPart ++ '@' :: dm) = [localPart, dm] := by
  rw [split, splitOn_append_sep '@' _ _ hlocal, List.splitOn_eq_singleton hdm]

theorem stripSuffix_eq_some {suffix p : Text} : stripSuffix suffix t = some p ↔ t = p ++ suffix := by
  unfold stripSuffix
  constructor
  · intro h
    split at h
    next hsuffix =>
      obtain ⟨q, rfl⟩ := hsuffix
      rw [List.length_append, Nat.add_sub_cancel, List.take_left] at h
      rw [Option.some.inj h]
    next => cases h
  · rintro rfl
    rw [if_pos (List.suffix_append p suffix), List.length_append, Nat.add_sub_cancel, List.take_left]

theorem lookUp_eq_some {s : Server} {a d : Text} : s.lookUp a = some d ↔
    ∃ l dm id, split '@' a = [l, dm] ∧ (s.toLowercase l = "send".toList ∨ s.toLowercase l = "sync".toList) ∧
      s.toLowercase dm = id ++ s.expectedSuffix ∧ s.getDevice id = some d := by
  constructor
  · intro h
    unfold Server.lookUp at h
    split at h
    next l dm hsplit =>
      dsimp only at h
      split at h
      next => cases h
      next hlocal =>
        obtain ⟨id, hid, hget⟩ := Option.bind_eq_some_iff.mp h
        refine ⟨l, dm, id, hsplit, ?_, stripSuffix_eq_some.mp hid, hget⟩
        simpa [Decidable.or_iff_not_imp_left] using hlocal
    next => cases h
  · rintro ⟨l, dm, id, hsplit, hlocal, hid, hget⟩
    have hlocal : ¬ (s.toLowercase l != "send".toList && s.toLowercase l != "sync".toList) = true := by
      obtain h | h := hlocal
      · simp [h]
      · simp [h]
    rw [Server.lookUp, hsplit]
    dsimp only
    rw [if_neg hlocal, stripSuffix_eq_some.mpr hid]
    exact hget

theorem extractDeviceId_eq_some {s : Server} {a d : Text} : s.extractDeviceId a = some d ↔
    ∃ l dm id, split '@' a = [l, dm] ∧ s.toLowercase dm = id ++ s.expectedSuffix ∧ s.toUppercase id = d := by
  constructor
  · intro h
    unfold Server.extractDeviceId at h
    split at h
    next l dm hsplit =>
      obtain ⟨id, hid, hupper⟩ := Option.map_eq_some_iff.mp h
      exact ⟨l, dm, id, hsplit, stripSuffix_eq_some.mp hid, hupper⟩
    next => cases h
  · rintro ⟨l, dm, id, hsplit, hid, rfl⟩
    rw [Server.extractDeviceId, hsplit]
    dsimp only
    rw [stripSuffix_eq_some.mpr hid]
    rfl

/-! ## What is recorded -/

/-- The recipient, and the device that its mail is recorded under. -/
def record (r : EmailRow) : Text × Text := (r.toAddr, r.deviceId)

def recordsOf (s : Server) (recipients : List Text) : List (Text × Text) :=
  recipients.filterMap fun recipient => (s.extractDeviceId recipient).map (recipient, ·)

theorem attempt_fst {run : Run} {effect : World → World} {w : World} :
    (run.attempt effect w).1.emails = if (run.attempt effect w).2 then (effect w).emails else w.emails := by
  unfold Run.attempt
  split
  · rfl
  · rfl

theorem syncAttachments_emails (run : Run) (emailId : Text) (attachments : List Attachment) (synced : Nat) (w : World) :
    (syncAttachments run emailId attachments synced w).1.emails = w.emails := by
  induction attachments generalizing synced w with
  | nil => rfl
  | cons a attachments ih =>
    rw [syncAttachments]
    cases documentExt a.filename a.contentType with
    | none => exact ih synced w
    | some ext =>
      have hcreate : (createDocument run ⟨stripExtension a.filename, ext, a.data⟩ w).1.emails = w.emails := by
        rw [createDocument, attempt_fst]
        exact ite_self _
      dsimp only
      cases hc : createDocument run ⟨stripExtension a.filename, ext, a.data⟩ w with
      | mk w' created =>
        rw [hc] at hcreate
        cases created with
        | false => exact hcreate
        | true =>
          have hinsert : (insertAttachment run emailId (run.uuid w.steps) a w').1.emails = w'.emails := by
            rw [insertAttachment, attempt_fst]
            exact ite_self _
          dsimp only
          cases hi : insertAttachment run emailId (run.uuid w.steps) a w' with
          | mk w'' inserted =>
            rw [hi] at hinsert
            have hboth := hinsert.trans hcreate
            cases inserted with
            | false => exact hboth
            | true => exact (ih (synced + 1) w'').trans hboth

theorem updateStatus_records (run : Run) (emailId status : Text) (w : World) :
    (updateStatus run emailId status w).1.emails.map record = w.emails.map record := by
  rw [updateStatus, attempt_fst]
  split
  · rw [List.map_map]
    refine List.map_congr_left fun r _ => ?_
    dsimp only [Function.comp]
    split
    · rfl
    · rfl
  · rfl

/-- One row for each recipient with a device, as far as the processing comes. -/
theorem processRecipients_records (s : Server) (run : Run) (sender : Text) (mail : ParsedMail) (recipients : List Text)
    (total : Nat) (w : World) :
    ∃ recorded, (processRecipients s run sender mail recipients total w).1.emails.map record =
        w.emails.map record ++ recorded ∧ recorded <+: recordsOf s recipients ∧
      ((processRecipients s run sender mail recipients total w).2.isSome = true → recorded = recordsOf s recipients) := by
  induction recipients generalizing total w with
  | nil => exact ⟨[], (List.append_nil _).symm, List.prefix_refl _, fun _ => rfl⟩
  | cons recipient recipients ih =>
    rw [processRecipients, recordsOf]
    cases hid : s.extractDeviceId recipient with
    | none =>
      rw [List.filterMap_cons_none (by rw [hid]; rfl)]
      exact ih total w
    | some deviceId =>
      rw [List.filterMap_cons_some (by rw [hid]; rfl)]
      dsimp only
      have hemail : (insertEmail run sender recipient (subject mail) deviceId w).1.emails.map record =
          w.emails.map record ++ if (insertEmail run sender recipient (subject mail) deviceId w).2 then [(recipient, deviceId)] else [] := by
        rw [insertEmail, attempt_fst]
        split
        · rw [List.map_append]
          rfl
        · exact (List.append_nil _).symm
      cases he : insertEmail run sender recipient (subject mail) deviceId w with
      | mk w₁ inserted =>
        rw [he] at hemail
        have hfirst : [(recipient, deviceId)] <+: (recipient, deviceId) :: recordsOf s recipients := ⟨_, rfl⟩
        cases inserted with
        | false => exact ⟨[], hemail, List.nil_prefix, fun h => nomatch h⟩
        | true =>
          cases extractAttachments s mail with
          | none => exact ⟨_, hemail, hfirst, fun h => nomatch h⟩
          | some attachments =>
            have hsync := syncAttachments_emails run (run.uuid w.steps) attachments 0 w₁
            dsimp only
            cases hs : syncAttachments run (run.uuid w.steps) attachments 0 w₁ with
            | mk w₂ synced =>
              rw [hs] at hsync
              have hboth := (congrArg (List.map record) hsync).trans hemail
              cases synced with
              | none => exact ⟨_, hboth, hfirst, fun h => nomatch h⟩
              | some synced =>
                have hstatus := updateStatus_records run (run.uuid w.steps)
                  (if 0 < synced then "synced".toList else "no_attachments".toList) w₂
                dsimp only
                cases hu : updateStatus run (run.uuid w.steps)
                    (if 0 < synced then "synced".toList else "no_attachments".toList) w₂ with
                | mk w₃ updated =>
                  rw [hu] at hstatus
                  have hall := hstatus.trans hboth
                  cases updated with
                  | false => exact ⟨_, hall, hfirst, fun h => nomatch h⟩
                  | true =>
                    obtain ⟨recorded, hrest, hbefore, hsome⟩ := ih (total + synced) w₃
                    rw [hall, List.append_assoc] at hrest
                    exact ⟨_, hrest, List.cons_prefix_cons.mpr ⟨rfl, hbefore⟩, fun h => congrArg _ (hsome h)⟩

/-- Whatever is processed, mail to the recipient is recorded under the device alone, and is if it is processed. -/
def Records (s : Server) (rcpt d : Text) : Prop :=
  ∀ run sender recipients mail w, ∃ recorded,
    (processEmail s run sender recipients mail w).1.emails.map record = w.emails.map record ++ recorded ∧
      (∀ r ∈ recorded, r.1 = rcpt → r.2 = d) ∧
      (rcpt ∈ recipients → (processEmail s run sender recipients mail w).2.isSome = true → (rcpt, d) ∈ recorded)

theorem mem_recordsOf {s : Server} {recipients : List Text} {rcpt d : Text} :
    (rcpt, d) ∈ recordsOf s recipients ↔ rcpt ∈ recipients ∧ s.extractDeviceId rcpt = some d := by
  simp only [recordsOf, List.mem_filterMap, Option.map_eq_some_iff, Prod.mk.injEq]
  constructor
  · rintro ⟨_, hmem, _, hid, rfl, rfl⟩
    exact ⟨hmem, hid⟩
  · rintro ⟨hmem, hid⟩
    exact ⟨rcpt, hmem, d, hid, rfl, rfl⟩

theorem records_iff (s : Server) (rcpt d : Text) : Records s rcpt d ↔ s.extractDeviceId rcpt = some d := by
  constructor
  · intro h
    obtain ⟨recorded, hrecorded, -, hmem⟩ :=
      h ⟨fun _ => false, fun _ => [], fun _ => []⟩ [] [rcpt] ⟨[], [], none, none, none, []⟩ ⟨[], [], [], 0⟩
    obtain ⟨recorded', hrecorded', -, hall⟩ := processRecipients_records s ⟨fun _ => false, fun _ => [], fun _ => []⟩ []
      ⟨[], [], none, none, none, []⟩ [rcpt] 0 ⟨[], [], [], 0⟩
    have hsome : (processEmail s ⟨fun _ => false, fun _ => [], fun _ => []⟩ [] [rcpt] ⟨[], [], none, none, none, []⟩
        ⟨[], [], [], 0⟩).2.isSome = true := by
      unfold processEmail processRecipients
      cases s.extractDeviceId rcpt with
      | none => rfl
      | some id => rfl
    have hmem := hmem List.mem_cons_self hsome
    rw [List.append_cancel_left (hrecorded.symm.trans hrecorded'), hall hsome] at hmem
    exact (mem_recordsOf.mp hmem).2
  · intro hid run sender recipients mail w
    obtain ⟨recorded, hrecorded, hbefore, hall⟩ := processRecipients_records s run sender mail recipients 0 { w with steps := 0 }
    refine ⟨recorded, hrecorded, fun r hr hrcpt => ?_, fun hmem hsome => ?_⟩
    · obtain ⟨rcpt', d'⟩ := r
      obtain rfl : rcpt' = rcpt := hrcpt
      have hid' := (mem_recordsOf.mp (hbefore.subset hr)).2
      exact Option.some.inj (hid'.symm.trans hid)
    · rw [hall hsome]
      exact mem_recordsOf.mpr ⟨hmem, hid⟩

/-! ## What is looked up -/

variable {s : Server} {d localPart domain : Text}

theorem ascii_ascii (t : Text) : ascii (ascii t) = ascii t := by
  rw [ascii, ascii, List.map_map]
  exact List.map_congr_left fun c _ => toLower_of_not_isUpper (not_isUpper_toLower c)

theorem eqIgnoreAsciiCase_iff {a b : Text} : eqIgnoreAsciiCase a b = true ↔ ascii a = ascii b := beq_iff_eq

theorem getDevice_congr {a b : Text} (h : ascii a = ascii b) : s.getDevice a = s.getDevice b := by
  have hsame : ∀ d : Text, eqIgnoreAsciiCase d a = eqIgnoreAsciiCase d b := fun d => congrArg (ascii d == ·) h
  rw [Server.getDevice, Server.getDevice, funext hsame]

theorem getDevice_spec {id : Text} (h : s.getDevice id = some d) : d ∈ s.devices ∧ ascii d = ascii id := by
  unfold Server.getDevice at h
  have hfound := List.find?_some h
  exact ⟨List.mem_of_find?_eq_some h, eqIgnoreAsciiCase_iff.mp hfound⟩

/-- The device that is found has the id in the address for its lowercase, and that in uppercase is recorded. -/
theorem lookUp_spec (hlower : Lowercases same s.toLowercase) (h : s.lookUp a = some d) :
    d ∈ s.devices ∧ '@' ∉ d ∧ s.getDevice d = some d ∧ s.toLowercase d = ascii d ∧
      s.extractDeviceId a = some (s.toUppercase (s.toLowercase d)) ∧
      ∃ l dm, split '@' a = [l, dm] ∧ s.toLowercase dm = ascii d ++ s.expectedSuffix := by
  obtain ⟨l, dm, id, hsplit, -, hid, hget⟩ := lookUp_eq_some.mp h
  obtain ⟨hmem, hsame⟩ := getDevice_spec hget
  have hpart : ∀ c ∈ id, ¬c.isUpper ∧ Same same c ∧ (c = '@' → '@' ∈ dm) := fun c hc =>
    mem_lower hlower (by rw [hid]; exact List.mem_append_left _ hc)
  have hlow : ascii id = id := by
    rw [ascii]
    nth_rewrite 2 [← List.map_id id]
    exact List.map_congr_left fun c hc => toLower_of_not_isUpper (hpart c hc).1
  have hascii : ascii d = id := hsame.trans hlow
  have hchar : ∀ c ∈ d, c.toLower ∈ id := fun c hc => hascii ▸ List.mem_map_of_mem hc
  have hd : s.toLowercase d = ascii d :=
    (lower_eq_ascii hlower d).mpr fun c hc => same_toLower.mp (hpart _ (hchar c hc)).2.1
  refine ⟨hmem, fun hat => ?_, (getDevice_congr hsame).trans hget, hd, ?_, l, dm, hsplit, by rw [hid, hascii]⟩
  · have hdm : dm ∈ split '@' a := by simp [hsplit]
    exact not_mem_of_mem_splitOn hdm ((hpart _ (hchar '@' hat)).2.2 rfl)
  · exact extractDeviceId_eq_some.mpr ⟨l, dm, id, hsplit, hid, by rw [hd, hascii]⟩

/-- A lowercase name of hosts. -/
structure DomainName (s : Server) : Prop where
  lower : s.toLowercase s.domain = s.domain
  plain : ∀ c ∈ s.domain, c ≠ '@' ∧ isWhitespace c = false

/-- In any case of its letters. -/
def SendOrSync (localPart : Text) : Prop :=
  eqIgnoreAsciiCase localPart "send".toList = true ∨ eqIgnoreAsciiCase localPart "sync".toList = true

theorem SendOrSync.cases (h : SendOrSync localPart) : ascii localPart = "send".toList ∨ ascii localPart = "sync".toList :=
  h.imp (fun h => eqIgnoreAsciiCase_iff.mp h) fun h => eqIgnoreAsciiCase_iff.mp h

/-- A property of characters that ASCII case does not matter to. -/
theorem forall_of_ascii {p : Char → Prop} {b : Text} (hp : ∀ c, p c.toLower → p c) (hab : ascii a = b) (hb : ∀ c ∈ b, p c) :
    ∀ c ∈ a, p c := by
  intro c hc
  apply hp
  apply hb
  rw [← hab]
  exact List.mem_map_of_mem hc

theorem ne_at_of_toLower (c : Char) (h : c.toLower ≠ '@' ∧ isWhitespace c.toLower = false) :
    c ≠ '@' ∧ isWhitespace c = false := by
  rw [isWhitespace_toLower] at h
  refine ⟨?_, h.2⟩
  rintro rfl
  exact h.1 rfl

theorem SendOrSync.plain (h : SendOrSync localPart) : ∀ c ∈ localPart, c ≠ '@' ∧ isWhitespace c = false := by
  obtain h | h := h.cases
  · exact forall_of_ascii ne_at_of_toLower h (List.forall_iff_forall_mem.mp (by decide))
  · exact forall_of_ascii ne_at_of_toLower h (List.forall_iff_forall_mem.mp (by decide))

theorem DomainName.ascii (hlower : Lowercases same s.toLowercase) (hs : DomainName s) : ascii s.domain = s.domain := by
  have h := ascii_lower hlower s.domain
  rwa [hs.lower] at h

theorem DomainName.plain_of (hlower : Lowercases same s.toLowercase) (hs : DomainName s)
    (h : eqIgnoreAsciiCase domain s.domain = true) : ∀ c ∈ domain, c ≠ '@' ∧ isWhitespace c = false :=
  forall_of_ascii ne_at_of_toLower ((eqIgnoreAsciiCase_iff.mp h).trans (hs.ascii hlower)) hs.plain

/-- An address names the device in whatever case it is written. -/
theorem address_spec (hlower : Lowercases same s.toLowercase) (hs : DomainName s) (hlocal : SendOrSync localPart)
    (hdomain : eqIgnoreAsciiCase domain s.domain = true) (hat : '@' ∉ d) (hd : s.toLowercase d = ascii d) :
    s.lookUp (address localPart d domain) = s.getDevice d ∧
      s.extractDeviceId (address localPart d domain) = some (s.toUppercase (s.toLowercase d)) := by
  have hsplit : split '@' (address localPart d domain) = [localPart, d ++ '.' :: domain] := by
    refine split_address (fun h => (hlocal.plain _ h).1 rfl) ?_
    rw [List.mem_append, List.mem_cons]
    rintro (h | h | h)
    · exact hat h
    · exact absurd h (by decide)
    · exact (hs.plain_of hlower hdomain _ h).1 rfl
  have hascii : EmailAddresses.ascii domain = s.domain := (eqIgnoreAsciiCase_iff.mp hdomain).trans (hs.ascii hlower)
  have hsame : ∀ c ∈ domain, Same same c := by
    refine forall_of_ascii (fun c h => same_toLower.mp h) hascii fun c hc => ?_
    rw [← hs.lower] at hc
    exact (mem_lower hlower hc).2.1
  have hdm : s.toLowercase (d ++ '.' :: domain) = EmailAddresses.ascii d ++ s.expectedSuffix := by
    have hall : ∀ c ∈ d ++ '.' :: domain, Same same c := by
      rw [List.forall_mem_append, List.forall_mem_cons]
      exact ⟨(lower_eq_ascii hlower d).mp hd, fun hbig => absurd hbig (by decide), hsame⟩
    rw [(lower_eq_ascii hlower _).mpr hall, EmailAddresses.ascii, List.map_append, List.map_cons, Server.expectedSuffix]
    exact congrArg (fun t => EmailAddresses.ascii d ++ '.' :: t) hascii
  have hword : s.toLowercase localPart = EmailAddresses.ascii localPart := by
    refine (lower_eq_ascii hlower _).mpr ?_
    have hsend : ∀ c ∈ "send".toList, c.toNat < 128 :=
      List.forall_iff_forall_mem.mp (show List.Forall (fun c => c.toNat < 128) "send".toList by decide)
    have hsync : ∀ c ∈ "sync".toList, c.toNat < 128 :=
      List.forall_iff_forall_mem.mp (show List.Forall (fun c => c.toNat < 128) "sync".toList by decide)
    obtain h | h := hlocal.cases
    · exact forall_of_ascii (fun c h => same_toLower.mp h) h fun c hc hbig => absurd (hsend c hc) (by omega)
    · exact forall_of_ascii (fun c h => same_toLower.mp h) h fun c hc hbig => absurd (hsync c hc) (by omega)
  constructor
  · rw [← getDevice_congr (ascii_ascii d)]
    ext found
    rw [lookUp_eq_some]
    constructor
    · rintro ⟨l, dm, id, hsplit', -, hid, hget⟩
      rw [hsplit] at hsplit'
      cases hsplit'
      rw [hdm] at hid
      rw [List.append_cancel_right hid]
      exact hget
    · intro hget
      exact ⟨_, _, _, hsplit, by rw [hword]; exact hlocal.cases, hdm, hget⟩
  · exact extractDeviceId_eq_some.mpr ⟨_, _, _, hsplit, hdm, by rw [hd]⟩

/-- The command is accepted, and adds the recipient. -/
def Accepts (s : Server) (line : Bytes) (rcpt : Text) : Prop :=
  ∀ (env : Env) (n : Nat) (e : Envelope), (∀ address, env.validateRecipient n address = s.validateRecipient address) →
    handleCommand env n e line = ({ e with rcptTo := e.rcptTo ++ [rcpt] }, crlf "250 OK", .loop)

theorem accepts_iff {s : Server} {line : Bytes} {arg rcpt : Text}
    (hline : trim (Utf8Codec.decodeLossy line) = "RCPT TO:".toList ++ arg) (hne : extractEmailAddress arg ≠ []) :
    Accepts s line rcpt ↔ rcpt = extractEmailAddress arg ∧ s.validateRecipient rcpt = true := by
  constructor
  · intro h
    have h := h ⟨[], [], 0, 0, 0, fun _ => s.validateRecipient, fun _ _ _ _ => none⟩ 0 .empty fun _ => rfl
    rw [handleCommand, hline, parseCommand_rcpt] at h
    dsimp only at h
    rw [if_neg (by simpa using hne)] at h
    split at h
    next =>
      have hout : crlf "550 Unknown recipient" = crlf "250 OK" := congrArg (fun out => out.2.1) h
      exact absurd hout (by decide)
    next hvalid =>
      have hrcpt : [extractEmailAddress arg] = [rcpt] := congrArg (fun out => out.1.rcptTo) h
      obtain rfl := (List.cons.inj hrcpt).1
      exact ⟨rfl, by simpa using hvalid⟩
  · rintro ⟨rfl, hvalid⟩ env n e henv
    rw [handleCommand, hline, parseCommand_rcpt]
    dsimp only
    rw [if_neg (by simpa using hne), henv, hvalid]
    rfl

/-! ## Delivery -/

def Plain (d : Text) : Prop := ∀ c ∈ d, c ≠ '@' ∧ c ≠ '<' ∧ c ≠ '>' ∧ isWhitespace c = false

/-- Mail to a device is accepted and recorded under it, whatever case the ASCII letters of the domain are in, and mail
that is accepted is recorded under the device found. -/
structure Delivers (s : Server) (params : Text) : Prop where
  named : ∀ d ∈ s.devices, Plain d → ∀ brackets localPart domain line, SendOrSync localPart →
    eqIgnoreAsciiCase domain s.domain = true →
    trim (Utf8Codec.decodeLossy line) = rcptLine brackets (address localPart d domain) params →
    ∃ rcpt, Accepts s line rcpt ∧ Records s rcpt d
  accepted : ∀ rcpt, s.validateRecipient rcpt = true → ∃ d, s.lookUp rcpt = some d ∧ Records s rcpt d

/-- The ids are in upper case, as far as a lookup can find them, and in ASCII upper case if mail is to reach them. -/
structure InUpperCase (s : Server) (params : Text) : Prop where
  plain : ∀ d ∈ s.devices, Plain d →
    s.toLowercase d = ascii d ∧ s.toUppercase (s.toLowercase d) = d ∧ params.getLast? ≠ some '>'
  found : ∀ d ∈ s.devices, '@' ∉ d → s.getDevice d = some d → s.toLowercase d = ascii d →
    s.toUppercase (s.toLowercase d) = d

theorem Plain.no_at (h : Plain d) : '@' ∉ d := fun hat => (h '@' hat).1 rfl

theorem Delivers.found (hlower : Lowercases same s.toLowercase) (hs : DomainName s) (h : Delivers s params)
    (hat : '@' ∉ d) (hget : s.getDevice d = some d) (hd : s.toLowercase d = ascii d) :
    s.toUppercase (s.toLowercase d) = d := by
  have hsend : SendOrSync "send".toList := .inl (eqIgnoreAsciiCase_iff.mpr rfl)
  obtain ⟨hlook, hid⟩ := address_spec hlower hs hsend (eqIgnoreAsciiCase_iff.mpr rfl) hat hd
  rw [hget] at hlook
  obtain ⟨found, hfound, hrecords⟩ := h.accepted _ (by rw [Server.validateRecipient, hlook]; rfl)
  rw [hlook] at hfound
  cases hfound
  exact Option.some.inj (hid.symm.trans ((records_iff _ _ _).mp hrecords))

theorem SendOrSync.head (h : SendOrSync localPart) : ∃ c rest, localPart = c :: rest ∧ c ≠ '<' := by
  cases localPart with
  | nil => obtain h | h := h.cases <;> exact absurd h (by decide)
  | cons c rest =>
    refine ⟨c, rest, rfl, ?_⟩
    rintro rfl
    obtain h | h := h.cases
    · exact absurd (List.cons.inj h).1 (by decide)
    · exact absurd (List.cons.inj h).1 (by decide)

theorem address_plain (hlower : Lowercases same s.toLowercase) (hs : DomainName s) (hlocal : SendOrSync localPart) (hd : Plain d)
    (hdomain : eqIgnoreAsciiCase domain s.domain = true) : ∀ c ∈ address localPart d domain, isWhitespace c = false := by
  rw [address, List.forall_mem_append, List.forall_mem_cons, List.forall_mem_append, List.forall_mem_cons]
  exact ⟨fun c hc => (hlocal.plain c hc).2, rfl, fun c hc => (hd c hc).2.2.2, rfl,
    fun c hc => (hs.plain_of hlower hdomain c hc).2⟩

theorem address_head (hlocal : SendOrSync localPart) (d domain : Text) :
    address localPart d domain ≠ [] ∧ (address localPart d domain).head? ≠ some '<' := by
  obtain ⟨c, rest, rfl, hc⟩ := hlocal.head
  exact ⟨List.cons_ne_nil _ _, fun h => hc (Option.some.inj h)⟩

/-- Brackets that the parameters end make the address longer than the device's. -/
theorem Delivers.plain (hlower : Lowercases same s.toLowercase) (hs : DomainName s) (hparams : Params params)
    (h : Delivers s params) (hmem : d ∈ s.devices) (hd : Plain d) :
    s.toLowercase d = ascii d ∧ s.toUppercase (s.toLowercase d) = d ∧ params.getLast? ≠ some '>' := by
  have hsend : SendOrSync "send".toList := .inl (eqIgnoreAsciiCase_iff.mpr rfl)
  have hsame : eqIgnoreAsciiCase s.domain s.domain = true := eqIgnoreAsciiCase_iff.mpr rfl
  have hextract := extract_bracketed (address_plain hlower hs hsend hd hsame) hparams
  have hne : extractEmailAddress (withBrackets true (address "send".toList d s.domain) ++ params) ≠ [] := by
    rw [hextract]
    split
    · exact List.cons_ne_nil _ _
    · exact List.cons_ne_nil _ _
  have hline := trim_rcptLine (address "send".toList d s.domain) hparams
  obtain ⟨rcpt, haccepts, hrecords⟩ := h.named d hmem hd true _ _ _ hsend hsame hline
  obtain ⟨hrcpt, hvalid⟩ := (accepts_iff hline hne).mp haccepts
  obtain ⟨found, hlook, hfound⟩ := h.accepted rcpt hvalid
  obtain rfl : d = found := Option.some.inj (((records_iff _ _ _).mp hrecords).symm.trans ((records_iff _ _ _).mp hfound))
  obtain ⟨-, -, -, hlow, hid, l, dm, hsplit, hdm⟩ := lookUp_spec hlower hlook
  refine ⟨hlow, Option.some.inj (hid.symm.trans ((records_iff _ _ _).mp hrecords)), fun hlast => ?_⟩
  rw [hextract, if_pos hlast] at hrcpt
  have hwhole : rcpt = "send".toList ++ '@' :: (d ++ '.' :: s.domain ++ '>' :: params.dropLast) := by
    rw [hrcpt, address, List.append_assoc, List.cons_append]
  rw [hwhole, split, splitOn_append_sep '@' _ _ (by decide)] at hsplit
  have hrest : d ++ '.' :: s.domain ++ '>' :: params.dropLast = dm := by
    have hparts := congrArg (List.intercalate ['@']) (List.cons.inj hsplit).2
    rwa [List.intercalate_splitOn, List.intercalate_singleton] at hparts
  have hlength := length_le_lower hlower dm
  rw [hdm, ← hrest, Server.expectedSuffix, ascii] at hlength
  simp only [List.length_append, List.length_cons, List.length_map] at hlength
  omega

/-- Mail reaches the devices it names exactly if their ids are in upper case. -/
theorem mail_reaches_device_iff (same : Char → Bool) (s : Server) (params : Text) (hlower : Lowercases same s.toLowercase)
    (hs : DomainName s) (hparams : Params params) : Delivers s params ↔ InUpperCase s params := by
  constructor
  · intro h
    exact ⟨fun d hmem hd => h.plain hlower hs hparams hmem hd, fun d _ hat hget hd => h.found hlower hs hat hget hd⟩
  · intro h
    constructor
    · intro d hmem hd brackets localPart domain line hlocal hdomain hline
      obtain ⟨hlow, hupper, hlast⟩ := h.plain d hmem hd
      have ha := address_plain hlower hs hlocal hd hdomain
      obtain ⟨hne, hhead⟩ := address_head hlocal d domain
      have hextract : extractEmailAddress (withBrackets brackets (address localPart d domain) ++ params) =
          address localPart d domain := by
        cases brackets with
        | true => rw [extract_bracketed ha hparams, if_neg hlast]
        | false => exact extract_bare ha hne hhead hparams
      obtain ⟨hlook, hid⟩ := address_spec hlower hs hlocal hdomain hd.no_at hlow
      have hvalid : s.validateRecipient (address localPart d domain) = true := by
        rw [Server.validateRecipient, hlook]
        exact List.find?_isSome.mpr ⟨d, hmem, eqIgnoreAsciiCase_iff.mpr rfl⟩
      refine ⟨_, (accepts_iff hline (by rw [hextract]; exact hne)).mpr ⟨hextract.symm, hvalid⟩, (records_iff _ _ _).mpr ?_⟩
      rw [hid, hupper]
    · intro rcpt hvalid
      obtain ⟨d, hlook⟩ := Option.isSome_iff_exists.mp hvalid
      obtain ⟨hmem, hat, hget, hd, hid, -⟩ := lookUp_spec hlower hlook
      rw [h.found d hmem hat hget hd] at hid
      exact ⟨d, hlook, (records_iff _ _ _).mpr hid⟩

/-! ## ASCII -/

theorem lowercases_ascii : Lowercases (fun _ => true) (List.map Char.toLower) := by
  intro t
  refine ⟨t.map fun c => [c.toLower], ?_, by rw [← List.flatMap_def, List.map_eq_flatMap]⟩
  induction t with
  | nil => exact .nil
  | cons c t ih =>
    refine .cons ?_ ih
    unfold LowersTo
    split
    · rfl
    next hbig =>
      have hupper : ¬c.isUpper := fun hu => hbig (ascii_of_isUpper hu)
      dsimp only
      rw [toLower_of_not_isUpper hupper]
      refine ⟨List.cons_ne_nil _ _, iff_of_true rfl rfl, fun d hd => ?_⟩
      rw [List.mem_singleton.mp hd]
      exact ⟨hupper, fun h => hbig (h ▸ by decide), fun _ => rfl⟩

/-- ASCII case mappings, and one device. -/
def serverOf (id : Text) : Server := ⟨"local".toList, [id], List.map Char.toLower, List.map Char.toUpper⟩

theorem serverOf_domain (id : Text) : DomainName (serverOf id) :=
  ⟨rfl, List.forall_iff_forall_mem.mp (show List.Forall (fun c => c ≠ '@' ∧ isWhitespace c = false) "local".toList by decide)⟩

theorem noParams : Params [] := ⟨fun _ h => (nomatch h), fun _ h => (nomatch h)⟩

theorem upper_id_delivers : Delivers (serverOf "RM110".toList) [] := by
  refine (mail_reaches_device_iff _ _ [] lowercases_ascii (serverOf_domain _) noParams).mpr ⟨fun d hd _ => ?_, fun d hd _ _ _ => ?_⟩
  · rw [List.mem_singleton.mp hd]
    decide
  · rw [List.mem_singleton.mp hd]
    decide

/-- Mail to the device `dev` is recorded under `DEV`. -/
theorem lower_id_is_not_recorded : ¬ ∀ (same : Char → Bool) (s : Server) (params : Text), Lowercases same s.toLowercase →
    DomainName s → Params params → Delivers s params := by
  intro h
  have hdelivers := h _ (serverOf "dev".toList) [] lowercases_ascii (serverOf_domain _) noParams
  obtain ⟨d, hlook, hrecords⟩ := hdelivers.accepted "send@dev.local".toList (by decide)
  have hfound : (serverOf "dev".toList).lookUp "send@dev.local".toList = some "dev".toList := by decide
  have hid : (serverOf "dev".toList).extractDeviceId "send@dev.local".toList = some "DEV".toList := by decide
  rw [hfound] at hlook
  rw [records_iff, hid, ← hlook] at hrecords
  exact absurd hrecords (by decide)

end EmailAddresses
