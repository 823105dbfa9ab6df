import RemarkableServer.Smtp

/-!
# The lines of an SMTP session

However the stream arrives, and wherever the bounded reads cut its lines, the session runs
the commands and hands on the messages that a reader of whole lines finds in it.
-/
namespace SmtpFraming

open RustText BufRead Smtp

variable {env : Env} {cap n rounds : Nat} {r : Reader} {xs l : Bytes} {lines : List Bytes}

/-! ## The plain reader -/

/-- A line with its end that is no longer than the cap, or a last one without an end that is shorter. -/
def fits (cap : Nat) (l : Bytes) : Bool :=
  if pieceEndsLine l then decide (l.length ≤ cap) else decide (l.length < cap)

/-- The next line is a command, or belongs to the message, whose text so far is given. -/
inductive Mode where
  | command (e : Envelope)
  | data (e : Envelope) (text : Bytes)

/-- What a session makes of whole lines. -/
def plainSession (env : Env) : Nat → Mode → List Bytes → List Out
  | _, _, [] => []
  | n, .command e, l :: lines =>
    if fits env.commandCap l then
      match handleCommand env n e l with
      | (e, out, .loop) => .command l :: out :: plainSession env (n + 1) (.command e) lines
      | (_, out, .close) => [.command l, out]
      | (e, out, .data) => .command l :: out :: plainSession env n (.data e []) lines
    else crlf "500 Line too long" :: plainSession env (n + 1) (.command e) lines
  | n, .data e text, l :: lines =>
    if isTerminator l then
      handOn env n e text (decide (env.maxMessageBytes < text.length)) ++ plainSession env (n + 1) (.command .empty) lines
    else plainSession env n (.data e (text ++ unstuffed l true)) lines

/-! ## Pieces of a line -/

/-- What a read of at most `cap` bytes takes from a stream, and what it leaves. -/
inductive Piece (cap : Nat) (xs buf rest : Bytes) : Prop where
  | eof (hxs : xs = []) (hbuf : buf = []) (hrest : rest = [])
  | whole (hbuf : buf ≠ []) (hends : pieceEndsLine buf = true) (hline : line isLf xs = buf) (hcap : buf.length ≤ cap)
      (hrest : xs = buf ++ rest)
  | part (hbuf : buf ≠ []) (hends : pieceEndsLine buf = false) (hline : line isLf xs = buf ++ line isLf rest)
      (hcap : buf.length ≤ cap) (hrest : xs = buf ++ rest) (hmore : buf.length = cap ∨ rest = [])

theorem piece_take (hcap : 0 < cap) (xs : Bytes) :
    Piece cap xs ((line isLf xs).take cap) (xs.drop ((line isLf xs).take cap).length) := by
  by_cases hxs : xs = []
  · exact .eof hxs (by simp [hxs, line]) (by simp [hxs])
  have hbuf : (line isLf xs).take cap ≠ [] := by
    rw [Ne, List.take_eq_nil_iff, line_eq_nil]
    exact not_or.mpr ⟨hcap.ne', hxs⟩
  have hstart := (List.take_prefix cap _).trans (line_isPrefix isLf xs)
  have hrest := (List.prefix_iff_eq_append.mp hstart).symm
  have hlength : ((line isLf xs).take cap).length ≤ cap := List.length_take_le _ _
  by_cases hwhole : (line isLf xs).take cap = line isLf xs
  · rw [hwhole] at hbuf hrest hlength ⊢
    by_cases hends : pieceEndsLine (line isLf xs) = true
    · exact .whole hbuf hends rfl hlength hrest
    · have hends := Bool.eq_false_iff.mpr hends
      have hall := eq_of_not_ends hends
      have hnil : xs.drop (line isLf xs).length = [] := by rw [hall, List.drop_length]
      exact .part hbuf hends (by rw [hnil, line, List.append_nil]) hlength hrest (.inr hnil)
  · have hlong : cap < (line isLf xs).length := by
      by_contra hshort
      exact hwhole (List.take_of_length_le (by omega))
    have hsplit := (List.take_append_drop cap (line isLf xs)).symm
    have hfree := stop_of_append_line hsplit (List.drop_eq_nil_iff.not.mpr (by omega))
    refine .part hbuf ?_ ?_ hlength hrest (.inl (List.length_take_of_le hlong.le))
    · rw [pieceEndsLine, Option.any_eq_false]
      exact fun x hx => hfree x (List.mem_of_getLast? hx)
    · nth_rewrite 1 [hrest]
      exact line_append hfree _

theorem readPiece_spec (hcap : 0 < cap) (r : Reader) :
    ∃ buf r', readPiece cap r = (buf, r') ∧ Piece cap r.flat buf r'.flat := by
  obtain ⟨hpiece, hrest⟩ := readUntil_spec isLf cap r
  refine ⟨_, _, rfl, ?_⟩
  rw [hrest, hpiece]
  exact piece_take hcap r.flat

theorem swallow_spec (hcap : 0 < cap) (hrounds : r.flat.length < rounds) :
    ∃ r', swallow cap rounds r = some r' ∧ r.flat = line isLf r.flat ++ r'.flat := by
  induction rounds generalizing r with
  | zero => omega
  | succ rounds ih =>
    obtain ⟨buf, r₁, hread, hpiece⟩ := readPiece_spec hcap r
    rw [swallow, hread]
    dsimp only
    cases hpiece with
    | eof hxs hbuf hrest =>
      refine ⟨r₁, if_pos (by simp [hbuf]), ?_⟩
      rw [hxs, hrest]
      rfl
    | whole hbuf hends hline _ hrest =>
      refine ⟨r₁, if_pos (by rw [hends, Bool.or_true]), ?_⟩
      rw [hline]
      exact hrest
    | part hbuf hends hline _ hrest _ =>
      have hpos := List.length_pos_iff.mpr hbuf
      rw [if_neg (by simp [hends, hbuf])]
      obtain ⟨r', hr', hflat⟩ := @ih r₁ (by rw [hrest, List.length_append] at hrounds; omega)
      refine ⟨r', hr', ?_⟩
      rw [hline, List.append_assoc, ← hflat]
      exact hrest

/-! ## Commands -/

theorem flat_length_swallow {r' : Reader} {l : Bytes} (h : r.flat = l ++ r'.flat) (hl : l ≠ []) :
    r'.flat.length < r.flat.length := by
  have hpos := List.length_pos_iff.mpr hl
  rw [h, List.length_append]
  omega

/-- At the end of the stream there is no command; else the next line is one, or is refused. -/
theorem readCommand_spec (hcap : 0 < cap) (r : Reader) :
    (r.flat = [] ∧ ∃ r', readCommand cap r = some (.eof, [], r')) ∨
      (r.flat ≠ [] ∧ ∃ r', r.flat = line isLf r.flat ++ r'.flat ∧
        readCommand cap r =
          some (if fits cap (line isLf r.flat) then (.line, line isLf r.flat, r') else (.tooLong, [], r'))) := by
  obtain ⟨buf, r₁, hread, hpiece⟩ := readPiece_spec hcap r
  rw [readCommand, hread]
  dsimp only
  cases hpiece with
  | eof hxs hbuf hrest =>
    subst hbuf
    exact .inl ⟨hxs, r₁, rfl⟩
  | whole hbuf hends hline hlength hrest =>
    refine .inr ⟨?_, r₁, by rw [hline]; exact hrest, ?_⟩
    · rw [hrest]
      exact List.append_ne_nil_of_left_ne_nil hbuf _
    · rw [if_neg (by simpa using hbuf), hends, Bool.true_or, if_pos rfl, hline, fits, hends, if_pos rfl,
        decide_eq_true hlength, if_pos rfl]
  | part hbuf hends hline hlength hrest hmore =>
    have hxs : r.flat ≠ [] := by
      rw [hrest]
      exact List.append_ne_nil_of_left_ne_nil hbuf _
    have hempty : ¬ (buf.length == 0) = true := by simpa using hbuf
    rw [if_neg hempty, hends, Bool.false_or]
    by_cases hshort : buf.length < cap
    · have hnil : r₁.flat = [] := hmore.resolve_left (by omega)
      have hwhole : line isLf r.flat = buf := by rw [hline, hnil, line, List.append_nil]
      refine .inr ⟨hxs, r₁, by rw [hwhole]; exact hrest, ?_⟩
      rw [hwhole, fits, hends, if_neg Bool.false_ne_true, decide_eq_true hshort, if_pos rfl, if_pos rfl]
    · obtain ⟨r', hr', hflat⟩ := swallow_spec hcap (Nat.lt_succ_self r₁.flat.length)
      refine .inr ⟨hxs, r', ?_, ?_⟩
      · rw [hline, List.append_assoc, ← hflat]
        exact hrest
      · have hlong : fits cap (line isLf r.flat) = false := by
          rw [fits, hline]
          have hcapped : buf.length = cap := by omega
          split
          case isTrue hended =>
            have hne : line isLf r₁.flat ≠ [] := by
              intro hnil
              rw [hnil, List.append_nil, hends] at hended
              cases hended
            have hpos := List.length_pos_iff.mpr hne
            rw [decide_eq_false_iff_not, List.length_append]
            omega
          case isFalse =>
            rw [decide_eq_false_iff_not, List.length_append]
            omega
        rw [decide_eq_false hshort, if_neg Bool.false_ne_true, hr', hlong, if_neg Bool.false_ne_true, Option.map_some]

/-! ## Data -/

/-- The text of a message and the lines after it, if it ends. -/
def plainData : Bool → List Bytes → Option (Bytes × List Bytes)
  | _, [] => none
  | atLineStart, l :: lines =>
    if atLineStart && isTerminator l then some ([], lines)
    else (plainData true lines).map fun (text, rest) => (unstuffed l atLineStart ++ text, rest)

/-- More text, as far as it goes. -/
def more (data : DataBuf) (content : Bytes) : DataBuf :=
  if data.overflow then data
  else if data.max < data.buf.length + content.length then { data with overflow := true, buf := [] }
  else { data with buf := data.buf ++ content }

theorem push_eq_more (data : DataBuf) (piece : Bytes) (atLineStart : Bool) :
    data.push piece atLineStart = more data (unstuffed piece atLineStart) := rfl

/-- It does not matter into which parts the text is cut. -/
theorem more_more (data : DataBuf) (a b : Bytes) : more (more data a) b = more data (a ++ b) := by
  unfold more
  by_cases hover : data.overflow = true
  · simp [hover]
  · simp only [hover, Bool.false_eq_true, if_false, List.length_append]
    by_cases ha : data.max < data.buf.length + a.length
    · have hab : data.max < data.buf.length + (a.length + b.length) := by omega
      simp [ha, hab]
    · simp only [ha, if_false, Bool.false_eq_true, List.length_append, Nat.add_assoc, List.append_assoc]

theorem more_nil {data : DataBuf} (h : data.buf.length ≤ data.max) : more data [] = data := by
  unfold more
  split
  · rfl
  · rw [List.length_nil, if_neg (by omega), List.append_nil]

theorem more_bounded {data : DataBuf} (h : data.buf.length ≤ data.max) (content : Bytes) :
    (more data content).buf.length ≤ (more data content).max := by
  unfold more
  split
  · exact h
  · split
    · exact Nat.zero_le _
    · rw [List.length_append]
      dsimp only
      omega

theorem unstuffed_append {a : Bytes} (ha : a ≠ []) (b : Bytes) (atLineStart : Bool) :
    unstuffed (a ++ b) atLineStart = unstuffed a atLineStart ++ b := by
  unfold unstuffed
  rw [List.head?_append_of_ne_nil _ ha]
  split
  · rw [List.tail_append_of_ne_nil ha]
  · rfl

theorem isTerminator_length {l : Bytes} (h : isTerminator l = true) : l.length ≤ 3 ∧ pieceEndsLine l = true := by
  simp only [isTerminator, Bool.or_eq_true, beq_iff_eq] at h
  rcases h with rfl | rfl
  · exact ⟨by decide, rfl⟩
  · exact ⟨by decide, rfl⟩

/-- A line that goes on after a piece of it is text from there on. -/
theorem plainData_part {buf rest : Bytes} {atLineStart : Bool} (hcap : 3 ≤ cap) (hbuf : buf ≠ [])
    (hends : pieceEndsLine buf = false) (hline : line isLf xs = buf ++ line isLf rest) (hrest : xs = buf ++ rest)
    (hmore : buf.length = cap ∨ rest = []) :
    plainData atLineStart (cut isLf xs) = (plainData false (cut isLf rest)).map fun (text, lines) =>
      (unstuffed buf atLineStart ++ text, lines) := by
  have hxs : xs ≠ [] := by
    rw [hrest]
    exact List.append_ne_nil_of_left_ne_nil hbuf _
  have hdrop : xs.drop (line isLf xs).length = rest.drop (line isLf rest).length := by
    rw [hline, List.length_append, ← List.drop_drop, hrest, List.drop_left]
  rw [cut_eq hxs, hdrop, hline]
  have htext : (atLineStart && isTerminator (buf ++ line isLf rest)) = false := by
    rw [Bool.and_eq_false_iff]
    right
    by_contra hterminator
    obtain ⟨hshort, hended⟩ := isTerminator_length (Bool.not_eq_false _ |>.mp hterminator)
    have hmid : line isLf rest ≠ [] := by
      intro hnil
      rw [hnil, List.append_nil, hends] at hended
      cases hended
    have hpos := List.length_pos_iff.mpr hmid
    rw [List.length_append] at hshort
    have hfull : buf.length = cap := hmore.resolve_right fun hnil => hmid (by rw [hnil]; rfl)
    omega
  rw [plainData, htext, if_neg Bool.false_ne_true]
  by_cases hnil : rest = []
  · rw [hnil]
    rfl
  · rw [cut_eq hnil, plainData, Bool.false_and, if_neg Bool.false_ne_true, Option.map_map]
    congr 1
    funext found
    obtain ⟨text, lines⟩ := found
    simp only [Function.comp, unstuffed_append hbuf, List.append_assoc]
    rfl

/-- What is read is the text of whole lines, up to the end of the data. -/
theorem readData_spec (hcap : 3 ≤ cap) {data : DataBuf} (hdata : data.buf.length ≤ data.max) (atLineStart : Bool)
    (hrounds : r.flat.length < rounds) :
    (plainData atLineStart (cut isLf r.flat) = none ∧
        ∃ data' r', readData cap rounds r data atLineStart = some (false, data', r')) ∨
      ∃ text lines, plainData atLineStart (cut isLf r.flat) = some (text, lines) ∧
        ∃ r', cut isLf r'.flat = lines ∧ readData cap rounds r data atLineStart = some (true, more data text, r') := by
  induction rounds generalizing r data atLineStart with
  | zero => omega
  | succ rounds ih =>
    obtain ⟨buf, r₁, hread, hpiece⟩ := readPiece_spec (show 0 < cap by omega) r
    rw [readData, hread]
    dsimp only
    cases hpiece with
    | eof hxs hbuf hrest =>
      subst hbuf
      exact .inl ⟨by rw [hxs]; rfl, data, r₁, rfl⟩
    | whole hbuf hends hline hlength hrest =>
      have hempty : ¬ (buf.length == 0) = true := by simpa using hbuf
      have hxs : r.flat ≠ [] := by
        rw [hrest]
        exact List.append_ne_nil_of_left_ne_nil hbuf _
      have hcut : cut isLf r.flat = buf :: cut isLf r₁.flat := by
        rw [cut_eq hxs, hline]
        nth_rewrite 1 [hrest]
        rw [List.drop_left]
      have hless := flat_length_swallow hrest hbuf
      rw [if_neg hempty, hcut, plainData]
      by_cases hterminator : (atLineStart && isTerminator buf) = true
      · rw [if_pos hterminator, if_pos hterminator]
        exact .inr ⟨[], _, rfl, r₁, rfl, by rw [more_nil hdata]⟩
      · rw [if_neg hterminator, if_neg hterminator, push_eq_more, hends]
        obtain ⟨hnone, hfalse⟩ | ⟨text, lines, hsome, r', hlines, htrue⟩ :=
          @ih r₁ _ (more_bounded hdata (unstuffed buf atLineStart)) true (by omega)
        · exact .inl ⟨by rw [hnone]; rfl, hfalse⟩
        · rw [more_more] at htrue
          exact .inr ⟨unstuffed buf atLineStart ++ text, lines, by rw [hsome]; rfl, r', hlines, htrue⟩
    | part hbuf hends hline hlength hrest hmore =>
      have hempty : ¬ (buf.length == 0) = true := by simpa using hbuf
      have hterminator : ¬ (atLineStart && isTerminator buf) = true := by
        intro h
        rw [(isTerminator_length (Bool.and_eq_true _ _ ▸ h).2).2] at hends
        cases hends
      have hless := flat_length_swallow hrest hbuf
      rw [if_neg hempty, if_neg hterminator, push_eq_more, hends,
        plainData_part hcap hbuf hends hline hrest hmore]
      obtain ⟨hnone, hfalse⟩ | ⟨text, lines, hsome, r', hlines, htrue⟩ :=
        @ih r₁ _ (more_bounded hdata (unstuffed buf atLineStart)) false (by omega)
      · exact .inl ⟨by rw [hnone]; rfl, hfalse⟩
      · rw [more_more] at htrue
        exact .inr ⟨unstuffed buf atLineStart ++ text, lines, by rw [hsome]; rfl, r', hlines, htrue⟩

theorem plainData_rest {start : Bool} {text : Bytes} {rest : List Bytes} (h : plainData start lines = some (text, rest)) :
    rest <:+ lines := by
  induction lines generalizing start text with
  | nil => cases h
  | cons l lines ih =>
    rw [plainData] at h
    split at h
    · cases h
      exact List.suffix_cons l _
    · obtain ⟨⟨text', rest'⟩, hrest, heq⟩ := Option.map_eq_some_iff.mp h
      cases heq
      exact (ih hrest).trans (List.suffix_cons l _)

/-- A whole message at once. -/
theorem plainSession_data (n : Nat) (e : Envelope) (text : Bytes) (lines : List Bytes) :
    plainSession env n (.data e text) lines = match plainData true lines with
      | none => []
      | some (more, rest) =>
        handOn env n e (text ++ more) (decide (env.maxMessageBytes < (text ++ more).length)) ++
          plainSession env (n + 1) (.command .empty) rest := by
  induction lines generalizing text with
  | nil => rfl
  | cons l lines ih =>
    rw [plainSession, plainData, Bool.true_and]
    split
    · dsimp only
      rw [List.append_nil]
    · rw [ih]
      cases plainData true lines with
      | none => rfl
      | some found =>
        obtain ⟨more, rest⟩ := found
        simp only [Option.map_some, List.append_assoc]

/-- A text that is too long is not kept, and is not handed on. -/
theorem handOn_more (n : Nat) (e : Envelope) (text : Bytes) :
    handOn env n e (more (.new env.maxMessageBytes) text).buf (more (.new env.maxMessageBytes) text).overflow =
      handOn env n e text (decide (env.maxMessageBytes < text.length)) := by
  unfold more DataBuf.new
  rw [if_neg Bool.false_ne_true, List.length_nil, Nat.zero_add]
  by_cases hlong : env.maxMessageBytes < text.length
  · rw [if_pos hlong, decide_eq_true hlong]
    rfl
  · rw [if_neg hlong, decide_eq_false hlong]
    rfl

/-! ## Sessions -/

theorem sessionLoop_spec (hcommand : 3 ≤ env.commandCap) (hdata : 3 ≤ env.dataCap) (n : Nat) (e : Envelope)
    (hrounds : r.flat.length < rounds) :
    sessionLoop env rounds n r e = some (plainSession env n (.command e) (cut isLf r.flat)) := by
  induction rounds generalizing r n e with
  | zero => omega
  | succ rounds ih =>
    rw [sessionLoop]
    obtain ⟨hxs, r', hread⟩ | ⟨hxs, r₁, hrest, hread⟩ := readCommand_spec (show 0 < env.commandCap by omega) r
    · rw [hread, hxs]
      rfl
    have hless := flat_length_swallow hrest (line_eq_nil.not.mpr hxs)
    have hcut : cut isLf r.flat = line isLf r.flat :: cut isLf r₁.flat := by
      rw [cut_eq hxs]
      congr 2
      exact (congrArg (List.drop (line isLf r.flat).length) hrest).trans List.drop_left
    have hnew : (DataBuf.new env.maxMessageBytes).buf.length ≤ (DataBuf.new env.maxMessageBytes).max := Nat.zero_le _
    rw [hread, hcut, Option.bind_some, plainSession]
    by_cases hfits : fits env.commandCap (line isLf r.flat) = true
    · rw [if_pos hfits, if_pos hfits]
      dsimp only
      obtain ⟨e', out, next⟩ := handleCommand env n e (line isLf r.flat)
      cases next with
      | loop =>
        dsimp only
        rw [ih (n + 1) e' (by omega)]
        rfl
      | close => rfl
      | data =>
        dsimp only
        rw [plainSession_data]
        obtain ⟨hnone, data, r', hread⟩ | ⟨text, lines, hsome, r', hlines, hread⟩ :=
          readData_spec hdata hnew true (Nat.lt_succ_self r₁.flat.length)
        · rw [hread, hnone]
          rfl
        · have hlength : r'.flat.length ≤ r₁.flat.length := by
            obtain ⟨before, hbefore⟩ := plainData_rest hsome
            rw [← flatten_cut isLf r'.flat, ← flatten_cut isLf r₁.flat, ← hbefore, hlines, List.flatten_append,
              List.length_append]
            omega
          rw [hread, hsome, Option.bind_some]
          dsimp only
          rw [ih (n + 1) .empty (by omega), handOn_more, hlines, List.nil_append]
          rfl
    · rw [if_neg hfits, if_neg hfits]
      dsimp only
      rw [ih (n + 1) e (by omega)]
      rfl

/-- However a stream arrives, the session is that of its lines. -/
theorem session_eq_plain (env : Env) (r : Reader) (hcommand : 3 ≤ env.commandCap) (hdata : 3 ≤ env.dataCap) :
    session env r = some (.reply ("220 ".toList ++ env.domain ++ " remarkable-server SMTP\r\n".toList) ::
      plainSession env 0 (.command .empty) (cut isLf r.flat)) := by
  rw [session, sessionLoop_spec hcommand hdata 0 .empty (Nat.lt_succ_self _)]
  rfl

/-- The limits of the server, every recipient known and every message without attachments. -/
def sampleEnv : Env :=
  ⟨"local".toList, "127.0.0.1".toList, 4096, 1024 * 1024, 50 * 1024 * 1024, fun _ _ => true, fun _ _ _ _ => some 0⟩

/-- Lines of 24 bytes at most. -/
def narrowEnv : Env := { sampleEnv with commandCap := 24, dataCap := 24 }

/-- The bytes of an ASCII text. -/
def ascii (t : String) : Bytes := t.toList.map fun c => UInt8.ofNat c.toNat

/-- A message with a dot alone on a line, and a command that is too long. -/
def mail : Bytes :=
  ascii ("MAIL FROM:<a@b>\r\nRCPT TO:<c@local>\r\nDATA\r\nHi\r\n..\r\n.\r\n" ++
    "NOOP 5678901234567890123456789\r\nQUIT\r\n")

/-- The first read ends between the CR and the LF of `DATA`, the second in the dots. -/
def mailInThree : Reader :=
  [⟨mail.take 41, by decide⟩, ⟨(mail.drop 41).take 6, by decide⟩, ⟨mail.drop 47, by decide⟩]

theorem mail_in_three_reads : session narrowEnv mailInThree =
    some [.reply "220 local remarkable-server SMTP\r\n".toList,
      .command (ascii "MAIL FROM:<a@b>\r\n"), crlf "250 OK",
      .command (ascii "RCPT TO:<c@local>\r\n"), crlf "250 OK",
      .command (ascii "DATA\r\n"), crlf "354 End data with <CR><LF>.<CR><LF>",
      .message "a@b".toList ["c@local".toList] (ascii "Hi\r\n.\r\n"),
      crlf "250 OK: 0 attachment(s) queued for sync", crlf "500 Line too long",
      .command (ascii "QUIT\r\n"), crlf "221 Bye"] :=
  (session_eq_plain narrowEnv mailInThree (by decide) (by decide)).trans (by decide +kernel)

end SmtpFraming
