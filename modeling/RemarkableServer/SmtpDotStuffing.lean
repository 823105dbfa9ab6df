import RemarkableServer.SmtpFraming

/-!
# Messages sent with stuffed dots

A sender takes CRLF for the end of a line, the session takes LF. What is handed on is the
message that was sent as long as they see the same dots at the start of a line.
-/
namespace SmtpDotStuffing

open RustText BufRead Smtp SmtpFraming

variable {env : Env} {m p l k : Bytes}

/-! ## The sender -/

/-- Bytes before those of the first line. -/
def glue (a : Bytes) : List Bytes → List Bytes
  | [] => [a]
  | l :: ls => (a ++ l) :: ls

/-- Cut after each CRLF. -/
def crlfLines : Bytes → List Bytes
  | [] => []
  | [a] => [[a]]
  | a :: b :: m => if a == cr && b == lf then [a, b] :: crlfLines m else glue [a] (crlfLines (b :: m))

def dotted (l : Bytes) : Bytes := if l.head? == some dot then dot :: l else l

/-- A dot before each line that begins with one. -/
def stuff (m : Bytes) : Bytes := (crlfLines m).flatMap dotted

def endOfData : Bytes := [dot, cr, lf]

/-- The lines, the first of which may go on from one before. -/
def sent (start : Bool) (ls : List Bytes) : Bytes :=
  if start then ls.flatMap dotted
  else
    match ls with
    | [] => []
    | l :: ls => l ++ ls.flatMap dotted

theorem dotted_append (hl : l ≠ []) (b : Bytes) : dotted (l ++ b) = dotted l ++ b := by
  unfold dotted
  rw [List.head?_append_of_ne_nil _ hl]
  split
  · rfl
  · rfl

theorem glue_glue (a b : Bytes) (ls : List Bytes) : glue a (glue b ls) = glue (a ++ b) ls := by
  cases ls with
  | nil => rfl
  | cons l ls => rw [glue, glue, glue, List.append_assoc]

/-- What the sender takes the next line of the session for. -/
theorem crlfLines_line (hp : lf ∉ p) (m : Bytes) :
    crlfLines (p ++ lf :: m) =
      if p.getLast? = some cr then (p ++ [lf]) :: crlfLines m else glue (p ++ [lf]) (crlfLines m) := by
  have hlf : crlfLines (lf :: m) = glue [lf] (crlfLines m) := by
    cases m with
    | nil => rfl
    | cons b m => exact if_neg (by simp [lf, cr])
  induction p with
  | nil => exact hlf
  | cons a p ih =>
    have ih := ih fun hmem => hp (List.mem_cons_of_mem a hmem)
    cases p with
    | nil =>
      rw [List.cons_append, List.nil_append, crlfLines]
      by_cases ha : a = cr
      · simp [ha]
      · simp [ha, hlf, glue_glue]
    | cons b p =>
      have hb : b ≠ lf := fun hb => hp (by simp [hb])
      rw [List.cons_append, List.cons_append, crlfLines, if_neg (by simp [hb]), ← List.cons_append, ih,
        List.getLast?_cons_cons]
      by_cases hcr : (b :: p).getLast? = some cr
      · rw [if_pos hcr, if_pos hcr]
        rfl
      · rw [if_neg hcr, if_neg hcr, glue_glue]
        rfl

theorem sent_line (hp : lf ∉ p) (m : Bytes) (start : Bool) :
    sent start (crlfLines (p ++ lf :: m)) =
      (if start then dotted (p ++ [lf]) else p ++ [lf]) ++ sent (p.getLast? == some cr) (crlfLines m) := by
  have hne : p ++ [lf] ≠ [] := by simp
  rw [crlfLines_line hp]
  by_cases hcr : p.getLast? = some cr
  · rw [if_pos hcr, beq_iff_eq.mpr hcr]
    cases start
    · rfl
    · rfl
  · rw [if_neg hcr, beq_eq_false_iff_ne.mpr hcr]
    cases crlfLines m with
    | nil => cases start <;> simp [sent, glue]
    | cons l ls =>
      cases start
      · exact List.append_assoc _ _ _
      · rw [glue, sent, if_pos rfl, List.flatMap_cons, dotted_append hne, List.append_assoc]
        rfl

/-! ## The session -/

/-- Every line of the session that begins with a dot begins a line of the sender. -/
def DotsAfterCrlf (m : Bytes) : Prop := ∀ p q, m = p ++ lf :: dot :: q → p.getLast? = some cr

/-- For what follows the start of a line, or does not. -/
def Clean (start : Bool) (m : Bytes) : Prop := (start = false → m.head? ≠ some dot) ∧ DotsAfterCrlf m

theorem dotsAfterCrlf_line (hp : lf ∉ p) (m : Bytes) :
    DotsAfterCrlf (p ++ lf :: m) ↔ Clean (p.getLast? == some cr) m := by
  constructor
  · intro h
    constructor
    · intro hcr hdot
      obtain ⟨q, hq⟩ := List.head?_eq_some_iff.mp hdot
      rw [hq] at h
      exact beq_eq_false_iff_ne.mp hcr (h p q rfl)
    · intro s q hm
      have hlast := h (p ++ lf :: s) q (by rw [hm, List.append_assoc, List.cons_append])
      cases s with
      | nil => simp [lf, cr] at hlast
      | cons b s => simpa [List.getLast?_append, List.getLast?_cons_cons] using hlast
  · rintro ⟨hstart, hdots⟩ s q hm
    obtain ⟨t, ht, hrest⟩ | ⟨t, ht, hrest⟩ := List.append_eq_append_iff.mp hm
    · cases t with
      | nil =>
        rw [ht, List.append_nil]
        by_contra hcr
        refine hstart (beq_eq_false_iff_ne.mpr hcr) ?_
        rw [(List.cons.inj hrest).2]
        rfl
      | cons b t =>
        have hlast := hdots t q (List.cons.inj hrest).2
        rw [ht, List.getLast?_append, List.getLast?_cons, hlast]
        rfl
    · cases t with
      | nil =>
        rw [List.append_nil] at ht
        by_contra hcr
        refine hstart (beq_eq_false_iff_ne.mpr (ht ▸ hcr)) ?_
        rw [← (List.cons.inj hrest).2]
        rfl
      | cons b t =>
        refine absurd ?_ hp
        rw [ht, ← (List.cons.inj hrest).1]
        simp

theorem cut_line (hp : lf ∉ p) (xs : Bytes) : cut isLf (p ++ [lf] ++ xs) = (p ++ [lf]) :: cut isLf xs := by
  have hfree : ∀ b ∈ p, isLf b = false := fun b hb => beq_eq_false_iff_ne.mpr fun hlf => hp (hlf ▸ hb)
  have hline : line isLf (p ++ [lf] ++ xs) = p ++ [lf] := by
    rw [List.append_assoc, line_append hfree]
    rfl
  rw [cut_eq (by simp), hline, List.drop_left]

theorem exists_line (hne : m ≠ []) (hends : pieceEndsLine m = true) :
    ∃ p m', m = p ++ lf :: m' ∧ lf ∉ p ∧ (m' = [] ∨ pieceEndsLine m' = true) := by
  obtain ⟨b, hlast, hb⟩ := (Option.any_eq_true _ _).mp hends
  obtain rfl : b = lf := beq_iff_eq.mp hb
  obtain ⟨p, m', rfl, hp⟩ := List.eq_append_cons_of_mem (List.mem_of_getLast? hlast)
  refine ⟨p, m', rfl, hp, ?_⟩
  cases m' with
  | nil => exact .inl rfl
  | cons b m' =>
    rw [List.getLast?_append, List.getLast?_cons_cons] at hlast
    refine .inr (Option.any_eq_true _ _ |>.mpr ⟨lf, ?_, rfl⟩)
    cases h : (b :: m').getLast? with
    | none => simp at h
    | some c => rwa [h] at hlast

theorem isTerminator_head (h : isTerminator l = true) : l.head? = some dot := by
  simp only [isTerminator, Bool.or_eq_true, beq_iff_eq] at h
  obtain rfl | rfl := h
  · rfl
  · rfl

theorem unstuffed_plain (h : l.head? ≠ some dot) : isTerminator l = false ∧ unstuffed l true = l := by
  constructor
  · exact Bool.eq_false_iff.mpr fun hend => h (isTerminator_head hend)
  · exact if_neg (by simpa using h)

theorem unstuffed_dot (h : l.head? = some dot) : (unstuffed l true).length < l.length := by
  obtain ⟨l, rfl⟩ := List.head?_eq_some_iff.mp h
  simp [unstuffed]

/-- The session undoes what the sender does to a line, and no such line ends the data. -/
theorem unstuffed_dotted (l : Bytes) : isTerminator (dotted l) = false ∧ unstuffed (dotted l) true = l := by
  by_cases h : l.head? = some dot
  · obtain ⟨l, rfl⟩ := List.head?_eq_some_iff.mp h
    exact ⟨by simp [dotted, isTerminator, dot, cr, lf], by simp [dotted, unstuffed]⟩
  · have hsame : dotted l = l := if_neg (by simpa using h)
    rw [hsame]
    exact unstuffed_plain h

theorem dotted_line (hp : lf ∉ p) : ∃ s, dotted (p ++ [lf]) = s ++ [lf] ∧ lf ∉ s := by
  unfold dotted
  split
  · refine ⟨dot :: p, rfl, fun hmem => ?_⟩
    obtain hdot | hmem := List.mem_cons.mp hmem
    · exact absurd hdot (by decide)
    · exact hp hmem
  · exact ⟨p, rfl, hp⟩

/-- The session takes no more than was sent, and all of it if every dot is where the sender put it. -/
theorem plainData_sent (hm : m = [] ∨ pieceEndsLine m = true) (start : Bool) (k : Bytes) :
    ∃ text rest, plainData true (cut isLf (sent start (crlfLines m) ++ (endOfData ++ k))) = some (text, rest) ∧
      text.length ≤ m.length ∧ (Clean start m → text = m ∧ rest = cut isLf k) ∧ (¬ Clean start m → text.length < m.length) := by
  induction hn : m.length using Nat.strong_induction_on generalizing m start with
  | _ n ih =>
  obtain rfl | hne := eq_or_ne m []
  · have hclean : Clean start [] := ⟨fun _ h => (nomatch h), fun p q h => absurd h (by simp)⟩
    have hcut : cut isLf (endOfData ++ k) = endOfData :: cut isLf k := @cut_line [dot, cr] (by decide) k
    have hsent : sent start (crlfLines []) = [] := by cases start <;> rfl
    rw [hsent, List.nil_append, hcut]
    exact ⟨[], _, rfl, Nat.zero_le _, fun _ => ⟨rfl, rfl⟩, fun h => absurd hclean h⟩
  obtain ⟨p, m', rfl, hp, hm'⟩ := exists_line hne (hm.resolve_left hne)
  have hline : p ++ lf :: m' = p ++ [lf] ++ m' := List.append_cons p lf m'
  have hlength : n = (p ++ [lf]).length + m'.length := by rw [← hn, hline, List.length_append]
  obtain ⟨text, rest, hdata, hle, hclean, hless⟩ := ih m'.length (by simp [hlength]) hm' (p.getLast? == some cr) rfl
  have hhead : (p ++ lf :: m').head? = (p ++ [lf]).head? := by rw [hline, List.head?_append_of_ne_nil _ (by simp)]
  rw [sent_line hp, List.append_assoc, Clean, dotsAfterCrlf_line hp, hhead]
  by_cases hdot : start = false ∧ (p ++ [lf]).head? = some dot
  · obtain ⟨rfl, hdot⟩ := hdot
    have hnot : ¬ Clean false (p ++ lf :: m') := fun h => h.1 rfl (hhead ▸ hdot)
    rw [Clean, dotsAfterCrlf_line hp, hhead] at hnot
    rw [if_neg Bool.false_ne_true, cut_line hp, plainData, Bool.true_and]
    -- What the sender took for text is the end of the data, or a stuffed dot.
    by_cases hend : isTerminator (p ++ [lf]) = true
    · rw [if_pos hend]
      have hpos : ([] : Bytes).length < n := by
        rw [hlength, List.length_append]
        exact Nat.lt_add_right _ (Nat.lt_add_left _ Nat.zero_lt_one)
      exact ⟨[], _, rfl, hpos.le, fun h => absurd h hnot, fun _ => hpos⟩
    · have hshort := unstuffed_dot hdot
      rw [if_neg hend, hdata]
      have hlength : (unstuffed (p ++ [lf]) true ++ text).length < n := by
        rw [List.length_append, hlength]
        omega
      exact ⟨_, _, rfl, hlength.le, fun h => absurd h hnot, fun _ => hlength⟩
  · have hsame : ∃ s, (if start = true then dotted (p ++ [lf]) else p ++ [lf]) = s ++ [lf] ∧ lf ∉ s ∧
        isTerminator (s ++ [lf]) = false ∧ unstuffed (s ++ [lf]) true = p ++ [lf] := by
      cases start with
      | true =>
        obtain ⟨s, hs, hfree⟩ := dotted_line hp
        obtain ⟨hend, hun⟩ := unstuffed_dotted (p ++ [lf])
        rw [hs] at hend hun
        exact ⟨s, hs, hfree, hend, hun⟩
      | false =>
        obtain ⟨hend, hun⟩ := unstuffed_plain fun h => hdot ⟨rfl, h⟩
        exact ⟨p, rfl, hp, hend, hun⟩
    obtain ⟨s, hs, hfree, hend, hun⟩ := hsame
    have hplain : plainData true (cut isLf (s ++ [lf] ++ (sent (p.getLast? == some cr) (crlfLines m') ++ (endOfData ++ k)))) =
        some (p ++ [lf] ++ text, rest) := by
      rw [cut_line hfree, plainData, hend, hdata, hun]
      rfl
    rw [hs, hplain]
    refine ⟨_, _, rfl, ?_, ?_, ?_⟩
    · rw [List.length_append, hlength]
      omega
    · rintro ⟨-, hm'⟩
      obtain ⟨rfl, rfl⟩ := hclean hm'
      exact ⟨hline.symm, rfl⟩
    · intro hnot
      have hshort := hless fun hm' => hnot ⟨fun hstart h => hdot ⟨hstart, h⟩, hm'⟩
      rw [List.length_append, hlength]
      omega

/-- A line on which the message follows. -/
structure DataLine (env : Env) (l : Bytes) : Prop where
  ended : ∃ p, l = p ++ [lf] ∧ lf ∉ p
  short : l.length ≤ env.commandCap
  data : parseCommand (trim (Utf8Codec.decodeLossy l)) = .data

/-- The message as it was sent is handed on, and the session goes on with the lines after it. -/
def exactly (env : Env) (n : Nat) (sender : Text) (rcpts : List Text) (l m k : Bytes) : List Out :=
  [.command l, crlf "354 End data with <CR><LF>.<CR><LF>", .message sender rcpts m,
      processed (env.processEmail n sender rcpts m)] ++
    plainSession env (n + 1) (.command .empty) (cut isLf k)

theorem DataLine.handled {n : Nat} {sender : Text} {rcpts : List Text} (hl : DataLine env l) (hrcpts : rcpts ≠ []) :
    fits env.commandCap l = true ∧
      handleCommand env n ⟨some sender, rcpts⟩ l = (⟨some sender, rcpts⟩, crlf "354 End data with <CR><LF>.<CR><LF>", .data) := by
  obtain ⟨p, rfl, hp⟩ := hl.ended
  constructor
  · rw [fits, if_pos (by simp [pieceEndsLine, isLf]), decide_eq_true hl.short]
  · rw [handleCommand, hl.data]
    simp [hrcpts]

/-- A message is handed on as it was sent exactly if no dot in it follows an LF without a CR. -/
theorem data_exact_iff (env : Env) (r : Reader) (n rounds : Nat) (sender : Text) (rcpts : List Text) (l m k : Bytes)
    (hcommand : 3 ≤ env.commandCap) (hdata : 3 ≤ env.dataCap) (hrcpts : rcpts ≠ []) (hl : DataLine env l)
    (hsize : m.length ≤ env.maxMessageBytes) (hends : [cr, lf] <:+ m) (hflat : r.flat = l ++ (stuff m ++ (endOfData ++ k)))
    (hrounds : r.flat.length < rounds) :
    sessionLoop env rounds n r ⟨some sender, rcpts⟩ = some (exactly env n sender rcpts l m k) ↔ DotsAfterCrlf m := by
  have hm : pieceEndsLine m = true := by
    obtain ⟨p, rfl⟩ := hends
    simp [pieceEndsLine, isLf]
  obtain ⟨text, rest, htext, hle, hclean, hless⟩ := plainData_sent (.inr hm) true k
  obtain ⟨hfits, hhandle⟩ := @DataLine.handled env l n sender rcpts hl hrcpts
  have hstart : Clean true m ↔ DotsAfterCrlf m := and_iff_right fun h => Bool.noConfusion h
  have hlong : decide (env.maxMessageBytes < text.length) = false := decide_eq_false (by omega)
  have hcut : cut isLf r.flat = l :: cut isLf (stuff m ++ (endOfData ++ k)) := by
    obtain ⟨p, rfl, hp⟩ := hl.ended
    rw [hflat, cut_line hp]
  have hsession : sessionLoop env rounds n r ⟨some sender, rcpts⟩ =
      some ([.command l, crlf "354 End data with <CR><LF>.<CR><LF>", .message sender rcpts text,
        processed (env.processEmail n sender rcpts text)] ++ plainSession env (n + 1) (.command .empty) rest) := by
    rw [sessionLoop_spec hcommand hdata n _ hrounds, hcut, plainSession, if_pos hfits, hhandle]
    dsimp only
    rw [plainSession_data, show stuff m = sent true (crlfLines m) from rfl, htext]
    dsimp only
    rw [List.nil_append, hlong]
    rfl
  rw [hsession, exactly]
  constructor
  · intro h
    have hsame : text = m := by
      simp only [Option.some.injEq, List.cons_append, List.cons.injEq, Out.message.injEq, true_and] at h
      exact h.1
    by_contra hnot
    exact absurd (congrArg List.length hsame) (hless (hstart.not.mpr hnot)).ne
  · intro h
    obtain ⟨rfl, rfl⟩ := hclean (hstart.mpr h)
    rfl

/-- `DATA`. -/
def dataLine : Bytes := [0x44, 0x41, 0x54, 0x41, cr, lf]

theorem dataLine_is : DataLine sampleEnv dataLine := ⟨⟨dataLine.dropLast, rfl, by decide⟩, by decide, by decide⟩

def oneRead (b : UInt8) (xs : Bytes) : Reader := [⟨b :: xs, List.cons_ne_nil b xs⟩]

/-- `QUIT`. -/
def quitLine : Bytes := [0x51, 0x55, 0x49, 0x54, cr, lf]

def sentWhole (m : Bytes) : Reader := oneRead 0x44 (dataLine.tail ++ (stuff m ++ (endOfData ++ quitLine)))

/-- A dot alone on the second line. -/
def dotLine : Bytes := [cr, lf, dot, cr, lf]

theorem dotLine_is_exact : sessionLoop sampleEnv 30 2 (sentWhole dotLine) ⟨some ['a'], [['b']]⟩ =
    some (exactly sampleEnv 2 ['a'] [['b']] dataLine dotLine quitLine) := by
  refine (data_exact_iff sampleEnv (sentWhole dotLine) 2 30 ['a'] [['b']] dataLine dotLine quitLine (by decide) (by decide)
    (by decide) dataLine_is (by decide) ⟨[cr, lf, dot], rfl⟩ rfl (by decide)).mpr fun p q h => ?_
  rcases p with _ | ⟨a, _ | ⟨b, _ | ⟨c, _ | ⟨d, _ | ⟨e, p⟩⟩⟩⟩⟩
  · simp [dotLine, cr, lf] at h
  · simp [dotLine] at h
    simp [h]
  · simp [dotLine, dot, lf] at h
  · simp [dotLine, dot, cr, lf] at h
  · simp [dotLine, dot, cr, lf] at h
  · simp [dotLine] at h

/-- An LF, and then what ends the data for the session: RSET is run as a command. -/
def smuggledReset : Bytes := [lf, dot, cr, lf, 0x52, 0x53, 0x45, 0x54, cr, lf]

theorem smuggledReset_is_run : ¬ ∀ (env : Env) (r : Reader) (n rounds : Nat) (sender : Text) (rcpts : List Text) (l m k : Bytes),
    3 ≤ env.commandCap → 3 ≤ env.dataCap → rcpts ≠ [] → DataLine env l → m.length ≤ env.maxMessageBytes → [cr, lf] <:+ m →
    r.flat = l ++ (stuff m ++ (endOfData ++ k)) → r.flat.length < rounds →
    sessionLoop env rounds n r ⟨some sender, rcpts⟩ = some (exactly env n sender rcpts l m k) := by
  intro h
  have hexact := h sampleEnv (sentWhole smuggledReset) 2 40 ['a'] [['b']] dataLine smuggledReset quitLine (by decide)
    (by decide) (by decide) dataLine_is (by decide) ⟨smuggledReset.take 8, rfl⟩ rfl (by decide)
  exact absurd hexact (by decide)

end SmtpDotStuffing
