import RemarkableServer.JsonScan

/-!
# The scanner does not see where its input was cut

Every piece is read by a byte machine that carries the whole sub-state from one
byte to the next. The scanner's runs of plain ASCII and of numeral characters
are shorthands of that machine, up to the content of a buffer already known to
be too long, which nothing reads.
-/
namespace JsonScanChunks

open RustText JsonScan

/-- A buffer without the bytes that nothing reads once it is too long. -/
def settled (c : Capped) : Capped := if c.long then ⟨[], true⟩ else c

/-- A scanner without what no later step reads: buffers over their cap, and the byte offset. -/
def norm (s : Scanner) : Scanner :=
  { s with key := settled s.key, text := settled s.text, offset := 0 }

/-- A caller that drops what it holds when told to restart, then appends. -/
def receive (held : Bytes) (out : Output) : Bytes := (if out.restart then [] else held) ++ out.bytes

/-- What is left of a scanner and its output in the hands of a caller that held `held`. -/
def view (held : Bytes) (p : Scanner × Output) : Scanner × Output := (norm p.1, ⟨true, receive held p.2⟩)

theorem settled_of_long {c : Capped} (h : c.long = true) : settled c = ⟨[], true⟩ := by
  rw [settled, if_pos h]

theorem settled_of_not_long {c : Capped} (h : c.long = false) : settled c = c := by
  rw [settled, h, if_neg Bool.false_ne_true]

@[simp] theorem settled_settled (c : Capped) : settled (settled c) = settled c := by
  cases h : c.long <;> simp [settled, h]

@[simp] theorem settled_empty : settled .empty = .empty := rfl

@[simp] theorem settled_long (c : Capped) : (settled c).long = c.long := by
  cases h : c.long <;> simp [settled, h]

theorem pushKey_long {c : Capped} (h : c.long = true) (more : Bytes) : (c.pushKey more).long = true := by
  unfold Capped.pushKey
  split
  · rfl
  · simp [h]

theorem pushText_long {c : Capped} (h : c.long = true) (cap : Nat) (more : Bytes) :
    (c.pushText cap more).long = true := by
  unfold Capped.pushText
  split
  · rfl
  · simp [h]

@[simp] theorem pushKey_settled (c : Capped) (more : Bytes) :
    settled ((settled c).pushKey more) = settled (c.pushKey more) := by
  cases h : c.long with
  | false => rw [settled_of_not_long h]
  | true =>
    rw [settled_of_long h, settled_of_long (pushKey_long h more), settled_of_long (pushKey_long rfl more)]

@[simp] theorem pushText_settled (c : Capped) (cap : Nat) (more : Bytes) :
    settled ((settled c).pushText cap more) = settled (c.pushText cap more) := by
  cases h : c.long with
  | false => rw [settled_of_not_long h]
  | true =>
    rw [settled_of_long h, settled_of_long (pushText_long h cap more), settled_of_long (pushText_long rfl cap more)]

theorem pushKey_append (c : Capped) (a b : Bytes) :
    settled ((c.pushKey a).pushKey b) = settled (c.pushKey (a ++ b)) := by
  cases h : c.long with
  | true =>
    rw [settled_of_long (pushKey_long (pushKey_long h a) b), settled_of_long (pushKey_long h _)]
  | false =>
    by_cases h₁ : c.bytes.length + a.length > keyCap
    · have h₂ : c.bytes.length + (a ++ b).length > keyCap := by rw [List.length_append]; omega
      have h₃ : (c.pushKey a).long = true := by rw [Capped.pushKey, if_pos h₁]
      have h₄ : (c.pushKey (a ++ b)).long = true := by rw [Capped.pushKey, if_pos h₂]
      rw [settled_of_long (pushKey_long h₃ b), settled_of_long h₄]
    · have h₃ : c.pushKey a = { c with bytes := c.bytes ++ a } := by
        rw [Capped.pushKey, if_neg h₁, h]; rfl
      rw [h₃, h]
      simp only [Capped.pushKey, List.length_append, Nat.add_assoc, List.append_assoc, h]
      split_ifs <;> simp_all [settled]

theorem pushText_append (c : Capped) (cap : Nat) (a b : Bytes) :
    settled ((c.pushText cap a).pushText cap b) = settled (c.pushText cap (a ++ b)) := by
  cases h : c.long with
  | true =>
    rw [settled_of_long (pushText_long (pushText_long h cap a) cap b), settled_of_long (pushText_long h cap _)]
  | false =>
    by_cases h₁ : c.bytes.length + a.length > cap
    · have h₂ : c.bytes.length + (a ++ b).length > cap := by rw [List.length_append]; omega
      have h₃ : (c.pushText cap a).long = true := by rw [Capped.pushText, if_pos h₁]
      have h₄ : (c.pushText cap (a ++ b)).long = true := by rw [Capped.pushText, if_pos h₂]
      rw [settled_of_long (pushText_long h₃ cap b), settled_of_long h₄]
    · have h₃ : c.pushText cap a = { c with bytes := c.bytes ++ a } := by
        rw [Capped.pushText, if_neg h₁, h]; rfl
      rw [h₃, h]
      simp only [Capped.pushText, List.length_append, Nat.add_assoc, List.append_assoc, h]
      rfl

@[simp] theorem norm_norm (s : Scanner) : norm (norm s) = norm s := by simp [norm]

@[simp] theorem map_ok {α β ε : Type} (f : α → β) (a : α) : Except.map f (.ok a : Except ε α) = .ok (f a) := rfl
@[simp] theorem map_error {α β ε : Type} (f : α → β) (e : ε) : Except.map f (.error e : Except ε α) = .error e := rfl

theorem beginOther_view (held : Bytes) (s : Scanner) (b : UInt8) (out : Output) :
    ((norm s).beginOther b ⟨true, receive held out⟩).map (view []) = (s.beginOther b out).map (view held) := by
  unfold norm Scanner.beginOther
  split_ifs <;> simp [view, norm, receive]

theorem beginValue_view (held : Bytes) (s : Scanner) (b : UInt8) (out : Output) :
    ((norm s).beginValue b ⟨true, receive held out⟩).map (view []) = (s.beginValue b out).map (view held) := by
  have other : ∀ s' : Scanner, ((norm s').beginOther b ⟨true, receive held out⟩).map (view []) =
      (s'.beginOther b out).map (view held) := fun s' => beginOther_view held s' b out
  unfold Scanner.beginValue
  dsimp only
  rw [show (if (norm s).stack = [.object] then (norm s).member else .other) =
    (if s.stack = [.object] then s.member else .other) from rfl]
  generalize (if s.stack = [Container.object] then s.member else .other) = member
  by_cases hb : b = 0x22
  · simp only [if_pos hb]
    cases member <;> simp [view, norm, receive, Scanner.beginString]
  · simp only [if_neg hb]
    cases member with
    | streamed => exact other { s with streamed := .notString }
    | captured i => exact other { s with captured := s.captured.set i .notString }
    | other => exact other s

theorem structural_view (held : Bytes) (s : Scanner) (b : UInt8) (out : Output) :
    ((norm s).structural b ⟨true, receive held out⟩).map (view []) = (s.structural b out).map (view held) := by
  have value := beginValue_view held s b out
  unfold Scanner.structural
  rw [show (norm s).state = s.state from rfl, show (norm s).stack = s.stack from rfl]
  by_cases hb : isSpace b
  · simp [hb, view, receive]
  simp only [if_neg hb]
  cases s.state with
  | value => exact value
  | arrayStart =>
    dsimp only
    split_ifs
    · simp [view, norm, receive, Scanner.close, Scanner.valueDone]
    · exact value
  | objectStart | key | colon =>
    dsimp only
    split_ifs <;> simp [view, norm, receive, Scanner.close, Scanner.valueDone, Scanner.beginString]
  | afterValue =>
    dsimp only
    rcases s.stack.head? with _ | _ | _
    · rfl
    all_goals
      dsimp only
      split_ifs <;> simp [view, norm, receive, Scanner.close, Scanner.valueDone]
  | done => rfl
  | str | number | literal => simp [view, receive]

theorem literalByte_norm (s : Scanner) (b : UInt8) :
    ((norm s).literalByte b).map norm = (s.literalByte b).map norm := by
  unfold Scanner.literalByte
  rw [show (norm s).literal = s.literal from rfl]
  cases s.literal with
  | nil => rfl
  | cons want rest =>
    dsimp only
    split_ifs <;> simp [norm, Scanner.valueDone]

theorem emit_view (held : Bytes) (s : Scanner) (bytes : Bytes) (out : Output) :
    view [] ((norm s).emit bytes ⟨true, receive held out⟩) = view held (s.emit bytes out) := by
  unfold Scanner.emit
  rw [show (norm s).role = s.role from rfl]
  cases s.role <;> simp [view, norm, receive]

theorem emit_append (held : Bytes) (s : Scanner) (a b : Bytes) (out : Output) :
    view held ((s.emit a out).1.emit b (s.emit a out).2) = view held (s.emit (a ++ b) out) := by
  unfold Scanner.emit
  cases h : s.role <;> simp [view, norm, receive, h, pushKey_append, pushText_append]

theorem endString_norm (s : Scanner) : ((norm s).endString).map norm = (s.endString).map norm := by
  unfold Scanner.endString
  rw [show (norm s).role = s.role from rfl]
  have hkey : (norm s).key = settled s.key := rfl
  have htext : (norm s).text = settled s.text := rfl
  cases s.role with
  | key =>
    cases hk : s.key.long with
    | true => simp [hk, norm]
    | false =>
      simp only [hkey, settled_of_not_long hk, hk, show (norm s).firstKey = s.firstKey from rfl]
      by_cases hraw : s.firstKey ∧ s.key.bytes = rawValueToken
      · simp [hraw]
      · simp [hraw, norm]
        rfl
  | captured i =>
    cases ht : s.text.long with
    | true => simp [ht, norm, Scanner.valueDone]
    | false =>
      simp only [htext, settled_of_not_long ht, ht]
      cases Utf8Codec.decode s.text.bytes with
      | none => simp
      | some t => simp [norm, Scanner.valueDone]
  | streamed | skipped => simp [norm, Scanner.valueDone]

theorem emitChar_view (held : Bytes) (s : Scanner) (cp : Nat) (out : Output) :
    ((norm s).emitChar cp ⟨true, receive held out⟩).map (view []) = (s.emitChar cp out).map (view held) := by
  unfold Scanner.emitChar
  split_ifs
  · simp only [map_ok, emit_view]
  · rfl

theorem endHex_view (held : Bytes) (s : Scanner) (n : Nat) (lead : Option Nat) (out : Output) :
    ((norm s).endHex n lead ⟨true, receive held out⟩).map (view []) = (s.endHex n lead out).map (view held) := by
  have char : ∀ cp, (Scanner.emitChar (norm { s with esc := .none }) cp ⟨true, receive held out⟩).map (view []) =
      (Scanner.emitChar { s with esc := .none } cp out).map (view held) := fun cp => emitChar_view held _ cp out
  unfold Scanner.endHex
  cases lead with
  | none =>
    dsimp only
    split_ifs
    · simp [view, norm, receive]
    · rfl
    · exact char n
  | some hi =>
    dsimp only
    split_ifs
    · exact char _
    · rfl

/-- One byte of a string sees its scanner and its output only through the view. -/
theorem stringByte_view (held : Bytes) (s : Scanner) (b : UInt8) (out : Output) :
    ((norm s).stringByte b ⟨true, receive held out⟩).map (Prod.map id (view [])) =
      (s.stringByte b out).map (Prod.map id (view held)) := by
  have emits : ∀ (s' : Scanner) (bytes : Bytes),
      (Except.ok (false, view [] ((norm s').emit bytes ⟨true, receive held out⟩)) : Except Fail _) =
        .ok (false, view held (s'.emit bytes out)) :=
    fun s' bytes => by rw [emit_view held s' bytes out]
  unfold Scanner.stringByte
  rw [show (norm s).esc = s.esc from rfl]
  cases s.esc with
  | none =>
    dsimp only
    rw [show (norm s).utf8Need = s.utf8Need from rfl, show (norm s).utf8Lo = s.utf8Lo from rfl,
      show (norm s).utf8Hi = s.utf8Hi from rfl]
    split_ifs
    · exact emits { s with esc := .none, utf8Need := s.utf8Need - 1, utf8Lo := 0x80, utf8Hi := 0xBF } [b]
    · rfl
    · have h := endString_norm s
      cases hn : (norm s).endString <;> cases hs : s.endString <;>
        simp_all [view, receive, Except.map]
    · simp [view, norm, receive]
    · rfl
    · exact emits s [b]
    · cases Utf8Codec.window b with
      | none => rfl
      | some w => exact emits { s with esc := .none, utf8Need := w.1, utf8Lo := w.2.1, utf8Hi := w.2.2 } [b]
  | backslash =>
    dsimp only
    split_ifs
    · simp [view, norm, receive]
    · cases simpleEscape b with
      | none => rfl
      | some c => exact emits { s with esc := .none } [c]
  | hex n digits lead =>
    dsimp only
    cases hexValue (Char.ofNat b.toNat) with
    | none => rfl
    | some d =>
      dsimp only
      split_ifs
      · simp [view, norm, receive]
      · have h := endHex_view held s ((n * 16 + d) % 0x10000) lead out
        cases hn : (norm s).endHex ((n * 16 + d) % 0x10000) lead ⟨true, receive held out⟩ <;>
          cases hs : s.endHex ((n * 16 + d) % 0x10000) lead out <;> simp_all [Except.map]
  | low lead backslash =>
    dsimp only
    split_ifs <;> simp [view, norm, receive]

section

variable (numeralOk : Bytes → Bool)

theorem endNumber_norm (s : Scanner) :
    ((norm s).endNumber numeralOk).map norm = (s.endNumber numeralOk).map norm := by
  unfold Scanner.endNumber
  rw [show (norm s).number = s.number from rfl]
  split_ifs
  · simp [norm, Scanner.valueDone]
  · rfl

/-- The scanner one byte at a time. -/
def byte (p : Scanner × Output) (b : UInt8) : Step :=
  match p.1.state with
  | .str => (p.1.stringByte b p.2).map Prod.snd
  | .number =>
    if isNumeral b then
      if p.1.number.length + 1 > maxNumber then .error (.tooLong .numeral)
      else .ok ({ p.1 with number := p.1.number ++ [b] }, p.2)
    else if p.1.number.length > maxNumber then .error (.tooLong .numeral)
    else (p.1.endNumber numeralOk).bind fun s => s.structural b p.2
  | .literal => (p.1.literalByte b).map fun s => (s, p.2)
  | _ => p.1.structural b p.2

def bytes (p : Scanner × Output) : Bytes → Step
  | [] => .ok p
  | b :: l => (byte numeralOk p b).bind fun q => bytes q l

theorem bytes_append (p : Scanner × Output) (l m : Bytes) :
    bytes numeralOk p (l ++ m) = (bytes numeralOk p l).bind fun q => bytes numeralOk q m := by
  induction l generalizing p with
  | nil => rfl
  | cons b l ih =>
    rw [List.cons_append, bytes, bytes]
    cases byte numeralOk p b with
    | error f => rfl
    | ok q => exact ih q

theorem byte_view (held : Bytes) (p : Scanner × Output) (b : UInt8) :
    (byte numeralOk (view held p) b).map (view []) = (byte numeralOk p b).map (view held) := by
  obtain ⟨s, out⟩ := p
  have other := structural_view held s b out
  unfold byte
  rw [show (view held (s, out)).1 = norm s from rfl, show (view held (s, out)).2 = ⟨true, receive held out⟩ from rfl,
    show (norm s).state = s.state from rfl]
  cases s.state with
  | str =>
    dsimp only
    have h := stringByte_view held s b out
    cases hn : (norm s).stringByte b ⟨true, receive held out⟩ <;> cases hs : s.stringByte b out <;>
      simp_all [Except.map, Prod.map]
  | number =>
    dsimp only
    rw [show (norm s).number = s.number from rfl]
    split_ifs
    · rfl
    · simp [view, norm, receive]
    · rfl
    · have h := endNumber_norm numeralOk s
      cases hn : (norm s).endNumber numeralOk with
      | error f => cases hs : s.endNumber numeralOk <;> simp_all [Except.map, Except.bind]
      | ok s₁ =>
        cases hs : s.endNumber numeralOk with
        | error f => simp_all [Except.map]
        | ok s₂ =>
          have he : norm s₁ = norm s₂ := by simpa [hn, hs] using h
          have h₁ := structural_view [] s₁ b ⟨true, receive held out⟩
          have h₂ := structural_view held s₂ b out
          rw [show receive [] ⟨true, receive held out⟩ = receive held out from rfl, he] at h₁
          exact h₁.symm.trans h₂
  | literal =>
    dsimp only
    have h := literalByte_norm s b
    cases hn : (norm s).literalByte b <;> cases hs : s.literalByte b <;>
      simp_all [Except.map, view, receive]
  | value | arrayStart | objectStart | key | colon | afterValue | done => exact other

theorem bytes_view (held : Bytes) (p : Scanner × Output) (l : Bytes) :
    (bytes numeralOk (view held p) l).map (view []) = (bytes numeralOk p l).map (view held) := by
  induction l generalizing held p with
  | nil => simp [bytes, view, receive]
  | cons b l ih =>
    have h := byte_view numeralOk held p b
    rw [bytes, bytes]
    cases hv : byte numeralOk (view held p) b with
    | error f => cases hp : byte numeralOk p b <;> simp_all [Except.map, Except.bind]
    | ok q' =>
      cases hp : byte numeralOk p b with
      | error f => simp_all [Except.map]
      | ok q =>
        have he : view [] q' = view held q := by simpa [hv, hp] using h
        have h₁ := ih [] q'
        rw [he] at h₁
        exact h₁.symm.trans (ih held q)

/-- Two scanners with one view read the same bytes to the same view. -/
theorem bytes_congr {held held' : Bytes} {p q : Scanner × Output} (h : view held p = view held' q) (l : Bytes) :
    (bytes numeralOk p l).map (view held) = (bytes numeralOk q l).map (view held') := by
  rw [← bytes_view, h, bytes_view]

theorem emit_state (s : Scanner) (more : Bytes) (out : Output) : (s.emit more out).1.state = s.state := by
  unfold Scanner.emit
  cases s.role <;> rfl

theorem emit_esc (s : Scanner) (more : Bytes) (out : Output) : (s.emit more out).1.esc = s.esc := by
  unfold Scanner.emit
  cases s.role <;> rfl

theorem emit_utf8Need (s : Scanner) (more : Bytes) (out : Output) :
    (s.emit more out).1.utf8Need = s.utf8Need := by
  unfold Scanner.emit
  cases s.role <;> rfl

theorem endHex_state {s s' : Scanner} {n : Nat} {lead : Option Nat} {out out' : Output}
    (h : s.endHex n lead out = .ok (s', out')) : s'.state = s.state := by
  unfold Scanner.endHex Scanner.emitChar at h
  dsimp only at h
  have char : ∀ {r : Scanner × Output} {bs : Bytes},
      (Except.ok (Scanner.emit { s with esc := .none } bs out) : Step) = .ok r → r.1.state = s.state := by
    intro r bs hr
    cases hr
    exact emit_state _ _ _
  cases lead with
  | none =>
    dsimp only at h
    split_ifs at h
    · cases h; rfl
    · exact char h
  | some hi =>
    dsimp only at h
    split_ifs at h
    exact char h

/-- A byte that does not close the string leaves the scanner inside it. -/
theorem stringByte_state {s s' : Scanner} {b : UInt8} {out out' : Output}
    (h : s.stringByte b out = .ok (false, s', out')) : s'.state = s.state := by
  have emits : ∀ {r : Scanner} {bs : Bytes},
      (Except.ok (false, r.emit bs out) : Except Fail (Bool × Scanner × Output)) = .ok (false, s', out') →
        r.state = s.state → s'.state = s.state := by
    intro r bs he hr
    have : r.emit bs out = (s', out') := by simpa using he
    rw [← hr, ← emit_state r bs out, this]
  unfold Scanner.stringByte at h
  cases hesc : s.esc with
  | none =>
    rw [hesc] at h
    dsimp only at h
    split_ifs at h
    · exact emits h rfl
    · obtain ⟨s₁, -, he⟩ := map_eq_ok.mp h
      cases he
    · cases h; rfl
    · exact emits h rfl
    · split at h
      · cases h
      · exact emits h rfl
  | backslash =>
    rw [hesc] at h
    dsimp only at h
    split_ifs at h
    · cases h; rfl
    · split at h
      · exact emits h rfl
      · cases h
  | hex n digits lead =>
    rw [hesc] at h
    dsimp only at h
    split at h
    · cases h
    · split_ifs at h
      · cases h; rfl
      · obtain ⟨⟨s₁, out₁⟩, h₁, he⟩ := map_eq_ok.mp h
        cases he
        exact endHex_state h₁
  | low lead backslash =>
    rw [hesc] at h
    dsimp only at h
    split_ifs at h <;> cases h <;> rfl

theorem byte_plain {s : Scanner} {b : UInt8} (hs : s.state = .str) (he : s.esc = .none) (hu : s.utf8Need = 0)
    (hb : isPlain b) (out : Output) : byte numeralOk (s, out) b = .ok (s.emit [b] out) := by
  have h : b ≠ 0x22 ∧ b ≠ 0x5C ∧ ¬ b < 0x20 ∧ b < 0x80 := by
    simpa [isPlain, UInt8.not_lt] using hb
  obtain ⟨h₁, h₂, h₃, h₄⟩ := h
  simp [byte, hs, Scanner.stringByte, he, hu, h₁, h₂, h₃, h₄]

/-- A run of plain ASCII taken in one go is what its bytes make one by one. -/
theorem bytes_plain (held : Bytes) (run : Bytes) :
    ∀ (s : Scanner) (b : UInt8) (out : Output), s.state = .str → s.esc = .none → s.utf8Need = 0 →
      (∀ c ∈ b :: run, isPlain c) →
        (bytes numeralOk (s, out) (b :: run)).map (view held) = .ok (view held (s.emit (b :: run) out)) := by
  induction run with
  | nil =>
    intro s b out hs he hu hr
    rw [bytes, byte_plain numeralOk hs he hu (hr b (List.mem_singleton_self b))]
    rfl
  | cons c run ih =>
    intro s b out hs he hu hr
    have h₁ := ih (s.emit [b] out).1 c (s.emit [b] out).2 ((emit_state ..).trans hs) ((emit_esc ..).trans he)
      ((emit_utf8Need ..).trans hu) fun d hd => hr d (List.mem_cons_of_mem b hd)
    rw [bytes, byte_plain numeralOk hs he hu (hr b List.mem_cons_self)]
    exact h₁.trans (congrArg Except.ok (emit_append held s [b] (c :: run) out))

theorem string_bytes (held : Bytes) (s : Scanner) (input : Bytes) (out : Output) (hs : s.state = .str) :
    (bytes numeralOk (s, out) input).map (view held) =
      ((s.string input out).bind fun r => bytes numeralOk (r.1, r.2.1) r.2.2).map (view held) := by
  fun_induction Scanner.string s input out with
  | case1 s out => rfl
  | case2 s out b t hc s₁ out₁ he ih =>
    have hsplit : b :: t = (b :: t.takeWhile isPlain) ++ t.dropWhile isPlain := by
      rw [List.cons_append, List.takeWhile_append_dropWhile]
    have hplain : ∀ c ∈ b :: t.takeWhile isPlain, isPlain c := by
      intro c hmem
      rcases List.mem_cons.mp hmem with rfl | hmem
      · exact hc.2.2
      · exact List.mem_takeWhile_imp hmem
    have hrun := bytes_plain numeralOk held (t.takeWhile isPlain) s b out hs hc.1 hc.2.1 hplain
    have hstate : s₁.state = .str := by
      have := emit_state s (b :: t.takeWhile isPlain) out
      rw [he] at this
      exact this.trans hs
    rw [hsplit, bytes_append, ← ih hstate]
    cases hb : bytes numeralOk (s, out) (b :: t.takeWhile isPlain) with
    | error f => rw [hb] at hrun; cases hrun
    | ok q =>
      rw [hb, he] at hrun
      exact bytes_congr numeralOk (Except.ok.inj hrun) _
  | case3 s out b t hc f hf =>
    rw [bytes, byte, hs]
    simp [hf, Except.map, Except.bind]
  | case4 s out b t hc s₁ out₁ he =>
    rw [bytes, byte, hs]
    simp [he, Except.map, Except.bind]
  | case5 s out b t hc s₁ out₁ he ih =>
    have hstate := (stringByte_state he).trans hs
    rw [← ih hstate, bytes, byte, hs]
    simp [he, Except.bind]

theorem byte_number {s : Scanner} (hs : s.state = .number) (b : UInt8) (out : Output) :
    byte numeralOk (s, out) b =
      if isNumeral b then
        if s.number.length + 1 > maxNumber then .error (.tooLong .numeral)
        else .ok ({ s with number := s.number ++ [b] }, out)
      else if s.number.length > maxNumber then .error (.tooLong .numeral)
      else (s.endNumber numeralOk).bind fun s => s.structural b out := by
  cases s
  subst hs
  rfl

/-- A run of numeral characters taken in one go is what its bytes make one by one. -/
theorem bytes_numeral (out : Output) (run : Bytes) :
    ∀ (s : Scanner) (b : UInt8), s.state = .number → (∀ c ∈ b :: run, isNumeral c) →
      bytes numeralOk (s, out) (b :: run) =
        if s.number.length + (b :: run).length > maxNumber then .error (.tooLong .numeral)
        else .ok ({ s with number := s.number ++ b :: run }, out) := by
  induction run with
  | nil =>
    intro s b hs hr
    rw [bytes, byte_number numeralOk hs, if_pos (hr b (List.mem_singleton_self b)), List.length_singleton]
    split_ifs <;> rfl
  | cons c run ih =>
    intro s b hs hr
    rw [bytes, byte_number numeralOk hs, if_pos (hr b List.mem_cons_self)]
    by_cases hlen : s.number.length + 1 > maxNumber
    · rw [if_pos hlen, if_pos (by simp only [List.length_cons]; omega)]
      rfl
    · rw [if_neg hlen]
      have h := ih { s with number := s.number ++ [b] } c hs fun d hd => hr d (List.mem_cons_of_mem b hd)
      refine h.trans ?_
      rw [show (s.number ++ [b]).length + (c :: run).length = s.number.length + (b :: c :: run).length by
        simp only [List.length_append, List.length_cons, List.length_nil]; omega]
      simp only [List.append_assoc, List.singleton_append]

theorem endNumber_structural {s s' : Scanner} (h : s.endNumber numeralOk = .ok s') (b : UInt8) (out : Output) :
    byte numeralOk (s', out) b = s'.structural b out := by
  unfold Scanner.endNumber Scanner.valueDone at h
  split_ifs at h <;> cases h <;> rfl

/-- The first byte behind a numeral ends it. -/
theorem bytes_end_number {s : Scanner} {c : UInt8} (hs : s.state = .number) (hc : ¬ isNumeral c)
    (hlen : s.number.length ≤ maxNumber) (rest : Bytes) (out : Output) :
    bytes numeralOk (s, out) (c :: rest) =
      (s.endNumber numeralOk).bind fun s' => bytes numeralOk (s', out) (c :: rest) := by
  rw [bytes, byte_number numeralOk hs, if_neg hc, if_neg (Nat.not_lt.mpr hlen)]
  cases he : s.endNumber numeralOk with
  | error f => rfl
  | ok s' =>
    change _ = bytes numeralOk (s', out) (c :: rest)
    rw [bytes, endNumber_structural numeralOk he]
    rfl

theorem collectNumber_bytes (s : Scanner) (b : UInt8) (t : Bytes) (out : Output) (hs : s.state = .number) :
    bytes numeralOk (s, out) (b :: t) =
      (s.collectNumber numeralOk (b :: t)).bind fun r => bytes numeralOk (r.1, out) r.2 := by
  have hsplit : b :: t = (b :: t).takeWhile isNumeral ++ (b :: t).dropWhile isNumeral :=
    List.takeWhile_append_dropWhile.symm
  have hrun : ∀ c ∈ (b :: t).takeWhile isNumeral, isNumeral c := fun c hc => List.mem_takeWhile_imp hc
  have hrest : ∀ c rest, (b :: t).dropWhile isNumeral = c :: rest → ¬ isNumeral c := by
    intro c rest h
    have := List.head_dropWhile_not isNumeral (l := b :: t) (by rw [h]; exact List.cons_ne_nil c rest)
    simpa [h] using this
  unfold Scanner.collectNumber
  dsimp only
  generalize hr : (b :: t).takeWhile isNumeral = run at hsplit hrun ⊢
  generalize hd : (b :: t).dropWhile isNumeral = rest at hsplit hrest ⊢
  clear hr hd
  rw [hsplit]
  have hend : ∀ (s : Scanner), s.state = .number → s.number.length ≤ maxNumber →
      bytes numeralOk (s, out) rest =
        (if rest.isEmpty then .ok (s, rest) else (s.endNumber numeralOk).map fun s => (s, rest)).bind
          fun r => bytes numeralOk (r.1, out) r.2 := by
    intro s hs hlen
    cases rest with
    | nil => rfl
    | cons c rest =>
      rw [bytes_end_number numeralOk hs (hrest c rest rfl) hlen]
      cases s.endNumber numeralOk <;> rfl
  cases run with
  | nil =>
    rw [List.nil_append] at hsplit ⊢
    obtain ⟨c, rest', rfl⟩ : ∃ c rest', rest = c :: rest' := ⟨b, t, hsplit.symm⟩
    by_cases hlen : s.number.length + ([] : Bytes).length > maxNumber
    · rw [if_pos hlen, bytes, byte_number numeralOk hs, if_neg (hrest c rest' rfl),
        if_pos (show s.number.length > maxNumber from hlen)]
      rfl
    · rw [if_neg hlen, List.append_nil]
      exact hend s hs (Nat.not_lt.mp hlen)
  | cons d run =>
    rw [bytes_append, bytes_numeral numeralOk out run s d hs hrun]
    by_cases hlen : s.number.length + (d :: run).length > maxNumber
    · rw [if_pos hlen, if_pos hlen]
      rfl
    · rw [if_neg hlen, if_neg hlen]
      exact hend { s with number := s.number ++ d :: run } hs (by rw [List.length_append]; omega)

theorem byte_structural {s : Scanner} (h₁ : s.state = .str → False) (h₂ : s.state = .number → False)
    (h₃ : s.state = .literal → False) (b : UInt8) (out : Output) :
    byte numeralOk (s, out) b = s.structural b out := by
  unfold byte
  split
  · exact absurd ‹_› h₁
  · exact absurd ‹_› h₂
  · exact absurd ‹_› h₃
  · rfl

/-- An error without its position. -/
def fail : ScanError → Fail
  | .malformed _ what => .malformed what
  | .tooLong what => .tooLong what

theorem fail_errorAt (position : Nat) (f : Fail) : fail (errorAt position f) = f := by
  cases f <;> rfl

/-- The loop of `feed` is the byte machine, whatever runs it takes its input in. -/
theorem feedLoop_bytes (held : Bytes) (s : Scanner) (i : Nat) (input : Bytes) (out : Output) :
    ((s.feedLoop numeralOk i input out).mapError fail).map (view held) =
      (bytes numeralOk (s, out) input).map (view held) := by
  fun_induction Scanner.feedLoop numeralOk s i input out with
  | case1 s i out => rfl
  | case2 s i out b t hs f hr =>
    rw [string_bytes numeralOk held s (b :: t) out hs, hr]
    simp [Except.mapError, Except.bind, fail_errorAt]
  | case3 s i out b t hs s' out' rest hr ih =>
    rw [ih, string_bytes numeralOk held s (b :: t) out hs, hr]
    rfl
  | case4 s i out b t hs f hr =>
    rw [collectNumber_bytes numeralOk s b t out hs, hr]
    simp [Except.mapError, Except.bind, fail_errorAt]
  | case5 s i out b t hs s' rest hr ih =>
    rw [ih, collectNumber_bytes numeralOk s b t out hs, hr]
    rfl
  | case6 s i out b t hs f hr =>
    rw [bytes, byte, hs]
    simp [hr, Except.mapError, Except.bind, fail_errorAt]
  | case7 s i out b t hs s' hr ih =>
    rw [ih, bytes, byte, hs]
    simp [hr, Except.bind]
  | case8 s i out b t f hr h₁ h₂ h₃ =>
    rw [bytes, byte_structural numeralOk h₁ h₂ h₃, hr]
    simp [Except.mapError, Except.bind, fail_errorAt]
  | case9 s i out b t s' out' hr h₁ h₂ h₃ ih =>
    rw [ih, bytes, byte_structural numeralOk h₁ h₂ h₃, hr]
    rfl

/-- Feed the pieces one after another to a caller that holds `held`. -/
def runPieces (s : Scanner) (held : Bytes) : List Bytes → Except ScanError (Scanner × Bytes)
  | [] => .ok (s, held)
  | piece :: rest =>
    match s.feed numeralOk piece .fresh with
    | .error e => .error e
    | .ok (s, out) => runPieces s (receive held out) rest

/-- Scan a document that arrives in pieces: what `finish` found, and what the caller holds. -/
def scan (streamedKey : Bytes) (captureKeys : List Bytes) (captureCap : Nat) (pieces : List Bytes) :
    Except ScanError (Scanned × Bytes) :=
  match runPieces numeralOk (Scanner.new streamedKey captureKeys captureCap) [] pieces with
  | .error e => .error e
  | .ok (s, held) => (s.finish numeralOk).map fun found => (found, held)

theorem feed_bytes (held : Bytes) (s : Scanner) (piece : Bytes) :
    ((s.feed numeralOk piece .fresh).mapError fail).map (view held) =
      (bytes numeralOk (s, ⟨true, held⟩) piece).map (view []) := by
  have hview : view held (s, .fresh) = view [] (s, ⟨true, held⟩) := by simp [view, receive, Output.fresh]
  rw [← bytes_congr numeralOk hview piece, ← feedLoop_bytes numeralOk held s 0 piece .fresh, Scanner.feed]
  cases s.feedLoop numeralOk 0 piece .fresh <;> rfl

/-- Any way of feeding a document leaves what the byte machine makes of the whole of it. -/
theorem runPieces_bytes (pieces : List Bytes) :
    ∀ (s : Scanner) (held : Bytes),
      ((runPieces numeralOk s held pieces).mapError fail).map (fun p => (norm p.1, (⟨true, p.2⟩ : Output))) =
        (bytes numeralOk (s, ⟨true, held⟩) pieces.flatten).map (view []) := by
  induction pieces with
  | nil => intro s held; rfl
  | cons piece rest ih =>
    intro s held
    have h := feed_bytes numeralOk held s piece
    rw [List.flatten_cons, bytes_append, runPieces]
    cases hf : s.feed numeralOk piece .fresh with
    | error e =>
      cases hb : bytes numeralOk (s, ⟨true, held⟩) piece <;> simp_all [Except.map, Except.mapError, Except.bind]
    | ok r =>
      cases hb : bytes numeralOk (s, ⟨true, held⟩) piece with
      | error f => simp_all [Except.map, Except.mapError]
      | ok q =>
        have hq : view [] (r.1, ⟨true, receive held r.2⟩) = view [] q := by
          simpa [hf, hb, Except.map, Except.mapError, view, receive] using h
        exact (ih r.1 (receive held r.2)).trans (bytes_congr numeralOk hq rest.flatten)

theorem finish_norm (s : Scanner) :
    ((norm s).finish numeralOk).mapError fail = (s.finish numeralOk).mapError fail := by
  have h := endNumber_norm numeralOk s
  unfold Scanner.finish
  rw [show (norm s).state = s.state from rfl]
  by_cases hs : s.state = .number
  · rw [if_pos hs, if_pos hs]
    cases hn : (norm s).endNumber numeralOk with
    | error f =>
      cases he : s.endNumber numeralOk <;> simp_all [Except.map, Except.mapError, fail_errorAt]
    | ok s₁ =>
      cases he : s.endNumber numeralOk with
      | error f => simp_all [Except.map]
      | ok s₂ =>
        have heq : norm s₁ = norm s₂ := by simpa [hn, he] using h
        have hstate : s₁.state = s₂.state := congrArg (fun s => s.state) heq
        have hcap : s₁.captured = s₂.captured := congrArg (fun s => s.captured) heq
        have hstr : s₁.streamed = s₂.streamed := congrArg (fun s => s.streamed) heq
        simp only [hstate, hcap, hstr]
        split_ifs <;> rfl
  · rw [if_neg hs, if_neg hs]
    dsimp only
    rw [show (norm s).state = s.state from rfl]
    split_ifs <;> rfl

/-- A scan is determined by the document: neither where it was cut nor the empty pieces show,
except in the position an error is reported at. -/
theorem scan_of_flatten_eq (streamedKey : Bytes) (captureKeys : List Bytes) (captureCap : Nat)
    (pieces pieces' : List Bytes) (h : pieces.flatten = pieces'.flatten) :
    (scan numeralOk streamedKey captureKeys captureCap pieces).mapError fail =
      (scan numeralOk streamedKey captureKeys captureCap pieces').mapError fail := by
  have h₁ := runPieces_bytes numeralOk pieces (Scanner.new streamedKey captureKeys captureCap) []
  have h₂ := runPieces_bytes numeralOk pieces' (Scanner.new streamedKey captureKeys captureCap) []
  rw [h, ← h₂] at h₁
  have finishes : ∀ {s s' : Scanner} (held : Bytes), norm s = norm s' →
      ((s.finish numeralOk).map fun found => (found, held)).mapError fail =
        ((s'.finish numeralOk).map fun found => (found, held)).mapError fail := by
    intro s s' held hs
    have hf := (finish_norm numeralOk s).symm.trans ((congrArg _ (by rw [hs])).trans (finish_norm numeralOk s'))
    cases h₁ : s.finish numeralOk <;> cases h₂ : s'.finish numeralOk <;> simp_all [Except.map, Except.mapError]
  unfold scan
  cases hp : runPieces numeralOk (Scanner.new streamedKey captureKeys captureCap) [] pieces with
  | error e =>
    cases hp' : runPieces numeralOk (Scanner.new streamedKey captureKeys captureCap) [] pieces' <;>
      simp_all [Except.map, Except.mapError]
  | ok r =>
    cases hp' : runPieces numeralOk (Scanner.new streamedKey captureKeys captureCap) [] pieces' with
    | error e => simp_all [Except.map, Except.mapError]
    | ok r' =>
      rw [hp, hp'] at h₁
      have hr : norm r.1 = norm r'.1 ∧ r.2 = r'.2 := by simpa [Except.map, Except.mapError] using h₁
      simpa only [hr.2] using finishes r'.2 hr.1

end

/-- `{"p":"\u00e9","n":12}` cut inside the escape and inside the numeral, and in one piece. -/
theorem scan_cut_inside_tokens :
    [[0x7B, 0x22, 0x70, 0x22, 0x3A, 0x22, 0x5C, 0x75, 0x30], [],
        [0x30, 0x65, 0x39, 0x22, 0x2C, 0x22, 0x6E, 0x22, 0x3A, 0x31], [0x32, 0x7D]].flatten =
      [[0x7B, 0x22, 0x70, 0x22, 0x3A, 0x22, 0x5C, 0x75, 0x30, 0x30, 0x65, 0x39, 0x22, 0x2C, 0x22, 0x6E, 0x22,
        0x3A, 0x31, 0x32, 0x7D]].flatten ∧
    (scan (fun n => decide (n = [0x31, 0x32])) [0x70] [] 64
        [[0x7B, 0x22, 0x70, 0x22, 0x3A, 0x22, 0x5C, 0x75, 0x30], [],
          [0x30, 0x65, 0x39, 0x22, 0x2C, 0x22, 0x6E, 0x22, 0x3A, 0x31], [0x32, 0x7D]]).mapError fail =
      (scan (fun n => decide (n = [0x31, 0x32])) [0x70] [] 64
        [[0x7B, 0x22, 0x70, 0x22, 0x3A, 0x22, 0x5C, 0x75, 0x30, 0x30, 0x65, 0x39, 0x22, 0x2C, 0x22, 0x6E, 0x22,
          0x3A, 0x31, 0x32, 0x7D]]).mapError fail :=
  ⟨rfl, scan_of_flatten_eq _ _ _ _ _ _ rfl⟩

end JsonScanChunks
