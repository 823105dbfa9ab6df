import RemarkableServer.Lib.RustText
import RemarkableServer.Lib.Utf8

/-!
# The incremental JSON scanner

A JSON document arrives in pieces. The value of one top-level member is
unescaped straight into the caller's output, a few other string members are
captured up to a cap, and everything else is validated and dropped. Numerals
are judged by an oracle, which stands for the JSON library they are handed to.
-/
namespace JsonScan

open RustText

def maxDepth : Nat := 127
def maxNumber : Nat := 4096
def keyCap : Nat := 64

/-- The private key that makes the JSON library read a raw value. -/
def rawValueToken : Bytes := Utf8Codec.encode "$serde_json::private::RawValue".toList

inductive Member where
  | absent
  | notString
  | text (value : Text)
  | tooLong
  deriving DecidableEq, Repr

inductive Streamed where
  | absent | notString | text
  deriving DecidableEq, Repr

structure Scanned where
  captured : List Member
  streamed : Streamed
  deriving DecidableEq, Repr

/-- What one call hands to the caller: `restart` voids everything received before it. -/
structure Output where
  restart : Bool
  bytes : Bytes
  deriving DecidableEq, Repr

def Output.fresh : Output := ⟨false, []⟩

inductive What where
  | expectedKey | expectedColon | expectedCommaOrClose | trailingCharacters | recursionLimit
  | expectedValue | invalidLiteral | invalidNumber | invalidEscape | unpairedSurrogate
  | invalidUtf8 | controlCharacter | rawValueMarker | unexpectedEnd | numeral
  deriving DecidableEq, Repr

inductive ScanError where
  | malformed (position : Nat) (what : What)
  | tooLong (what : What)
  deriving DecidableEq, Repr

/-- A failure inside `feed`, positioned by it. -/
inductive Fail where
  | malformed (what : What)
  | tooLong (what : What)
  deriving DecidableEq, Repr

inductive State where
  | value | arrayStart | objectStart | key | colon | afterValue | str | number | literal | done
  deriving DecidableEq, Repr

inductive Container where
  | object | array
  deriving DecidableEq, Repr

inductive Role where
  | key | streamed | captured (i : Nat) | skipped
  deriving DecidableEq, Repr

inductive Target where
  | streamed | captured (i : Nat) | other
  deriving DecidableEq, Repr

inductive Esc where
  | none
  | backslash
  | hex (n digits : Nat) (lead : Option Nat)
  | low (lead : Nat) (backslash : Bool)
  deriving DecidableEq, Repr

/-- A buffer and whether it went over its cap (`key` with `key_long`, `text` with `text_long`). -/
structure Capped where
  bytes : Bytes
  long : Bool
  deriving DecidableEq, Repr

def Capped.empty : Capped := ⟨[], false⟩

/-- A key over its cap keeps the bytes it had. -/
def Capped.pushKey (c : Capped) (more : Bytes) : Capped :=
  if c.bytes.length + more.length > keyCap then { c with long := true }
  else if !c.long then { c with bytes := c.bytes ++ more }
  else c

/-- A captured text over its cap is dropped. -/
def Capped.pushText (c : Capped) (cap : Nat) (more : Bytes) : Capped :=
  if c.bytes.length + more.length > cap then ⟨[], true⟩
  else if !c.long then { c with bytes := c.bytes ++ more }
  else c

/-- The scanner between two bytes. The stack lists open containers, innermost first. -/
structure Scanner where
  streamedKey : Bytes
  captureKeys : List Bytes
  captureCap : Nat
  state : State
  stack : List Container
  offset : Nat
  role : Role
  esc : Esc
  utf8Need : Nat
  utf8Lo : Nat
  utf8Hi : Nat
  key : Capped
  firstKey : Bool
  member : Target
  text : Capped
  number : Bytes
  literal : Bytes
  captured : List Member
  streamed : Streamed
  deriving DecidableEq, Repr

def Scanner.new (streamedKey : Bytes) (captureKeys : List Bytes) (captureCap : Nat) : Scanner where
  streamedKey := streamedKey
  captureKeys := captureKeys
  captureCap := captureCap
  state := .value
  stack := []
  offset := 0
  role := .skipped
  esc := .none
  utf8Need := 0
  utf8Lo := 0x80
  utf8Hi := 0xBF
  key := .empty
  firstKey := false
  member := .other
  text := .empty
  number := []
  literal := []
  captured := captureKeys.map fun _ => .absent
  streamed := .absent

abbrev Step := Except Fail (Scanner × Output)

def Scanner.valueDone (s : Scanner) : Scanner :=
  { s with state := if s.stack.isEmpty then .done else .afterValue }

def Scanner.close (s : Scanner) : Scanner := ({ s with stack := s.stack.tail }).valueDone

def Scanner.beginString (s : Scanner) (role : Role) : Scanner :=
  { s with role := role, esc := .none, utf8Need := 0, state := .str }

/-- The part of `begin_value` for anything but a string. -/
def Scanner.beginOther (s : Scanner) (b : UInt8) (out : Output) : Step :=
  if b = 0x7B ∨ b = 0x5B then
    if s.stack.length ≥ maxDepth then .error (.malformed .recursionLimit)
    else if b = 0x7B then
      .ok ({ s with stack := .object :: s.stack, state := .objectStart }, out)
    else .ok ({ s with stack := .array :: s.stack, state := .arrayStart }, out)
  else if b = 0x74 then .ok ({ s with literal := [0x72, 0x75, 0x65], state := .literal }, out)
  else if b = 0x66 then .ok ({ s with literal := [0x61, 0x6C, 0x73, 0x65], state := .literal }, out)
  else if b = 0x6E then .ok ({ s with literal := [0x75, 0x6C, 0x6C], state := .literal }, out)
  else if b = 0x2D ∨ (0x30 ≤ b ∧ b ≤ 0x39) then
    .ok ({ s with number := [b], state := .number }, out)
  else .error (.malformed .expectedValue)

/-- A value begins with `b`. Directly inside the top-level object it belongs to `member`. -/
def Scanner.beginValue (s : Scanner) (b : UInt8) (out : Output) : Step :=
  let member := if s.stack = [.object] then s.member else .other
  if b = 0x22 then
    match member with
    | .streamed => .ok (({ s with streamed := .text }).beginString .streamed, ⟨true, []⟩)
    | .captured i => .ok (({ s with text := .empty }).beginString (.captured i), out)
    | .other => .ok (s.beginString .skipped, out)
  else
    match member with
    | .streamed => ({ s with streamed := .notString }).beginOther b out
    | .captured i => ({ s with captured := s.captured.set i .notString }).beginOther b out
    | .other => s.beginOther b out

def isSpace (b : UInt8) : Bool := b = 0x20 ∨ b = 0x0A ∨ b = 0x0D ∨ b = 0x09

/-- A byte between tokens. -/
def Scanner.structural (s : Scanner) (b : UInt8) (out : Output) : Step :=
  if isSpace b then .ok (s, out)
  else match s.state with
  | .value => s.beginValue b out
  | .arrayStart => if b = 0x5D then .ok (s.close, out) else s.beginValue b out
  | .objectStart =>
    if b = 0x7D then .ok (s.close, out)
    else if b = 0x22 then
      .ok (({ s with key := .empty, firstKey := true }).beginString .key, out)
    else .error (.malformed .expectedKey)
  | .key =>
    if b = 0x22 then
      .ok (({ s with key := .empty, firstKey := false }).beginString .key, out)
    else .error (.malformed .expectedKey)
  | .colon => if b = 0x3A then .ok ({ s with state := .value }, out) else .error (.malformed .expectedColon)
  | .afterValue =>
    match s.stack.head? with
    | some .object =>
      if b = 0x2C then .ok ({ s with state := .key }, out)
      else if b = 0x7D then .ok (s.close, out)
      else .error (.malformed .expectedCommaOrClose)
    | some .array =>
      if b = 0x2C then .ok ({ s with state := .value }, out)
      else if b = 0x5D then .ok (s.close, out)
      else .error (.malformed .expectedCommaOrClose)
    | none => .error (.malformed .expectedCommaOrClose)
  | .done => .error (.malformed .trailingCharacters)
  | .str | .number | .literal => .ok (s, out)

def Scanner.literalByte (s : Scanner) (b : UInt8) : Except Fail Scanner :=
  match s.literal with
  | want :: rest =>
    if want = b then
      let s := { s with literal := rest }
      .ok (if rest.isEmpty then s.valueDone else s)
    else .error (.malformed .invalidLiteral)
  | [] => .error (.malformed .invalidLiteral)

/-- Bytes of an unescaped string go where its role says, up to the caps. -/
def Scanner.emit (s : Scanner) (bytes : Bytes) (out : Output) : Scanner × Output :=
  match s.role with
  | .key => ({ s with key := s.key.pushKey bytes }, out)
  | .streamed => (s, { out with bytes := out.bytes ++ bytes })
  | .captured _ => ({ s with text := s.text.pushText s.captureCap bytes }, out)
  | .skipped => (s, out)

def Scanner.emitChar (s : Scanner) (cp : Nat) (out : Output) : Step :=
  if cp.isValidChar then .ok (s.emit (String.utf8EncodeChar (Char.ofNat cp)) out)
  else .error (.malformed .invalidEscape)

/-- What a key or a captured string was, once its closing quote is read. -/
def Scanner.endString (s : Scanner) : Except Fail Scanner :=
  match s.role with
  | .key =>
    if s.firstKey ∧ !s.key.long ∧ s.key.bytes = rawValueToken then .error (.malformed .rawValueMarker)
    else
      let member :=
        if s.key.long then .other
        else if s.key.bytes = s.streamedKey then .streamed
        else match s.captureKeys.findIdx? (· = s.key.bytes) with
          | some i => .captured i
          | none => .other
      .ok { s with member := if s.stack.length = 1 then member else s.member, state := .colon }
  | .captured i =>
    if s.text.long then .ok ({ s with captured := s.captured.set i .tooLong }).valueDone
    else match Utf8Codec.decode s.text.bytes with
    | some t =>
      .ok ({ s with captured := s.captured.set i (.text t), text := { s.text with bytes := [] } }).valueDone
    | none => .error (.malformed .invalidUtf8)
  | .streamed | .skipped => .ok s.valueDone

/-- Simple escapes, `b` being the byte after the backslash. -/
def simpleEscape (b : UInt8) : Option UInt8 :=
  if b = 0x22 ∨ b = 0x5C ∨ b = 0x2F then some b
  else if b = 0x62 then some 0x08
  else if b = 0x66 then some 0x0C
  else if b = 0x6E then some 0x0A
  else if b = 0x72 then some 0x0D
  else if b = 0x74 then some 0x09
  else none

/-- The fourth hexadecimal digit of `\uXXXX` completes `n`. -/
def Scanner.endHex (s : Scanner) (n : Nat) (lead : Option Nat) (out : Output) : Step :=
  let s := { s with esc := .none }
  let low := 0xDC00 ≤ n ∧ n ≤ 0xDFFF
  match lead with
  | none =>
    if 0xD800 ≤ n ∧ n ≤ 0xDBFF then .ok ({ s with esc := .low n false }, out)
    else if ¬ low then s.emitChar n out
    else .error (.malformed .unpairedSurrogate)
  | some hi =>
    if low then s.emitChar (0x10000 + ((hi - 0xD800) * 0x400 + (n - 0xDC00))) out
    else .error (.malformed .unpairedSurrogate)

/-- Plain ASCII of a string, which is taken in runs. -/
def isPlain (b : UInt8) : Bool := b ≠ 0x22 ∧ b ≠ 0x5C ∧ 0x20 ≤ b ∧ b < 0x80

/-- One byte of a string; `true` if it closes the string. -/
def Scanner.stringByte (s : Scanner) (b : UInt8) (out : Output) : Except Fail (Bool × Scanner × Output) :=
  match s.esc with
  | .none =>
    if s.utf8Need > 0 then
      if Utf8Codec.inRange s.utf8Lo s.utf8Hi b then
        .ok (false, ({ s with utf8Need := s.utf8Need - 1, utf8Lo := 0x80, utf8Hi := 0xBF }).emit [b] out)
      else .error (.malformed .invalidUtf8)
    else if b = 0x22 then s.endString.map fun s => (true, s, out)
    else if b = 0x5C then .ok (false, { s with esc := .backslash }, out)
    else if b < 0x20 then .error (.malformed .controlCharacter)
    else if b < 0x80 then .ok (false, s.emit [b] out)
    else match Utf8Codec.window b with
    | none => .error (.malformed .invalidUtf8)
    | some (need, lo, hi) =>
      .ok (false, ({ s with utf8Need := need, utf8Lo := lo, utf8Hi := hi }).emit [b] out)
  | .backslash =>
    if b = 0x75 then .ok (false, { s with esc := .hex 0 0 none }, out)
    else match simpleEscape b with
    | some c => .ok (false, ({ s with esc := .none }).emit [c] out)
    | none => .error (.malformed .invalidEscape)
  | .hex n digits lead =>
    match hexValue (Char.ofNat b.toNat) with
    | none => .error (.malformed .invalidEscape)
    | some d =>
      let n := (n * 16 + d) % 0x10000
      if digits < 3 then .ok (false, { s with esc := .hex n (digits + 1) lead }, out)
      else (s.endHex n lead out).map fun p => (false, p)
  | .low lead backslash =>
    if backslash then
      if b = 0x75 then .ok (false, { s with esc := .hex 0 0 (some lead) }, out)
      else .error (.malformed .unpairedSurrogate)
    else if b = 0x5C then .ok (false, { s with esc := .low lead true }, out)
    else .error (.malformed .unpairedSurrogate)

/-- String content from the front of `input`; returns what is left behind the closing quote.
A run of plain ASCII is emitted in one go, every other byte by itself. -/
def Scanner.string (s : Scanner) (input : Bytes) (out : Output) : Except Fail (Scanner × Output × Bytes) :=
  match input with
  | [] => .ok (s, out, [])
  | b :: rest =>
    if s.esc = .none ∧ s.utf8Need = 0 ∧ isPlain b then
      let (s, out) := s.emit (b :: rest.takeWhile isPlain) out
      s.string (rest.dropWhile isPlain) out
    else match s.stringByte b out with
    | .error f => .error f
    | .ok (true, s, out) => .ok (s, out, rest)
    | .ok (false, s, out) => s.string rest out
termination_by input.length
decreasing_by
  · exact Nat.lt_succ_of_le (List.length_dropWhile_le isPlain rest)
  · exact Nat.lt_succ_self _

/-- Numeral characters; the judge decides whether they make a number. -/
def isNumeral (b : UInt8) : Bool :=
  (0x30 ≤ b ∧ b ≤ 0x39) ∨ b = 0x2D ∨ b = 0x2B ∨ b = 0x2E ∨ b = 0x65 ∨ b = 0x45

/-- The numeral, string and structural parts leave at most the input they were given. -/
theorem string_rest_le (s : Scanner) (input : Bytes) (out : Output) {s' : Scanner} {out' : Output}
    {rest : Bytes} (h : s.string input out = .ok (s', out', rest)) :
    rest.length ≤ input.length - 1 := by
  fun_induction Scanner.string s input out with
  | case1 s out => cases h; simp
  | case2 s out b t hc s₁ out₁ he ih =>
    have := ih h
    have := List.length_dropWhile_le isPlain t
    simp only [List.length_cons]
    omega
  | case3 => cases h
  | case4 s out b t hc s₁ out₁ he => cases h; simp
  | case5 s out b t hc s₁ out₁ he ih =>
    have := ih h
    simp only [List.length_cons]
    omega

section

variable (numeralOk : Bytes → Bool)

def Scanner.endNumber (s : Scanner) : Except Fail Scanner :=
  if numeralOk s.number then .ok ({ s with number := [] }).valueDone
  else .error (.malformed .invalidNumber)

/-- Collect a numeral; its end is left for `structural`. -/
def Scanner.collectNumber (s : Scanner) (input : Bytes) : Except Fail (Scanner × Bytes) :=
  let run := input.takeWhile isNumeral
  let rest := input.dropWhile isNumeral
  if s.number.length + run.length > maxNumber then .error (.tooLong .numeral)
  else
    let s := { s with number := s.number ++ run }
    if rest.isEmpty then .ok (s, rest) else (s.endNumber numeralOk).map fun s => (s, rest)

theorem valueDone_ne_number (s : Scanner) : s.valueDone.state ≠ .number := by
  unfold Scanner.valueDone
  split <;> simp

theorem endNumber_ne_number {s s' : Scanner} (h : s.endNumber numeralOk = .ok s') :
    s'.state ≠ .number := by
  unfold Scanner.endNumber at h
  split at h
  · cases h
    exact valueDone_ne_number _
  · cases h

/-- Bytes left, and whether a numeral is open: a numeral may end without taking a byte. -/
def feedMeasure (s : Scanner) (input : Bytes) : Nat :=
  2 * input.length + if s.state = .number then 1 else 0

theorem collectNumber_measure {s s' : Scanner} {b : UInt8} {t rest : Bytes}
    (hs : s.state = .number) (h : s.collectNumber numeralOk (b :: t) = .ok (s', rest)) :
    feedMeasure s' rest < feedMeasure s (b :: t) := by
  have hm : feedMeasure s (b :: t) = 2 * t.length + 3 := by
    simp only [feedMeasure, hs, List.length_cons, if_true]
    omega
  have hd := List.length_dropWhile_le isNumeral (b :: t)
  rw [List.length_cons] at hd
  unfold Scanner.collectNumber at h
  dsimp only at h
  split at h
  · cases h
  split at h
  next he =>
    cases h
    rw [hm, List.isEmpty_iff.mp he]
    simp only [feedMeasure, List.length_nil]
    split <;> omega
  next he =>
    obtain ⟨s₁, hn, heq⟩ := map_eq_ok.mp h
    cases heq
    rw [hm, feedMeasure, if_neg (endNumber_ne_number numeralOk hn)]
    omega

def errorAt (position : Nat) : Fail → ScanError
  | .malformed what => .malformed position what
  | .tooLong what => .tooLong what

/-- The loop of `feed`, `i` bytes into its input. -/
def Scanner.feedLoop (s : Scanner) (i : Nat) (input : Bytes) (out : Output) :
    Except ScanError (Scanner × Output) :=
  match input with
  | [] => .ok (s, out)
  | b :: t =>
    match _hs : s.state with
    | .str =>
      match hr : s.string (b :: t) out with
      | .error f => .error (errorAt (s.offset + i) f)
      | .ok (s', out', rest) => s'.feedLoop (i + (t.length + 1 - rest.length)) rest out'
    | .number =>
      match hr : s.collectNumber numeralOk (b :: t) with
      | .error f => .error (errorAt (s.offset + i) f)
      | .ok (s', rest) => s'.feedLoop (i + (t.length + 1 - rest.length)) rest out
    | .literal =>
      match s.literalByte b with
      | .error f => .error (errorAt (s.offset + i) f)
      | .ok s' => s'.feedLoop (i + 1) t out
    | _ =>
      match s.structural b out with
      | .error f => .error (errorAt (s.offset + i) f)
      | .ok (s', out') => s'.feedLoop (i + 1) t out'
termination_by feedMeasure s input
decreasing_by
  · have := string_rest_le s (b :: t) out hr
    simp only [feedMeasure, _hs, List.length_cons] at this ⊢
    split <;> simp <;> omega
  · exact collectNumber_measure numeralOk _hs hr
  all_goals
    simp only [feedMeasure, List.length_cons]
    split <;> split <;> omega

/-- Consume the next piece of the document. -/
def Scanner.feed (s : Scanner) (input : Bytes) (out : Output) : Except ScanError (Scanner × Output) :=
  (s.feedLoop numeralOk 0 input out).map fun p => ({ p.1 with offset := p.1.offset + input.length }, p.2)

/-- The end of the document, which must be complete. -/
def Scanner.finish (s : Scanner) : Except ScanError Scanned :=
  match (if s.state = .number then s.endNumber numeralOk else .ok s) with
  | .error f => .error (errorAt s.offset f)
  | .ok s' =>
    if s'.state = .done then .ok ⟨s'.captured, s'.streamed⟩
    else .error (.malformed s'.offset .unexpectedEnd)

end

end JsonScan
