import RemarkableServer.Lib.BufRead
import RemarkableServer.Lib.RustText
import RemarkableServer.Lib.Utf8

/-!
# Mail over SMTP

The session of `email.rs`: reads of bounded length, the commands, and the message after
DATA. What it asks of the table of devices and of the processing of a message is a
parameter. A function without a value has a loop that did not end within its rounds.
-/
namespace Smtp

open RustText BufRead

def lf : UInt8 := 0x0A
def cr : UInt8 := 0x0D
def dot : UInt8 := 0x2E

/-! ## Commands -/

/-- The argument is the text after the colon. -/
inductive SmtpCommand where
  | hello
  | mailFrom (arg : Text)
  | rcptTo (arg : Text)
  | data
  | quit
  | rset
  | noop
  | unknown
  deriving DecidableEq

/-- For a prefix of ASCII characters. -/
def stripPrefixCi (s pre : Text) : Option Text :=
  if eqIgnoreAsciiCase (s.take pre.length) pre then some (s.drop pre.length) else none

def parseCommand (line : Text) : SmtpCommand :=
  if (stripPrefixCi line "HELO".toList).isSome || (stripPrefixCi line "EHLO".toList).isSome then .hello
  else
    match stripPrefixCi line "MAIL FROM:".toList with
    | some arg => .mailFrom arg
    | none =>
      match stripPrefixCi line "RCPT TO:".toList with
      | some arg => .rcptTo arg
      | none =>
        if eqIgnoreAsciiCase line "DATA".toList then .data
        else if eqIgnoreAsciiCase line "QUIT".toList then .quit
        else if eqIgnoreAsciiCase line "RSET".toList then .rset
        else if eqIgnoreAsciiCase line "NOOP".toList then .noop
        else .unknown

def bracketed (s : Text) : Bool := s.head? == some '<' && s.getLast? == some '>'

/-- `split_whitespace().next()`. -/
def firstWord (s : Text) : Option Text :=
  let word := (s.dropWhile isWhitespace).takeWhile fun c => !isWhitespace c
  if word.isEmpty then none else some word

def extractEmailAddress (s : Text) : Text :=
  let s := trim s
  if bracketed s then s.tail.dropLast
  else
    match firstWord s with
    | some addr => if bracketed addr then addr.tail.dropLast else addr
    | none => []

/-! ## Reading -/

inductive CommandRead where
  | line
  | tooLong
  | eof
  deriving DecidableEq

/-- The stream, of which a read brings any part that has arrived. -/
abbrev Reader := Arrivals UInt8

def isLf (b : UInt8) : Bool := b == lf

def readPiece (cap : Nat) (r : Reader) : Bytes × Reader := r.readUntil isLf cap

def pieceEndsLine (buf : Bytes) : Bool := buf.getLast?.any isLf

/-- The rest of a line that is too long. -/
def swallow (cap : Nat) : Nat → Reader → Option Reader
  | 0, _ => none
  | rounds + 1, r =>
    let (buf, r) := readPiece cap r
    if buf.length == 0 || pieceEndsLine buf then some r else swallow cap rounds r

/-- The bytes are those of the line, if it is one. -/
def readCommand (cap : Nat) (r : Reader) : Option (CommandRead × Bytes × Reader) :=
  let (buf, r) := readPiece cap r
  if buf.length == 0 then some (.eof, buf, r)
  else if pieceEndsLine buf || decide (buf.length < cap) then some (.line, buf, r)
  else (swallow cap (r.flat.length + 1) r).map fun r => (.tooLong, [], r)

structure DataBuf where
  buf : Bytes
  max : Nat
  overflow : Bool
  deriving DecidableEq

def DataBuf.new (max : Nat) : DataBuf := ⟨[], max, false⟩

/-- Without the stuffed dot. -/
def unstuffed (piece : Bytes) (atLineStart : Bool) : Bytes :=
  if atLineStart && piece.head? == some dot then piece.tail else piece

def DataBuf.push (data : DataBuf) (piece : Bytes) (atLineStart : Bool) : DataBuf :=
  if data.overflow then data
  else
    let content := unstuffed piece atLineStart
    if data.max < data.buf.length + content.length then { data with overflow := true, buf := [] }
    else { data with buf := data.buf ++ content }

def isTerminator (buf : Bytes) : Bool := buf == [dot, cr, lf] || buf == [dot, lf]

/-- Whether the data ended before the stream. -/
def readData (cap : Nat) : Nat → Reader → DataBuf → Bool → Option (Bool × DataBuf × Reader)
  | 0, _, _, _ => none
  | rounds + 1, r, data, atLineStart =>
    let (buf, r) := readPiece cap r
    if buf.length == 0 then some (false, data, r)
    else if atLineStart && isTerminator buf then some (true, data, r)
    else readData cap rounds r (data.push buf atLineStart) (pieceEndsLine buf)

/-! ## The session -/

/-- The configuration, and what the session asks for after its `n`-th command: whether there is a device for an
address, and how many attachments of a message were queued, if it was processed. -/
structure Env where
  domain : Text
  peerIp : Text
  commandCap : Nat
  dataCap : Nat
  maxMessageBytes : Nat
  validateRecipient : Nat → Text → Bool
  processEmail : Nat → Text → List Text → Bytes → Option Nat

structure Envelope where
  mailFrom : Option Text
  rcptTo : List Text
  deriving DecidableEq

def Envelope.empty : Envelope := ⟨none, []⟩

/-- What is written, and what is handed to the parser and to `process_email`. -/
inductive Out where
  | reply (text : Text)
  | command (line : Bytes)
  | message (mailFrom : Text) (rcptTo : List Text) (data : Bytes)
  deriving DecidableEq

inductive Next where
  | loop
  | data
  | close
  deriving DecidableEq

def crlf (t : String) : Out := .reply (t.toList ++ ['\r', '\n'])

def hello (env : Env) : Out :=
  .reply ("250-".toList ++ env.domain ++ " Hello ".toList ++ env.peerIp ++ "\r\n250-SIZE ".toList ++
    showU64 env.maxMessageBytes ++ "\r\n250-8BITMIME\r\n250 OK\r\n".toList)

/-- A command: the envelope after it, the reply, and what comes next. -/
def handleCommand (env : Env) (n : Nat) (e : Envelope) (line : Bytes) : Envelope × Out × Next :=
  match parseCommand (trim (Utf8Codec.decodeLossy line)) with
  | .hello => (e, hello env, .loop)
  | .mailFrom arg =>
    let sender := extractEmailAddress arg
    if sender.isEmpty then (e, crlf "501 Invalid sender address", .loop)
    else ({ e with mailFrom := some sender }, crlf "250 OK", .loop)
  | .rcptTo arg =>
    let rcpt := extractEmailAddress arg
    if rcpt.isEmpty then (e, crlf "501 Invalid recipient address", .loop)
    else if !env.validateRecipient n rcpt then (e, crlf "550 Unknown recipient", .loop)
    else ({ e with rcptTo := e.rcptTo ++ [rcpt] }, crlf "250 OK", .loop)
  | .data =>
    if e.mailFrom.isNone || e.rcptTo.isEmpty then (e, crlf "503 MAIL FROM and RCPT TO required first", .loop)
    else (e, crlf "354 End data with <CR><LF>.<CR><LF>", .data)
  | .quit => (e, crlf "221 Bye", .close)
  | .rset => (.empty, crlf "250 OK", .loop)
  | .noop => (e, crlf "250 OK", .loop)
  | .unknown => (e, crlf "500 Unknown command", .loop)

def processed : Option Nat → Out
  | some count => .reply ("250 OK: ".toList ++ showU64 count ++ " attachment(s) queued for sync\r\n".toList)
  | none => crlf "451 Email processing failed"

/-- What follows the end of a message. -/
def handOn (env : Env) (n : Nat) (e : Envelope) (data : Bytes) (overflowed : Bool) : List Out :=
  if overflowed then [crlf "552 Message size exceeds fixed maximum message size"]
  else
    match e.mailFrom with
    | some sender => [.message sender e.rcptTo data, processed (env.processEmail n sender e.rcptTo data)]
    | none => []

/-- The loop, after `n` commands. The buffer is cleared before each message is read into it. -/
def sessionLoop (env : Env) : Nat → Nat → Reader → Envelope → Option (List Out)
  | 0, _, _, _ => none
  | rounds + 1, n, r, e =>
    (readCommand env.commandCap r).bind fun
      | (.eof, _, _) => some []
      | (.tooLong, _, r) => (sessionLoop env rounds (n + 1) r e).map (crlf "500 Line too long" :: ·)
      | (.line, line, r) =>
        match handleCommand env n e line with
        | (e, out, .loop) => (sessionLoop env rounds (n + 1) r e).map ([.command line, out] ++ ·)
        | (_, out, .close) => some [.command line, out]
        | (e, out, .data) =>
          (readData env.dataCap (r.flat.length + 1) r (.new env.maxMessageBytes) true).bind fun
            | (false, _, _) => some [.command line, out]
            | (true, data, r) =>
              (sessionLoop env rounds (n + 1) r .empty).map
                ([.command line, out] ++ handOn env n e data.buf data.overflow ++ ·)

def session (env : Env) (r : Reader) : Option (List Out) :=
  (sessionLoop env (r.flat.length + 1) 0 r .empty).map
    (.reply ("220 ".toList ++ env.domain ++ " remarkable-server SMTP\r\n".toList) :: ·)

end Smtp
