import RemarkableServer.Lib.RustText
import RemarkableServer.Lib.Utf8

/-!
# The sync index format and its four readers

An index lists one child per line as `hash:type:name:subfiles:size` below a
schema line. The store reads it strictly (`parseIndex`) or leniently
(`lenientChildren`), the delta-sync endpoints read it as `gentreeIndex`, and
the document writers read a root for rewriting (`parseRoot`).
-/
namespace SyncIndex

open RustText

/-- Blob hashes are 64 lowercase hexadecimal digits. -/
def isValidHash (hash : Text) : Bool :=
  hash.length == 64 && hash.all fun c => ('0' ≤ c && c ≤ '9') || ('a' ≤ c && c ≤ 'f')

/-- Type of a leaf file; any other type names an index. -/
def fileKind : Text := ['0']

def schema3 : Text := ['3']

def schema4 : Text := ['4']

structure IndexEntry where
  hash : Text
  kind : Text
  name : Text
  subfiles : Nat
  size : Nat
  deriving DecidableEq, Repr

def IndexEntry.isIndex (e : IndexEntry) : Bool := e.kind != fileKind || e.subfiles > 0

/-- Why the strict reader refused, with the schema or line it quotes. -/
inductive IndexError where
  | notUtf8
  | empty
  | unsupportedSchema (schema : Text)
  | malformedLine (line : Text)
  | invalidHash (line : Text)
  | badNumber (line : Text)
  deriving DecidableEq, Repr

/-- Schema 4's summary line `0:.:<count>:<size>`. -/
def isSummary (line : Text) : Bool :=
  match split ':' line with
  | [a, b, _, _] => a == ['0'] && b == ['.']
  | _ => false

def isBlank (line : Text) : Bool := (trim line).isEmpty

/-- One strict entry line: exactly five fields, a valid hash and two numbers. -/
def parseLine (line : Text) : Except IndexError IndexEntry :=
  match split ':' line with
  | [hash, kind, name, subfiles, size] =>
    if !isValidHash hash then .error (.invalidHash line)
    else match parseU64 subfiles, parseU64 size with
    | some subfiles, some size => .ok ⟨hash, kind, name, subfiles, size⟩
    | _, _ => .error (.badNumber line)
  | _ => .error (.malformedLine line)

def parseLines (schema : Text) : List Text → Except IndexError (List IndexEntry)
  | [] => .ok []
  | line :: rest =>
    if isBlank line then parseLines schema rest
    else if schema = schema4 ∧ isSummary line then parseLines schema rest
    else match parseLine line with
    | .error e => .error e
    | .ok entry => (parseLines schema rest).map (entry :: ·)

/-- `storage::parse_index`: the schema and the entries of an index, or why it is refused. -/
def parseIndex (bytes : Bytes) : Except IndexError (Text × List IndexEntry) :=
  match Utf8Codec.decode bytes with
  | none => .error .notUtf8
  | some text =>
    match lines text with
    | [] => .error .empty
    | first :: rest =>
      let schema := trim first
      if schema ≠ schema3 ∧ schema ≠ schema4 then .error (.unsupportedSchema schema)
      else (parseLines schema rest).map (schema, ·)

/-- `storage::lenient_children`: the first field of every line after the first, if a hash. -/
def lenientChildren (bytes : Bytes) : List Text :=
  (((lines (Utf8Codec.decodeLossy bytes)).drop 1).filterMap fun l => (split ':' l).head?).filter
    isValidHash

structure GentreeEntry where
  hash : Text
  id : Text
  size : Nat
  deriving DecidableEq, Repr

def gentreeLine (line : Text) : Option GentreeEntry :=
  match split ':' line with
  | hash :: _ :: id :: rest =>
    let size := (rest[1]?.bind parseU64).getD 0
    if hash.isEmpty then none else some ⟨hash, id, size⟩
  | _ => none

/-- `gentree::parse_index`: every line after the first with three fields or more. -/
def gentreeIndex (bytes : Bytes) : List GentreeEntry :=
  ((lines (Utf8Codec.decodeLossy bytes)).drop 1).filterMap gentreeLine

/-- `documents::Entry::parse`: five fields, a valid hash, a type and a name. -/
def Entry.parse (line : Text) : Option IndexEntry :=
  match split ':' line with
  | hash :: kind :: name :: subfiles :: size :: rest =>
    if !isValidHash hash || kind.isEmpty || name.isEmpty then none
    else match parseU64 subfiles, parseU64 size with
    | some subfiles, some size =>
      if rest.isEmpty then some ⟨hash, kind, name, subfiles, size⟩ else none
    | _, _ => none
  | _ => none

inductive RootError where
  | notUtf8
  | unsupportedSchema (first : Option Text)
  | unparseableLine (line : Text)
  deriving DecidableEq, Repr

def parseRootLines : List Text → Except RootError (List IndexEntry)
  | [] => .ok []
  | line :: rest =>
    if isBlank line then parseRootLines rest
    else match Entry.parse line with
    | none => .error (.unparseableLine line)
    | some entry => (parseRootLines rest).map (entry :: ·)

/-- `documents::parse_root`: a schema 3 index every line of which is understood. -/
def parseRoot (bytes : Bytes) : Except RootError (List IndexEntry) :=
  match Utf8Codec.decode bytes with
  | none => .error .notUtf8
  | some text =>
    match lines text with
    | [] => .error (.unsupportedSchema none)
    | first :: rest =>
      if first ≠ schema3 then .error (.unsupportedSchema (some first)) else parseRootLines rest

def renderLine (e : IndexEntry) : Text :=
  e.hash ++ ':' :: e.kind ++ ':' :: e.name ++ ':' :: showU64 e.subfiles ++ ':' :: showU64 e.size

/-- `documents::render_index`: schema 3, one line per entry in the order given. -/
def renderIndex (entries : List IndexEntry) : Bytes :=
  Utf8Codec.encode ((schema3 :: entries.map renderLine).flatMap fun l => l ++ ['\n'])

/-- An entry that its own line can carry. -/
structure IndexEntry.WellFormed (e : IndexEntry) : Prop where
  hash : isValidHash e.hash = true
  kind : e.kind ≠ [] ∧ ':' ∉ e.kind ∧ '\n' ∉ e.kind
  name : e.name ≠ [] ∧ ':' ∉ e.name ∧ '\n' ∉ e.name
  subfiles : e.subfiles < UInt64.size
  size : e.size < UInt64.size

end SyncIndex
