import RemarkableServer.Lib.RustText
import RemarkableServer.Lib.Utf8

/-!
# JSON values

Values as `serde_json` holds them, the lookup of a field, and the text its
pretty printer writes. An object lists its fields by key.
-/

/-- A number is kept as its literal. -/
inductive Json where
  | null
  | bool (value : Bool)
  | num (literal : RustText.Text)
  | str (text : RustText.Text)
  | arr (values : List Json)
  | obj (fields : List (RustText.Text × Json))

namespace Json

open RustText

/-- `Value::get`. -/
def get (key : Text) : Json → Option Json
  | .obj fields => (fields.find? fun f => f.1 = key).map Prod.snd
  | _ => none

/-- `value[key]`: null for a missing field and for what is no object. -/
def field (key : Text) (value : Json) : Json := (value.get key).getD .null

def isStr (text : Text) : Json → Bool
  | .str t => t = text
  | _ => false

def isTrue : Json → Bool
  | .bool b => b
  | _ => false

def asStr : Json → Option Text
  | .str t => some t
  | _ => none

/-- The text of a string, empty for any other value. -/
def textOrEmpty (value : Json) : Text := value.asStr.getD []

def escape (c : Char) : Text :=
  if c = '"' then ['\\', '"']
  else if c = '\\' then ['\\', '\\']
  else if c.toNat = 8 then ['\\', 'b']
  else if c = '\t' then ['\\', 't']
  else if c = '\n' then ['\\', 'n']
  else if c.toNat = 12 then ['\\', 'f']
  else if c = '\r' then ['\\', 'r']
  else if c.toNat < 32 then ['\\', 'u', '0', '0', hexDigit (c.toNat / 16), hexDigit (c.toNat % 16)]
  else [c]

def quote (t : Text) : Text := '"' :: t.flatMap escape ++ ['"']

def newline (indent : Nat) : Text := '\n' :: List.replicate (2 * indent) ' '

mutual

def pretty (indent : Nat) : Json → Text
  | .null => ['n', 'u', 'l', 'l']
  | .bool true => ['t', 'r', 'u', 'e']
  | .bool false => ['f', 'a', 'l', 's', 'e']
  | .num literal => literal
  | .str text => quote text
  | .arr [] => ['[', ']']
  | .arr (v :: vs) => '[' :: elements (indent + 1) (v :: vs) ++ newline indent ++ [']']
  | .obj [] => [Char.ofNat 0x7B, Char.ofNat 0x7D]
  | .obj (f :: fs) => Char.ofNat 0x7B :: members (indent + 1) (f :: fs) ++ newline indent ++ [Char.ofNat 0x7D]

def elements (indent : Nat) : List Json → Text
  | [] => []
  | v :: vs => newline indent ++ pretty indent v ++ (if vs.isEmpty then [] else [',']) ++ elements indent vs

def members (indent : Nat) : List (Text × Json) → Text
  | [] => []
  | (key, v) :: fs =>
    newline indent ++ quote key ++ ':' :: ' ' :: pretty indent v ++ (if fs.isEmpty then [] else [',']) ++
      members indent fs

end

mutual

/-- The value on one line. -/
def compact : Json → Text
  | .null => ['n', 'u', 'l', 'l']
  | .bool true => ['t', 'r', 'u', 'e']
  | .bool false => ['f', 'a', 'l', 's', 'e']
  | .num literal => literal
  | .str text => quote text
  | .arr vs => '[' :: compactElements vs ++ [']']
  | .obj fs => Char.ofNat 0x7B :: compactMembers fs ++ [Char.ofNat 0x7D]

def compactElements : List Json → Text
  | [] => []
  | v :: vs => compact v ++ (if vs.isEmpty then [] else [',']) ++ compactElements vs

def compactMembers : List (Text × Json) → Text
  | [] => []
  | (key, v) :: fs => quote key ++ ':' :: compact v ++ (if fs.isEmpty then [] else [',']) ++ compactMembers fs

end

/-- `serde_json::to_vec`. -/
def toVec (value : Json) : Bytes := Utf8Codec.encode (compact value)

/-- `serde_json::to_vec_pretty`. -/
def toVecPretty (value : Json) : Bytes := Utf8Codec.encode (pretty 0 value)

end Json
