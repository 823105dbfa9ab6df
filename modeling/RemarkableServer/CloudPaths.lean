import RemarkableServer.Integrations

/-!
# Sync paths

Remote names come from outside, so every local path is made of components that
`safeComponents` has checked. Some names at the top of the sync directory belong
to the sync engine. Exclude patterns are matched by `globMatch`, which slices the
name at byte positions and panics inside a character of several bytes.
-/
namespace CloudPaths

open RustText Integrations

/-- The longest path segment, in bytes. -/
def maxNameBytes : Nat := 255

/-- The deepest path a listing returns. -/
def maxListDepth : Nat := 64

/-- What `safe_components` finds wrong with one segment. On Linux a segment without a slash that
is not empty, `.` or `..` is a plain one. -/
def segmentFault (part : Text) : Option PathFault :=
  if part.isEmpty || part == ['.'] || part == ['.', '.'] then some .dotSegment
  else if byteLen part > maxNameBytes then some .tooLong
  else none

def hasDrivePrefix : Text → Bool
  | a :: b :: _ => a.isAlpha && b == ':'
  | _ => false

/-- The components of a relative path that cannot leave the sync directory. -/
def safeComponents (path : Text) : Except IntegrationError (List Text) :=
  let parts := split '/' path
  if path.isEmpty then .error (.invalidPath path .empty)
  else if path.any (· == '\x00') then .error (.invalidPath path .nulByte)
  else if path.any (· == '\\') then .error (.invalidPath path .backslash)
  else if path.head? == some '/' then .error (.invalidPath path .absolutePath)
  else if hasDrivePrefix (parts.headD []) then .error (.invalidPath path .drivePrefix)
  else match parts.findSome? segmentFault with
  | some why => .error (.invalidPath path why)
  | none => .ok parts

def isSafeName (name : Text) : Bool :=
  match safeComponents name with
  | .ok [_] => true
  | _ => false

/-- A listing can return a file there: each name is checked on its own. -/
def listable (parts : List Text) : Bool := parts.length ≤ maxListDepth && parts.all isSafeName

/-- One leading slash, which stands for the sync directory, is dropped. -/
def relative (path : Text) : Text := if path.head? == some '/' then path.tail else path

def cloudPathComponents (cloudPath : Text) : Except IntegrationError (List Text) :=
  safeComponents (relative cloudPath)

/-! ## The sync engine's own entries -/

def layoutMarker : Text := ".rms-sync-layout".toList
def oldLayoutDir : Text := ".rms-old-layout".toList
def manifestFile : Text := ".rms-sync-state.json".toList
def quarantineDir : Text := ".rms-remote-deleted".toList

def isReservedName (name : Text) : Bool :=
  [layoutMarker, oldLayoutDir, manifestFile, quarantineDir].any (eqIgnoreAsciiCase name)

/-- The path is, or is in, one of the engine's own entries. -/
def isReserved (path : Text) : Bool := (split '/' (relative path)).any isReservedName

/-! ## Exclude patterns -/

/-- A match of the rest of a pattern from each byte position of the name on; `none` is the panic
of a slice that starts inside a character. -/
def matchFrom (rest : Text → Option Bool) : Text → Option Bool
  | [] => rest []
  | c :: name =>
    match rest (c :: name) with
    | none => none
    | some true => some true
    | some false => if c.utf8Size > 1 then none else matchFrom rest name

def globMatch : Text → Text → Option Bool
  | [], name => some name.isEmpty
  | '*' :: pattern, name =>
    if pattern.isEmpty then some true else matchFrom (globMatch pattern) name
  | '?' :: pattern, name =>
    match name with
    | [] => some false
    | _ :: name => globMatch pattern name
  | c :: pattern, name =>
    match name with
    | [] => some false
    | d :: name => if d = c then globMatch pattern name else some false

/-- The name matches one of the patterns, tried in order. -/
def shouldExclude : List Text → Text → Option Bool
  | [], _ => some false
  | pattern :: patterns, name =>
    match globMatch pattern name with
    | none => none
    | some true => some true
    | some false => shouldExclude patterns name

end CloudPaths
