import RemarkableServer.SyncTransfers

/-!
# Matching paths that differ only in letter case

A provider that ignores case keeps one file for all spellings of a path. The
local files, the listing and the manifest are put into groups of paths with one
lowercase form, and the listing and the manifest take the local spelling. A group
with several files on one side is left out of the sync.
-/
namespace CloudSync

open RustText Integrations

/-- The members of a list as an ordered set holds them. -/
def sortedSet (ts : List Text) : List Text := ts.dedup.insertionSort (· ≤ ·)

section
variable (env : Env)

/-- The directories above a path, deepest first. -/
def dirsAbove (path : Text) : List Text :=
  (((List.range path.length).filter fun i => i != 0 && path[i]? == some '/').map path.take).reverse

/-- The directories above the local files. -/
def localDirs (paths : List Text) : List Text := (paths.flatMap dirsAbove).dedup

/-- The spellings the local tree has for a directory. -/
def spellingsOf (dirs : List Text) (dir : Text) : List Text :=
  sortedSet (dirs.filter fun d => env.toLowercase d == env.toLowercase dir)

/-- The deepest directory the local tree has decides, if it has it under one spelling. -/
def inLocalDirs (path : Text) (dirs : List Text) : Text :=
  match (dirsAbove path).find? fun dir => !(spellingsOf env dirs dir).isEmpty with
  | none => path
  | some dir =>
    match spellingsOf env dirs dir with
    | [here] => here ++ path.drop dir.length
    | _ => path

/-- The paths of one lowercase form, on each side and in the manifest. -/
structure Spellings where
  here : List Text
  cloud : List Text
  recorded : List Text
  deriving DecidableEq, Repr

/-- The groups, by their lowercase form. -/
def caseGroups (here listed recorded : List Text) : List Spellings :=
  (sortedSet ((here ++ listed ++ recorded).map env.toLowercase)).map fun key =>
    let ofKey (paths : List Text) : List Text := sortedSet (paths.filter (env.toLowercase · == key))
    ⟨ofKey here, ofKey listed, ofKey recorded⟩

/-- Which entry of a group a file is compared with. -/
inductive CaseBase where
  | own
  | other (src : Text) (entry : ManifestEntry)
  | undecided
  deriving DecidableEq, Repr

/-- An entry recorded under another spelling tells a file unchanged by its content only. -/
def ManifestEntry.forgetTime (e : ManifestEntry) : ManifestEntry :=
  { e with localId := e.localId.map fun l => { l with mtimeNs := none } }

def caseBase (files : SyncManifest) (recorded : List Text) (spelling : Text) : CaseBase :=
  match recorded.filterMap fun r => (files.lookup r).map fun e => (r, e) with
  | [] => .own
  | [(r, e)] => if r = spelling then .own else .other r e.forgetTime
  | _ => .undecided

structure CaseMatch where
  clashes : List (List Text)
  undecided : List Text
  carried : PathMap Text

def CaseMatch.none : CaseMatch := ⟨[], [], ∅⟩

/-- What the matching rewrites: the local files, the listing, the manifest and the paths left
alone; and what it finds. -/
structure CaseState where
  files : PathMap LocalFile
  cloud : PathMap CloudFile
  base : Option SyncManifest
  outOfView : List Text
  found : CaseMatch

/-- A group with several files on one side is left alone. -/
def CaseState.leaveAlone (s : CaseState) (g : Spellings) : CaseState :=
  let paths := g.here ++ g.cloud ++ g.recorded
  { s with
    files := paths.foldl (fun m p => m.erase p) s.files
    cloud := paths.foldl (fun m p => m.erase p) s.cloud
    outOfView := paths ++ s.outOfView
    found := { s.found with clashes := s.found.clashes ++ [sortedSet (g.here ++ g.cloud)] } }

/-- The file listed in the group takes the spelling. -/
def CaseState.respell (s : CaseState) (g : Spellings) (spelling : Text) : CaseState :=
  match g.cloud.head? with
  | none => s
  | some listed =>
    if listed = spelling then s
    else match s.cloud.lookup listed with
    | none => s
    | some f => { s with cloud := (s.cloud.erase listed).insert spelling { f with path := spelling } }

/-- The entry the file is compared with is put under the spelling, and the group's others go. -/
def CaseState.rebase (s : CaseState) (g : Spellings) (spelling : Text) : CaseState :=
  match s.base with
  | none => s
  | some base =>
    let others (m : SyncManifest) : SyncManifest :=
      (g.recorded.filter (· ≠ spelling)).foldl (fun m p => m.erase p) m
    match caseBase base g.recorded spelling with
    | .own => { s with base := some (others base) }
    | .other src entry =>
      { s with
        base := some (others (base.insert spelling entry))
        found := { s.found with carried := s.found.carried.insert spelling src } }
    | .undecided =>
      { s with
        base := some (others (base.insert spelling .default))
        found := { s.found with undecided := s.found.undecided ++ [spelling] } }

/-- The spelling a group is synced under. -/
def Spellings.spelling (g : Spellings) (dirs : List Text) : Option Text :=
  match g.here with
  | here :: _ => some here
  | [] => g.cloud.head?.map (inLocalDirs env · dirs)

def CaseState.matchGroup (dirs : List Text) (s : CaseState) (g : Spellings) : CaseState :=
  if g.here.length > 1 || g.cloud.length > 1 then s.leaveAlone g
  else match g.spelling env dirs with
  | none => s
  | some spelling => (s.respell g spelling).rebase g spelling

def matchCase (files : PathMap LocalFile) (tooLarge : List Text) (cloud : PathMap CloudFile)
    (base : Option SyncManifest) (outOfView : List Text) : CaseState :=
  let here := files.keys ++ tooLarge
  let listed := (cloud.entries.filter fun f => !f.2.isFolder).map (·.1)
  let recorded := base.elim [] (·.keys)
  (caseGroups env here listed recorded).foldl (CaseState.matchGroup env (localDirs here))
    ⟨files, cloud, base, outOfView, .none⟩

end

end CloudSync
