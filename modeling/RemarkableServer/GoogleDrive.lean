import RemarkableServer.CloudPaths
import RemarkableServer.Lib.Effect
import RemarkableServer.Lib.Paging
import RemarkableServer.Lib.Worklist
import Mathlib.Data.List.AList

/-!
# The Google Drive provider: its listing and its change feed

Drive is a graph: an item can have several parents, siblings can have the same
name, and a folder can be below itself. The listing walks down from the sync root
and counts the levels. The change feed walks up from each changed file by its
parents, with a cache that all files of a page share. What Drive answers is a
parameter.
-/
namespace GoogleDrive

open RustText Integrations CloudPaths

def folderMime : Text := "application/vnd.google-apps.folder".toList

structure DriveFile where
  id : Text
  name : Text
  mimeType : Text
  size : Option Text
  modifiedTime : Option Text
  md5Checksum : Option Text
  parents : Option (List Text)
  trashed : Option Bool
  deriving DecidableEq, Repr

structure Change where
  file : Option DriveFile
  removed : Option Bool
  deriving DecidableEq, Repr

structure ChangesResponse where
  changes : List Change
  newStartPageToken : Option Text
  nextPageToken : Option Text
  deriving DecidableEq, Repr

/-- What Drive answers: the metadata of an item (`none` if it is not found), the id behind the alias
`root`, the files that match a query, in pages, oldest first, and the change feed. Times are read as
RFC 3339; a name in a message is in the debug format. -/
structure Drive where
  folderMeta : Text → Except IntegrationError (Option DriveFile)
  rootId : Except IntegrationError Text
  listPage : Text → Option Text → Except IntegrationError (List DriveFile × Option Text)
  startPageToken : Except IntegrationError Text
  changes : Text → Except IntegrationError ChangesResponse
  parseTime : Text → Option Int
  debugText : Text → Text

namespace DriveFile

def parentIds (f : DriveFile) : List Text := f.parents.getD []

def isTrashed (f : DriveFile) : Bool := f.trashed == some true

def isFolder (f : DriveFile) : Bool := f.mimeType == folderMime

def toCloudFile (drive : Drive) (f : DriveFile) (path : Text) : CloudFile where
  id := f.id
  name := f.name
  mimeType := some f.mimeType
  size := (f.size.bind parseU64).getD 0
  modifiedAt := (f.modifiedTime.bind drive.parseTime).getD 0
  contentHash := f.md5Checksum
  parentId := f.parents.bind List.head?
  isFolder := f.isFolder
  path := path
  deleted := false

end DriveFile

/-- The folder that paths are relative to: its id as given, and the real id behind the alias. -/
structure SyncRoot where
  id : Text
  real : Option Text
  deriving DecidableEq, Repr

def SyncRoot.is (root : SyncRoot) (id : Text) : Bool := root.id == id || root.real == some id

def rootAlias : Text := "root".toList

variable (drive : Drive)

def syncRoot (folder : Option Text) : Except IntegrationError SyncRoot :=
  match folder with
  | some id => if id != rootAlias then .ok ⟨id, none⟩ else drive.rootId.map fun real => ⟨rootAlias, some real⟩
  | none => drive.rootId.map fun real => ⟨rootAlias, some real⟩

/-! ## The change feed -/

/-- The paths of folders by id; `none`: not under the root, or being looked for. -/
abbrev Cache := AList fun _ : Text => Option Text

abbrev Lookup := EStateM IntegrationError Cache

def answer {α : Type} : Except IntegrationError α → Lookup α
  | .ok a => pure a
  | .error e => throw e

/-- The root has the empty path; another folder is looked up in the cache before it is searched for. -/
def cached (root : SyncRoot) (id : Text) (search : Lookup (Option Text)) : Lookup (Option Text) := do
  if root.is id then pure (some [])
  else
    let cache ← get
    match cache.lookup id with
    | some hit => pure hit
    | none => search

/-- The path by the first of the parents that has one. -/
def pathVia (folderPath : Text → Lookup (Option Text)) (name : Text) : List Text → Lookup (Option Text)
  | [] => pure none
  | parent :: parents => do
    match ← folderPath parent with
    | some above => pure (some (above ++ '/' :: name))
    | none => pathVia folderPath name parents

/-- A folder that paths may go through. -/
def DriveFile.passable (f : DriveFile) : Bool := !f.isTrashed && isSafeName f.name

def searchVia (folderPath : Text → Lookup (Option Text)) (id : Text) : Lookup (Option Text) := do
  match ← answer (drive.folderMeta id) with
  | some f => if f.passable then pathVia folderPath f.name f.parentIds else pure none
  | none => pure none

/-- The path of a folder, with as many levels left as the first argument says: `MAX_LIST_DEPTH` less
the depth of the walk. -/
def folderPath (root : SyncRoot) : Nat → Text → Lookup (Option Text)
  | 0, id => cached root id (pure none)
  | left + 1, id => cached root id do
    modify (·.insert id none)
    let resolved ← searchVia drive (folderPath root left) id
    modify (·.insert id resolved)
    pure resolved

def pathUnder (root : SyncRoot) (f : DriveFile) : Lookup (Option Text) :=
  pathVia (folderPath drive root maxListDepth) f.name f.parentIds

/-- The changes of items that are there and not in the trash. -/
def ChangesResponse.live (page : ChangesResponse) : List DriveFile :=
  ((page.changes.filter (·.removed != some true)).filterMap (·.file)).filter fun f => !f.isTrashed

def ChangesResponse.nextCursor (page : ChangesResponse) : Option Text := page.newStartPageToken.or page.nextPageToken

/-- The changed files that are under the root, at their paths. -/
def placeChanges (root : SyncRoot) : List DriveFile → Lookup (List CloudFile)
  | [] => pure []
  | f :: files => do
    if !isSafeName f.name then placeChanges root files
    else
      let path ← pathUnder drive root f
      let rest ← placeChanges root files
      pure ((path.map (f.toCloudFile drive)).toList ++ rest)

def getChangesIn (folder cursor : Option Text) : Except IntegrationError (List CloudFile × Option Text) :=
  match cursor with
  | none => drive.startPageToken.map fun token => ([], some token)
  | some pageToken => do
    let page ← drive.changes pageToken
    if page.live.isEmpty then pure ([], page.nextCursor)
    else
      let root ← syncRoot drive folder
      match placeChanges drive root page.live ∅ with
      | .ok files _ => pure (files, page.nextCursor)
      | .error e _ => throw e

/-! ## The listing -/

/-- What the walk down has seen and listed so far. -/
structure Listing where
  visitedFolders : List Text
  seenFiles : List Text
  seenPaths : List Text
  out : List CloudFile

/-- A folder to list: its id, its path and its depth. -/
structure Pending where
  folder : Text
  path : Text
  depth : Nat

/-- Each folder is entered once and each file listed once; `none`: it was. -/
def Listing.see (l : Listing) (f : DriveFile) : Option Listing :=
  if f.isFolder then
    if l.visitedFolders.any (· == f.id) then none else some { l with visitedFolders := f.id :: l.visitedFolders }
  else if l.seenFiles.any (· == f.id) then none
  else some { l with seenFiles := f.id :: l.seenFiles }

/-- One item of a folder; a folder found is walked into unless it is too deep. -/
def listItem (above : Pending) (l : Listing) (f : DriveFile) : Listing × Option Pending :=
  let path := above.path ++ '/' :: f.name
  if !isSafeName f.name then (l, none)
  else match l.see f with
  | none => (l, none)
  | some l =>
    if l.seenPaths.any (· == path) then (l, none)
    else
      ({ l with seenPaths := path :: l.seenPaths, out := l.out ++ [f.toCloudFile drive path] },
        if f.isFolder && decide (above.depth + 1 < maxListDepth) then some ⟨f.id, path, above.depth + 1⟩ else none)

def listItems (above : Pending) (l : Listing) : List DriveFile → Listing × List Pending
  | [] => (l, [])
  | f :: files =>
    let r := listItem drive above l f
    let rest := listItems above r.1 files
    (rest.1, r.2.toList ++ rest.2)

/-! ### Queries -/

/-- Quotes and backslashes in a query are escaped. -/
def escapeQuery (t : Text) : Text := t.flatMap fun c => if c == '\\' || c == '\x27' then ['\\', c] else [c]

/-- The items in a folder that are not in the trash. -/
def childrenQuery (folder : Text) : Text :=
  '\x27' :: escapeQuery folder ++ "' in parents and trashed = false".toList

/-- One page of a query; an empty token ends the listing like none. -/
def queryPage (query : Text) (token : Option Text) :
    Except IntegrationError (List DriveFile × (PUnit ⊕ Option Text)) :=
  (drive.listPage query token).map fun page =>
    (page.1, match page.2.filter (!·.isEmpty) with
      | some next => .inr (some next)
      | none => .inl ⟨⟩)

def listQuery (n : Nat) (query : Text) : Option (Except IntegrationError (List DriveFile)) :=
  (Paging.collect (queryPage drive query) .ok
    (fun token => .api ("Drive returned repeated page token ".toList ++ drive.debugText (token.getD [])))
    n [] none []).map fun r => r.map (·.1)

/-! ### The walk down -/

def listFolder (n : Nat) (l : Listing) (p : Pending) : Option (Except IntegrationError (Listing × List Pending)) :=
  (listQuery drive n (childrenQuery p.folder)).map fun r => r.map (listItems drive p l)

/-- The sync folder is there, not in the trash, and a folder. -/
def checkFolder (root : Text) : Except IntegrationError PUnit := do
  if root == rootAlias then pure ()
  else match ← drive.folderMeta root with
  | none =>
    throw (.notFound ("sync folder ".toList ++ drive.debugText root ++
      " (deleted, or not shared with this account)".toList))
  | some f =>
    let named := "sync folder ".toList ++ drive.debugText root ++ " (".toList ++ drive.debugText f.name
    if f.isTrashed then throw (.api (named ++ ") is in the trash".toList))
    else if !f.isFolder then throw (.api (named ++ ") is not a folder".toList))
    else pure ()

/-- Everything under the folder, in at most `n` folders of at most `n` pages; `none` if there are more. -/
def listFiles (n : Nat) (folder : Option Text) : Option (Except IntegrationError (List CloudFile)) :=
  let root := folder.getD rootAlias
  match checkFolder drive root with
  | .error e => some (.error e)
  | .ok _ =>
    (Worklist.run (listFolder drive n) n ⟨[root], [], [], []⟩ [⟨root, [], 0⟩]).map fun r => r.map (·.out)

end GoogleDrive
