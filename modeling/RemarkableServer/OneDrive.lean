import RemarkableServer.CloudPaths
import RemarkableServer.Lib.Effect
import RemarkableServer.Lib.Paging
import RemarkableServer.Lib.Worklist
import Mathlib.Data.List.AList

/-!
# The OneDrive provider: its listing and its change feed

A drive is a tree of items below the drive's root. The listing walks down from
the sync root, folder by folder. The change feed brings items of the whole drive;
each is placed by a walk up its parents, which are known from the feed itself or
asked for, with a memo of the paths of folders that all items share. What the
Graph API answers is a parameter.
-/
namespace OneDrive

open RustText Integrations CloudPaths

structure FileHashes where
  sha256Hash : Option Text
  quickXorHash : Option Text
  deriving DecidableEq, Repr

structure FileFacet where
  mimeType : Option Text
  hashes : Option FileHashes
  deriving DecidableEq, Repr

structure ParentReference where
  id : Option Text
  path : Option Text
  deriving DecidableEq, Repr

/-- `folder`, `root` and `deleted` say whether the item has that facet. -/
structure DriveItem where
  id : Text
  name : Text
  size : Nat
  folder : Bool
  file : Option FileFacet
  lastModifiedDateTime : Option Text
  parentReference : Option ParentReference
  root : Bool
  deleted : Bool
  deriving DecidableEq, Repr

structure ChildrenPage where
  value : List DriveItem
  nextLink : Option Text
  deriving DecidableEq, Repr

structure DeltaPage where
  value : List DriveItem
  deltaLink : Option Text
  nextLink : Option Text
  deriving DecidableEq, Repr

/-- The Graph API: its items by id (`NotFound` if there is none), the pages of a listing of children and
of a delta by their URLs, and which URLs are on its endpoint. Times are read as RFC 3339; an origin and
a link in a message are texts of the URL crate and of the debug format. -/
structure Graph where
  base : Text
  item : Text → Except IntegrationError DriveItem
  childrenPage : Text → Except IntegrationError ChildrenPage
  deltaPage : Text → Except IntegrationError DeltaPage
  onGraph : Text → Bool
  parseTime : Text → Option Int
  originText : Text → Text
  debugText : Text → Text

/-- The whole drive, or a folder by its id. -/
inductive SyncRoot where
  | drive
  | folder (id : Text)
  deriving DecidableEq, Repr

def SyncRoot.of : Option Text → SyncRoot
  | none => .drive
  | some id => if id == [] || id == "root".toList then .drive else .folder id

def SyncRoot.isFolder (root : SyncRoot) (id : Text) : Bool := root == .folder id

namespace DriveItem

def parentId (i : DriveItem) : Option Text := i.parentReference.bind (·.id)

def toCloudFileAt (graph : Graph) (i : DriveItem) (path : Text) : CloudFile where
  id := i.id
  name := i.name
  mimeType := i.file.bind (·.mimeType)
  size := i.size
  modifiedAt := (i.lastModifiedDateTime.bind graph.parseTime).getD 0
  contentHash := (i.file.bind (·.hashes)).bind fun h => h.sha256Hash.or h.quickXorHash
  parentId := i.parentId
  isFolder := i.folder
  path := path
  deleted := i.deleted

end DriveItem

variable (graph : Graph)

/-! ## Pages -/

def graphLink (link : Text) : Except IntegrationError Text :=
  if graph.onGraph link then .ok link
  else .error (.api ("refusing a Graph link to ".toList ++ graph.originText link ++ " (not ".toList ++
    graph.base ++ ")".toList))

def rootUrl : SyncRoot → Text
  | .folder id => graph.base ++ "/me/drive/items/".toList ++ id
  | .drive => graph.base ++ "/me/drive/root".toList

def childrenUrl (root : SyncRoot) : Text := rootUrl graph root ++ "/children".toList

def childrenStep (url : Text) : Except IntegrationError (List DriveItem × (PUnit ⊕ Text)) :=
  (graph.childrenPage url).map fun page =>
    (page.value, match page.nextLink with
      | some next => .inr next
      | none => .inl ⟨⟩)

/-- Every item of the collection, in at most `n` pages. -/
def getAll (n : Nat) (url : Text) : Option (Except IntegrationError (List DriveItem)) :=
  (Paging.collect (childrenStep graph) (graphLink graph)
    (fun next => .api ("Graph returned repeated nextLink ".toList ++ graph.debugText next)) n [url] url []).map
    fun r => r.map (·.1)

/-- A page of a delta; the link it ends with has to be on the endpoint. -/
def deltaStep (url : Text) : Except IntegrationError (List DriveItem × (Text ⊕ Text)) := do
  let page ← graph.deltaPage url
  match page.deltaLink, page.nextLink with
  | some done, _ => (graphLink graph done).map fun link => (page.value, .inl link)
  | none, some next => pure (page.value, .inr next)
  | none, none => throw (.api "delta page with neither nextLink nor deltaLink".toList)

/-- Every item of a delta, in at most `n` pages, and the link for next time. -/
def deltaAll (n : Nat) (url : Text) : Option (Except IntegrationError (List DriveItem × Text)) :=
  Paging.collect (deltaStep graph) (graphLink graph)
    (fun next => .api ("Graph returned repeated delta nextLink ".toList ++ graph.debugText next)) n [url] url []

/-! ## The change feed -/

structure FolderInfo where
  name : Text
  parent : Option Text
  isDriveRoot : Bool
  deriving DecidableEq, Repr

def FolderInfo.of (i : DriveItem) : FolderInfo := ⟨i.name, i.parentId, i.root⟩

/-- The folders that are known (`none`: gone), and the paths of folders (`none`: not under the root). -/
structure Memo where
  folders : AList fun _ : Text => Option FolderInfo
  paths : AList fun _ : Text => Option Text

abbrev Lookup := EStateM IntegrationError Memo

def folderInfo (id : Text) : Except IntegrationError (Option FolderInfo) :=
  match graph.item id with
  | .ok item => .ok (some (.of item))
  | .error (.notFound _) => .ok none
  | .error e => .error e

/-- A folder that is not known is asked for once. -/
def knownFolder (id : Text) : Lookup (Option FolderInfo) := do
  let memo ← get
  match memo.folders.lookup id with
  | some info => pure info
  | none =>
    match folderInfo graph id with
    | .error e => throw e
    | .ok info => do
      modify fun memo => { memo with folders := memo.folders.insert id info }
      pure info

/-- Where a walk ended, with the path of the folder there and the folders walked through (the last one
first, with their names). `none`: the walk was cut short. -/
abbrev Walked := Option (Option Text × List (Text × Text))

/-- A walk ends at the sync folder, at a folder with a memoized path and where it has been before. -/
def endsAt (root : SyncRoot) (walked : List (Text × Text)) (cur : Text) (next : Lookup Walked) : Lookup Walked := do
  if root.isFolder cur then pure (some (some [], walked))
  else
    let memo ← get
    match memo.paths.lookup cur with
    | some hit => pure (some (hit, walked))
    | none => if walked.any (·.1 == cur) then pure (some (none, walked)) else next

/-- The walk up from a folder, with as many levels left as the first argument says. -/
def walkUp (root : SyncRoot) : Nat → List (Text × Text) → Text → Lookup Walked
  | 0, walked, cur => endsAt root walked cur (pure none)
  | left + 1, walked, cur => endsAt root walked cur do
    match ← knownFolder graph cur with
    | none => pure (some (none, walked))
    | some info =>
      if info.isDriveRoot then pure (some (if root == .drive then some [] else none, walked))
      else match info.parent with
      | none => pure (some (none, walked))
      | some parent =>
        if isSafeName info.name then walkUp root left ((cur, info.name) :: walked) parent
        else pure (some (none, walked))

/-- Every folder on the walk gets its path. -/
def memoize : Option Text → List (Text × Text) → Lookup (Option Text)
  | path, [] => pure path
  | path, (folder, name) :: walked => do
    let path := path.map (· ++ '/' :: name)
    modify fun memo => { memo with paths := memo.paths.insert folder path }
    memoize path walked

def folderPath (root : SyncRoot) (id : Text) : Lookup (Option Text) := do
  match ← walkUp graph root maxListDepth [] id with
  | none => pure none
  | some (settled, walked) => memoize settled walked

/-- The last occurrence of each item, in the order of the first ones. -/
structure Latest where
  latest : AList fun _ : Text => DriveItem
  order : List Text

def Latest.add (l : Latest) (i : DriveItem) : Latest where
  latest := l.latest.insert i.id i
  order := if (l.latest.lookup i.id).isSome then l.order else l.order ++ [i.id]

def latestItems (all : List DriveItem) : List DriveItem :=
  let l := all.foldl Latest.add ⟨∅, []⟩
  l.order.filterMap (l.latest.lookup ·)

/-- The folders among the items. -/
def feedFolders (items : List DriveItem) : AList fun _ : Text => Option FolderInfo :=
  (items.filter fun i => i.folder || i.root).foldl (fun folders i => folders.insert i.id (some (.of i))) ∅

/-- One item of the feed, at its path: `none` if it is the sync folder itself, not safe, not under the
root or too deep. -/
def placeItem (root : SyncRoot) (i : DriveItem) : Lookup (Option CloudFile) := do
  if i.root || root.isFolder i.id then pure none
  else if !isSafeName i.name then pure none
  else match i.parentId with
  | none => pure none
  | some parent => do
    match ← folderPath graph root parent with
    | none => pure none
    | some above =>
      let path := above ++ '/' :: i.name
      if path.count '/' > maxListDepth then pure none else pure (some (i.toCloudFileAt graph path))

def placeItems (root : SyncRoot) : List DriveItem → Lookup (List CloudFile)
  | [] => pure []
  | i :: items => do
    let placed ← placeItem graph root i
    let rest ← placeItems root items
    pure (placed.toList ++ rest)

/-- The first file at each path, other than the paths seen already. -/
def firstAtPath (seen : List Text) : List CloudFile → List CloudFile
  | [] => []
  | f :: files => if seen.any (· == f.path) then firstAtPath seen files else f :: firstAtPath (f.path :: seen) files

/-- Deletions come first; one at a path that a live item holds is superseded by it. -/
def orderChanges (files : List CloudFile) : List CloudFile :=
  let live := firstAtPath [] (files.filter (!·.deleted))
  firstAtPath (live.map (·.path)) (files.filter (·.deleted)) ++ live

def latestLink : Text := graph.base ++ "/me/drive/root/delta?token=latest".toList

/-- The changes since the cursor, in at most `n` pages; `none` if there are more. -/
def getChangesIn (n : Nat) (folder cursor : Option Text) :
    Option (Except IntegrationError (List CloudFile × Option Text)) :=
  match cursor with
  | none => (deltaAll graph n (latestLink graph)).map fun r => r.map fun page => ([], some page.2)
  | some cursor =>
    if !graph.onGraph cursor then
      some (.error (.resyncRequired ("stored delta link is not on ".toList ++ graph.base)))
    else match deltaAll graph n cursor with
    | none => none
    | some (.error e) => some (.error e)
    | some (.ok (all, next)) =>
      let items := latestItems all
      match placeItems graph (.of folder) items ⟨feedFolders items, ∅⟩ with
      | .error e _ => some (.error e)
      | .ok files _ => some (.ok (orderChanges files, some next))

/-! ## The listing -/

structure Listing where
  seenItems : List Text
  seenPaths : List Text
  out : List CloudFile

/-- A folder to list: its URL, its path and its depth. -/
structure Pending where
  url : Text
  path : Text
  depth : Nat
  deriving DecidableEq

/-- One item of a folder; a folder found is walked into unless it is too deep. -/
def listItem (above : Pending) (l : Listing) (i : DriveItem) : Listing × Option Pending :=
  let path := above.path ++ '/' :: i.name
  if i.deleted || !isSafeName i.name || l.seenItems.any (· == i.id) then (l, none)
  else
    let l := { l with seenItems := i.id :: l.seenItems }
    if l.seenPaths.any (· == path) then (l, none)
    else
      ({ l with seenPaths := path :: l.seenPaths, out := l.out ++ [i.toCloudFileAt graph path] },
        if i.folder && decide (above.depth + 1 < maxListDepth) then
          some ⟨childrenUrl graph (.folder i.id), path, above.depth + 1⟩
        else none)

def listItems (above : Pending) (l : Listing) : List DriveItem → Listing × List Pending
  | [] => (l, [])
  | i :: items =>
    let r := listItem graph above l i
    let rest := listItems above r.1 items
    (rest.1, r.2.toList ++ rest.2)

def listFolder (n : Nat) (l : Listing) (p : Pending) : Option (Except IntegrationError (Listing × List Pending)) :=
  (getAll graph n p.url).map fun r => r.map (listItems graph p l)

def startListing : SyncRoot → Listing
  | .folder id => ⟨[id], [], []⟩
  | .drive => ⟨[], [], []⟩

/-- Everything under the folder, in at most `n` folders of at most `n` pages; `none` if there are more. -/
def listFiles (n : Nat) (folder : Option Text) : Option (Except IntegrationError (List CloudFile)) :=
  let root := SyncRoot.of folder
  (Worklist.run (listFolder graph n) n (startListing root) [⟨childrenUrl graph root, [], 0⟩]).map
    fun r => r.map (·.out)

end OneDrive
