import RemarkableServer.Lib.Json
import RemarkableServer.Store

/-!
# Server-side document creation

A document is a set of blobs listed in a document index, which the root index
lists in turn. The hash of an index is the SHA-256 of its entries' binary
hashes, by name. An operation that stores blobs is given by the blobs in the
order they are stored and by what it returns after the last one; the root is
rewritten by reading it, storing the new index and swapping the root row.
-/
namespace Documents

open RustText SyncIndex Store

/-- The crates the writers call: SHA-256 of a byte string, and JSON to and from text. -/
structure Env where
  sha256 : Bytes → Bytes
  length_sha256 : ∀ data, (sha256 data).length = 32
  toVecPretty : Json → Bytes
  fromSlice : Bytes → Option Json

/-- A random node id. -/
structure Uuid where
  bytes : Bytes
  length_bytes : bytes.length = 16
  deriving DecidableEq

/-- The hyphenated form. -/
def Uuid.toText (id : Uuid) : Text :=
  let digits := hexEncode id.bytes
  digits.take 8 ++ '-' :: (digits.drop 8).take 4 ++ '-' :: (digits.drop 12).take 4 ++
    '-' :: (digits.drop 16).take 4 ++ '-' :: digits.drop 20

def docKind : Text := "80000000".toList

/-- Retries when another client moves the root during an insertion. -/
def rootRetries : Nat := 5

inductive DocError where
  | store (error : StoreError)
  | refused (why : RootError)
  | stagedWithoutSha
  | keptChanging (new : Nat)
  | folderKeptChanging
  deriving DecidableEq, Repr

/-- The node id of a root entry; some trees name it `<id>.docSchema`. -/
def nodeId (e : IndexEntry) : Text :=
  let suffix := ".docSchema".toList
  if suffix.isSuffixOf e.name then e.name.take (e.name.length - suffix.length) else e.name

/-- Entries are sorted by name before they are hashed and rendered. -/
def sortByName (entries : List IndexEntry) : List IndexEntry := entries.insertionSort State.nameLe

/-- What is hashed for an index: the binary hashes of its entries. -/
def childHashes : List IndexEntry → Except DocError Bytes
  | [] => .ok []
  | e :: es =>
    match hexDecode e.hash with
    | none => .error (.store (.invalidHash e.hash))
    | some bytes => (childHashes es).map (bytes ++ ·)

/-- `index_hash` of entries already sorted. -/
def indexHash (env : Env) (entries : List IndexEntry) : Except DocError Text :=
  (childHashes entries).map fun bytes => hexEncode (env.sha256 bytes)

/-- A blob to be stored. -/
structure Put where
  data : Bytes
  hash : Text
  deriving DecidableEq, Repr

/-- `put_leaf`: the blob, under its content hash. -/
def leafPut (env : Env) (data : Bytes) : Put := ⟨data, hexEncode (env.sha256 data)⟩

/-- `put_leaf`: the entry returned. -/
def leafEntry (env : Env) (name : Text) (data : Bytes) : IndexEntry :=
  ⟨hexEncode (env.sha256 data), fileKind, name, 0, data.length % UInt64.size⟩

/-- The entries of the files of a node. -/
def fileEntries (env : Env) (files : List (Text × Bytes)) : List IndexEntry :=
  files.map fun f => leafEntry env f.1 f.2

/-- The index of a node over its files, and the root entry for it. -/
def nodeIndex (env : Env) (id : Text) (files : List IndexEntry) : Except DocError (Put × IndexEntry) :=
  let files := sortByName files
  (indexHash env files).map fun hash =>
    (⟨renderIndex files, hash⟩,
      ⟨hash, docKind, id, files.length, files.foldl (fun n f => (n + f.size) % UInt64.size) 0⟩)

/-! ## Documents -/

/-- A new document's file: in memory, or staged on disk with or without its SHA-256. -/
inductive DocFile where
  | bytes (data : Bytes)
  | staged (data : Bytes) (hashed : Bool)
  deriving DecidableEq, Repr

def DocFile.data : DocFile → Bytes
  | .bytes data => data
  | .staged data _ => data

def DocFile.hashed : DocFile → Bool
  | .bytes _ => true
  | .staged _ hashed => hashed

/-- The arguments of `put_document` and the clock it reads, in milliseconds. -/
structure Document where
  id : Uuid
  name : Text
  ext : Text
  file : DocFile
  parent : Text
  now : Int
  deriving DecidableEq

def showInt (n : Int) : Text := if n < 0 then '-' :: showU64 n.natAbs else showU64 n.natAbs

def Document.metadata (d : Document) : Json :=
  .obj [("createdTime".toList, .str (showInt d.now)), ("lastModified".toList, .str (showInt d.now)),
    ("lastOpened".toList, .str []), ("lastOpenedPage".toList, .num ['0']), ("parent".toList, .str d.parent),
    ("pinned".toList, .bool false), ("type".toList, .str "DocumentType".toList),
    ("visibleName".toList, .str d.name)]

def Document.content (d : Document) : Json :=
  .obj [("coverPageNumber".toList, .num ['0']), ("extraMetadata".toList, .obj []),
    ("fileType".toList, .str d.ext), ("fontName".toList, .str []), ("lineHeight".toList, .num ['-', '1']),
    ("margins".toList, .num ['1', '2', '5']), ("orientation".toList, .str "portrait".toList),
    ("pageCount".toList, .num ['0']), ("pages".toList, .arr []), ("textScale".toList, .num ['1'])]

def Document.fileName (d : Document) (suffix : Text) : Text := d.id.toText ++ '.' :: suffix

/-- The three files of a document, in the order they are stored. -/
def Document.files (env : Env) (d : Document) : List (Text × Bytes) :=
  [(d.fileName "metadata".toList, env.toVecPretty d.metadata),
    (d.fileName "content".toList, env.toVecPretty d.content), (d.fileName d.ext, d.file.data)]

def Document.entries (env : Env) (d : Document) : List IndexEntry := fileEntries env (d.files env)

/-- `put_document`: the blobs it stores and what it returns after them. -/
def putDocument (env : Env) (d : Document) : List Put × Except DocError IndexEntry :=
  let leaves := (d.files env).map fun f => leafPut env f.2
  if !d.file.hashed then (leaves.take 2, .error .stagedWithoutSha)
  else match nodeIndex env d.id.toText (d.entries env) with
  | .error e => (leaves, .error e)
  | .ok (index, entry) => (leaves ++ [index], .ok entry)

/-- `stage_documents` after its check of the root: one document after the other. -/
def stageDocuments (env : Env) : List Document → List Put × Except DocError (List IndexEntry)
  | [] => ([], .ok [])
  | d :: ds =>
    match putDocument env d with
    | (puts, .error e) => (puts, .error e)
    | (puts, .ok entry) =>
      let rest := stageDocuments env ds
      (puts ++ rest.1, rest.2.map (entry :: ·))

/-! ## Folders -/

def folderMetadata (folder : Text) (now : Int) : Json :=
  .obj [("createdTime".toList, .str (showInt now)), ("lastModified".toList, .str (showInt now)),
    ("parent".toList, .str []), ("pinned".toList, .bool false), ("type".toList, .str "CollectionType".toList),
    ("visibleName".toList, .str folder)]

/-- The content of a collection: no tags. -/
def folderContent : Bytes := Utf8Codec.encode (Char.ofNat 0x7B :: "\"tags\": []".toList ++ [Char.ofNat 0x7D])

/-- The two files of a collection, in the order they are stored. -/
def folderFiles (env : Env) (id : Uuid) (folder : Text) (now : Int) : List (Text × Bytes) :=
  [(id.toText ++ ".metadata".toList, env.toVecPretty (folderMetadata folder now)),
    (id.toText ++ ".content".toList, folderContent)]

/-- The blobs of a new collection and its root entry. -/
def putFolder (env : Env) (id : Uuid) (folder : Text) (now : Int) : List Put × Except DocError IndexEntry :=
  let files := folderFiles env id folder now
  let leaves := files.map fun f => leafPut env f.2
  match nodeIndex env id.toText (fileEntries env files) with
  | .error e => (leaves, .error e)
  | .ok (index, entry) => (leaves ++ [index], .ok entry)

/-- A node's parsed `<id>.metadata`, if its index and metadata blob are readable. -/
def nodeMetadata (env : Env) (s : State) (node : IndexEntry) : Option Json :=
  match s.get node.hash with
  | .error _ => none
  | .ok index =>
    let name := nodeId node ++ ".metadata".toList
    let entries := ((lines (Utf8Codec.decodeLossy index)).drop 1).filterMap Entry.parse
    match entries.find? fun e => e.name = name with
    | none => none
    | some file =>
      match s.get file.hash with
      | .error _ => none
      | .ok bytes => env.fromSlice bytes

/-- The live collections among the entries of a root. -/
def collections (env : Env) (s : State) (entries : List IndexEntry) : List (Text × Json) :=
  ((entries.filter fun e => e.kind = docKind).filterMap fun e =>
    (nodeMetadata env s e).map fun m => (nodeId e, m)).filter fun c =>
      (c.2.field "type".toList).isStr "CollectionType".toList && !(c.2.field "deleted".toList).isTrue &&
        !(c.2.field "parent".toList).isStr "trash".toList

/-- The collection `folder` names: by id, else by visible name with top-level ones first. -/
def findFolder (env : Env) (s : State) (entries : List IndexEntry) (folder : Text) : Option Text :=
  let live := collections env s entries
  if live.any fun c => c.1 = folder then some folder
  else
    let named := live.filter fun c => (c.2.field "visibleName".toList).isStr folder
    let top := fun c : Text × Json => (c.2.field "parent".toList).textOrEmpty.isEmpty
    ((named.filter top ++ named.filter fun c => !top c).head?).map Prod.fst

/-! ## The root -/

/-- The entries of the root at a hash, or an error if it is not one the writers rewrite. -/
def rootEntries (s : State) (rootHash : Text) : Except DocError (List IndexEntry) :=
  if rootHash.isEmpty then .ok []
  else match s.get rootHash with
  | .error e => .error (.store e)
  | .ok bytes => (parseRoot bytes).mapError .refused

/-- The rewritten root: its index blob and hash. -/
def rewriteRoot (env : Env) (entries new : List IndexEntry) : Except DocError Put :=
  let entries := sortByName (entries ++ new)
  (indexHash env entries).map fun hash => ⟨renderIndex entries, hash⟩

/-! ## Whole calls -/

/-- What a call reads from outside: whether the root row can be read, and the clock in seconds. -/
structure Times where
  readable : Bool
  modified : Int
  secs : Int
  deriving DecidableEq

/-- Store blobs one after the other. -/
def putAll (s : State) (t : Times) : List Put → State × Except DocError Unit
  | [] => (s, .ok ())
  | put :: puts =>
    match s.putWithHash put.data put.hash t.modified t.secs with
    | .error e => (s, .error (.store e))
    | .ok s => putAll s t puts

/-- `put_document` on a store. -/
def storeDocument (env : Env) (s : State) (t : Times) (d : Document) : State × Except DocError IndexEntry :=
  let (puts, outcome) := putDocument env d
  match putAll s t puts with
  | (s, .error e) => (s, .error e)
  | (s, .ok ()) => (s, outcome)

/-- Rewrite the root from what was read of it and swap it in; `none` if the root was moved. -/
def swapRoot (env : Env) (s : State) (t : Times) (root : SyncRoot) (entries new : List IndexEntry) :
    State × Option (Except DocError Nat) :=
  match rewriteRoot env entries new with
  | .error e => (s, some (.error e))
  | .ok put =>
    match putAll s t [put] with
    | (s, .error e) => (s, some (.error e))
    | (s, .ok ()) =>
      match s.setRootIf put.hash (some root.generation) with
      | (s, .ok newRoot) => (s, some (.ok newRoot.generation))
      | (s, .error (.generationMismatch _)) => (s, none)
      | (s, .error e) => (s, some (.error (.store e)))

/-- `commit_to_root` with this many attempts left. -/
def commitToRoot (env : Env) (t : Times) (new : List IndexEntry) : Nat → State → State × Except DocError Nat
  | 0, s => (s, .error (.keptChanging new.length))
  | n + 1, s =>
    let (s, root) := s.getRoot t.readable
    match rootEntries s root.hash with
    | .error e => (s, .error e)
    | .ok entries =>
      match swapRoot env s t root entries new with
      | (s, some result) => (s, result)
      | (s, none) => commitToRoot env t new n s

/-- `ensure_folder` of a name that is not empty, with a new id and the clock for each attempt left. -/
def ensureFolder (env : Env) (t : Times) (folder : Text) : List (Uuid × Int) → State → State × Except DocError Text
  | [], s => (s, .error .folderKeptChanging)
  | (id, now) :: attempts, s =>
    let (s, root) := s.getRoot t.readable
    match rootEntries s root.hash with
    | .error e => (s, .error e)
    | .ok entries =>
      match findFolder env s entries folder with
      | some found => (s, .ok found)
      | none =>
        let (puts, outcome) := putFolder env id folder now
        match putAll s t puts with
        | (s, .error e) => (s, .error e)
        | (s, .ok ()) =>
          match outcome with
          | .error e => (s, .error e)
          | .ok entry =>
            match swapRoot env s t root entries [entry] with
            | (s, some (.ok _)) => (s, .ok id.toText)
            | (s, some (.error e)) => (s, .error e)
            | (s, none) => ensureFolder env t folder attempts s

end Documents
