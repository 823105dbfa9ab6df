import RemarkableServer.CloudSync

/-!
# The local side of a full sync

Before the two sides are compared, the manifest of the last sync is loaded, a
directory of the old layout is moved aside and the local tree is scanned. After
the steps, old quarantine runs are pruned and the manifest is saved.
-/
namespace CloudSync

open RustText Integrations CloudPaths

section
variable (env : Env) (cfg : SyncConfig)

/-! ## The local scan -/

def SyncConfig.shouldSyncFolder (dir : List Text) : Bool :=
  let path := cfg.localPath ++ dir
  cfg.folderConfigs.isEmpty || cfg.folderConfigs.any fun folder => folder.isPrefixOf path || path.isPrefixOf folder

def SyncConfig.isHidden (name : Text) : Bool := !cfg.syncHidden && name.head? == some '.'

/-- The scan comes to the entry `rest` below `above`: no name is hidden or excluded, and the
directories on the way are synced. -/
def SyncConfig.reaches (above : List Text) : List Text → Option Bool
  | [] => some true
  | name :: rest =>
    if cfg.isHidden name then some false
    else match shouldExclude cfg.excludePatterns name with
    | none => none
    | some true => some false
    | some false =>
      if rest.isEmpty then some true
      else if cfg.shouldSyncFolder (above ++ [name]) then SyncConfig.reaches (above ++ [name]) rest
      else some false

/-- Whether the scan would list a file there, and a listing return one. -/
def SyncConfig.visible (path : Text) : Option Bool :=
  match cloudPathComponents path with
  | .error _ => some false
  | .ok parts =>
    if !listable parts then some false
    else match cfg.reaches [] parts with
    | none => none
    | some false => some false
    | some true => some !isReserved path

def SyncConfig.overLimit (size : Nat) : Bool := cfg.maxFileSize.any (size > ·)

def SyncConfig.tooLarge (f : CloudFile) : Bool := !f.isFolder && cfg.overLimit f.size

/-- The files the scan lists, by sync path, and the paths of those over the size limit. -/
structure Scan where
  files : PathMap LocalFile
  tooLarge : List Text

def scanEntry (t : LocalTree) (found : Scan) (p : List Text) : Option Scan :=
  match cfg.reaches [] p with
  | none => none
  | some false => some found
  | some true =>
    match t.file? p with
    | none => some found
    | some f =>
      if cfg.overLimit f.bytes.length then some { found with tooLarge := found.tooLarge ++ [pathText p] }
      else some { found with files := found.files.insert (pathText p) (.of p f) }

def scanEntries (t : LocalTree) : Scan → List (List Text) → Option Scan
  | found, [] => some found
  | found, p :: ps => (scanEntry cfg t found p).bind fun found => scanEntries t found ps

def listLocalFiles : Sync Scan := do
  let t ← disk env .scan fun t => .ok (t, t)
  ofPanicking (scanEntries cfg t ⟨∅, []⟩ t.entries)

/-! ## The manifest file -/

def readManifestFile : Sync ManifestFile := do
  match ← attempt (readFile env [manifestFile]) with
  | .error (.io .notFound) => pure .empty
  | .error e => fail e
  | .ok bytes =>
    match env.toManifest bytes with
    | .error why => fail (.serialization why)
    | .ok file =>
      if file.version > manifestVersion then
        fail (.serialization ("version ".toList ++ showU64 file.version ++
          " is newer than this server's ".toList ++ showU64 manifestVersion))
      else pure file

/-- The stored manifest is the one the key names, under any spelling of its folder. -/
def StoredManifest.is (s : StoredManifest) (key : ManifestKey) : Bool :=
  s.provider == key.provider && s.account == key.account &&
    env.provider.folderKey (some s.cloudFolder) == key.cloudFolder

/-- The last manifest written for the key, once for each engine. -/
def loadManifest : Sync PUnit := do
  let w ← get
  if !cfg.persistState || w.manifestKey.isSome then pure ()
  else
    let account ← call .accountId env.provider.accountId
    let key : ManifestKey :=
      ⟨env.provider.providerType, account.getD [], env.provider.folderKey cfg.cloudFolder⟩
    if w.state.manifest.isNone then
      let stored ← readManifestFile env
      updateState fun s => { s with manifest := (stored.syncs.reverse.find? (·.is env key)).map (·.files) }
    modify fun w => { w with manifestKey := some key }

def saveManifest : Sync PUnit := do
  let w ← get
  match w.manifestKey, w.state.manifest with
  | some key, some manifest => do
    let stored ← readManifestFile env
    let time ← now env
    let kept := stored.syncs.filter fun s => !s.is env key
    let file : ManifestFile :=
      ⟨manifestVersion, kept ++ [⟨key.provider, key.account, key.cloudFolder, time, manifest⟩]⟩
    let _ ← writeReplace env [] [manifestFile] (env.fromManifest file)
    disk env (.sync []) fun t => .ok ((), t)
  | _, _ => pure ()

/-! ## The old layout -/

def foldName (name : Text) : Text := env.toLowercase ((env.percentDecode name).getD name)

/-- The sync path is the directory or below it. -/
def isUnder (path : Text) (dir : List Text) : Bool :=
  let parts := split '/' (relative path)
  dir.length ≤ parts.length && (parts.zip dir).all fun p => foldName env p.1 == foldName env p.2

/-- A directory on disk spelled as the old layout may have spelled it. -/
def isOldLayout (dir : List Text) (p : List Text) : Bool :=
  p.length == dir.length && !isReservedName (p.headD []) &&
    (p.zip dir).all fun q => foldName env q.1 == foldName env q.2

/-- `create_dir_all`. -/
def createDirAll (rel : List Text) : Sync PUnit := do
  match ← createDirsWithin env rel with
  | some _ => pure ()
  | none => fail (.io .notADirectory)

/-- One directory is moved into the old-layout directory, under a free name. -/
def moveLayoutDir (rel : List Text) : Sync (List Text × List Text) := do
  let first := oldLayoutDir :: rel
  let w ← get
  let dst := freePath w.tree first.dropLast (first.getLast?.getD [])
  createDirAll env dst.dropLast
  disk env (.moveDir rel dst) fun t => .ok ((), t.moveDir rel dst)
  pure (rel, dst)

def moveLayoutDirs : List (List Text) → Sync (List (List Text × List Text))
  | [] => pure []
  | rel :: rels => do
    let moved ← moveLayoutDir env rel
    let rest ← moveLayoutDirs rels
    pure (moved :: rest)

/-- Every directory of the old layout, in the order of their paths. -/
def moveOldLayout (dir : List Text) : Sync (List (List Text × List Text)) := do
  let t ← disk env .scan fun t => .ok (t, t)
  moveLayoutDirs env ((t.dirs.filter (isOldLayout env dir)).dedup.insertionSort (· ≤ ·))

def readMarker : Sync (List Text) := do
  match ← attempt (readFile env [layoutMarker]) with
  | .error (.io .notFound) => pure []
  | .error e => fail e
  | .ok bytes =>
    match env.toMarker bytes with
    | .error why => fail (.serialization why)
    | .ok handled => pure handled

/-- The directory the provider kept this folder in before is moved aside once. Answers the notices
and whether anything was moved. -/
def moveLegacyLayout (cloud : PathMap CloudFile) : Sync (List Notice × Bool) := do
  match ← call (.legacyLayoutDir cfg.cloudFolder) (env.provider.legacyLayoutDir · cfg.cloudFolder) with
  | none => pure ([], false)
  | some dir =>
    if dir.isEmpty then pure ([], false)
    else
      let handled ← readMarker env
      let key := pathText (dir.map (foldName env))
      if handled.any (· == key) then pure ([], false)
      else
        let moved ← moveOldLayout env dir
        let subfolder :=
          if cloud.keys.any (isUnder env · dir) then [Notice.layoutSubfolder dir cfg.persistState] else []
        let _ ← writeReplace env [] [layoutMarker] (env.fromMarker (handled ++ [key]))
        pure (moved.map (fun m => .layoutMoved m.1 m.2) ++ subfolder, !moved.isEmpty)

/-! ## Pruning the quarantine -/

/-- Where the quarantine starts to be mentioned in the notices. -/
def quarantineNoticeBytes : Nat := 1 <<< 30

/-- The earliest time `chrono` represents, in seconds; subtraction beyond it panics. -/
def minTime : Int := -8334601228800

/-- The bytes of the files at or under the path. -/
def diskUsage (t : LocalTree) (p : List Text) : Nat :=
  t.files.entries.foldl (fun n e => if p.isPrefixOf e.1 then n + e.2.bytes.length else n) 0

/-- The time before which runs are removed. -/
def pruneCutoff (run : Text) (keepDays : Option Nat) : Sync (Option Int) :=
  match keepDays, env.parseRun run with
  | some days, some time =>
    let cutoff := time - 86400 * days
    ofPanicking (if cutoff < minTime then none else some (some cutoff))
  | _, _ => pure none

/-- The entry is a run before the cutoff, and not this one. -/
def isOldRun (run : Text) (cutoff : Option Int) (isDir : Bool) (name : Text) : Bool :=
  match cutoff, env.parseRun name with
  | some cutoff, some started => isDir && decide (started < cutoff) && name != run
  | _, _ => false

/-- One entry of the quarantine directory: the runs removed and the bytes left, so far. -/
def pruneRun (run : Text) (cutoff : Option Int) (removed left : Nat) (name : Text) : Sync (Nat × Nat) := do
  let p := [quarantineDir, name]
  let isDir ← stat env p
  if isOldRun env run cutoff isDir name then
    disk env (.removeAll p) fun t => .ok ((), t.removeAll p)
    pure (removed + 1, left)
  else
    let w ← get
    pure (removed, left + diskUsage w.tree p)

def pruneRuns (run : Text) (cutoff : Option Int) : Nat → Nat → List Text → Sync (Nat × Nat)
  | removed, left, [] => pure (removed, left)
  | removed, left, name :: names => do
    let n ← pruneRun env run cutoff removed left name
    pruneRuns run cutoff n.1 n.2 names

/-- How many runs were removed, and how much is left. -/
def pruneQuarantine (run : Text) (keepDays : Option Nat) : Sync (Nat × Nat) := do
  let w ← get
  if !w.tree.taken [quarantineDir] then pure (0, 0)
  else if !w.tree.isDir [quarantineDir] then
    if keepDays.isNone then pure (0, 0) else fail (.localPathUnusable quarantineDir .notADirectory)
  else
    let cutoff ← pruneCutoff env run keepDays
    let names ← disk env (.stat [quarantineDir]) fun t => .ok (t.children [quarantineDir], t)
    pruneRuns env run cutoff 0 0 names

end

end CloudSync
