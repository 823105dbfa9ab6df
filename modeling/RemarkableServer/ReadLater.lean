import Mathlib.Data.Char
import Mathlib.Data.List.Lex
import RemarkableServer.Lib.RustText

/-!
# Read-later articles, and how a sync puts them on the device

The manager keeps its articles in a table and in a map that mirrors it. A sync of
an account records what its provider lists, looks for the articles that are not
on the device yet, renders them and adds them to the sync tree in batches: each
batch is staged, planned in the table, committed to the root and marked
delivered. A sync is a state of the system that is stepped from outside, so that
other clients move the root, articles are edited and the process dies anywhere
between two steps.
-/
namespace ReadLater

open RustText

inductive ReadLaterProvider where
  | pocket
  | instapaper
  | wallabag
  | omnivore
  deriving DecidableEq, Repr

inductive ReadStatus where
  | unread
  | inProgress
  | read
  | archived
  deriving DecidableEq, Repr

inductive ArticleFormat where
  | html
  | epub
  | pdf
  deriving DecidableEq, Repr

structure Article where
  id : Text
  provider : ReadLaterProvider
  providerId : Text
  url : Text
  tags : List Text
  status : ReadStatus
  favorite : Bool
  addedAt : Int
  readAt : Option Int
  documentId : Option Text
  syncedToDevice : Bool
  lastSync : Option Int
  accountId : Option Text
  readStatusPending : Bool
  deriving DecidableEq, Repr

structure TagFilter where
  tag : Text
  included : Bool
  deriving DecidableEq, Repr

structure SyncSettings where
  maxArticles : Nat
  convertFormat : ArticleFormat
  syncReadStatus : Bool
  tagFilters : List TagFilter
  includeFavoritesOnly : Bool
  includeArchived : Bool
  folderId : Option Text
  deriving DecidableEq, Repr

structure ProviderAccount where
  id : Text
  provider : ReadLaterProvider
  syncSettings : SyncSettings
  deriving DecidableEq, Repr

/-- An entry of a provider's listing, with the id its article is given. -/
structure Listed where
  id : Text
  providerId : Text
  url : Text
  tags : List Text
  status : ReadStatus
  favorite : Bool
  addedAt : Int
  readAt : Option Int
  deriving DecidableEq, Repr

/-- A provider knows nothing of the device. -/
def Listed.toArticle (provider : ReadLaterProvider) (l : Listed) : Article where
  id := l.id
  provider := provider
  providerId := l.providerId
  url := l.url
  tags := l.tags
  status := l.status
  favorite := l.favorite
  addedAt := l.addedAt
  readAt := l.readAt
  documentId := none
  syncedToDevice := false
  lastSync := none
  accountId := none
  readStatusPending := false

/-! ## The selection -/

def Article.key (a : Article) : ReadLaterProvider × Text := (a.provider, a.providerId)

/-- The first article of each key, other than the keys seen already. -/
def distinctFrom (seen : List (ReadLaterProvider × Text)) : List Article → List Article
  | [] => []
  | a :: articles =>
    if seen.contains a.key then distinctFrom seen articles else a :: distinctFrom (a.key :: seen) articles

def distinctArticles (articles : List Article) : List Article := distinctFrom [] articles

def Article.hasTag (a : Article) (tag : Text) : Bool := a.tags.any (eqIgnoreAsciiCase · tag)

def Article.isSelected (settings : SyncSettings) (a : Article) : Bool :=
  let includes := settings.tagFilters.filter (·.included)
  if settings.tagFilters.any fun f => !f.included && a.hasTag f.tag then false
  else if !includes.isEmpty && !includes.any fun f => a.hasTag f.tag then false
  else if settings.includeFavoritesOnly && !a.favorite then false
  else settings.includeArchived || a.status != .archived

/-- The newest articles the filters let through. -/
def selectArticlesForSync (articles : List Article) (settings : SyncSettings) : List Article :=
  let selected := (articles.filter (·.isSelected settings)).insertionSort fun a b => b.addedAt ≤ a.addedAt
  if settings.maxArticles > 0 then selected.take settings.maxArticles else selected

/-! ## The manager -/

/-- The rows of the articles table, the ids of the accounts, and the map of the articles by id (its
order is that of the list). -/
structure Manager where
  db : List Article
  accounts : List Text
  articles : List Article

/-- How a transaction ends; one that fails may have been applied all the same. -/
inductive Write where
  | done
  | failed (applied : Bool)
  deriving DecidableEq, Repr

/-- The rows that a row replaces: one with its id, or with its account and key. -/
def Article.replaces (a r : Article) : Bool :=
  r.id == a.id || (a.accountId.isSome && r.accountId == a.accountId && r.key == a.key)

/-- `INSERT OR REPLACE`. -/
def writeArticle (rows : List Article) (a : Article) : List Article := rows.filter (!a.replaces ·) ++ [a]

def insertArticle (articles : List Article) (a : Article) : List Article := articles.filter (·.id != a.id) ++ [a]

namespace Manager

/-- The table is written first, and the map only if that went well. -/
def write (m : Manager) (w : Write) (db articles : List Article) : Manager × Bool :=
  match w with
  | .done => ({ m with db := db, articles := articles }, true)
  | .failed applied => ({ m with db := if applied then db else m.db }, false)

def getArticle (m : Manager) (id : Text) : Option Article := m.articles.find? (·.id == id)

/-- The map is read from the table again. -/
def reload (m : Manager) : Manager := { m with articles := m.db }

end Manager

def keepDeviceState (a prev : Article) : Article :=
  { a with
    documentId := a.documentId.or prev.documentId
    syncedToDevice := a.syncedToDevice || prev.syncedToDevice
    lastSync := a.lastSync.or prev.lastSync }

/-- The row an account has for the key of the article. -/
def Manager.own (m : Manager) (accountId : Text) (a : Article) : Option Article :=
  m.articles.find? fun r => r.key == a.key && r.accountId == some accountId

/-- A row for the key and the page of the article that belongs to no account there is. -/
def Manager.orphan (m : Manager) (accountId : Text) (a : Article) : Option Article :=
  let rows := m.articles.filter fun r => r.key == a.key && (match r.accountId with
    | some owner => owner != accountId && !m.accounts.contains owner
    | none => true)
  (rows.insertionSort fun x y => x.id ≤ y.id).find? (·.url == a.url)

/-- What is recorded for an article that was fetched. -/
def Manager.recorded (m : Manager) (accountId : Text) (keepPendingStatus : Bool) (a : Article) : Article :=
  let a := match m.own accountId a with
    | some prev =>
      let a := keepDeviceState { a with id := prev.id } prev
      if prev.readStatusPending && keepPendingStatus then
        { a with status := prev.status, readAt := prev.readAt, readStatusPending := true }
      else a
    | none =>
      match m.orphan accountId a with
      | some prev => keepDeviceState { a with id := prev.id } prev
      | none => a
  { a with accountId := some accountId }

/-- The articles as they are recorded, each key once; `none` if they could not be. -/
def Manager.recordFetched (m : Manager) (w : Write) (accountId : Text) (keepPendingStatus : Bool)
    (articles : List Article) : Manager × Option (List Article) :=
  let recorded := (distinctArticles articles).map (m.recorded accountId keepPendingStatus)
  let (m, ok) := m.write w (recorded.foldl writeArticle m.db) (recorded.foldl insertArticle m.articles)
  (m, if ok then some recorded else none)

/-- The delivery columns of one row; `delivered` is when it was, if it was. -/
def setDelivery (delivered : Option Int) (delivery : Text × Text) (r : Article) : Article :=
  if r.id == delivery.1 then
    match delivered with
    | some now => { r with documentId := some delivery.2, syncedToDevice := true, lastSync := some now }
    | none => if r.syncedToDevice then r else { r with documentId := some delivery.2 }
  else r

def setDeliveries (delivered : Option Int) (deliveries : List (Text × Text)) (rows : List Article) : List Article :=
  deliveries.foldl (fun rows delivery => rows.map (setDelivery delivered delivery)) rows

def Manager.setDeliveryColumns (m : Manager) (w : Write) (deliveries : List (Text × Text)) (delivered : Option Int) :
    Manager × Bool :=
  m.write w (setDeliveries delivered deliveries m.db) (setDeliveries delivered deliveries m.articles)

def Manager.planDeliveries (m : Manager) (w : Write) (deliveries : List (Text × Text)) : Manager × Bool :=
  m.setDeliveryColumns w deliveries none

def Manager.markDeliveredAll (m : Manager) (w : Write) (now : Int) (deliveries : List (Text × Text)) :
    Manager × Bool :=
  m.setDeliveryColumns w deliveries (some now)

/-! ## Edits -/

/-- An article is written under the id its account and key have in the table. -/
def Manager.upsertArticle (m : Manager) (w : Write) (a : Article) : Manager × Bool :=
  let existing := (m.db.find? fun r => r.accountId == a.accountId && r.key == a.key).map (·.id)
  let a := match existing with
    | none => a
    | some id =>
      if id == a.id then a
      else match m.getArticle id with
      | none => { a with id := id }
      | some prev =>
        let a := keepDeviceState a prev
        { a with id := id, accountId := a.accountId.or prev.accountId }
  m.write w (writeArticle m.db a) (insertArticle m.articles a)

structure UpdateArticleRequest where
  status : Option ReadStatus
  favorite : Option Bool
  tags : Option (List Text)
  documentId : Option Text
  syncedToDevice : Option Bool
  deriving DecidableEq, Repr

def Article.update (a : Article) (req : UpdateArticleRequest) (now : Int) : Article :=
  { a with
    readStatusPending := a.readStatusPending || req.status.any (· != a.status)
    status := req.status.getD a.status
    readAt := if req.status = some .read then some now else a.readAt
    favorite := req.favorite.getD a.favorite
    tags := req.tags.getD a.tags
    documentId := req.documentId.or a.documentId
    syncedToDevice := req.syncedToDevice.getD a.syncedToDevice
    lastSync := if req.syncedToDevice = some true then some now else a.lastSync }

def Manager.updateArticle (m : Manager) (w : Write) (id : Text) (req : UpdateArticleRequest) (now : Int) : Manager :=
  match m.getArticle id with
  | none => m
  | some a => (m.upsertArticle w (a.update req now)).1

/-- `clear_read_status_pending`: the provider has the status, or is not sent it any more. -/
def Manager.clearReadStatusPending (m : Manager) (w : Write) (id : Text) (sent : Option ReadStatus) : Manager :=
  match m.getArticle id with
  | none => m
  | some a =>
    if !a.readStatusPending || sent.any (· != a.status) then m
    else
      let a := { a with readStatusPending := false }
      (m.write w (writeArticle m.db a) (insertArticle m.articles a)).1

/-! ## A sync -/

/-- The nodes of the current root, and whether the document writers understand it. -/
structure Tree where
  nodes : List Text
  understood : Bool
  deriving DecidableEq, Repr

/-- Rendered articles, with the length of each document, waiting for one root commit. -/
structure Batch where
  documents : List (Article × Nat)
  bytes : Nat
  deriving DecidableEq, Repr

def Batch.empty : Batch := ⟨[], 0⟩

def batchArticles : Nat := 20

def batchBytes : Nat := 67108864

def Batch.push (b : Batch) (a : Article) (bytes : Nat) : Batch :=
  ⟨b.documents ++ [(a, bytes)], min (b.bytes + bytes) (UInt64.size - 1)⟩

def Batch.isFull (b : Batch) : Bool := b.documents.length ≥ batchArticles || b.bytes ≥ batchBytes

/-- A delivery in progress: the articles still to be rendered, the batch so far, and the id of the folder
once it is resolved. -/
structure Delivery where
  pending : List Article
  batch : Batch
  parent : Option Text
  deriving DecidableEq, Repr

/-- Where a sync is; what is named is done next. -/
inductive Phase where
  | recordFetched (selected : List Article)
  | rootNodeIds (pending : List Article)
  | markFound (found rest : List Article)
  | render (run : Delivery)
  | ensureFolder (run : Delivery) (batch : List Article)
  | stageDocuments (run : Delivery) (batch : List Article)
  | planDeliveries (run : Delivery) (deliveries : List (Article × Text))
  | commit (run : Delivery) (deliveries : List (Article × Text))
  | markDelivered (run : Delivery) (deliveries : List (Article × Text))
  deriving DecidableEq, Repr

/-- The tables and the tree, the nodes of every root there was, which documents were staged for which
provider id, and the sync that is running. -/
structure Sys where
  manager : Manager
  tree : Tree
  roots : List (List Text)
  staged : List (Text × Text)
  phase : Option Phase

def Sys.start (rows : List Article) (accounts : List Text) (tree : Tree) : Sys :=
  ⟨⟨rows, accounts, rows⟩, tree, [tree.nodes], [], none⟩

def Sys.setRoot (s : Sys) (tree : Tree) : Sys := { s with tree := tree, roots := tree.nodes :: s.roots }

inductive Rendering where
  | done (bytes : Nat)
  | skipped
  | stop
  deriving DecidableEq, Repr

inductive FolderOutcome where
  | failed
  | found (id : Text)
  | created (id : Text)
  deriving DecidableEq, Repr

/-- How a root commit ends; one that fails may have moved the root all the same. -/
inductive CommitOutcome where
  | done
  | failed (landed : Bool)
  deriving DecidableEq, Repr

/-- What happens next: a step of the sync with its outcome, the end of the sync (it is not allowed any
more, its task is dropped or panics), a crash, or something done by others. -/
inductive Action where
  | fetch (listed : List Listed)
  | recordFetched (w : Write)
  | rootNodeIds
  | mark (w : Write) (now : Int)
  | render (r : Rendering)
  | ensureFolder (outcome : FolderOutcome)
  | stage (ids : Option (List Text))
  | plan (w : Write)
  | commit (outcome : CommitOutcome)
  | drop
  | crash
  | client (tree : Tree)
  | accounts (ids : List Text)
  | updateArticle (w : Write) (id : Text) (req : UpdateArticleRequest) (now : Int)
  | clearReadStatusPending (w : Write) (id : Text) (sent : Option ReadStatus)
  deriving DecidableEq, Repr

/-- The pairs of article id and document id. -/
def pairs (deliveries : List (Article × Text)) : List (Text × Text) := deliveries.map fun d => (d.1.id, d.2)

/-- The batch of a delivery goes to its commit; the folder is resolved once. -/
def Delivery.commitBatch (run : Delivery) : Phase :=
  let batch := run.batch.documents.map (·.1)
  let run := { run with batch := .empty }
  if run.parent.isSome then .stageDocuments run batch else .ensureFolder run batch

/-- The next article of a delivery is rendered; after the last one the rest of the batch is committed. -/
def Delivery.render (run : Delivery) (r : Rendering) : Option Phase :=
  match run.pending with
  | [] => if run.batch.documents.isEmpty then none else some run.commitBatch
  | a :: pending =>
    let run := { run with pending := pending }
    match r with
    | .done bytes =>
      let run := { run with batch := run.batch.push a bytes }
      some (if run.batch.isFull then run.commitBatch else .render run)
    | .skipped => some (.render run)
    | .stop => some (.render { run with pending := [] })

/-- One step of the sync that is running. -/
def Phase.step (account : ProviderAccount) (s : Sys) : Phase → Action → Option Sys
  | .recordFetched selected, .recordFetched w =>
    let (m, recorded) := s.manager.recordFetched w account.id account.syncSettings.syncReadStatus selected
    let pending := (recorded.getD []).filter (!·.syncedToDevice)
    some { s with
      manager := m
      phase := if pending.isEmpty || account.syncSettings.convertFormat == .html then none
        else some (.rootNodeIds pending) }
  | .rootNodeIds pending, .rootNodeIds =>
    let isListed := fun a : Article => a.documentId.any s.tree.nodes.contains
    let found := pending.filter isListed
    let rest := pending.filter (!isListed ·)
    some { s with
      phase := if !s.tree.understood then none
        else if found.isEmpty then some (.render ⟨rest, .empty, none⟩)
        else some (.markFound found rest) }
  | .markFound found rest, .mark w now =>
    let deliveries := found.filterMap fun a => a.documentId.map fun d => (a.id, d)
    let (m, ok) := s.manager.markDeliveredAll w now deliveries
    some { s with manager := m, phase := if ok then some (.render ⟨rest, .empty, none⟩) else none }
  | .render run, .render r => some { s with phase := run.render r }
  | .ensureFolder run batch, .ensureFolder outcome =>
    if (account.syncSettings.folderId.getD []).isEmpty then
      some { s with phase := some (.stageDocuments { run with parent := some [] } batch) }
    else if !s.tree.understood then some { s with phase := none }
    else match outcome with
    | .failed => some { s with phase := none }
    | .found id => some { s with phase := some (.stageDocuments { run with parent := some id } batch) }
    | .created id =>
      some { s.setRoot { s.tree with nodes := s.tree.nodes ++ [id] } with
        phase := some (.stageDocuments { run with parent := some id } batch) }
  | .stageDocuments _ _, .stage none => some { s with phase := none }
  | .stageDocuments run batch, .stage (some ids) =>
    if !s.tree.understood then some { s with phase := none }
    else if ids.length == batch.length then
      some { s with
        staged := s.staged ++ (batch.map (·.providerId)).zip ids
        phase := some (.planDeliveries run (batch.zip ids)) }
    else none
  | .planDeliveries run deliveries, .plan w =>
    let (m, ok) := s.manager.planDeliveries w (pairs deliveries)
    some { s with manager := m, phase := if ok then some (.commit run deliveries) else none }
  | .commit run deliveries, .commit outcome =>
    let added := s.setRoot { s.tree with nodes := s.tree.nodes ++ deliveries.map (·.2) }
    if !s.tree.understood then some { s with phase := none }
    else match outcome with
    | .done => some { added with phase := some (.markDelivered run deliveries) }
    | .failed landed => some { (if landed then added else s) with phase := none }
  | .markDelivered run deliveries, .mark w now =>
    let (m, ok) := s.manager.markDeliveredAll w now (pairs deliveries)
    some { s with manager := m, phase := if ok then some (.render run) else none }
  | _, _ => none

/-- The step an action makes, if it is enabled: a sync starts when none is running. -/
def step (account : ProviderAccount) (s : Sys) : Action → Option Sys
  | .fetch listed =>
    let articles := distinctArticles (listed.map (·.toArticle account.provider))
    let selected := selectArticlesForSync articles account.syncSettings
    if s.phase.isSome then none
    else some { s with phase := if selected.isEmpty then none else some (.recordFetched selected) }
  | .drop => some { s with phase := none }
  | .crash => some { s with manager := s.manager.reload, phase := none }
  | .client tree => some (s.setRoot tree)
  | .accounts ids => some { s with manager := { s.manager with accounts := ids } }
  | .updateArticle w id req now => some { s with manager := s.manager.updateArticle w id req now }
  | .clearReadStatusPending w id sent => some { s with manager := s.manager.clearReadStatusPending w id sent }
  | a => s.phase.bind fun phase => phase.step account s a

end ReadLater
