import RemarkableServer.ReadLater

/-!
# One sync of a read-later account, with what it retries

`Run::sync` from the refresh of the credentials to `last_sync`: the status changes that
are sent first, the fetch, the delivery in batches, and the flags and counters that decide
whether the next sync asks for the same window again. The provider, the converter and the
sync tree answer what the actions say; edits of the articles come in between any two steps.
-/
namespace ReadLaterRun

open RustText ReadLater

/-- Something of the account that can fail on its own, sync after sync. -/
inductive Item where
  | article (providerId : Text)
  | status (articleId : Text)
  deriving DecidableEq, Repr

def maxItemFailures : Nat := 3

def maxUnreachable : Nat := 2

/-- The failed syncs in a row of each item that failed last time. -/
abbrev Failures := List (Item × Nat)

def failuresOf (failures : Failures) (item : Item) : Nat := (failures.lookup item).getD 0

def itemFailed (failures : Failures) (item : Item) : Failures :=
  (item, min (failuresOf failures item + 1) (UInt32.size - 1)) :: failures.filter (·.1 != item)

def itemDone (failures : Failures) (item : Item) : Failures := failures.filter (·.1 != item)

theorem failuresOf_cons (item item' : Item) (n : Nat) (failures : Failures) :
    failuresOf ((item, n) :: failures) item' = if item' = item then n else failuresOf failures item' := by
  by_cases hitem : item' = item
  · simp [failuresOf, hitem]
  · have hbeq : (item' == item) = false := by simpa using hitem
    simp [failuresOf, List.lookup_cons, hbeq, hitem]

theorem failuresOf_itemDone (failures : Failures) (item item' : Item) :
    failuresOf (itemDone failures item) item' = if item' = item then 0 else failuresOf failures item' := by
  induction failures with
  | nil => simp [itemDone, failuresOf]
  | cons f failures ih =>
    obtain ⟨i, n⟩ := f
    rw [failuresOf_cons]
    by_cases hi : i = item
    · subst hi
      have hdrop : itemDone ((i, n) :: failures) i = itemDone failures i := by simp [itemDone]
      rw [hdrop, ih]
      split <;> rfl
    · have hkeep : itemDone ((i, n) :: failures) item = (i, n) :: itemDone failures item := by simp [itemDone, hi]
      rw [hkeep, failuresOf_cons, ih]
      by_cases hitem : item' = i
      · rw [if_pos hitem, if_neg (hitem ▸ hi), if_pos hitem]
      · rw [if_neg hitem, if_neg hitem]

/-- Articles that are done take nothing from the counts of other items. -/
theorem failuresOf_itemsDone (failures : Failures) {providerIds : List Text} {item : Item}
    (h : ∀ pid ∈ providerIds, item ≠ .article pid) :
    failuresOf (providerIds.foldl (fun failures pid => itemDone failures (.article pid)) failures) item =
      failuresOf failures item := by
  induction providerIds generalizing failures with
  | nil => rfl
  | cons pid providerIds ih =>
    obtain ⟨hpid, hrest⟩ := List.forall_mem_cons.mp h
    rw [List.foldl_cons, ih _ hrest, failuresOf_itemDone, if_neg hpid]

theorem failuresOf_itemFailed (failures : Failures) (item item' : Item) :
    failuresOf (itemFailed failures item) item' =
      if item' = item then min (failuresOf failures item + 1) (UInt32.size - 1) else failuresOf failures item' := by
  have hdone := failuresOf_itemDone failures item item'
  rw [itemFailed, failuresOf_cons]
  by_cases hitem : item' = item
  · rw [if_pos hitem, if_pos hitem]
  · rw [if_neg hitem] at hdone
    rw [if_neg hitem, if_neg hitem]
    exact hdone

/-- What the account and its provider told each other: a status that was sent, one that the provider
rejected in a sync, one that was fetched; and an article whose content or conversion was rejected. -/
inductive Exchange where
  | sent (key : ReadLaterProvider × Text) (status : ReadStatus)
  | rejectedStatus (sync : Nat) (articleId : Text) (status : ReadStatus)
  | fetched (key : ReadLaterProvider × Text) (status : ReadStatus)
  | rejectedArticle (sync : Nat) (providerId : Text)
  deriving DecidableEq, Repr

/-- Where a sync is; what is named is done next. -/
inductive Phase where
  | refreshAuth
  | sendReadStatus (changes : List Article)
  | recordStatus (article : Article) (sent : Option ReadStatus) (changes : List Article)
  | recordFetched (selected : List Article)
  | rootNodeIds (pending : List Article)
  | markFound (found rest : List Article)
  | deliver (d : Delivery)
  | render (article : Article) (d : Delivery)
  | convert (article : Article) (d : Delivery)
  | ensureFolder (d : Delivery) (batch : List Article)
  | stageDocuments (d : Delivery) (batch : List Article)
  | planDeliveries (d : Delivery) (deliveries : List (Article × Text))
  | commit (d : Delivery) (deliveries : List (Article × Text))
  | markDelivered (d : Delivery) (deliveries : List (Article × Text))
  | setLastSync
  deriving DecidableEq, Repr

/-- A sync in progress, with what its provider listed. -/
structure Run where
  retry : Bool
  unreachable : Nat
  windowStart : Int
  listed : List Listed
  phase : Phase
  deriving DecidableEq, Repr

/-- The articles it chose from what was listed. -/
def Run.selected (account : ProviderAccount) (r : Run) : List Article :=
  selectArticlesForSync (distinctArticles (r.listed.map (·.toArticle account.provider))) account.syncSettings

def Run.start : Run := ⟨false, 0, 0, [], .refreshAuth⟩

/-- The tables, the account's `last_sync`, the counters, how many syncs there were, the exchanges (newest
first), and the sync that is running. -/
structure Sys where
  manager : Manager
  lastSync : Option Int
  failures : Failures
  syncs : Nat
  log : List Exchange
  run : Option Run

/-- The status of a row that is not to be sent is what the provider has. -/
def knownAtStart (accountId : Text) (rows : List Article) : List Exchange :=
  (rows.filter fun r => r.accountId == some accountId && !r.readStatusPending).map fun r => .fetched r.key r.status

def Sys.start (account : ProviderAccount) (rows : List Article) (accounts : List Text) (lastSync : Option Int)
    (failures : Failures) : Sys :=
  ⟨⟨rows, accounts, rows⟩, lastSync, failures, 0, knownAtStart account.id rows, none⟩

/-- What a request to the provider comes to. -/
inductive Answer where
  | ok
  | network
  | rejected
  deriving DecidableEq, Repr

inductive Conversion where
  | done (bytes : Nat)
  | unavailable
  | rejected
  | panicked
  deriving DecidableEq, Repr

/-- A step of the sync with its outcome, the end of its task, or something done by others. -/
inductive Action where
  | start
  | refreshAuth (ok : Bool)
  | updateReadStatus (answer : Answer)
  | clearReadStatusPending (w : Write)
  | fetchArticles (now : Int) (listed : Option (List Listed))
  | recordFetched (w : Write)
  | rootNodeIds (listed : Option (List Text))
  | mark (w : Write) (now : Int)
  | stillAllowed (allowed : Bool)
  | fetchContent (answer : Answer)
  | convert (outcome : Conversion)
  | ensureFolder (id : Option Text)
  | stageDocuments (ids : Option (List Text))
  | planDeliveries (w : Write)
  | commit (ok : Bool)
  | setLastSync (stored : Bool)
  | drop
  | accounts (ids : List Text)
  | updateArticle (w : Write) (id : Text) (req : UpdateArticleRequest) (now : Int)
  deriving DecidableEq, Repr

def pendingReadStatus (m : Manager) (accountId : Text) : List Article :=
  m.articles.filter fun a => a.readStatusPending && a.accountId == some accountId

namespace Sys

def go (s : Sys) (r : Run) (phase : Phase) : Sys := { s with run := some { r with phase := phase } }

/-- The sync ends with its window to be retried. -/
def stop (s : Sys) : Sys := { s with run := none }

/-- The sync is through; the window advances unless something is to be retried. -/
def finish (s : Sys) (r : Run) : Sys := if r.retry then s.stop else s.go r .setLastSync

/-- On with the next article, the rest of the batch, or the end. -/
def deliver (s : Sys) (r : Run) (d : Delivery) : Sys :=
  if d.pending.isEmpty && d.batch.documents.isEmpty then s.finish r else s.go r (.deliver d)

def itemsDone (s : Sys) (providerIds : List Text) : Sys :=
  { s with failures := providerIds.foldl (fun failures pid => itemDone failures (.article pid)) s.failures }

/-- `item_rejected` for an article, which is then skipped. -/
def articleRejected (s : Sys) (r : Run) (article : Article) (d : Delivery) : Sys :=
  let failures := itemFailed s.failures (.article article.providerId)
  let given := decide (maxItemFailures ≤ failuresOf failures (.article article.providerId))
  let s := { s with failures := failures, log := .rejectedArticle s.syncs article.providerId :: s.log }
  s.deliver { r with retry := r.retry || !given } d

end Sys

/-- Sending the first of the changes. -/
def sendFirst (s : Sys) (r : Run) (c : Article) (changes : List Article) : Answer → Sys
  | .ok =>
    let s := { s with failures := itemDone s.failures (.status c.id), log := .sent c.key c.status :: s.log }
    s.go { r with unreachable := 0 } (.recordStatus c (some c.status) changes)
  | .network =>
    if r.unreachable + 1 < maxUnreachable then s.go { r with unreachable := r.unreachable + 1 } (.sendReadStatus changes)
    else s.stop
  | .rejected =>
    let failures := itemFailed s.failures (.status c.id)
    let s := { s with log := .rejectedStatus s.syncs c.id c.status :: s.log }
    let r := { r with unreachable := 0 }
    if failuresOf failures (.status c.id) < maxItemFailures then
      { s with failures := failures }.go r (.sendReadStatus changes)
    else { s with failures := itemDone failures (.status c.id) }.go r (.recordStatus c none changes)

/-- What was listed is filtered; without any article the sync is through. -/
def selectFetched (account : ProviderAccount) (s : Sys) (r : Run) (now : Int) (listed : List Listed) : Sys :=
  let r := { r with windowStart := now, listed := listed }
  let selected := r.selected account
  if selected.isEmpty then s.finish r else s.go r (.recordFetched selected)

/-- The articles are recorded, and those that are not on the device go on. -/
def afterRecord (account : ProviderAccount) (s : Sys) (r : Run) (selected : List Article) (w : Write) : Sys :=
  let (m, recorded) := s.manager.recordFetched w account.id account.syncSettings.syncReadStatus selected
  match recorded with
  | none => { s with manager := m }.stop
  | some recorded =>
    let fetched := (distinctArticles selected).map fun a => Exchange.fetched a.key a.status
    let s := { s with manager := m, log := fetched ++ s.log }
    let pending := recorded.filter (!·.syncedToDevice)
    if pending.isEmpty || account.syncSettings.convertFormat == .html then s.finish r else s.go r (.rootNodeIds pending)

def afterListing (s : Sys) (r : Run) (pending : List Article) (listed : List Text) : Sys :=
  let isListed := fun a : Article => a.documentId.any listed.contains
  let found := pending.filter isListed
  let rest := pending.filter (!isListed ·)
  if found.isEmpty then s.deliver r ⟨rest, .empty, none⟩ else s.go r (.markFound found rest)

/-- The batch goes to its commit; the folder is resolved once. -/
def commitBatch (s : Sys) (r : Run) (d : Delivery) : Sys :=
  let batch := d.batch.documents.map (·.1)
  let d := { d with batch := .empty }
  if d.parent.isSome then s.go r (.stageDocuments d batch) else s.go r (.ensureFolder d batch)

/-- The account is checked before each article and before the last commit. -/
def afterCheck (s : Sys) (r : Run) (d : Delivery) (allowed : Bool) : Sys :=
  if !allowed then s.stop
  else match d.pending with
  | a :: pending => s.go r (.render a { d with pending := pending })
  | [] => commitBatch s r d

/-- The sync stops rendering; what is in the batch is still committed. -/
def stopRendering (s : Sys) (r : Run) (d : Delivery) : Sys := s.deliver { r with retry := true } { d with pending := [] }

def afterContent (s : Sys) (r : Run) (article : Article) (d : Delivery) : Answer → Sys
  | .ok => s.go { r with unreachable := 0 } (.convert article d)
  | .network =>
    let r := { r with retry := true, unreachable := r.unreachable + 1 }
    if r.unreachable < maxUnreachable then s.deliver r d else stopRendering s r d
  | .rejected => s.articleRejected { r with unreachable := 0 } article d

def afterConvert (s : Sys) (r : Run) (article : Article) (d : Delivery) : Conversion → Sys
  | .done bytes =>
    let d := { d with batch := d.batch.push article bytes }
    if d.batch.isFull then commitBatch s r d else s.deliver r d
  | .unavailable | .panicked => stopRendering s r d
  | .rejected => s.articleRejected r article d

def afterMarkFound (s : Sys) (r : Run) (found rest : List Article) (w : Write) (now : Int) : Sys :=
  let deliveries := found.filterMap fun a => a.documentId.map fun d => (a.id, d)
  let (m, ok) := s.manager.markDeliveredAll w now deliveries
  let s := { s with manager := m }
  if ok then (s.itemsDone (found.map (·.providerId))).deliver r ⟨rest, .empty, none⟩ else s.stop

def afterPlan (s : Sys) (r : Run) (d : Delivery) (deliveries : List (Article × Text)) (w : Write) : Sys :=
  let (m, ok) := s.manager.planDeliveries w (pairs deliveries)
  let s := { s with manager := m }
  if ok then s.go r (.commit d deliveries) else s.stop

/-- The documents are in the tree, so their articles do not fail any more, whether this can be recorded or not. -/
def afterCommit (s : Sys) (r : Run) (d : Delivery) (deliveries : List (Article × Text)) (w : Write) (now : Int) : Sys :=
  let (m, ok) := s.manager.markDeliveredAll w now (pairs deliveries)
  let s := Sys.itemsDone { s with manager := m } (deliveries.map fun d => d.1.providerId)
  if ok then s.deliver r d else s.stop

/-- One step of the sync that is running. -/
def Phase.step (account : ProviderAccount) (s : Sys) (r : Run) : Phase → Action → Option Sys
  | .refreshAuth, .refreshAuth ok =>
    let changes := if account.syncSettings.syncReadStatus then pendingReadStatus s.manager account.id else []
    some (if ok then s.go r (.sendReadStatus changes) else s.stop)
  | .sendReadStatus (c :: changes), .updateReadStatus answer => some (sendFirst s r c changes answer)
  | .recordStatus c sent changes, .clearReadStatusPending w =>
    some ({ s with manager := s.manager.clearReadStatusPending w c.id sent }.go r (.sendReadStatus changes))
  | .sendReadStatus [], .fetchArticles _ none => some s.stop
  | .sendReadStatus [], .fetchArticles now (some listed) => some (selectFetched account s r now listed)
  | .recordFetched selected, .recordFetched w => some (afterRecord account s r selected w)
  | .rootNodeIds _, .rootNodeIds none => some s.stop
  | .rootNodeIds pending, .rootNodeIds (some listed) => some (afterListing s r pending listed)
  | .markFound found rest, .mark w now => some (afterMarkFound s r found rest w now)
  | .deliver d, .stillAllowed allowed => some (afterCheck s r d allowed)
  | .render article d, .fetchContent answer => some (afterContent s r article d answer)
  | .convert article d, .convert outcome => some (afterConvert s r article d outcome)
  | .ensureFolder _ _, .ensureFolder none => some s.stop
  | .ensureFolder d batch, .ensureFolder (some id) => some (s.go r (.stageDocuments { d with parent := some id } batch))
  | .stageDocuments _ _, .stageDocuments none => some s.stop
  | .stageDocuments d batch, .stageDocuments (some ids) =>
    if ids.length == batch.length then some (s.go r (.planDeliveries d (batch.zip ids))) else none
  | .planDeliveries d deliveries, .planDeliveries w => some (afterPlan s r d deliveries w)
  | .commit d deliveries, .commit ok => some (if ok then s.go r (.markDelivered d deliveries) else s.stop)
  | .markDelivered d deliveries, .mark w now => some (afterCommit s r d deliveries w now)
  | .setLastSync, .setLastSync stored =>
    some { s.stop with lastSync := if stored then some r.windowStart else s.lastSync }
  | _, _ => none

/-- The step an action makes, if it is enabled: one sync of the account runs at a time. -/
def step (account : ProviderAccount) (s : Sys) : Action → Option Sys
  | .start => if s.run.isSome then none else some { s with syncs := s.syncs + 1, run := some .start }
  | .drop => some s.stop
  | .accounts ids => some { s with manager := { s.manager with accounts := ids } }
  | .updateArticle w id req now => some { s with manager := s.manager.updateArticle w id req now }
  | a => s.run.bind fun r => r.phase.step account s r a

end ReadLaterRun
