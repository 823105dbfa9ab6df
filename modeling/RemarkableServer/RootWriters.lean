import RemarkableServer.DocumentEntries
import RemarkableServer.Lib.Transition
import RemarkableServer.LiveSet

/-!
# Concurrent writers of the root

Any number of requests create documents, commit staged batches, make folders
or set the root a client names, and interleave between any two of their steps:
reading the root row, reading the bytes of the root, storing one blob, and the
compare-and-swap. The system records every blob stored, every root there was
and every commit that returned.
-/
namespace RootWriters

open RustText SyncIndex Store Documents Transition

/-- What a request adds to the root. -/
inductive Goal where
  | commit (new : List IndexEntry)
  | folder (name : Text)

/-- A request between two of its steps. -/
inductive Writer where
  | check (docs : List Document) (batch : Bool)
  | checkBytes (docs : List Document) (batch : Bool) (root : SyncRoot)
  | storing (puts : List Put) (outcome : Except DocError (List IndexEntry)) (batch : Bool)
  | readRow (goal : Goal) (attempts : Nat)
  | readBytes (goal : Goal) (attempts : Nat) (root : SyncRoot)
  | scan (folder : Text) (attempts : Nat) (root : SyncRoot) (entries : List IndexEntry)
  | rewriting (puts : List Put) (goal : Goal) (attempts : Nat) (root : SyncRoot) (new : List IndexEntry) (hash : Text)
  | bareRow (hash : Text)
  | bareSwap (hash : Text) (generation : Nat)

/-- A commit that returned `Ok(generation)`. -/
structure Commit where
  generation : Nat
  new : List IndexEntry
  deriving DecidableEq

/-- The store, the requests, the staged batches, and what has happened: the blobs stored, the
roots there were (newest first) and the commits that returned. -/
structure Sys where
  store : State
  writers : List Writer
  batches : List (List IndexEntry)
  puts : List Put
  roots : List SyncRoot
  commits : List Commit

/-- A process that has just opened the store. -/
def Sys.start (store : State) : Sys :=
  ⟨{ store with cachedRoot := store.root.toSyncRoot }, [], [],
    store.files.entries.map fun f => ⟨f.2.bytes, f.1⟩, [store.root.toSyncRoot], []⟩

/-- The root that was current at a generation. -/
def Sys.rootAt (s : Sys) (generation : Nat) : Option SyncRoot := s.roots.find? fun r => r.generation = generation

/-- What a step takes from outside: whether the root row can be read, a new id and the clock. -/
structure Input where
  readable : Bool
  id : Uuid
  millis : Int
  modified : Int
  secs : Int

inductive Action where
  | create (doc : Document)
  | stage (docs : List Document)
  | commit (batch : Nat) (readable : Bool)
  | ensureFolder (folder : Text)
  | setRoot (hash : Text)
  | upload (put : Put) (modified secs : Int)
  | recache (root : SyncRoot)
  | fail (writer : Nat)
  | proceed (writer : Nat) (input : Input)

/-- One blob is stored and the writer goes on, or it gives up. -/
def Sys.store1 (s : Sys) (rest : List Writer) (put : Put) (modified secs : Int) (next : Writer) : Sys :=
  match s.store.putWithHash put.data put.hash modified secs with
  | .error _ => { s with writers := rest }
  | .ok store => { s with store := store, puts := put :: s.puts, writers := next :: rest }

/-- One step of a writer; `rest` are the others. -/
def proceed (env : Env) (s : Sys) (rest : List Writer) (i : Input) : Writer → Sys
  | .check docs batch =>
    let (store, root) := s.store.getRoot i.readable
    { s with store := store, writers := .checkBytes docs batch root :: rest }
  | .checkBytes docs batch root =>
    match rootEntries s.store root.hash with
    | .error _ => { s with writers := rest }
    | .ok _ =>
      let (puts, outcome) := stageDocuments env docs
      { s with writers := .storing puts outcome batch :: rest }
  | .storing (put :: puts) outcome batch => s.store1 rest put i.modified i.secs (.storing puts outcome batch)
  | .storing [] (.error _) _ => { s with writers := rest }
  | .storing [] (.ok new) batch =>
    if batch then { s with batches := new :: s.batches, writers := rest }
    else { s with writers := .readRow (.commit new) rootRetries :: rest }
  | .readRow _ 0 => { s with writers := rest }
  | .readRow goal (n + 1) =>
    let (store, root) := s.store.getRoot i.readable
    { s with store := store, writers := .readBytes goal n root :: rest }
  | .readBytes goal n root =>
    match rootEntries s.store root.hash with
    | .error _ => { s with writers := rest }
    | .ok entries =>
      match goal with
      | .folder name => { s with writers := .scan name n root entries :: rest }
      | .commit new =>
        match rewriteRoot env entries new with
        | .error _ => { s with writers := rest }
        | .ok put => { s with writers := .rewriting [put] goal n root new put.hash :: rest }
  | .scan name n root entries =>
    match findFolder env s.store entries name with
    | some _ => { s with writers := rest }
    | none =>
      match putFolder env i.id name i.millis with
      | (_, .error _) => { s with writers := rest }
      | (puts, .ok entry) =>
        match rewriteRoot env entries [entry] with
        | .error _ => { s with writers := rest }
        | .ok put => { s with writers := .rewriting (puts ++ [put]) (.folder name) n root [entry] put.hash :: rest }
  | .rewriting (put :: puts) goal n root new hash =>
    s.store1 rest put i.modified i.secs (.rewriting puts goal n root new hash)
  | .rewriting [] goal n root new hash =>
    match s.store.setRootIf hash (some root.generation) with
    | (store, .ok newRoot) =>
      { s with
        store := store
        roots := newRoot :: s.roots
        commits := ⟨newRoot.generation, new⟩ :: s.commits
        writers := rest }
    | (store, .error (.generationMismatch _)) => { s with store := store, writers := .readRow goal n :: rest }
    | (store, .error _) => { s with store := store, writers := rest }
  | .bareRow hash =>
    let (store, root) := s.store.getRoot i.readable
    { s with store := store, writers := .bareSwap hash root.generation :: rest }
  | .bareSwap hash generation =>
    match s.store.setRootIf hash (some generation) with
    | (store, .ok newRoot) => { s with store := store, roots := newRoot :: s.roots, writers := rest }
    | (store, .error _) => { s with store := store, writers := rest }

/-- Writers and staged batches are named by their places. `recache` is the write of a root to the
cache by a reader or committer that was overtaken; `fail` is any other error of a request. -/
def step (env : Env) (s : Sys) : Action → Option Sys
  | .create doc => some { s with writers := .check [doc] false :: s.writers }
  | .stage docs => some { s with writers := .check docs true :: s.writers }
  | .commit n readable =>
    match s.batches[n]? with
    | none => none
    | some [] =>
      let (store, root) := s.store.getRoot readable
      some { s with store := store, batches := s.batches.eraseIdx n, commits := ⟨root.generation, []⟩ :: s.commits }
    | some new =>
      some { s with batches := s.batches.eraseIdx n, writers := .readRow (.commit new) rootRetries :: s.writers }
  | .ensureFolder folder =>
    if folder.isEmpty then none else some { s with writers := .readRow (.folder folder) rootRetries :: s.writers }
  | .setRoot hash => some { s with writers := .bareRow hash :: s.writers }
  | .upload put modified secs =>
    match s.store.putWithHash put.data put.hash modified secs with
    | .error _ => none
    | .ok store => some { s with store := store, puts := put :: s.puts }
  | .recache root => if root ∈ s.roots then some { s with store := { s.store with cachedRoot := root } } else none
  | .fail n => if n < s.writers.length then some { s with writers := s.writers.eraseIdx n } else none
  | .proceed n input => s.writers[n]?.map (proceed env s (s.writers.eraseIdx n) input)

/-! ## The invariant -/

/-- The root at `hash` has been stored with these entries; an empty hash is an empty root. -/
def Reads (s : Sys) (hash : Text) (es : List IndexEntry) : Prop :=
  hash = [] ∧ es = [] ∨ ∃ put ∈ s.puts, put.hash = hash ∧ isValidHash hash = true ∧ parseRoot put.data = .ok es

/-- A commit stands on the root before it. -/
def Installed (s : Sys) (c : Commit) : Prop :=
  ∃ before ∈ s.roots, ∃ root ∈ s.roots, before.generation + 1 = c.generation ∧ root.generation = c.generation ∧
    ∃ old es, Reads s before.hash old ∧ Reads s root.hash es ∧ es.Perm (old ++ c.new)

def Goal.Ok : Goal → Prop
  | .commit new => ∀ e ∈ new, e.WellFormed
  | .folder _ => True

/-- What a writer knows at each of its steps. -/
def Writer.Ok (s : Sys) : Writer → Prop
  | .storing _ outcome _ => ∀ new, outcome = .ok new → ∀ e ∈ new, e.WellFormed
  | .readRow goal _ => goal.Ok
  | .readBytes goal _ root => goal.Ok ∧ root ∈ s.roots
  | .scan _ _ root entries => root ∈ s.roots ∧ Reads s root.hash entries ∧ ∀ e ∈ entries, e.WellFormed
  | .rewriting puts goal _ root new hash =>
    goal.Ok ∧ root ∈ s.roots ∧ isValidHash hash = true ∧ ∃ old, Reads s root.hash old ∧
      ∃ data es, (⟨data, hash⟩ ∈ s.puts ∨ ⟨data, hash⟩ ∈ puts) ∧ parseRoot data = .ok es ∧ es.Perm (old ++ new)
  | _ => True

structure Inv (s : Sys) : Prop where
  head : s.roots.head? = some s.store.root.toSyncRoot
  sorted : (s.roots.map SyncRoot.generation).Pairwise (· > ·)
  cached : s.store.cachedRoot ∈ s.roots
  files : ∀ h f, s.store.files.lookup h = some f → ⟨f.bytes, h⟩ ∈ s.puts
  stored : ∀ put ∈ s.puts, (s.store.files.lookup put.hash).isSome = true
  batches : ∀ batch ∈ s.batches, ∀ e ∈ batch, e.WellFormed
  writers : ∀ w ∈ s.writers, w.Ok s
  commits : ∀ c ∈ s.commits, c.new ≠ [] → Installed s c

/-- Nothing that was stored or was a root is forgotten. -/
structure Grows (s s' : Sys) : Prop where
  puts : ∀ put ∈ s.puts, put ∈ s'.puts
  roots : ∀ root ∈ s.roots, root ∈ s'.roots

theorem Reads.mono {s s' : Sys} (h : Grows s s') {hash : Text} {es : List IndexEntry} (hr : Reads s hash es) :
    Reads s' hash es := by
  rcases hr with hr | ⟨put, hp, hr⟩
  · exact .inl hr
  · exact .inr ⟨put, h.puts put hp, hr⟩

theorem Installed.mono {s s' : Sys} (h : Grows s s') {c : Commit} (hc : Installed s c) : Installed s' c := by
  obtain ⟨before, hb, root, hr, hg, hg', old, es, hold, hes, hperm⟩ := hc
  exact ⟨before, h.roots before hb, root, h.roots root hr, hg, hg', old, es, hold.mono h, hes.mono h, hperm⟩

theorem Writer.Ok.mono {s s' : Sys} (h : Grows s s') {w : Writer} (hw : w.Ok s) : w.Ok s' := by
  cases w with
  | check docs batch | checkBytes docs batch root | bareRow hash | bareSwap hash generation => trivial
  | storing puts outcome batch | readRow goal n => exact hw
  | readBytes goal n root => exact ⟨hw.1, h.roots root hw.2⟩
  | scan folder n root entries => exact ⟨h.roots root hw.1, hw.2.1.mono h, hw.2.2⟩
  | rewriting puts goal n root new hash =>
    obtain ⟨hgoal, hroot, hvalid, old, hold, data, es, hput, hes⟩ := hw
    exact ⟨hgoal, h.roots root hroot, hvalid, old, hold.mono h, data, es, hput.imp_left (h.puts _), hes⟩

theorem Inv.root_mem {s : Sys} (h : Inv s) : s.store.root.toSyncRoot ∈ s.roots := List.mem_of_head? h.head

/-- Two roots of one generation are one root. -/
theorem Inv.root_unique {s : Sys} (h : Inv s) {a b : SyncRoot} (ha : a ∈ s.roots) (hb : b ∈ s.roots)
    (hg : a.generation = b.generation) : a = b :=
  List.inj_on_of_nodup_map (h.sorted.imp fun hgt => Nat.ne_of_gt hgt) ha hb hg

theorem Inv.rootAt_eq {s : Sys} (h : Inv s) {root : SyncRoot} (hr : root ∈ s.roots) {g : Nat}
    (hg : root.generation = g) : s.rootAt g = some root := by
  cases hf : s.rootAt g with
  | none =>
    have := List.find?_eq_none.mp hf root hr
    simp [hg] at this
  | some r =>
    have hrg : r.generation = g := by simpa using List.find?_some hf
    rw [h.root_unique (List.mem_of_find?_eq_some hf) hr (hrg.trans hg.symm)]

/-- The newest root has the highest generation. -/
theorem Inv.generation_le {s : Sys} (h : Inv s) {root : SyncRoot} (hr : root ∈ s.roots) :
    root.generation ≤ s.store.root.generation := by
  obtain ⟨tail, ht⟩ : ∃ tail, s.roots = s.store.root.toSyncRoot :: tail := by
    cases hroots : s.roots with
    | nil =>
      rw [hroots] at hr
      cases hr
    | cons r tail =>
      have := h.head
      rw [hroots] at this
      cases this
      exact ⟨tail, rfl⟩
  have hsorted := h.sorted
  rw [ht, List.map_cons, List.pairwise_cons] at hsorted
  rw [ht] at hr
  rcases List.mem_cons.mp hr with rfl | hr
  · exact Nat.le_refl _
  · exact Nat.le_of_lt (hsorted.1 _ (List.mem_map_of_mem hr))

/-- What a reader finds was stored. -/
theorem Inv.reads {s : Sys} (h : Inv s) {hash : Text} {es : List IndexEntry} (he : rootEntries s.store hash = .ok es) :
    Reads s hash es := by
  obtain ⟨hnil, rfl⟩ | ⟨hvalid, f, hf, hp⟩ := rootEntries_ok he
  · exact .inl ⟨hnil, rfl⟩
  · exact .inr ⟨⟨f.bytes, hash⟩, h.files hash f hf, rfl, hvalid, hp⟩

/-! ## Preservation -/

/-- A step that leaves the store's files and the root alone. -/
theorem inv_of_quiet {s s' : Sys} (h : Inv s) (hfiles : s'.store.files = s.store.files)
    (hroot : s'.store.root = s.store.root) (hcached : s'.store.cachedRoot ∈ s.roots) (hputs : s'.puts = s.puts)
    (hroots : s'.roots = s.roots) (hbatches : ∀ b ∈ s'.batches, b ∈ s.batches ∨ ∀ e ∈ b, e.WellFormed)
    (hwriters : ∀ w ∈ s'.writers, w ∈ s.writers ∨ w.Ok s) (hcommits : ∀ c ∈ s'.commits, c ∈ s.commits ∨ c.new = []) :
    Inv s' := by
  have hgrows : Grows s s' := ⟨fun put hp => hputs ▸ hp, fun root hr => hroots ▸ hr⟩
  refine ⟨?_, ?_, ?_, ?_, ?_, ?_, ?_, ?_⟩
  · rw [hroots, hroot]
    exact h.head
  · rw [hroots]
    exact h.sorted
  · rw [hroots]
    exact hcached
  · rw [hfiles, hputs]
    exact h.files
  · rw [hfiles, hputs]
    exact h.stored
  · intro b hb
    exact (hbatches b hb).elim (h.batches b) id
  · intro w hw
    exact ((hwriters w hw).elim (h.writers w) id).mono hgrows
  · intro c hc hne
    rcases hcommits c hc with hc | hnil
    · exact (h.commits c hc hne).mono hgrows
    · exact absurd hnil hne

/-- Only the writers change. -/
theorem inv_of_writers {s : Sys} {writers : List Writer} (h : Inv s) (hw : ∀ w ∈ writers, w ∈ s.writers ∨ w.Ok s) :
    Inv { s with writers := writers } :=
  inv_of_quiet h rfl rfl h.cached rfl rfl (fun _ => .inl) hw fun _ => .inl

theorem getRoot_spec {s : Sys} (h : Inv s) (readable : Bool) :
    (s.store.getRoot readable).1.files = s.store.files ∧ (s.store.getRoot readable).1.root = s.store.root ∧
      (s.store.getRoot readable).1.cachedRoot ∈ s.roots ∧ (s.store.getRoot readable).2 ∈ s.roots := by
  rw [State.getRoot]
  split
  · exact ⟨rfl, rfl, h.root_mem, h.root_mem⟩
  · exact ⟨rfl, rfl, h.cached, h.cached⟩

theorem inv_of_getRoot {s : Sys} {readable : Bool} {writers : List Writer} (h : Inv s)
    (hw : ∀ w ∈ writers, w ∈ s.writers ∨ w.Ok s) :
    Inv { s with store := (s.store.getRoot readable).1, writers := writers } := by
  obtain ⟨hfiles, hroot, hcached, -⟩ := getRoot_spec h readable
  exact inv_of_quiet h hfiles hroot hcached rfl rfl (fun _ => .inl) hw fun _ => .inl

theorem putWithHash_ok {s s' : State} {data : Bytes} {hash : Text} {modified secs : Int}
    (h : s.putWithHash data hash modified secs = .ok s') :
    isValidHash hash = true ∧ s'.files = s.files.insert hash ⟨data, modified⟩ ∧ s'.root = s.root ∧
      s'.cachedRoot = s.cachedRoot := by
  rw [State.putWithHash] at h
  split at h
  · cases h
  next hv =>
    cases h
    exact ⟨by simpa using hv, rfl, rfl, rfl⟩

/-- A blob is stored, whoever stores it. -/
theorem inv_of_put {s : Sys} {store : State} {put : Put} {modified secs : Int} {writers : List Writer} (h : Inv s)
    (hput : s.store.putWithHash put.data put.hash modified secs = .ok store)
    (hw : ∀ w ∈ writers, w ∈ s.writers ∨ w.Ok { s with puts := put :: s.puts }) :
    Inv { s with store := store, puts := put :: s.puts, writers := writers } := by
  obtain ⟨-, hfiles, hroot, hcached⟩ := putWithHash_ok hput
  have hgrows : Grows s { s with puts := put :: s.puts } := ⟨fun p hp => List.mem_cons_of_mem put hp, fun _ => id⟩
  refine ⟨?_, h.sorted, ?_, ?_, ?_, h.batches, ?_, ?_⟩
  · rw [hroot]
    exact h.head
  · rw [hcached]
    exact h.cached
  · intro k f hf
    rw [hfiles, lookup_insert_ite] at hf
    split at hf
    next hk =>
      cases hf
      rw [hk]
      exact List.mem_cons_self
    next => exact List.mem_cons_of_mem put (h.files k f hf)
  · intro p hp
    rw [hfiles, lookup_insert_ite]
    split
    · rfl
    next hne =>
      rcases List.mem_cons.mp hp with rfl | hp
      · exact absurd rfl hne
      · exact h.stored p hp
  · intro w hm
    rcases hw w hm with hm | hm
    · exact (h.writers w hm).mono hgrows
    · exact hm
  · exact fun c hc hne => (h.commits c hc hne).mono hgrows

/-- A commit of the root, whoever commits. -/
theorem inv_of_commit {s : Sys} {store : State} {hash : Text} {writers : List Writer} {commits : List Commit}
    (h : Inv s) (hc : LiveSet.Committed s.store store hash) (hw : ∀ w ∈ writers, w ∈ s.writers)
    (hcommits : ∀ c ∈ commits, c ∈ s.commits ∨
      (c.new ≠ [] → Installed { s with roots := store.root.toSyncRoot :: s.roots } c)) :
    Inv { s with
      store := store
      roots := store.root.toSyncRoot :: s.roots
      writers := writers
      commits := commits } := by
  have hgrows : Grows s { s with roots := store.root.toSyncRoot :: s.roots } :=
    ⟨fun _ => id, fun r hr => List.mem_cons_of_mem _ hr⟩
  have hgen : store.root.generation = s.store.root.generation + 1 := by rw [hc.root]
  refine ⟨rfl, ?_, ?_, ?_, ?_, h.batches, ?_, ?_⟩
  · rw [List.map_cons, List.pairwise_cons]
    refine ⟨?_, h.sorted⟩
    intro g hg
    obtain ⟨root, hr, rfl⟩ := List.mem_map.mp hg
    have := h.generation_le hr
    omega
  · rw [hc.cachedRoot]
    exact List.mem_cons_self
  · rw [hc.files]
    exact h.files
  · rw [hc.files]
    exact h.stored
  · exact fun w hm => (h.writers w (hw w hm)).mono hgrows
  · intro c hm hne
    rcases hcommits c hm with hm | hm
    · exact (h.commits c hm hne).mono hgrows
    · exact hm hne

theorem inv_store1 {s : Sys} {rest : List Writer} {put : Put} {modified secs : Int} {next : Writer} (h : Inv s)
    (hrest : ∀ w ∈ rest, w ∈ s.writers) (hnext : next.Ok { s with puts := put :: s.puts }) :
    Inv (s.store1 rest put modified secs next) := by
  rw [Sys.store1]
  split
  · exact inv_of_writers h fun w hw => .inl (hrest w hw)
  next store hput =>
    apply inv_of_put h hput
    intro w hw
    rcases List.mem_cons.mp hw with rfl | hw
    · exact .inr hnext
    · exact .inl (hrest w hw)

/-- The rewritten root is among the blobs still to be stored. -/
theorem rewriting_ok {env : Env} {s : Sys} {goal : Goal} {n : Nat} {root : SyncRoot} {entries new : List IndexEntry}
    {puts : List Put} {put : Put} (hgoal : goal.Ok) (hroot : root ∈ s.roots) (hreads : Reads s root.hash entries)
    (hold : ∀ e ∈ entries, e.WellFormed) (hnew : ∀ e ∈ new, e.WellFormed)
    (hput : rewriteRoot env entries new = .ok put) (hmem : put ∈ puts) :
    (Writer.rewriting puts goal n root new put.hash).Ok s := by
  obtain ⟨es, hes, hperm⟩ := parseRoot_rewriteRoot hold hnew hput
  exact ⟨hgoal, hroot, indexHash_valid (rewriteRoot_ok hput).2, entries, hreads, put.data, es, .inr hmem, hes, hperm⟩

/-- The swap of a rewritten root succeeds only on the root it was made from. -/
theorem installed_of_swap {s : Sys} {store : State} {goal : Goal} {n : Nat} {root : SyncRoot} {new : List IndexEntry}
    {hash : Text} (hw : (Writer.rewriting [] goal n root new hash).Ok s)
    (hg : root.generation = s.store.root.generation) (hc : LiveSet.Committed s.store store hash) :
    Installed { s with roots := store.root.toSyncRoot :: s.roots } ⟨store.root.generation, new⟩ := by
  have hgrows : Grows s { s with roots := store.root.toSyncRoot :: s.roots } :=
    ⟨fun _ => id, fun r hr => List.mem_cons_of_mem _ hr⟩
  obtain ⟨-, hroot, hvalid, old, hold, data, es, hput, hes, hperm⟩ := hw
  have hput : ⟨data, hash⟩ ∈ s.puts := hput.resolve_right (by simp)
  refine ⟨root, List.mem_cons_of_mem _ hroot, store.root.toSyncRoot, List.mem_cons_self, ?_, rfl, old, es,
    hold.mono hgrows, .inr ⟨⟨data, hash⟩, hput, ?_, ?_, hes⟩, hperm⟩
  · rw [hg, hc.root]
  · rw [hc.root]
  · rw [hc.root]
    exact hvalid

theorem inv_proceed {env : Env} {s : Sys} {w : Writer} {rest : List Writer} {i : Input} (h : Inv s)
    (hok : w.Ok s) (hrest : ∀ v ∈ rest, v ∈ s.writers) : Inv (proceed env s rest i w) := by
  have hsame : ∀ v ∈ rest, v ∈ s.writers ∨ v.Ok s := fun v hv => .inl (hrest v hv)
  have hnext : ∀ {next : Writer}, next.Ok s → ∀ v ∈ next :: rest, v ∈ s.writers ∨ v.Ok s := by
    intro next hn v hv
    rcases List.mem_cons.mp hv with rfl | hv
    · exact .inr hn
    · exact hsame v hv
  cases w with
  | check docs batch => exact inv_of_getRoot h (hnext trivial)
  | checkBytes docs batch root =>
    rw [proceed]
    split
    · exact inv_of_writers h hsame
    · exact inv_of_writers h (hnext fun new hnew => wellFormed_stageDocuments hnew)
  | storing puts outcome batch =>
    cases puts with
    | cons put puts => exact inv_store1 h hrest hok
    | nil =>
      cases outcome with
      | error e => exact inv_of_writers h hsame
      | ok new =>
        have hnew : ∀ e ∈ new, e.WellFormed := hok new rfl
        rw [proceed]
        split
        · refine inv_of_quiet h rfl rfl h.cached rfl rfl ?_ hsame fun _ => .inl
          intro b hb
          rcases List.mem_cons.mp hb with rfl | hb
          · exact .inr hnew
          · exact .inl hb
        · exact inv_of_writers h (hnext hnew)
  | readRow goal n =>
    cases n with
    | zero => exact inv_of_writers h hsame
    | succ n => exact inv_of_getRoot h (hnext ⟨hok, (getRoot_spec h i.readable).2.2.2⟩)
  | readBytes goal n root =>
    rw [proceed]
    split
    · exact inv_of_writers h hsame
    next entries hentries =>
      have hwf := wellFormed_rootEntries hentries
      have hreads := h.reads hentries
      cases goal with
      | folder name => exact inv_of_writers h (hnext ⟨hok.2, hreads, hwf⟩)
      | commit new =>
        dsimp only
        split
        · exact inv_of_writers h hsame
        next put hput =>
          exact inv_of_writers h (hnext (rewriting_ok hok.1 hok.2 hreads hwf hok.1 hput List.mem_cons_self))
  | scan name n root entries =>
    obtain ⟨hroot, hreads, hwf⟩ := hok
    rw [proceed]
    split
    · exact inv_of_writers h hsame
    · split
      · exact inv_of_writers h hsame
      next puts entry hentry =>
        split
        · exact inv_of_writers h hsame
        next put hput =>
          have hnew : ∀ e ∈ [entry], e.WellFormed := by
            simpa using wellFormed_putFolder hentry
          exact inv_of_writers h (hnext (rewriting_ok trivial hroot hreads hwf hnew hput (by simp)))
  | rewriting puts goal n root new hash =>
    cases puts with
    | cons put puts =>
      refine inv_store1 h hrest ?_
      have hgrows : Grows s { s with puts := put :: s.puts } := ⟨fun p hp => List.mem_cons_of_mem put hp, fun _ => id⟩
      obtain ⟨hgoal, hroot, hvalid, old, hold, data, es, hput, hes⟩ := hok
      refine ⟨hgoal, hroot, hvalid, old, hold.mono hgrows, data, es, ?_, hes⟩
      rcases hput with hput | hput
      · exact .inl (List.mem_cons_of_mem put hput)
      · rcases List.mem_cons.mp hput with rfl | hput
        · exact .inl List.mem_cons_self
        · exact .inr hput
    | nil =>
      rw [proceed]
      obtain ⟨g, hg, hne, heq⟩ | ⟨hg, store, heq, hc⟩ := LiveSet.setRootIf_spec s.store hash (some root.generation)
      · rw [heq]
        exact inv_of_writers h (hnext hok.1)
      · rw [heq]
        refine inv_of_commit h hc hrest ?_
        intro c hm
        rcases List.mem_cons.mp hm with rfl | hm
        · exact .inr fun _ => installed_of_swap hok (hg _ rfl) hc
        · exact .inl hm
  | bareRow hash => exact inv_of_getRoot h (hnext trivial)
  | bareSwap hash generation =>
    rw [proceed]
    obtain ⟨g, hg, hne, heq⟩ | ⟨hg, store, heq, hc⟩ := LiveSet.setRootIf_spec s.store hash (some generation)
    · rw [heq]
      exact inv_of_writers h hsame
    · rw [heq]
      exact inv_of_commit h hc hrest fun c hm => .inl hm

theorem inv_step (env : Env) (s : Sys) (a : Action) (s' : Sys) (h : Inv s) (hstep : step env s a = some s') :
    Inv s' := by
  have hnext : ∀ {next : Writer}, next.Ok s → ∀ v ∈ next :: s.writers, v ∈ s.writers ∨ v.Ok s := by
    intro next hn v hv
    rcases List.mem_cons.mp hv with rfl | hv
    · exact .inr hn
    · exact .inl hv
  cases a with
  | create doc | stage docs | setRoot hash =>
    cases hstep
    exact inv_of_writers h (hnext trivial)
  | commit n readable =>
    have hrest : ∀ b ∈ s.batches.eraseIdx n, b ∈ s.batches ∨ ∀ e ∈ b, e.WellFormed :=
      fun b hb => .inl (List.mem_of_mem_eraseIdx hb)
    simp only [step] at hstep
    split at hstep
    · cases hstep
    next hb =>
      cases hstep
      obtain ⟨hfiles, hroot, hcached, -⟩ := getRoot_spec h readable
      refine inv_of_quiet h hfiles hroot hcached rfl rfl hrest (fun _ => .inl) ?_
      intro c hc
      rcases List.mem_cons.mp hc with rfl | hc
      · exact .inr rfl
      · exact .inl hc
    next new _ hb =>
      cases hstep
      have hnew : ∀ e ∈ new, e.WellFormed := h.batches new (List.mem_of_getElem? hb)
      exact inv_of_quiet h rfl rfl h.cached rfl rfl hrest (hnext hnew) fun _ => .inl
  | ensureFolder folder =>
    simp only [step] at hstep
    split_ifs at hstep
    cases hstep
    exact inv_of_writers h (hnext trivial)
  | upload put modified secs =>
    simp only [step] at hstep
    split at hstep
    · cases hstep
    next store hput =>
      cases hstep
      exact inv_of_put h hput fun w hw => .inl hw
  | recache root =>
    simp only [step] at hstep
    split_ifs at hstep with hr
    cases hstep
    exact inv_of_quiet h rfl rfl hr rfl rfl (fun _ => .inl) (fun _ => .inl) fun _ => .inl
  | fail n =>
    simp only [step] at hstep
    split_ifs at hstep
    cases hstep
    exact inv_of_writers h fun w hw => .inl (List.mem_of_mem_eraseIdx hw)
  | proceed n input =>
    obtain ⟨w, hw, rfl⟩ := Option.map_eq_some_iff.mp hstep
    exact inv_proceed h (h.writers w (List.mem_of_getElem? hw)) fun v hv => List.mem_of_mem_eraseIdx hv

theorem inv_start (store : State) : Inv (.start store) := by
  refine ⟨rfl, List.pairwise_singleton _ _, List.mem_singleton_self _, ?_, ?_, ?_, ?_, ?_⟩
  · intro k f hf
    exact List.mem_map.mpr ⟨⟨k, f⟩, AList.mem_lookup_iff.mp hf, rfl⟩
  · intro put hp
    obtain ⟨f, hf, rfl⟩ := List.mem_map.mp hp
    rw [AList.lookup_isSome]
    exact List.mem_keys_of_mem hf
  · exact List.forall_mem_nil _
  · exact List.forall_mem_nil _
  · exact List.forall_mem_nil _

/-! ## No lost update -/

/-- No two byte strings are stored under the hash of a root. -/
def PutsAgree (s : Sys) : Prop :=
  ∀ root ∈ s.roots, ∀ p ∈ s.puts, ∀ q ∈ s.puts, p.hash = root.hash → q.hash = root.hash → p.data = q.data

instance (s : Sys) : Decidable (PutsAgree s) :=
  inferInstanceAs (Decidable (∀ root ∈ s.roots, ∀ p ∈ s.puts, ∀ q ∈ s.puts,
    p.hash = root.hash → q.hash = root.hash → p.data = q.data))

/-- The generation a writer about to swap the root expects. -/
def Writer.expects : Writer → Option Nat
  | .rewriting [] _ _ root _ _ => some root.generation
  | .bareSwap _ generation => some generation
  | _ => none

/-- Whether a writer sets a root a client names, whatever the current one is. -/
def Writer.bare : Writer → Bool
  | .bareRow _ | .bareSwap _ _ => true
  | _ => false

theorem rootEntries_of_reads {s : Sys} (h : Inv s) (hputs : PutsAgree s) {root : SyncRoot} (hr : root ∈ s.roots)
    {es : List IndexEntry} (hreads : Reads s root.hash es) : rootEntries s.store root.hash = .ok es := by
  rcases hreads with ⟨hnil, rfl⟩ | ⟨put, hp, hhash, hvalid, hes⟩
  · rw [hnil]
    rfl
  · obtain ⟨f, hf⟩ := Option.isSome_iff_exists.mp (h.stored put hp)
    rw [hhash] at hf
    have hdata := hputs root hr put hp ⟨f.bytes, root.hash⟩ (h.files root.hash f hf) hhash rfl
    exact rootEntries_of_file hvalid hf (by rw [← hes, hdata])

theorem store1_root (s : Sys) (rest : List Writer) (put : Put) (modified secs : Int) (next : Writer) :
    (s.store1 rest put modified secs next).store.root = s.store.root := by
  rw [Sys.store1]
  split
  · rfl
  next store hput => exact (putWithHash_ok hput).2.2.1

/-- Only a swap that finds its generation changes the root row. -/
theorem proceed_root {env : Env} {s : Sys} (h : Inv s) (rest : List Writer) (i : Input) (w : Writer) :
    (proceed env s rest i w).store.root = s.store.root ∨ w.expects = some s.store.root.generation := by
  have hget := (getRoot_spec h i.readable).2.1
  cases w with
  | check docs batch | bareRow hash => exact .inl hget
  | checkBytes docs batch root =>
    rw [proceed]
    split <;> exact .inl rfl
  | storing puts outcome batch =>
    cases puts with
    | cons put puts => exact .inl (store1_root _ _ _ _ _ _)
    | nil =>
      cases outcome with
      | error e => exact .inl rfl
      | ok new =>
        rw [proceed]
        split <;> exact .inl rfl
  | readRow goal n =>
    cases n with
    | zero => exact .inl rfl
    | succ n => exact .inl hget
  | readBytes goal n root =>
    rw [proceed]
    split
    · exact .inl rfl
    · split
      · exact .inl rfl
      · split <;> exact .inl rfl
  | scan name n root entries =>
    rw [proceed]
    split
    · exact .inl rfl
    · split
      · exact .inl rfl
      · split <;> exact .inl rfl
  | rewriting puts goal n root new hash =>
    cases puts with
    | cons put puts => exact .inl (store1_root _ _ _ _ _ _)
    | nil =>
      rw [proceed]
      obtain ⟨g, -, -, heq⟩ | ⟨hg, -⟩ := LiveSet.setRootIf_spec s.store hash (some root.generation)
      · rw [heq]
        exact .inl rfl
      · exact .inr (congrArg some (hg _ rfl))
  | bareSwap hash generation =>
    rw [proceed]
    obtain ⟨g, -, -, heq⟩ | ⟨hg, -⟩ := LiveSet.setRootIf_spec s.store hash (some generation)
    · rw [heq]
      exact .inl rfl
    · exact .inr (congrArg some (hg _ rfl))

/-- A writer that rewrites the root swaps only a root it has understood. -/
theorem understood_of_expects {s : Sys} (h : Inv s) (hputs : PutsAgree s) {w : Writer} (hw : w ∈ s.writers)
    (hbare : w.bare = false) (hexp : w.expects = some s.store.root.generation) :
    ∃ es, rootEntries s.store s.store.root.hash = .ok es := by
  have hok := h.writers w hw
  cases w with
  | rewriting puts goal n root new hash =>
    cases puts with
    | cons put puts => cases hexp
    | nil =>
      obtain ⟨-, hroot, -, old, hold, -⟩ := hok
      have heq : root = s.store.root.toSyncRoot := h.root_unique hroot h.root_mem (Option.some.inj hexp)
      rw [heq] at hold
      exact ⟨old, rootEntries_of_reads h hputs h.root_mem hold⟩
  | bareSwap hash generation => cases hbare
  | _ => cases hexp

/-- In every state reached by any interleaving: each commit of new entries that returned
generation `g` installed a root whose entries are those of the root of generation `g - 1` and the
new ones; a swap that does not find the generation it expects changes nothing; and no writer that
rewrites the root replaces one it does not understand. -/
theorem no_lost_update (env : Env) (store : State) (as : List Action) (s : Sys)
    (hrun : run (step env) (.start store) as = some s) (hputs : PutsAgree s) :
    (∀ c ∈ s.commits, c.new ≠ [] → ∃ g before root old es, c.generation = g + 1 ∧ s.rootAt g = some before ∧
      s.rootAt (g + 1) = some root ∧ rootEntries s.store before.hash = .ok old ∧
        rootEntries s.store root.hash = .ok es ∧ es.Perm (old ++ c.new)) ∧
    (∀ n w i s' g, s.writers[n]? = some w → step env s (.proceed n i) = some s' → w.expects = some g →
      g ≠ s.store.root.generation → s'.store.root = s.store.root) ∧
    ∀ n w i s' why, s.writers[n]? = some w → step env s (.proceed n i) = some s' → w.bare = false →
      rootEntries s.store s.store.root.hash = .error (.refused why) → s'.store.root = s.store.root := by
  have h : Inv s := invariant_of_step (inv_step env) (inv_start store) hrun
  refine ⟨?_, ?_, ?_⟩
  · intro c hc hne
    obtain ⟨before, hb, root, hr, hg, hg', old, es, hold, hes, hperm⟩ := h.commits c hc hne
    exact ⟨before.generation, before, root, old, es, hg.symm, h.rootAt_eq hb rfl, h.rootAt_eq hr (hg'.trans hg.symm),
      rootEntries_of_reads h hputs hb hold, rootEntries_of_reads h hputs hr hes, hperm⟩
  · intro n w i s' g hw hs hexp hne
    rw [step, hw] at hs
    cases hs
    refine (proceed_root h _ i w).resolve_right fun hg => hne ?_
    rw [hexp] at hg
    exact Option.some.inj hg
  · intro n w i s' why hw hs hbare hrefused
    rw [step, hw] at hs
    cases hs
    refine (proceed_root h _ i w).resolve_right fun hg => ?_
    obtain ⟨es, hes⟩ := understood_of_expects h hputs (List.mem_of_getElem? hw) hbare hg
    rw [hes] at hrefused
    cases hrefused

/-! ## Concrete runs -/

/-- A directory whose root, of generation 1, is stored as given. -/
def rootedAt (root : Bytes) : State :=
  .new ((∅ : Table BlobFile).insert (Projection.hashOf 'a') ⟨root, 0⟩) (some ⟨Projection.hashOf 'a', 1, 3⟩) []

def zeroInput : Input := ⟨true, ⟨List.replicate 16 0, rfl⟩, 0, 0, 0⟩

def onePdf : Document := ⟨⟨List.replicate 16 1, rfl⟩, ['a'], "pdf".toList, .bytes [0x25], [], 1⟩

/-- A document is created while a client sets the root: the first swap finds the root moved, the
second is made from the root it moved to. -/
def overtaken : List Action :=
  .create onePdf :: List.replicate 7 (.proceed 0 zeroInput) ++
    [.setRoot (Projection.hashOf 'a'), .proceed 1 zeroInput, .proceed 0 zeroInput, .proceed 1 zeroInput] ++
      List.replicate 7 (.proceed 0 zeroInput)

def oneEntry : IndexEntry := ⟨Projection.hashOf 'b', docKind, ['x'], 0, 0⟩

theorem overtaken_commit_keeps_entries : ∃ s c before root old es,
    run (step .writing) (.start (rootedAt (renderIndex [oneEntry]))) overtaken = some s ∧ PutsAgree s ∧
      c ∈ s.commits ∧ c.new ≠ [] ∧ c.generation = 3 ∧ s.rootAt 2 = some before ∧ s.rootAt 3 = some root ∧
        rootEntries s.store before.hash = .ok old ∧ rootEntries s.store root.hash = .ok es ∧ es.Perm (old ++ c.new) := by
  have hrun : ((run (step .writing) (.start (rootedAt (renderIndex [oneEntry]))) overtaken).map fun s =>
      (decide (PutsAgree s), s.commits.map fun c => (c.generation, c.new.length))) = some (true, [(3, 1)]) := by
    decide +kernel
  obtain ⟨s, hs, hfacts⟩ := Option.map_eq_some_iff.mp hrun
  obtain ⟨hputs, hcommits⟩ := Prod.mk.inj hfacts
  obtain ⟨c, hc, hcg⟩ := List.mem_map.mp (show (3, 1) ∈ s.commits.map fun c => (c.generation, c.new.length) by
    rw [hcommits]
    exact List.mem_singleton_self _)
  obtain ⟨hgen, hlen⟩ := Prod.mk.inj hcg
  have hne : c.new ≠ [] := by
    intro hnil
    rw [hnil] at hlen
    cases hlen
  obtain ⟨g, before, root, old, es, hg, hbefore, hroot, hold, hes, hperm⟩ :=
    (no_lost_update .writing _ overtaken s hs (of_decide_eq_true hputs)).1 c hc hne
  obtain rfl : g = 2 := by omega
  exact ⟨s, c, before, root, old, es, hs, of_decide_eq_true hputs, hc, hne, hgen, hbefore, hroot, hold, hes, hperm⟩

/-- A client sets a root over one that the document writers refuse. -/
def setOverRefused : List Action := [.setRoot (Projection.hashOf 'b'), .proceed 0 zeroInput, .proceed 0 zeroInput]

/-- An empty batch is staged and committed. -/
def emptyBatch : List Action := .stage [] :: List.replicate 3 (.proceed 0 zeroInput) ++ [.commit 0 true]

/-- A root that `parse_root` refuses is replaced by the root a client names; and the commit of an
empty batch returns a generation that it did not install. -/
theorem refused_root_is_replaced :
    (∃ s why, rootEntries (rootedAt [0x34]) (rootedAt [0x34]).root.hash = .error (.refused why) ∧
      run (step .writing) (.start (rootedAt [0x34])) setOverRefused = some s ∧ PutsAgree s ∧
        (rootedAt [0x34]).root.generation = 1 ∧ s.store.root.generation = 2 ∧
          s.store.root.hash = Projection.hashOf 'b') ∧
    ∃ s, run (step .writing) (.start (rootedAt (renderIndex []))) emptyBatch = some s ∧ PutsAgree s ∧
      s.commits = [⟨1, []⟩] ∧ s.roots = [⟨Projection.hashOf 'a', 1, 3⟩] := by
  constructor
  · have hrun : ((run (step .writing) (.start (rootedAt [0x34])) setOverRefused).map fun s =>
        (decide (PutsAgree s), s.store.root.generation, s.store.root.hash)) = some (true, 2, Projection.hashOf 'b') := by
      decide +kernel
    obtain ⟨s, hs, hfacts⟩ := Option.map_eq_some_iff.mp hrun
    obtain ⟨hputs, hgen, hhash⟩ : _ ∧ _ ∧ _ := by simpa only [Prod.mk.injEq] using hfacts
    exact ⟨s, .unsupportedSchema (some ['4']), by decide +kernel, hs, of_decide_eq_true hputs, by decide +kernel, hgen, hhash⟩
  · have hrun : ((run (step .writing) (.start (rootedAt (renderIndex []))) emptyBatch).map fun s =>
        (decide (PutsAgree s), s.commits, s.roots)) = some (true, [⟨1, []⟩], [⟨Projection.hashOf 'a', 1, 3⟩]) := by
      decide +kernel
    obtain ⟨s, hs, hfacts⟩ := Option.map_eq_some_iff.mp hrun
    obtain ⟨hputs, hcommits, hroots⟩ : _ ∧ _ ∧ _ := by simpa only [Prod.mk.injEq] using hfacts
    exact ⟨s, hs, of_decide_eq_true hputs, hcommits, hroots⟩

end RootWriters
