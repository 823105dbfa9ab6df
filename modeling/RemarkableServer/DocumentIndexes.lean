import RemarkableServer.DocumentSources
import RemarkableServer.Lib.Transition

/-!
# Documents keep their index

Documents are put, committed to the root and collections are made, one call
after the other. The system records what every blob was hashed from; as long as
no leaf is what an index is hashed from and no two documents have the same
files, every document and every committed root keeps the bytes it was stored
with.
-/
namespace DocumentIndexes

open RustText SyncIndex Store Documents DocumentSources Transition

structure Sys where
  store : State
  docs : List (Document × IndexEntry)
  roots : List Put
  log : List Source

/-- A process that has just opened the store. -/
def Sys.start (store : State) : Sys := ⟨{ store with cachedRoot := store.root.toSyncRoot }, [], [], []⟩

/-- A document whose blobs were stored is named by its place. -/
inductive Action where
  | put (doc : Document) (t : Times)
  | commit (docs : List Nat) (t : Times)
  | ensureFolder (folder : Text) (attempts : List (Uuid × Int)) (t : Times)

/-- The root entries of the documents at these places. -/
def Sys.entriesAt (s : Sys) (docs : List Nat) : List IndexEntry :=
  docs.filterMap fun n => s.docs[n]?.map Prod.snd

/-- What the rewritten root is hashed from. -/
def rootSources (s : State) (new : List IndexEntry) : List Source :=
  match rootEntries s s.root.hash with
  | .error _ => []
  | .ok entries => [.index (sortByName (entries ++ new))]

/-- What a call hashes, in the order it stores the blobs. -/
def sources (env : Env) (s : Sys) : Action → List Source
  | .put d _ => if d.file.hashed then nodeSources env (d.files env) else ((d.files env).take 2).map fun f => .leaf f.2
  | .commit docs _ => rootSources s.store (s.entriesAt docs)
  | .ensureFolder _ [] _ => []
  | .ensureFolder folder ((id, now) :: _) _ =>
    match rootEntries s.store s.store.root.hash with
    | .error _ => []
    | .ok entries =>
      match findFolder env s.store entries folder, putFolder env id folder now with
      | none, (_, .ok entry) => nodeSources env (folderFiles env id folder now) ++ rootSources s.store [entry]
      | _, _ => []

/-- The root of a store with the bytes it is stored with. -/
def committedRoot (s : State) : Put := ⟨(s.files.lookup s.root.hash).elim [] BlobFile.bytes, s.root.hash⟩

/-- The committed roots, newest first, when a call has left the store so. -/
def Sys.rootsAfter (s : Sys) (store : State) : List Put :=
  if store.root = s.store.root then s.roots else committedRoot store :: s.roots

def step (env : Env) (s : Sys) (a : Action) : Option Sys :=
  let log := s.log ++ sources env s a
  match a with
  | .put d t =>
    let (store, result) := storeDocument env s.store t d
    let docs := match result with
      | .ok entry => (d, entry) :: s.docs
      | .error _ => s.docs
    some ⟨store, docs, s.roots, log⟩
  | .commit docs t =>
    if (s.entriesAt docs).isEmpty then none
    else
      let (store, _) := commitToRoot env t (s.entriesAt docs) rootRetries s.store
      some ⟨store, s.docs, s.rootsAfter store, log⟩
  | .ensureFolder folder attempts t =>
    let (store, _) := ensureFolder env t folder attempts s.store
    some ⟨store, s.docs, s.rootsAfter store, log⟩

/-! ## When documents keep their index -/

/-- The extension fits in an index line and no document put before has the same files. -/
def keepsApart (env : Env) (s : Sys) : Action → Bool
  | .put d _ => !d.file.hashed ||
    (!d.ext.contains ':' && !d.ext.contains '\n' && s.docs.all fun p => !clashes env d p.1)
  | _ => true

def good (env : Env) (s : Sys) (a : Action) : Bool :=
  keepsApart env s a && separate (s.log ++ sources env s a)

/-! ## The invariant -/

/-- The index of a document, as a source. -/
def docSource (env : Env) (d : Document) : Source := .index (sortByName (d.entries env))

/-- What is recorded of a document that was put. -/
structure DocLogged (env : Env) (log : List Source) (p : Document × IndexEntry) : Prop where
  fits : ':' ∉ p.1.ext ∧ '\n' ∉ p.1.ext
  entry : p.2.WellFormed
  hash : p.2.hash = ((docSource env p.1).put env).hash
  logged : docSource env p.1 ∈ log
  files : OverFiles env log (sortByName (p.1.entries env)) (leaves env p.1)

/-- What is recorded of a committed root. -/
structure RootLogged (env : Env) (log : List Source) (r : Put) (entries : List IndexEntry) : Prop where
  put : r = (Source.index entries).put env
  entry : ∀ e ∈ entries, e.WellFormed
  logged : .index entries ∈ log
  child : OverIndex env log entries

def rootLength (r : Put) : Nat :=
  match parseRoot r.data with
  | .ok entries => entries.length
  | .error _ => 0

/-- Every document's index and every committed root is stored as it was put; the newest root is the
current one and the longest. -/
structure Kept (env : Env) (s : Sys) : Prop where
  docs : ∀ p ∈ s.docs, Stored s.store ((docSource env p.1).put env)
  roots : ∀ r ∈ s.roots, Stored s.store r
  newest : ∀ r ∈ s.roots.head?, r.hash = s.store.root.hash
  longest : ∀ r ∈ s.roots.head?, ∀ r' ∈ s.roots, rootLength r' ≤ rootLength r

structure Inv (env : Env) (s : Sys) : Prop where
  cached : s.store.cachedRoot = s.store.root.toSyncRoot
  separate : separate s.log = true
  docs : ∀ p ∈ s.docs, DocLogged env s.log p
  roots : ∀ r ∈ s.roots, ∃ entries, RootLogged env s.log r entries
  kept : CollisionFree env s.log → PrintsApart env s.docs → Kept env s

theorem DocLogged.mono {env : Env} {log log' : List Source} (hsub : ∀ x ∈ log, x ∈ log') {p : Document × IndexEntry}
    (h : DocLogged env log p) : DocLogged env log' p :=
  ⟨h.fits, h.entry, h.hash, hsub _ h.logged, h.files.mono hsub⟩

theorem RootLogged.mono {env : Env} {log log' : List Source} (hsub : ∀ x ∈ log, x ∈ log') {r : Put}
    {entries : List IndexEntry} (h : RootLogged env log r entries) : RootLogged env log' r entries :=
  ⟨h.put, h.entry, hsub _ h.logged, h.child.mono hsub⟩

theorem rootLength_eq {env : Env} {log : List Source} {r : Put} {entries : List IndexEntry}
    (h : RootLogged env log r entries) : rootLength r = entries.length := by
  have hp : parseRoot r.data = .ok entries := by
    rw [h.put]
    exact IndexRoundTrip.parseRoot_renderIndex h.entry
  rw [rootLength, hp]

/-! ## No put replaces an index or a root -/

section Apart

variable {env : Env} {log : List Source} (hfree : CollisionFree env log) (hsep : separate log = true)

include hfree hsep

theorem leaf_apart {data : Bytes} {entries : List IndexEntry} (hx : .leaf data ∈ log) (hy : .index entries ∈ log) :
    ((Source.leaf data).put env).hash ≠ ((Source.index entries).put env).hash :=
  fun h => separate_iff.mp hsep data entries hx hy (digested_eq hfree hx hy h)

/-- An index over files and a committed root are stored apart. -/
theorem files_root_apart {xs entries : List IndexEntry} {files : List Bytes} {r : Put} (hx : .index xs ∈ log)
    (hfiles : OverFiles env log xs files) (hr : RootLogged env log r entries) :
    ((Source.index xs).put env).hash ≠ r.hash := by
  rw [hr.put]
  exact fun h => overFiles_ne_overIndex hfree hsep hfiles hr.child (digested_eq hfree hx hr.logged h)

/-- A root and the index of a document are stored apart. -/
theorem root_doc_apart {xs : List IndexEntry} {p : Document × IndexEntry} (hx : .index xs ∈ log)
    (hover : OverIndex env log xs) (hp : DocLogged env log p) :
    ((Source.index xs).put env).hash ≠ ((docSource env p.1).put env).hash :=
  fun h => overFiles_ne_overIndex hfree hsep hp.files hover (digested_eq hfree hx hp.logged h).symm

end Apart

/-- A longer root is stored apart from a committed one. -/
theorem root_root_apart {env : Env} {log : List Source} (hfree : CollisionFree env log) {xs entries : List IndexEntry}
    {r : Put} (hx : .index xs ∈ log) (hvalid : ∀ e ∈ xs, isValidHash e.hash = true)
    (hr : RootLogged env log r entries) (hlen : rootLength r < xs.length) : ((Source.index xs).put env).hash ≠ r.hash := by
  rw [rootLength_eq hr] at hlen
  rw [hr.put]
  intro h
  have := length_eq_of_digested hvalid (fun e he => (hr.entry e he).hash) (digested_eq hfree hx hr.logged h)
  omega

/-- The leaves and the index of a node do not replace an index of other files, nor a root. -/
theorem node_apart {env : Env} {log : List Source} (hfree : CollisionFree env log) (hsep : separate log = true)
    {files : List (Text × Bytes)} (hlog : ∀ x ∈ nodeSources env files, x ∈ log) {x : Source}
    (hx : x ∈ nodeSources env files) {y : List IndexEntry} (hy : .index y ∈ log)
    (hindex : ((Source.index (sortByName (fileEntries env files))).put env).hash ≠ ((Source.index y).put env).hash) :
    (x.put env).hash ≠ ((Source.index y).put env).hash := by
  have hxlog := hlog x hx
  rcases List.mem_append.mp hx with hx | hx
  · obtain ⟨f, -, rfl⟩ := List.mem_map.mp hx
    exact leaf_apart hfree hsep hxlog hy
  · rw [List.mem_singleton.mp hx]
    exact hindex

/-! ## Preservation -/

/-- Blobs that are stored apart from every index and root leave these as they are; the last of them
may be the index of a new document. -/
theorem inv_of_sources {env : Env} {s : Sys} (t : Times) (xs : List Source) (new : List (Document × IndexEntry))
    (h : Inv env s) (hsep : separate (s.log ++ xs) = true) (hnew : ∀ p ∈ new, DocLogged env (s.log ++ xs) p)
    (hlast : ∀ p ∈ new, xs.getLast? = some (docSource env p.1))
    (hdocs : CollisionFree env (s.log ++ xs) → PrintsApart env (new ++ s.docs) → ∀ x ∈ xs, ∀ p ∈ s.docs,
      DocLogged env (s.log ++ xs) p → (x.put env).hash ≠ ((docSource env p.1).put env).hash)
    (hroots : CollisionFree env (s.log ++ xs) → ∀ x ∈ xs, ∀ r entries, RootLogged env (s.log ++ xs) r entries →
      (x.put env).hash ≠ r.hash) :
    ∃ store, putAll s.store t (xs.map (Source.put env)) = (store, .ok ()) ∧ store.root = s.store.root ∧
      Inv env ⟨store, new ++ s.docs, s.roots, s.log ++ xs⟩ := by
  have hsub : ∀ x ∈ s.log, x ∈ s.log ++ xs := fun x hx => List.mem_append_left _ hx
  have hvalid : ∀ p ∈ xs.map (Source.put env), isValidHash p.hash = true := by
    intro p hp
    obtain ⟨x, -, rfl⟩ := List.mem_map.mp hp
    exact put_valid env x
  obtain ⟨store, hs, hroot, hcached, hstay, hstored⟩ := putAll_spec t _ hvalid s.store
  have hkeep : ∀ q, Stored s.store q → (∀ x ∈ xs, (x.put env).hash ≠ q.hash) → Stored store q := by
    intro q hq hne
    refine hstay q hq fun p hp hhash => ?_
    obtain ⟨x, hx, rfl⟩ := List.mem_map.mp hp
    exact absurd hhash (hne x hx)
  refine ⟨store, hs, hroot, ?_, hsep, ?_, ?_, ?_⟩
  · rw [hcached, hroot, h.cached]
  · intro p hp
    rcases List.mem_append.mp hp with hp | hp
    · exact hnew p hp
    · exact (h.docs p hp).mono hsub
  · intro r hr
    obtain ⟨entries, hre⟩ := h.roots r hr
    exact ⟨entries, hre.mono hsub⟩
  · intro hfree hprint
    have hkept := h.kept (hfree.mono hsub) (hprint.mono fun p hp => List.mem_append_right _ hp)
    refine ⟨?_, ?_, ?_, hkept.longest⟩
    · intro p hp
      rcases List.mem_append.mp hp with hp | hp
      · refine hstored _ ?_
        rw [List.getLast?_map, hlast p hp]
        rfl
      · exact hkeep _ (hkept.docs p hp) fun x hx => hdocs hfree hprint x hx p hp ((h.docs p hp).mono hsub)
    · intro r hr
      obtain ⟨entries, hre⟩ := h.roots r hr
      exact hkeep r (hkept.roots r hr) fun x hx => hroots hfree x hx r entries (hre.mono hsub)
    · rw [hroot]
      exact hkept.newest

theorem mem_leaves {env : Env} {d : Document} {l : Bytes} (h : l ∈ leaves env d) :
    .leaf l ∈ nodeSources env (d.files env) := by
  have hmem : l = env.toVecPretty d.metadata ∨ l = env.toVecPretty d.content ∨ l = d.file.data := by
    rw [leaves] at h
    generalize "content".toList = c at h
    generalize "metadata".toList = m at h
    split_ifs at h <;> simp only [List.mem_cons, List.not_mem_nil, or_false] at h <;> tauto
  rw [nodeSources, List.mem_append]
  left
  simpa [Document.files] using hmem

theorem inv_put {env : Env} {s : Sys} {d : Document} {t : Times} (h : Inv env s)
    (hgood : good env s (.put d t) = true) (hhashed : d.file.hashed = true) :
    ∃ store entry, storeDocument env s.store t d = (store, .ok entry) ∧
      Inv env ⟨store, (d, entry) :: s.docs, s.roots, s.log ++ nodeSources env (d.files env)⟩ := by
  simp only [good, keepsApart, sources, hhashed, if_true, Bool.not_true, Bool.false_or, Bool.and_eq_true,
    Bool.not_eq_true', List.all_eq_true] at hgood
  obtain ⟨⟨hfits, hclash⟩, hsep⟩ := hgood
  obtain ⟨entry, hput, hhash, hentry⟩ := putDocument_eq env d hhashed
  have hnew : ∀ x ∈ nodeSources env (d.files env), x ∈ s.log ++ nodeSources env (d.files env) :=
    fun x hx => List.mem_append_right _ hx
  have hindex : (nodeSources env (d.files env)).getLast? = some (docSource env d) := by
    simp [nodeSources, docSource, Document.entries]
  have hdoc : DocLogged env (s.log ++ nodeSources env (d.files env)) (d, entry) :=
    ⟨by simpa using hfits, hentry, hhash, hnew _ (List.mem_of_getLast? hindex), sorted_hashes env d,
      fun l hl => hnew _ (mem_leaves hl)⟩
  have hput' : ∃ store, putAll s.store t ((nodeSources env (d.files env)).map (Source.put env)) = (store, .ok ()) ∧
      store.root = s.store.root ∧
        Inv env ⟨store, [(d, entry)] ++ s.docs, s.roots, s.log ++ nodeSources env (d.files env)⟩ := by
    apply inv_of_sources t (nodeSources env (d.files env)) [(d, entry)] h hsep
    · simpa using hdoc
    · simpa using hindex
    · intro hfree hprint x hx p hp hp'
      refine node_apart hfree hsep hnew hx hp'.logged fun heq => ?_
      have hleaves := files_eq_of_digested hfree hdoc.files hp'.files (digested_eq hfree hdoc.logged hp'.logged heq)
      have hclashes := clashes_of_leaves hprint List.mem_cons_self (List.mem_cons_of_mem _ hp) hleaves
      rw [hclash p hp] at hclashes
      cases hclashes
    · intro hfree x hx r entries hre
      have hne := files_root_apart hfree hsep hdoc.logged hdoc.files hre
      rw [hre.put] at hne ⊢
      exact node_apart hfree hsep hnew hx hre.logged hne
  obtain ⟨store, hs, -, hinv⟩ := hput'
  refine ⟨store, entry, ?_, hinv⟩
  rw [storeDocument, hput]
  simp only [hs]

/-- A document whose staged file has no hash stores two leaves and nothing else. -/
theorem inv_put_unhashed {env : Env} {s : Sys} {d : Document} {t : Times} (h : Inv env s)
    (hgood : good env s (.put d t) = true) (hhashed : d.file.hashed = false) :
    ∃ store e, storeDocument env s.store t d = (store, .error e) ∧
      Inv env ⟨store, s.docs, s.roots, s.log ++ ((d.files env).take 2).map fun f => .leaf f.2⟩ := by
  simp only [good, sources, hhashed, Bool.false_eq_true, if_false, Bool.and_eq_true] at hgood
  obtain ⟨-, hsep⟩ := hgood
  generalize hxs : (((d.files env).take 2).map fun f => Source.leaf f.2) = xs at hsep ⊢
  have hput : putDocument env d = (xs.map (Source.put env), .error .stagedWithoutSha) := by
    rw [putDocument, hhashed, ← hxs]
    simp [Document.files, Source.put]
  have hleaf : ∀ x ∈ xs, ∀ entries, .index entries ∈ s.log ++ xs → CollisionFree env (s.log ++ xs) →
      (x.put env).hash ≠ ((Source.index entries).put env).hash := by
    intro x hx entries he hfree
    have hxlog : x ∈ s.log ++ xs := List.mem_append_right _ hx
    rw [← hxs] at hx
    obtain ⟨f, -, rfl⟩ := List.mem_map.mp hx
    exact leaf_apart hfree hsep hxlog he
  have hput' : ∃ store, putAll s.store t (xs.map (Source.put env)) = (store, .ok ()) ∧ store.root = s.store.root ∧
      Inv env ⟨store, s.docs, s.roots, s.log ++ xs⟩ := by
    apply inv_of_sources t xs [] h hsep (List.forall_mem_nil _) (List.forall_mem_nil _)
    · exact fun hfree _ x hx p _ hp => hleaf x hx _ hp.logged hfree
    · intro hfree x hx r entries hre
      rw [hre.put]
      exact hleaf x hx _ hre.logged hfree
  obtain ⟨store, hs, -, hinv⟩ := hput'
  refine ⟨store, .stagedWithoutSha, ?_, hinv⟩
  rw [storeDocument, hput]
  simp only [hs]

/-- A node of other than three files is stored next to the documents. -/
theorem inv_node {env : Env} {s : Sys} {files : List (Text × Bytes)} (t : Times) (h : Inv env s)
    (hsep : separate (s.log ++ nodeSources env files) = true) (hlen : files.length ≠ 3) :
    ∃ store, putAll s.store t ((nodeSources env files).map (Source.put env)) = (store, .ok ()) ∧
      store.root = s.store.root ∧ Inv env ⟨store, s.docs, s.roots, s.log ++ nodeSources env files⟩ := by
  have hnew : ∀ x ∈ nodeSources env files, x ∈ s.log ++ nodeSources env files := fun x hx => List.mem_append_right _ hx
  have hindex : .index (sortByName (fileEntries env files)) ∈ s.log ++ nodeSources env files :=
    hnew _ (by simp [nodeSources])
  obtain ⟨ls, hls, hlsLen⟩ := overFiles_node hnew
  apply inv_of_sources t (nodeSources env files) [] h hsep (List.forall_mem_nil _) (List.forall_mem_nil _)
  · intro hfree _ x hx p _ hp
    refine node_apart hfree hsep hnew hx hp.logged fun heq => hlen ?_
    have hleaves := files_eq_of_digested hfree hls hp.files (digested_eq hfree hindex hp.logged heq)
    rw [← hlsLen, hleaves, leaves_length]
  · intro hfree x hx r entries hre
    have hne := files_root_apart hfree hsep hindex hls hre
    rw [hre.put] at hne ⊢
    exact node_apart hfree hsep hnew hx hre.logged hne

/-- The current root, once one was committed, is read with the entries it was committed with. -/
theorem rootLength_le {env : Env} {s : Sys} (h : Inv env s) (hkept : Kept env s) {entries : List IndexEntry}
    (he : rootEntries s.store s.store.root.hash = .ok entries) : ∀ r ∈ s.roots, rootLength r ≤ entries.length := by
  intro r hr
  obtain ⟨r₀, hr₀⟩ : ∃ r₀, s.roots.head? = some r₀ := by
    cases hroots : s.roots with
    | nil =>
      rw [hroots] at hr
      cases hr
    | cons r₀ rest => exact ⟨r₀, rfl⟩
  obtain ⟨es, hre⟩ := h.roots r₀ (List.mem_of_head? hr₀)
  obtain ⟨f, hf, hb⟩ := hkept.roots r₀ (List.mem_of_head? hr₀)
  rw [hkept.newest r₀ hr₀] at hf
  have hread : rootEntries s.store s.store.root.hash = .ok es := by
    apply rootEntries_of_file _ hf
    · rw [hb, hre.put]
      exact IndexRoundTrip.parseRoot_renderIndex hre.entry
    · rw [← hkept.newest r₀ hr₀, hre.put]
      exact put_valid env _
  rw [he] at hread
  cases hread
  rw [← rootLength_eq hre]
  exact hkept.longest r₀ hr₀ r hr

/-- The rewritten root is stored apart from every index and longer than every root before. -/
theorem inv_swap {env : Env} {s : Sys} (t : Times) {entries new : List IndexEntry} (h : Inv env s)
    (hold : ∀ e ∈ entries, e.WellFormed) (hnew : ∀ e ∈ new, e.WellFormed)
    (hchild : ∃ e ∈ new, ∃ x, .index x ∈ s.log ∧ e.hash = ((Source.index x).put env).hash)
    (hsep : separate (s.log ++ [.index (sortByName (entries ++ new))]) = true)
    (hlen : CollisionFree env s.log → PrintsApart env s.docs → ∀ r ∈ s.roots, rootLength r ≤ entries.length) :
    ∃ store, swapRoot env s.store t s.store.root.toSyncRoot entries new = (store, some (.ok store.root.generation)) ∧
      Inv env ⟨store, s.docs, s.rootsAfter store, s.log ++ [.index (sortByName (entries ++ new))]⟩ := by
  obtain ⟨store, hs, hgen, hcached, hhash, hstored, hstay⟩ := swapRoot_spec env s.store t hold hnew
  generalize hxs : sortByName (entries ++ new) = xs at hsep hstored hhash hstay ⊢
  have hperm : xs.Perm (entries ++ new) := hxs ▸ perm_sortByName _
  have hentries : ∀ e ∈ xs, e.WellFormed := by
    intro e he
    rcases List.mem_append.mp (hperm.mem_iff.mp he) with he | he
    · exact hold e he
    · exact hnew e he
  have hsub : ∀ x ∈ s.log, x ∈ s.log ++ [.index xs] := fun x hx => List.mem_append_left _ hx
  have hlogged : .index xs ∈ s.log ++ [.index xs] := by simp
  have hover : OverIndex env (s.log ++ [.index xs]) xs := by
    obtain ⟨e, he, x, hx, heq⟩ := hchild
    exact ⟨fun e he => (hentries e he).hash, e, hperm.mem_iff.mpr (List.mem_append_right _ he), x, hsub _ hx, heq⟩
  have hroot : committedRoot store = (Source.index xs).put env := by
    obtain ⟨f, hf, hb⟩ := hstored
    rw [committedRoot, hhash, hf]
    simp [hb]
  have hafter : s.rootsAfter store = (Source.index xs).put env :: s.roots := by
    rw [Sys.rootsAfter, if_neg, hroot]
    intro heq
    rw [heq] at hgen
    omega
  have hlogged' : RootLogged env (s.log ++ [.index xs]) ((Source.index xs).put env) xs := ⟨rfl, hentries, hlogged, hover⟩
  refine ⟨store, hs, hcached, hsep, fun p hp => (h.docs p hp).mono hsub, ?_, ?_⟩
  · rw [hafter]
    intro r hr
    rcases List.mem_cons.mp hr with rfl | hr
    · exact ⟨xs, hlogged'⟩
    · obtain ⟨es, hre⟩ := h.roots r hr
      exact ⟨es, hre.mono hsub⟩
  · intro hfree hprint
    have hkept := h.kept (hfree.mono hsub) hprint
    have hlonger : ∀ r ∈ s.roots, rootLength r < xs.length := by
      intro r hr
      have := hlen (hfree.mono hsub) hprint r hr
      have hcount := hperm.length_eq
      obtain ⟨e, he, -⟩ := hchild
      have := List.length_pos_of_mem he
      rw [List.length_append] at hcount
      omega
    refine ⟨?_, ?_, ?_, ?_⟩
    · intro p hp
      have hp' := (h.docs p hp).mono hsub
      exact hstay _ (hkept.docs p hp) fun heq => absurd heq (root_doc_apart hfree hsep hlogged hover hp')
    · rw [hafter]
      intro r hr
      rcases List.mem_cons.mp hr with rfl | hr
      · exact hstored
      · obtain ⟨es, hre⟩ := h.roots r hr
        refine hstay _ (hkept.roots r hr) fun heq => absurd heq ?_
        exact root_root_apart hfree hlogged hover.valid (hre.mono hsub) (hlonger r hr)
    · rw [hafter]
      intro r hr
      cases hr
      exact hhash.symm
    · rw [hafter]
      intro r hr r' hr'
      cases hr
      rw [rootLength_eq hlogged']
      rcases List.mem_cons.mp hr' with rfl | hr'
      · rw [rootLength_eq hlogged']
      · exact Nat.le_of_lt (hlonger r' hr')

/-- A call that leaves the store as it is. -/
theorem inv_unchanged {env : Env} {s : Sys} (h : Inv env s) :
    Inv env ⟨s.store, s.docs, s.rootsAfter s.store, s.log ++ []⟩ := by
  rw [Sys.rootsAfter, if_pos rfl, List.append_nil]
  exact h

theorem inv_commit {env : Env} {s : Sys} {docs : List Nat} {t : Times} (h : Inv env s)
    (hgood : good env s (.commit docs t) = true) (hne : s.entriesAt docs ≠ []) :
    Inv env ⟨(commitToRoot env t (s.entriesAt docs) rootRetries s.store).1, s.docs,
      s.rootsAfter (commitToRoot env t (s.entriesAt docs) rootRetries s.store).1,
      s.log ++ sources env s (.commit docs t)⟩ := by
  simp only [good, keepsApart, Bool.true_and] at hgood
  have hmem : ∀ e ∈ s.entriesAt docs, ∃ p ∈ s.docs, p.2 = e := by
    intro e he
    obtain ⟨n, -, hn⟩ := List.mem_filterMap.mp he
    obtain ⟨p, hp, rfl⟩ := Option.map_eq_some_iff.mp hn
    exact ⟨p, List.mem_of_getElem? hp, rfl⟩
  have hnew : ∀ e ∈ s.entriesAt docs, e.WellFormed := by
    intro e he
    obtain ⟨p, hp, rfl⟩ := hmem e he
    exact (h.docs p hp).entry
  have hchild : ∃ e ∈ s.entriesAt docs, ∃ x, .index x ∈ s.log ∧ e.hash = ((Source.index x).put env).hash := by
    obtain ⟨e, he⟩ := List.exists_mem_of_ne_nil _ hne
    obtain ⟨p, hp, rfl⟩ := hmem e he
    exact ⟨p.2, he, _, (h.docs p hp).logged, (h.docs p hp).hash⟩
  rw [rootRetries, commitToRoot, getRoot_eq h.cached]
  dsimp only
  cases hentries : rootEntries s.store s.store.root.hash with
  | error e =>
    simp only [sources, rootSources, hentries]
    exact inv_unchanged h
  | ok entries =>
    simp only [sources, rootSources, hentries] at hgood ⊢
    obtain ⟨store, hs, hinv⟩ := inv_swap t h (wellFormed_rootEntries hentries) hnew hchild hgood
      fun hfree hprint => rootLength_le h (h.kept hfree hprint) hentries
    rw [hs]
    exact hinv

theorem inv_ensureFolder {env : Env} {s : Sys} {folder : Text} {attempts : List (Uuid × Int)} {t : Times}
    (h : Inv env s) (hgood : good env s (.ensureFolder folder attempts t) = true) :
    Inv env ⟨(ensureFolder env t folder attempts s.store).1, s.docs,
      s.rootsAfter (ensureFolder env t folder attempts s.store).1,
      s.log ++ sources env s (.ensureFolder folder attempts t)⟩ := by
  simp only [good, keepsApart, Bool.true_and] at hgood
  cases attempts with
  | nil => exact inv_unchanged h
  | cons attempt attempts =>
    obtain ⟨id, now⟩ := attempt
    rw [ensureFolder, getRoot_eq h.cached]
    dsimp only
    cases hentries : rootEntries s.store s.store.root.hash with
    | error e =>
      simp only [sources, hentries]
      exact inv_unchanged h
    | ok entries =>
      cases hfound : findFolder env s.store entries folder with
      | some found =>
        simp only [sources, hentries, hfound]
        exact inv_unchanged h
      | none =>
        obtain ⟨entry, hput, hhash, hentry⟩ := putFolder_eq env id folder now
        simp only [sources, hentries, hfound, hput, rootSources] at hgood ⊢
        rw [← List.append_assoc] at hgood ⊢
        have hsep := separate_mono (fun x hx => List.mem_append_left _ hx) hgood
        obtain ⟨store₁, hs₁, hroot, hinv⟩ := inv_node t h hsep (show 2 ≠ 3 by decide)
        have hnew : ∀ e ∈ [entry], e.WellFormed := by simpa using hentry
        have hlen : CollisionFree env (s.log ++ nodeSources env (folderFiles env id folder now)) → PrintsApart env s.docs →
            ∀ r ∈ s.roots, rootLength r ≤ entries.length := fun hfree hprint =>
          rootLength_le h (h.kept (hfree.mono fun x hx => List.mem_append_left _ hx) hprint) hentries
        obtain ⟨store, hs, hinv'⟩ := inv_swap t hinv (wellFormed_rootEntries hentries) hnew
          ⟨entry, List.mem_singleton_self _, _, List.mem_append_right _ (by simp [nodeSources]), hhash⟩ hgood hlen
        rw [hroot] at hs
        simp only [hs₁, hs]
        rw [Sys.rootsAfter, hroot] at hinv'
        exact hinv'

theorem inv_step (env : Env) (s : Sys) (a : Action) (s' : Sys) (h : Inv env s) (hgood : good env s a = true)
    (hstep : step env s a = some s') : Inv env s' := by
  cases a with
  | put d t =>
    simp only [step] at hstep
    cases hhashed : d.file.hashed with
    | true =>
      obtain ⟨store, entry, hs, hinv⟩ := inv_put h hgood hhashed
      rw [hs] at hstep
      cases hstep
      simpa only [sources, hhashed, if_true] using hinv
    | false =>
      obtain ⟨store, e, hs, hinv⟩ := inv_put_unhashed h hgood hhashed
      rw [hs] at hstep
      cases hstep
      simpa only [sources, hhashed, Bool.false_eq_true, if_false] using hinv
  | commit docs t =>
    simp only [step] at hstep
    split_ifs at hstep with hnil
    cases hstep
    exact inv_commit h hgood (by simpa using hnil)
  | ensureFolder folder attempts t =>
    cases hstep
    exact inv_ensureFolder h hgood

theorem inv_start (env : Env) (store : State) : Inv env (.start store) :=
  ⟨rfl, rfl, List.forall_mem_nil _, List.forall_mem_nil _, fun _ _ =>
    ⟨List.forall_mem_nil _, List.forall_mem_nil _, by simp [Sys.start], by simp [Sys.start]⟩⟩

theorem fileName_fits {d : Document} {suffix : Text} (h : ':' ∉ suffix ∧ '\n' ∉ suffix) :
    d.fileName suffix ≠ [] ∧ ':' ∉ d.fileName suffix ∧ '\n' ∉ d.fileName suffix := by
  have hcolon : ':' ∉ d.id.toText := not_mem_toText (by decide) (by decide)
  have hline : '\n' ∉ d.id.toText := not_mem_toText (by decide) (by decide)
  simp [Document.fileName, hcolon, hline, h.1, h.2]

theorem wellFormed_leafEntry {env : Env} {name : Text} {data : Bytes} (h : name ≠ [] ∧ ':' ∉ name ∧ '\n' ∉ name) :
    (leafEntry env name data).WellFormed :=
  ⟨isValidHash_sha256 env data, show fileKind ≠ [] ∧ ':' ∉ fileKind ∧ '\n' ∉ fileKind by decide, h,
    show 0 < UInt64.size by decide, Nat.mod_lt _ (by decide)⟩

theorem wellFormed_entries {env : Env} {d : Document} (h : ':' ∉ d.ext ∧ '\n' ∉ d.ext) :
    ∀ e ∈ sortByName (d.entries env), e.WellFormed := by
  intro e he
  obtain ⟨f, hf, rfl⟩ := List.mem_map.mp (mem_sortByName.mp he)
  apply wellFormed_leafEntry
  simp only [Document.files, List.mem_cons, List.not_mem_nil, or_false] at hf
  rcases hf with rfl | rfl | rfl
  · exact fileName_fits (by decide)
  · exact fileName_fits (by decide)
  · exact fileName_fits h

/-- In every state of a run of good calls: the entry returned for a document points to a stored
index that is read as the three entries of that document, and a committed root is stored with the
bytes it was committed with. -/
theorem documents_keep_their_index (env : Env) (store : State) (as : List Action) (s : Sys)
    (hgood : AllGood (step env) (fun s a => good env s a = true) (.start store) as)
    (hrun : run (step env) (.start store) as = some s) (hfree : CollisionFree env s.log)
    (hprint : PrintsApart env s.docs) :
    (∀ d e, (d, e) ∈ s.docs → ∃ bytes, s.store.get e.hash = .ok bytes ∧
      parseRoot bytes = .ok (sortByName (d.entries env))) ∧
    ∀ r ∈ s.roots, s.store.get r.hash = .ok r.data := by
  have h : Inv env s := invariant_of_allGood (inv_step env) (inv_start env store) hgood hrun
  have hkept := h.kept hfree hprint
  constructor
  · intro d e hd
    have hdoc := h.docs (d, e) hd
    refine ⟨renderIndex (sortByName (d.entries env)), ?_, ?_⟩
    · rw [hdoc.hash]
      exact get_of_stored (hkept.docs (d, e) hd) (put_valid env _)
    · exact IndexRoundTrip.parseRoot_renderIndex (wellFormed_entries hdoc.fits)
  · intro r hr
    obtain ⟨entries, hre⟩ := h.roots r hr
    apply get_of_stored (hkept.roots r hr)
    rw [hre.put]
    exact put_valid env _

/-! ## Concrete runs -/

def noon : Times := ⟨true, 0, 0⟩

/-- A one-byte PDF at the top level, put at a given millisecond. -/
def pdfAt (id : UInt8) (now : Int) : Document :=
  ⟨⟨List.replicate 16 id, List.length_replicate⟩, ['a'], "pdf".toList, .bytes [0x25], [], now⟩

def emptyStore : State := .new ∅ none []

/-- A document is put and committed. -/
def putOnce : List Action := [.put (pdfAt 1 1) noon, .commit [0] noon]

/-- The same file is put twice in the same millisecond. -/
def putTwice : List Action := [.put (pdfAt 1 1) noon, .put (pdfAt 2 1) noon]

/-- The runs begin with the same step, which is evaluated once. -/
theorem evaluated_runs :
    Json.toVecPretty (pdfAt 1 1).metadata ≠ Json.toVecPretty (pdfAt 1 1).content ∧
    ((run (step .writing) (.start emptyStore) putOnce).map fun s =>
      (decide (CollisionFree .writing s.log), s.docs.map Prod.fst, s.roots.length)) = some (true, [pdfAt 1 1], 1) ∧
    AllGood (step .writing) (fun s a => good .writing s a = true) (.start emptyStore) putOnce ∧
    ((run (step .writing) (.start emptyStore) putTwice).map fun s =>
      (decide (CollisionFree .writing s.log), s.docs.map fun p =>
        (p.1, (s.store.get p.2.hash).toOption.map fun bytes =>
          (decide (parseRoot bytes = .ok (sortByName ((pdfAt 2 1).entries .writing))),
            decide (parseRoot bytes = .ok (sortByName ((pdfAt 1 1).entries .writing))))))) =
      some (true, [(pdfAt 2 1, some (true, false)), (pdfAt 1 1, some (true, false))]) := by
  decide +kernel

theorem committed_document_is_read_back : ∃ s e bytes, run (step .writing) (.start emptyStore) putOnce = some s ∧
    (pdfAt 1 1, e) ∈ s.docs ∧ s.roots ≠ [] ∧ s.store.get e.hash = .ok bytes ∧
      parseRoot bytes = .ok (sortByName ((pdfAt 1 1).entries .writing)) ∧ ∀ r ∈ s.roots, s.store.get r.hash = .ok r.data := by
  obtain ⟨happart, hfacts, hgood, -⟩ := evaluated_runs
  obtain ⟨s, hs, hfacts⟩ := Option.map_eq_some_iff.mp hfacts
  obtain ⟨hfree, hdocs, hroots⟩ : _ ∧ _ ∧ _ := by simpa only [Prod.mk.injEq] using hfacts
  have honly : ∀ p ∈ s.docs, p.1 = pdfAt 1 1 := by
    intro p hp
    have hmem : p.1 ∈ s.docs.map Prod.fst := List.mem_map_of_mem hp
    rw [hdocs] at hmem
    exact List.mem_singleton.mp hmem
  have hprint : PrintsApart .writing s.docs := by
    intro p hp q hq a ha b hb heq
    rw [honly p hp] at ha
    rw [honly q hq] at hb
    simp only [Document.jsons, List.mem_cons, List.not_mem_nil, or_false] at ha hb
    rcases ha with rfl | rfl <;> rcases hb with rfl | rfl
    · rfl
    · exact absurd heq happart
    · exact absurd heq.symm happart
    · rfl
  obtain ⟨⟨d, e⟩, hmem, hd⟩ := List.mem_map.mp (show pdfAt 1 1 ∈ s.docs.map Prod.fst by
    rw [hdocs]
    exact List.mem_singleton_self _)
  obtain rfl : d = pdfAt 1 1 := hd
  obtain ⟨hindex, hroot⟩ := documents_keep_their_index .writing emptyStore putOnce s hgood hs (of_decide_eq_true hfree) hprint
  obtain ⟨bytes, hget, hparse⟩ := hindex _ e hmem
  refine ⟨s, e, bytes, hs, hmem, ?_, hget, hparse, hroot⟩
  rintro hnil
  rw [hnil] at hroots
  cases hroots

/-- The index of the first document is then that of the second. -/
theorem equal_documents_share_an_index : ∃ s e bytes, run (step .writing) (.start emptyStore) putTwice = some s ∧
    CollisionFree .writing s.log ∧ (pdfAt 1 1, e) ∈ s.docs ∧ s.store.get e.hash = .ok bytes ∧
      parseRoot bytes = .ok (sortByName ((pdfAt 2 1).entries .writing)) ∧
        parseRoot bytes ≠ .ok (sortByName ((pdfAt 1 1).entries .writing)) := by
  obtain ⟨-, -, -, hfacts⟩ := evaluated_runs
  obtain ⟨s, hs, hfacts⟩ := Option.map_eq_some_iff.mp hfacts
  obtain ⟨hfree, hdocs⟩ := Prod.mk.inj hfacts
  obtain ⟨⟨d, e⟩, hmem, hd⟩ := List.mem_map.mp (show (pdfAt 1 1, some (true, false)) ∈ _ by
    rw [hdocs]
    exact List.mem_cons_of_mem _ (List.mem_singleton_self _))
  obtain ⟨hd, hread⟩ := Prod.mk.inj hd
  obtain rfl : d = pdfAt 1 1 := hd
  cases hget : s.store.get e.hash with
  | error err =>
    rw [hget] at hread
    cases hread
  | ok bytes =>
    rw [hget] at hread
    obtain ⟨hsecond, hfirst⟩ := Prod.mk.inj (Option.some.inj hread)
    exact ⟨s, e, bytes, hs, of_decide_eq_true hfree, hmem, hget, of_decide_eq_true hsecond, of_decide_eq_false hfirst⟩

end DocumentIndexes
