import RemarkableServer.DocumentEntries
import RemarkableServer.LiveSet

/-!
# What the blobs of documents are hashed from

A blob is stored under the hash of a byte string: of its own bytes for a leaf,
of its children's hashes for an index, so that two indexes with other names but
the same children share a hash. Where SHA-256 tells the hashed strings apart,
blobs share a hash only if a leaf is what an index is hashed from, if two
documents have the same files in the same order, or if two indexes have equally
many children of the same kind.
-/
namespace DocumentSources

open RustText SyncIndex Store Documents

/-- A blob, by what its hash is made from. -/
inductive Source where
  | leaf (data : Bytes)
  | index (entries : List IndexEntry)
  deriving DecidableEq

/-- The byte string that is hashed. -/
def Source.digested : Source → Bytes
  | .leaf data => data
  | .index entries =>
    match childHashes entries with
    | .ok bytes => bytes
    | .error _ => []

def Source.put (env : Env) : Source → Put
  | .leaf data => leafPut env data
  | .index entries => ⟨renderIndex entries, hexEncode (env.sha256 (Source.index entries).digested)⟩

/-- The files of a node, then its index. -/
def nodeSources (env : Env) (files : List (Text × Bytes)) : List Source :=
  files.map (fun f => .leaf f.2) ++ [.index (sortByName (fileEntries env files))]

/-- No leaf is what an index is hashed from. -/
def separate (log : List Source) : Bool :=
  log.all fun a => log.all fun b => match a, b with
    | .leaf data, .index entries => data ≠ (Source.index entries).digested
    | _, _ => true

/-- The files of two documents are, in the order of their names, the same: either every part of
the documents is, or each has as its file the `content` of the other and one extension comes
before `content`, the other between `content` and `metadata`. -/
def clashes (env : Env) (d d' : Document) : Bool :=
  d.name = d'.name && d.parent = d'.parent && d.now = d'.now &&
    (d.ext = d'.ext && d.file.data = d'.file.data ||
      d.file.data = env.toVecPretty d'.content && d'.file.data = env.toVecPretty d.content &&
        decide (d.ext < "content".toList) != decide (d'.ext < "content".toList) &&
          d.ext < "metadata".toList && d'.ext < "metadata".toList)

/-- SHA-256 tells apart the byte strings that were hashed. -/
def CollisionFree (env : Env) (log : List Source) : Prop :=
  ∀ x ∈ log, ∀ y ∈ log, env.sha256 x.digested = env.sha256 y.digested → x.digested = y.digested

instance (env : Env) (log : List Source) : Decidable (CollisionFree env log) :=
  inferInstanceAs (Decidable (∀ x ∈ log, ∀ y ∈ log, env.sha256 x.digested = env.sha256 y.digested → x.digested = y.digested))

def Document.jsons (d : Document) : List Json := [d.metadata, d.content]

/-- The JSON printer tells apart the values of the documents that were put. -/
def PrintsApart (env : Env) (docs : List (Document × IndexEntry)) : Prop :=
  ∀ p ∈ docs, ∀ q ∈ docs, ∀ a ∈ Document.jsons p.1, ∀ b ∈ Document.jsons q.1,
    env.toVecPretty a = env.toVecPretty b → a = b

/-! ## The order of a document's files -/

/-- The files of a document in the order of their names. -/
def leaves (env : Env) (d : Document) : List Bytes :=
  let metadata := env.toVecPretty d.metadata
  let content := env.toVecPretty d.content
  if d.ext < "content".toList then [d.file.data, content, metadata]
  else if d.ext < "metadata".toList then [content, d.file.data, metadata]
  else [content, metadata, d.file.data]

theorem append_lt_append {p a b : Text} : p ++ a < p ++ b ↔ a < b := by
  induction p with
  | nil => rfl
  | cons c p ih => simp [ih]

theorem nameLe_files {env : Env} {d : Document} {a b : Text} {x y : Bytes} :
    State.nameLe (leafEntry env (d.fileName a) x) (leafEntry env (d.fileName b) y) ↔ ¬ b < a := by
  have h : d.fileName b < d.fileName a ↔ b < a := by
    rw [Document.fileName, Document.fileName, append_lt_append, List.cons_lt_cons_iff]
    simp
  rw [← h, not_lt]
  rfl

theorem leafEntry_hash (env : Env) (name : Text) (data : Bytes) :
    (leafEntry env name data).hash = hexEncode (env.sha256 data) := rfl

/-- The index lists the files in this order. -/
theorem sorted_hashes (env : Env) (d : Document) :
    (sortByName (d.entries env)).map IndexEntry.hash = (leaves env d).map fun l => hexEncode (env.sha256 l) := by
  have hmc : "content".toList < "metadata".toList := by decide
  rw [sortByName, Document.entries, fileEntries, Document.files, leaves]
  generalize "content".toList = c at hmc ⊢
  generalize "metadata".toList = m at hmc ⊢
  simp only [List.map_cons, List.map_nil, List.insertionSort_cons, List.insertionSort_nil, List.orderedInsert_nil,
    List.orderedInsert_cons, nameLe_files]
  by_cases hc : d.ext < c
  · have hm : d.ext < m := lt_trans hc hmc
    simp [hc, hm, hmc, nameLe_files, leafEntry_hash]
  · by_cases hm : d.ext < m
    · simp [hc, hm, hmc, nameLe_files, leafEntry_hash]
    · simp [hc, hm, hmc, nameLe_files, leafEntry_hash]

theorem showU64_injective : Function.Injective showU64 := by
  intro a b h
  have hd := congrArg (fun t => Nat.ofDigitChars 10 t 0) h
  simpa only [showU64, Nat.ofDigitChars_toDigits (by decide : 1 < 10) (by decide)] using hd

theorem showInt_injective : Function.Injective showInt := by
  have hneg : ∀ a b : Int, a < 0 → ¬ b < 0 → showInt a ≠ showInt b := by
    intro a b ha hb h
    rw [showInt, showInt, if_pos ha, if_neg hb] at h
    have hmem : '-' ∈ showU64 b.natAbs := by
      rw [← h]
      exact List.mem_cons_self
    exact IndexRoundTrip.not_mem_showU64 (by decide) hmem
  intro a b h
  by_cases ha : a < 0
  · by_cases hb : b < 0
    · rw [showInt, showInt, if_pos ha, if_pos hb] at h
      have := showU64_injective (List.cons.inj h).2
      omega
    · exact absurd h (hneg a b ha hb)
  · by_cases hb : b < 0
    · exact absurd h.symm (hneg b a hb ha)
    · rw [showInt, showInt, if_neg ha, if_neg hb] at h
      have := showU64_injective h
      omega

theorem metadata_inj {d d' : Document} (h : d.metadata = d'.metadata) :
    d.name = d'.name ∧ d.parent = d'.parent ∧ d.now = d'.now := by
  simp only [Document.metadata, Json.obj.injEq, List.cons.injEq, Prod.mk.injEq, Json.str.injEq, true_and,
    and_true] at h
  exact ⟨h.2.2.2, h.2.2.1, showInt_injective h.1⟩

theorem content_inj {d d' : Document} (h : d.content = d'.content) : d.ext = d'.ext := by
  simpa only [Document.content, Json.obj.injEq, List.cons.injEq, Prod.mk.injEq, Json.str.injEq, true_and,
    and_true] using h

theorem content_ne_metadata (d d' : Document) : d.content ≠ d'.metadata := by
  intro h
  have hfirst := (List.cons.inj (Json.obj.inj h)).1
  exact absurd (Prod.mk.inj hfirst).1 (by decide)

/-- Documents with the same files in the same order clash. -/
theorem clashes_of_leaves {env : Env} {docs : List (Document × IndexEntry)} (hprint : PrintsApart env docs)
    {p q : Document × IndexEntry} (hp : p ∈ docs) (hq : q ∈ docs) (h : leaves env p.1 = leaves env q.1) :
    clashes env p.1 q.1 = true := by
  obtain ⟨d, e⟩ := p
  obtain ⟨d', e'⟩ := q
  have hmeta : env.toVecPretty d.metadata = env.toVecPretty d'.metadata →
      d.name = d'.name ∧ d.parent = d'.parent ∧ d.now = d'.now :=
    fun h => metadata_inj (hprint _ hp _ hq _ (by simp [Document.jsons]) _ (by simp [Document.jsons]) h)
  have hcontent : env.toVecPretty d.content = env.toVecPretty d'.content → d.ext = d'.ext :=
    fun h => content_inj (hprint _ hp _ hq _ (by simp [Document.jsons]) _ (by simp [Document.jsons]) h)
  have hcm : env.toVecPretty d.content ≠ env.toVecPretty d'.metadata :=
    fun h => content_ne_metadata d d' (hprint _ hp _ hq _ (by simp [Document.jsons]) _ (by simp [Document.jsons]) h)
  have hmc : env.toVecPretty d.metadata ≠ env.toVecPretty d'.content :=
    fun h => content_ne_metadata d' d (hprint _ hq _ hp _ (by simp [Document.jsons]) _ (by simp [Document.jsons]) h.symm)
  simp only [clashes, Bool.and_eq_true, Bool.or_eq_true, decide_eq_true_eq, bne_iff_ne, ne_eq, decide_eq_decide]
  rw [leaves, leaves] at h
  have hlt : "content".toList < "metadata".toList := by decide
  generalize "content".toList = c at h hlt ⊢
  generalize "metadata".toList = m at h hlt ⊢
  by_cases hc : d.ext < c <;> by_cases hc' : d'.ext < c
  · simp only [hc, hc', if_true, List.cons.injEq, and_true] at h
    obtain ⟨hname, hparent, hnow⟩ := hmeta h.2.2
    exact ⟨⟨⟨hname, hparent⟩, hnow⟩, .inl ⟨hcontent h.2.1, h.1⟩⟩
  · by_cases hm' : d'.ext < m
    · simp only [hc, hc', hm', if_true, if_false, List.cons.injEq, and_true] at h
      obtain ⟨hname, hparent, hnow⟩ := hmeta h.2.2
      exact ⟨⟨⟨hname, hparent⟩, hnow⟩, .inr ⟨⟨⟨⟨h.1, h.2.1.symm⟩, by simp [hc, hc']⟩, lt_trans hc hlt⟩, hm'⟩⟩
    · simp only [hc, hc', hm', if_true, if_false, List.cons.injEq, and_true] at h
      exact absurd h.2.1 hcm
  · by_cases hm : d.ext < m
    · simp only [hc, hc', hm, if_true, if_false, List.cons.injEq, and_true] at h
      obtain ⟨hname, hparent, hnow⟩ := hmeta h.2.2
      exact ⟨⟨⟨hname, hparent⟩, hnow⟩, .inr ⟨⟨⟨⟨h.2.1, h.1.symm⟩, by simp [hc, hc']⟩, hm⟩, lt_trans hc' hlt⟩⟩
    · simp only [hc, hc', hm, if_true, if_false, List.cons.injEq, and_true] at h
      exact absurd h.2.1 hmc
  · have hext : d.ext = d'.ext := by
      simp only [hc, hc', if_false] at h
      split_ifs at h <;> exact hcontent (List.cons.inj h).1
    by_cases hm : d.ext < m
    · have hm' : d'.ext < m := hext ▸ hm
      simp only [hc, hc', hm, hm', if_true, if_false, List.cons.injEq, and_true] at h
      obtain ⟨hname, hparent, hnow⟩ := hmeta h.2.2
      exact ⟨⟨⟨hname, hparent⟩, hnow⟩, .inl ⟨hext, h.2.1⟩⟩
    · have hm' : ¬ d'.ext < m := hext ▸ hm
      simp only [hc, hc', hm, hm', if_false, List.cons.injEq, and_true] at h
      obtain ⟨hname, hparent, hnow⟩ := hmeta h.2.1
      exact ⟨⟨⟨hname, hparent⟩, hnow⟩, .inl ⟨hext, h.2.2⟩⟩

/-! ## Hashes and what they are made from -/

theorem put_hash (env : Env) (x : Source) : (x.put env).hash = hexEncode (env.sha256 x.digested) := by
  cases x <;> rfl

theorem put_valid (env : Env) (x : Source) : isValidHash (x.put env).hash = true := by
  rw [put_hash]
  exact isValidHash_sha256 env _

theorem digested_eq {env : Env} {log : List Source} (hfree : CollisionFree env log) {x y : Source} (hx : x ∈ log)
    (hy : y ∈ log) (h : (x.put env).hash = (y.put env).hash) : x.digested = y.digested := by
  rw [put_hash, put_hash] at h
  exact hfree x hx y hy (hexEncode_injective h)

theorem digested_of_hashes {entries : List IndexEntry} {hashes : List Bytes} (h : Hashes entries hashes) :
    (Source.index entries).digested = hashes.flatten := by
  rw [Source.digested, childHashes_of_hashes h]

theorem separate_iff {log : List Source} : separate log = true ↔
    ∀ data entries, .leaf data ∈ log → .index entries ∈ log → data ≠ (Source.index entries).digested := by
  simp only [separate, List.all_eq_true]
  constructor
  · intro h data entries hd he
    simpa using h _ hd _ he
  · intro h a ha b hb
    cases a with
    | index entries => rfl
    | leaf data =>
      cases b with
      | leaf data' => rfl
      | index entries => simpa using h data entries ha hb

theorem separate_mono {log log' : List Source} (hsub : ∀ x ∈ log, x ∈ log') (h : separate log' = true) :
    separate log = true :=
  separate_iff.mpr fun data entries hd he => separate_iff.mp h data entries (hsub _ hd) (hsub _ he)

/-- An index whose children are files of the log. -/
structure OverFiles (env : Env) (log : List Source) (entries : List IndexEntry) (files : List Bytes) : Prop where
  hashes : entries.map IndexEntry.hash = files.map fun l => hexEncode (env.sha256 l)
  logged : ∀ l ∈ files, .leaf l ∈ log

/-- An index with an index of the log among its children. -/
structure OverIndex (env : Env) (log : List Source) (entries : List IndexEntry) : Prop where
  valid : ∀ e ∈ entries, isValidHash e.hash = true
  child : ∃ e ∈ entries, ∃ x, .index x ∈ log ∧ e.hash = ((Source.index x).put env).hash

theorem OverFiles.mono {env : Env} {log log' : List Source} {entries : List IndexEntry} {files : List Bytes}
    (hsub : ∀ x ∈ log, x ∈ log') (h : OverFiles env log entries files) : OverFiles env log' entries files :=
  ⟨h.hashes, fun l hl => hsub _ (h.logged l hl)⟩

theorem OverIndex.mono {env : Env} {log log' : List Source} {entries : List IndexEntry}
    (hsub : ∀ x ∈ log, x ∈ log') (h : OverIndex env log entries) : OverIndex env log' entries := by
  obtain ⟨e, he, x, hx, hhash⟩ := h.child
  exact ⟨h.valid, e, he, x, hsub _ hx, hhash⟩

theorem CollisionFree.mono {env : Env} {log log' : List Source} (hsub : ∀ x ∈ log, x ∈ log')
    (h : CollisionFree env log') : CollisionFree env log :=
  fun x hx y hy => h x (hsub x hx) y (hsub y hy)

theorem PrintsApart.mono {env : Env} {docs docs' : List (Document × IndexEntry)} (hsub : ∀ p ∈ docs, p ∈ docs')
    (h : PrintsApart env docs') : PrintsApart env docs :=
  fun p hp q hq => h p (hsub p hp) q (hsub q hq)

theorem length_sha256_map (env : Env) (files : List Bytes) : ∀ b ∈ files.map env.sha256, b.length = 32 := by
  intro b hb
  obtain ⟨l, -, rfl⟩ := List.mem_map.mp hb
  exact env.length_sha256 l

/-- An index over files is hashed from something else than an index over indexes. -/
theorem overFiles_ne_overIndex {env : Env} {log : List Source} (hfree : CollisionFree env log)
    (hsep : separate log = true) {xs ys : List IndexEntry} {files : List Bytes} (hx : OverFiles env log xs files)
    (hy : OverIndex env log ys) : (Source.index xs).digested ≠ (Source.index ys).digested := by
  intro h
  obtain ⟨hashes, hhashes, hlen⟩ := hashes_of_valid hy.valid
  rw [digested_of_hashes (hashes_of_leaves hx.hashes), digested_of_hashes hhashes] at h
  have heq := eq_of_flatten_eq (length_sha256_map env files) hlen h
  obtain ⟨e, he, x, hxlog, hhash⟩ := hy.child
  have hmem : env.sha256 (Source.index x).digested ∈ hashes := by
    apply hhashes.mem he
    rw [hhash, put_hash, hexDecode_hexEncode]
  rw [← heq] at hmem
  obtain ⟨l, hl, hsha⟩ := List.mem_map.mp hmem
  have hleaf := hx.logged l hl
  exact separate_iff.mp hsep l x hleaf hxlog (hfree _ hleaf _ hxlog hsha)

/-- Indexes hashed from the same string have equally many entries. -/
theorem length_eq_of_digested {xs ys : List IndexEntry} (hx : ∀ e ∈ xs, isValidHash e.hash = true)
    (hy : ∀ e ∈ ys, isValidHash e.hash = true) (h : (Source.index xs).digested = (Source.index ys).digested) :
    xs.length = ys.length := by
  obtain ⟨as, has, hlen⟩ := hashes_of_valid hx
  obtain ⟨bs, hbs, hlen'⟩ := hashes_of_valid hy
  rw [digested_of_hashes has, digested_of_hashes hbs] at h
  rw [has.length_eq, hbs.length_eq, eq_of_flatten_eq hlen hlen' h]

theorem OverFiles.valid {env : Env} {log : List Source} {entries : List IndexEntry} {files : List Bytes}
    (h : OverFiles env log entries files) : ∀ e ∈ entries, isValidHash e.hash = true := by
  intro e he
  have hmem : e.hash ∈ entries.map IndexEntry.hash := List.mem_map_of_mem he
  rw [h.hashes] at hmem
  obtain ⟨l, -, hl⟩ := List.mem_map.mp hmem
  rw [← hl]
  exact isValidHash_sha256 env l

/-- Indexes over files that are hashed from the same string have the same files. -/
theorem files_eq_of_digested {env : Env} {log : List Source} (hfree : CollisionFree env log) {xs ys : List IndexEntry}
    {files files' : List Bytes} (hx : OverFiles env log xs files) (hy : OverFiles env log ys files')
    (h : (Source.index xs).digested = (Source.index ys).digested) : files = files' := by
  rw [digested_of_hashes (hashes_of_leaves hx.hashes), digested_of_hashes (hashes_of_leaves hy.hashes)] at h
  have heq := eq_of_flatten_eq (length_sha256_map env files) (length_sha256_map env files') h
  have hinj : ∀ l ∈ files, ∀ l' ∈ files', env.sha256 l = env.sha256 l' → l = l' :=
    fun l hl l' hl' hsha => hfree _ (hx.logged l hl) _ (hy.logged l' hl') hsha
  clear hx hy h
  induction files generalizing files' with
  | nil => exact (List.map_eq_nil_iff.mp heq.symm).symm
  | cons l files ih =>
    cases files' with
    | nil => cases heq
    | cons l' files' =>
      obtain ⟨hl, hrest⟩ := List.cons.inj heq
      rw [hinj l List.mem_cons_self l' List.mem_cons_self hl,
        ih hrest fun a ha b hb => hinj a (List.mem_cons_of_mem _ ha) b (List.mem_cons_of_mem _ hb)]

/-- Entries that are each named by a logged file. -/
theorem overFiles_of_mem {env : Env} {log : List Source} (entries : List IndexEntry)
    (h : ∀ e ∈ entries, ∃ l, e.hash = hexEncode (env.sha256 l) ∧ .leaf l ∈ log) :
    ∃ files, OverFiles env log entries files := by
  induction entries with
  | nil => exact ⟨[], rfl, by simp⟩
  | cons e es ih =>
    obtain ⟨files, hfiles⟩ := ih fun x hx => h x (List.mem_cons_of_mem e hx)
    obtain ⟨l, hl, hlog⟩ := h e List.mem_cons_self
    refine ⟨l :: files, ?_, ?_⟩
    · rw [List.map_cons, List.map_cons, hl, hfiles.hashes]
    · intro x hx
      rcases List.mem_cons.mp hx with rfl | hx
      · exact hlog
      · exact hfiles.logged x hx

theorem overFiles_node {env : Env} {log : List Source} {files : List (Text × Bytes)}
    (hlog : ∀ x ∈ nodeSources env files, x ∈ log) :
    ∃ ls, OverFiles env log (sortByName (fileEntries env files)) ls ∧ ls.length = files.length := by
  have hmem : ∀ e ∈ sortByName (fileEntries env files), ∃ l, e.hash = hexEncode (env.sha256 l) ∧ .leaf l ∈ log := by
    intro e he
    obtain ⟨f, hf, rfl⟩ := List.mem_map.mp (mem_sortByName.mp he)
    exact ⟨f.2, rfl, hlog _ (List.mem_append_left _ (List.mem_map_of_mem hf))⟩
  obtain ⟨ls, hls⟩ := overFiles_of_mem _ hmem
  refine ⟨ls, hls, ?_⟩
  have hlen := congrArg List.length hls.hashes
  simp only [List.length_map, (perm_sortByName _).length_eq, fileEntries] at hlen
  exact hlen.symm

theorem leaves_length (env : Env) (d : Document) : (leaves env d).length = 3 := by
  rw [leaves]
  split
  · rfl
  · split <;> rfl

/-! ## Storing -/

/-- The blob is in the store as it was put. -/
def Stored (s : State) (p : Put) : Prop := ∃ f, s.files.lookup p.hash = some f ∧ f.bytes = p.data

theorem Stored.congr {s s' : State} (h : s'.files = s.files) {p : Put} (hp : Stored s p) : Stored s' p := by
  rw [Stored, h]
  exact hp

theorem get_of_stored {s : State} {p : Put} (h : Stored s p) (hv : isValidHash p.hash = true) :
    s.get p.hash = .ok p.data := by
  obtain ⟨f, hf, hb⟩ := h
  rw [State.get, hv, hf]
  simp [hb]

/-- Blobs are stored one after the other; one that no later put replaces stays. -/
theorem putAll_spec (t : Times) (puts : List Put) (hvalid : ∀ p ∈ puts, isValidHash p.hash = true) (s : State) :
    ∃ s', putAll s t puts = (s', .ok ()) ∧ s'.root = s.root ∧ s'.cachedRoot = s.cachedRoot ∧
      (∀ q, Stored s q → (∀ p ∈ puts, p.hash = q.hash → p.data = q.data) → Stored s' q) ∧
      ∀ q ∈ puts.getLast?, Stored s' q := by
  induction puts generalizing s with
  | nil => exact ⟨s, rfl, rfl, rfl, fun q hq _ => hq, by simp⟩
  | cons p puts ih =>
    have hv := hvalid p List.mem_cons_self
    have hput : s.putWithHash p.data p.hash t.modified t.secs =
        .ok (((s.writeFile p.hash p.data t.modified).catalogue p.hash p.data.length t.secs).forgetIndex p.hash) := by
      simp [State.putWithHash, hv]
    generalize hs₁ : ((s.writeFile p.hash p.data t.modified).catalogue p.hash p.data.length t.secs).forgetIndex p.hash = s₁ at hput
    have hfiles : s₁.files = s.files.insert p.hash ⟨p.data, t.modified⟩ := by
      rw [← hs₁]
      rfl
    have hstored : Stored s₁ p := ⟨⟨p.data, t.modified⟩, by rw [hfiles, AList.lookup_insert], rfl⟩
    have hkept : ∀ q, Stored s q → (p.hash = q.hash → p.data = q.data) → Stored s₁ q := by
      intro q hq hsame
      by_cases hk : q.hash = p.hash
      · obtain ⟨f, hf, hb⟩ := hstored
        exact ⟨f, by rw [hk, hf], by rw [hb, hsame hk.symm]⟩
      · obtain ⟨f, hf, hb⟩ := hq
        exact ⟨f, by rw [hfiles, AList.lookup_insert_ne hk, hf], hb⟩
    obtain ⟨s', hs', hroot, hcached, hstay, hlast⟩ := ih (fun q hq => hvalid q (List.mem_cons_of_mem p hq)) s₁
    refine ⟨s', ?_, ?_, ?_, ?_, ?_⟩
    · rw [putAll, hput]
      exact hs'
    · rw [hroot, ← hs₁]
      rfl
    · rw [hcached, ← hs₁]
      rfl
    · intro q hq hsame
      refine hstay q (hkept q hq (hsame p List.mem_cons_self)) fun p' hp' => hsame p' (List.mem_cons_of_mem p hp')
    · intro q hq
      cases puts with
      | nil =>
        cases hq
        cases hs'
        exact hstored
      | cons p' puts => exact hlast q (by simpa using hq)

/-! ## What the calls store -/

theorem indexHash_of_valid (env : Env) {entries : List IndexEntry} (h : ∀ e ∈ entries, isValidHash e.hash = true) :
    indexHash env entries = .ok ((Source.index entries).put env).hash := by
  obtain ⟨hashes, hh, -⟩ := hashes_of_valid h
  rw [indexHash, childHashes_of_hashes hh, put_hash, digested_of_hashes hh]
  rfl

theorem fileEntries_valid (env : Env) (files : List (Text × Bytes)) :
    ∀ e ∈ sortByName (fileEntries env files), isValidHash e.hash = true := by
  intro e he
  obtain ⟨f, -, rfl⟩ := List.mem_map.mp (mem_sortByName.mp he)
  exact isValidHash_sha256 env f.2

theorem nodeIndex_of_files (env : Env) (id : Text) (files : List (Text × Bytes)) :
    ∃ entry, nodeIndex env id (fileEntries env files) =
      .ok ((Source.index (sortByName (fileEntries env files))).put env, entry) ∧
        entry.hash = ((Source.index (sortByName (fileEntries env files))).put env).hash := by
  rw [nodeIndex, indexHash_of_valid env (fileEntries_valid env files)]
  exact ⟨_, rfl, rfl⟩

theorem putDocument_eq (env : Env) (d : Document) (h : d.file.hashed = true) :
    ∃ entry, putDocument env d = ((nodeSources env (d.files env)).map (Source.put env), .ok entry) ∧
      entry.hash = ((Source.index (sortByName (d.entries env))).put env).hash ∧ entry.WellFormed := by
  obtain ⟨entry, hindex, hhash⟩ := nodeIndex_of_files env d.id.toText (d.files env)
  have hput : putDocument env d = ((nodeSources env (d.files env)).map (Source.put env), .ok entry) := by
    rw [putDocument, h, Document.entries, hindex, nodeSources]
    simp [Function.comp_def, Source.put]
  exact ⟨entry, hput, hhash, wellFormed_putDocument hput⟩

theorem putFolder_eq (env : Env) (id : Uuid) (folder : Text) (now : Int) :
    ∃ entry, putFolder env id folder now =
        ((nodeSources env (folderFiles env id folder now)).map (Source.put env), .ok entry) ∧
      entry.hash = ((Source.index (sortByName (fileEntries env (folderFiles env id folder now)))).put env).hash ∧
        entry.WellFormed := by
  obtain ⟨entry, hindex, hhash⟩ := nodeIndex_of_files env id.toText (folderFiles env id folder now)
  have hput : putFolder env id folder now =
      ((nodeSources env (folderFiles env id folder now)).map (Source.put env), .ok entry) := by
    simp only [putFolder]
    rw [hindex, nodeSources]
    simp [Function.comp_def, Source.put]
  exact ⟨entry, hput, hhash, wellFormed_putFolder hput⟩

theorem rewriteRoot_eq (env : Env) {entries new : List IndexEntry} (hold : ∀ e ∈ entries, e.WellFormed)
    (hnew : ∀ e ∈ new, e.WellFormed) :
    rewriteRoot env entries new = .ok ((Source.index (sortByName (entries ++ new))).put env) := by
  have hvalid : ∀ e ∈ sortByName (entries ++ new), isValidHash e.hash = true := by
    intro e he
    rcases List.mem_append.mp (mem_sortByName.mp he) with he | he
    · exact (hold e he).hash
    · exact (hnew e he).hash
  rw [rewriteRoot, indexHash_of_valid env hvalid]
  rfl

theorem getRoot_eq {s : State} (h : s.cachedRoot = s.root.toSyncRoot) (readable : Bool) :
    s.getRoot readable = (s, s.root.toSyncRoot) := by
  rw [State.getRoot, ← h]
  split <;> rfl

/-- With no other client the swap succeeds. -/
theorem swapRoot_spec (env : Env) (s : State) (t : Times) {entries new : List IndexEntry}
    (hold : ∀ e ∈ entries, e.WellFormed) (hnew : ∀ e ∈ new, e.WellFormed) :
    ∃ s', swapRoot env s t s.root.toSyncRoot entries new = (s', some (.ok s'.root.generation)) ∧
      s'.root.generation = s.root.generation + 1 ∧ s'.cachedRoot = s'.root.toSyncRoot ∧
      s'.root.hash = ((Source.index (sortByName (entries ++ new))).put env).hash ∧
      Stored s' ((Source.index (sortByName (entries ++ new))).put env) ∧
      ∀ q, Stored s q → (((Source.index (sortByName (entries ++ new))).put env).hash = q.hash →
        ((Source.index (sortByName (entries ++ new))).put env).data = q.data) → Stored s' q := by
  generalize hp : (Source.index (sortByName (entries ++ new))).put env = p
  have hvalid : ∀ q ∈ [p], isValidHash q.hash = true := by
    rw [← hp]
    simpa using put_valid env _
  obtain ⟨s₁, hs₁, hroot, -, hstay, hlast⟩ := putAll_spec t [p] hvalid s
  obtain ⟨g, hg, hne, -⟩ | ⟨-, s', hs', hc⟩ := LiveSet.setRootIf_spec s₁ p.hash (some s.root.generation)
  · rw [hroot] at hne
    exact absurd (Option.some.inj hg).symm hne
  · refine ⟨s', ?_, ?_, hc.cachedRoot, ?_, (hlast p rfl).congr hc.files, ?_⟩
    · rw [swapRoot, rewriteRoot_eq env hold hnew, hp]
      simp only [hs₁]
      rw [hs']
    · rw [hc.root, hroot]
    · rw [hc.root]
    · intro q hq hsame
      exact (hstay q hq (by simpa using hsame)).congr hc.files

end DocumentSources
