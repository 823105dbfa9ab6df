import RemarkableServer.Documents
import RemarkableServer.IndexRoundTrip
import RemarkableServer.Lib.Sha256

/-!
# The entries of new nodes

The hashes the writers compute are valid blob hashes, node ids fit in an index
line, and so every root entry they make for a document or a collection can be
rendered and read back.
-/
namespace Documents

open RustText SyncIndex Store IndexRoundTrip

theorem hexDigit_valid : ∀ n < 16, (('0' ≤ hexDigit n && hexDigit n ≤ '9') ||
    ('a' ≤ hexDigit n && hexDigit n ≤ 'f')) = true := by decide

theorem hexEncode_digits {bytes : Bytes} {c : Char} (h : c ∈ hexEncode bytes) :
    (('0' ≤ c && c ≤ '9') || ('a' ≤ c && c ≤ 'f')) = true := by
  simp only [hexEncode, List.mem_flatMap, List.mem_cons, List.not_mem_nil, or_false] at h
  obtain ⟨b, -, rfl | rfl⟩ := h
  · exact hexDigit_valid _ (by have := b.toNat_lt; omega)
  · exact hexDigit_valid _ (by omega)

theorem isValidHash_hexEncode {bytes : Bytes} (h : bytes.length = 32) : isValidHash (hexEncode bytes) = true := by
  rw [isValidHash, hexEncode_length, h, Bool.and_eq_true, List.all_eq_true]
  exact ⟨rfl, fun c hc => hexEncode_digits hc⟩

theorem isValidHash_sha256 (env : Env) (data : Bytes) : isValidHash (hexEncode (env.sha256 data)) = true :=
  isValidHash_hexEncode (env.length_sha256 data)

theorem mem_toText {id : Uuid} {c : Char} (h : c ∈ id.toText) : c ∈ hexEncode id.bytes ∨ c = '-' := by
  simp only [Uuid.toText, List.mem_append, List.mem_cons] at h
  rcases h with (((h | h | h) | h | h) | h | h) | h | h
  all_goals first
    | exact .inr h
    | exact .inl (List.mem_of_mem_take h)
    | exact .inl (List.mem_of_mem_drop (List.mem_of_mem_take h))
    | exact .inl (List.mem_of_mem_drop h)

theorem not_mem_toText {id : Uuid} {c : Char} (hhex : (('0' ≤ c && c ≤ '9') || ('a' ≤ c && c ≤ 'f')) = false)
    (hdash : c ≠ '-') : c ∉ id.toText := by
  intro h
  rcases mem_toText h with h | h
  · rw [hexEncode_digits h] at hhex
    cases hhex
  · exact hdash h

theorem toText_ne_nil (id : Uuid) : id.toText ≠ [] := by
  simp [Uuid.toText]

theorem perm_sortByName (entries : List IndexEntry) : (sortByName entries).Perm entries :=
  List.perm_insertionSort _ _

theorem mem_sortByName {entries : List IndexEntry} {e : IndexEntry} : e ∈ sortByName entries ↔ e ∈ entries :=
  (perm_sortByName entries).mem_iff

theorem indexHash_valid {env : Env} {entries : List IndexEntry} {hash : Text}
    (h : indexHash env entries = .ok hash) : isValidHash hash = true := by
  obtain ⟨bytes, -, rfl⟩ := map_eq_ok.mp h
  exact isValidHash_sha256 env bytes

/-! ## What an index is hashed from -/

theorem hexValue_of_digit {c : Char} (h : (('0' ≤ c && c ≤ '9') || ('a' ≤ c && c ≤ 'f')) = true) :
    (hexValue c).isSome = true := by
  simp only [Bool.or_eq_true, Bool.and_eq_true, decide_eq_true_eq] at h
  rw [hexValue]
  rcases h with h | h
  · have hd : c.isDigit = true := by
      simp only [Char.isDigit, Bool.and_eq_true, decide_eq_true_eq]
      exact h
    rw [if_pos hd]
    rfl
  · split <;> rfl

/-- A valid hash is the text of 32 bytes. -/
theorem hexDecode_of_valid {hash : Text} (h : isValidHash hash = true) :
    ∃ bytes, hexDecode hash = some bytes ∧ bytes.length = 32 := by
  simp only [isValidHash, Bool.and_eq_true, beq_iff_eq, List.all_eq_true] at h
  exact hexDecode_of_digits 32 hash h.1 fun c hc => hexValue_of_digit (h.2 c hc)

/-- `hashes` are the binary hashes of the entries. -/
def Hashes (entries : List IndexEntry) (hashes : List Bytes) : Prop :=
  entries.map (fun e => hexDecode e.hash) = hashes.map some

theorem childHashes_of_hashes {entries : List IndexEntry} {hashes : List Bytes} (h : Hashes entries hashes) :
    childHashes entries = .ok hashes.flatten := by
  induction entries generalizing hashes with
  | nil =>
    cases hashes with
    | nil => rfl
    | cons b bs => cases h
  | cons e es ih =>
    cases hashes with
    | nil => cases h
    | cons b bs =>
      obtain ⟨he, hes⟩ := List.cons.inj h
      have he : hexDecode e.hash = some b := he
      rw [childHashes, he, ih hes]
      rfl

/-- Valid entries have binary hashes, of 32 bytes each. -/
theorem hashes_of_valid {entries : List IndexEntry} (h : ∀ e ∈ entries, isValidHash e.hash = true) :
    ∃ hashes, Hashes entries hashes ∧ ∀ b ∈ hashes, b.length = 32 := by
  induction entries with
  | nil => exact ⟨[], rfl, by simp⟩
  | cons e es ih =>
    obtain ⟨bs, hbs, hlen⟩ := ih fun x hx => h x (List.mem_cons_of_mem e hx)
    obtain ⟨b, hb, hl⟩ := hexDecode_of_valid (h e List.mem_cons_self)
    refine ⟨b :: bs, ?_, ?_⟩
    · rw [Hashes, List.map_cons, List.map_cons, hb, hbs]
    · intro x hx
      rcases List.mem_cons.mp hx with rfl | hx
      · exact hl
      · exact hlen x hx

/-- Entries named by the content of their blobs. -/
theorem hashes_of_leaves {env : Env} {entries : List IndexEntry} {leaves : List Bytes}
    (h : entries.map IndexEntry.hash = leaves.map fun l => hexEncode (env.sha256 l)) :
    Hashes entries (leaves.map env.sha256) := by
  have hmap := congrArg (List.map hexDecode) h
  simpa [Hashes, List.map_map, Function.comp_def, hexDecode_hexEncode] using hmap

theorem Hashes.length_eq {entries : List IndexEntry} {hashes : List Bytes} (h : Hashes entries hashes) :
    entries.length = hashes.length := by
  simpa using congrArg List.length h

theorem Hashes.mem {entries : List IndexEntry} {hashes : List Bytes} (h : Hashes entries hashes) {e : IndexEntry}
    (he : e ∈ entries) {b : Bytes} (hb : hexDecode e.hash = some b) : b ∈ hashes := by
  have hm : some b ∈ hashes.map some := by
    rw [← h, ← hb]
    exact List.mem_map_of_mem he
  simpa using hm

/-- Strings of 32-byte pieces are equal only piece by piece. -/
theorem eq_of_flatten_eq {xs ys : List Bytes} (hx : ∀ b ∈ xs, b.length = 32) (hy : ∀ b ∈ ys, b.length = 32)
    (h : xs.flatten = ys.flatten) : xs = ys := by
  have hlen : ∀ {zs : List Bytes}, (∀ b ∈ zs, b.length = 32) → zs.map List.length = List.replicate zs.length 32 :=
    fun hz => List.eq_replicate_iff.mpr ⟨by simp, fun n hn => by
      obtain ⟨b, hb, rfl⟩ := List.mem_map.mp hn
      exact hz b hb⟩
  have htotal : 32 * xs.length = 32 * ys.length := by
    have := congrArg List.length h
    rw [List.length_flatten, List.length_flatten, hlen hx, hlen hy] at this
    simpa [Nat.mul_comm] using this
  refine List.eq_iff_flatten_eq.mpr ⟨h, ?_⟩
  rw [hlen hx, hlen hy, Nat.eq_of_mul_eq_mul_left (by decide) htotal]

theorem foldl_size_lt (files : List IndexEntry) (n : Nat) (h : n < UInt64.size) :
    files.foldl (fun n f => (n + f.size) % UInt64.size) n < UInt64.size := by
  induction files generalizing n with
  | nil => exact h
  | cons f files ih => exact ih _ (Nat.mod_lt _ (by decide))

/-- What the index of a node and the entry for it are. -/
theorem nodeIndex_ok {env : Env} {id : Text} {files : List IndexEntry} {index : Put} {entry : IndexEntry}
    (h : nodeIndex env id files = .ok (index, entry)) :
    index.data = renderIndex (sortByName files) ∧ indexHash env (sortByName files) = .ok index.hash ∧
      entry.hash = index.hash ∧ entry.kind = docKind ∧ entry.name = id ∧ entry.subfiles = files.length ∧
        entry.size < UInt64.size := by
  obtain ⟨hash, hh, he⟩ := map_eq_ok.mp h
  cases he
  refine ⟨rfl, hh, rfl, rfl, rfl, (perm_sortByName files).length_eq, ?_⟩
  exact foldl_size_lt _ 0 (by decide)

theorem wellFormed_nodeIndex {env : Env} {id : Uuid} {files : List IndexEntry} {index : Put} {entry : IndexEntry}
    (h : nodeIndex env id.toText files = .ok (index, entry)) (hlen : files.length < UInt64.size) :
    entry.WellFormed := by
  obtain ⟨-, hhash, he, hkind, hname, hsub, hsize⟩ := nodeIndex_ok h
  refine ⟨?_, ?_, ?_, ?_, hsize⟩
  · rw [he]
    exact indexHash_valid hhash
  · rw [hkind]
    decide
  · rw [hname]
    exact ⟨toText_ne_nil id, not_mem_toText (by decide) (by decide), not_mem_toText (by decide) (by decide)⟩
  · rw [hsub]
    exact hlen

/-- A document was put: its three leaves and its index, in this order. -/
theorem putDocument_ok {env : Env} {d : Document} {puts : List Put} {entry : IndexEntry}
    (h : putDocument env d = (puts, .ok entry)) :
    ∃ index, nodeIndex env d.id.toText (d.entries env) = .ok (index, entry) ∧
      puts = ((d.files env).map fun f => leafPut env f.2) ++ [index] := by
  simp only [putDocument] at h
  split at h
  · cases h
  · split at h
    · cases h
    next index e hindex =>
      cases h
      exact ⟨index, hindex, rfl⟩

theorem wellFormed_putDocument {env : Env} {d : Document} {puts : List Put} {entry : IndexEntry}
    (h : putDocument env d = (puts, .ok entry)) : entry.WellFormed := by
  obtain ⟨index, hindex, -⟩ := putDocument_ok h
  exact wellFormed_nodeIndex hindex (show 3 < UInt64.size by decide)

theorem wellFormed_stageDocuments {env : Env} {ds : List Document} {new : List IndexEntry}
    (h : (stageDocuments env ds).2 = .ok new) : ∀ e ∈ new, e.WellFormed := by
  induction ds generalizing new with
  | nil =>
    cases h
    simp
  | cons d ds ih =>
    rw [stageDocuments] at h
    split at h
    · cases h
    next puts entry hd =>
      obtain ⟨rest, hr, rfl⟩ := map_eq_ok.mp h
      intro e he
      rcases List.mem_cons.mp he with rfl | he
      · exact wellFormed_putDocument hd
      · exact ih hr e he

theorem wellFormed_putFolder {env : Env} {id : Uuid} {folder : Text} {now : Int} {puts : List Put}
    {entry : IndexEntry} (h : putFolder env id folder now = (puts, .ok entry)) : entry.WellFormed := by
  simp only [putFolder] at h
  split at h
  · cases h
  next index e hindex =>
    cases h
    exact wellFormed_nodeIndex hindex (show 2 < UInt64.size by decide)

/-- A rewritten root holds the old entries and the new ones, in the order of their names. -/
theorem rewriteRoot_ok {env : Env} {entries new : List IndexEntry} {put : Put}
    (h : rewriteRoot env entries new = .ok put) :
    put.data = renderIndex (sortByName (entries ++ new)) ∧
      indexHash env (sortByName (entries ++ new)) = .ok put.hash := by
  obtain ⟨hash, hh, rfl⟩ := map_eq_ok.mp h
  exact ⟨rfl, hh⟩

/-- It is read back as a permutation of them. -/
theorem parseRoot_rewriteRoot {env : Env} {entries new : List IndexEntry} {put : Put}
    (hold : ∀ e ∈ entries, e.WellFormed) (hnew : ∀ e ∈ new, e.WellFormed)
    (h : rewriteRoot env entries new = .ok put) :
    ∃ es, parseRoot put.data = .ok es ∧ es.Perm (entries ++ new) := by
  refine ⟨sortByName (entries ++ new), ?_, perm_sortByName _⟩
  rw [(rewriteRoot_ok h).1]
  apply parseRoot_renderIndex
  intro e he
  rcases List.mem_append.mp (mem_sortByName.mp he) with he | he
  · exact hold e he
  · exact hnew e he

theorem get_ok {s : State} {hash : Text} {bytes : Bytes} (h : s.get hash = .ok bytes) :
    isValidHash hash = true ∧ ∃ f, s.files.lookup hash = some f ∧ f.bytes = bytes := by
  rw [State.get] at h
  split at h
  · cases h
  next hv =>
    split at h
    · cases h
    next f hf =>
      cases h
      exact ⟨by simpa using hv, f, hf, rfl⟩

/-- The entries of a root are none, for an empty hash, or those of its stored bytes. -/
theorem rootEntries_ok {s : State} {hash : Text} {es : List IndexEntry} (h : rootEntries s hash = .ok es) :
    hash = [] ∧ es = [] ∨
      isValidHash hash = true ∧ ∃ f, s.files.lookup hash = some f ∧ parseRoot f.bytes = .ok es := by
  rw [rootEntries] at h
  split at h
  next hnil =>
    cases h
    exact .inl ⟨List.isEmpty_iff.mp hnil, rfl⟩
  next =>
    split at h
    · cases h
    next bytes hget =>
      obtain ⟨hvalid, f, hf, rfl⟩ := get_ok hget
      cases hp : parseRoot f.bytes with
      | error e =>
        rw [hp] at h
        cases h
      | ok es' =>
        rw [hp] at h
        cases h
        exact .inr ⟨hvalid, f, hf, hp⟩

theorem rootEntries_of_file {s : State} {hash : Text} {f : BlobFile} {es : List IndexEntry}
    (hvalid : isValidHash hash = true) (hf : s.files.lookup hash = some f) (hp : parseRoot f.bytes = .ok es) :
    rootEntries s hash = .ok es := by
  have hne : hash.isEmpty = false := by simpa using ne_nil_of_valid hvalid
  rw [rootEntries, hne, State.get, hvalid, hf]
  simp [hp, Except.mapError]

theorem wellFormed_rootEntries {s : State} {hash : Text} {es : List IndexEntry} (h : rootEntries s hash = .ok es) :
    ∀ e ∈ es, e.WellFormed := by
  obtain ⟨-, rfl⟩ | ⟨-, f, -, hp⟩ := rootEntries_ok h
  · simp
  · exact wellFormed_of_parseRoot hp

/-- SHA-256 and the pretty printer; no metadata is read back. -/
def Env.writing : Env := ⟨Sha256.digest, Sha256.digest_length, Json.toVecPretty, fun _ => none⟩

end Documents
