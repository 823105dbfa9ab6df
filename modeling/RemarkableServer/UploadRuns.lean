import RemarkableServer.Lib.Processes
import RemarkableServer.Lib.Transition
import RemarkableServer.LiveSet
import RemarkableServer.Uploads

/-!
# Uploads side by side

Any number of blob uploads arrive at once, chunk by chunk, and share the staging
directory and the store. A client may hang up while its file is being created or at
any chunk, the disk or the database may fail at any step, old staged files are swept
when a new upload starts, and the process may crash. A staged file is named by a
random UUID, which is taken never to repeat.
-/
namespace Uploads

open RustText Store SyncIndex Checksum Transition Processes

def rootBlob : Text := "root".toList

/-- Bytes of a root blob that are read at all. -/
def rootBodyLimit : Nat := 4096

def checkBlobId (blob : Text) : Except ServerError Unit :=
  if blob = rootBlob || isValidHash blob then .ok () else .error (.invalidHash blob)

/-- What `blob_get` sends: the bytes, `x-goog-hash` and `x-goog-generation`. -/
def blobGet (s : State) (auth : Except ServerError Unit) (blob : Text) (readable : Bool) :
    Except ServerError (Bytes × Text × Option Nat) :=
  auth.bind fun _ => (checkBlobId blob).bind fun _ =>
    if blob = rootBlob then
      let root := (s.getRoot readable).2
      if root.hash.isEmpty then .error (.notFound rootBlob)
      else
        let data := Utf8Codec.encode root.hash
        .ok (data, formatGoogHash data, some root.generation)
    else match s.get blob with
    | .error e => .error (.ofStore e)
    | .ok data => .ok (data, formatGoogHash data, none)

/-- `x-goog-if-generation-match`: absent, a number, or an error. -/
def generationPrecondition (headers : Headers) : Except ServerError (Option Nat) :=
  match headers.generationMatch with
  | none => .ok none
  | some raw =>
    match (toStr raw).bind fun v => parseU64 (trim v) with
    | some generation => .ok (some generation)
    | none => .error (.invalidHeader ("x-goog-if-generation-match: ".toList ++ debug raw))

/-- The checks of a root upload, up to the commit: the hash and the precondition. -/
def rootRequest (auth : Except ServerError Unit) (headers : Headers) (body : List Chunk) :
    Except ServerError (Text × Option Nat) := do
  auth
  checkBlobId rootBlob
  let expected ← GoogHash.fromHeaders headers.googHash
  let body ← (whole rootBodyLimit body).mapError fun _ => .invalidHash "root body too large or unreadable".toList
  GoogHash.check expected (crc32c body)
  let hash := ((Utf8Codec.decode body).map trim).getD []
  if isValidHash hash then return (hash, ← generationPrecondition headers)
  else .error (.invalidHash hash)

/-- The root branch of `blob_put`; the answer is the new generation. -/
def blobPutRoot (s : State) (auth : Except ServerError Unit) (headers : Headers) (body : List Chunk) :
    State × Except ServerError Nat :=
  match rootRequest auth headers body with
  | .error e => (s, .error e)
  | .ok (hash, expected) =>
    match s.setRootIf hash expected with
    | (s, .error e) => (s, .error (.ofStore e))
    | (s, .ok root) => (s, .ok root.generation)

/-- The checks of another upload, up to the first chunk: the checksum it promises. -/
def blobRequest (auth : Except ServerError Unit) (blob : Text) (headers : Headers) :
    Except ServerError (Option GoogHash) := do
  auth
  checkBlobId blob
  let expected ← GoogHash.fromHeaders headers.googHash
  checkDeclaredLength headers maxBlobBytes
  return expected

inductive Phase where
  /-- A blocking thread is to create the file. It does so also when the upload is gone. -/
  | opening (path : Text)
  /-- It has, or failed, and the upload has not heard of it yet. -/
  | created (path : Text) (ok : Bool)
  | receiving (stager : Stager)
  /-- Received and verified. -/
  | staged (file : Staged)
  /-- The file is in place, and its row is to come. -/
  | renamed (file : Staged) (size : Nat)
  /-- An earlier parse is still to be forgotten. -/
  | catalogued (file : Staged)
  deriving DecidableEq

/-- An upload in progress. -/
structure Put where
  blob : Text
  header : Option Bytes
  expected : Option GoogHash
  phase : Phase
  deriving DecidableEq

/-- An upload whose file was renamed into place, and all the bytes that it sent. -/
structure Landed where
  blob : Text
  header : Option Bytes
  content : Bytes
  deriving DecidableEq

/-- `detached` are the files that are still to be created for uploads that are gone. The names drawn, the files
that crashes left, those that could not be removed, those whose upload was gone before it heard of them, and the
files that landed, newest first, are records of the past. -/
structure Sys where
  staging : Table BlobFile
  store : State
  puts : List Put
  detached : List Text
  named : List Text
  stranded : List Text
  kept : List Text
  abandoned : List Text
  landed : List Landed

/-- The files that no upload will remove. -/
def Sys.strays (s : Sys) : List Text := s.stranded ++ s.kept ++ s.abandoned

/-- The next step of an upload in progress, and what the disk or the database says to it. -/
inductive Op where
  | create (ok : Bool) (now : Int)
  | resume
  /-- The client hangs up while the upload waits for its file. -/
  | hangUpOpening
  | chunk (c : Chunk) (written : Bool) (now : Int)
  | finish (synced : Bool)
  | rename (ok : Bool)
  | catalogue (ok : Bool) (now : Int)
  | forget (ok : Bool)
  | hangUp

inductive Action where
  | put (auth : Except ServerError Unit) (blob : Text) (headers : Headers) (path : Text) (old : List Text)
  /-- `removed` says whether the file can be removed, should the upload end with this step. -/
  | next (n : Nat) (op : Op) (removed : Bool)
  | createDetached (path : Text) (ok : Bool) (now : Int)
  | putRoot (auth : Except ServerError Unit) (headers : Headers) (body : List Chunk)
  /-- A collection takes a blob. -/
  | remove (hash : Text)
  | crash

def Phase.path : Phase → Text
  | .opening path | .created path _ => path
  | .receiving stager => stager.path
  | .staged file | .renamed file _ | .catalogued file => file.path

/-- The file of an upload is dropped with it, if it is still there. That it cannot be removed is ignored. -/
def Sys.drop (s : Sys) (n : Nat) (path : Text) (removed : Bool) : Sys :=
  if removed then { s with staging := s.staging.erase path, puts := s.puts.eraseIdx n }
  else { s with puts := s.puts.eraseIdx n, kept := path :: s.kept }

/-- A file is created, if the disk lets it be. -/
def createFile (staging : Table BlobFile) (path : Text) (ok : Bool) (now : Int) : Table BlobFile :=
  if ok then staging.insert path ⟨[], now⟩ else staging

def sweepStale (old : List Text) (staging : Table BlobFile) : Table BlobFile := old.foldl (fun t path => t.erase path) staging

/-- A write reaches the file, unless it was swept. -/
def writeFile (staging : Table BlobFile) (stager : Stager) (now : Int) : Table BlobFile :=
  if (staging.lookup stager.path).isSome then staging.insert stager.path ⟨stager.out, now⟩ else staging

/-- The `n`-th upload, `p`, takes a step that its phase has. -/
def advance (s : Sys) (n : Nat) (p : Put) (removed : Bool) : Phase → Op → Option Sys
  | .opening path, .create ok now => some { s with
      staging := createFile s.staging path ok now
      puts := s.puts.set n { p with phase := .created path ok } }
  | .opening path, .hangUpOpening => some { s with
      puts := s.puts.eraseIdx n
      detached := path :: s.detached
      abandoned := path :: s.abandoned }
  | .created path ok, .resume =>
    if ok then some { s with puts := s.puts.set n { p with phase := .receiving (.new path maxBlobBytes false) } }
    else some { s with puts := s.puts.eraseIdx n }
  | .created path _, .hangUpOpening => some { s with puts := s.puts.eraseIdx n, abandoned := path :: s.abandoned }
  | .receiving stager, .chunk (.error _) _ _ => some (s.drop n stager.path removed)
  | .receiving stager, .chunk (.ok chunk) written now =>
    match stager.write chunk written with
    | .error _ => some (s.drop n stager.path removed)
    | .ok stager => some { s with
        staging := writeFile s.staging stager now
        puts := s.puts.set n { p with phase := .receiving stager } }
  | .receiving stager, .finish synced =>
    match stager.finish synced with
    | .error _ => some (s.drop n stager.path removed)
    | .ok file =>
      match GoogHash.check p.expected file.crc with
      | .error _ => some (s.drop n stager.path removed)
      | .ok _ => some { s with puts := s.puts.set n { p with phase := .staged file } }
  | .receiving stager, .hangUp => some (s.drop n stager.path removed)
  | .staged file, .rename ok =>
    match s.staging.lookup file.path, ok && isValidHash p.blob with
    | some f, true => some { s with
        staging := s.staging.erase file.path
        store := s.store.writeFile p.blob f.bytes f.modified
        puts := s.puts.set n { p with phase := .renamed file f.bytes.length }
        landed := ⟨p.blob, p.header, file.content⟩ :: s.landed }
    | _, _ => some (s.drop n file.path removed)
  | .renamed file size, .catalogue ok now =>
    if ok then some { s with
      store := s.store.catalogue p.blob size now
      puts := s.puts.set n { p with phase := .catalogued file } }
    else some (s.drop n file.path removed)
  | .catalogued file, .forget ok =>
    if ok then some { s with store := s.store.forgetIndex p.blob, puts := s.puts.eraseIdx n }
    else some (s.drop n file.path removed)
  | _, _ => none

def step (s : Sys) : Action → Option Sys
  | .put auth blob headers path old =>
    if blob = rootBlob ∨ path ∈ s.named then none
    else match blobRequest auth blob headers with
    | .error _ => some s
    | .ok expected => some { s with
      staging := sweepStale old s.staging
      puts := ⟨blob, headers.googHash, expected, .opening path⟩ :: s.puts
      named := path :: s.named }
  | .next n op removed => s.puts[n]?.bind fun p => advance s n p removed p.phase op
  | .createDetached path ok now =>
    if path ∈ s.detached then some { s with
      staging := createFile s.staging path ok now
      detached := s.detached.erase path }
    else none
  | .putRoot auth headers body => some { s with store := (blobPutRoot s.store auth headers body).1 }
  | .remove hash => some { s with store := (s.store.removeFile hash).dropRow hash }
  | .crash => some { s with puts := [], detached := [], stranded := s.staging.keys ++ s.stranded }

/-- A process on a store, with nothing staged. -/
def start (store : State) : Sys := ⟨∅, store, [], [], [], [], [], [], []⟩

/-! ## The staging directory -/

/-- The file of a path, if there is one, holds `content`. -/
def Holds (staging : Table BlobFile) (path : Text) (content : Bytes) : Prop :=
  ∀ f, staging.lookup path = some f → f.bytes = content

/-- What is known of an upload: its counters are those of what it wrote, and its file holds that. -/
def PhaseOk (staging : Table BlobFile) (expected : Option GoogHash) : Phase → Prop
  | .opening path => staging.lookup path = none
  | .created path ok => Holds staging path [] ∧ (ok = false → staging.lookup path = none)
  | .receiving stager => stager = .of stager.path maxBlobBytes false stager.out ∧ stager.out.length ≤ maxBlobBytes ∧
      Holds staging stager.path stager.out
  | .staged file => file = .of file.path false file.content ∧ file.content.length ≤ maxBlobBytes ∧
      (∀ e, expected = some e → e.crc = crc32c file.content) ∧ Holds staging file.path file.content
  | .renamed file _ | .catalogued file => staging.lookup file.path = none

structure PutOk (staging : Table BlobFile) (p : Put) : Prop where
  valid : isValidHash p.blob = true
  header : GoogHash.fromHeaders p.header = .ok p.expected
  phase : PhaseOk staging p.expected p.phase

def Put.path (p : Put) : Text := p.phase.path

/-- Every staged file is that of one upload in progress, or a stray. -/
structure Housed (staging : Table BlobFile) (puts : List Put) (detached named strays : List Text) : Prop where
  ok : ∀ p ∈ puts, PutOk staging p
  distinct : (puts.map Put.path).Nodup
  drawn : ∀ p ∈ puts, p.path ∈ named
  apart : ∀ path ∈ detached, path ∈ named ∧ path ∈ strays ∧ path ∉ puts.map Put.path
  files : ∀ path f, staging.lookup path = some f → path ∈ named ∧ (path ∈ puts.map Put.path ∨ path ∈ strays)

theorem phaseOk_congr {staging staging' : Table BlobFile} {expected : Option GoogHash} {phase : Phase}
    (h : staging'.lookup phase.path = staging.lookup phase.path) (hok : PhaseOk staging expected phase) :
    PhaseOk staging' expected phase := by
  have hholds : ∀ content, Holds staging phase.path content → Holds staging' phase.path content := by
    intro content hc f hf
    exact hc f (h ▸ hf)
  cases phase with
  | opening path => exact h.trans hok
  | created path ok => exact ⟨hholds _ hok.1, fun hfailed => h.trans (hok.2 hfailed)⟩
  | receiving stager => exact ⟨hok.1, hok.2.1, hholds _ hok.2.2⟩
  | staged file => exact ⟨hok.1, hok.2.1, hok.2.2.1, hholds _ hok.2.2.2⟩
  | renamed file size => exact h.trans hok
  | catalogued file => exact h.trans hok

theorem putOk_congr {staging staging' : Table BlobFile} {p : Put} (h : staging'.lookup p.path = staging.lookup p.path)
    (hok : PutOk staging p) : PutOk staging' p := ⟨hok.valid, hok.header, phaseOk_congr h hok.phase⟩

/-- A file that is gone is no obstacle to an upload. -/
theorem phaseOk_of_none {staging staging' : Table BlobFile} {expected : Option GoogHash} {phase : Phase}
    (h : staging'.lookup phase.path = none) (hok : PhaseOk staging expected phase) :
    PhaseOk staging' expected phase := by
  have hholds : ∀ content, Holds staging' phase.path content := by
    intro content f hf
    rw [h] at hf
    cases hf
  cases phase with
  | opening path => exact h
  | created path ok => exact ⟨hholds _, fun _ => h⟩
  | receiving stager => exact ⟨hok.1, hok.2.1, hholds _⟩
  | staged file => exact ⟨hok.1, hok.2.1, hok.2.2.1, hholds _⟩
  | renamed file size => exact h
  | catalogued file => exact h

variable {staging staging' : Table BlobFile} {puts : List Put} {detached named strays : List Text} {n : Nat} {p : Put}

theorem Housed.mono (h : Housed staging puts detached named strays) {strays' : List Text} (hsub : strays ⊆ strays') :
    Housed staging puts detached named strays' :=
  ⟨h.ok, h.distinct, h.drawn, fun path hpath => ⟨(h.apart path hpath).1, hsub (h.apart path hpath).2.1,
    (h.apart path hpath).2.2⟩, fun path f hf => ⟨(h.files path f hf).1, (h.files path f hf).2.imp_right (@hsub _)⟩⟩

/-- The other uploads have other files. -/
theorem Housed.path_not_mem (h : Housed staging puts detached named strays) (hn : puts[n]? = some p) :
    p.path ∉ (puts.eraseIdx n).map Put.path := by
  have hperm := (perm_cons_eraseIdx hn).map Put.path
  have hnodup := hperm.nodup_iff.mp h.distinct
  rw [List.map_cons, List.nodup_cons] at hnodup
  exact hnodup.1

theorem Housed.path_ne (h : Housed staging puts detached named strays) (hn : puts[n]? = some p) {q : Put}
    (hq : q ∈ puts.eraseIdx n) : q.path ≠ p.path :=
  fun he => h.path_not_mem hn (he ▸ List.mem_map_of_mem hq)

/-- An upload goes on, and touches no file but its own. -/
theorem Housed.set (h : Housed staging puts detached named strays) (hn : puts[n]? = some p) {p' : Put}
    (hpath : p'.path = p.path) (hp' : PutOk staging' p')
    (hothers : ∀ k, k ≠ p.path → staging'.lookup k = staging.lookup k) :
    Housed staging' (puts.set n p') detached named strays := by
  have hpaths : (puts.set n p').map Put.path = puts.map Put.path := by
    have hget : (puts.map Put.path)[n]? = some p.path := by simp [hn]
    obtain ⟨hlt, he⟩ := List.getElem?_eq_some_iff.mp hget
    rw [List.map_set, hpath, ← he, List.set_getElem_self]
  refine ⟨fun q hq => ?_, ?_, fun q hq => ?_, fun path hin => ?_, fun path f hf => ?_⟩
  · have hmem := (set_perm_cons_eraseIdx hn p').mem_iff.mp hq
    rcases List.mem_cons.mp hmem with rfl | hq
    · exact hp'
    · exact putOk_congr (hothers _ (h.path_ne hn hq)) (h.ok q (List.mem_of_mem_eraseIdx hq))
  · rw [hpaths]
    exact h.distinct
  · have hq : q.path ∈ puts.map Put.path := hpaths ▸ List.mem_map_of_mem hq
    obtain ⟨r, hr, he⟩ := List.mem_map.mp hq
    exact he ▸ h.drawn r hr
  · rw [hpaths]
    exact h.apart path hin
  · rw [hpaths]
    by_cases he : path = p.path
    · have hp := mem_of_getElem? hn
      exact he ▸ ⟨h.drawn p hp, .inl (List.mem_map_of_mem hp)⟩
    · rw [hothers path he] at hf
      exact h.files path f hf

/-- An upload ends, and its file is a stray. -/
theorem Housed.leave (h : Housed staging puts detached named strays) (hn : puts[n]? = some p) :
    Housed staging (puts.eraseIdx n) detached named (p.path :: strays) := by
  have hperm := (perm_cons_eraseIdx hn).map Put.path
  refine ⟨fun q hq => h.ok q (List.mem_of_mem_eraseIdx hq), ?_, fun q hq => h.drawn q (List.mem_of_mem_eraseIdx hq),
    fun path hin => ?_, fun path f hf => ?_⟩
  · have hnodup := hperm.nodup_iff.mp h.distinct
    rw [List.map_cons, List.nodup_cons] at hnodup
    exact hnodup.2
  · obtain ⟨hnamed, hstray, hnot⟩ := h.apart path hin
    refine ⟨hnamed, List.mem_cons_of_mem _ hstray, fun hmem => hnot ?_⟩
    exact hperm.mem_iff.mpr (List.mem_cons_of_mem _ hmem)
  · obtain ⟨hnamed, hmem | hmem⟩ := h.files path f hf
    · rw [hperm.mem_iff, List.map_cons, List.mem_cons] at hmem
      exact ⟨hnamed, hmem.symm.imp_right fun he => List.mem_cons.mpr (.inl he)⟩
    · exact ⟨hnamed, .inr (List.mem_cons_of_mem _ hmem)⟩

/-- A stray without a file is none. -/
theorem Housed.of_cons (h : Housed staging puts detached named (p.path :: strays))
    (hgone : staging.lookup p.path = none) (hapart : p.path ∉ detached) :
    Housed staging puts detached named strays := by
  refine ⟨h.ok, h.distinct, h.drawn, fun path hin => ?_, fun path f hf => ?_⟩
  · obtain ⟨hnamed, hstray, hnot⟩ := h.apart path hin
    exact ⟨hnamed, (List.mem_cons.mp hstray).resolve_left fun he => hapart (he ▸ hin), hnot⟩
  · obtain ⟨hnamed, hmem⟩ := h.files path f hf
    refine ⟨hnamed, hmem.imp_right fun hstray => (List.mem_cons.mp hstray).resolve_left fun he => ?_⟩
    rw [he, hgone] at hf
    cases hf

theorem Housed.erase (h : Housed staging puts detached named strays) (path : Text) :
    Housed (staging.erase path) puts detached named strays := by
  refine ⟨fun q hq => ?_, h.distinct, h.drawn, h.apart, fun k f hf => ?_⟩
  · have hok := h.ok q hq
    by_cases he : q.path = path
    · refine ⟨hok.valid, hok.header, phaseOk_of_none ?_ hok.phase⟩
      change (staging.erase path).lookup q.path = none
      rw [he, AList.lookup_erase]
    · exact putOk_congr (AList.lookup_erase_ne he) hok
  · rw [lookup_erase_ite] at hf
    split at hf
    · cases hf
    · exact h.files k f hf

/-- An upload ends without a file. -/
theorem Housed.end (h : Housed staging puts detached named strays) (hn : puts[n]? = some p)
    (hgone : staging.lookup p.path = none) : Housed staging (puts.eraseIdx n) detached named strays :=
  (h.leave hn).of_cons hgone fun hin => (h.apart p.path hin).2.2 (List.mem_map_of_mem (mem_of_getElem? hn))

/-- An upload ends, and its file with it. -/
theorem Housed.drop (h : Housed staging puts detached named strays) (hn : puts[n]? = some p) :
    Housed (staging.erase p.path) (puts.eraseIdx n) detached named strays :=
  (h.erase p.path).end hn (AList.lookup_erase _ _)

/-- The file of an upload that is gone is still to be created. -/
theorem Housed.detach (h : Housed staging puts detached named strays) (hn : puts[n]? = some p) :
    Housed staging (puts.eraseIdx n) (p.path :: detached) named (p.path :: strays) := by
  have hleft := h.leave hn
  refine ⟨hleft.ok, hleft.distinct, hleft.drawn, fun path hin => ?_, hleft.files⟩
  rcases List.mem_cons.mp hin with rfl | hin
  · exact ⟨h.drawn p (mem_of_getElem? hn), List.mem_cons_self, h.path_not_mem hn⟩
  · exact hleft.apart path hin

theorem lookup_createFile_ne {path k : Text} (hk : k ≠ path) (ok : Bool) (now : Int) :
    (createFile staging path ok now).lookup k = staging.lookup k := by
  cases ok with
  | true => exact AList.lookup_insert_ne hk
  | false => rfl

/-- It is created, and belongs to none of the uploads. -/
theorem Housed.createDetached (h : Housed staging puts detached named strays) {path : Text} (hpath : path ∈ detached)
    (ok : Bool) (now : Int) : Housed (createFile staging path ok now) puts (detached.erase path) named strays := by
  obtain ⟨hnamed, hstray, hnot⟩ := h.apart path hpath
  refine ⟨fun q hq => ?_, h.distinct, h.drawn, fun k hk => h.apart k (List.mem_of_mem_erase hk), fun k f hf => ?_⟩
  · refine putOk_congr (lookup_createFile_ne (fun he => hnot ?_) ok now) (h.ok q hq)
    exact he ▸ List.mem_map_of_mem hq
  · by_cases he : k = path
    · exact he ▸ ⟨hnamed, .inr hstray⟩
    · rw [lookup_createFile_ne he] at hf
      exact h.files k f hf

theorem Housed.sweep (h : Housed staging puts detached named strays) (old : List Text) :
    Housed (sweepStale old staging) puts detached named strays := by
  unfold sweepStale
  induction old generalizing staging with
  | nil => exact h
  | cons path old ih => exact ih (h.erase path)

/-- A new upload with a name of its own. -/
theorem Housed.cons (h : Housed staging puts detached named strays) (hpath : p.path ∉ named) (hp : PutOk staging p) :
    Housed staging (p :: puts) detached (p.path :: named) strays := by
  refine ⟨fun q hq => ?_, ?_, fun q hq => ?_, fun k hk => ?_, fun k g hg => ?_⟩
  · rcases List.mem_cons.mp hq with rfl | hq
    · exact hp
    · exact h.ok q hq
  · rw [List.map_cons, List.nodup_cons]
    refine ⟨fun hmem => ?_, h.distinct⟩
    obtain ⟨q, hq, he⟩ := List.mem_map.mp hmem
    exact hpath (he ▸ h.drawn q hq)
  · rcases List.mem_cons.mp hq with rfl | hq
    · exact List.mem_cons_self
    · exact List.mem_cons_of_mem _ (h.drawn q hq)
  · obtain ⟨hnamed, hstray, hnot⟩ := h.apart k hk
    refine ⟨List.mem_cons_of_mem _ hnamed, hstray, fun hmem => ?_⟩
    rcases List.mem_cons.mp hmem with rfl | hmem
    · exact hpath hnamed
    · exact hnot hmem
  · obtain ⟨hnamed, hmem⟩ := h.files k g hg
    exact ⟨List.mem_cons_of_mem _ hnamed, hmem.imp_left (List.mem_cons_of_mem _)⟩

theorem Housed.crash (h : Housed staging puts detached named strays) :
    Housed staging [] [] named (staging.keys ++ strays) := by
  refine ⟨by simp, by simp, by simp, by simp, fun k f hf => ?_⟩
  refine ⟨(h.files k f hf).1, .inr (List.mem_append_left _ ?_)⟩
  apply AList.mem_keys.mp
  apply AList.lookup_isSome.mp
  rw [hf]
  rfl

/-! ## The store -/

/-- The bytes of a file that landed are what its checksum promised. -/
structure LandedOk (l : Landed) : Prop where
  valid : isValidHash l.blob = true
  short : l.content.length ≤ maxBlobBytes
  checked : ∃ expected, GoogHash.fromHeaders l.header = .ok expected ∧ ∀ e, expected = some e → e.crc = crc32c l.content

/-- A blob is the newest file that landed under its hash, or was there before. -/
structure Intact (before files : Table BlobFile) (landed : List Landed) : Prop where
  ok : ∀ l ∈ landed, LandedOk l
  newest : ∀ hash f, files.lookup hash = some f →
    match landed.find? (·.blob = hash) with
    | some l => f.bytes = l.content
    | none => before.lookup hash = some f

theorem Intact.land {before files : Table BlobFile} {landed : List Landed} (h : Intact before files landed) {l : Landed}
    (hl : LandedOk l) (modified : Int) : Intact before (files.insert l.blob ⟨l.content, modified⟩) (l :: landed) := by
  refine ⟨fun k hk => ?_, fun hash f hf => ?_⟩
  · rcases List.mem_cons.mp hk with rfl | hk
    · exact hl
    · exact h.ok k hk
  · by_cases he : l.blob = hash
    · rw [← he, AList.lookup_insert] at hf
      cases hf
      simp [he]
    · rw [AList.lookup_insert_ne (Ne.symm he)] at hf
      simpa [he] using h.newest hash f hf

theorem Intact.remove {before files : Table BlobFile} {landed : List Landed} (h : Intact before files landed) (hash : Text) :
    Intact before (files.erase hash) landed := by
  refine ⟨h.ok, fun k f hf => ?_⟩
  rw [lookup_erase_ite] at hf
  split at hf
  · cases hf
  · exact h.newest k f hf

structure Inv (before : Table BlobFile) (s : Sys) : Prop where
  housed : Housed s.staging s.puts s.detached s.named s.strays
  intact : Intact before s.store.files s.landed

variable {before : Table BlobFile} {s s' : Sys}

theorem Inv.drop (h : Inv before s) (hn : s.puts[n]? = some p) (removed : Bool) :
    Inv before (s.drop n p.path removed) := by
  cases removed with
  | true => exact ⟨h.housed.drop hn, h.intact⟩
  | false =>
    refine ⟨(h.housed.leave hn).mono fun path hpath => ?_, h.intact⟩
    simp only [Sys.drop, Sys.strays, Bool.false_eq_true, if_false, List.mem_append, List.mem_cons] at hpath ⊢
    tauto

/-- The file is created, for the upload that waits for it. -/
theorem Inv.create (h : Inv before s) (hn : s.puts[n]? = some p) {path : Text} (hphase : p.phase = .opening path)
    (ok : Bool) (now : Int) :
    Inv before { s with
      staging := createFile s.staging path ok now, puts := s.puts.set n { p with phase := .created path ok } } := by
  have hok := h.housed.ok p (mem_of_getElem? hn)
  have hgone := hok.phase
  rw [hphase] at hgone
  have hpath : p.path = path := congrArg Phase.path hphase
  refine ⟨h.housed.set hn hpath.symm ⟨hok.valid, hok.header, fun f hf => ?_, fun hfailed => ?_⟩ fun k hk => ?_,
    h.intact⟩
  · cases ok with
    | true =>
      rw [createFile, if_pos rfl, AList.lookup_insert] at hf
      cases hf
      rfl
    | false => exact absurd (hgone.symm.trans hf) nofun
  · subst hfailed
    exact hgone
  · exact lookup_createFile_ne (hpath ▸ hk) ok now

/-- The client hangs up while the upload waits for its file. -/
theorem Inv.abandon (h : Inv before s) (hn : s.puts[n]? = some p) :
    Inv before { s with puts := s.puts.eraseIdx n, abandoned := p.path :: s.abandoned } ∧
      Inv before { s with
        puts := s.puts.eraseIdx n, detached := p.path :: s.detached, abandoned := p.path :: s.abandoned } := by
  have hstrays : p.path :: s.strays ⊆ s.stranded ++ s.kept ++ p.path :: s.abandoned := by
    intro path hpath
    simp only [Sys.strays, List.mem_append, List.mem_cons] at hpath ⊢
    tauto
  exact ⟨⟨(h.housed.leave hn).mono hstrays, h.intact⟩, ⟨(h.housed.detach hn).mono hstrays, h.intact⟩⟩

/-- The upload hears of its file. -/
theorem Inv.resume (h : Inv before s) (hn : s.puts[n]? = some p) {path : Text} {ok : Bool}
    (hphase : p.phase = .created path ok) :
    if ok then
      Inv before { s with puts := s.puts.set n { p with phase := .receiving (.new path maxBlobBytes false) } }
    else Inv before { s with puts := s.puts.eraseIdx n } := by
  have hok := h.housed.ok p (mem_of_getElem? hn)
  have hpok := hok.phase
  rw [hphase] at hpok
  obtain ⟨hholds, hgone⟩ := hpok
  have hpath : p.path = path := congrArg Phase.path hphase
  cases ok with
  | true =>
    refine ⟨h.housed.set hn hpath.symm ⟨hok.valid, hok.header, ?_, Nat.zero_le _, hholds⟩ fun _ _ => rfl, h.intact⟩
    exact (Stager.of_nil path maxBlobBytes false).symm
  | false => exact ⟨h.housed.end hn (hpath ▸ hgone rfl), h.intact⟩

theorem lookup_writeFile_self (staging : Table BlobFile) (stager : Stager) (now : Int) :
    (writeFile staging stager now).lookup stager.path = (staging.lookup stager.path).map fun _ => ⟨stager.out, now⟩ := by
  cases h : staging.lookup stager.path <;> simp [writeFile, h]

theorem lookup_writeFile_ne {staging : Table BlobFile} {stager : Stager} {k : Text} (hk : k ≠ stager.path) (now : Int) :
    (writeFile staging stager now).lookup k = staging.lookup k := by
  rw [writeFile]
  split
  · exact AList.lookup_insert_ne hk
  · rfl

/-- A chunk, written: the file has it too, if it is still there. -/
theorem Inv.write (h : Inv before s) (hn : s.puts[n]? = some p) {stager stager' : Stager} {chunk : Bytes} {written : Bool}
    (hphase : p.phase = .receiving stager) (hwrite : stager.write chunk written = .ok stager') (now : Int) :
    Inv before { s with
      staging := writeFile s.staging stager' now, puts := s.puts.set n { p with phase := .receiving stager' } } := by
  have hok := h.housed.ok p (mem_of_getElem? hn)
  have hpok := hok.phase
  rw [hphase] at hpok
  obtain ⟨hof, -, -⟩ := hpok
  rw [hof, Stager.write_of] at hwrite
  split_ifs at hwrite with hlong hw
  cases hwrite
  have hpath : p.path = stager.path := congrArg Phase.path hphase
  refine ⟨h.housed.set hn hpath.symm ⟨hok.valid, hok.header, rfl, ?_, fun f hf => ?_⟩ fun k hk => ?_, h.intact⟩
  · simpa [Stager.of] using hlong
  · rw [lookup_writeFile_self] at hf
    obtain ⟨g, -, rfl⟩ := Option.map_eq_some_iff.mp hf
    rfl
  · exact lookup_writeFile_ne (hpath ▸ hk) now

/-- A body received whole, with the checksum it promised. -/
theorem Inv.finish (h : Inv before s) (hn : s.puts[n]? = some p) {stager : Stager} {file : Staged} {u : Unit} {synced : Bool}
    (hphase : p.phase = .receiving stager) (hfinish : stager.finish synced = .ok file) (hverify : GoogHash.check p.expected file.crc = .ok u) :
    Inv before { s with puts := s.puts.set n { p with phase := .staged file } } := by
  have hok := h.housed.ok p (mem_of_getElem? hn)
  have hpok := hok.phase
  rw [hphase] at hpok
  obtain ⟨hof, hshort, hholds⟩ := hpok
  cases synced with
  | false => cases hfinish
  | true =>
    rw [hof, Stager.finish_of] at hfinish
    cases hfinish
    have hpath : p.path = stager.path := congrArg Phase.path hphase
    refine ⟨h.housed.set hn hpath.symm ⟨hok.valid, hok.header, rfl, hshort, ?_, hholds⟩ fun _ _ => rfl, h.intact⟩
    exact GoogHash.check_eq_ok hverify

/-- The file is renamed into place, and gone from the staging directory. -/
theorem Inv.rename (h : Inv before s) (hn : s.puts[n]? = some p) {file : Staged} {f : BlobFile}
    (hphase : p.phase = .staged file) (hf : s.staging.lookup file.path = some f) :
    Inv before { s with
      staging := s.staging.erase file.path
      store := s.store.writeFile p.blob f.bytes f.modified
      puts := s.puts.set n { p with phase := .renamed file f.bytes.length }
      landed := ⟨p.blob, p.header, file.content⟩ :: s.landed } := by
  have hok := h.housed.ok p (mem_of_getElem? hn)
  have hpok := hok.phase
  rw [hphase] at hpok
  obtain ⟨-, hshort, hcrc, hholds⟩ := hpok
  have hbytes : f.bytes = file.content := hholds f hf
  have hpath : p.path = file.path := congrArg Phase.path hphase
  constructor
  · refine h.housed.set hn hpath.symm ⟨hok.valid, hok.header, ?_⟩ fun k hk => ?_
    · exact AList.lookup_erase _ _
    · exact AList.lookup_erase_ne (hpath ▸ hk)
  · have hland := h.intact.land (l := ⟨p.blob, p.header, file.content⟩) ⟨hok.valid, hshort, p.expected, hok.header, hcrc⟩ f.modified
    rw [← hbytes] at hland ⊢
    exact hland

theorem inv_advance (h : Inv before s) (hn : s.puts[n]? = some p) {phase : Phase} (hphase : p.phase = phase) {op : Op}
    {removed : Bool} (hstep : advance s n p removed phase op = some s') : Inv before s' := by
  have hdrop : ∀ path, phase.path = path → Inv before (s.drop n path removed) :=
    fun path hpath => (show p.path = path by rw [Put.path, hphase, hpath]) ▸ h.drop hn removed
  have hok := h.housed.ok p (mem_of_getElem? hn)
  have hpok := hok.phase
  have hpath : p.path = phase.path := by rw [Put.path, hphase]
  rw [hphase] at hpok
  revert hstep
  fun_cases advance s n p removed phase op with
  | case1 path ok now =>
    rintro ⟨⟩
    exact h.create hn hphase ok now
  | case2 path =>
    rintro ⟨⟩
    rw [show path = p.path from hpath.symm]
    exact (h.abandon hn).2
  | case3 path =>
    rintro ⟨⟩
    exact h.resume hn hphase
  | case4 path ok hnot =>
    rintro ⟨⟩
    simpa [hnot] using h.resume hn hphase
  | case5 path ok =>
    rintro ⟨⟩
    rw [show path = p.path from hpath.symm]
    exact (h.abandon hn).1
  | case8 stager chunk written now stager' hwrite =>
    rintro ⟨⟩
    exact h.write hn hphase hwrite now
  | case11 stager synced file hfinish u hverify =>
    rintro ⟨⟩
    exact h.finish hn hphase hfinish hverify
  | case13 file ok f hboth hf =>
    rintro ⟨⟩
    exact h.rename hn hphase hf
  | case15 file size now =>
    rintro ⟨⟩
    exact ⟨h.housed.set hn hpath.symm ⟨hok.valid, hok.header, hpok⟩ fun _ _ => rfl, h.intact⟩
  | case17 file =>
    rintro ⟨⟩
    exact ⟨h.housed.end hn (hpath ▸ hpok), h.intact⟩
  -- What fails, and a client that hangs up, drops the staged file.
  | case6 | case7 | case9 | case10 | case12 | case14 | case16 | case18 =>
    rintro ⟨⟩
    exact hdrop _ rfl
  | case19 =>
    intro hstep
    cases hstep

/-! ## The root -/

theorem bind_eq_ok {ε α β : Type} {x : Except ε α} {f : α → Except ε β} {b : β} (h : (x >>= f) = .ok b) :
    ∃ a, x = .ok a ∧ f a = .ok b := by
  cases x with
  | error e => cases h
  | ok a => exact ⟨a, rfl, h⟩

/-- A root request that passes: the whole body, its checksum, its hash and its precondition. -/
theorem rootRequest_eq_ok {auth : Except ServerError Unit} {headers : Headers} {body : List Chunk} {hash : Text}
    {generation : Option Nat} (h : rootRequest auth headers body = .ok (hash, generation)) :
    auth = .ok () ∧ isValidHash hash = true ∧ generationPrecondition headers = .ok generation ∧
      ∃ bytes expected, whole rootBodyLimit body = .ok bytes ∧ hash = ((Utf8Codec.decode bytes).map trim).getD [] ∧
        GoogHash.fromHeaders headers.googHash = .ok expected ∧ ∀ e, expected = some e → e.crc = crc32c bytes := by
  obtain ⟨u, hauth, h⟩ := bind_eq_ok h
  obtain ⟨-, -, h⟩ := bind_eq_ok h
  obtain ⟨expected, hexpected, h⟩ := bind_eq_ok h
  obtain ⟨bytes, hbytes, h⟩ := bind_eq_ok h
  obtain ⟨v, hcheck, h⟩ := bind_eq_ok h
  simp only at h
  split at h
  next hvalid =>
    obtain ⟨g, hg, h⟩ := bind_eq_ok h
    cases h
    refine ⟨hauth, hvalid, hg, bytes, expected, ?_, rfl, hexpected, GoogHash.check_eq_ok hcheck⟩
    cases hwhole : whole rootBodyLimit body with
    | error e =>
      rw [hwhole] at hbytes
      cases hbytes
    | ok b =>
      rw [hwhole] at hbytes
      exact hbytes
  · cases h

theorem blobPutRoot_files (s : State) (auth : Except ServerError Unit) (headers : Headers) (body : List Chunk) :
    (blobPutRoot s auth headers body).1.files = s.files := by
  rw [blobPutRoot]
  cases rootRequest auth headers body with
  | error e => rfl
  | ok r =>
    obtain ⟨g, -, -, he⟩ | ⟨-, store, he, hc⟩ := LiveSet.setRootIf_spec s r.1 r.2
    · simp only [he]
    · simp only [he]
      exact hc.files

theorem generationPrecondition_eq_ok {headers : Headers} {raw : Bytes} {generation : Option Nat}
    (hraw : headers.generationMatch = some raw) (h : generationPrecondition headers = .ok generation) :
    (toStr raw).bind (fun v => parseU64 (trim v)) = generation ∧ generation.isSome = true := by
  simp only [generationPrecondition, hraw] at h
  split at h
  next g hg =>
    cases h
    exact ⟨hg, rfl⟩
  · cases h

/-- Where both headers of a root upload are there, the root changes only for a body that has the checksum
and at the generation that was asked for. -/
theorem blobPutRoot_guarded (s : State) (auth : Except ServerError Unit) (headers : Headers) (body : List Chunk) :
    (∃ e, blobPutRoot s auth headers body = (s, .error e)) ∨
      ∃ s' bytes hash, blobPutRoot s auth headers body = (s', .ok (s.root.generation + 1)) ∧ auth = .ok () ∧
        whole rootBodyLimit body = .ok bytes ∧ hash = ((Utf8Codec.decode bytes).map trim).getD [] ∧
        isValidHash hash = true ∧ s'.root = ⟨⟨hash, s.root.generation + 1, s.root.schemaVersion⟩, s.root.hash⟩ ∧
        s'.files = s.files ∧
        (∀ raw, headers.generationMatch = some raw →
          (toStr raw).bind (fun v => parseU64 (trim v)) = some s.root.generation) ∧
        ∀ raw, headers.googHash = some raw → ∃ v, toStr raw = some v ∧ parseGoogHashStrict v = some (crc32c bytes) := by
  rw [blobPutRoot]
  cases hreq : rootRequest auth headers body with
  | error e => exact .inl ⟨e, rfl⟩
  | ok r =>
    obtain ⟨hash, generation⟩ := r
    obtain ⟨hauth, hvalid, hgen, bytes, expected, hwhole, hhash, hheader, hcrc⟩ := rootRequest_eq_ok hreq
    obtain ⟨g, -, -, he⟩ | ⟨hcurrent, s', he, hc⟩ := LiveSet.setRootIf_spec s hash generation
    · exact .inl ⟨.generationMismatch s.root.generation, by simp only [he, ServerError.ofStore]⟩
    · refine .inr ⟨s', bytes, hash, by simp only [he, hc.root], hauth, hwhole, hhash, hvalid, hc.root, hc.files,
        fun raw hraw => ?_, fun raw hraw => ?_⟩
      · obtain ⟨hparse, hsome⟩ := generationPrecondition_eq_ok hraw hgen
        obtain ⟨g, rfl⟩ := Option.isSome_iff_exists.mp hsome
        rw [hparse, hcurrent g rfl]
      · rw [hraw] at hheader
        obtain ⟨v, e, hv, hparse, rfl⟩ := GoogHash.fromHeaders_eq_ok hheader
        exact ⟨v, hv, hcrc e rfl ▸ hparse⟩

theorem blobRequest_eq_ok {auth : Except ServerError Unit} {blob : Text} {headers : Headers} {expected : Option GoogHash}
    (h : blobRequest auth blob headers = .ok expected) (hblob : blob ≠ rootBlob) :
    isValidHash blob = true ∧ GoogHash.fromHeaders headers.googHash = .ok expected := by
  cases auth with
  | error e => cases h
  | ok u =>
    simp only [blobRequest, checkBlobId, hblob, decide_false, Bool.false_or] at h
    cases hvalid : isValidHash blob with
    | false =>
      rw [hvalid] at h
      cases h
    | true =>
      rw [hvalid] at h
      cases hheaders : GoogHash.fromHeaders headers.googHash with
      | error e =>
        rw [hheaders] at h
        cases h
      | ok e =>
        rw [hheaders] at h
        cases hlen : checkDeclaredLength headers maxBlobBytes with
        | error e' =>
          rw [hlen] at h
          cases h
        | ok u =>
          rw [hlen] at h
          cases h
          exact ⟨rfl, rfl⟩

theorem inv_step (s : Sys) (a : Action) (s' : Sys) (h : Inv before s) (hstep : step s a = some s') : Inv before s' := by
  cases a with
  | put auth blob headers path old =>
    by_cases hguard : blob = rootBlob ∨ path ∈ s.named
    · rw [step, if_pos hguard] at hstep
      cases hstep
    rw [step, if_neg hguard] at hstep
    rw [not_or] at hguard
    cases hreq : blobRequest auth blob headers with
    | error e =>
      simp only [hreq, Option.some_inj] at hstep
      exact hstep ▸ h
    | ok expected =>
      obtain ⟨hvalid, hheader⟩ := blobRequest_eq_ok hreq hguard.1
      simp only [hreq] at hstep
      cases hstep
      have hswept := h.housed.sweep old
      have hgone : (sweepStale old s.staging).lookup path = none := by
        by_contra hne
        obtain ⟨f, hf⟩ := Option.ne_none_iff_exists'.mp hne
        exact hguard.2 (hswept.files path f hf).1
      exact ⟨hswept.cons (p := ⟨blob, headers.googHash, expected, .opening path⟩) hguard.2 ⟨hvalid, hheader, hgone⟩,
        h.intact⟩
  | next n op removed =>
    obtain ⟨p, hn, hstep⟩ := Option.bind_eq_some_iff.mp hstep
    exact inv_advance h hn rfl hstep
  | createDetached path ok now =>
    rw [step] at hstep
    split at hstep
    next hpath =>
      cases hstep
      exact ⟨h.housed.createDetached hpath ok now, h.intact⟩
    · cases hstep
  | putRoot auth headers body =>
    cases hstep
    exact ⟨h.housed, (blobPutRoot_files s.store auth headers body).symm ▸ h.intact⟩
  | remove hash =>
    cases hstep
    exact ⟨h.housed, h.intact.remove hash⟩
  | crash =>
    cases hstep
    refine ⟨h.housed.crash.mono fun path hpath => ?_, h.intact⟩
    simpa [Sys.strays, or_assoc] using hpath

theorem inv_start (store : State) : Inv store.files (start store) := by
  refine ⟨⟨by simp [start], by simp [start], by simp [start], by simp [start], fun path f hf => ?_⟩, by simp [start],
    fun hash f hf => hf⟩
  cases hf

theorem inv_run {store : State} {as : List Action} (h : run step (start store) as = some s) : Inv store.files s :=
  invariant_of_step inv_step (inv_start store) h

/-- Every blob is as it was at the start, or holds all that its newest upload sent: no more than the
limit, and not damaged in one burst since its client took the checksum. -/
theorem stored_blobs_intact {store : State} {as : List Action} (h : run step (start store) as = some s) {hash : Text}
    {f : BlobFile} (hf : s.store.files.lookup hash = some f) :
    (s.landed.find? (·.blob = hash) = none ∧ store.files.lookup hash = some f) ∨
      ∃ l, s.landed.find? (·.blob = hash) = some l ∧ f.bytes = l.content ∧ isValidHash hash = true ∧
        l.content.length ≤ maxBlobBytes ∧
        ∀ data, l.header = some (Utf8Codec.encode (formatGoogHash data)) →
          crc32c l.content = crc32c data ∧ (Crc.Burst 32 data l.content → l.content = data) := by
  have hinv := (inv_run h).intact
  have hnewest := hinv.newest hash f hf
  cases hl : s.landed.find? (·.blob = hash) with
  | none =>
    rw [hl] at hnewest
    exact .inl ⟨rfl, hnewest⟩
  | some l =>
    rw [hl] at hnewest
    have hblob : l.blob = hash := by simpa using List.find?_some hl
    obtain ⟨hvalid, hshort, expected, hexpected, hcrc⟩ := hinv.ok l (List.mem_of_find?_eq_some hl)
    refine .inr ⟨l, rfl, hnewest, hblob ▸ hvalid, hshort, fun data hdata => ?_⟩
    have hpromised : expected = some ⟨crc32c data, formatGoogHash data⟩ := by
      rw [hdata, formatGoogHash, fromHeaders_crcText] at hexpected
      exact (Except.ok.inj hexpected).symm
    have he : crc32c data = crc32c l.content := hcrc _ hpromised
    refine ⟨he.symm, fun hburst => ?_⟩
    by_contra hne
    exact crc32c_ne_of_burst hburst (Ne.symm hne) he

/-- A blob of three bytes, uploaded in two chunks under its checksum. -/
def upload : List Action :=
  [.put (.ok ()) (List.replicate 64 'a') ⟨none, some (Utf8Codec.encode (formatGoogHash [1, 2, 3])), none⟩ "u.part".toList [],
    .next 0 (.create true 0) true, .next 0 .resume true, .next 0 (.chunk (.ok [1, 2]) true 1) true,
    .next 0 (.chunk (.ok [3]) true 2) true, .next 0 (.finish true) true, .next 0 (.rename true) true,
    .next 0 (.catalogue true 3) true, .next 0 (.forget true) true]

theorem upload_stored : (run step (start (.new ∅ none [])) upload).map (fun s => s.store.files.lookup (List.replicate 64 'a')) =
    some (some ⟨[1, 2, 3], 2⟩) := by decide +kernel

theorem stored_blobs_intact_upload : ∃ s, run step (start (.new ∅ none [])) upload = some s ∧
    ((s.landed.find? (·.blob = List.replicate 64 'a') = none ∧
        (State.new ∅ none []).files.lookup (List.replicate 64 'a') = some ⟨[1, 2, 3], 2⟩) ∨
      ∃ l, s.landed.find? (·.blob = List.replicate 64 'a') = some l ∧ [1, 2, 3] = l.content ∧
        isValidHash (List.replicate 64 'a') = true ∧ l.content.length ≤ maxBlobBytes ∧
        ∀ data, l.header = some (Utf8Codec.encode (formatGoogHash data)) →
          crc32c l.content = crc32c data ∧ (Crc.Burst 32 data l.content → l.content = data)) := by
  obtain ⟨s, hs, hf⟩ := Option.map_eq_some_iff.mp upload_stored
  exact ⟨s, hs, stored_blobs_intact hs hf⟩

/-- What an upload's step adds to the records: a file that could not be removed, or one that it never heard of. -/
theorem records_advance {phase : Phase} {op : Op} {removed : Bool} (h : advance s n p removed phase op = some s') :
    s'.stranded = s.stranded ∧ (removed = true → s'.kept = s.kept) ∧
      (op ≠ .hangUpOpening → s'.abandoned = s.abandoned) := by
  have hdrop : ∀ path, (s.drop n path removed).stranded = s.stranded ∧
      (removed = true → (s.drop n path removed).kept = s.kept) ∧ (s.drop n path removed).abandoned = s.abandoned := by
    intro path
    cases removed <;> simp [Sys.drop]
  revert h
  fun_cases advance s n p removed phase op <;> intro h <;> cases h <;> simp_all

theorem records_step {a : Action} (hstep : step s a = some s') :
    (a ≠ .crash → s'.stranded = s.stranded) ∧ ((∀ n op, a ≠ .next n op false) → s'.kept = s.kept) ∧
      ((∀ n removed, a ≠ .next n .hangUpOpening removed) → s'.abandoned = s.abandoned) := by
  cases a with
  | put auth blob headers path old =>
    rw [step] at hstep
    split at hstep
    · cases hstep
    · split at hstep <;> cases hstep <;> simp
  | next n op removed =>
    obtain ⟨p, -, hstep⟩ := Option.bind_eq_some_iff.mp hstep
    obtain ⟨hstranded, hkept, habandoned⟩ := records_advance hstep
    refine ⟨fun _ => hstranded, fun hne => hkept ?_, fun hne => habandoned fun he => hne n removed (he ▸ rfl)⟩
    cases removed with
    | true => rfl
    | false => exact absurd rfl (hne n op)
  | createDetached path ok now =>
    rw [step] at hstep
    split at hstep
    · cases hstep
      simp
    · cases hstep
  | putRoot auth headers body =>
    cases hstep
    simp
  | remove hash =>
    cases hstep
    simp
  | crash =>
    cases hstep
    simp

/-- A record stays empty when no step adds to it. -/
theorem record_empty {record : Sys → List Text} {good : Action → Prop} {store : State} {as : List Action}
    (hkeeps : ∀ s a s', good a → step s a = some s' → record s' = record s) (hstart : record (start store) = [])
    (hgood : ∀ a ∈ as, good a) (h : run step (start store) as = some s) : record s = [] := by
  have hstep : ∀ s a s', record s = [] → good a → step s a = some s' → record s' = [] :=
    fun s a s' hs ha hstep => (hkeeps s a s' ha hstep).trans hs
  exact invariant_of_allGood hstep hstart (allGood_of_forall hgood) h

/-- Every staged file is that of exactly one upload in progress, unless a crash left it, it could not be removed,
or its client hung up while it was being created: no other upload that ended, however it ended, leaves a file. -/
theorem staged_files_owned {store : State} {as : List Action} (h : run step (start store) as = some s) :
    (∀ path f, s.staging.lookup path = some f →
      path ∈ s.stranded ∨ path ∈ s.kept ∨ path ∈ s.abandoned ∨
        ∃ (n : Nat) (p : Put), s.puts[n]? = some p ∧ p.path = path ∧
          ∀ (m : Nat) (q : Put), s.puts[m]? = some q → q.path = path → m = n) ∧
      (Action.crash ∉ as → s.stranded = []) ∧
      ((∀ n op, Action.next n op false ∉ as) → s.kept = []) ∧
      ((∀ n removed, Action.next n .hangUpOpening removed ∉ as) → s.abandoned = []) := by
  have hinv := (inv_run h).housed
  refine ⟨fun path f hf => ?_, fun hnone => ?_, fun hnone => ?_, fun hnone => ?_⟩
  · obtain ⟨-, hmem | hmem⟩ := hinv.files path f hf
    · obtain ⟨n, hn⟩ := List.getElem?_of_mem hmem
      rw [List.getElem?_map, Option.map_eq_some_iff] at hn
      obtain ⟨p, hp, hpath⟩ := hn
      refine .inr (.inr (.inr ⟨n, p, hp, hpath, fun m q hq hqpath => ?_⟩))
      have hlt : m < (s.puts.map Put.path).length := by
        rw [List.length_map]
        exact (List.getElem?_eq_some_iff.mp hq).1
      apply (List.getElem?_inj hlt hinv.distinct).mp
      rw [List.getElem?_map, List.getElem?_map, hq, hp, Option.map_some, Option.map_some, hpath, hqpath]
    · rw [Sys.strays, List.mem_append, List.mem_append] at hmem
      tauto
  · exact record_empty (fun s a s' ha hstep => (records_step hstep).1 ha) rfl (fun a ha he => hnone (he ▸ ha)) h
  · exact record_empty (fun s a s' ha hstep => (records_step hstep).2.1 ha) rfl
      (fun a ha n op he => hnone n op (he ▸ ha)) h
  · exact record_empty (fun s a s' ha hstep => (records_step hstep).2.2 ha) rfl
      (fun a ha n removed he => hnone n removed (he ▸ ha)) h

/-- A crash after the first chunk; then an upload whose client hangs up before its file is there, one whose file
cannot be removed when its body breaks off, and one that goes on. -/
def interrupted : List Action :=
  let put path : Action := .put (.ok ()) (List.replicate 64 'a') ⟨none, none, none⟩ path []
  upload.take 4 ++ [.crash, put "v.part".toList, .next 0 .hangUpOpening true, .createDetached "v.part".toList true 4,
    put "w.part".toList, .next 0 (.create true 5) true, .next 0 .resume true,
    .next 0 (.chunk (.error "reset".toList) true 6) false,
    put "x.part".toList, .next 0 (.create true 7) true, .next 0 .resume true, .next 0 (.chunk (.ok [7]) true 8) true]

theorem interrupted_staged : (run step (start (.new ∅ none [])) interrupted).map
      (fun s => (s.staging.keys, s.stranded, s.kept, s.abandoned)) =
    some (["x.part".toList, "w.part".toList, "v.part".toList, "u.part".toList], ["u.part".toList], ["w.part".toList],
      ["v.part".toList]) := by decide +kernel

theorem staged_files_owned_interrupted : ∃ s, run step (start (.new ∅ none [])) interrupted = some s ∧
    (∀ path f, s.staging.lookup path = some f →
      path ∈ s.stranded ∨ path ∈ s.kept ∨ path ∈ s.abandoned ∨
        ∃ (n : Nat) (p : Put), s.puts[n]? = some p ∧ p.path = path ∧
          ∀ (m : Nat) (q : Put), s.puts[m]? = some q → q.path = path → m = n) ∧
      (Action.crash ∉ interrupted → s.stranded = []) ∧
      ((∀ n op, Action.next n op false ∉ interrupted) → s.kept = []) ∧
      ((∀ n removed, Action.next n .hangUpOpening removed ∉ interrupted) → s.abandoned = []) := by
  obtain ⟨s, hs, -⟩ := Option.map_eq_some_iff.mp interrupted_staged
  exact ⟨s, hs, staged_files_owned hs⟩

end Uploads
