import RemarkableServer.Lib.Sha256
import RemarkableServer.Checksum

/-!
# Staged uploads

A body is written to a file of its own as it arrives, with its length, checksum and
first bytes taken on the way. However a body is cut into chunks, the staged file is
what the whole body would give, and reading the body into memory instead accepts and
refuses the same ones.
-/
namespace Uploads

open RustText Checksum

/-- A chunk of a body, or the text of the error that reading it gave. -/
abbrev Chunk := Except Text Bytes

/-- The headers that uploads look at. -/
structure Headers where
  contentLength : Option Bytes
  googHash : Option Bytes
  generationMatch : Option Bytes

/-- Bytes kept for magic-number checks. -/
def headLen : Nat := 16

def maxBlobBytes : Nat := 1024 * 1024 * 1024

/-- `u64::MAX`. -/
def noLimit : Nat := 18446744073709551615

/-- A fully received upload; `content` is the file's. -/
structure Staged where
  path : Text
  content : Bytes
  len : Nat
  crc : BitVec 32
  sha256 : Option Text
  head : Bytes
  deriving DecidableEq, Repr

/-- The writer; `out` is what the file was given, `sha` what the hasher took in. -/
structure Stager where
  path : Text
  out : Bytes
  len : Nat
  limit : Nat
  crc : BitVec 32
  sha : Option Bytes
  head : Bytes
  deriving DecidableEq, Repr

def tooLarge (limit : Nat) : ServerError :=
  .payloadTooLarge ("request body exceeds ".toList ++ showU64 limit ++ " bytes".toList)

def bodyReadError (e : Text) : ServerError := .badRequest ("failed to read request body: ".toList ++ e)

/-- The first bytes with those of a further chunk. -/
def takeHead (head chunk : Bytes) : Bytes :=
  if head.length < headLen then head ++ chunk.take (headLen - head.length) else head

namespace Stager

def new (path : Text) (limit : Nat) (wantSha : Bool) : Stager :=
  ⟨path, [], 0, limit, 0, if wantSha then some [] else none, []⟩

/-- `written` says whether the disk takes the chunk. -/
def write (s : Stager) (chunk : Bytes) (written : Bool) : Except ServerError Stager :=
  if s.len + chunk.length > s.limit then .error (tooLarge s.limit)
  else if written then .ok
    { s with
      out := s.out ++ chunk
      len := s.len + chunk.length
      crc := Crc.append Crc.castagnoli s.crc chunk
      sha := s.sha.map (· ++ chunk)
      head := takeHead s.head chunk }
  else .error .internal

/-- `synced` says whether the disk takes the rest and the sync. -/
def finish (s : Stager) (synced : Bool) : Except ServerError Staged :=
  if synced then .ok ⟨s.path, s.out, s.len, s.crc, s.sha.map fun data => hexEncode (Sha256.digest data), s.head⟩
  else .error .internal

/-- The chunks of a stream, each with what the disk says to it. -/
def writeAll (s : Stager) (readError : Text → ServerError) : List (Chunk × Bool) → Except ServerError Stager
  | [] => .ok s
  | (.error e, _) :: _ => .error (readError e)
  | (.ok chunk, written) :: rest => (s.write chunk written).bind fun s => s.writeAll readError rest

end Stager

def checkDeclaredLength (headers : Headers) (limit : Nat) : Except ServerError Unit :=
  let declared := (headers.contentLength.bind toStr).bind fun v => parseU64 (trim v)
  if declared.any (· > limit) then .error (tooLarge limit) else .ok ()

/-- `opened` says whether the file can be created. -/
def stageBody (headers : Headers) (body : List (Chunk × Bool)) (limit : Nat) (wantSha : Bool) (path : Text)
    (opened synced : Bool) : Except ServerError Staged :=
  (checkDeclaredLength headers limit).bind fun _ =>
    if opened then ((Stager.new path limit wantSha).writeAll bodyReadError body).bind (·.finish synced)
    else .error .internal

/-- A field of a form; its read errors are errors of the configuration. -/
def stageField (body : List (Chunk × Bool)) (wantSha : Bool) (path : Text) (opened synced : Bool) :
    Except ServerError Staged :=
  if opened then ((Stager.new path noLimit wantSha).writeAll .badRequest body).bind (·.finish synced)
  else .error .internal

/-- The loop of `read_body`. -/
def readChunks (limit : Nat) (buf : Bytes) : List Chunk → Except ServerError Bytes
  | [] => .ok buf
  | .error e :: _ => .error (bodyReadError e)
  | .ok chunk :: rest =>
    if buf.length + chunk.length > limit then .error (tooLarge limit) else readChunks limit (buf ++ chunk) rest

def readBody (headers : Headers) (body : List Chunk) (limit : Nat) : Except ServerError Bytes :=
  (checkDeclaredLength headers limit).bind fun _ => readChunks limit [] body

/-! ## The whole body -/

/-- The bytes of a body before its first read error, and that error. -/
def received : List Chunk → Bytes × Option Text
  | [] => ([], none)
  | .error e :: _ => ([], some e)
  | .ok chunk :: rest => (chunk ++ (received rest).1, (received rest).2)

/-- A body taken as a whole: too long before anything else, then unreadable. -/
def whole (limit : Nat) (body : List Chunk) : Except ServerError Bytes :=
  if limit < (received body).1.length then .error (tooLarge limit)
  else match (received body).2 with
  | some e => .error (bodyReadError e)
  | none => .ok (received body).1

/-- The staged file of a content. -/
def Staged.of (path : Text) (wantSha : Bool) (content : Bytes) : Staged :=
  ⟨path, content, content.length, crc32c content,
    if wantSha then some (hexEncode (Sha256.digest content)) else none, content.take headLen⟩

/-- The writer after it wrote `content`. -/
def Stager.of (path : Text) (limit : Nat) (wantSha : Bool) (content : Bytes) : Stager :=
  ⟨path, content, content.length, limit, crc32c content, if wantSha then some content else none, content.take headLen⟩

theorem Stager.of_nil (path : Text) (limit : Nat) (wantSha : Bool) :
    Stager.of path limit wantSha [] = Stager.new path limit wantSha := by
  simp [Stager.of, Stager.new, crc32c]

theorem takeHead_take (content chunk : Bytes) : takeHead (content.take headLen) chunk = (content ++ chunk).take headLen := by
  by_cases h : content.length < headLen
  · simp [takeHead, List.take_append, List.take_of_length_le h.le, h]
  · have hge : headLen ≤ content.length := Nat.le_of_not_lt h
    simp [takeHead, hge, List.take_append, Nat.sub_eq_zero_of_le hge]

theorem Stager.write_of (path : Text) (limit : Nat) (wantSha : Bool) (content chunk : Bytes) (written : Bool) :
    (Stager.of path limit wantSha content).write chunk written =
      if content.length + chunk.length > limit then .error (tooLarge limit)
      else if written then .ok (Stager.of path limit wantSha (content ++ chunk)) else .error .internal := by
  have hcrc : Crc.append Crc.castagnoli (crc32c content) chunk = crc32c (content ++ chunk) :=
    (Crc.append_append Crc.castagnoli 0 content chunk).symm
  simp only [Stager.write, Stager.of, takeHead_take, hcrc, List.length_append]
  cases wantSha <;> rfl

theorem Stager.finish_of (path : Text) (limit : Nat) (wantSha : Bool) (content : Bytes) :
    (Stager.of path limit wantSha content).finish true = .ok (Staged.of path wantSha content) := by
  cases wantSha <;> rfl

/-- What is written so far is a part of the whole, so it is refused when the whole is. -/
theorem whole_cons (limit : Nat) (content chunk : Bytes) (rest : List Chunk) :
    whole limit (.ok content :: .ok chunk :: rest) = whole limit (.ok (content ++ chunk) :: rest) := by
  simp [whole, received]

theorem whole_of_long {limit : Nat} {content : Bytes} (h : limit < content.length) (rest : List Chunk) :
    whole limit (.ok content :: rest) = .error (tooLarge limit) := by
  have hlong : limit < (content ++ (received rest).1).length := by
    rw [List.length_append]
    omega
  rw [whole, received, if_pos hlong]

/-- What the chunks after `content` make of it. -/
def Stager.rest (path : Text) (limit : Nat) (wantSha : Bool) (content : Bytes) (body : List (Chunk × Bool)) (synced : Bool) :
    Except ServerError Staged :=
  ((Stager.of path limit wantSha content).writeAll bodyReadError body).bind (·.finish synced)

theorem Stager.rest_cons_of_le {path : Text} {limit : Nat} {wantSha : Bool} {content chunk : Bytes}
    (h : content.length + chunk.length ≤ limit) (rest : List (Chunk × Bool)) (synced : Bool) :
    Stager.rest path limit wantSha content ((.ok chunk, true) :: rest) synced =
      Stager.rest path limit wantSha (content ++ chunk) rest synced := by
  rw [Stager.rest, writeAll, write_of, if_neg (Nat.not_lt.mpr h)]
  rfl

/-- A disk that takes everything leaves the whole body. -/
theorem Stager.rest_eq (path : Text) (limit : Nat) (wantSha : Bool) (content : Bytes) (body : List (Chunk × Bool))
    (h : content.length ≤ limit) (hdisk : ∀ c ∈ body, c.2 = true) :
    Stager.rest path limit wantSha content body true =
      (whole limit (.ok content :: body.map Prod.fst)).map (Staged.of path wantSha) := by
  induction body generalizing content with
  | nil => simp [rest, writeAll, Except.bind, finish_of, whole, received, Nat.not_lt.mpr h, Except.map]
  | cons c body ih =>
    obtain ⟨c, written⟩ := c
    cases c with
    | error e => simp [rest, writeAll, Except.bind, whole, received, Nat.not_lt.mpr h, Except.map]
    | ok chunk =>
      obtain rfl : written = true := hdisk _ List.mem_cons_self
      have hrest : ∀ c ∈ body, c.2 = true := fun c hc => hdisk c (List.mem_cons_of_mem _ hc)
      rw [List.map_cons, whole_cons]
      by_cases hlong : content.length + chunk.length > limit
      · rw [whole_of_long (by simpa using hlong), rest, writeAll, write_of, if_pos hlong]
        rfl
      · have hle : (content ++ chunk).length ≤ limit := by simpa using hlong
        rw [rest_cons_of_le (Nat.not_lt.mp hlong), ih (content ++ chunk) hle hrest]

/-- A disk that fails gives its error, or one that came before. -/
theorem Stager.rest_cases (path : Text) (limit : Nat) (wantSha : Bool) (content : Bytes) (body : List (Chunk × Bool))
    (synced : Bool) (h : content.length ≤ limit) :
    Stager.rest path limit wantSha content body synced =
        (whole limit (.ok content :: body.map Prod.fst)).map (Staged.of path wantSha) ∨
      Stager.rest path limit wantSha content body synced = .error .internal := by
  induction body generalizing content with
  | nil =>
    cases synced with
    | true => exact .inl (rest_eq path limit wantSha content [] h (by simp))
    | false => exact .inr rfl
  | cons c body ih =>
    obtain ⟨c, written⟩ := c
    cases c with
    | error e => exact .inl (by simp [rest, writeAll, Except.bind, whole, received, Nat.not_lt.mpr h, Except.map])
    | ok chunk =>
      rw [List.map_cons, whole_cons]
      by_cases hlong : content.length + chunk.length > limit
      · apply Or.inl
        rw [whole_of_long (by simpa using hlong), rest, writeAll, write_of, if_pos hlong]
        rfl
      · cases written with
        | true =>
          have hle : (content ++ chunk).length ≤ limit := by simpa using hlong
          rw [rest_cons_of_le (Nat.not_lt.mp hlong)]
          exact ih (content ++ chunk) hle
        | false =>
          apply Or.inr
          rw [rest, writeAll, write_of, if_neg hlong]
          rfl

theorem readChunks_eq (limit : Nat) (content : Bytes) (body : List Chunk) (h : content.length ≤ limit) :
    readChunks limit content body = whole limit (.ok content :: body) := by
  induction body generalizing content with
  | nil => simp [readChunks, whole, received, Nat.not_lt.mpr h]
  | cons c body ih =>
    cases c with
    | error e => simp [readChunks, whole, received, Nat.not_lt.mpr h]
    | ok chunk =>
      rw [readChunks, whole_cons]
      by_cases hlong : content.length + chunk.length > limit
      · rw [if_pos hlong, whole_of_long (by simpa using hlong)]
      · rw [if_neg hlong, ih (content ++ chunk) (by simpa using hlong)]

theorem whole_nil_cons (limit : Nat) (body : List Chunk) : whole limit (.ok [] :: body) = whole limit body := by
  simp [whole, received]

theorem stageBody_eq_rest (headers : Headers) (body : List (Chunk × Bool)) (limit : Nat) (wantSha : Bool) (path : Text)
    (opened synced : Bool) : stageBody headers body limit wantSha path opened synced =
      (checkDeclaredLength headers limit).bind fun _ =>
        if opened then Stager.rest path limit wantSha [] body synced else .error .internal := by
  rw [stageBody, Stager.rest, Stager.of_nil]

/-- However the body is cut, and whatever the disk does: the staged file is that of the whole body or
the answer is the disk's error; reading into memory accepts and refuses the same bodies. -/
theorem stageBody_whole (headers : Headers) (body : List (Chunk × Bool)) (limit : Nat) (wantSha : Bool) (path : Text)
    (opened synced : Bool) :
    let ideal := (checkDeclaredLength headers limit).bind fun _ =>
      (whole limit (body.map Prod.fst)).map (Staged.of path wantSha)
    (stageBody headers body limit wantSha path opened synced = ideal ∨
      stageBody headers body limit wantSha path opened synced = .error .internal) ∧
    ((∀ c ∈ body, c.2 = true) → opened = true → synced = true →
      stageBody headers body limit wantSha path opened synced = ideal) ∧
    (readBody headers (body.map Prod.fst) limit).map (Staged.of path wantSha) = ideal := by
  intro ideal
  have hcases := Stager.rest_cases path limit wantSha [] body synced (Nat.zero_le limit)
  rw [whole_nil_cons] at hcases
  refine ⟨?_, ?_, ?_⟩
  · rw [stageBody_eq_rest]
    cases hcheck : checkDeclaredLength headers limit with
    | error e => exact .inl (by simp [ideal, hcheck, Except.bind])
    | ok u =>
      cases opened with
      | false => exact .inr rfl
      | true => simpa [ideal, hcheck, Except.bind] using hcases
  · rintro hdisk rfl rfl
    rw [stageBody_eq_rest, Stager.rest_eq path limit wantSha [] body (Nat.zero_le limit) hdisk, whole_nil_cons]
    rfl
  · rw [readBody, readChunks_eq limit [] _ (Nat.zero_le limit), whole_nil_cons]
    cases hcheck : checkDeclaredLength headers limit with
    | error e => simp [ideal, hcheck, Except.bind, Except.map]
    | ok u => simp [ideal, hcheck, Except.bind]

end Uploads
