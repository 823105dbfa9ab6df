import RemarkableServer.Lib.Json
import RemarkableServer.Lib.Multipart

/-!
# Uploads to Google Drive

A new file goes up as a multipart body with a fixed boundary: its metadata as JSON,
then its content as it is. Nothing keeps the boundary out of the content.
-/
namespace DriveUpload

open RustText (Text hexDigit)
open Multipart

/-- `FileMetadata`: the name, and the parent folder if there is one. -/
def fileMetadata (name : Text) (parentId : Option Text) : Json :=
  .obj (("name".toList, .str name) :: (parentId.map fun p => ("parents".toList, Json.arr [.str p])).toList)

def metadataJson (name : Text) (parentId : Option Text) : Bytes := (fileMetadata name parentId).toVec

def uploadBoundary : Text := "remarkable_upload_boundary".toList

def defaultMime : Text := "application/octet-stream".toList

/-- The body that `upload_file` sends for a file that is not there yet. -/
def uploadBody (parentId : Option Text) (name : Text) (content : Bytes) (mimeType : Option Text) : Bytes :=
  let mime := mimeType.getD defaultMime
  let ascii (t : String) : Bytes := Utf8Codec.encode t.toList
  let boundary := Utf8Codec.encode uploadBoundary
  ascii "--" ++ boundary ++ ascii "\r\n" ++
    ascii "Content-Type: application/json; charset=UTF-8\r\n\r\n" ++
    metadataJson name parentId ++ ascii "\r\n" ++
    (ascii "--" ++ boundary ++ ascii "\r\n") ++
    (ascii "Content-Type: " ++ Utf8Codec.encode mime ++ ascii "\r\n\r\n") ++
    content ++ ascii "\r\n" ++
    (ascii "--" ++ boundary ++ ascii "--")

def metadataHeader : Bytes := Utf8Codec.encode "Content-Type: application/json; charset=UTF-8".toList

def contentHeader (mimeType : Option Text) : Bytes :=
  Utf8Codec.encode ("Content-Type: ".toList ++ mimeType.getD defaultMime)

/-- The body has two parts, of one header line each. -/
theorem uploadBody_eq (parentId : Option Text) (name : Text) (content : Bytes) (mimeType : Option Text) :
    uploadBody parentId name content mimeType =
      encode (Utf8Codec.encode uploadBoundary)
        [(metadataHeader, metadataJson name parentId), (contentHeader mimeType, content)] := by
  have hdashes : Utf8Codec.encode "--".toList = dashes := by decide
  have hcrlf : Utf8Codec.encode "\r\n".toList = crlf := by decide
  have htwo : Utf8Codec.encode "\r\n\r\n".toList = crlf ++ crlf := by decide
  have hmeta : Utf8Codec.encode "Content-Type: application/json; charset=UTF-8\r\n\r\n".toList =
      metadataHeader ++ (crlf ++ crlf) := by decide +kernel
  have hcontent : contentHeader mimeType =
      Utf8Codec.encode "Content-Type: ".toList ++ Utf8Codec.encode (mimeType.getD defaultMime) := by
    rw [contentHeader, Utf8Codec.encode_append]
  simp only [uploadBody, encode, block, hdashes, hcrlf, htwo, hmeta, hcontent]
  simp

/-! ## Line breaks -/

theorem hexDigit_ne_cr : ∀ n < 16, '\r' ≠ hexDigit n := by decide

/-- An escaped character is no line break. -/
theorem cr_not_mem_escape (c : Char) : '\r' ∉ Json.escape c := by
  by_cases hc : c = '\r'
  · rw [hc]
    decide
  · intro h
    simp only [Json.escape, hc, if_false] at h
    split_ifs at h
    all_goals try simp at h
    · have hhigh := hexDigit_ne_cr (c.toNat / 16) (by omega)
      have hlow := hexDigit_ne_cr (c.toNat % 16) (by omega)
      simp_all
    · exact hc h.symm

theorem cr_not_mem_quote (t : Text) : '\r' ∉ Json.quote t := by
  simp [Json.quote, cr_not_mem_escape]

theorem cr_not_mem_metadata (name : Text) (parentId : Option Text) :
    '\r' ∉ (fileMetadata name parentId).compact := by
  cases parentId with
  | none => simp [fileMetadata, Json.compact, Json.compactMembers, cr_not_mem_quote]
  | some p =>
    simp [fileMetadata, Json.compact, Json.compactMembers, Json.compactElements, cr_not_mem_quote]

/-- The encoded text has a carriage return only if the text has one. -/
theorem cr_not_mem_encode {t : Text} (h : '\r' ∉ t) : 13 ∉ Utf8Codec.encode t := by
  intro hmem
  obtain ⟨c, hc, hn⟩ := Utf8Codec.mem_of_mem_encode hmem (by decide)
  have hcr : c = '\r' := Char.toNat_inj.mp hn
  exact h (hcr ▸ hc)

/-- A body that is one line, and does not start with a dash, holds no delimiter. -/
theorem clean_of_oneLine {boundary body : Bytes} (hcr : 13 ∉ body) (hdash : body.head? ≠ some 45) :
    Clean boundary body := by
  intro h
  rw [delimiter_eq, crlf, List.cons_append, List.infix_cons_iff] at h
  rcases h with h | h
  · cases body with
    | nil => simp at h
    | cons b body => simp_all
  · have hmem : (13 : UInt8) ∈ 10 :: body := h.subset (by simp)
    simp_all

theorem metadata_clean (name : Text) (parentId : Option Text) (boundary : Bytes) :
    Clean boundary (metadataJson name parentId) := by
  apply clean_of_oneLine
  · exact cr_not_mem_encode (cr_not_mem_metadata name parentId)
  · have hbrace : Utf8Codec.encode [Char.ofNat 0x7B] = [0x7B] := by decide
    have happ : metadataJson name parentId =
        Utf8Codec.encode [Char.ofNat 0x7B] ++
          Utf8Codec.encode ((fileMetadata name parentId).compact.drop 1) := by
      rw [metadataJson, Json.toVec, ← Utf8Codec.encode_append]
      rfl
    rw [happ, hbrace]
    simp

theorem contentHeader_headerLine {mimeType : Option Text} (hmime : '\r' ∉ mimeType.getD defaultMime) :
    HeaderLine (contentHeader mimeType) := by
  have hstart : Utf8Codec.encode "Content-Type: ".toList = 67 :: (Utf8Codec.encode "ontent-Type: ".toList) := by decide
  have happ : contentHeader mimeType =
      67 :: (Utf8Codec.encode "ontent-Type: ".toList ++ Utf8Codec.encode (mimeType.getD defaultMime)) := by
    rw [contentHeader, Utf8Codec.encode_append, hstart, List.cons_append]
  have hline : '\r' ∉ "Content-Type: ".toList ++ mimeType.getD defaultMime := by
    rw [List.mem_append, not_or]
    exact ⟨by decide, hmime⟩
  constructor
  · simp [happ]
  · exact cr_not_mem_encode hline
  · simp [happ]

theorem metadataHeader_headerLine : HeaderLine metadataHeader := by
  constructor <;> decide +kernel

/-! ## The round trip -/

/-- The two parts of the body are read back, metadata and content byte for byte, exactly if no line of the
content, its start included, begins with two dashes and the boundary. -/
theorem uploadBody_decodes_iff (parentId : Option Text) (name : Text) (content : Bytes) (mimeType : Option Text)
    (hmime : '\r' ∉ mimeType.getD defaultMime) :
    (∃ p q, decode (Utf8Codec.encode uploadBoundary) (uploadBody parentId name content mimeType) = some [p, q] ∧
        p.body = some (metadataJson name parentId) ∧ q.body = some content) ↔
      Clean (Utf8Codec.encode uploadBoundary) content := by
  have hboundary : 13 ∉ Utf8Codec.encode uploadBoundary := by decide
  have hheaders : ∀ p ∈ [(metadataHeader, metadataJson name parentId), (contentHeader mimeType, content)],
      HeaderLine p.1 := by
    simp [metadataHeader_headerLine, contentHeader_headerLine hmime]
  have hround := decode_encode_iff hboundary hheaders
  rw [← uploadBody_eq] at hround
  simp only [List.mem_cons, List.not_mem_nil, or_false, forall_eq_or_imp, forall_eq, metadata_clean, true_and,
    List.map_cons, List.map_nil] at hround
  rw [← hround]
  constructor
  · intro ⟨p, q, hread, hp, hq⟩
    exact ⟨[p, q], hread, by simp [hp, hq]⟩
  · intro ⟨read, hread, hbodies⟩
    match read with
    | [p, q] =>
      simp only [List.map_cons, List.map_nil, List.cons.injEq, and_true] at hbodies
      exact ⟨p, q, hread, hbodies.1, hbodies.2⟩
    | [] | [_] | _ :: _ :: _ :: _ => simp at hbodies

/-- The boundary within a line is content, at the start of one it is not. -/
theorem uploadBody_decodes_iff_hello :
    (∃ p q, decode (Utf8Codec.encode uploadBoundary) (uploadBody (some "root".toList) "a.txt".toList
        (Utf8Codec.encode "hello --remarkable_upload_boundary\r\n".toList) (some "text/plain".toList)) = some [p, q] ∧
      p.body = some (metadataJson "a.txt".toList (some "root".toList)) ∧
      q.body = some (Utf8Codec.encode "hello --remarkable_upload_boundary\r\n".toList)) ∧
    ¬∃ p q, decode (Utf8Codec.encode uploadBoundary) (uploadBody (some "root".toList) "a.txt".toList
        (Utf8Codec.encode "--remarkable_upload_boundary\r\n".toList) (some "text/plain".toList)) = some [p, q] ∧
      p.body = some (metadataJson "a.txt".toList (some "root".toList)) ∧
      q.body = some (Utf8Codec.encode "--remarkable_upload_boundary\r\n".toList) :=
  ⟨(uploadBody_decodes_iff (some "root".toList) "a.txt".toList _ (some "text/plain".toList) (by decide)).mpr
      (by decide +kernel),
    fun h => absurd ((uploadBody_decodes_iff (some "root".toList) "a.txt".toList _ (some "text/plain".toList)
      (by decide)).mp h) (by decide +kernel)⟩

/-- A file that holds the line of dashes and boundary is cut off there. -/
theorem uploadBody_truncates :
    ¬∀ parentId name content mimeType, '\r' ∉ Option.getD mimeType defaultMime → '\n' ∉ mimeType.getD defaultMime →
      ∃ p q, decode (Utf8Codec.encode uploadBoundary) (uploadBody parentId name content mimeType) = some [p, q] ∧
        p.body = some (metadataJson name parentId) ∧ q.body = some content := by
  intro h
  have hdirty := (uploadBody_decodes_iff none "a".toList
    (Utf8Codec.encode "x\r\n--remarkable_upload_boundary--".toList) none (by decide)).mp
      (h none "a".toList (Utf8Codec.encode "x\r\n--remarkable_upload_boundary--".toList) none (by decide) (by decide))
  revert hdirty
  decide +kernel

end DriveUpload
