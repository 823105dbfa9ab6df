import RemarkableServer.Lib.Base64
import RemarkableServer.Lib.Crc
import RemarkableServer.Lib.Utf8
import RemarkableServer.Recurrence
import RemarkableServer.Store

/-!
# The checksum of a body

A body travels with its CRC-32C in `x-goog-hash`. A download carries the header in
the form `format_goog_hash` gives it; an upload's is read by the strict parser, and
refused when it is there and says nothing usable.
-/
namespace Checksum

open RustText
open Recurrence (splitOnce)
open Store (StoreError)

inductive ServerError where
  | notFound (id : Text)
  | invalidHeader (text : Text)
  | checksumMismatch (expected actual : Text)
  | invalidHash (hash : Text)
  | generationMismatch (current : Nat)
  | badRequest (text : Text)
  | payloadTooLarge (text : Text)
  | invalidToken
  | unauthorized
  /-- The disk or the database failed. -/
  | internal
  deriving DecidableEq, Repr

/-- The status of the answer. -/
def ServerError.status : ServerError → Nat
  | .notFound _ => 404
  | .invalidHeader _ | .checksumMismatch _ _ | .invalidHash _ | .badRequest _ => 400
  | .generationMismatch _ => 412
  | .payloadTooLarge _ => 413
  | .invalidToken | .unauthorized => 401
  | .internal => 500

def ServerError.ofStore : StoreError → ServerError
  | .invalidHash hash => .invalidHash hash
  | .notFound hash => .notFound hash
  | .generationMismatch current => .generationMismatch current
  | .unparsedIndex _ | .noCurrentRoot | .rootsDisagree _ _ _ => .internal

def crc32c (data : Bytes) : BitVec 32 := Crc.append Crc.castagnoli 0 data

/-- `u32::to_be_bytes`. -/
def toBeBytes (crc : BitVec 32) : Bytes :=
  [24, 16, 8, 0].map fun n => UInt8.ofNat (crc.toNat / 2 ^ n)

/-- `u32::from_be_bytes`. -/
def fromBeBytes (bytes : Bytes) : Option (BitVec 32) :=
  if bytes.length = 4 then some (BitVec.ofNat 32 (bytes.foldl (fun n b => n * 256 + b.toNat) 0)) else none

/-- `STANDARD.encode`. -/
def encode (bytes : Bytes) : Text := (Base64.encode bytes).map fun b => Char.ofNat b.toNat

/-- `STANDARD.decode`. -/
def decode (t : Text) : Option Bytes := Base64.decode (Utf8Codec.encode t)

def crcText (crc : BitVec 32) : Text := "crc32c=".toList ++ encode (toBeBytes crc)

def formatGoogHash (data : Bytes) : Text := crcText (crc32c data)

/-- The parts of the header, up to the first `crc32c` of four bytes. -/
def parseParts : List Text → Option (BitVec 32)
  | [] => none
  | part :: parts =>
    match (trim part).dropPrefix? "crc32c=".toList with
    | none => parseParts parts
    | some value =>
      match decode (trim value) with
      | none => none
      | some bytes =>
        match fromBeBytes bytes with
        | some crc => some crc
        | none => parseParts parts

def parseGoogHash (header : Text) : Option (BitVec 32) := parseParts (split ',' header)

/-- A further part of a header that is read strictly, after those that gave `crc`. -/
def strictPart (crc : Option (BitVec 32)) (part : Text) : Option (Option (BitVec 32)) :=
  (splitOnce '=' (trim part)).bind fun (key, value) =>
    if (trim key).isEmpty || (trim value).isEmpty then none
    else if eqIgnoreAsciiCase (trim key) "crc32c".toList then
      ((decode (trim value)).bind fromBeBytes).bind fun c => if crc.isSome then none else some (some c)
    else some crc

def parseGoogHashStrict (header : Text) : Option (BitVec 32) := ((split ',' header).foldlM strictPart none).join

/-! ## Headers -/

/-- What `HeaderValue::to_str` lets through. -/
def isVisibleAscii (b : UInt8) : Bool := (32 ≤ b.toNat && b.toNat < 127) || b.toNat == 9

def toStr (raw : Bytes) : Option Text :=
  if raw.all isVisibleAscii then some (raw.map fun b => Char.ofNat b.toNat) else none

/-- `{:x}` of a byte. -/
def lowerHex (b : UInt8) : Text := Nat.toDigits 16 b.toNat

/-- `{:?}` of a header value. -/
def debug (raw : Bytes) : Text :=
  '"' :: raw.flatMap (fun b =>
    if b.toNat = 34 then ['\\', '"']
    else if isVisibleAscii b then [Char.ofNat b.toNat]
    else ['\\', 'x'] ++ lowerHex b) ++ ['"']

structure GoogHash where
  crc : BitVec 32
  raw : Text
  deriving DecidableEq, Repr

namespace GoogHash

def fromHeaders : Option Bytes → Except ServerError (Option GoogHash)
  | none => .ok none
  | some raw =>
    let goog := (toStr raw).filter fun v => !(trim v).isEmpty
    match goog.bind parseGoogHashStrict with
    | none => .error (.invalidHeader
        ("x-goog-hash: ".toList ++ debug raw ++ " (expected crc32c=<base64>)".toList))
    | some crc => .ok (some ⟨crc, goog.getD []⟩)

def verify (expected : GoogHash) (actual : BitVec 32) : Except ServerError Unit :=
  if expected.crc ≠ actual then .error (.checksumMismatch expected.raw (crcText actual)) else .ok ()

/-- Nothing was promised, or it is kept. -/
def check : Option GoogHash → BitVec 32 → Except ServerError Unit
  | some expected, actual => expected.verify actual
  | none, _ => .ok ()

theorem check_eq_ok {expected : Option GoogHash} {actual : BitVec 32} {u : Unit} (h : check expected actual = .ok u) :
    ∀ e, expected = some e → e.crc = actual := by
  rintro e rfl
  by_contra hne
  simp [check, verify, hne] at h

/-- A header that is there promises what its strict parse is. -/
theorem fromHeaders_eq_ok {raw : Bytes} {expected : Option GoogHash} (h : fromHeaders (some raw) = .ok expected) :
    ∃ v e, toStr raw = some v ∧ parseGoogHashStrict v = some e.crc ∧ expected = some e := by
  simp only [fromHeaders] at h
  split at h
  · cases h
  next crc hcrc =>
    cases h
    obtain ⟨v, hv, hparse⟩ := Option.bind_eq_some_iff.mp hcrc
    exact ⟨v, _, (Option.filter_eq_some_iff.mp hv).1, hparse, rfl⟩

end GoogHash

/-- `verify_goog_hash_header`. -/
def verifyGoogHashHeader (header : Option Bytes) (body : Bytes) : Except ServerError Unit :=
  (GoogHash.fromHeaders header).bind fun expected => GoogHash.check expected (crc32c body)

def verifyChecksum (data : Bytes) (expectedHeader : Text) : Bool :=
  match parseGoogHash expectedHeader with
  | some expected => crc32c data == expected
  | none => false

example : formatGoogHash [49, 50, 51, 52, 53, 54, 55, 56, 57] = "crc32c=4waSgw==".toList := by decide +kernel

example : parseGoogHashStrict "md5=XUFAKrxLKna5cZ2REBfFkg==, crc32c=4waSgw==".toList = some 0xE3069283 ∧
    parseGoogHashStrict "crc32c=4waSgw==,crc32c=4waSgw==".toList = none ∧
    parseGoogHashStrict "crc32c=4waSgw==, =x".toList = none := by decide +kernel

/-! ## What is written can be read -/

/-- No separator, no blank, and one byte each. -/
structure Symbol (c : Char) : Prop where
  ascii : c.toNat < 128
  ne_comma : c ≠ ','
  solid : isWhitespace c = false
  visible : isVisibleAscii (UInt8.ofNat c.toNat) = true

theorem symbol_fin : ∀ n : Fin 64, Symbol (Char.ofNat (Base64.symbol n).toNat) := by
  intro n
  have h : ∀ n : Fin 64, (Char.ofNat (Base64.symbol n).toNat).toNat < 128 ∧ Char.ofNat (Base64.symbol n).toNat ≠ ',' ∧
      isWhitespace (Char.ofNat (Base64.symbol n).toNat) = false ∧
      isVisibleAscii (UInt8.ofNat (Char.ofNat (Base64.symbol n).toNat).toNat) = true := by decide +kernel
  obtain ⟨h₁, h₂, h₃, h₄⟩ := h n
  exact ⟨h₁, h₂, h₃, h₄⟩

theorem symbol_pad : Symbol (Char.ofNat Base64.pad.toNat) := by constructor <;> decide

theorem mem_base64 {bytes : Bytes} {b : UInt8} (h : b ∈ Base64.encode bytes) :
    b = Base64.pad ∨ ∃ n : Fin 64, b = Base64.symbol n := by
  induction bytes using Base64.encode.induct with
  | case1 => simp [Base64.encode] at h
  | case2 x =>
    have := x.toNat_lt
    simp only [Base64.encode, List.mem_cons, List.not_mem_nil, or_false] at h
    rcases h with rfl | rfl | rfl | rfl
    · exact .inr ⟨⟨x.toNat / 4, by omega⟩, rfl⟩
    · exact .inr ⟨⟨x.toNat % 4 * 16, by omega⟩, rfl⟩
    · exact .inl rfl
    · exact .inl rfl
  | case3 x y =>
    have := x.toNat_lt
    have := y.toNat_lt
    simp only [Base64.encode, List.mem_cons, List.not_mem_nil, or_false] at h
    rcases h with rfl | rfl | rfl | rfl
    · exact .inr ⟨⟨x.toNat / 4, by omega⟩, rfl⟩
    · exact .inr ⟨⟨x.toNat % 4 * 16 + y.toNat / 16, by omega⟩, rfl⟩
    · exact .inr ⟨⟨y.toNat % 16 * 4, by omega⟩, rfl⟩
    · exact .inl rfl
  | case4 x y z rest ih =>
    have := x.toNat_lt
    have := y.toNat_lt
    have := z.toNat_lt
    simp only [Base64.encode, List.mem_cons] at h
    rcases h with rfl | rfl | rfl | rfl | h
    · exact .inr ⟨⟨x.toNat / 4, by omega⟩, rfl⟩
    · exact .inr ⟨⟨x.toNat % 4 * 16 + y.toNat / 16, by omega⟩, rfl⟩
    · exact .inr ⟨⟨y.toNat % 16 * 4 + z.toNat / 64, by omega⟩, rfl⟩
    · exact .inr ⟨⟨z.toNat % 64, by omega⟩, rfl⟩
    · exact ih h

theorem symbol_of_mem_encode {bytes : Bytes} {c : Char} (h : c ∈ encode bytes) : Symbol c := by
  obtain ⟨b, hb, rfl⟩ := List.mem_map.mp h
  rcases mem_base64 hb with rfl | ⟨n, rfl⟩
  · exact symbol_pad
  · exact symbol_fin n

theorem utf8_encodeChar {c : Char} (h : c.toNat < 128) : String.utf8EncodeChar c = [UInt8.ofNat c.toNat] := by
  have hval : c.toNat ≤ 127 := Nat.le_of_lt_succ h
  simp [String.utf8EncodeChar, hval]

/-- Text of one byte a character, as a header holds it. -/
theorem utf8_ascii {t : Text} (h : ∀ c ∈ t, c.toNat < 128) :
    Utf8Codec.encode t = t.map fun c => UInt8.ofNat c.toNat := by
  induction t with
  | nil => rfl
  | cons c t ih =>
    rw [Utf8Codec.encode_cons, utf8_encodeChar (h c List.mem_cons_self), ih fun d hd => h d (List.mem_cons_of_mem c hd)]
    rfl

theorem trim_eq_self {t : Text} (h : ∀ c ∈ t, isWhitespace c = false) : trim t = t := by
  have hleft : t.dropWhile isWhitespace = t := by
    apply List.dropWhile_eq_self_iff.mpr
    intro hlen
    simp [h _ (List.getElem_mem hlen)]
  rw [trim, hleft]
  apply List.rdropWhile_eq_self_iff.mpr
  intro hne
  simp [h _ (List.getLast_mem hne)]

theorem decode_encode (bytes : Bytes) : decode (encode bytes) = some bytes := by
  have hascii : ∀ c ∈ encode bytes, c.toNat < 128 := fun c hc => (symbol_of_mem_encode hc).ascii
  have hbytes : Utf8Codec.encode (encode bytes) = Base64.encode bytes := by
    rw [utf8_ascii hascii, encode, List.map_map]
    apply (List.map_congr_left _).trans (List.map_id _)
    intro b _
    have hlt := b.toNat_lt
    rw [Function.comp_apply, Utf8Codec.toNat_ofNat (by omega), UInt8.ofNat_toNat, id_eq]
  rw [decode, hbytes, Base64.decode_encode]

theorem fromBeBytes_toBeBytes (crc : BitVec 32) : fromBeBytes (toBeBytes crc) = some crc := by
  have hlt := crc.isLt
  have hsum : (toBeBytes crc).foldl (fun n b => n * 256 + b.toNat) 0 = crc.toNat := by
    simp only [toBeBytes, List.map_cons, List.map_nil, List.foldl_cons, List.foldl_nil, UInt8.toNat_ofNat']
    omega
  have hlen : (toBeBytes crc).length = 4 := by simp [toBeBytes]
  rw [fromBeBytes, if_pos hlen, hsum, BitVec.ofNat_toNat, BitVec.setWidth_eq]

theorem symbol_of_mem_crcText {crc : BitVec 32} {c : Char} (h : c ∈ crcText crc) : Symbol c := by
  rcases List.mem_append.mp h with h | h
  · have hkey : "crc32c=".toList.all (fun c => decide (c.toNat < 128) && decide (c ≠ ',') && !isWhitespace c &&
        isVisibleAscii (UInt8.ofNat c.toNat)) = true := by decide
    have hc := List.all_eq_true.mp hkey c h
    simp only [Bool.and_eq_true, decide_eq_true_eq, Bool.not_eq_true'] at hc
    exact ⟨hc.1.1.1, hc.1.1.2, hc.1.2, hc.2⟩
  · exact symbol_of_mem_encode h

theorem split_crcText (crc : BitVec 32) : split ',' (crcText crc) = [crcText crc] := by
  apply List.splitOn_eq_singleton
  exact fun h => (symbol_of_mem_crcText h).ne_comma rfl

theorem trim_crcText (crc : BitVec 32) : trim (crcText crc) = crcText crc :=
  trim_eq_self fun _ hc => (symbol_of_mem_crcText hc).solid

theorem trim_encode (bytes : Bytes) : trim (encode bytes) = encode bytes :=
  trim_eq_self fun _ hc => (symbol_of_mem_encode hc).solid

theorem decode_trim_encode (bytes : Bytes) : decode (trim (encode bytes)) = some bytes := by
  rw [trim_encode, decode_encode]

theorem encode_toBeBytes_ne (crc : BitVec 32) : encode (toBeBytes crc) ≠ [] := by
  simp [encode, toBeBytes, Base64.encode]

theorem parseParts_cons {part value : Text} {bytes : Bytes} {crc : BitVec 32}
    (hdrop : (trim part).dropPrefix? "crc32c=".toList = some value) (hdecode : decode (trim value) = some bytes)
    (hbytes : fromBeBytes bytes = some crc) (parts : List Text) : parseParts (part :: parts) = some crc := by
  rw [parseParts, hdrop]
  simp only [hdecode, hbytes]

theorem dropPrefix_append (key t : Text) : (key ++ t).dropPrefix? key = some t :=
  List.dropPrefix?_append_of_beq t (by simp)

/-- The header of a checksum is read as that checksum, by both parsers. -/
theorem parseGoogHash_crcText (crc : BitVec 32) : parseGoogHash (crcText crc) = some crc := by
  have hdrop : (trim (crcText crc)).dropPrefix? "crc32c=".toList = some (encode (toBeBytes crc)) := by
    rw [trim_crcText]
    exact dropPrefix_append _ _
  rw [parseGoogHash, split_crcText]
  exact parseParts_cons hdrop (decode_trim_encode _) (fromBeBytes_toBeBytes crc) []

theorem splitOnce_append {sep : Char} {key : Text} (h : sep ∉ key) (value : Text) :
    splitOnce sep (key ++ sep :: value) = some (key, value) := by
  have hkey : ∀ c ∈ key, decide (c ≠ sep) = true := by
    intro c hc
    simp only [decide_eq_true_eq]
    rintro rfl
    exact h hc
  rw [splitOnce, if_pos (by simp), List.takeWhile_append_of_pos hkey, List.dropWhile_append_of_pos hkey]
  simp

theorem strictPart_cons {part key value : Text} {bytes : Bytes} {crc : BitVec 32}
    (hsplit : splitOnce '=' (trim part) = some (key, value)) (hkey : eqIgnoreAsciiCase (trim key) "crc32c".toList = true)
    (hne : (trim key).isEmpty = false) (hvalue : (trim value).isEmpty = false) (hdecode : decode (trim value) = some bytes)
    (hbytes : fromBeBytes bytes = some crc) : strictPart none part = some (some crc) := by
  simp only [strictPart, hsplit, Option.bind_some, hne, hvalue, hkey, hdecode, hbytes]
  rfl

theorem parseGoogHashStrict_crcText (crc : BitVec 32) : parseGoogHashStrict (crcText crc) = some crc := by
  have hkey : '=' ∉ "crc32c".toList := by decide
  have hsplit : splitOnce '=' (trim (crcText crc)) = some ("crc32c".toList, encode (toBeBytes crc)) := by
    rw [trim_crcText]
    exact splitOnce_append hkey _
  have hvalue : (trim (encode (toBeBytes crc))).isEmpty = false := by
    rw [trim_encode]
    exact List.isEmpty_eq_false_iff.mpr (encode_toBeBytes_ne crc)
  have hpart : strictPart none (crcText crc) = some (some crc) :=
    strictPart_cons hsplit (by decide) (by decide) hvalue (decode_trim_encode _) (fromBeBytes_toBeBytes crc)
  rw [parseGoogHashStrict, split_crcText, List.foldlM_cons, hpart]
  rfl

theorem toStr_crcText (crc : BitVec 32) : toStr (Utf8Codec.encode (crcText crc)) = some (crcText crc) := by
  rw [utf8_ascii fun c hc => (symbol_of_mem_crcText hc).ascii, toStr, if_pos]
  · rw [List.map_map, Option.some_inj]
    apply (List.map_congr_left _).trans (List.map_id _)
    intro c hc
    have := (symbol_of_mem_crcText hc).ascii
    rw [Function.comp_apply, UInt8.toNat_ofNat', Nat.mod_eq_of_lt (by omega), Char.ofNat_toNat, id_eq]
  · rw [List.all_map, List.all_eq_true]
    exact fun c hc => (symbol_of_mem_crcText hc).visible

theorem fromHeaders_crcText (crc : BitVec 32) :
    GoogHash.fromHeaders (some (Utf8Codec.encode (crcText crc))) = .ok (some ⟨crc, crcText crc⟩) := by
  have hne : (trim (crcText crc)).isEmpty = false := by
    rw [trim_crcText]
    rfl
  have hgoog : (toStr (Utf8Codec.encode (crcText crc))).filter (fun v => !(trim v).isEmpty) = some (crcText crc) := by
    rw [toStr_crcText, Option.filter_some, hne]
    rfl
  rw [GoogHash.fromHeaders, hgoog, Option.bind_some, parseGoogHashStrict_crcText]
  rfl

/-! ## Damage in transit -/

theorem castagnoli_top : Crc.castagnoli.getLsbD (32 - 1) = true := by decide

/-- One burst of at most 32 bits changes the checksum. -/
theorem crc32c_ne_of_burst {data body : Bytes} (h : Crc.Burst 32 data body) (hne : data ≠ body) :
    crc32c data ≠ crc32c body := Crc.append_ne_of_burst castagnoli_top 0 h hne

/-- The header of a body is read back by both parsers; it admits the bodies with the same checksum, and
no copy of the body that one burst has damaged. -/
theorem formatGoogHash_verifies (data body : Bytes) :
    parseGoogHash (formatGoogHash data) = some (crc32c data) ∧
      parseGoogHashStrict (formatGoogHash data) = some (crc32c data) ∧
      verifyChecksum body (formatGoogHash data) = (crc32c body == crc32c data) ∧
      verifyGoogHashHeader (some (Utf8Codec.encode (formatGoogHash data))) body =
        (if crc32c data = crc32c body then .ok ()
        else .error (.checksumMismatch (formatGoogHash data) (formatGoogHash body))) ∧
      (Crc.Burst 32 data body → data ≠ body →
        verifyGoogHashHeader (some (Utf8Codec.encode (formatGoogHash data))) body =
          .error (.checksumMismatch (formatGoogHash data) (formatGoogHash body))) := by
  have hverify : verifyGoogHashHeader (some (Utf8Codec.encode (formatGoogHash data))) body =
      (if crc32c data = crc32c body then .ok ()
      else .error (.checksumMismatch (formatGoogHash data) (formatGoogHash body))) := by
    rw [verifyGoogHashHeader, formatGoogHash, fromHeaders_crcText]
    change GoogHash.verify _ _ = _
    rw [GoogHash.verify]
    by_cases h : crc32c data = crc32c body <;> simp [h, formatGoogHash]
  refine ⟨parseGoogHash_crcText _, parseGoogHashStrict_crcText _, ?_, hverify, fun hburst hne => ?_⟩
  · rw [verifyChecksum, formatGoogHash, parseGoogHash_crcText]
  · rw [hverify, if_neg (crc32c_ne_of_burst hburst hne)]

end Checksum
