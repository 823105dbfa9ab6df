import Mathlib.Data.List.Infix

/-!
# Multipart bodies

A body of several parts as RFC 2046 reads it: a delimiter is CRLF, two dashes and
the boundary, where the start of the body counts as the start of a line; what
follows the delimiter on its line is padding, and the delimiter followed by two
dashes ends the body. A part has a block of headers, an empty line and its body.
-/
namespace Multipart

abbrev Bytes := List UInt8

/-- What stands before the first occurrence of a delimiter, and what stands after it. -/
def cut (delim : Bytes) : Bytes → Option (Bytes × Bytes)
  | [] => none
  | b :: rest =>
    if delim.isPrefixOf (b :: rest) then some ([], (b :: rest).drop delim.length)
    else (cut delim rest).map fun p => (b :: p.1, p.2)

def crlf : Bytes := [13, 10]

def dashes : Bytes := [45, 45]

def delimiter (boundary : Bytes) : Bytes := crlf ++ dashes ++ boundary

structure Part where
  headers : Bytes
  body : Option Bytes
  deriving DecidableEq, Repr

def isPadding (b : UInt8) : Bool := b == 32 || b == 9

/-- What stands between two delimiters: the end of the first one's line, the headers, and after an empty
line the body. -/
def readPart (piece : Bytes) : Option Part :=
  let line := piece.dropWhile isPadding
  if !crlf.isPrefixOf line then none
  else
    let text := line.drop 2
    if crlf.isPrefixOf text then some ⟨[], some (text.drop 2)⟩
    else match cut (crlf ++ crlf) text with
    | some (headers, body) => some ⟨headers, some body⟩
    | none => some ⟨text, none⟩

/-- The parts after a delimiter, up to the closing one; `fuel` bounds their number. -/
def readParts (delim : Bytes) : Nat → Bytes → Option (List Part)
  | 0, _ => none
  | fuel + 1, rest =>
    if dashes.isPrefixOf rest then some []
    else (cut delim rest).bind fun (piece, rest) =>
      (readPart piece).bind fun part => (readParts delim fuel rest).map (part :: ·)

/-- The parts of a body; what stands before the first delimiter and after the closing one is ignored. -/
def decode (boundary body : Bytes) : Option (List Part) :=
  (cut (delimiter boundary) (crlf ++ body)).bind fun p =>
    readParts (delimiter boundary) (body.length + 1) p.2

/-- A part with one header line, from the end of the delimiter's line to its last byte. -/
def block (p : Bytes × Bytes) : Bytes := crlf ++ p.1 ++ crlf ++ crlf ++ p.2

/-- Parts of one header line each, with the closing delimiter. -/
def encode (boundary : Bytes) (parts : List (Bytes × Bytes)) : Bytes :=
  (parts.flatMap fun p => dashes ++ boundary ++ block p ++ crlf) ++ dashes ++ boundary ++ dashes

/-! ## The first occurrence -/

variable {d : UInt8} {e : Bytes}

theorem cut_cons_of_ne {b : UInt8} (h : b ≠ d) (rest : Bytes) :
    cut (d :: e) (b :: rest) = (cut (d :: e) rest).map fun p => (b :: p.1, p.2) := by
  simp [cut, List.isPrefixOf, h.symm]

theorem cut_append_of_not_mem {h : Bytes} (hd : d ∉ h) (rest : Bytes) :
    cut (d :: e) (h ++ rest) = (cut (d :: e) rest).map fun p => (h ++ p.1, p.2) := by
  induction h with
  | nil => simp
  | cons b h ih =>
    have hne : b ≠ d := by
      intro he
      simp [he] at hd
    rw [List.cons_append, cut_cons_of_ne hne, ih (by simp_all)]
    simp [Function.comp_def]

/-- A delimiter whose first byte comes only once is found behind what does not contain it. -/
theorem cut_append (hd : d ∉ e) {x : Bytes} (hx : ¬(d :: e) <:+: x) (y : Bytes) :
    cut (d :: e) (x ++ (d :: e) ++ y) = some (x, y) := by
  induction x with
  | nil => simp [cut, List.isPrefixOf_iff_prefix]
  | cons a x ih =>
    have hnot : ¬(d :: e) <+: (a :: x) ++ ((d :: e) ++ y) := by
      intro hp
      rcases List.prefix_or_prefix_of_prefix hp (List.prefix_append (a :: x) _) with h | ⟨t, ht⟩
      · exact hx h.isInfix
      · cases t with
        | nil => exact hx (by simp [← ht])
        | cons c t =>
          have hc : c = d := by
            rw [← ht, List.prefix_append_right_inj, ht, List.cons_append, List.cons_prefix_cons] at hp
            exact hp.1
          have htail : x ++ c :: t = e := (List.cons.inj ht).2
          apply hd
          simp [← htail, hc]
    have hrest : ¬(d :: e) <:+: x := fun h => hx (List.infix_cons h)
    rw [List.append_assoc] at ih ⊢
    rw [List.cons_append] at hnot ⊢
    rw [cut, if_neg (by rwa [List.isPrefixOf_iff_prefix]), ih hrest]
    rfl

/-- A delimiter that occurs is found, whatever follows, and what stands before it is a proper part. -/
theorem cut_of_infix {x : Bytes} (h : (d :: e) <:+: x) :
    ∃ before after, before <+: x ∧ before.length < x.length ∧
      ∀ y, cut (d :: e) (x ++ y) = some (before, after ++ y) := by
  induction x with
  | nil => simp at h
  | cons a x ih =>
    by_cases hp : (d :: e) <+: a :: x
    · refine ⟨[], (a :: x).drop (d :: e).length, by simp, by simp, ?_⟩
      intro y
      have hpy : (d :: e) <+: a :: (x ++ y) := hp.trans (List.prefix_append (a :: x) y)
      rw [List.cons_append, cut, if_pos (List.isPrefixOf_iff_prefix.mpr hpy), ← List.cons_append,
        List.drop_append_of_le_length hp.length_le]
    · have hx : (d :: e) <:+: x := (List.infix_cons_iff.mp h).resolve_left hp
      obtain ⟨before, after, hb, hlen, hcut⟩ := ih hx
      refine ⟨a :: before, after, by simpa using hb, by simpa using hlen, ?_⟩
      intro y
      by_cases hpy : (d :: e) <+: a :: (x ++ y)
      · exact absurd (List.prefix_of_prefix_length_le hpy (List.prefix_append (a :: x) y)
          (by have := hx.length_le; simp_all; omega)) hp
      · rw [List.cons_append, cut, if_neg (by rwa [List.isPrefixOf_iff_prefix]), hcut]
        rfl

theorem cut_cons_skip {delim : Bytes} {b : UInt8} {rest : Bytes} (h : ¬delim <+: b :: rest) :
    cut delim (b :: rest) = (cut delim rest).map fun p => (b :: p.1, p.2) := by
  rw [cut, if_neg (by rwa [List.isPrefixOf_iff_prefix])]

/-! ## Reading what was written -/

/-- One line of headers: not empty, without a carriage return, and not a line of dashes. -/
structure HeaderLine (h : Bytes) : Prop where
  nonempty : h ≠ []
  oneLine : 13 ∉ h
  noDash : h.head? ≠ some 45

/-- No line of the body starts with two dashes and the boundary. -/
def Clean (boundary body : Bytes) : Prop := ¬delimiter boundary <:+: crlf ++ body

instance (boundary body : Bytes) : Decidable (Clean boundary body) :=
  inferInstanceAs (Decidable (¬delimiter boundary <:+: crlf ++ body))

theorem delimiter_eq (boundary : Bytes) : delimiter boundary = 13 :: (10 :: 45 :: 45 :: boundary) := rfl

/-- The headers of a part hold no delimiter. -/
theorem cut_headers {h : Bytes} (hh : HeaderLine h) (boundary w : Bytes) :
    cut (delimiter boundary) (crlf ++ h ++ crlf ++ (crlf ++ w)) =
      (cut (delimiter boundary) (crlf ++ w)).map fun p => (crlf ++ h ++ crlf ++ p.1, p.2) := by
  have hfirst : ¬delimiter boundary <+: 13 :: (10 :: (h ++ (13 :: 10 :: (crlf ++ w)))) := by
    cases hc : h with
    | nil => exact absurd hc hh.nonempty
    | cons b h' =>
      have hb : 45 ≠ b := by
        intro he
        exact hh.noDash (by simp [hc, he])
      simp [delimiter_eq, hb]
  have hsecond : ¬delimiter boundary <+: 13 :: (10 :: (crlf ++ w)) := by simp [delimiter_eq, crlf]
  have hline : 13 ∉ 10 :: h := by simpa using hh.oneLine
  have hskip := cut_append_of_not_mem (e := 10 :: 45 :: 45 :: boundary) hline (13 :: 10 :: (crlf ++ w))
  calc cut (delimiter boundary) (crlf ++ h ++ crlf ++ (crlf ++ w))
      = cut (delimiter boundary) (13 :: (10 :: (h ++ (13 :: 10 :: (crlf ++ w))))) := by simp [crlf]
    _ = (cut (delimiter boundary) (crlf ++ w)).map fun p => (crlf ++ h ++ crlf ++ p.1, p.2) := by
      rw [cut_cons_skip hfirst, ← List.cons_append, delimiter_eq, hskip, ← delimiter_eq,
        cut_cons_skip hsecond, delimiter_eq, cut_cons_of_ne (by decide), ← delimiter_eq]
      simp [crlf, Function.comp_def]

/-- A part of one header line is read up to where it was cut off. -/
theorem readPart_headers {h : Bytes} (hh : HeaderLine h) (w : Bytes) :
    readPart (crlf ++ h ++ crlf ++ w) =
      some ((((cut (crlf ++ crlf) (crlf ++ w)).map fun p => (h ++ p.1, p.2)).map fun p => (⟨p.1, some p.2⟩ : Part)).getD
        ⟨h ++ crlf ++ w, none⟩) := by
  have htext : ¬crlf <+: h ++ (crlf ++ w) := by
    cases hc : h with
    | nil => exact absurd hc hh.nonempty
    | cons b h' =>
      have hb : 13 ≠ b := by
        intro he
        exact hh.oneLine (by simp [hc, he])
      simp [crlf, hb]
  have hline : (crlf ++ h ++ crlf ++ w).dropWhile isPadding = crlf ++ (h ++ (crlf ++ w)) := by simp [crlf, isPadding]
  have hskip := cut_append_of_not_mem (e := [10, 13, 10]) hh.oneLine (crlf ++ w)
  have hdelim : crlf ++ crlf = [13, 10, 13, 10] := rfl
  have hdrop : (crlf ++ (h ++ (crlf ++ w))).drop 2 = h ++ (crlf ++ w) := by simp [crlf]
  rw [readPart, hline]
  simp only [hdrop, hdelim, hskip, List.isPrefixOf_iff_prefix, htext, if_false]
  rw [if_neg (by simp)]
  cases cut [13, 10, 13, 10] (crlf ++ w) with
  | none => simp
  | some p => simp

theorem readPart_block {p : Bytes × Bytes} (hp : HeaderLine p.1) : readPart (block p) = some ⟨p.1, some p.2⟩ := by
  have hcut : cut (crlf ++ crlf) (crlf ++ (crlf ++ p.2)) = some ([], p.2) := by simp [cut, crlf, List.isPrefixOf]
  have h := readPart_headers hp (crlf ++ p.2)
  rw [hcut] at h
  simpa [block] using h

/-- A part that was cut off is not read with its whole body. -/
theorem readPart_short {h body before : Bytes} (hh : HeaderLine h) (hb : before <+: crlf ++ body)
    (hlen : before.length < (crlf ++ body).length) {part : Part} (hread : readPart (crlf ++ h ++ crlf ++ before) = some part) :
    part.body ≠ some body := by
  rw [readPart_headers hh] at hread
  match before with
  | [] =>
    simp [cut, crlf, List.isPrefixOf] at hread
    simp [← hread]
  | [b] =>
    obtain rfl : b = 13 := by simpa [crlf] using hb
    simp [cut, crlf, List.isPrefixOf] at hread
    simp [← hread]
  | b :: c :: rest =>
    obtain ⟨rfl, rfl, -⟩ : b = 13 ∧ c = 10 ∧ rest <+: body := by simpa [crlf, and_assoc] using hb
    simp [cut, crlf, List.isPrefixOf] at hread
    intro he
    simp only [← hread, Option.some.injEq] at he
    simp [crlf, he] at hlen

/-! ## Whole bodies -/

/-- What follows the delimiter before the first of the parts. -/
def following (boundary : Bytes) : List (Bytes × Bytes) → Bytes
  | [] => dashes
  | p :: parts => block p ++ delimiter boundary ++ following boundary parts

theorem encode_eq (boundary : Bytes) (parts : List (Bytes × Bytes)) :
    crlf ++ encode boundary parts = delimiter boundary ++ following boundary parts := by
  induction parts with
  | nil => simp [encode, following, delimiter]
  | cons p parts ih =>
    simp only [encode, following, delimiter, List.flatMap_cons] at ih ⊢
    simp only [List.append_assoc] at ih ⊢
    simp [← ih]

theorem not_closing (p : Bytes × Bytes) (w : Bytes) : dashes.isPrefixOf (block p ++ w) = false := by
  simp [dashes, block, crlf, List.isPrefixOf]

theorem length_le_encode (boundary : Bytes) (parts : List (Bytes × Bytes)) :
    parts.length ≤ (encode boundary parts).length := by
  induction parts with
  | nil => simp
  | cons p parts ih =>
    simp only [encode, List.flatMap_cons, List.length_append, List.length_cons, dashes, List.length_nil] at ih ⊢
    omega

section
variable {boundary : Bytes} (hb : 13 ∉ boundary)
include hb

theorem cut_following {p : Bytes × Bytes} (hp : HeaderLine p.1) (hclean : Clean boundary p.2) (parts : List (Bytes × Bytes)) :
    cut (delimiter boundary) (following boundary (p :: parts)) = some (block p, following boundary parts) := by
  have hdelim : (13 : UInt8) ∉ 10 :: 45 :: 45 :: boundary := by simpa using hb
  have hbody := cut_append hdelim hclean (following boundary parts)
  have h := cut_headers hp boundary (p.2 ++ delimiter boundary ++ following boundary parts)
  rw [← delimiter_eq] at hbody
  simp only [List.append_assoc] at h hbody
  rw [hbody] at h
  simpa [following, block] using h

/-- Parts without a delimiter in their bodies are read as they are. -/
theorem readParts_clean {parts : List (Bytes × Bytes)} (hparts : ∀ p ∈ parts, HeaderLine p.1)
    (hclean : ∀ p ∈ parts, Clean boundary p.2) {fuel : Nat} (hfuel : parts.length < fuel) :
    readParts (delimiter boundary) fuel (following boundary parts) = some (parts.map fun p => ⟨p.1, some p.2⟩) := by
  induction parts generalizing fuel with
  | nil =>
    obtain ⟨fuel, rfl⟩ := Nat.exists_eq_succ_of_ne_zero (by omega : fuel ≠ 0)
    simp [readParts, following, List.isPrefixOf, dashes]
  | cons p parts ih =>
    obtain ⟨fuel, rfl⟩ := Nat.exists_eq_succ_of_ne_zero (by omega : fuel ≠ 0)
    have hrest := ih (fun q hq => hparts q (by simp [hq])) (fun q hq => hclean q (by simp [hq]))
      (by simpa using hfuel : parts.length < fuel)
    have hp : HeaderLine p.1 := hparts p (by simp)
    have hcut := cut_following hb hp (hclean p (by simp)) parts
    rw [readParts, following, List.append_assoc, not_closing, ← List.append_assoc, ← following, hcut]
    simp [readPart_block hp, hrest]

/-- A body with a delimiter in it is not read whole. -/
theorem readParts_dirty {parts : List (Bytes × Bytes)} (hparts : ∀ p ∈ parts, HeaderLine p.1) {fuel : Nat}
    {read : List Part} (hread : readParts (delimiter boundary) fuel (following boundary parts) = some read)
    (hbodies : read.map Part.body = parts.map fun p => some p.2) : ∀ p ∈ parts, Clean boundary p.2 := by
  induction parts generalizing fuel read with
  | nil => simp
  | cons p parts ih =>
    cases fuel with
    | zero => simp [readParts] at hread
    | succ fuel =>
      have hp : HeaderLine p.1 := hparts p (by simp)
      rw [readParts, following, List.append_assoc, not_closing, ← List.append_assoc, ← following] at hread
      by_cases hclean : Clean boundary p.2
      · rw [cut_following hb hp hclean] at hread
        simp only [Option.bind_some, readPart_block hp, Bool.false_eq_true, if_false, Option.map_eq_some_iff] at hread
        obtain ⟨rest, hrest, rfl⟩ := hread
        intro q hq
        rcases List.mem_cons.mp hq with rfl | hq
        · exact hclean
        · exact ih (fun q hq => hparts q (by simp [hq])) hrest (by simpa using hbodies) q hq
      · have hinfix : 13 :: (10 :: 45 :: 45 :: boundary) <:+: crlf ++ p.2 := not_not.mp hclean
        obtain ⟨before, after, hbefore, hlen, hcut⟩ := cut_of_infix hinfix
        have hcut := hcut (delimiter boundary ++ following boundary parts)
        have hhead := cut_headers hp boundary (p.2 ++ delimiter boundary ++ following boundary parts)
        have hsame : crlf ++ p.1 ++ crlf ++ (crlf ++ (p.2 ++ delimiter boundary ++ following boundary parts)) =
            following boundary (p :: parts) := by simp [following, block]
        rw [hsame] at hhead
        rw [← delimiter_eq] at hcut
        simp only [List.append_assoc] at hhead hcut
        rw [hcut] at hhead
        rw [hhead] at hread
        simp only [Option.map_some, Option.bind_some, Bool.false_eq_true, if_false, Option.bind_eq_some_iff,
          Option.map_eq_some_iff] at hread
        obtain ⟨part, hpart, rest, -, rfl⟩ := hread
        have hne := readPart_short hp hbefore hlen (by simpa using hpart)
        simp only [List.map_cons, List.cons.injEq] at hbodies
        exact absurd hbodies.1 hne

/-- A body of parts is read back, body by body, exactly if none of them has a line that starts with two
dashes and the boundary. -/
theorem decode_encode_iff {parts : List (Bytes × Bytes)} (hparts : ∀ p ∈ parts, HeaderLine p.1) :
    (∃ read, decode boundary (encode boundary parts) = some read ∧ read.map Part.body = parts.map fun p => some p.2) ↔
      ∀ p ∈ parts, Clean boundary p.2 := by
  have hstart : cut (delimiter boundary) (crlf ++ encode boundary parts) = some ([], following boundary parts) := by
    have hdelim : (13 : UInt8) ∉ 10 :: 45 :: 45 :: boundary := by simpa using hb
    have h := cut_append (x := []) hdelim (by simp) (following boundary parts)
    rw [encode_eq]
    simpa [delimiter_eq] using h
  have hfuel : parts.length < (encode boundary parts).length + 1 := by
    have := length_le_encode boundary parts
    omega
  rw [decode, hstart]
  simp only [Option.bind_some]
  constructor
  · intro ⟨read, hread, hbodies⟩
    exact readParts_dirty hb hparts hread hbodies
  · intro hclean
    refine ⟨_, readParts_clean hb hparts hclean hfuel, ?_⟩
    simp

end

end Multipart
