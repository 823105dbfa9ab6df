import Mathlib.Data.List.Basic
import Mathlib.Data.List.DropRight
import Mathlib.Data.List.Sort

/-!
# Text operations of the Rust standard library

Strings are lists of characters. The functions follow the documented behaviour
of `str::lines`, `str::split`, `str::rsplit_once`, `str::trim`, `str::len`,
`str::eq_ignore_ascii_case`, `str::parse::<u64>`, the `Display` of an unsigned
integer, and lowercase hexadecimal of the `hex` crate.
-/
namespace RustText

abbrev Text := List Char
abbrev Bytes := List UInt8

instance : LawfulBEq Text := inferInstance

/-- Pieces between the separators; at least one, possibly empty. -/
def split (sep : Char) (t : Text) : List Text := t.splitOn sep

/-- What stands before and after the last separator. -/
def rsplitOnce (sep : Char) (t : Text) : Option (Text × Text) :=
  match t.reverse.dropWhile (· ≠ sep) with
  | [] => none
  | _ :: before => some (before.reverse, (t.reverse.takeWhile (· ≠ sep)).reverse)

/-- One trailing carriage return goes with the line feed after it. -/
def stripCr (t : Text) : Text := if t.getLast? = some '\r' then t.dropLast else t

/-- Lines end in LF or CRLF; a last line without a line feed is kept as it is, and nothing
follows a final line feed. -/
def lines (t : Text) : List Text :=
  let parts := t.splitOn '\n'
  let last := parts.getLastD []
  parts.dropLast.map stripCr ++ if last.isEmpty then [] else [last]

/-- The Unicode property White_Space. -/
def isWhitespace (c : Char) : Bool :=
  let n := c.toNat
  (0x9 ≤ n && n ≤ 0xD) || n == 0x20 || n == 0x85 || n == 0xA0 || n == 0x1680 ||
    (0x2000 ≤ n && n ≤ 0x200A) || n == 0x2028 || n == 0x2029 || n == 0x202F || n == 0x205F ||
    n == 0x3000

def trim (t : Text) : Text := (t.dropWhile isWhitespace).rdropWhile isWhitespace

/-- Decimal digits after an optional plus sign, below 2^64. -/
def parseU64 (t : Text) : Option Nat :=
  let digits := if t.head? = some '+' then t.tail else t
  if digits.isEmpty || !digits.all Char.isDigit then none
  else if Nat.ofDigitChars 10 digits 0 < UInt64.size then some (Nat.ofDigitChars 10 digits 0) else none

def showU64 (n : Nat) : Text := Nat.toDigits 10 n

/-- `str::eq_ignore_ascii_case`. -/
def eqIgnoreAsciiCase (a b : Text) : Bool := a.map Char.toLower == b.map Char.toLower

/-- The length in bytes, as UTF-8. -/
def byteLen (t : Text) : Nat := t.foldl (fun n c => n + c.utf8Size) 0

def hexDigit (n : Nat) : Char := Char.ofNat (if n < 10 then 0x30 + n else 0x57 + n)

def hexEncode (bytes : Bytes) : Text :=
  bytes.flatMap fun b => [hexDigit (b.toNat / 16), hexDigit (b.toNat % 16)]

/-- Value of a hexadecimal digit of either case. -/
def hexValue (c : Char) : Option Nat :=
  if c.isDigit then some (c.toNat - 0x30)
  else if 'a' ≤ c ∧ c ≤ 'f' then some (c.toNat - 0x57)
  else if 'A' ≤ c ∧ c ≤ 'F' then some (c.toNat - 0x37)
  else none

def hexDecode : Text → Option Bytes
  | [] => some []
  | [_] => none
  | hi :: lo :: t => do
    let h ← hexValue hi
    let l ← hexValue lo
    let bytes ← hexDecode t
    return UInt8.ofNat (h * 16 + l) :: bytes

theorem map_eq_ok {ε α β : Type} {f : α → β} {x : Except ε α} {b : β} :
    x.map f = .ok b ↔ ∃ a, x = .ok a ∧ f a = b := by
  cases x <;> simp [Except.map]

theorem splitOn_append_sep (sep : Char) (a b : Text) (h : sep ∉ a) :
    (a ++ sep :: b).splitOn sep = a :: b.splitOn sep :=
  List.splitOn_append_cons_self_of_not_mem h b

/-- No piece holds the separator. -/
theorem not_mem_of_mem_splitOn {sep : Char} {t piece : Text} (h : piece ∈ t.splitOn sep) :
    sep ∉ piece := by
  induction t generalizing piece with
  | nil =>
    rw [List.splitOn_nil, List.mem_singleton] at h
    simp [h]
  | cons c t ih =>
    rw [List.splitOn_cons_eq_if_modifyHead] at h
    split at h
    · rcases List.mem_cons.mp h with rfl | h
      · simp
      · exact ih h
    next hc =>
      obtain ⟨first, rest, hs⟩ := List.exists_cons_of_ne_nil (List.splitOn_ne_nil sep t)
      rw [hs, List.modifyHead_cons] at h
      rcases List.mem_cons.mp h with rfl | h
      · have hf : sep ∉ first := ih (by simp [hs])
        have hne : sep ≠ c := by rintro rfl; simp at hc
        simp [hne, hf]
      · exact ih (by simp [hs, h])

/-- A piece is part of the text. -/
theorem mem_of_mem_splitOn {sep c : Char} {t piece : Text} (h : piece ∈ t.splitOn sep) (hc : c ∈ piece) :
    c ∈ t := by
  induction t generalizing piece with
  | nil =>
    rw [List.splitOn_nil, List.mem_singleton] at h
    exact absurd hc (by simp [h])
  | cons d t ih =>
    rw [List.splitOn_cons_eq_if_modifyHead] at h
    split at h
    · rcases List.mem_cons.mp h with rfl | h
      · cases hc
      · exact List.mem_cons_of_mem d (ih h hc)
    · obtain ⟨first, rest, hs⟩ := List.exists_cons_of_ne_nil (List.splitOn_ne_nil sep t)
      rw [hs, List.modifyHead_cons] at h
      rcases List.mem_cons.mp h with rfl | h
      · rcases List.mem_cons.mp hc with rfl | hc
        · exact List.mem_cons_self
        · exact List.mem_cons_of_mem d (ih (by simp [hs]) hc)
      · exact List.mem_cons_of_mem d (ih (by simp [hs, h]) hc)

theorem mem_of_mem_stripCr {t : Text} {c : Char} (h : c ∈ stripCr t) : c ∈ t := by
  unfold stripCr at h
  split at h
  · exact (List.dropLast_sublist t).subset h
  · exact h

theorem stripCr_of_getLast {t : Text} (h : t.getLast? ≠ some '\r') : stripCr t = t := by
  rw [stripCr, if_neg h]

/-- No line holds a line feed. -/
theorem not_mem_of_mem_lines {t line : Text} (h : line ∈ lines t) : '\n' ∉ line := by
  have hne : t.splitOn '\n' ≠ [] := List.splitOn_ne_nil _ _
  simp only [lines, List.mem_append, List.mem_map] at h
  rcases h with ⟨part, hp, rfl⟩ | h
  · intro hc
    exact not_mem_of_mem_splitOn ((List.dropLast_sublist _).subset hp) (mem_of_mem_stripCr hc)
  · split at h
    · simp at h
    · rw [List.mem_singleton] at h
      subst h
      rw [List.getLastD_eq_getLast?, List.getLast?_eq_some_getLast hne]
      exact not_mem_of_mem_splitOn (List.getLast_mem hne)

/-- Text written line by line is read back line by line. -/
theorem lines_flatMap (ls : List Text) (hn : ∀ l ∈ ls, '\n' ∉ l)
    (hr : ∀ l ∈ ls, l.getLast? ≠ some '\r') :
    lines (ls.flatMap fun l => l ++ ['\n']) = ls := by
  have hs : (ls.flatMap fun l => l ++ ['\n']).splitOn '\n' = ls ++ [[]] := by
    clear hr
    induction ls with
    | nil => simp [List.splitOn_nil]
    | cons l ls ih =>
      rw [List.flatMap_cons, List.append_assoc, List.singleton_append,
        splitOn_append_sep _ _ _ (hn l (by simp)), ih (fun l h => hn l (by simp [h]))]
      rfl
  have hm : ls.map stripCr = ls := by
    conv_rhs => rw [← List.map_id ls]
    exact List.map_congr_left fun l h => stripCr_of_getLast (hr l h)
  simp [lines, hs, hm]

@[simp] theorem hexEncode_nil : hexEncode [] = [] := rfl

theorem hexEncode_cons (b : UInt8) (bytes : Bytes) :
    hexEncode (b :: bytes) = hexDigit (b.toNat / 16) :: hexDigit (b.toNat % 16) :: hexEncode bytes := rfl

theorem hexEncode_length (bytes : Bytes) : (hexEncode bytes).length = 2 * bytes.length := by
  induction bytes with
  | nil => rfl
  | cons b bytes ih =>
    rw [hexEncode_cons]
    simp only [List.length_cons, ih]
    omega

theorem hexValue_hexDigit : ∀ n < 16, hexValue (hexDigit n) = some n := by decide

theorem hexDecode_hexEncode (bytes : Bytes) : hexDecode (hexEncode bytes) = some bytes := by
  induction bytes with
  | nil => rfl
  | cons b bytes ih =>
    have hb := b.toNat_lt
    rw [hexEncode_cons, hexDecode, hexValue_hexDigit _ (by omega), hexValue_hexDigit _ (by omega), ih]
    simp only [Option.bind_eq_bind, Option.bind_some, Option.pure_def]
    rw [show b.toNat / 16 * 16 + b.toNat % 16 = b.toNat by omega, UInt8.ofNat_toNat]

theorem hexEncode_injective : Function.Injective hexEncode := by
  intro a b h
  have hd := congrArg hexDecode h
  rw [hexDecode_hexEncode, hexDecode_hexEncode] at hd
  exact Option.some.inj hd

/-- Text of an even number of hexadecimal digits can be decoded. -/
theorem hexDecode_of_digits (n : Nat) (t : Text) (hlen : t.length = 2 * n) (hd : ∀ c ∈ t, (hexValue c).isSome = true) :
    ∃ bytes, hexDecode t = some bytes ∧ bytes.length = n := by
  induction n generalizing t with
  | zero =>
    obtain rfl := List.length_eq_zero_iff.mp hlen
    exact ⟨[], rfl, rfl⟩
  | succ n ih =>
    match t, hlen, hd with
    | hi :: lo :: t, hlen, hd =>
      obtain ⟨bytes, hb, hl⟩ := ih t (by simpa [Nat.mul_add] using hlen) fun c hc => hd c (by simp [hc])
      obtain ⟨x, hx⟩ := Option.isSome_iff_exists.mp (hd hi (by simp))
      obtain ⟨y, hy⟩ := Option.isSome_iff_exists.mp (hd lo (by simp))
      exact ⟨_, by rw [hexDecode, hx, hy, hb]; rfl, by rw [List.length_cons, hl]⟩

theorem isDigit_not_plus {c : Char} (h : c.isDigit = true) : c ≠ '+' := by
  rintro rfl
  simp at h

/-- Every number below 2^64 is read back from its decimal form. -/
theorem parseU64_showU64 {n : Nat} (h : n < UInt64.size) : parseU64 (showU64 n) = some n := by
  have hd : ∀ c ∈ showU64 n, c.isDigit = true := fun c hc =>
    Nat.isDigit_of_mem_toDigits (by decide) (by decide) hc
  have hne : showU64 n ≠ [] := Nat.toDigits_ne_nil
  have hp : (showU64 n).head? ≠ some '+' := by
    intro hh
    exact isDigit_not_plus (hd _ (List.mem_of_head? hh)) rfl
  have hv : Nat.ofDigitChars 10 (showU64 n) 0 = n := Nat.ofDigitChars_toDigits (by decide) (by decide)
  have ha : (showU64 n).all Char.isDigit = true := List.all_eq_true.mpr hd
  have he : (showU64 n).isEmpty = false := by simpa using hne
  unfold parseU64
  dsimp only
  rw [if_neg hp, he, ha, hv, if_pos h]
  rfl

/-! ## ASCII letters -/

theorem isUpper_iff {c : Char} : c.isUpper = true ↔ 65 ≤ c.toNat ∧ c.toNat ≤ 90 := by
  change decide (65 ≤ c.val ∧ c.val ≤ 90) = true ↔ _
  rw [decide_eq_true_iff]
  rfl

theorem toLower_of_not_isUpper {c : Char} (h : ¬c.isUpper) : c.toLower = c := by
  unfold Char.toLower
  rw [dif_neg]
  exact fun hbounds => h (isUpper_iff.mpr hbounds)

theorem toNat_toLower {c : Char} (h : c.isUpper) : c.toLower.toNat = c.toNat + 32 := by
  obtain ⟨hlo, hhi⟩ := isUpper_iff.mp h
  unfold Char.toLower
  rw [dif_pos (show c.val ≥ 'A'.val ∧ c.val ≤ 'Z'.val from isUpper_iff.mp h)]
  show (c.val + 32).toNat = c.val.toNat + 32
  have hbound : c.val.toNat ≤ 90 := hhi
  have h32 : (32 : UInt32).toNat = 32 := rfl
  rw [UInt32.toNat_add]
  omega

theorem ascii_of_isUpper {c : Char} (h : c.isUpper) : c.toNat < 128 := by
  have hbound := (isUpper_iff.mp h).2
  omega

/-- Only ASCII characters have an ASCII lowercase. -/
theorem ascii_of_toLower {c : Char} (h : c.toLower.toNat < 128) : c.toNat < 128 := by
  by_cases hu : c.isUpper
  · exact ascii_of_isUpper hu
  · rwa [toLower_of_not_isUpper hu] at h

theorem not_isUpper_toLower (c : Char) : ¬c.toLower.isUpper := by
  by_cases hu : c.isUpper
  · have hlo := (isUpper_iff.mp hu).1
    rw [isUpper_iff, toNat_toLower hu]
    omega
  · rwa [toLower_of_not_isUpper hu]

/-- What is not a lowercase letter is the lowercase of itself alone. -/
theorem eq_of_toLower_eq {c d : Char} (h : c.toLower = d) (hd : d.toNat < 97) : c = d := by
  by_cases hu : c.isUpper
  · have hlo := (isUpper_iff.mp hu).1
    have hval := toNat_toLower hu
    rw [h] at hval
    omega
  · exact (toLower_of_not_isUpper hu).symm.trans h

theorem isWhitespace_toLower (c : Char) : isWhitespace c.toLower = isWhitespace c := by
  by_cases hu : c.isUpper
  · obtain ⟨hlo, hhi⟩ := isUpper_iff.mp hu
    have hval := toNat_toLower hu
    have hno : ∀ n, 65 ≤ n → n ≤ 122 → ∀ c : Char, c.toNat = n → isWhitespace c = false := by
      intro n hlo hhi c hc
      unfold isWhitespace
      rw [hc]
      simp only [Bool.or_eq_false_iff, Bool.and_eq_false_iff, decide_eq_false_iff_not, beq_eq_false_iff_ne]
      omega
    rw [hno _ (by omega) (by omega) c.toLower hval, hno _ hlo (by omega) c rfl]
  · rw [toLower_of_not_isUpper hu]

end RustText
