import Mathlib.Data.Char
import Mathlib.Data.List.Lex
import Mathlib.Data.List.Perm.Basic
import Mathlib.Data.List.Sort
import Mathlib.Data.Prod.Lex
import RemarkableServer.Lib.RustText
import RemarkableServer.Lib.Utf8

/-!
# The texts an OAuth 1.0a request is signed over

`readlater.rs`: a key of two secrets and a base string of the request. Two requests of one
method are signed over the same texts exactly when they are made with the same secrets for
the same URL and parameters, in whatever order.
-/
namespace OAuthSignature

open RustText

/-- `A-Z`, `a-z`, `0-9` and `-._~`. -/
def unreserved (b : UInt8) : Bool :=
  (0x41 ≤ b.toNat && b.toNat ≤ 0x5A) || (0x61 ≤ b.toNat && b.toNat ≤ 0x7A) || (0x30 ≤ b.toNat && b.toNat ≤ 0x39) ||
    b.toNat == 0x2D || b.toNat == 0x2E || b.toNat == 0x5F || b.toNat == 0x7E

def hexUpper (n : Nat) : Char := Char.ofNat (if n < 10 then 0x30 + n else 0x37 + n)

def percentByte (b : UInt8) : Text :=
  if unreserved b then [Char.ofNat b.toNat] else ['%', hexUpper (b.toNat / 16), hexUpper (b.toNat % 16)]

def oauthPercentEncode (s : Text) : Text := (Utf8Codec.encode s).flatMap percentByte

abbrev Param := Text × Text

def encodePair (p : Param) : Param := (oauthPercentEncode p.1, oauthPercentEncode p.2)

/-- Pairs are compared by their first text, then by their second. -/
def pairLe (p q : Param) : Bool := decide (toLex p ≤ toLex q)

def formatPair (p : Param) : Text := p.1 ++ '=' :: p.2

def normalized (params : List Param) : Text :=
  List.intercalate ['&'] (((params.map encodePair).mergeSort pairLe).map formatPair)

def oauth1BaseString (toUppercase : Text → Text) (method baseUrl : Text) (params : List Param) : Text :=
  toUppercase method ++ '&' :: oauthPercentEncode baseUrl ++ '&' :: oauthPercentEncode (normalized params)

def signingKey (consumerSecret : Text) (tokenSecret : Option Text) : Text :=
  oauthPercentEncode consumerSecret ++ '&' :: oauthPercentEncode (tokenSecret.getD [])

/-- `hmac` is HMAC-SHA1 of a key and a message, in base64. -/
def oauth1Signature (toUppercase : Text → Text) (hmac : Bytes → Bytes → Text) (method baseUrl : Text) (params : List Param)
    (consumerSecret : Text) (tokenSecret : Option Text) : Text :=
  hmac (Utf8Codec.encode (signingKey consumerSecret tokenSecret))
    (Utf8Codec.encode (oauth1BaseString toUppercase method baseUrl params))

/-! ## Percent encoding -/

theorem hexUpper_injective : ∀ m < 16, ∀ n < 16, hexUpper m = hexUpper n → m = n := by decide

theorem hexUpper_plain : ∀ n < 16, hexUpper n ≠ '&' ∧ hexUpper n ≠ '=' := by decide

theorem ofNat_toNat (b : UInt8) : (Char.ofNat b.toNat).toNat = b.toNat :=
  Utf8Codec.toNat_ofNat (.inl (by have := b.toNat_lt; omega))

/-- A byte is told from the next by its first character. -/
theorem percentByte_append {a b : UInt8} {s t : Text} (h : percentByte a ++ s = percentByte b ++ t) : a = b ∧ s = t := by
  have hplain {c : UInt8} (hc : unreserved c = true) : Char.ofNat c.toNat ≠ '%' := by
    intro he
    have hn : c.toNat = 0x25 := by
      rw [← ofNat_toNat c, he]
      rfl
    simp [unreserved, hn] at hc
  by_cases ha : unreserved a = true <;> by_cases hb : unreserved b = true
  · simp only [percentByte, if_pos ha, if_pos hb, List.singleton_append, List.cons.injEq] at h
    refine ⟨?_, h.2⟩
    rw [← UInt8.toNat_inj, ← ofNat_toNat a, ← ofNat_toNat b, h.1]
  · simp only [percentByte, if_pos ha, if_neg hb, List.cons_append, List.cons.injEq] at h
    exact absurd h.1 (hplain ha)
  · simp only [percentByte, if_neg ha, if_pos hb, List.cons_append, List.cons.injEq] at h
    exact absurd h.1.symm (hplain hb)
  · simp only [percentByte, if_neg ha, if_neg hb, List.cons_append, List.nil_append, List.cons.injEq, true_and] at h
    obtain ⟨hhigh, hlow, hrest⟩ := h
    have halt := a.toNat_lt
    have hblt := b.toNat_lt
    have hhigh := hexUpper_injective _ (by omega) _ (by omega) hhigh
    have hlow := hexUpper_injective _ (by omega) _ (by omega) hlow
    exact ⟨UInt8.toNat_inj.mp (by omega), hrest⟩

theorem percentByte_ne_nil (b : UInt8) : percentByte b ≠ [] := by
  rw [percentByte]
  split <;> simp

theorem flatMap_percentByte_injective : Function.Injective (List.flatMap percentByte) := by
  intro as bs h
  induction as generalizing bs with
  | nil =>
    cases bs with
    | nil => rfl
    | cons b bs => simp [percentByte_ne_nil] at h
  | cons a as ih =>
    cases bs with
    | nil => simp [percentByte_ne_nil] at h
    | cons b bs =>
      obtain ⟨rfl, hrest⟩ := percentByte_append h
      rw [ih hrest]

theorem encode_injective : Function.Injective Utf8Codec.encode := by
  intro s t h
  have hs := Utf8Codec.decode_encode s
  rw [h, Utf8Codec.decode_encode] at hs
  exact (Option.some.inj hs).symm

theorem oauthPercentEncode_injective : Function.Injective oauthPercentEncode :=
  flatMap_percentByte_injective.comp encode_injective

example : oauthPercentEncode "a b+c/=&%".toList = "a%20b%2Bc%2F%3D%26%25".toList := by decide

/-- No separator is left in what is encoded. -/
theorem oauthPercentEncode_plain {s : Text} {c : Char} (h : c ∈ oauthPercentEncode s) : c ≠ '&' ∧ c ≠ '=' := by
  obtain ⟨b, -, hc⟩ := List.mem_flatMap.mp h
  have hlt := b.toNat_lt
  rw [percentByte] at hc
  split at hc
  next hb =>
    rw [List.mem_singleton.mp hc]
    have hne (d : Char) (hd : unreserved (UInt8.ofNat d.toNat) = false) (hsmall : d.toNat < 256) : Char.ofNat b.toNat ≠ d := by
      intro he
      have hn : b = UInt8.ofNat d.toNat := by
        rw [← UInt8.toNat_inj, ← ofNat_toNat b, he, Utf8Codec.toNat_ofNat_small hsmall]
      rw [hn, hd] at hb
      cases hb
    exact ⟨hne '&' (by decide) (by decide), hne '=' (by decide) (by decide)⟩
  · simp only [List.mem_cons, List.not_mem_nil, or_false] at hc
    rcases hc with rfl | rfl | rfl
    · decide
    · exact hexUpper_plain _ (by omega)
    · exact hexUpper_plain _ (by omega)

/-! ## What is signed -/

theorem encodePair_injective : Function.Injective encodePair := by
  intro p q h
  have hname := oauthPercentEncode_injective (congrArg Prod.fst h)
  have hvalue := oauthPercentEncode_injective (congrArg Prod.snd h)
  exact Prod.ext hname hvalue

/-- A separator that the first parts are free of tells them from the rest. -/
theorem append_sep_inj {sep : Char} {a b s t : Text} (ha : sep ∉ a) (hb : sep ∉ b) (h : a ++ sep :: s = b ++ sep :: t) :
    a = b ∧ s = t := by
  have hsplit := congrArg (List.splitOn sep) h
  rw [splitOn_append_sep sep a s ha, splitOn_append_sep sep b t hb] at hsplit
  obtain rfl := (List.cons.inj hsplit).1
  exact ⟨rfl, (List.cons.inj (List.append_cancel_left h)).2⟩

theorem encoded_sep {s : Text} : '&' ∉ oauthPercentEncode s ∧ '=' ∉ oauthPercentEncode s :=
  ⟨fun h => (oauthPercentEncode_plain h).1 rfl, fun h => (oauthPercentEncode_plain h).2 rfl⟩

/-- A pair whose texts hold no separator. -/
def Encoded (p : Param) : Prop := '=' ∉ p.1 ∧ '&' ∉ p.1 ∧ '&' ∉ p.2

theorem encoded_encodePair (p : Param) : Encoded (encodePair p) := ⟨encoded_sep.2, encoded_sep.1, encoded_sep.1⟩

theorem Encoded.format_ne {p : Param} (h : Encoded p) : '&' ∉ formatPair p := by
  rw [formatPair, List.mem_append, List.mem_cons]
  rintro (hin | hin | hin)
  · exact h.2.1 hin
  · exact absurd hin (by decide)
  · exact h.2.2 hin

theorem formatPair_inj {p q : Param} (hp : Encoded p) (hq : Encoded q) (h : formatPair p = formatPair q) : p = q := by
  obtain ⟨hname, hvalue⟩ := append_sep_inj hp.1 hq.1 h
  exact Prod.ext hname hvalue

/-- The pairs can be read back from the joined text. -/
theorem map_formatPair {ps qs : List Param} (hps : ∀ p ∈ ps, Encoded p) (hqs : ∀ q ∈ qs, Encoded q)
    (h : ps.map formatPair = qs.map formatPair) : ps = qs := by
  induction ps generalizing qs with
  | nil => exact (List.map_eq_nil_iff.mp h.symm).symm
  | cons p ps ih =>
    cases qs with
    | nil => cases h
    | cons q qs =>
      obtain ⟨hhead, htail⟩ := List.cons.inj h
      rw [List.forall_mem_cons] at hps hqs
      rw [formatPair_inj hps.1 hqs.1 hhead, ih hps.2 hqs.2 htail]

theorem splitOn_formatted {ps : List Param} (hps : ∀ p ∈ ps, Encoded p) (hne : ps ≠ []) :
    (List.intercalate ['&'] (ps.map formatPair)).splitOn '&' = ps.map formatPair := by
  have hfree : ∀ t ∈ ps.map formatPair, '&' ∉ t := by
    intro t ht
    obtain ⟨p, hp, rfl⟩ := List.mem_map.mp ht
    exact (hps p hp).format_ne
  exact List.splitOn_intercalate '&' hfree (by simpa using hne)

/-- No pair is the empty text, so only no pairs at all are joined to it. -/
theorem joined_eq_nil {ps : List Param} (h : List.intercalate ['&'] (ps.map formatPair) = []) : ps = [] := by
  cases ps with
  | nil => rfl
  | cons p ps =>
    cases ps with
    | nil => simp [formatPair] at h
    | cons q qs => simp [formatPair] at h

theorem joined_inj {ps qs : List Param} (hps : ∀ p ∈ ps, Encoded p) (hqs : ∀ q ∈ qs, Encoded q)
    (h : List.intercalate ['&'] (ps.map formatPair) = List.intercalate ['&'] (qs.map formatPair)) : ps = qs := by
  by_cases hnone : ps = []
  · subst hnone
    exact (joined_eq_nil h.symm).symm
  · have hsome : qs ≠ [] := fun hq => hnone (joined_eq_nil (h.trans (by rw [hq]; rfl)))
    refine map_formatPair hps hqs ?_
    rw [← splitOn_formatted hps hnone, h, splitOn_formatted hqs hsome]

theorem pairLe_trans (p q r : Param) (hpq : pairLe p q = true) (hqr : pairLe q r = true) : pairLe p r = true := by
  simp only [pairLe, decide_eq_true_eq] at *
  exact hpq.trans hqr

theorem pairLe_total (p q : Param) : (pairLe p q || pairLe q p) = true := by
  simp only [pairLe, Bool.or_eq_true, decide_eq_true_eq]
  exact le_total _ _

theorem pairLe_antisymm {p q : Param} (hpq : pairLe p q = true) (hqp : pairLe q p = true) : p = q := by
  simp only [pairLe, decide_eq_true_eq] at *
  exact toLex.injective (le_antisymm hpq hqp)

/-- What is sorted is the same for the same pairs in any order. -/
theorem mergeSort_eq_iff (ps qs : List Param) : ps.mergeSort pairLe = qs.mergeSort pairLe ↔ ps.Perm qs := by
  constructor
  · intro h
    exact (List.mergeSort_perm ps pairLe).symm.trans (h ▸ List.mergeSort_perm qs pairLe)
  · intro h
    have hperm : (ps.mergeSort pairLe).Perm (qs.mergeSort pairLe) :=
      (List.mergeSort_perm ps pairLe).trans (h.trans (List.mergeSort_perm qs pairLe).symm)
    exact hperm.eq_of_pairwise (fun _ _ _ _ => pairLe_antisymm) (List.pairwise_mergeSort pairLe_trans pairLe_total ps)
      (List.pairwise_mergeSort pairLe_trans pairLe_total qs)

theorem normalized_eq_iff (ps qs : List Param) : normalized ps = normalized qs ↔ ps.Perm qs := by
  have hencoded : ∀ ps : List Param, ∀ p ∈ (ps.map encodePair).mergeSort pairLe, Encoded p := by
    intro ps p hp
    obtain ⟨q, -, rfl⟩ := List.mem_map.mp ((List.mergeSort_perm _ pairLe).mem_iff.mp hp)
    exact encoded_encodePair q
  rw [← List.map_perm_map_iff encodePair_injective, ← mergeSort_eq_iff]
  exact ⟨joined_inj (hencoded ps) (hencoded qs), fun h => by rw [normalized, normalized, h]⟩

/-- Two requests of one method are signed over the same base string exactly if they have the same URL and the same
parameters in some order, and with the same key exactly if they have the same secrets, none being the empty one. -/
theorem signed_texts_iff (toUppercase : Text → Text) (method url url' : Text) (params params' : List Param)
    (consumer consumer' : Text) (token token' : Option Text) :
    (oauth1BaseString toUppercase method url params = oauth1BaseString toUppercase method url' params' ↔
      url = url' ∧ params.Perm params') ∧
    (signingKey consumer token = signingKey consumer' token' ↔
      consumer = consumer' ∧ token.getD [] = token'.getD []) := by
  constructor
  · constructor
    · intro h
      simp only [oauth1BaseString, List.append_assoc] at h
      have hrest := (List.cons.inj (List.append_cancel_left h)).2
      obtain ⟨hurl, hparams⟩ := append_sep_inj encoded_sep.1 encoded_sep.1 hrest
      exact ⟨oauthPercentEncode_injective hurl, (normalized_eq_iff _ _).mp (oauthPercentEncode_injective hparams)⟩
    · rintro ⟨rfl, hperm⟩
      rw [oauth1BaseString, oauth1BaseString, (normalized_eq_iff _ _).mpr hperm]
  · constructor
    · intro h
      obtain ⟨hconsumer, htoken⟩ := append_sep_inj encoded_sep.1 encoded_sep.1 h
      exact ⟨oauthPercentEncode_injective hconsumer, oauthPercentEncode_injective htoken⟩
    · rintro ⟨rfl, htoken⟩
      rw [signingKey, signingKey, htoken]

end OAuthSignature
