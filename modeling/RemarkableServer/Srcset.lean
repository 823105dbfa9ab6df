import Mathlib.Data.List.DropRight
import RemarkableServer.Lib.RustText

/-!
# The candidates of a srcset

A srcset names images by a URL and descriptors each. Its URLs are made absolute one by one,
and the text that is written is read back as the same candidates with the resolved URLs.
-/
namespace Srcset

open RustText

structure Candidate where
  url : Text
  descriptors : Text
  deriving DecidableEq, Repr

def isAsciiWhitespace (c : Char) : Bool := c = ' ' || c = '\t' || c = '\n' || c.toNat = 12 || c = '\r'

def isBreak (c : Char) : Bool := isAsciiWhitespace c || c = ','

def nested (inParens : Bool) (c : Char) : Bool := if c = '(' then true else if c = ')' then false else inParens

/-- What is before the first comma outside parentheses, and the rest. -/
def upToComma (inParens : Bool) : Text → Text × Text
  | [] => ([], [])
  | c :: rest =>
    if c = ',' && !inParens then ([], c :: rest)
    else (c :: (upToComma (nested inParens c) rest).1, (upToComma (nested inParens c) rest).2)

/-- The first candidate of a text that starts with one, and the rest. -/
def candidate (t : Text) : Candidate × Text :=
  let url := t.takeWhile (!isAsciiWhitespace ·)
  let after := t.dropWhile (!isAsciiWhitespace ·)
  if url.getLast? = some ',' then (⟨url.rdropWhile (· = ','), []⟩, after)
  else (⟨url, trim (upToComma false after).1⟩, (upToComma false after).2)

theorem upToComma_length (inParens : Bool) (t : Text) : (upToComma inParens t).2.length ≤ t.length := by
  induction t generalizing inParens with
  | nil => simp [upToComma]
  | cons c t ih =>
    rw [upToComma]
    split
    · exact Nat.le_refl _
    · exact (ih _).trans (Nat.le_succ _)

/-- A candidate takes at least its first character. -/
theorem candidate_length {c : Char} (hc : isAsciiWhitespace c = false) (t : Text) : (candidate (c :: t)).2.length < (c :: t).length := by
  have hdrop : ((c :: t).dropWhile (!isAsciiWhitespace ·)).length < (c :: t).length := by
    rw [List.dropWhile_cons_of_pos (by simp [hc])]
    exact Nat.lt_succ_of_le (List.dropWhile_sublist _).length_le
  rw [candidate]
  split
  · exact hdrop
  · exact Nat.lt_of_le_of_lt (upToComma_length _ _) hdrop

theorem head_dropWhile_isBreak {s t : Text} {c : Char} (h : s.dropWhile isBreak = c :: t) :
    isAsciiWhitespace c = false ∧ c ≠ ',' := by
  have hnot := List.head?_dropWhile_not isBreak s
  rw [h] at hnot
  simpa [isBreak] using hnot

theorem candidate_shorter {srcset rest : Text} {c : Char} (h : srcset.dropWhile isBreak = c :: rest) :
    (candidate (c :: rest)).2.length < srcset.length := by
  have hlen := (List.dropWhile_sublist (p := isBreak) (l := srcset)).length_le
  rw [h] at hlen
  exact Nat.lt_of_lt_of_le (candidate_length (head_dropWhile_isBreak h).1 rest) hlen

def candidates (srcset : Text) : List Candidate :=
  match h : srcset.dropWhile isBreak with
  | [] => []
  | c :: rest =>
    have := candidate_shorter h
    (candidate (c :: rest)).1 :: candidates (candidate (c :: rest)).2
termination_by srcset.length

def Candidate.render (c : Candidate) : Text := if c.descriptors = [] then c.url else c.url ++ ' ' :: c.descriptors

/-- `join(", ")`. -/
def join : List Text → Text
  | [] => []
  | [t] => t
  | t :: u :: rest => t ++ ',' :: ' ' :: join (u :: rest)

/-- A URL that does not resolve stays as it is. -/
def Candidate.resolved (resolve : Text → Option Text) (c : Candidate) : Candidate := { c with url := (resolve c.url).getD c.url }

def absolutizeSrcset (resolve : Text → Option Text) (srcset : Text) : Text :=
  join ((candidates srcset).map fun c => (c.resolved resolve).render)

/-- What the code uses of the `url` crate. -/
structure Urls (U : Type) where
  parse : Text → Option U
  join : U → Text → Option U
  text : U → Text

/-- An absolute URL is parsed back from its text, and joining it to a base gives it again. -/
structure Urls.Lawful {U : Type} (urls : Urls U) : Prop where
  parse_text (u : U) : urls.parse (urls.text u) = some u
  join_text (base u : U) : urls.join base (urls.text u) = some u

/-- None for what is absolute as it stands. -/
def resolveUrl {U : Type} [DecidableEq U] (urls : Urls U) (base : U) (value : Text) : Option Text :=
  match urls.join base value with
  | none => none
  | some joined => if urls.parse value = some joined then none else some (urls.text joined)

section Parens

/-- No comma outside parentheses. -/
def Plain : Bool → Text → Prop
  | _, [] => True
  | inParens, c :: t => ¬ (c = ',' ∧ inParens = false) ∧ Plain (nested inParens c) t

/-- What may follow a stop: nothing, or the comma that made it. -/
def Stops (inParens : Bool) : Text → Prop
  | [] => True
  | c :: _ => c = ',' ∧ inParens = false

theorem plain_append {b : Bool} {u v : Text} : Plain b (u ++ v) ↔ Plain b u ∧ Plain (u.foldl nested b) v := by
  induction u generalizing b with
  | nil => simp [Plain]
  | cons c u ih => simp only [List.cons_append, Plain, List.foldl_cons, ih, and_assoc]

theorem upToComma_spec (b : Bool) (t : Text) :
    (upToComma b t).1 ++ (upToComma b t).2 = t ∧ Plain b (upToComma b t).1 ∧
      Stops ((upToComma b t).1.foldl nested b) (upToComma b t).2 := by
  induction t generalizing b with
  | nil => simp [upToComma, Plain, Stops]
  | cons c t ih =>
    by_cases h : (c = ',' && !b) = true
    · rw [upToComma, if_pos h]
      simpa [Plain, Stops] using h
    · obtain ⟨hcat, hplain, hstops⟩ := ih (nested b c)
      rw [upToComma, if_neg h]
      refine ⟨congrArg (c :: ·) hcat, ⟨by simpa using h, hplain⟩, ?_⟩
      simpa using hstops

theorem upToComma_append {b : Bool} {u v : Text} (hu : Plain b u) (hv : Stops (u.foldl nested b) v) :
    upToComma b (u ++ v) = (u, v) := by
  induction u generalizing b with
  | nil =>
    cases v with
    | nil => rfl
    | cons c v => simp_all [upToComma, Stops]
  | cons c u ih =>
    obtain ⟨hc, hu⟩ := hu
    have hrest := ih hu (by simpa using hv)
    rw [List.cons_append, upToComma, if_neg (by simpa using hc), hrest]

theorem nested_whitespace {c : Char} (h : isWhitespace c = true) (b : Bool) : nested b c = b := by
  have hopen : c ≠ '(' := by
    rintro rfl
    exact absurd h (by decide)
  have hclose : c ≠ ')' := by
    rintro rfl
    exact absurd h (by decide)
  rw [nested, if_neg hopen, if_neg hclose]

theorem foldl_nested_whitespace {w : Text} (h : ∀ c ∈ w, isWhitespace c = true) (b : Bool) : w.foldl nested b = b := by
  induction w with
  | nil => rfl
  | cons c w ih =>
    rw [List.foldl_cons, nested_whitespace (h c List.mem_cons_self)]
    exact ih fun d hd => h d (List.mem_cons_of_mem c hd)

/-- A text is whitespace, what `trim` leaves of it, and whitespace. -/
theorem trim_parts (t : Text) : ∃ before after : Text, t = before ++ (trim t ++ after) ∧
    (∀ c ∈ before, isWhitespace c = true) ∧ ∀ c ∈ after, isWhitespace c = true := by
  refine ⟨t.takeWhile isWhitespace, (t.dropWhile isWhitespace).rtakeWhile isWhitespace, ?_, ?_, ?_⟩
  · rw [trim, List.rdropWhile_append_rtakeWhile, List.takeWhile_append_dropWhile]
  · exact fun c hc => List.mem_takeWhile_imp hc
  · exact fun c hc => List.mem_rtakeWhile_imp hc

theorem plain_trim {t : Text} (h : Plain false t) : Plain false (trim t) := by
  obtain ⟨before, after, heq, hbefore, -⟩ := trim_parts t
  rw [heq, plain_append, plain_append, foldl_nested_whitespace hbefore] at h
  exact h.2.1

theorem foldl_nested_trim (t : Text) : (trim t).foldl nested false = t.foldl nested false := by
  obtain ⟨before, after, heq, hbefore, hafter⟩ := trim_parts t
  conv_rhs => rw [heq]
  rw [List.foldl_append, List.foldl_append, foldl_nested_whitespace hbefore, foldl_nested_whitespace hafter]

theorem trim_trim (t : Text) : trim (trim t) = trim t := by
  have hdrop : (trim t).dropWhile isWhitespace = trim t := by
    cases h : trim t with
    | nil => rfl
    | cons c d =>
      have hprefix : trim t <+: t.dropWhile isWhitespace := List.rdropWhile_prefix isWhitespace _
      rw [h] at hprefix
      obtain ⟨rest, hrest⟩ := hprefix
      have hc := List.head?_dropWhile_not isWhitespace t
      rw [← hrest] at hc
      exact List.dropWhile_cons_of_neg (by simpa using hc)
  rw [trim, hdrop]
  exact List.rdropWhile_idempotent isWhitespace _

end Parens

section Reading

variable {c : Candidate} {s u v : Text}

/-- A URL that is read back as it is written. -/
structure Token (url : Text) : Prop where
  noSpace : ∀ c ∈ url, isAsciiWhitespace c = false
  start : ∃ c t, url = c :: t ∧ c ≠ ','
  stop : url.getLast? ≠ some ','

structure Candidate.Well (c : Candidate) : Prop where
  url : Token c.url
  trimmed : trim c.descriptors = c.descriptors
  plain : Plain false c.descriptors

/-- A comma after the descriptors ends them. -/
def Candidate.Closed (c : Candidate) : Prop := c.descriptors.foldl nested false = false

theorem candidates_nil (h : s.dropWhile isBreak = []) : candidates s = [] := by
  rw [candidates]
  split
  · rfl
  · simp_all

theorem candidates_cons {a : Char} {t : Text} (h : s.dropWhile isBreak = a :: t) :
    candidates s = (candidate (a :: t)).1 :: candidates (candidate (a :: t)).2 := by
  rw [candidates]
  split
  · simp_all
  · simp_all

theorem candidates_step {t : Text} (hne : t ≠ []) (hdrop : s.dropWhile isBreak = t) (hc : candidate t = (c, v)) :
    candidates s = c :: candidates v := by
  obtain ⟨a, t, rfl⟩ := List.exists_cons_of_ne_nil hne
  rw [candidates_cons hdrop, hc]

theorem candidates_congr (h : s.dropWhile isBreak = u.dropWhile isBreak) : candidates s = candidates u := by
  cases hs : s.dropWhile isBreak with
  | nil => rw [candidates_nil hs, candidates_nil (h.symm.trans hs)]
  | cons a t => rw [candidates_cons hs, candidates_cons (h.symm.trans hs)]

/-- The URL is what stands before the whitespace, commas at its end apart. -/
theorem token_takeWhile {a : Char} {t : Text} (hspace : isAsciiWhitespace a = false) (ha : a ≠ ',')
    (hstop : ((a :: t).takeWhile (!isAsciiWhitespace ·)).getLast? ≠ some ',') :
    Token ((a :: t).takeWhile (!isAsciiWhitespace ·)) where
  noSpace c hc := by simpa using List.mem_takeWhile_imp hc
  start := ⟨a, _, List.takeWhile_cons_of_pos (by simp [hspace]), ha⟩
  stop := hstop

theorem token_rdropWhile {a : Char} {t : Text} (hspace : isAsciiWhitespace a = false) (ha : a ≠ ',') :
    Token (((a :: t).takeWhile (!isAsciiWhitespace ·)).rdropWhile (· = ',')) := by
  have htake : (a :: t).takeWhile (!isAsciiWhitespace ·) = a :: t.takeWhile (!isAsciiWhitespace ·) :=
    List.takeWhile_cons_of_pos (by simp [hspace])
  constructor
  · intro c hc
    have hmem := (List.rdropWhile_prefix _ _).subset hc
    simpa using List.mem_takeWhile_imp hmem
  · rw [htake]
    obtain ⟨rest, hrest⟩ := List.rdropWhile_prefix (fun c : Char => decide (c = ',')) (a :: t.takeWhile (!isAsciiWhitespace ·))
    cases hd : (a :: t.takeWhile (!isAsciiWhitespace ·)).rdropWhile (· = ',') with
    | nil =>
      rw [List.rdropWhile_eq_nil_iff] at hd
      exact absurd (hd a List.mem_cons_self) (by simpa using ha)
    | cons b d =>
      rw [hd] at hrest
      obtain ⟨rfl, -⟩ := List.cons.inj hrest
      exact ⟨b, d, rfl, ha⟩
  · intro hlast
    have hne : ((a :: t).takeWhile (!isAsciiWhitespace ·)).rdropWhile (fun c => decide (c = ',')) ≠ [] := by
      intro hnil
      rw [hnil] at hlast
      cases hlast
    rw [List.getLast?_eq_some_getLast hne] at hlast
    apply List.rdropWhile_last_not _ _ hne
    simpa using hlast

/-- A candidate that is read is well formed, and closed unless the text ends with it. -/
theorem candidate_spec {a : Char} {t : Text} (hspace : isAsciiWhitespace a = false) (ha : a ≠ ',') :
    (candidate (a :: t)).1.Well ∧ ((candidate (a :: t)).2 = [] ∨ (candidate (a :: t)).1.Closed) := by
  rw [candidate]
  split
  next =>
    exact ⟨⟨token_rdropWhile hspace ha, rfl, trivial⟩, .inr rfl⟩
  next hstop =>
    obtain ⟨-, hplain, hstops⟩ := upToComma_spec false ((a :: t).dropWhile (!isAsciiWhitespace ·))
    refine ⟨⟨token_takeWhile hspace ha hstop, trim_trim _, plain_trim hplain⟩, ?_⟩
    cases h : (upToComma false ((a :: t).dropWhile (!isAsciiWhitespace ·))).2 with
    | nil => exact .inl rfl
    | cons b rest =>
      rw [h] at hstops
      exact .inr ((foldl_nested_trim _).trans hstops.2)

theorem takeWhile_url {url : Text} (h : Token url) (w : Text) :
    (url ++ w).takeWhile (!isAsciiWhitespace ·) = url ++ w.takeWhile (!isAsciiWhitespace ·) :=
  List.takeWhile_append_of_pos fun c hc => by simp [h.noSpace c hc]

theorem dropWhile_url {url : Text} (h : Token url) (w : Text) :
    (url ++ w).dropWhile (!isAsciiWhitespace ·) = w.dropWhile (!isAsciiWhitespace ·) :=
  List.dropWhile_append_of_pos fun c hc => by simp [h.noSpace c hc]

/-- A URL alone. -/
theorem candidate_url {url : Text} (h : Token url) : candidate (url ++ []) = (⟨url, []⟩, []) := by
  rw [candidate, takeWhile_url h, dropWhile_url h, List.takeWhile_nil, List.dropWhile_nil, List.append_nil,
    if_neg h.stop]
  rfl

/-- A URL with a comma at its end. -/
theorem candidate_comma {url : Text} (h : Token url) (u : Text) :
    candidate (url ++ ',' :: ' ' :: u) = (⟨url, []⟩, ' ' :: u) := by
  have htake : (',' :: ' ' :: u).takeWhile (!isAsciiWhitespace ·) = [','] := by simp [isAsciiWhitespace]
  have hdrop : (',' :: ' ' :: u).dropWhile (!isAsciiWhitespace ·) = ' ' :: u := by simp [isAsciiWhitespace]
  have hurl : url.rdropWhile (· = ',') = url := by
    rw [List.rdropWhile_eq_self_iff]
    intro hne hlast
    apply h.stop
    rw [List.getLast?_eq_some_getLast hne]
    simpa using hlast
  rw [candidate, takeWhile_url h, dropWhile_url h, htake, hdrop, if_pos List.getLast?_concat,
    List.rdropWhile_concat_pos _ _ _ (by simp), hurl]

/-- A URL with descriptors. -/
theorem candidate_descriptors {url d : Text} (h : Token url) (htrim : trim d = d) (hplain : Plain false d)
    (hv : Stops (d.foldl nested false) v) : candidate (url ++ ' ' :: (d ++ v)) = (⟨url, d⟩, v) := by
  have htake : (' ' :: (d ++ v)).takeWhile (!isAsciiWhitespace ·) = [] := by simp [isAsciiWhitespace]
  have hdrop : (' ' :: (d ++ v)).dropWhile (!isAsciiWhitespace ·) = ' ' :: d ++ v := by simp [isAsciiWhitespace]
  have hstep : nested false ' ' = false := by decide
  have hup : upToComma false (' ' :: d ++ v) = (' ' :: d, v) := by
    apply upToComma_append
    · exact ⟨by simp, hplain⟩
    · rw [List.foldl_cons, hstep]
      exact hv
  have hspace : trim (' ' :: d) = d := by
    rw [trim, List.dropWhile_cons_of_pos (by decide)]
    exact htrim
  rw [candidate, takeWhile_url h, dropWhile_url h, htake, hdrop, List.append_nil, if_neg h.stop, hup, hspace]

/-- Reading a candidate and a stop after it. -/
theorem candidate_render (hc : c.Well) (hv : v = [] ∨ c.Closed ∧ v = ',' :: ' ' :: u) :
    ∃ rest, candidate (c.render ++ v) = (c, rest) ∧ rest.dropWhile isBreak = v.dropWhile isBreak := by
  obtain ⟨url, d⟩ := c
  by_cases hd : d = []
  · rw [Candidate.render, if_pos hd]
    subst hd
    rcases hv with rfl | ⟨-, rfl⟩
    · exact ⟨[], candidate_url hc.url, rfl⟩
    · exact ⟨' ' :: u, candidate_comma hc.url u, by simp [isBreak]⟩
  · have hstops : Stops (d.foldl nested false) v := by
      rcases hv with rfl | ⟨hclosed, rfl⟩
      · exact trivial
      · exact ⟨rfl, hclosed⟩
    rw [Candidate.render, if_neg hd, List.append_assoc]
    exact ⟨v, candidate_descriptors hc.url hc.trimmed hc.plain hstops, rfl⟩

/-- What is read from one text: every candidate before the last is closed. -/
def Joined : List Candidate → Prop
  | [] => True
  | [c] => c.Well
  | c :: d :: rest => c.Well ∧ c.Closed ∧ Joined (d :: rest)

theorem joined_candidates (s : Text) : Joined (candidates s) := by
  induction s using candidates.induct with
  | case1 s h =>
    rw [candidates_nil h]
    exact trivial
  | case2 s a t h _ ih =>
    obtain ⟨hspace, ha⟩ := head_dropWhile_isBreak h
    obtain ⟨hwell, hrest⟩ := candidate_spec hspace ha (t := t)
    rw [candidates_cons h]
    cases hcs : candidates (candidate (a :: t)).2 with
    | nil => exact hwell
    | cons d ds =>
      rw [hcs] at ih
      rcases hrest with hnil | hclosed
      · rw [hnil, candidates_nil rfl] at hcs
        cases hcs
      · exact ⟨hwell, hclosed, ih⟩

theorem Joined.tail {cs : List Candidate} (h : Joined (c :: cs)) : c.Well ∧ Joined cs := by
  cases cs with
  | nil => exact ⟨h, trivial⟩
  | cons d ds => exact ⟨h.1, h.2.2⟩

theorem dropWhile_render (hc : c.Well) (w : Text) :
    (c.render ++ w).dropWhile isBreak = c.render ++ w ∧ c.render ++ w ≠ [] := by
  obtain ⟨a, t, hurl, ha⟩ := hc.url.start
  have hspace : isAsciiWhitespace a = false := hc.url.noSpace a (by simp [hurl])
  have hrender : ∃ tail, c.render ++ w = a :: tail := by
    rw [Candidate.render, hurl]
    split <;> simp
  obtain ⟨tail, htail⟩ := hrender
  rw [htail]
  exact ⟨List.dropWhile_cons_of_neg (by simp [isBreak, hspace, ha]), List.cons_ne_nil a tail⟩

/-- Splitting undoes joining. -/
theorem candidates_join {cs : List Candidate} (h : Joined cs) : candidates (join (cs.map Candidate.render)) = cs := by
  induction cs with
  | nil => exact candidates_nil rfl
  | cons c cs ih =>
    obtain ⟨hwell, htail⟩ := h.tail
    have ih := ih htail
    have hread (v u : Text) (hv : v = [] ∨ c.Closed ∧ v = ',' :: ' ' :: u) :
        candidates (c.render ++ v) = c :: candidates v := by
      obtain ⟨hdrop, hne⟩ := dropWhile_render hwell v
      obtain ⟨rest, hcand, hrest⟩ := candidate_render hwell hv
      rw [candidates_step hne hdrop hcand, candidates_congr hrest]
    cases cs with
    | nil =>
      have hlast := hread [] [] (.inl rfl)
      rwa [List.append_nil, candidates_nil (s := []) rfl] at hlast
    | cons d ds =>
      have hsep (r : Text) : candidates (',' :: ' ' :: r) = candidates r :=
        candidates_congr (by simp [isBreak, isAsciiWhitespace])
      simp only [List.map_cons] at ih
      simp only [List.map_cons, join]
      rw [hread _ _ (.inr ⟨h.2.1, rfl⟩), hsep, ih]

theorem Joined.map {f : Candidate → Candidate} {cs : List Candidate} (h : Joined cs)
    (hwell : ∀ c ∈ cs, c.Well → (f c).Well) (hclosed : ∀ c, c.Closed → (f c).Closed) : Joined (cs.map f) := by
  induction cs with
  | nil => exact trivial
  | cons c cs ih =>
    obtain ⟨hc, htail⟩ := h.tail
    have ih := ih htail fun d hd => hwell d (List.mem_cons_of_mem c hd)
    have hfc := hwell c List.mem_cons_self hc
    cases cs with
    | nil => exact hfc
    | cons d ds => exact ⟨hfc, hclosed c h.2.1, ih⟩

end Reading

section Resolving

variable {U : Type} [DecidableEq U] {urls : Urls U}

theorem resolveUrl_text (h : urls.Lawful) (base u : U) : resolveUrl urls base (urls.text u) = none := by
  simp only [resolveUrl, h.join_text, h.parse_text, if_true]

/-- What a URL resolves to is the text of a URL that was joined. -/
theorem exists_join {base : U} {t u : Text} (h : resolveUrl urls base t = some u) :
    ∃ joined, urls.join base t = some joined ∧ u = urls.text joined := by
  rw [resolveUrl] at h
  split at h
  · cases h
  next joined hjoin =>
    split at h
    · cases h
    · exact ⟨joined, hjoin, (Option.some.inj h).symm⟩

/-- Resolving what is resolved changes nothing. -/
theorem resolved_resolved (h : urls.Lawful) (base : U) (c : Candidate) :
    (c.resolved (resolveUrl urls base)).resolved (resolveUrl urls base) = c.resolved (resolveUrl urls base) := by
  cases hc : resolveUrl urls base c.url with
  | none => simp [Candidate.resolved, hc]
  | some u =>
    obtain ⟨joined, -, rfl⟩ := exists_join hc
    simp [Candidate.resolved, hc, resolveUrl_text h]

/-- The text that is written is read as the same candidates, in order, with their descriptors
and their URLs resolved, and resolving it again gives it as it is. -/
theorem absolutizeSrcset_candidates (urls : Urls U) (hurls : urls.Lawful) (base : U) (srcset : Text)
    (htoken : ∀ c ∈ candidates srcset, ∀ joined, urls.join base c.url = some joined → Token (urls.text joined)) :
    candidates (absolutizeSrcset (resolveUrl urls base) srcset) =
        (candidates srcset).map (·.resolved (resolveUrl urls base)) ∧
      absolutizeSrcset (resolveUrl urls base) (absolutizeSrcset (resolveUrl urls base) srcset) =
        absolutizeSrcset (resolveUrl urls base) srcset := by
  have hjoined : Joined ((candidates srcset).map (·.resolved (resolveUrl urls base))) := by
    apply (joined_candidates srcset).map
    · intro c hc hwell
      refine ⟨?_, hwell.trimmed, hwell.plain⟩
      rw [Candidate.resolved]
      cases hres : resolveUrl urls base c.url with
      | none => exact hwell.url
      | some u =>
        obtain ⟨joined, hjoin, rfl⟩ := exists_join hres
        exact htoken c hc joined hjoin
    · exact fun c hclosed => hclosed
  have hread : candidates (absolutizeSrcset (resolveUrl urls base) srcset) =
      (candidates srcset).map (·.resolved (resolveUrl urls base)) := by
    have := candidates_join hjoined
    rwa [List.map_map] at this
  refine ⟨hread, ?_⟩
  rw [absolutizeSrcset, hread, List.map_map]
  simp only [Function.comp_def, resolved_resolved hurls]
  rfl

theorem token_of_all {a : Char} {t : Text} (hall : (a :: t).all (!isAsciiWhitespace ·) = true) (ha : a ≠ ',')
    (hstop : (a :: t).getLast? ≠ some ',') : Token (a :: t) where
  noSpace c hc := by simpa using List.all_eq_true.mp hall c hc
  start := ⟨a, t, rfl, ha⟩
  stop := hstop

/-- Relative to one base, with the texts of its URLs kept behind the scheme. -/
def siteUrls : Urls Text where
  parse t := if "https:".toList.isPrefixOf t then some (t.drop 6) else none
  join base t := some (if "https:".toList.isPrefixOf t then t.drop 6 else base ++ t)
  text u := "https:".toList ++ u

theorem siteUrls_lawful : siteUrls.Lawful where
  parse_text u := by simp [siteUrls]
  join_text base u := by simp [siteUrls]

def postSrcset : Text := "small.jpg 1x ,w_600,h_400/large.jpg 2x".toList

theorem candidates_postSrcset :
    candidates postSrcset = [⟨"small.jpg".toList, "1x".toList⟩, ⟨"w_600,h_400/large.jpg".toList, "2x".toList⟩] := by
  have hfirst : postSrcset.dropWhile isBreak = postSrcset := by decide
  have hcand : candidate postSrcset = (⟨"small.jpg".toList, "1x".toList⟩, ",w_600,h_400/large.jpg 2x".toList) := by decide
  have hsecond : ",w_600,h_400/large.jpg 2x".toList.dropWhile isBreak = "w_600,h_400/large.jpg 2x".toList := by decide
  have hcand' : candidate "w_600,h_400/large.jpg 2x".toList = (⟨"w_600,h_400/large.jpg".toList, "2x".toList⟩, []) := by decide
  rw [candidates_step (by decide) hfirst hcand, candidates_step (by decide) hsecond hcand', candidates_nil (s := []) rfl]

theorem absolutizeSrcset_candidates_post :
    candidates (absolutizeSrcset (resolveUrl siteUrls "//img.example/posts/1/".toList) postSrcset) =
        (candidates postSrcset).map (·.resolved (resolveUrl siteUrls "//img.example/posts/1/".toList)) ∧
      absolutizeSrcset (resolveUrl siteUrls "//img.example/posts/1/".toList)
          (absolutizeSrcset (resolveUrl siteUrls "//img.example/posts/1/".toList) postSrcset) =
        absolutizeSrcset (resolveUrl siteUrls "//img.example/posts/1/".toList) postSrcset := by
  apply absolutizeSrcset_candidates siteUrls siteUrls_lawful
  rw [candidates_postSrcset]
  intro c hc joined hjoin
  simp only [List.mem_cons, List.not_mem_nil, or_false] at hc
  rcases hc with rfl | rfl
  · obtain rfl := Option.some.inj hjoin
    exact token_of_all (by decide) (by decide) (by decide)
  · obtain rfl := Option.some.inj hjoin
    exact token_of_all (by decide) (by decide) (by decide)

end Resolving

end Srcset
