import RemarkableServer.IndexReaders

/-!
# Round trip of a rewritten root

The document writers parse a root, add entries, sort by name and render the
result. Every entry they read fits on a line of its own, and entries that do are
read back from the rendered index in the order they were written.
-/
namespace IndexRoundTrip

open RustText SyncIndex IndexReaders

theorem not_mem_of_valid {hash : Text} {c : Char} (h : isValidHash hash = true)
    (hc : (('0' ≤ c && c ≤ '9') || ('a' ≤ c && c ≤ 'f')) = false) : c ∉ hash := by
  intro hm
  simp only [isValidHash, Bool.and_eq_true, List.all_eq_true] at h
  have := h.2 c hm
  rw [hc] at this
  cases this

theorem ne_nil_of_valid {hash : Text} (h : isValidHash hash = true) : hash ≠ [] := by
  rintro rfl
  simp [isValidHash] at h

theorem not_mem_showU64 {n : Nat} {c : Char} (hc : c.isDigit = false) : c ∉ showU64 n := by
  intro hm
  rw [Nat.isDigit_of_mem_toDigits (by decide) (by decide) hm] at hc
  cases hc

theorem parseU64_lt {t : Text} {n : Nat} (h : parseU64 t = some n) : n < UInt64.size := by
  simp only [parseU64] at h
  generalize (if t.head? = some '+' then t.tail else t) = digits at h
  split_ifs at h with _ hlt
  cases h
  exact hlt

/-! ## Rendering, then parsing -/

theorem split_renderLine {e : IndexEntry} (h : e.WellFormed) :
    split ':' (renderLine e) = [e.hash, e.kind, e.name, showU64 e.subfiles, showU64 e.size] := by
  have hhash : ':' ∉ e.hash := not_mem_of_valid h.hash (by decide)
  have hsub : ':' ∉ showU64 e.subfiles := not_mem_showU64 (by decide)
  have hsize : ':' ∉ showU64 e.size := not_mem_showU64 (by decide)
  simp only [split, renderLine, List.append_assoc, List.cons_append]
  rw [splitOn_append_sep _ _ _ hhash, splitOn_append_sep _ _ _ h.kind.2.1, splitOn_append_sep _ _ _ h.name.2.1,
    splitOn_append_sep _ _ _ hsub, List.splitOn_eq_singleton hsize]

theorem parse_renderLine {e : IndexEntry} (h : e.WellFormed) : Entry.parse (renderLine e) = some e := by
  have hk : e.kind.isEmpty = false := by simpa using h.kind.1
  have hn : e.name.isEmpty = false := by simpa using h.name.1
  simp [Entry.parse, split_renderLine h, h.hash, hk, hn, parseU64_showU64 h.subfiles, parseU64_showU64 h.size]

theorem newline_not_mem_renderLine {e : IndexEntry} (h : e.WellFormed) : '\n' ∉ renderLine e := by
  have hhash : '\n' ∉ e.hash := not_mem_of_valid h.hash (by decide)
  have hsub : '\n' ∉ showU64 e.subfiles := not_mem_showU64 (by decide)
  have hsize : '\n' ∉ showU64 e.size := not_mem_showU64 (by decide)
  simp [renderLine, hhash, h.kind.2.2, h.name.2.2, hsub, hsize]

theorem getLast_renderLine (e : IndexEntry) : (renderLine e).getLast? ≠ some '\r' := by
  have hne : showU64 e.size ≠ [] := Nat.toDigits_ne_nil
  intro hl
  simp only [renderLine, List.append_cons _ ':' (showU64 e.size)] at hl
  rw [List.getLast?_append_of_ne_nil _ hne] at hl
  exact not_mem_showU64 (by decide) (List.mem_of_getLast? hl)

theorem renderLine_not_blank {e : IndexEntry} (h : e.WellFormed) : isBlank (renderLine e) = false := by
  rw [Bool.eq_false_iff]
  intro hb
  have hs := (blank_split hb).1
  rw [split_renderLine h] at hs
  exact absurd (congrArg List.length hs) (by simp)

theorem parseRootLines_renderLine {es : List IndexEntry} (h : ∀ e ∈ es, e.WellFormed) :
    parseRootLines (es.map renderLine) = .ok es := by
  induction es with
  | nil => rfl
  | cons e es ih =>
    have he : e.WellFormed := h e (by simp)
    rw [List.map_cons, parseRootLines, renderLine_not_blank he, parse_renderLine he,
      ih fun e' he' => h e' (List.mem_cons_of_mem e he')]
    rfl

/-- A rendered index is read back as it was. -/
theorem parseRoot_renderIndex {es : List IndexEntry} (h : ∀ e ∈ es, e.WellFormed) :
    parseRoot (renderIndex es) = .ok es := by
  have hlines : lines ((schema3 :: es.map renderLine).flatMap fun l => l ++ ['\n']) = schema3 :: es.map renderLine := by
    apply lines_flatMap
    · intro l hl
      rcases List.mem_cons.mp hl with rfl | hl
      · decide
      · obtain ⟨e, he, rfl⟩ := List.mem_map.mp hl
        exact newline_not_mem_renderLine (h e he)
    · intro l hl
      rcases List.mem_cons.mp hl with rfl | hl
      · decide
      · obtain ⟨e, -, rfl⟩ := List.mem_map.mp hl
        exact getLast_renderLine e
  rw [parseRoot, renderIndex, Utf8Codec.decode_encode]
  simp only [hlines, ne_eq, not_true_eq_false, if_false]
  exact parseRootLines_renderLine h

/-! ## Parsing, then rendering -/

theorem wellFormed_of_parse {line : Text} {e : IndexEntry} (hline : '\n' ∉ line) (h : Entry.parse line = some e) :
    e.WellFormed := by
  obtain ⟨hp, hkind, hname⟩ := entryParse_some h
  obtain ⟨subfiles, size, hs, hv, hsub, hsize⟩ := parseLine_ok hp
  have hpiece : ∀ piece ∈ [e.hash, e.kind, e.name, subfiles, size], ':' ∉ piece ∧ '\n' ∉ piece := by
    intro piece hm
    rw [← hs] at hm
    exact ⟨not_mem_of_mem_splitOn hm, fun hc => hline (mem_of_mem_splitOn hm hc)⟩
  exact ⟨hv, ⟨hkind, hpiece _ (by simp)⟩, ⟨hname, hpiece _ (by simp)⟩, parseU64_lt hsub, parseU64_lt hsize⟩

theorem wellFormed_of_parseRootLines {ls : List Text} {es : List IndexEntry} (hn : ∀ l ∈ ls, '\n' ∉ l)
    (h : parseRootLines ls = .ok es) : ∀ e ∈ es, e.WellFormed := by
  induction ls generalizing es with
  | nil =>
    cases h
    simp
  | cons line ls ih =>
    have hrest : ∀ l ∈ ls, '\n' ∉ l := fun l hl => hn l (List.mem_cons_of_mem line hl)
    rw [parseRootLines] at h
    split at h
    · exact ih hrest h
    · split at h
      · cases h
      next entry hentry =>
        obtain ⟨rest, hr, rfl⟩ := map_eq_ok.mp h
        intro e he
        rcases List.mem_cons.mp he with rfl | he
        · exact wellFormed_of_parse (hn line (by simp)) hentry
        · exact ih hrest hr e he

/-- Every entry of a root the writers accept can be rendered. -/
theorem wellFormed_of_parseRoot {bytes : Bytes} {es : List IndexEntry} (h : parseRoot bytes = .ok es) :
    ∀ e ∈ es, e.WellFormed := by
  obtain ⟨text, rest, -, hl, hp⟩ := parseRoot_ok h
  apply wellFormed_of_parseRootLines _ hp
  intro l hm
  have hmem : l ∈ lines text := by
    rw [hl]
    exact List.mem_cons_of_mem _ hm
  exact not_mem_of_mem_lines hmem

end IndexRoundTrip
