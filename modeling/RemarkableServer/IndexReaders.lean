import RemarkableServer.SyncIndex

/-!
# Agreement of the four index readers

On every index the strict reader accepts, the lenient reader returns the same
hashes. The delta-sync reader has no rule for the summary line of schema 4 and
lists it as one more entry, so it agrees exactly on indexes without that line.
A root the document writers accept is read alike by the strict reader.
-/
namespace IndexReaders

open RustText SyncIndex

/-- The delta-sync view of a strict entry. -/
def toGentree (e : IndexEntry) : GentreeEntry := ⟨e.hash, e.name, e.size⟩

def childHash (line : Text) : Option Text := ((split ':' line).head?).filter isValidHash

theorem trim_eq_nil {t : Text} (h : trim t = []) : ∀ c ∈ t, isWhitespace c = true := by
  rw [trim, List.rdropWhile_eq_nil_iff] at h
  have hd : t.dropWhile isWhitespace = [] := by
    cases hc : t.dropWhile isWhitespace with
    | nil => rfl
    | cons c rest =>
      have hn := List.head_dropWhile_not isWhitespace (l := t) (by simp [hc])
      simp only [hc, List.head_cons] at hn
      rw [h c (by simp [hc])] at hn
      cases hn
  exact List.dropWhile_eq_nil_iff.mp hd

/-- A blank line has one field, which is no hash. -/
theorem blank_split {line : Text} (h : isBlank line = true) :
    split ':' line = [line] ∧ isValidHash line = false := by
  have hw := trim_eq_nil (List.isEmpty_iff.mp h)
  constructor
  · apply List.splitOn_eq_singleton
    intro hc
    exact absurd (hw ':' hc) (by decide)
  · cases line with
    | nil => rfl
    | cons c rest =>
      have hc := hw c (by simp)
      have hx : (('0' ≤ c && c ≤ '9') || ('a' ≤ c && c ≤ 'f')) = false := by
        simp only [isWhitespace, Bool.or_eq_true, Bool.and_eq_true, decide_eq_true_eq, beq_iff_eq] at hc
        simp only [Bool.or_eq_false_iff, Bool.and_eq_false_iff, decide_eq_false_iff_not, Char.le_def,
          UInt32.le_iff_toNat_le, Char.reduceVal, UInt32.reduceToNat]
        have : c.val.toNat = c.toNat := rfl
        omega
      simp [isValidHash, hx]

theorem blank_childHash {line : Text} (h : isBlank line = true) : childHash line = none := by
  obtain ⟨hs, hv⟩ := blank_split h
  simp [childHash, hs, hv]

theorem blank_gentree {line : Text} (h : isBlank line = true) : gentreeLine line = none := by
  simp [gentreeLine, (blank_split h).1]

theorem summary_split {line : Text} (h : isSummary line = true) :
    ∃ c d, split ':' line = [['0'], ['.'], c, d] := by
  unfold isSummary at h
  split at h
  next a b c d hs =>
    simp only [Bool.and_eq_true, beq_iff_eq] at h
    exact ⟨c, d, by rw [hs, h.1, h.2]⟩
  next => cases h

theorem blank_not_summary {line : Text} (h : isBlank line = true) : isSummary line = false := by
  simp [isSummary, (blank_split h).1]

theorem summary_childHash {line : Text} (h : isSummary line = true) : childHash line = none := by
  obtain ⟨c, d, hs⟩ := summary_split h
  simp [childHash, hs, isValidHash]

/-- The summary line comes out of the delta-sync reader as an entry with hash `0`. -/
theorem summary_gentree {line : Text} (h : isSummary line = true) :
    ∃ id, gentreeLine line = some ⟨['0'], id, 0⟩ := by
  obtain ⟨c, d, hs⟩ := summary_split h
  exact ⟨c, by simp [gentreeLine, hs]⟩

theorem parseLine_ok {line : Text} {e : IndexEntry} (h : parseLine line = .ok e) :
    ∃ subfiles size, split ':' line = [e.hash, e.kind, e.name, subfiles, size] ∧
      isValidHash e.hash = true ∧ parseU64 subfiles = some e.subfiles ∧
      parseU64 size = some e.size := by
  unfold parseLine at h
  split at h
  next hash kind name subfiles size hs =>
    split at h
    · cases h
    next hv =>
      split at h
      next n m hn hm =>
        cases h
        exact ⟨subfiles, size, hs, by simpa using hv, hn, hm⟩
      next => cases h
  next => cases h

theorem entry_childHash {line : Text} {e : IndexEntry} (h : parseLine line = .ok e) :
    childHash line = some e.hash := by
  obtain ⟨s, z, hs, hv, -, -⟩ := parseLine_ok h
  simp [childHash, hs, hv]

theorem entry_gentree {line : Text} {e : IndexEntry} (h : parseLine line = .ok e) :
    gentreeLine line = some (toGentree e) := by
  obtain ⟨s, z, hs, hv, -, hz⟩ := parseLine_ok h
  have hne : e.hash.isEmpty = false := by
    cases he : e.hash with
    | nil => simp [he, isValidHash] at hv
    | cons c t => rfl
  simp [gentreeLine, hs, hz, hne, toGentree]

/-- Lines that the strict reader skips though they are not blank. -/
def summaryLines (schema : Text) (ls : List Text) : List Text :=
  ls.filter fun l => decide (schema = schema4) && isSummary l

/-! ## Any reader of single lines -/

section
variable {schema : Text} {ls : List Text} {es : List IndexEntry}

/-- A line that the strict reader accepts is blank, a summary or one entry. -/
theorem line_cases (h : parseLines schema ls = .ok es) {line : Text} (hline : line ∈ ls) :
    isBlank line = true ∨ line ∈ summaryLines schema ls ∨ ∃ e ∈ es, parseLine line = .ok e := by
  have hsummary : schema = schema4 ∧ isSummary line = true → line ∈ summaryLines schema ls := by
    rintro ⟨h4, hs⟩
    exact List.mem_filter.mpr ⟨hline, by simp [h4, hs]⟩
  suffices hcases : isBlank line = true ∨ (schema = schema4 ∧ isSummary line = true) ∨ ∃ e ∈ es, parseLine line = .ok e from
    hcases.imp_right fun hc => hc.imp_left hsummary
  clear hsummary
  induction ls generalizing es with
  | nil => cases hline
  | cons l ls ih =>
    unfold parseLines at h
    split at h
    next hb =>
      rcases List.mem_cons.mp hline with rfl | hline
      · exact .inl hb
      · exact ih h hline
    next hb =>
    split at h
    next hs =>
      rcases List.mem_cons.mp hline with rfl | hline
      · exact .inr (.inl hs)
      · exact ih h hline
    next =>
    split at h
    next => cases h
    next e he =>
      obtain ⟨rest, hr, rfl⟩ := map_eq_ok.mp h
      rcases List.mem_cons.mp hline with rfl | hline
      · exact .inr (.inr ⟨e, List.mem_cons_self, he⟩)
      · refine (ih hr hline).imp_right fun hc => hc.imp_right ?_
        rintro ⟨e', he', hp⟩
        exact ⟨e', List.mem_cons_of_mem e he', hp⟩

/-- A reader that passes over blank lines reads the entries from the lines that are no summaries. -/
theorem filterMap_entryLines {β : Type} {f : Text → Option β} {g : IndexEntry → Option β}
    (hblank : ∀ line, isBlank line = true → f line = none) (hentry : ∀ line e, parseLine line = .ok e → f line = g e)
    (h : parseLines schema ls = .ok es) :
    (ls.filter fun l => !(decide (schema = schema4) && isSummary l)).filterMap f = es.filterMap g := by
  induction ls generalizing es with
  | nil =>
    cases h
    rfl
  | cons line ls ih =>
    unfold parseLines at h
    split at h
    next hb =>
      rw [List.filter_cons_of_pos (by simp [blank_not_summary hb]), List.filterMap_cons_none (hblank line hb)]
      exact ih h
    next hb =>
    split at h
    next hs =>
      rw [List.filter_cons_of_neg (by simp [hs.1, hs.2])]
      exact ih h
    next hs =>
    split at h
    next => cases h
    next e he =>
      obtain ⟨rest, hr, rfl⟩ := map_eq_ok.mp h
      have hnot : (decide (schema = schema4) && isSummary line) = false := Bool.eq_false_iff.mpr (by simpa using hs)
      rw [List.filter_cons_of_pos (by rw [hnot]; rfl), List.filterMap_cons, List.filterMap_cons, hentry line e he, ih hr]

/-- Order apart, such a reader reads what it makes of the summaries and the entries. -/
theorem filterMap_lines_perm {β : Type} {f : Text → Option β} {g : IndexEntry → Option β}
    (hblank : ∀ line, isBlank line = true → f line = none) (hentry : ∀ line e, parseLine line = .ok e → f line = g e)
    (h : parseLines schema ls = .ok es) :
    (ls.filterMap f).Perm ((summaryLines schema ls).filterMap f ++ es.filterMap g) := by
  have hperm := (List.filter_append_perm (fun l => decide (schema = schema4) && isSummary l) ls).filterMap f
  rw [List.filterMap_append, filterMap_entryLines hblank hentry h] at hperm
  exact hperm.symm

/-- A reader that makes nothing of the summaries either reads the entries. -/
theorem filterMap_lines {β : Type} {f : Text → Option β} {g : IndexEntry → Option β}
    (hblank : ∀ line, isBlank line = true → f line = none) (hentry : ∀ line e, parseLine line = .ok e → f line = g e)
    (hsummary : ∀ line ∈ summaryLines schema ls, f line = none) (h : parseLines schema ls = .ok es) :
    ls.filterMap f = es.filterMap g := by
  rw [← filterMap_entryLines hblank hentry h, List.filterMap_filter]
  refine List.filterMap_congr fun line hline => ?_
  split
  next => rfl
  next hs => exact hsummary line (List.mem_filter.mpr ⟨hline, by simpa using hs⟩)

/-- Every entry is on a line. -/
theorem exists_line (h : parseLines schema ls = .ok es) {e : IndexEntry} (he : e ∈ es) : ∃ line ∈ ls, parseLine line = .ok e := by
  have hread := filterMap_entryLines (f := fun line => (parseLine line).toOption) (g := some)
    (fun line hb => by rw [parseLine, (blank_split hb).1]; rfl) (fun line e hp => by rw [hp]; rfl) h
  rw [List.filterMap_some] at hread
  rw [← hread] at he
  obtain ⟨line, hline, hparse⟩ := List.mem_filterMap.mp he
  refine ⟨line, List.mem_of_mem_filter hline, ?_⟩
  cases hp : parseLine line with
  | error e' => simp [hp, Except.toOption] at hparse
  | ok e' => simpa [hp, Except.toOption] using hparse

end

theorem lenient_lines {schema : Text} {ls : List Text} {es : List IndexEntry}
    (h : parseLines schema ls = .ok es) : ls.filterMap childHash = es.map IndexEntry.hash := by
  rw [← List.filterMap_eq_map]
  refine filterMap_lines (fun _ => blank_childHash) (fun _ _ => entry_childHash) (fun line hline => ?_) h
  have hs := (List.mem_filter.mp hline).2
  exact summary_childHash (Bool.and_eq_true_iff.mp hs).2

/-- Lines that the delta-sync reader takes for entries are those and the summaries. -/
theorem gentree_length {schema : Text} {ls : List Text} {es : List IndexEntry}
    (h : parseLines schema ls = .ok es) :
    (ls.filterMap gentreeLine).length = es.length + (summaryLines schema ls).length := by
  have hsummary : ((summaryLines schema ls).filterMap gentreeLine).length = (summaryLines schema ls).length := by
    refine List.filterMap_length_eq_length.mpr fun line hline => ?_
    obtain ⟨id, hg⟩ := summary_gentree (Bool.and_eq_true_iff.mp (List.mem_filter.mp hline).2).2
    rw [hg]
    rfl
  have hperm := filterMap_lines_perm (g := fun e => some (toGentree e)) (fun _ => blank_gentree) (fun _ _ => entry_gentree) h
  rw [hperm.length_eq, List.length_append, hsummary, ← Function.comp_def, List.filterMap_eq_map, List.length_map, Nat.add_comm]

theorem gentree_lines {schema : Text} {ls : List Text} {es : List IndexEntry}
    (h : parseLines schema ls = .ok es) (hn : summaryLines schema ls = []) :
    ls.filterMap gentreeLine = es.map toGentree := by
  rw [← List.filterMap_eq_map]
  refine filterMap_lines (fun _ => blank_gentree) (fun _ _ => entry_gentree) (fun line hline => ?_) h
  rw [hn] at hline
  cases hline

theorem gentree_lines_iff {schema : Text} {ls : List Text} {es : List IndexEntry}
    (h : parseLines schema ls = .ok es) :
    ls.filterMap gentreeLine = es.map toGentree ↔ summaryLines schema ls = [] := by
  constructor
  · intro he
    have hl := gentree_length h
    rw [he, List.length_map] at hl
    exact List.eq_nil_of_length_eq_zero (by omega)
  · exact gentree_lines h

/-- The schema line and the lines below it of an index that is UTF-8. -/
def indexLines (bytes : Bytes) : Option (Text × List Text) :=
  match Utf8Codec.decode bytes with
  | none => none
  | some text => match lines text with
    | [] => none
    | first :: rest => some (trim first, rest)

/-- A schema 4 index with a summary line among its lines. -/
def hasSummary (bytes : Bytes) : Bool :=
  match indexLines bytes with
  | none => false
  | some (schema, rest) => schema == schema4 && rest.any isSummary

theorem hasSummary_eq_false {bytes : Bytes} {schema : Text} {rest : List Text}
    (h : indexLines bytes = some (schema, rest)) :
    hasSummary bytes = false ↔ summaryLines schema rest = [] := by
  by_cases h4 : schema = schema4
  · simp [hasSummary, h, h4, summaryLines]
  · simp [hasSummary, h, h4, summaryLines]

/-- What acceptance by the strict reader says about the lines. -/
theorem parseIndex_ok {bytes : Bytes} {schema : Text} {es : List IndexEntry}
    (h : parseIndex bytes = .ok (schema, es)) :
    ∃ text first rest, Utf8Codec.decode bytes = some text ∧ lines text = first :: rest ∧
      trim first = schema ∧ parseLines schema rest = .ok es := by
  unfold parseIndex at h
  split at h
  next => cases h
  next text hd =>
    split at h
    next => cases h
    next first rest hl =>
      dsimp only at h
      split at h
      next => cases h
      next =>
        obtain ⟨es', hp, heq⟩ := map_eq_ok.mp h
        cases heq
        exact ⟨text, first, rest, hd, hl, rfl, hp⟩

theorem lenientChildren_eq {bytes : Bytes} {text first : Text} {rest : List Text}
    (hd : Utf8Codec.decode bytes = some text) (hl : lines text = first :: rest) :
    lenientChildren bytes = rest.filterMap childHash := by
  simp only [lenientChildren, Utf8Codec.decodeLossy_of_decode hd, hl, List.drop_one, List.tail_cons]
  rw [List.filter_filterMap]
  rfl

theorem gentreeIndex_eq {bytes : Bytes} {text first : Text} {rest : List Text}
    (hd : Utf8Codec.decode bytes = some text) (hl : lines text = first :: rest) :
    gentreeIndex bytes = rest.filterMap gentreeLine := by
  simp only [gentreeIndex, Utf8Codec.decodeLossy_of_decode hd, hl, List.drop_one, List.tail_cons]

/-- The lenient reader returns exactly the hashes of the strict entries. -/
theorem lenient_agrees {bytes : Bytes} {schema : Text} {es : List IndexEntry}
    (h : parseIndex bytes = .ok (schema, es)) : lenientChildren bytes = es.map IndexEntry.hash := by
  obtain ⟨text, first, rest, hd, hl, -, hp⟩ := parseIndex_ok h
  rw [lenientChildren_eq hd hl, lenient_lines hp]

/-- The delta-sync reader agrees exactly where there is no summary line. -/
theorem gentree_agrees_iff {bytes : Bytes} {schema : Text} {es : List IndexEntry}
    (h : parseIndex bytes = .ok (schema, es)) :
    gentreeIndex bytes = es.map toGentree ↔ hasSummary bytes = false := by
  obtain ⟨text, first, rest, hd, hl, hs, hp⟩ := parseIndex_ok h
  have hi : indexLines bytes = some (schema, rest) := by simp [indexLines, hd, hl, hs]
  rw [gentreeIndex_eq hd hl, gentree_lines_iff hp, hasSummary_eq_false hi]

theorem entryParse_some {line : Text} {e : IndexEntry} (h : Entry.parse line = some e) :
    parseLine line = .ok e ∧ e.kind ≠ [] ∧ e.name ≠ [] := by
  unfold Entry.parse at h
  split at h
  next hash kind name subfiles size rest hs =>
    split at h
    · cases h
    next hc =>
      simp only [Bool.or_eq_true, Bool.not_eq_true', not_or, Bool.not_eq_false] at hc
      split at h
      next n m hn hm =>
        split at h
        next hr =>
          cases h
          obtain rfl := List.isEmpty_iff.mp hr
          refine ⟨?_, fun hk => hc.1.2 (List.isEmpty_iff.mpr hk), fun hk => hc.2 (List.isEmpty_iff.mpr hk)⟩
          simp [parseLine, hs, hc.1.1, hn, hm]
        next => cases h
      next => cases h
  next => cases h

theorem parseRootLines_ok {ls : List Text} {es : List IndexEntry} (h : parseRootLines ls = .ok es) :
    parseLines schema3 ls = .ok es := by
  induction ls generalizing es with
  | nil => cases h; rfl
  | cons line ls ih =>
    unfold parseRootLines at h
    unfold parseLines
    split at h
    next hb => rw [if_pos hb]; exact ih h
    next hb =>
    split at h
    next => cases h
    next e he =>
      obtain ⟨rest, hr, rfl⟩ := map_eq_ok.mp h
      rw [if_neg hb, if_neg (fun h4 => absurd h4.1 (by decide)), (entryParse_some he).1, ih hr]
      rfl

theorem parseRoot_ok {bytes : Bytes} {es : List IndexEntry} (h : parseRoot bytes = .ok es) :
    ∃ text rest, Utf8Codec.decode bytes = some text ∧ lines text = schema3 :: rest ∧
      parseRootLines rest = .ok es := by
  unfold parseRoot at h
  split at h
  next => cases h
  next text hd =>
    split at h
    next => cases h
    next first rest hl =>
      split at h
      next => cases h
      next hf =>
        obtain rfl := not_not.mp hf
        exact ⟨text, rest, hd, hl, h⟩

/-- A root the writers accept is read alike by the strict reader. -/
theorem root_agrees {bytes : Bytes} {es : List IndexEntry} (h : parseRoot bytes = .ok es) :
    parseIndex bytes = .ok (schema3, es) := by
  obtain ⟨text, rest, hd, hl, hp⟩ := parseRoot_ok h
  have ht : trim schema3 = schema3 := by decide
  simp [parseIndex, hd, hl, ht, parseRootLines_ok hp, Except.map]

/-- For every byte string: the lenient and the delta-sync reader agree with the strict one,
where that accepts, exactly if no summary line is among its lines; and what the writers'
reader accepts the strict reader accepts with the same entries. -/
theorem readers_agree_iff_no_summary (bytes : Bytes) :
    (∀ schema es, parseIndex bytes = .ok (schema, es) →
      ((lenientChildren bytes = es.map IndexEntry.hash ∧ gentreeIndex bytes = es.map toGentree) ↔
        hasSummary bytes = false)) ∧
    (∀ es, parseRoot bytes = .ok es → ∃ schema, parseIndex bytes = .ok (schema, es)) := by
  refine ⟨fun schema es h => ?_, fun es h => ⟨schema3, root_agrees h⟩⟩
  rw [← gentree_agrees_iff h]
  exact ⟨fun ha => ha.2, fun hg => ⟨lenient_agrees h, hg⟩⟩

/-- A schema 4 index with nothing but its summary line. -/
def summaryOnly : Bytes := Utf8Codec.encode "4\n0:.:0:0\n".toList

/-- The strict reader accepts `summaryOnly` as empty; the delta-sync reader lists one entry. -/
theorem gentree_lists_summary :
    parseIndex summaryOnly = .ok (schema4, []) ∧
      gentreeIndex summaryOnly ≠ ([] : List IndexEntry).map toGentree := by
  decide +kernel

end IndexReaders
