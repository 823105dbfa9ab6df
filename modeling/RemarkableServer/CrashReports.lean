import Mathlib.Data.Char
import Mathlib.Data.List.Lex
import Mathlib.Data.List.Sort
import RemarkableServer.Lib.RustText

/-!
# Crash reports

Anyone may send a crash report, so its parts are cut, counted and renamed as they
are stored, and the oldest reports make room for the newest. Whatever the parts are
called, each gets a file of its own under a name that stays in the directory of its
report, and a report is evicted only while there are too many.
-/
namespace CrashReports

open RustText

def metaName : Text := "meta.json".toList

def incompleteMarker : Text := ".incomplete".toList

structure Limits where
  maxPartBytes : Nat
  maxParts : Nat
  maxTotalBytes : Nat
  maxReports : Nat

/-- A part of a form: its names, whether its file can be created, and its chunks, each with the number of
its bytes that land before the disk fails, if it does. -/
structure Field where
  name : Option Text
  fileName : Option Text
  created : Bool
  chunks : List (Bytes × Option Nat)

def Field.bytes (field : Field) : Bytes := (field.chunks.map Prod.fst).flatten

def isSafe (c : Char) : Bool := c.isAlphanum || c = '.' || c = '_' || c = '-'

def sanitize (raw : Text) (n : Nat) : Text :=
  let safe := (raw.filter isSafe).take 128
  if safe.isEmpty || safe.all (· = '.') then "part".toList ++ Nat.toDigits 10 n else safe

/-- The name up to its last dot, and the rest of it. -/
def stemExt (name : Text) : Text × Text :=
  match rsplitOnce '.' name with
  | some (stem, ext) => if stem.isEmpty then (name, []) else (stem, '.' :: ext)
  | none => (name, [])

def candidate (name : Text) (i : Nat) : Text :=
  (stemExt name).1 ++ '-' :: Nat.toDigits 10 i ++ (stemExt name).2

/-- The first number whose name is free. One of them is, as there are more than names in use. -/
def freeNumber (name : Text) (used : List Text) : Nat :=
  ((List.range' 1 (used.length + 1)).find? fun i => decide (candidate name i ∉ used)).getD 0

/-- `unique_name`; the name is in use after it. -/
def uniqueName (name : Text) (used : List Text) : Text :=
  if name ∉ used then name else candidate name (freeNumber name used)

/-- What is written of the chunks of a part: at most `room` bytes, up to a write that fails. With no room
left nothing is written, so nothing fails. -/
def writeChunks (room : Nat) : List (Bytes × Option Nat) → Bytes
  | [] => []
  | (chunk, failure) :: rest =>
    let kept := chunk.take room
    match if kept = [] then none else failure with
    | some landed => kept.take landed
    | none => kept ++ writeChunks (room - kept.length) rest

/-- The files of a report besides its `meta.json`, and the names in use. -/
structure Parts where
  files : List (Text × Bytes)
  used : List Text

def Parts.new : Parts := ⟨[], [metaName, incompleteMarker]⟩

/-- The loop of `store`. -/
def storeFields (limits : Limits) (s : Parts) : List Field → Parts
  | [] => s
  | field :: rest =>
    if s.files.length ≥ limits.maxParts then storeFields limits s rest
    else
      let raw := (field.fileName.or field.name).getD "part".toList
      let name := uniqueName (sanitize raw s.files.length) s.used
      if field.created then
        storeFields limits ⟨s.files ++ [(name, writeChunks limits.maxPartBytes field.chunks)], name :: s.used⟩ rest
      else ⟨s.files, name :: s.used⟩

/-! ## Names -/

/-- A name that stays in its directory: not empty, no separator, and not made of dots. -/
structure SafeName (name : Text) : Prop where
  safe : ∀ c ∈ name, isSafe c = true
  solid : ∃ c ∈ name, c ≠ '.'

theorem isSafe_digits (n : Nat) : ∀ c ∈ Nat.toDigits 10 n, isSafe c = true := by
  intro c hc
  have hdigit := Nat.isDigit_of_mem_toDigits (by omega) (by omega) hc
  simp [isSafe, Char.isAlphanum, hdigit]

theorem safeName_sanitize (raw : Text) (n : Nat) : SafeName (sanitize raw n) := by
  rw [sanitize]
  split
  · refine ⟨fun c hc => ?_, 'p', by simp, by decide⟩
    rcases List.mem_append.mp hc with hc | hc
    · have hpart : "part".toList.all isSafe = true := by decide
      exact List.all_eq_true.mp hpart c hc
    · exact isSafe_digits n c hc
  next h =>
    simp only [Bool.or_eq_true, not_or, Bool.not_eq_true] at h
    refine ⟨fun c hc => (List.mem_filter.mp (List.mem_of_mem_take hc)).2, ?_⟩
    obtain ⟨c, hc, hne⟩ := List.all_eq_false.mp h.2
    exact ⟨c, hc, by simpa using hne⟩

theorem toDigits_injective : Function.Injective (Nat.toDigits 10) := by
  intro m n h
  rw [← Nat.ofDigitChars_ten_toDigits (n := m), h, Nat.ofDigitChars_ten_toDigits]

theorem candidate_injective (name : Text) : Function.Injective (candidate name) := by
  intro i j h
  simp only [candidate, List.append_assoc, List.append_cancel_left_eq, List.cons_append, List.cons.injEq, true_and,
    List.append_cancel_right_eq] at h
  exact toDigits_injective h

/-- Among one more candidates than names in use, one is free. -/
theorem candidate_freeNumber (name : Text) (used : List Text) : candidate name (freeNumber name used) ∉ used := by
  rw [freeNumber]
  cases hfind : (List.range' 1 (used.length + 1)).find? fun i => decide (candidate name i ∉ used) with
  | some i => simpa using List.find?_some hfind
  | none =>
    have hall : ∀ i ∈ List.range' 1 (used.length + 1), candidate name i ∈ used := by
      intro i hi
      simpa using List.find?_eq_none.mp hfind i hi
    have hnodup : ((List.range' 1 (used.length + 1)).map (candidate name)).Nodup :=
      List.Nodup.map (candidate_injective name) List.nodup_range'
    have hsub : (List.range' 1 (used.length + 1)).map (candidate name) ⊆ used := by
      intro c hc
      obtain ⟨i, hi, rfl⟩ := List.mem_map.mp hc
      exact hall i hi
    have hlen := (List.subperm_of_subset hnodup hsub).length_le
    simp only [List.length_map, List.length_range'] at hlen
    omega

theorem uniqueName_not_mem (name : Text) (used : List Text) : uniqueName name used ∉ used := by
  rw [uniqueName]
  split
  next h => exact h
  · exact candidate_freeNumber name used

theorem mem_of_rsplitOnce {sep : Char} {t before after : Text} (h : rsplitOnce sep t = some (before, after)) :
    (∀ c ∈ before, c ∈ t) ∧ ∀ c ∈ after, c ∈ t := by
  rw [rsplitOnce] at h
  split at h
  · cases h
  next d rest hdrop =>
    cases h
    refine ⟨fun c hc => ?_, fun c hc => ?_⟩
    · have hmem : c ∈ t.reverse.dropWhile (· ≠ sep) := by
        rw [hdrop]
        exact List.mem_cons_of_mem _ (List.mem_reverse.mp hc)
      exact List.mem_reverse.mp ((List.dropWhile_sublist _).mem hmem)
    · exact List.mem_reverse.mp ((List.takeWhile_sublist _).mem (List.mem_reverse.mp hc))

theorem mem_stemExt {name : Text} {c : Char} (hc : c ∈ (stemExt name).1 ∨ c ∈ (stemExt name).2) : c ∈ name ∨ c = '.' := by
  rw [stemExt] at hc
  cases hsplit : rsplitOnce '.' name with
  | none =>
    rw [hsplit] at hc
    exact .inl (by simpa using hc)
  | some p =>
    obtain ⟨stem, ext⟩ := p
    obtain ⟨hstem, hext⟩ := mem_of_rsplitOnce hsplit
    simp only [hsplit] at hc
    split at hc
    · exact .inl (by simpa using hc)
    · rcases hc with hc | hc
      · exact .inl (hstem c hc)
      · rcases List.mem_cons.mp hc with rfl | hc
        · exact .inr rfl
        · exact .inl (hext c hc)

theorem safeName_uniqueName {name : Text} (h : SafeName name) (used : List Text) : SafeName (uniqueName name used) := by
  rw [uniqueName]
  split
  · exact h
  · have hpart : ∀ c, c ∈ (stemExt name).1 ∨ c ∈ (stemExt name).2 → isSafe c = true := by
      intro c hc
      rcases mem_stemExt hc with hc | rfl
      · exact h.safe c hc
      · decide
    refine ⟨fun c hc => ?_, '-', by simp [candidate], by decide⟩
    simp only [candidate, List.mem_append, List.mem_cons] at hc
    rcases hc with (hc | rfl | hc) | hc
    · exact hpart c (.inl hc)
    · decide
    · exact isSafe_digits _ c hc
    · exact hpart c (.inr hc)

/-! ## The files of a report -/

theorem writeChunks_takes (room : Nat) (chunks : List (Bytes × Option Nat)) :
    writeChunks room chunks <+: (chunks.map Prod.fst).flatten.take room := by
  induction chunks generalizing room with
  | nil => simp [writeChunks]
  | cons c rest ih =>
    obtain ⟨chunk, failure⟩ := c
    rw [writeChunks, List.map_cons, List.flatten_cons, List.take_append]
    split
    · exact (List.take_prefix _ _).trans (List.prefix_append _ _)
    · rw [List.length_take, List.prefix_append_right_inj]
      have hroom : room - min room chunk.length = room - chunk.length := by omega
      rw [hroom]
      exact ih _

/-- A disk that takes everything has the first bytes of the part. -/
theorem writeChunks_eq (room : Nat) {chunks : List (Bytes × Option Nat)} (h : ∀ c ∈ chunks, c.2 = none) :
    writeChunks room chunks = (chunks.map Prod.fst).flatten.take room := by
  induction chunks generalizing room with
  | nil => simp [writeChunks]
  | cons c rest ih =>
    obtain ⟨chunk, failure⟩ := c
    obtain rfl : failure = none := h _ List.mem_cons_self
    have hroom : room - min room chunk.length = room - chunk.length := by omega
    have hrest := ih (room - chunk.length) fun c hc => h c (List.mem_cons_of_mem _ hc)
    simp [writeChunks, hroom, hrest, List.take_append]

/-- The files hold the parts up to the first that cannot be created, and no more than may be kept. -/
theorem storeFields_contents (limits : Limits) (s : Parts) (fields : List Field) :
    (storeFields limits s fields).files.map Prod.snd = s.files.map Prod.snd ++
      ((fields.takeWhile (·.created)).take (limits.maxParts - s.files.length)).map
        fun field => writeChunks limits.maxPartBytes field.chunks := by
  induction fields generalizing s with
  | nil => simp [storeFields]
  | cons field rest ih =>
    rw [storeFields]
    split
    next hfull =>
      have hroom : limits.maxParts - s.files.length = 0 := by omega
      simp [ih, hroom]
    next hroom =>
      obtain ⟨room, hroom⟩ : ∃ room, limits.maxParts - s.files.length = room + 1 := ⟨limits.maxParts - s.files.length - 1, by omega⟩
      split
      next hcreated =>
        have hnext : limits.maxParts - (s.files.length + 1) = room := by omega
        simp [ih, hcreated, hroom, hnext]
      next hcreated => simp [hcreated]

/-- Of a report while it is stored. -/
structure Stored (limits : Limits) (s : Parts) : Prop where
  distinct : (s.files.map Prod.fst).Nodup
  inUse : ∀ f ∈ s.files, f.1 ∈ s.used
  reserved : metaName ∈ s.used ∧ incompleteMarker ∈ s.used
  free : ∀ f ∈ s.files, f.1 ≠ metaName ∧ f.1 ≠ incompleteMarker
  safe : ∀ f ∈ s.files, SafeName f.1
  short : ∀ f ∈ s.files, f.2.length ≤ limits.maxPartBytes
  few : s.files.length ≤ limits.maxParts

theorem Stored.add {limits : Limits} {s : Parts} (h : Stored limits s) {raw : Text} {content : Bytes}
    (hfew : s.files.length < limits.maxParts) (hshort : content.length ≤ limits.maxPartBytes) :
    let name := uniqueName (sanitize raw s.files.length) s.used
    Stored limits ⟨s.files ++ [(name, content)], name :: s.used⟩ := by
  intro name
  have hfree : name ∉ s.used := uniqueName_not_mem _ _
  have hsafe : SafeName name := safeName_uniqueName (safeName_sanitize _ _) _
  have hnew : ∀ f ∈ s.files ++ [(name, content)], f ∈ s.files ∨ f = (name, content) := by
    intro f hf
    simpa using hf
  refine ⟨?_, fun f hf => ?_, ⟨List.mem_cons_of_mem _ h.reserved.1, List.mem_cons_of_mem _ h.reserved.2⟩, fun f hf => ?_,
    fun f hf => ?_, fun f hf => ?_, by simpa [Nat.succ_le_iff] using hfew⟩
  · rw [List.map_append, List.nodup_append]
    refine ⟨h.distinct, by simp, fun a ha b hb => ?_⟩
    obtain ⟨f, hf, rfl⟩ := List.mem_map.mp ha
    obtain rfl : b = name := by simpa using hb
    intro he
    exact hfree (he ▸ h.inUse f hf)
  · rcases hnew f hf with hf | rfl
    · exact List.mem_cons_of_mem _ (h.inUse f hf)
    · exact List.mem_cons_self
  · rcases hnew f hf with hf | rfl
    · exact h.free f hf
    · exact ⟨fun (he : name = _) => hfree (he ▸ h.reserved.1), fun (he : name = _) => hfree (he ▸ h.reserved.2)⟩
  · rcases hnew f hf with hf | rfl
    · exact h.safe f hf
    · exact hsafe
  · rcases hnew f hf with hf | rfl
    · exact h.short f hf
    · exact hshort

theorem Stored.fields {limits : Limits} {s : Parts} (h : Stored limits s) (fields : List Field) :
    Stored limits (storeFields limits s fields) := by
  induction fields generalizing s with
  | nil => exact h
  | cons field rest ih =>
    rw [storeFields]
    split
    · exact ih h
    next hfew =>
      split
      · apply ih
        apply h.add (Nat.lt_of_not_le hfew)
        exact (writeChunks_takes _ _).length_le.trans (by simp)
      · have hsub := fun f hf => List.mem_cons_of_mem (uniqueName (sanitize ((field.fileName.or field.name).getD "part".toList)
          s.files.length) s.used) (h.inUse f hf)
        exact ⟨h.distinct, hsub, ⟨List.mem_cons_of_mem _ h.reserved.1, List.mem_cons_of_mem _ h.reserved.2⟩, h.free, h.safe,
          h.short, h.few⟩

theorem stored_new (limits : Limits) : Stored limits .new :=
  ⟨by simp [Parts.new], by simp [Parts.new], by simp [Parts.new], by simp [Parts.new], by simp [Parts.new],
    by simp [Parts.new], by simp [Parts.new]⟩

/-- Each part that is kept has a file of its own, under a name that stays in the directory of the report
and is neither of the names the server uses there, with the first bytes of the part. -/
theorem storeFields_files (limits : Limits) (fields : List Field) :
    let files := (storeFields limits .new fields).files
    (files.map Prod.fst).Nodup ∧
      List.Forall₂ (fun file field => SafeName file.1 ∧ file.1 ≠ metaName ∧ file.1 ≠ incompleteMarker ∧
        file.2 <+: field.bytes.take limits.maxPartBytes ∧
        ((∀ c ∈ field.chunks, c.2 = none) → file.2 = field.bytes.take limits.maxPartBytes))
        files ((fields.takeWhile (·.created)).take limits.maxParts) := by
  intro files
  have h : Stored limits (storeFields limits .new fields) := (stored_new limits).fields fields
  have hcontents := storeFields_contents limits .new fields
  refine ⟨h.distinct, ?_⟩
  have heq : List.Forall₂ (· = ·) (files.map Prod.snd) (((fields.takeWhile (·.created)).take limits.maxParts).map
      fun field => writeChunks limits.maxPartBytes field.chunks) := by
    rw [List.forall₂_eq_eq_eq]
    exact hcontents.trans (by simp [Parts.new])
  rw [List.forall₂_map_left_iff, List.forall₂_map_right_iff] at heq
  refine (List.forall₂_iff_zip.mp heq).elim fun hlen heach => List.forall₂_iff_zip.mpr ⟨hlen, ?_⟩
  intro file field hmem
  have hfile : file ∈ files := (List.of_mem_zip hmem).1
  have hcontent := heach hmem
  refine ⟨h.safe file hfile, (h.free file hfile).1, (h.free file hfile).2, ?_, fun hdisk => ?_⟩
  · rw [hcontent]
    exact writeChunks_takes _ _
  · rw [hcontent]
    exact writeChunks_eq _ hdisk

/-! ## The quota -/

/-- A report on the disk. `removable` is whether its directory can be deleted. -/
structure Report where
  modified : Nat
  path : Text
  size : Nat
  inProgress : Bool
  removable : Bool

/-- Oldest first, then by name. No two reports have one name, so their sizes never decide. -/
def older (a b : Report) : Bool := a.modified < b.modified || a.modified = b.modified && a.path ≤ b.path

/-- The loop of `enforce_quota`: the reports it deletes. -/
def evict (maxBytes maxReports : Nat) (keep : Option Text) (count total : Nat) : List Report → List Report
  | [] => []
  | r :: rest =>
    if count ≤ maxReports ∧ total ≤ maxBytes then []
    else if keep = some r.path || r.inProgress then evict maxBytes maxReports keep count total rest
    else if r.removable then r :: evict maxBytes maxReports keep (count - 1) (total - r.size) rest
    else evict maxBytes maxReports keep count total rest

def totalSize : List Report → Nat
  | [] => 0
  | r :: rest => r.size + totalSize rest

def enforceQuota (maxBytes maxReports : Nat) (keep : Option Text) (reports : List Report) : List Report :=
  evict maxBytes maxReports keep reports.length (totalSize reports) (reports.mergeSort older)

def Within (maxBytes maxReports : Nat) (reports : List Report) : Prop :=
  reports.length ≤ maxReports ∧ totalSize reports ≤ maxBytes

def Evictable (keep : Option Text) (r : Report) : Prop := keep ≠ some r.path ∧ r.inProgress = false ∧ r.removable = true

@[simp] theorem totalSize_append (a b : List Report) : totalSize (a ++ b) = totalSize a + totalSize b := by
  induction a with
  | nil => simp [totalSize]
  | cons r a ih => simp [totalSize, ih, Nat.add_assoc]

theorem totalSize_perm {a b : List Report} (h : a.Perm b) : totalSize a = totalSize b := by
  induction h with
  | nil => rfl
  | cons r _ ih => simp [totalSize, ih]
  | swap r s a => simp only [totalSize]; omega
  | trans _ _ ih ih' => exact ih.trans ih'

theorem within_perm {maxBytes maxReports : Nat} {a b : List Report} (h : a.Perm b) :
    Within maxBytes maxReports a ↔ Within maxBytes maxReports b := by
  simp [Within, h.length_eq, totalSize_perm h]

/-- The reports `passed` are those the loop has gone by, and `rest` are those it has yet to see. -/
structure Evicted (maxBytes maxReports : Nat) (keep : Option Text) (passed rest evicted kept : List Report) : Prop where
  perm : (evicted ++ kept).Perm rest
  evictable : ∀ e ∈ evicted, Evictable keep e
  done : Within maxBytes maxReports (passed ++ kept) ∨ ∀ r ∈ kept, ¬Evictable keep r
  oldest : ∀ e ∈ evicted, ∀ r ∈ kept, Evictable keep r → older e r = true
  needed : ∀ init last, evicted = init ++ [last] → ¬Within maxBytes maxReports (passed ++ last :: kept)

theorem Evicted.pass {maxBytes maxReports : Nat} {keep : Option Text} {passed rest evicted kept : List Report} {r : Report}
    (h : Evicted maxBytes maxReports keep (r :: passed) rest evicted kept) (hr : ¬Evictable keep r) :
    Evicted maxBytes maxReports keep passed (r :: rest) evicted (r :: kept) := by
  refine ⟨List.perm_middle.trans (h.perm.cons r), h.evictable, ?_, fun e he s hs hevict => ?_, fun init last hlast => ?_⟩
  · rw [within_perm List.perm_middle]
    exact h.done.imp id fun hnone s hs => by
      rcases List.mem_cons.mp hs with rfl | hs
      · exact hr
      · exact hnone s hs
  · rcases List.mem_cons.mp hs with rfl | hs
    · exact absurd hevict hr
    · exact h.oldest e he s hs hevict
  · have hperm : (passed ++ last :: r :: kept).Perm (r :: passed ++ last :: kept) :=
      ((List.Perm.swap _ _ _).append_left _).trans List.perm_middle
    rw [within_perm hperm]
    exact h.needed init last hlast

theorem Evicted.take {maxBytes maxReports : Nat} {keep : Option Text} {passed rest evicted kept : List Report} {r : Report}
    (h : Evicted maxBytes maxReports keep passed rest evicted kept) (hr : Evictable keep r)
    (hover : ¬Within maxBytes maxReports (passed ++ r :: rest)) (hsorted : ∀ s ∈ rest, older r s = true) :
    Evicted maxBytes maxReports keep passed (r :: rest) (r :: evicted) kept := by
  refine ⟨h.perm.cons r, fun e he => ?_, h.done, fun e he s hs hevict => ?_, fun init last hlast => ?_⟩
  · rcases List.mem_cons.mp he with rfl | he
    · exact hr
    · exact h.evictable e he
  · rcases List.mem_cons.mp he with rfl | he
    · exact hsorted s (h.perm.subset (List.mem_append_right _ hs))
    · exact h.oldest e he s hs hevict
  · cases init with
    | nil =>
      -- `r` is the only one evicted, so the rest is kept.
      obtain ⟨rfl, rfl⟩ : r = last ∧ evicted = [] := by simpa using hlast
      have hperm : (r :: kept).Perm (r :: rest) := by simpa using h.perm
      rwa [within_perm (hperm.append_left passed)]
    | cons i init => exact h.needed init last (by simpa using (List.cons.inj hlast).2)

theorem evict_spec (maxBytes maxReports : Nat) (keep : Option Text) (passed : List Report) {rest : List Report}
    (hsorted : rest.Pairwise fun a b => older a b = true) :
    ∃ kept, Evicted maxBytes maxReports keep passed rest
      (evict maxBytes maxReports keep (passed ++ rest).length (totalSize (passed ++ rest)) rest) kept := by
  induction rest generalizing passed with
  | nil => exact ⟨[], by simp [evict], by simp [evict], .inr (by simp), by simp [evict], by simp [evict]⟩
  | cons r rest ih =>
    obtain ⟨hfirst, hrest⟩ := List.pairwise_cons.mp hsorted
    have hlen : (passed ++ r :: rest).length = (r :: passed ++ rest).length := by
      simp only [List.length_append, List.length_cons]
      omega
    have hsize : totalSize (passed ++ r :: rest) = totalSize (r :: passed ++ rest) := totalSize_perm List.perm_middle
    rw [evict]
    split
    next hwithin => exact ⟨r :: rest, by simp, by simp, .inl hwithin, by simp, by simp⟩
    next hover =>
      split
      next hskip =>
        have hr : ¬Evictable keep r := by
          rintro ⟨hkeep, hprogress, -⟩
          simp [hkeep, hprogress] at hskip
        rw [hlen, hsize]
        obtain ⟨kept, hkept⟩ := ih (r :: passed) hrest
        exact ⟨_, hkept.pass hr⟩
      next hgo =>
        simp only [Bool.or_eq_true, decide_eq_true_eq, not_or, Bool.not_eq_true] at hgo
        split
        next hremovable =>
          have hcount : (passed ++ r :: rest).length - 1 = (passed ++ rest).length := by simp
          have htotal : totalSize (passed ++ r :: rest) - r.size = totalSize (passed ++ rest) := by
            simp only [totalSize_append, totalSize]
            omega
          rw [hcount, htotal]
          obtain ⟨kept, hkept⟩ := ih passed hrest
          exact ⟨kept, hkept.take ⟨hgo.1, hgo.2, hremovable⟩ hover hfirst⟩
        next hstuck =>
          rw [hlen, hsize]
          obtain ⟨kept, hkept⟩ := ih (r :: passed) hrest
          exact ⟨_, hkept.pass fun hr => hstuck hr.2.2⟩

theorem older_sorted (reports : List Report) : (reports.mergeSort older).Pairwise fun a b => older a b = true := by
  apply List.pairwise_mergeSort
  · intro a b c hab hbc
    simp only [older, Bool.or_eq_true, decide_eq_true_eq, Bool.and_eq_true] at *
    rcases hab with hab | ⟨hab, hpath⟩ <;> rcases hbc with hbc | ⟨hbc, hpath'⟩
    · exact .inl (by omega)
    · exact .inl (by omega)
    · exact .inl (by omega)
    · exact .inr ⟨by omega, hpath.trans hpath'⟩
  · intro a b
    simp only [older, Bool.or_eq_true, decide_eq_true_eq, Bool.and_eq_true]
    rcases Nat.lt_trichotomy a.modified b.modified with h | h | h
    · exact .inl (.inl h)
    · exact (le_total a.path b.path).imp (fun hp => .inr ⟨h, hp⟩) fun hp => .inr ⟨h.symm, hp⟩
    · exact .inr (.inl h)

/-- The reports that go are the oldest that may go, no more of them than the limits ask for, and the limits
hold after it unless nothing is left that may go. -/
theorem enforceQuota_least (maxBytes maxReports : Nat) (keep : Option Text) (reports : List Report) :
    ∃ kept, Evicted maxBytes maxReports keep [] reports (enforceQuota maxBytes maxReports keep reports) kept := by
  have hperm := List.mergeSort_perm reports older
  obtain ⟨kept, h⟩ := evict_spec maxBytes maxReports keep [] (older_sorted reports)
  have heq : evict maxBytes maxReports keep ([] ++ reports.mergeSort older).length (totalSize ([] ++ reports.mergeSort older))
      (reports.mergeSort older) = enforceQuota maxBytes maxReports keep reports := by
    simp [enforceQuota, totalSize_perm hperm]
  rw [heq] at h
  exact ⟨kept, h.perm.trans hperm, h.evictable, h.done, h.oldest, h.needed⟩

end CrashReports
