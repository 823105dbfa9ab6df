import Mathlib.Data.List.AList
import Mathlib.Data.List.Nodup
import Mathlib.Data.List.Perm.Subperm

/-!
# A directory tree

Files and directories below one root, each under the list of its names from the
root down; the root is the empty list. Names and what a file holds are arbitrary
types. There are no links: an entry is a file or a directory.
-/
namespace FileTree

variable {N F : Type} [DecidableEq N]

structure Tree (N F : Type) [DecidableEq N] where
  files : AList fun _ : List N => F
  dirs : List (List N)

namespace Tree

def empty : Tree N F := ⟨∅, []⟩

def file? (t : Tree N F) (p : List N) : Option F := t.files.lookup p

def isDir (t : Tree N F) (p : List N) : Bool := p.isEmpty || t.dirs.any (· == p)

/-- There is an entry at the path. -/
def taken (t : Tree N F) (p : List N) : Bool := (t.file? p).isSome || t.isDir p

/-- The paths of all entries but the root. -/
def entries (t : Tree N F) : List (List N) := t.files.keys ++ t.dirs

/-- A file put at the path, in place of the one there. -/
def write (t : Tree N F) (p : List N) (f : F) : Tree N F := ⟨t.files.insert p f, t.dirs⟩

/-- A file taken from one path to another. -/
def move (t : Tree N F) (p q : List N) : Tree N F :=
  match t.file? p with
  | none => t
  | some f => ⟨(t.files.erase p).insert q f, t.dirs⟩

def mkdir (t : Tree N F) (p : List N) : Tree N F := ⟨t.files, p :: t.dirs⟩

/-- The directory holds neither a file nor a directory. -/
def isEmptyDir (t : Tree N F) (p : List N) : Bool :=
  t.isDir p && !t.entries.any fun q => !q.isEmpty && q.dropLast == p

/-- An empty directory is taken away; `none` if it is not one. -/
def rmdir? (t : Tree N F) (p : List N) : Option (Tree N F) :=
  if t.isEmptyDir p then some ⟨t.files, t.dirs.filter (· ≠ p)⟩ else none

/-- A directory is taken away with all below it. -/
def removeAll (t : Tree N F) (p : List N) : Tree N F :=
  ⟨t.files.keys.foldl (fun fs q => if p.isPrefixOf q then fs.erase q else fs) t.files,
    t.dirs.filter fun q => !p.isPrefixOf q⟩

/-- A directory is taken to another path with all below it. -/
def moveDir (t : Tree N F) (p q : List N) : Tree N F :=
  let there (r : List N) : List N := q ++ r.drop p.length
  ⟨t.files.entries.foldl
      (fun fs e => if p.isPrefixOf e.1 then (fs.erase e.1).insert (there e.1) e.2 else fs) t.files,
    t.dirs.map fun r => if p.isPrefixOf r then there r else r⟩

/-- The names directly in a directory. -/
def children (t : Tree N F) (p : List N) : List N :=
  (t.entries.filterMap fun q => if q.dropLast == p then q.getLast? else none).dedup

/-- The first of the candidates that names no entry; there are more of them than entries. -/
def firstFree (t : Tree N F) (candidate : Nat → List N) : List N :=
  (((List.range (t.entries.length + 1)).map candidate).find? fun p => !t.taken p).getD (candidate 0)

theorem isDir_iff (t : Tree N F) (p : List N) : t.isDir p = true ↔ p = [] ∨ p ∈ t.dirs := by
  unfold isDir
  rw [Bool.or_eq_true, List.isEmpty_iff, List.any_eq_true]
  simp only [beq_iff_eq, exists_eq_right]

@[simp] theorem file?_write (t : Tree N F) (p q : List N) (f : F) :
    (t.write p f).file? q = if q = p then some f else t.file? q := by
  unfold file? write
  split
  next e => rw [e, AList.lookup_insert]
  next e => exact AList.lookup_insert_ne e

@[simp] theorem file?_mkdir (t : Tree N F) (p q : List N) : (t.mkdir p).file? q = t.file? q := rfl

theorem file?_rmdir? {t t' : Tree N F} {p : List N} (h : t.rmdir? p = some t') (q : List N) :
    t'.file? q = t.file? q := by
  unfold rmdir? at h
  split at h
  · cases h
    rfl
  · cases h

/-- A moved file is at its new path, and the other files are where they were. -/
theorem file?_move {t : Tree N F} {p q : List N} {f : F} (h : t.file? p = some f) (r : List N) :
    (t.move p q).file? r = if r = q then some f else if r = p then none else t.file? r := by
  have hm : t.move p q = ⟨(t.files.erase p).insert q f, t.dirs⟩ := by simp only [move, h]
  rw [hm]
  unfold file?
  split
  next e => rw [e, AList.lookup_insert]
  next e =>
    rw [AList.lookup_insert_ne e]
    split
    next e => rw [e, AList.lookup_erase]
    next e => exact AList.lookup_erase_ne e

/-- Only what is below the directory goes with it. -/
theorem file?_removeAll (t : Tree N F) {p q : List N} (h : ¬p <+: q) :
    (t.removeAll p).file? q = t.file? q := by
  have hfold : ∀ (keys : List (List N)) (fs : AList fun _ : List N => F),
      (keys.foldl (fun fs r => if p.isPrefixOf r then fs.erase r else fs) fs).lookup q = fs.lookup q := by
    intro keys
    induction keys with
    | nil => exact fun _ => rfl
    | cons r keys ih =>
      intro fs
      rw [List.foldl_cons, ih]
      split
      next hr =>
        refine AList.lookup_erase_ne ?_
        rintro rfl
        exact h (List.isPrefixOf_iff_prefix.mp hr)
      · rfl
  exact hfold _ _

/-- After a directory was taken to another path, a file is at or below that path or where it was. -/
theorem file?_moveDir {t : Tree N F} {p q r : List N} {f : F} (h : (t.moveDir p q).file? r = some f) :
    q <+: r ∨ t.file? r = some f := by
  have hfold : ∀ (es : List (Sigma fun _ : List N => F)) (fs : AList fun _ : List N => F),
      (es.foldl (fun fs e => if p.isPrefixOf e.1 then (fs.erase e.1).insert (q ++ e.1.drop p.length) e.2 else fs)
        fs).lookup r = some f → q <+: r ∨ fs.lookup r = some f := by
    intro es
    induction es with
    | nil => exact fun _ h => Or.inr h
    | cons e es ih =>
      intro fs h
      rw [List.foldl_cons] at h
      refine (ih _ h).elim Or.inl fun h => ?_
      split at h
      · by_cases hr : r = q ++ e.1.drop p.length
        · exact Or.inl (hr ▸ List.prefix_append q _)
        · rw [AList.lookup_insert_ne hr] at h
          by_cases he : r = e.1
          · rw [he, AList.lookup_erase] at h
            cases h
          · rw [AList.lookup_erase_ne he] at h
            exact Or.inr h
      · exact Or.inr h
  exact hfold _ _ h

theorem taken_eq_false {t : Tree N F} {p : List N} (h : t.taken p = false) : t.file? p = none := by
  simp only [taken, Bool.or_eq_false_iff] at h
  simpa using h.1

theorem mem_entries_of_taken {t : Tree N F} {p : List N} (hp : p ≠ []) (h : t.taken p = true) :
    p ∈ t.entries := by
  simp only [taken, isDir, file?, Bool.or_eq_true, List.any_eq_true, beq_iff_eq] at h
  rcases h with h | h | ⟨q, hq, rfl⟩
  · exact List.mem_append_left _ (AList.mem_keys.mp (AList.lookup_isSome.mp h))
  · exact absurd (List.isEmpty_iff.mp h) hp
  · exact List.mem_append_right _ hq

/-- Among different candidates, one more than the tree has entries, one is free. -/
theorem taken_firstFree (t : Tree N F) {candidate : Nat → List N} (hinj : Function.Injective candidate)
    (hne : ∀ n, candidate n ≠ []) : t.taken (t.firstFree candidate) = false := by
  unfold firstFree
  cases hf : ((List.range (t.entries.length + 1)).map candidate).find? fun p => !t.taken p with
  | some p => simpa using List.find?_some hf
  | none =>
    have hall : ∀ p ∈ (List.range (t.entries.length + 1)).map candidate, p ∈ t.entries := by
      intro p hp
      have ht := List.find?_eq_none.mp hf p hp
      obtain ⟨n, -, rfl⟩ := List.mem_map.mp hp
      exact mem_entries_of_taken (hne n) (by simpa using ht)
    have hnd : ((List.range (t.entries.length + 1)).map candidate).Nodup :=
      List.nodup_range.map hinj
    have hle := (List.subperm_of_subset hnd hall).length_le
    rw [List.length_map, List.length_range] at hle
    omega

/-! ## Contents that are kept -/

section Kept
variable {C : Type} {content : F → C} {watched place : List N → Prop} {excused : C → Prop}
  {t₀ t : Tree N F}

/-- The file at the path has this content. -/
def Holds (content : F → C) (t : Tree N F) (p : List N) (c : C) : Prop := ∃ f ∈ t.file? p, content f = c

/-- Every content that `t₀` has at a watched path is there in `t` as well, or it is somewhere in
`place`, or it is excused. -/
def Kept (content : F → C) (watched place : List N → Prop) (excused : C → Prop) (t₀ t : Tree N F) : Prop :=
  ∀ p c, watched p → t₀.Holds content p c →
    t.Holds content p c ∨ (∃ q, place q ∧ t.Holds content q c) ∨ excused c

/-- Contents are kept across a change that leaves every file in place. -/
theorem Kept.congr {t' : Tree N F} (h : Kept content watched place excused t₀ t)
    (ht : ∀ p, t'.file? p = t.file? p) : Kept content watched place excused t₀ t' := by
  intro p c hp hc
  have he : ∀ q, t'.Holds content q c ↔ t.Holds content q c := by
    intro q
    unfold Holds
    rw [ht q]
  simp only [he]
  exact h p c hp hc

/-- A content stays where it is when another path is written. -/
theorem Holds.write_ne {p q : List N} {c : C} {f : F} (h : t.Holds content q c) (hq : q ≠ p) :
    (t.write p f).Holds content q c := by
  unfold Holds
  rw [file?_write, if_neg hq]
  exact h

/-- A file may be written over when its content is excused. -/
theorem Kept.write {p : List N} (f : F) (h : Kept content watched place excused t₀ t)
    (hp : ∀ c, t.Holds content p c → excused c) : Kept content watched place excused t₀ (t.write p f) := by
  intro q c hq hc
  rcases h q c hq hc with h | ⟨r, hr, h⟩ | h
  · by_cases e : q = p
    · exact Or.inr (Or.inr (hp c (e ▸ h)))
    · exact Or.inl (h.write_ne e)
  · by_cases e : r = p
    · exact Or.inr (Or.inr (hp c (e ▸ h)))
    · exact Or.inr (Or.inl ⟨r, hr, h.write_ne e⟩)
  · exact Or.inr (Or.inr h)

/-- A path that is neither watched nor in `place` may be written in any case. -/
theorem Kept.write_unwatched {p : List N} (f : F) (h : Kept content watched place excused t₀ t)
    (hw : ¬watched p) (hp : ¬place p) : Kept content watched place excused t₀ (t.write p f) := by
  intro q c hq hc
  rcases h q c hq hc with h | ⟨r, hr, h⟩ | h
  · exact Or.inl (h.write_ne fun e => hw (e ▸ hq))
  · exact Or.inr (Or.inl ⟨r, hr, h.write_ne fun e => hp (e ▸ hr)⟩)
  · exact Or.inr (Or.inr h)

/-- A content is where it was after a move to a free path, or at that path. -/
theorem Holds.move {src dst q : List N} {c : C} (h : t.Holds content q c) (hdst : t.file? dst = none) :
    (t.move src dst).Holds content q c ∨ (t.move src dst).Holds content dst c := by
  obtain ⟨f, hf, rfl⟩ := h
  cases hs : t.file? src with
  | none =>
    refine Or.inl ⟨f, ?_, rfl⟩
    simpa only [Tree.move, hs] using hf
  | some g =>
    unfold Holds
    simp only [file?_move hs]
    by_cases e : q = src
    · rw [e, hs] at hf
      cases hf
      exact Or.inr ⟨f, by simp, rfl⟩
    · refine Or.inl ⟨f, ?_, rfl⟩
      have hne : q ≠ dst := by
        rintro rfl
        rw [hdst] at hf
        cases hf
      rw [if_neg hne, if_neg e]
      exact hf

/-- A file may be moved to a free path in `place`. -/
theorem Kept.move {src dst : List N} (h : Kept content watched place excused t₀ t)
    (hdst : t.file? dst = none) (hp : place dst) :
    Kept content watched place excused t₀ (t.move src dst) := by
  intro q c hq hc
  rcases h q c hq hc with h | ⟨r, hr, h⟩ | h
  · rcases h.move hdst with h | h
    · exact Or.inl h
    · exact Or.inr (Or.inl ⟨dst, hp, h⟩)
  · rcases h.move hdst with h | h
    · exact Or.inr (Or.inl ⟨r, hr, h⟩)
    · exact Or.inr (Or.inl ⟨dst, hp, h⟩)
  · exact Or.inr (Or.inr h)

end Kept

end Tree

end FileTree
