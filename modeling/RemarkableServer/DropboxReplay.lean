import Mathlib.Data.Char
import RemarkableServer.Lib.OrderedMap
import RemarkableServer.Lib.RustText
import RemarkableServer.Lib.SortDedup

/-!
# Replaying a Dropbox feed

`replay` keeps the last entry of each path and orders what is left by when it was
written. A listing is described by what is left; a feed that is replayed first may
say less than the feed.
-/
namespace DropboxReplay

open RustText OrderedMap

structure DropboxEntry where
  /-- `file`, `folder` or, in feeds, `deleted`. -/
  tag : Text
  id : Option Text
  name : Text
  pathLower : Option Text
  pathDisplay : Option Text
  size : Nat
  serverModified : Option Text
  contentHash : Option Text
  deriving DecidableEq, Repr

def folderTag : Text := "folder".toList

def deletedTag : Text := "deleted".toList

/-- The prefix of the paths below a path. -/
def below (lower : Text) : Text := lower ++ ['/']

abbrev ReplayState := BTree Text (Nat × DropboxEntry)

/-- One round of the loop: what is below a file or a deletion goes, and the entry takes its path. -/
def replayEntry (keepDeletions : Bool) (state : ReplayState) (item : DropboxEntry × Nat) : ReplayState :=
  match item.1.pathLower with
  | none => state
  | some lower =>
    let state := if item.1.tag ≠ folderTag then
        removeAll state ((keysFrom state (below lower)).takeWhile (below lower).isPrefixOf)
      else state
    if item.1.tag = deletedTag ∧ keepDeletions = false then state.erase lower
    else state.insert lower (item.2, item.1)

def replay (entries : List DropboxEntry) (keepDeletions : Bool) : List DropboxEntry :=
  let state := entries.zipIdx.foldl (replayEntry keepDeletions) ∅
  ((intoValues state).insertionSort (·.1 ≤ ·.1)).map (·.2)

/-! ## What an entry does -/

/-- The path is strictly below a file or a deletion. -/
def clears (e : DropboxEntry) (path : Text) : Bool :=
  e.tag ≠ folderTag && (e.pathLower.any fun lower => (below lower).isPrefixOf path)

def touches (e : DropboxEntry) (path : Text) : Bool := e.pathLower = some path || clears e path

/-- What is live: the entry under each path. -/
abbrev Live := Text → Option DropboxEntry

/-- A folder takes its path, a file takes its path and clears what is below, a deletion clears both. -/
def apply (live : Live) (e : DropboxEntry) : Live := fun path =>
  if e.pathLower = some path then (if e.tag = deletedTag then none else some e)
  else if clears e path then none
  else live path

def applyAll (live : Live) (entries : List DropboxEntry) : Live := entries.foldl apply live

/-- The live state that replayed entries describe. -/
def described (entries : List DropboxEntry) : Live := fun path => entries.find? fun e => e.pathLower = some path

/-! ## What remains -/

section
variable {A : Type} (entry : A → DropboxEntry) (keepDeletions : Bool)

/-- Whether an entry is still there after the later ones. -/
def outlives (e : DropboxEntry) (later : List A) : Bool :=
  (e.tag ≠ deletedTag || keepDeletions) &&
    (e.pathLower.any fun path => later.all fun x => !touches (entry x) path)

/-- The entries that no later one replaces or clears. -/
def remaining : List A → List A
  | [] => []
  | a :: later => if outlives entry keepDeletions (entry a) later then a :: remaining later else remaining later

theorem remaining_sublist (l : List A) : (remaining entry keepDeletions l).Sublist l := by
  induction l with
  | nil => exact List.Sublist.slnil
  | cons a later ih =>
    rw [remaining]
    split
    · exact ih.cons_cons a
    · exact ih.cons a

theorem isSome_of_mem_remaining {l : List A} {a : A} (h : a ∈ remaining entry keepDeletions l) :
    (entry a).pathLower.isSome := by
  induction l with
  | nil => simp [remaining] at h
  | cons b l ih =>
    rw [remaining] at h
    split at h
    next hb =>
      rcases List.mem_cons.mp h with rfl | h
      · cases hp : (entry a).pathLower <;> simp [outlives, hp] at hb ⊢
      · exact ih h
    · exact ih h

theorem outlives_concat (e : DropboxEntry) (later : List A) (a : A) :
    outlives entry keepDeletions e (later ++ [a]) =
      (outlives entry keepDeletions e later && !e.pathLower.any (touches (entry a))) := by
  cases he : e.pathLower <;> simp [outlives, he, Bool.and_assoc]

/-- One entry more clears and replaces what it touches. -/
theorem remaining_concat (l : List A) (a : A) :
    remaining entry keepDeletions (l ++ [a]) =
      ((remaining entry keepDeletions l).filter fun x => !(entry x).pathLower.any (touches (entry a))) ++
        (if outlives entry keepDeletions (entry a) [] then [a] else []) := by
  induction l with
  | nil => simp [remaining]
  | cons b l ih =>
    simp only [List.cons_append, remaining, outlives_concat, ih]
    by_cases hb : outlives entry keepDeletions (entry b) l
    · by_cases ht : (entry b).pathLower.any (touches (entry a)) <;> simp [hb, ht]
    · simp [hb]

theorem remaining_map {B : Type} (f : B → A) (l : List B) :
    remaining entry keepDeletions (l.map f) = (remaining (entry ∘ f) keepDeletions l).map f := by
  induction l with
  | nil => rfl
  | cons b l ih =>
    have hout : outlives entry keepDeletions (entry (f b)) (l.map f) =
        outlives (entry ∘ f) keepDeletions (entry (f b)) l := by simp [outlives, Function.comp_def]
    simp only [List.map_cons, remaining, hout, ih, Function.comp_apply]
    split <;> rfl

end

/-! ## The state of the loop -/

theorem below_le {lower path : Text} (h : (below lower).isPrefixOf path = true) : below lower ≤ path :=
  le_of_isPrefix (List.isPrefixOf_iff_prefix.mp h)

theorem below_convex {lower k k' : Text} (h : below lower ≤ k) (h' : k ≤ k') (hp : (below lower).isPrefixOf k' = true) :
    (below lower).isPrefixOf k = true :=
  List.isPrefixOf_iff_prefix.mpr (isPrefix_of_between h h' (List.isPrefixOf_iff_prefix.mp hp))

/-- The tree after an entry: its own path, and what it touches. -/
theorem replayEntry_lookup (keepDeletions : Bool) (state : ReplayState) (e : DropboxEntry) (i : Nat) (path : Text) :
    (replayEntry keepDeletions state (e, i))[path]? =
      if e.pathLower = some path ∧ (e.tag ≠ deletedTag ∨ keepDeletions = true) then some (i, e)
      else if touches e path then none else state[path]? := by
  cases hlower : e.pathLower with
  | none => simp [replayEntry, hlower, touches, clears]
  | some lower =>
    have hcleared : ∀ q : Text, (if e.tag ≠ folderTag then
        removeAll state ((keysFrom state (below lower)).takeWhile (below lower).isPrefixOf) else state)[q]? =
          if clears e q then none else state[q]? := by
      intro q
      by_cases hf : e.tag = folderTag
      · simp [hf, clears]
      · have hrange := lookup_removeAll_range (fun _ => below_le) (fun _ _ => below_convex) state q
          (p := (below lower).isPrefixOf)
        simp [hf, clears, hlower, hrange]
    have htouches : touches e path = (decide (lower = path) || clears e path) := by
      simp [touches, hlower]
    simp only [replayEntry, hlower, htouches, Option.some.injEq]
    by_cases hd : e.tag = deletedTag ∧ keepDeletions = false
    · rw [if_pos hd, lookup_erase, hcleared]
      by_cases hp : lower = path <;> simp [hp, hd]
    · have hkeep : e.tag ≠ deletedTag ∨ keepDeletions = true := by
        by_cases htag : e.tag = deletedTag <;> simp_all
      rw [if_neg hd, lookup_insert, hcleared]
      by_cases hp : lower = path <;> simp [hp, hkeep]

/-- The tree holds what remains of the entries so far, each under its path. -/
theorem replayEntries_lookup (keepDeletions : Bool) (l : List (DropboxEntry × Nat)) (path : Text) (v : Nat × DropboxEntry) :
    (l.foldl (replayEntry keepDeletions) ∅)[path]? = some v ↔
      v.2.pathLower = some path ∧ v.swap ∈ remaining Prod.fst keepDeletions l := by
  induction l using List.reverseRecOn generalizing v with
  | nil => simp [remaining]
  | append_singleton l a ih =>
    obtain ⟨e, i⟩ := a
    have hmem : v.swap ∈ remaining Prod.fst keepDeletions (l ++ [(e, i)]) ↔
        (v.swap ∈ remaining Prod.fst keepDeletions l ∧ v.2.pathLower.any (touches e) = false) ∨
          (v = (i, e) ∧ (e.tag ≠ deletedTag ∨ keepDeletions = true) ∧ e.pathLower.isSome) := by
      have hout : outlives Prod.fst keepDeletions e ([] : List (DropboxEntry × Nat)) = true ↔
          (e.tag ≠ deletedTag ∨ keepDeletions = true) ∧ e.pathLower.isSome := by
        cases hp : e.pathLower <;> simp [outlives, hp]
      obtain ⟨n, x⟩ := v
      by_cases ho : outlives Prod.fst keepDeletions e ([] : List (DropboxEntry × Nat)) = true
      · simp [remaining_concat, ho, hout.mp ho, and_comm]
      · have hnot := mt hout.mpr ho
        simp [remaining_concat, ho, hnot]
    rw [List.foldl_append, List.foldl_cons, List.foldl_nil, replayEntry_lookup, hmem]
    by_cases hown : e.pathLower = some path
    · have htouch : touches e path = true := by simp [touches, hown]
      by_cases hkeep : e.tag ≠ deletedTag ∨ keepDeletions = true
      · rw [if_pos ⟨hown, hkeep⟩]
        constructor
        · intro h
          obtain rfl := Option.some.inj h
          exact ⟨hown, .inr ⟨rfl, hkeep, by simp [hown]⟩⟩
        · rintro ⟨hv, ⟨-, hclean⟩ | ⟨rfl, -⟩⟩
          · simp [hv, htouch] at hclean
          · rfl
      · rw [if_neg (fun h => hkeep h.2), if_pos htouch]
        constructor
        · intro h
          simp at h
        · rintro ⟨hv, ⟨-, hclean⟩ | ⟨-, hkeep', -⟩⟩
          · simp [hv, htouch] at hclean
          · exact absurd hkeep' hkeep
    · rw [if_neg (fun h => hown h.1)]
      by_cases htouch : touches e path = true
      · rw [if_pos htouch]
        constructor
        · intro h
          simp at h
        · rintro ⟨hv, ⟨-, hclean⟩ | ⟨rfl, -⟩⟩
          · simp [hv, htouch] at hclean
          · exact absurd hv hown
      · rw [if_neg htouch, ih]
        constructor
        · intro ⟨hv, hmem⟩
          exact ⟨hv, .inl ⟨hmem, by simpa [hv] using htouch⟩⟩
        · rintro ⟨hv, ⟨hmem, -⟩ | ⟨rfl, -⟩⟩
          · exact ⟨hv, hmem⟩
          · exact absurd hv hown

theorem zipIdx_pairwise (entries : List DropboxEntry) : entries.zipIdx.Pairwise (·.2 < ·.2) := by
  have h : (entries.zipIdx.map Prod.snd).Pairwise (· < ·) := by
    rw [List.zipIdx_map_snd]
    exact List.pairwise_lt_range'
  exact List.pairwise_map.mp h

/-- Replaying leaves what no later entry replaces or clears, in the order of the entries. -/
theorem replay_eq (entries : List DropboxEntry) (keepDeletions : Bool) :
    replay entries keepDeletions = remaining id keepDeletions entries := by
  set state := entries.zipIdx.foldl (replayEntry keepDeletions) ∅ with hstate
  set left := (remaining Prod.fst keepDeletions entries.zipIdx).map Prod.swap with hleft
  have hlookup := replayEntries_lookup keepDeletions entries.zipIdx
  rw [← hstate] at hlookup
  have hordered : left.Pairwise (·.1 < ·.1) := by
    rw [hleft, List.pairwise_map]
    exact (zipIdx_pairwise entries).sublist (remaining_sublist Prod.fst keepDeletions entries.zipIdx)
  have hnodup : left.Nodup := hordered.imp fun h he => by simp [he] at h
  have hvalues : (intoValues state).Nodup := nodup_intoValues (·.2.pathLower) fun k v h => ((hlookup k v).mp h).1
  have hmem : ∀ v, v ∈ intoValues state ↔ v ∈ left := by
    intro v
    have hpath : v.swap ∈ remaining Prod.fst keepDeletions entries.zipIdx → ∃ path, v.2.pathLower = some path := by
      intro h
      obtain ⟨path, hp⟩ := Option.isSome_iff_exists.mp (isSome_of_mem_remaining _ _ h)
      exact ⟨path, hp⟩
    rw [mem_intoValues, hleft, List.mem_map]
    constructor
    · intro ⟨path, h⟩
      exact ⟨v.swap, ((hlookup path v).mp h).2, Prod.swap_swap v⟩
    · intro ⟨w, hw, he⟩
      have hswap : w = v.swap := by rw [← he, Prod.swap_swap]
      obtain ⟨path, hp⟩ := hpath (hswap ▸ hw)
      exact ⟨path, (hlookup path v).mpr ⟨hp, hswap ▸ hw⟩⟩
  have hperm : (intoValues state).Perm left := (List.perm_ext_iff_of_nodup hvalues hnodup).mpr hmem
  have hentries : entries.zipIdx.map Prod.fst = entries := List.zipIdx_map_fst 0 entries
  calc replay entries keepDeletions = ((intoValues state).insertionSort (·.1 ≤ ·.1)).map (·.2) := rfl
    _ = left.map (·.2) := by rw [SortDedup.insertionSort_eq_of_perm hordered hperm]
    _ = (remaining Prod.fst keepDeletions entries.zipIdx).map Prod.fst := by simp [hleft, Function.comp_def]
    _ = remaining id keepDeletions (entries.zipIdx.map Prod.fst) := (remaining_map id keepDeletions Prod.fst entries.zipIdx).symm
    _ = remaining id keepDeletions entries := by rw [hentries]

/-! ## The last word on a path -/

/-- The last entry that says something about a path: one for it, or a file or a deletion above it. -/
def lastTouch : List DropboxEntry → Text → Option DropboxEntry
  | [], _ => none
  | e :: later, path => (lastTouch later path).or (if touches e path then some e else none)

theorem lastTouch_eq_none {entries : List DropboxEntry} {path : Text} :
    lastTouch entries path = none ↔ ∀ e ∈ entries, touches e path = false := by
  induction entries with
  | nil => simp [lastTouch]
  | cons e later ih => simp [lastTouch, ih, and_comm]

theorem lastTouch_touches {entries : List DropboxEntry} {path : Text} {e : DropboxEntry} (h : lastTouch entries path = some e) :
    e ∈ entries ∧ touches e path = true := by
  induction entries with
  | nil => simp [lastTouch] at h
  | cons x later ih =>
    rw [lastTouch, Option.or_eq_some_iff] at h
    rcases h with h | ⟨-, h⟩
    · have ⟨hmem, ht⟩ := ih h
      exact ⟨by simp [hmem], ht⟩
    · split at h
      next ht =>
        obtain rfl := Option.some.inj h
        exact ⟨by simp, ht⟩
      · simp at h

theorem lastTouch_concat (entries : List DropboxEntry) (e : DropboxEntry) (path : Text) :
    lastTouch (entries ++ [e]) path = if touches e path then some e else lastTouch entries path := by
  induction entries with
  | nil => simp [lastTouch]
  | cons x later ih =>
    rw [List.cons_append, lastTouch, ih, lastTouch]
    by_cases ht : touches e path <;> simp [ht]

/-- The last word decides what is live. -/
theorem applyAll_eq (live : Live) (entries : List DropboxEntry) (path : Text) :
    applyAll live entries path =
      match lastTouch entries path with
      | none => live path
      | some e => if e.pathLower = some path ∧ e.tag ≠ deletedTag then some e else none := by
  induction entries using List.reverseRecOn with
  | nil => rfl
  | append_singleton entries e ih =>
    rw [applyAll, List.foldl_append, List.foldl_cons, List.foldl_nil, ← applyAll, lastTouch_concat, apply, ih]
    by_cases hown : e.pathLower = some path
    · by_cases hd : e.tag = deletedTag <;> simp [touches, hown, hd]
    · by_cases hc : clears e path = true
      · simp [touches, hown, hc]
      · simp [touches, hown, hc]

theorem applyAll_append (live : Live) (a b : List DropboxEntry) : applyAll live (a ++ b) = applyAll (applyAll live a) b :=
  List.foldl_append

/-- An entry that remains has the last word on its path. -/
theorem lastTouch_of_remaining {keepDeletions : Bool} {entries : List DropboxEntry} {e : DropboxEntry} {path : Text}
    (h : e ∈ remaining id keepDeletions entries) (hpath : e.pathLower = some path) :
    lastTouch entries path = some e ∧ (e.tag ≠ deletedTag ∨ keepDeletions = true) := by
  induction entries with
  | nil => simp [remaining] at h
  | cons x later ih =>
    have hrest : e ∈ remaining id keepDeletions later →
        lastTouch (x :: later) path = some e ∧ (e.tag ≠ deletedTag ∨ keepDeletions = true) := by
      intro hmem
      obtain ⟨hlast, hkeep⟩ := ih hmem
      exact ⟨by simp [lastTouch, hlast], hkeep⟩
    by_cases hout : outlives id keepDeletions x later
    · simp only [remaining, id_eq, hout, if_true, List.mem_cons] at h
      rcases h with rfl | h
      · simp only [outlives, hpath, id_eq, Option.any_some, Bool.and_eq_true, Bool.or_eq_true, List.all_eq_true,
          Bool.not_eq_true', decide_eq_true_eq] at hout
        have hnone : lastTouch later path = none := lastTouch_eq_none.mpr hout.2
        exact ⟨by simp [lastTouch, hnone, touches, hpath], hout.1⟩
      · exact hrest h
    · simp only [remaining, id_eq, hout, Bool.false_eq_true, if_false] at h
      exact hrest h

/-- The last word on a path remains, if it is an entry for the path. -/
theorem remaining_of_lastTouch (keepDeletions : Bool) {entries : List DropboxEntry} {e : DropboxEntry} {path : Text}
    (h : lastTouch entries path = some e) (hpath : e.pathLower = some path) (hkeep : e.tag ≠ deletedTag ∨ keepDeletions = true) :
    lastTouch (remaining id keepDeletions entries) path = some e := by
  induction entries with
  | nil => simp [lastTouch] at h
  | cons x later ih =>
    rw [lastTouch, Option.or_eq_some_iff] at h
    rcases h with h | ⟨hnone, h⟩
    · rw [remaining]
      split
      · simp [lastTouch, ih h]
      · exact ih h
    · split at h
      next ht =>
        obtain rfl := Option.some.inj h
        have hclean := lastTouch_eq_none.mp hnone
        have hout : outlives id keepDeletions x later = true := by simpa [outlives, hpath, hkeep] using hclean
        have hrest : lastTouch (remaining id keepDeletions later) path = none :=
          lastTouch_eq_none.mpr fun y hy => hclean y ((remaining_sublist id keepDeletions later).subset hy)
        simp [remaining, hout, lastTouch, hrest, ht]
      · simp at h

/-! ## A feed that is replayed first -/

/-- The live state of a listing: its entries one after the other. -/
def live (entries : List DropboxEntry) : Live := applyAll (fun _ => none) entries

/-- A replayed listing describes the state that its entries lead to. -/
theorem described_replay (entries : List DropboxEntry) : described (replay entries false) = live entries := by
  funext path
  rw [described, replay_eq, live, applyAll_eq]
  cases hfind : (remaining id false entries).find? fun e => e.pathLower = some path with
  | none =>
    have hnone : ∀ e ∈ remaining id false entries, e.pathLower ≠ some path := by simpa using hfind
    cases hlast : lastTouch entries path with
    | none => rfl
    | some e =>
      by_cases he : e.pathLower = some path ∧ e.tag ≠ deletedTag
      · have hrem := remaining_of_lastTouch false hlast he.1 (.inl he.2)
        exact absurd he.1 (hnone e (lastTouch_touches hrem).1)
      · simp [he]
  | some e =>
    have hpath : e.pathLower = some path := by simpa using List.find?_some hfind
    obtain ⟨hlast, hkeep⟩ := lastTouch_of_remaining (List.mem_of_find?_eq_some hfind) hpath
    have htag : e.tag ≠ deletedTag := by simpa using hkeep
    simp [hlast, hpath, htag]

/-- The feed's last word on a path clears it from above. -/
def ClearedFromAbove (feed : List DropboxEntry) (path : Text) : Prop :=
  ∃ e, lastTouch feed path = some e ∧ e.pathLower ≠ some path

/-- A file or a deletion above the path has the last word on its own path. -/
def ClearingStands (feed : List DropboxEntry) (path : Text) : Prop :=
  ∃ e lower, clears e path ∧ e.pathLower = some lower ∧ lastTouch feed lower = some e

/-- What remains of a feed clears a path where one of its entries that stand does. -/
theorem clearingStands_iff {feed : List DropboxEntry} {path : Text} (hclear : ClearedFromAbove feed path) :
    (∃ e, lastTouch (remaining id true feed) path = some e) ↔ ClearingStands feed path := by
  obtain ⟨last, hlast, hnot⟩ := hclear
  constructor
  · intro ⟨e, he⟩
    obtain ⟨hmem, ht⟩ := lastTouch_touches he
    have hown : e.pathLower ≠ some path := by
      intro hp
      have hsame := (lastTouch_of_remaining hmem hp).1
      rw [hlast, Option.some.injEq] at hsame
      exact hnot (hsame ▸ hp)
    obtain ⟨lower, hlower⟩ := Option.isSome_iff_exists.mp (isSome_of_mem_remaining id true hmem)
    exact ⟨e, lower, by simpa [touches, hown] using ht, hlower, (lastTouch_of_remaining hmem hlower).1⟩
  · intro ⟨e, lower, hclears, hlower, he⟩
    have hmem : e ∈ remaining id true feed :=
      (lastTouch_touches (remaining_of_lastTouch true he hlower (.inr rfl))).1
    cases hrem : lastTouch (remaining id true feed) path with
    | none =>
      have := lastTouch_eq_none.mp hrem e hmem
      simp [touches, hclears] at this
    | some x => exact ⟨x, rfl⟩

/-- At one path the replayed feed and the feed itself agree, unless the path is live and the feed clears it by
entries of which none stands. -/
theorem applyAll_remaining_iff (before : Live) (feed : List DropboxEntry) (path : Text) :
    applyAll before (remaining id true feed) path = applyAll before feed path ↔
      (before path ≠ none → ClearedFromAbove feed path → ClearingStands feed path) := by
  rw [applyAll_eq, applyAll_eq before feed]
  cases hlast : lastTouch feed path with
  | none =>
    have hrem : lastTouch (remaining id true feed) path = none := by
      apply lastTouch_eq_none.mpr
      intro e he
      exact lastTouch_eq_none.mp hlast e ((remaining_sublist id true feed).subset he)
    simp [hrem, ClearedFromAbove, hlast]
  | some e =>
    by_cases hown : e.pathLower = some path
    · have hrem := remaining_of_lastTouch true hlast hown (.inr rfl)
      simp [hrem, ClearedFromAbove, hlast, hown]
    · have hcleared : ClearedFromAbove feed path := ⟨e, hlast, hown⟩
      have hstands := clearingStands_iff hcleared
      cases hrem : lastTouch (remaining id true feed) path with
      | none =>
        have hno : ¬ClearingStands feed path := by
          rw [← hstands, hrem]
          simp
        simp [hown, hcleared, hno]
      | some x =>
        have hyes : ClearingStands feed path := hstands.mp ⟨x, hrem⟩
        have hx : x.pathLower ≠ some path := by
          intro hp
          have hsame := (lastTouch_of_remaining (lastTouch_touches hrem).1 hp).1
          rw [hlast, Option.some.injEq] at hsame
          exact hown (hsame ▸ hp)
        simp [hown, hx, hyes]

/-- Applying the replayed feed to a listing's live state gives what listing and feed together describe, exactly
if every live path that the feed clears from above is below an entry that stands. -/
theorem replay_feed_iff (a b : List DropboxEntry) :
    applyAll (described (replay a false)) (replay b true) = described (replay (a ++ b) false) ↔
      ∀ path, live a path ≠ none → ClearedFromAbove b path → ClearingStands b path := by
  have hboth : live (a ++ b) = applyAll (live a) b := applyAll_append _ a b
  rw [described_replay, described_replay, hboth, replay_eq, funext_iff]
  exact forall_congr' fun path => applyAll_remaining_iff (live a) b path

def entryAt (tag path : String) : DropboxEntry :=
  ⟨tag.toList, none, [], some path.toList, none, 0, none, none⟩

/-- A folder that is deleted and made again keeps the file that was in it. -/
theorem recreated_folder_keeps_its_file :
    ¬∀ a b : List DropboxEntry,
      (∀ e ∈ a ++ b, e.tag ∈ ["file".toList, folderTag, deletedTag] ∧ e.pathLower.isSome) →
        applyAll (described (replay a false)) (replay b true) = described (replay (a ++ b) false) := by
  intro h
  have hsame := h [entryAt "folder" "/x", entryAt "file" "/x/z"] [entryAt "deleted" "/x", entryAt "folder" "/x"] (by decide)
  rw [described_replay, described_replay, replay_eq] at hsame
  have hkept := congrFun hsame "/x/z".toList
  revert hkept
  decide

end DropboxReplay
