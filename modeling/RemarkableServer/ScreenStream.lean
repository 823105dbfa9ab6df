import Mathlib.Data.List.Chain
import RemarkableServer.ScreenFrames

/-!
# What a browser sees of the screen

The viewer's sessions publish their frames, numbered from one in each session, on a channel that
keeps only the latest; the end of the supervisor clears it. A browser's loop observes some of
these values, and sends a patch when the number is the next one. The number may be the next one of
another session: then the patch is drawn over the wrong picture.
-/
namespace ScreenStream

open ScreenFrames

variable {P : Type}

inductive Publishing where
  /-- A new session begins to count its frames. -/
  | session
  | frame (frame : Frame)
  /-- The end of the supervisor. -/
  | stop

/-- A shot, and where it was published. -/
structure Published (P : Type) where
  session : Nat
  index : Nat
  shot : Shot P

/-- The shot of a frame, after a number of frames in its session. -/
def shotOf (codec : Codec P) (frames : Nat) (frame : Frame) : Shot P where
  seq := (frames + 1) % maxU64
  frame := frame
  patch :=
    if frame.changed = frame.fullArea then none
    else (encodePng codec frame frame.changed).map fun png => (frame.changed, png)

/-- What is published, after a number of frames in a session. -/
def values (codec : Codec P) : Nat → Nat → List Publishing → List (Option (Published P))
  | _, _, [] => []
  | session, _, .session :: rest => values codec (session + 1) 0 rest
  | session, frames, .frame frame :: rest =>
    some ⟨session, frames, shotOf codec frames frame⟩ :: values codec session (frames + 1) rest
  | session, frames, .stop :: rest => none :: values codec session frames rest

/-- The first frame of a session has all of it changed, and any other differs from the one before inside its changed area. -/
def Faithful : Option Frame → List Publishing → Prop
  | _, [] => True
  | _, .session :: rest => Faithful none rest
  | previous, .frame frame :: rest =>
    previous.elim (frame.changed = frame.fullArea) (DiffersInside · frame) ∧ Faithful (some frame) rest
  | previous, .stop :: rest => Faithful previous rest

/-- The `stream` loop of a browser, and its canvas. -/
structure Browser where
  lastSeq : Option Nat
  canvas : Canvas

def observe (codec : Codec P) (b : Browser) : Option (Published P) → Browser
  | none => { b with lastSeq := none }
  | some p => ⟨some p.shot.seq, paint codec (frameMessage codec p.shot b.lastSeq) b.canvas⟩

def stream (codec : Codec P) (b : Browser) (observed : List (Option (Published P))) : Browser :=
  observed.foldl (observe codec) b

/-- A shot with a patch that has the next number after the shot observed before it was published right after that shot. -/
def follows : Option (Published P) → Option (Published P) → Bool
  | some p, some q =>
    !(q.shot.patch.isSome && p.shot.seq == (q.shot.seq + (maxU64 - 1)) % maxU64) ||
      (q.session == p.session && q.index == p.index + 1)
  | _, _ => true

/-! ## What is published -/

variable {codec : Codec P} {session frames : Nat} {steps : List Publishing} {previous : Option Frame} {p q : Published P}

theorem place_of_mem (h : some p ∈ values codec session frames steps) :
    (session < p.session ∨ session = p.session ∧ frames ≤ p.index) ∧ p.shot = shotOf codec p.index p.shot.frame := by
  induction steps generalizing session frames with
  | nil => simp [values] at h
  | cons step rest ih =>
    cases step with
    | session =>
      obtain ⟨hplace, hshot⟩ := ih h
      exact ⟨by omega, hshot⟩
    | stop =>
      simp only [values, List.mem_cons, reduceCtorEq, false_or] at h
      exact ih h
    | frame frame =>
      simp only [values, List.mem_cons, Option.some.injEq] at h
      rcases h with rfl | h
      · exact ⟨Or.inr ⟨rfl, Nat.le_refl _⟩, rfl⟩
      · obtain ⟨hplace, hshot⟩ := ih h
        exact ⟨by omega, hshot⟩

theorem differs_from_previous {frame : Frame} (hfaithful : Faithful (some frame) steps)
    (h : some q ∈ values codec session frames steps) (hsession : q.session = session) (hindex : q.index = frames) :
    DiffersInside frame q.shot.frame := by
  induction steps with
  | nil => simp [values] at h
  | cons step rest ih =>
    cases step with
    | session =>
      obtain ⟨hplace, -⟩ : (session + 1 < q.session ∨ session + 1 = q.session ∧ 0 ≤ q.index) ∧ _ := place_of_mem h
      omega
    | stop =>
      simp only [values, List.mem_cons, reduceCtorEq, false_or] at h
      exact ih hfaithful h
    | frame next =>
      simp only [values, List.mem_cons, Option.some.injEq] at h
      rcases h with rfl | h
      · exact hfaithful.1
      · have hplace := (place_of_mem h).1
        omega

/-- A frame differs from the frame published right before it in its session only inside its changed area. -/
theorem differs_inside (hfaithful : Faithful previous steps) (hp : some p ∈ values codec session frames steps)
    (hq : some q ∈ values codec session frames steps) (hsession : q.session = p.session) (hindex : q.index = p.index + 1) :
    DiffersInside p.shot.frame q.shot.frame := by
  induction steps generalizing session frames previous with
  | nil => simp [values] at hp
  | cons step rest ih =>
    cases step with
    | session => exact ih hfaithful hp hq
    | stop =>
      simp only [values, List.mem_cons, reduceCtorEq, false_or] at hp hq
      exact ih hfaithful hp hq
    | frame frame =>
      simp only [values, List.mem_cons, Option.some.injEq] at hp hq
      rcases hp with rfl | hp
      · rcases hq with rfl | hq
        · simp at hindex
        · exact differs_from_previous hfaithful.2 hq hsession hindex
      · rcases hq with rfl | hq
        · have hplace := (place_of_mem hp).1
          simp only at hsession hindex
          omega
        · exact ih hfaithful.2 hp hq

/-! ## What is shown -/

variable {observed : List (Option (Published P))} {canvas : Canvas}

/-- After what was observed, the browser knows the number of the last shot and shows its frame. -/
def Shown (observed : List (Option (Published P))) (b : Browser) : Prop :=
  (observed.getLast?.join = none → b.lastSeq = none) ∧
    ∀ p, observed.getLast?.join = some p → b.lastSeq = some p.shot.seq ∧ Shows b.canvas p.shot.frame.toImage

theorem shown_observe (hfaithful : Faithful none steps) (hmem : ∀ v ∈ observed, v ∈ values codec 0 0 steps)
    (hq : some q ∈ values codec 0 0 steps) (hfollows : ∀ v, observed.getLast? = some v → follows v (some q) = true)
    {b : Browser} (h : Shown observed b) : Shows (observe codec b (some q)).canvas q.shot.frame.toImage := by
  have hshot := (place_of_mem hq).2
  simp only [observe]
  rcases frameMessage_cases codec q.shot b.lastSeq with hmsg | ⟨area, png, hpatch, hseq, hmsg⟩
  · rw [hmsg]
    exact shows_full q.shot b.canvas
  · rw [hmsg]
    -- The browser has a picture, and it is of the frame right before.
    cases hlast : observed.getLast?.join with
    | none => simp [h.1 hlast] at hseq
    | some p =>
      obtain ⟨hp, hshows⟩ := h.2 p hlast
      have hgetLast : observed.getLast? = some (some p) := Option.join_eq_some_iff.mp hlast
      have hnext : q.session = p.session ∧ q.index = p.index + 1 := by
        rw [hp, Option.some.injEq] at hseq
        simpa [follows, hpatch, hseq] using hfollows (some p) hgetLast
      rw [hshot, shotOf] at hpatch
      split at hpatch
      · cases hpatch
      next hpart =>
        obtain ⟨png', hpng, heq⟩ := Option.map_eq_some_iff.mp hpatch
        cases heq
        exact shows_patch hpng hpart
          (differs_inside hfaithful (hmem _ (List.mem_of_getLast? hgetLast)) hq hnext.1 hnext.2) hshows

theorem shown_stream (hfaithful : Faithful none steps) (hmem : ∀ v ∈ observed, v ∈ values codec 0 0 steps)
    (hgood : observed.IsChain fun v w => follows v w = true) :
    Shown observed (stream codec ⟨none, canvas⟩ observed) := by
  induction observed using List.reverseRecOn with
  | nil => exact ⟨fun _ => rfl, by simp⟩
  | append_singleton seen v ih =>
    obtain ⟨hseen, -, hlast⟩ := List.isChain_append.mp hgood
    have ih := ih (fun w hw => hmem w (List.mem_append_left _ hw)) hseen
    have hv : v ∈ values codec 0 0 steps := hmem v (by simp)
    have hstream : stream codec ⟨none, canvas⟩ (seen ++ [v]) = observe codec (stream codec ⟨none, canvas⟩ seen) v := by
      simp [stream]
    rw [hstream]
    cases v with
    | none => exact ⟨fun _ => rfl, by simp⟩
    | some q =>
      refine ⟨by simp, fun p hp => ?_⟩
      simp only [List.getLast?_append, List.getLast?_singleton, Option.some_or, Option.join_some, Option.some.injEq] at hp
      subst hp
      exact ⟨rfl, shown_observe hfaithful (fun w hw => hmem w (List.mem_append_left _ hw)) hv
        (fun w hw => hlast w hw (some q) (by simp)) ih⟩

/-- If each patch with the next number was published right after the shot observed before it, the browser shows, after each
binary message, the frame of the shot it observed. -/
theorem browser_shows_picture (codec : Codec P) (steps : List Publishing) (observed : List (Option (Published P)))
    (canvas : Canvas) (hfaithful : Faithful none steps) (hobserved : observed.Sublist (values codec 0 0 steps))
    (hgood : observed.IsChain fun v w => follows v w = true) (before after : List (Option (Published P))) (p : Published P)
    (hp : observed = before ++ some p :: after) :
    Shows (stream codec ⟨none, canvas⟩ (before ++ [some p])).canvas p.shot.frame.toImage := by
  have hbefore : before ++ [some p] <+: observed := ⟨after, by simp [hp]⟩
  have hchain := List.IsChain.prefix hgood hbefore
  have hshown : Shown (before ++ [some p]) (stream codec ⟨none, canvas⟩ (before ++ [some p])) :=
    shown_stream hfaithful (fun v hv => hobserved.subset (hbefore.subset hv)) hchain
  exact (hshown.2 p (by simp)).2

/-! ## Two sessions -/

/-- A PNG that is its image. -/
def plainCodec : Codec Image where
  encode i := if 0 < i.width ∧ 0 < i.height then some i else none
  decode := some
  empty := ⟨.gray8, 0, 0, []⟩
  lossless i p h := by
    split at h
    · exact h.symm ▸ rfl
    · cases h
  total i hw hh _ := by simp [hw, hh]

/-- Two pixels in a row, of which all from a column on have changed. -/
def twoPixels (left right : UInt8) (start : Nat) (h : start ≤ 2) : Frame where
  format := .gray8
  width := 2
  height := 1
  data := [left, right]
  changed := ⟨start, 0, 2 - start, 1⟩
  size := rfl
  inside := ⟨Nat.le_of_eq (Nat.add_sub_cancel' h), Nat.le_refl _⟩
  small := by decide

/-- A session with one frame, and a session with a frame and a patch of its right pixel. -/
def twoSessions : List Publishing :=
  [.frame (twoPixels 0 0 0 (by decide)), .session, .frame (twoPixels 9 9 0 (by decide)), .frame (twoPixels 9 5 1 (by decide))]

def shotAt (session index : Nat) (left right : UInt8) (start : Nat) (h : start ≤ 2) : Option (Published Image) :=
  some ⟨session, index, shotOf plainCodec index (twoPixels left right start h)⟩

theorem faithful_twoSessions : Faithful none twoSessions := by
  have hpatch : DiffersInside (twoPixels 9 9 0 (by decide)) (twoPixels 9 5 1 (by decide)) := by
    refine Or.inr ⟨rfl, rfl, fun x hx y hy hout => ?_⟩
    have hx : x < 2 := hx
    have hy : y < 1 := hy
    have hx0 : x = 0 := by
      by_contra hne
      exact hout (by simp [Area.contains, twoPixels]; omega)
    have hy0 : y = 0 := by omega
    subst hx0 hy0
    decide
  exact ⟨rfl, rfl, hpatch, trivial⟩

/-- A browser that observes both shots of the second session shows the second one. -/
theorem second_session_shown :
    Shows (stream plainCodec ⟨none, .blank 0 0⟩
      [shotAt 1 0 9 9 0 (by decide), shotAt 1 1 9 5 1 (by decide)]).canvas (twoPixels 9 5 1 (by decide)).toImage :=
  browser_shows_picture plainCodec twoSessions [shotAt 1 0 9 9 0 (by decide), shotAt 1 1 9 5 1 (by decide)] (.blank 0 0)
    faithful_twoSessions (List.sublist_cons_self _ _) (by decide) [shotAt 1 0 9 9 0 (by decide)] [] _ rfl

/-- One that missed the first shot of the second session draws the patch over the picture of the first session. -/
theorem patch_over_other_session :
    Faithful none twoSessions ∧
      [shotAt 0 0 0 0 0 (by decide), shotAt 1 1 9 5 1 (by decide)].Sublist (values plainCodec 0 0 twoSessions) ∧
      ¬Shows (stream plainCodec ⟨none, .blank 0 0⟩
        [shotAt 0 0 0 0 0 (by decide), shotAt 1 1 9 5 1 (by decide)]).canvas (twoPixels 9 5 1 (by decide)).toImage := by
  refine ⟨faithful_twoSessions, ?_, fun h => ?_⟩
  · exact List.Sublist.cons_cons _ (List.sublist_cons_self _ _)
  · have hleft := h.pixel 0 (by decide) 0 (by decide)
    revert hleft
    decide

end ScreenStream
