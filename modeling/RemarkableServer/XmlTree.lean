import RemarkableServer.CalDav

/-!
# XML documents as element trees

`calendar_providers/xml.rs`: the events of a reader become an element tree on a stack of open
elements, under a depth and a number of nodes. The documents that are accepted are those of a
grammar, and each gives the tree the grammar gives it.
-/
namespace XmlTree

open RustText CalDav

def MAX_DEPTH : Nat := 64

def MAX_NODES : Nat := 500000

/-! ## The events of the reader -/

inductive ResolveResult where
  | unbound
  | bound (ns : Text)
  | unknown (pre : Text)

/-- A tag with the attributes of it that could be read. -/
structure Tag where
  namespaceOf : ResolveResult
  localName : Text
  attributes : List (Text × Text)

/-- Texts come with what decoding them gives, a reference with the character it names if it is a
character reference. -/
inductive Event where
  | start (tag : Tag)
  | empty (tag : Tag)
  | stop
  | text (decoded : Except Text Text)
  | cdata (decoded : Except Text Text)
  | generalRef (charRef : Except Text (Option Char)) (decoded : Except Text Text)
  | other

/-- Empty when unbound. -/
def ns : ResolveResult → Text
  | .bound ns => ns
  | _ => []

def resolvePredefinedEntity (name : Text) : Option Text :=
  if name = "lt".toList then some ['<']
  else if name = "gt".toList then some ['>']
  else if name = "amp".toList then some ['&']
  else if name = "apos".toList then some ['\'']
  else if name = "quot".toList then some ['"']
  else none

/-! ## The parser -/

structure State where
  stack : List Element
  root : Option Element
  budget : Nat

def tooManyNodes (limit : Nat) : Text :=
  "XML document has more than ".toList ++ showU64 limit ++ " elements and attributes".toList

def takeNode (limit budget : Nat) : Except Text Nat :=
  if budget = 0 then .error (tooManyNodes limit) else .ok (budget - 1)

/-- Each attribute is charged before it is kept. -/
def takeAttributes (limit : Nat) : List (Text × Text) → Nat → Except Text (List (Text × Text) × Nat)
  | [], budget => .ok ([], budget)
  | a :: rest, budget => do
    let budget ← takeNode limit budget
    let (attrs, budget) ← takeAttributes limit rest budget
    return (a :: attrs, budget)

def element (limit : Nat) (tag : Tag) (budget : Nat) : Except Text (Element × Nat) := do
  let budget ← takeNode limit budget
  let (attrs, budget) ← takeAttributes limit tag.attributes budget
  return (.mk (ns tag.namespaceOf) tag.localName attrs [] [], budget)

def SECOND_ROOT : Text := "XML document has more than one root element".toList

def pushText (t : Text) : Element → Element
  | .mk ns name attrs text children => .mk ns name attrs (text ++ t) children

def pushChild (child : Element) : Element → Element
  | .mk ns name attrs text children => .mk ns name attrs text (children ++ [child])

/-- A closed element goes to its parent, or is the root. -/
def close (e : Element) (s : State) : State :=
  match s.stack with
  | parent :: below => { s with stack := pushChild e parent :: below }
  | [] => { s with root := some e }

/-- Character data outside every element is skipped, undecoded. -/
def addText (decoded : Except Text Text) (s : State) : Except Text State :=
  match s.stack with
  | top :: below => do
    let t ← decoded
    return { s with stack := pushText t top :: below }
  | [] => .ok s

def resolveRef (charRef : Except Text (Option Char)) (decoded : Except Text Text) : Except Text Text := do
  match ← charRef with
  | some c => return [c]
  | none =>
    let name ← decoded
    match resolvePredefinedEntity name with
    | some v => return v
    | none => .error ("unknown entity &".toList ++ name ++ ";".toList)

def step (limit : Nat) (s : State) : Event → Except Text State
  | .start tag =>
    if MAX_DEPTH ≤ s.stack.length then .error "XML nested too deeply".toList
    else if s.stack.isEmpty && s.root.isSome then .error SECOND_ROOT
    else do
      let (el, budget) ← element limit tag s.budget
      return { s with stack := el :: s.stack, budget := budget }
  | .empty tag =>
    if s.stack.isEmpty && s.root.isSome then .error SECOND_ROOT
    else do
      let (el, budget) ← element limit tag s.budget
      return close el { s with budget := budget }
  | .stop =>
    match s.stack with
    | el :: below => .ok (close el { s with stack := below })
    | [] => .error "unbalanced end tag".toList
  | .text decoded => addText decoded s
  | .cdata decoded => addText decoded s
  | .generalRef charRef decoded => addText (resolveRef charRef decoded) s
  | .other => .ok s

/-- Up to the end of the text, or to what the reader cannot read. -/
def run (limit : Nat) : List (Except Text Event) → State → Except Text State
  | [], s => .ok s
  | event :: rest, s => do
    let event ← event
    let s ← step limit s event
    run limit rest s

def parseLimited (limit : Nat) (events : List (Except Text Event)) : Except Text Element := do
  let s ← run limit events ⟨[], none, limit⟩
  if !s.stack.isEmpty then .error "unexpected end of document".toList
  else s.root.elim (.error "no root element".toList) .ok

def parse (events : List (Except Text Event)) : Except Text Element := parseLimited MAX_NODES events

/-! ## What one step does -/

section Steps

variable {limit budget : Nat} {s : State} {e : Event} {d : Except Text Text}

/-- The nodes a tag is charged for. -/
def Tag.cost (tag : Tag) : Nat := tag.attributes.length + 1

def Tag.element (tag : Tag) (text : Text) (children : List Element) : Element :=
  .mk (ns tag.namespaceOf) tag.localName tag.attributes text children

/-- An element with more text and children. -/
def fill (t : Text) (cs : List Element) : Element → Element
  | .mk ns name attrs text children => .mk ns name attrs (text ++ t) (children ++ cs)

@[simp] theorem fill_element (tag : Tag) (t u : Text) (cs ds : List Element) :
    fill u ds (tag.element t cs) = tag.element (t ++ u) (cs ++ ds) := rfl

@[simp] theorem fill_nil (e : Element) : fill [] [] e = e := by
  cases e with
  | mk ns name attrs text children => simp [fill]

theorem fill_fill (t u : Text) (cs ds : List Element) (e : Element) :
    fill u ds (fill t cs e) = fill (t ++ u) (cs ++ ds) e := by
  cases e with
  | mk ns name attrs text children => simp [fill]

theorem pushText_eq (t : Text) (e : Element) : pushText t e = fill t [] e := by
  cases e with
  | mk ns name attrs text children => simp [fill, pushText]

theorem pushChild_eq (c e : Element) : pushChild c e = fill [] [c] e := by
  cases e with
  | mk ns name attrs text children => simp [fill, pushChild]

theorem close_cons (e parent : Element) (below : List Element) (root : Option Element) (budget : Nat) :
    close e ⟨parent :: below, root, budget⟩ = ⟨fill [] [e] parent :: below, root, budget⟩ := by
  rw [← pushChild_eq]
  rfl

/-- The character data an event stands for; none for a tag. -/
def Event.piece : Event → Option (Except Text Text)
  | .text decoded => some decoded
  | .cdata decoded => some decoded
  | .generalRef charRef decoded => some (resolveRef charRef decoded)
  | .other => some (.ok [])
  | _ => none

theorem takeAttributes_eq (attrs : List (Text × Text)) (budget : Nat) :
    takeAttributes limit attrs budget =
      if attrs.length ≤ budget then .ok (attrs, budget - attrs.length) else .error (tooManyNodes limit) := by
  induction attrs generalizing budget with
  | nil => simp [takeAttributes]
  | cons a rest ih =>
    rw [takeAttributes, takeNode]
    cases budget with
    | zero => simp [bind, Except.bind]
    | succ budget =>
      simp only [Nat.add_one_ne_zero, if_false, Nat.add_sub_cancel, bind, Except.bind, ih, List.length_cons,
        Nat.add_le_add_iff_right, Nat.add_sub_add_right]
      by_cases hle : rest.length ≤ budget
      · simp only [if_pos hle]
        rfl
      · simp only [if_neg hle]

theorem element_eq (tag : Tag) (budget : Nat) :
    element limit tag budget =
      if tag.cost ≤ budget then .ok (tag.element [] [], budget - tag.cost) else .error (tooManyNodes limit) := by
  rw [element, takeNode]
  cases budget with
  | zero => simp [bind, Except.bind, Tag.cost]
  | succ budget =>
    simp only [Nat.add_one_ne_zero, if_false, Nat.add_sub_cancel, bind, Except.bind, takeAttributes_eq, Tag.cost,
      Nat.add_le_add_iff_right, Nat.add_sub_add_right]
    by_cases hle : tag.attributes.length ≤ budget
    · simp only [if_pos hle]
      rfl
    · simp only [if_neg hle]

theorem step_outside {root : Option Element} (h : e.piece.isSome) :
    step limit ⟨[], root, budget⟩ e = .ok ⟨[], root, budget⟩ := by
  cases e with
  | start | empty | stop => cases h
  | text | cdata | generalRef | other => rfl

theorem step_piece {top : Element} {below : List Element} {root : Option Element} {t : Text} (h : e.piece = some (.ok t)) :
    step limit ⟨top :: below, root, budget⟩ e = .ok ⟨fill t [] top :: below, root, budget⟩ := by
  have hadd {d : Except Text Text} (hd : some d = some (.ok t)) :
      addText d ⟨top :: below, root, budget⟩ = .ok ⟨fill t [] top :: below, root, budget⟩ := by
    rw [Option.some.inj hd, ← pushText_eq]
    rfl
  cases e with
  | start | empty | stop => cases h
  | text => exact hadd h
  | cdata => exact hadd h
  | generalRef => exact hadd h
  | other =>
    have ht : t = [] := by cases h; rfl
    rw [ht, fill_nil]
    rfl

theorem step_stop (el : Element) (below : List Element) (root : Option Element) :
    step limit ⟨el :: below, root, budget⟩ .stop = .ok (close el ⟨below, root, budget⟩) := rfl

/-- Character data inside an element has to be decoded. -/
theorem exists_piece {top : Element} {below : List Element} {root : Option Element} {s' : State} (h : e.piece.isSome)
    (hstep : step limit ⟨top :: below, root, budget⟩ e = .ok s') : ∃ t, e.piece = some (.ok t) := by
  have hadd {d : Except Text Text} (hd : addText d ⟨top :: below, root, budget⟩ = .ok s') : ∃ t, d = .ok t := by
    cases d with
    | error => cases hd
    | ok t => exact ⟨t, rfl⟩
  cases e with
  | start | empty | stop => cases h
  | text => simpa [Event.piece] using hadd hstep
  | cdata => simpa [Event.piece] using hadd hstep
  | generalRef => simpa [Event.piece] using hadd hstep
  | other => exact ⟨[], rfl⟩

theorem step_start {tag : Tag} {stack : List Element} {root : Option Element} (hdepth : stack.length < MAX_DEPTH)
    (hroot : stack = [] → root = none) (hcost : tag.cost ≤ budget) :
    step limit ⟨stack, root, budget⟩ (.start tag) = .ok ⟨tag.element [] [] :: stack, root, budget - tag.cost⟩ := by
  have hsecond : (stack.isEmpty && root.isSome) = false := by
    cases stack with
    | nil => simp [hroot rfl]
    | cons => rfl
  simp only [step, Nat.not_le.mpr hdepth, if_false, hsecond, Bool.false_eq_true, element_eq, if_pos hcost]
  rfl

theorem step_empty {tag : Tag} {stack : List Element} {root : Option Element} (hroot : stack = [] → root = none)
    (hcost : tag.cost ≤ budget) :
    step limit ⟨stack, root, budget⟩ (.empty tag) = .ok (close (tag.element [] []) ⟨stack, root, budget - tag.cost⟩) := by
  have hsecond : (stack.isEmpty && root.isSome) = false := by
    cases stack with
    | nil => simp [hroot rfl]
    | cons => rfl
  simp only [step, hsecond, Bool.false_eq_true, if_false, element_eq, if_pos hcost]
  rfl

/-- What a start tag needs. -/
theorem of_step_start {tag : Tag} {stack : List Element} {root : Option Element} {s' : State}
    (h : step limit ⟨stack, root, budget⟩ (.start tag) = .ok s') :
    stack.length < MAX_DEPTH ∧ (stack = [] → root = none) ∧ tag.cost ≤ budget := by
  simp only [step, element_eq] at h
  split at h
  · cases h
  next hdepth =>
    split at h
    · cases h
    next hroot =>
      split at h
      next hcost => exact ⟨Nat.not_le.mp hdepth, fun hs => by simpa [hs] using hroot, hcost⟩
      · cases h

theorem of_step_empty {tag : Tag} {stack : List Element} {root : Option Element} {s' : State}
    (h : step limit ⟨stack, root, budget⟩ (.empty tag) = .ok s') : (stack = [] → root = none) ∧ tag.cost ≤ budget := by
  simp only [step, element_eq] at h
  split at h
  · cases h
  next hroot =>
    split at h
    next hcost => exact ⟨fun hs => by simpa [hs] using hroot, hcost⟩
    · cases h

end Steps

/-! ## The documents -/

/-- What stands between the tags of an element, with elements nested to a depth in it, the nodes they
count for, its text and its children. -/
inductive Content : Nat → Nat → List Event → Text → List Element → Prop
  | nil (depth : Nat) : Content depth 0 [] [] []
  | chars {depth n : Nat} {e : Event} {es : List Event} {t u : Text} {cs : List Element} :
    e.piece = some (.ok t) → Content depth n es u cs → Content depth n (e :: es) (t ++ u) cs
  | empty {depth n : Nat} {es : List Event} {u : Text} {cs : List Element} (tag : Tag) :
    Content depth n es u cs → Content depth (tag.cost + n) (.empty tag :: es) u (tag.element [] [] :: cs)
  | element {depth m n : Nat} {inner es : List Event} {t u : Text} {kids cs : List Element} (tag : Tag) :
    Content depth m inner t kids → Content (depth + 1) n es u cs →
    Content (depth + 1) (tag.cost + m + n) (.start tag :: inner ++ .stop :: es) u (tag.element t kids :: cs)

/-- Nothing but character data, that may not be decodable. -/
def Outside (events : List Event) : Prop := ∀ e ∈ events, e.piece.isSome

/-- One element, and what may stand around it. -/
inductive Document : Nat → List Event → Element → Prop
  | empty {before after : List Event} (tag : Tag) : Outside before → Outside after →
    Document tag.cost (before ++ .empty tag :: after) (tag.element [] [])
  | element {before inner after : List Event} {n : Nat} {t : Text} {cs : List Element} (tag : Tag) :
    Outside before → Content (MAX_DEPTH - 1) n inner t cs → Outside after →
    Document (tag.cost + n) (before ++ (.start tag :: inner ++ .stop :: after)) (tag.element t cs)

/-- The events before a point where elements are open: what stands outside, and for each open element its tag and
what has been read of its content. -/
inductive Open : List Event → List Element → Nat → Prop
  | nil {before : List Event} : Outside before → Open before [] 0
  | push {events es : List Event} {stack cs : List Element} {m n : Nat} {t : Text} (tag : Tag) :
    Open events stack m → stack.length < MAX_DEPTH → Content (MAX_DEPTH - (stack.length + 1)) n es t cs →
    Open (events ++ .start tag :: es) (tag.element t cs :: stack) (m + (tag.cost + n))

/-- What the parser holds after the events it has read. -/
inductive Holds (limit : Nat) (events : List Event) : State → Prop
  | opened {stack : List Element} {used budget : Nat} : Open events stack used → used + budget = limit →
    Holds limit events ⟨stack, none, budget⟩
  | closed {d : Element} {used budget : Nat} : Document used events d → used + budget = limit →
    Holds limit events ⟨[], some d, budget⟩

section Grammar

variable {limit depth m n used : Nat} {e : Event} {es fs : List Event} {t u : Text} {cs ds : List Element}

theorem Content.append (h : Content depth m es t cs) (h' : Content depth n fs u ds) :
    Content depth (m + n) (es ++ fs) (t ++ u) (cs ++ ds) := by
  induction h with
  | nil => simpa using h'
  | chars he _ ih =>
    rw [List.append_assoc]
    exact .chars he (ih h')
  | empty tag _ ih =>
    rw [Nat.add_assoc]
    exact .empty tag (ih h')
  | element tag hinner _ _ ih =>
    rw [Nat.add_assoc, List.append_assoc]
    exact .element tag hinner (ih h')

theorem Content.single (h : e.piece = some (.ok t)) : Content depth 0 [e] t [] := by
  simpa using Content.chars h (.nil depth)

theorem outside_nil : Outside [] := by
  intro e he
  cases he

theorem Outside.append (h : Outside es) (h' : Outside fs) : Outside (es ++ fs) := by
  intro e he
  rcases List.mem_append.mp he with he | he
  · exact h e he
  · exact h' e he

theorem Outside.single (h : e.piece.isSome) : Outside [e] := by
  intro f hf
  rwa [List.mem_singleton.mp hf]

/-! ### Every document is accepted -/

theorem run_append (limit : Nat) (es fs : List (Except Text Event)) (s : State) :
    run limit (es ++ fs) s = (run limit es s).bind (run limit fs) := by
  induction es generalizing s with
  | nil => rfl
  | cons e es ih =>
    cases e with
    | error => rfl
    | ok e =>
      simp only [List.cons_append, run, bind, Except.bind]
      cases step limit s e with
      | error => rfl
      | ok s' => exact ih s'

theorem run_cons {s s' : State} (h : step limit s e = .ok s') (rest : List (Except Text Event)) :
    run limit (.ok e :: rest) s = run limit rest s' := by
  simp only [run, bind, Except.bind, h]

theorem run_outside {root : Option Element} {budget : Nat} (h : Outside es) :
    run limit (es.map .ok) ⟨[], root, budget⟩ = .ok ⟨[], root, budget⟩ := by
  induction es with
  | nil => rfl
  | cons e es ih =>
    rw [List.map_cons, run_cons (step_outside (h e List.mem_cons_self))]
    exact ih fun f hf => h f (List.mem_cons_of_mem e hf)

/-- The content of an open element goes into it. -/
theorem run_content (h : Content depth n es t cs) {top : Element} {below : List Element} {budget : Nat}
    (hdepth : below.length + 1 + depth ≤ MAX_DEPTH) (hn : n ≤ budget) :
    run limit (es.map .ok) ⟨top :: below, none, budget⟩ = .ok ⟨fill t cs top :: below, none, budget - n⟩ := by
  induction h generalizing top below budget with
  | nil => simp [run]
  | chars he _ ih =>
    rw [List.map_cons, run_cons (step_piece he), ih hdepth hn, fill_fill, List.nil_append]
  | empty tag _ ih =>
    rw [List.map_cons, run_cons (step_empty (by simp) (by omega)), close_cons, ih hdepth (by omega), fill_fill,
      Nat.sub_sub, List.nil_append, List.singleton_append]
  | element tag _ _ ihinner ih =>
    have hstart : step limit ⟨top :: below, none, budget⟩ (.start tag) =
        .ok ⟨tag.element [] [] :: top :: below, none, budget - tag.cost⟩ :=
      step_start (by simp only [List.length_cons]; omega) (by simp) (by omega)
    rw [List.map_append, List.map_cons, List.map_cons, List.cons_append, run_cons hstart, run_append,
      ihinner (by simp only [List.length_cons]; omega) (by omega), fill_element, List.nil_append, List.nil_append, Except.bind,
      run_cons (step_stop _ _ _), close_cons, ih hdepth (by omega), fill_fill, List.nil_append, List.singleton_append]
    congr 2
    omega

/-- An accepted document, within its limit. -/
theorem parseLimited_document {d : Element} (h : Document n es d) (hn : n ≤ limit) :
    parseLimited limit (es.map .ok) = .ok d := by
  have hrun : run limit (es.map .ok) ⟨[], none, limit⟩ = .ok ⟨[], some d, limit - n⟩ := by
    cases h with
    | empty tag hbefore hafter =>
      rw [List.map_append, run_append, run_outside hbefore, Except.bind, List.map_cons, run_cons (step_empty (fun _ => rfl) hn)]
      exact run_outside hafter
    | element tag hbefore hcontent hafter =>
      have hstart : step limit ⟨[], none, limit⟩ (.start tag) = .ok ⟨[tag.element [] []], none, limit - tag.cost⟩ :=
        step_start (by decide) (fun _ => rfl) (by omega)
      rw [List.map_append, run_append, run_outside hbefore, Except.bind, List.map_append, List.map_cons, List.map_cons,
        List.cons_append, run_cons hstart, run_append, run_content hcontent (by decide) (by omega), Except.bind, run_cons (step_stop _ _ _),
        Nat.sub_sub]
      exact run_outside hafter
  rw [parseLimited, hrun]
  rfl

/-! ### What is accepted is a document -/

/-- More content for the element on top. -/
theorem Open.fill {top : Element} {stack : List Element} (h : Open es (top :: stack) m)
    (hc : Content (MAX_DEPTH - (stack.length + 1)) n fs u ds) : Open (es ++ fs) (fill u ds top :: stack) (m + n) := by
  cases h with
  | push tag hopen hdepth hcontent =>
    rw [List.append_assoc, fill_element, List.cons_append, Nat.add_assoc, Nat.add_assoc]
    exact .push tag hopen hdepth (hcontent.append hc)

theorem Document.outside {d : Element} (h : Document n es d) (hfs : Outside fs) : Document n (es ++ fs) d := by
  cases h with
  | empty tag hbefore hafter =>
    rw [List.append_assoc]
    exact .empty tag hbefore (hafter.append hfs)
  | element tag hbefore hcontent hafter =>
    rw [List.append_assoc, List.append_assoc]
    exact .element tag hbefore hcontent (hafter.append hfs)

variable {s s' : State} {tag : Tag}

theorem Holds.chars (h : Holds limit es s) (he : e.piece.isSome) (hstep : step limit s e = .ok s') :
    Holds limit (es ++ [e]) s' := by
  cases h with
  | closed hdoc hused =>
    rw [step_outside he] at hstep
    cases hstep
    exact .closed (hdoc.outside (.single he)) hused
  | @opened stack used budget hopen hused =>
    cases stack with
    | nil =>
      rw [step_outside he] at hstep
      cases hstep
      cases hopen with
      | nil hbefore => exact .opened (.nil (hbefore.append (.single he))) hused
    | cons top below =>
      obtain ⟨t, ht⟩ := exists_piece he hstep
      rw [step_piece ht] at hstep
      cases hstep
      exact .opened (hopen.fill (.single ht)) hused

theorem Holds.start (h : Holds limit es s) (hstep : step limit s (.start tag) = .ok s') :
    Holds limit (es ++ [.start tag]) s' := by
  cases h with
  | closed =>
    obtain ⟨-, hroot, -⟩ := of_step_start hstep
    cases hroot rfl
  | @opened stack used budget hopen hused =>
    obtain ⟨hdepth, hroot, hcost⟩ := of_step_start hstep
    have hleft : used + (tag.cost + 0) + (budget - tag.cost) = limit := by omega
    rw [step_start hdepth hroot hcost] at hstep
    cases hstep
    exact .opened (.push tag hopen hdepth (.nil _)) hleft

theorem Holds.empty (h : Holds limit es s) (hstep : step limit s (.empty tag) = .ok s') :
    Holds limit (es ++ [.empty tag]) s' := by
  cases h with
  | closed =>
    obtain ⟨hroot, -⟩ := of_step_empty hstep
    cases hroot rfl
  | @opened stack used budget hopen hused =>
    obtain ⟨hroot, hcost⟩ := of_step_empty hstep
    have hleft : used + (tag.cost + 0) + (budget - tag.cost) = limit := by omega
    rw [step_empty hroot hcost] at hstep
    cases stack with
    | nil =>
      cases hstep
      cases hopen with
      | nil hbefore => exact .closed (.empty tag hbefore outside_nil) (by simpa using hleft)
    | cons top below =>
      rw [close_cons] at hstep
      cases hstep
      exact .opened (hopen.fill (.empty tag (.nil _))) hleft

/-- An element closed inside another is content of it. -/
theorem Open.close {el top : Element} {stack : List Element} (h : Open es (el :: top :: stack) m) :
    Open (es ++ [.stop]) (XmlTree.fill [] [el] top :: stack) m := by
  cases h with
  | @push events inner _ kids m n t tag hopen hdepth hcontent =>
    have hparent : Content (MAX_DEPTH - (stack.length + 1)) (tag.cost + n + 0) (.start tag :: inner ++ .stop :: []) []
        (tag.element t kids :: []) := by
      have hsucc : MAX_DEPTH - (stack.length + 1) = MAX_DEPTH - (stack.length + 1 + 1) + 1 := by
        simp only [List.length_cons] at hdepth
        omega
      rw [hsucc]
      exact .element tag hcontent (.nil _)
    rw [List.append_assoc]
    exact hopen.fill hparent

theorem Holds.stop (h : Holds limit es s) (hstep : step limit s .stop = .ok s') : Holds limit (es ++ [.stop]) s' := by
  cases h with
  | closed => cases hstep
  | @opened stack used budget hopen hused =>
    cases stack with
    | nil => cases hstep
    | cons el below =>
      rw [step_stop] at hstep
      cases below with
      | nil =>
        cases hstep
        cases hopen with
        | push tag hopen _ hcontent =>
          cases hopen with
          | nil hbefore =>
            rw [Nat.zero_add] at hused
            rw [List.append_assoc]
            exact .closed (.element tag hbefore hcontent outside_nil) hused
      | cons top below =>
        rw [close_cons] at hstep
        cases hstep
        exact .opened hopen.close hused

theorem step_holds (h : Holds limit es s) (hstep : step limit s e = .ok s') : Holds limit (es ++ [e]) s' := by
  cases e with
  | start tag => exact h.start hstep
  | empty tag => exact h.empty hstep
  | stop => exact h.stop hstep
  | text | cdata | generalRef | other => exact h.chars rfl hstep

theorem run_holds {events : List (Except Text Event)} (h : Holds limit es s) (hrun : run limit events s = .ok s') :
    ∃ fs, events = fs.map .ok ∧ Holds limit (es ++ fs) s' := by
  induction events generalizing es s with
  | nil =>
    cases hrun
    exact ⟨[], rfl, by simpa using h⟩
  | cons event rest ih =>
    cases event with
    | error => cases hrun
    | ok e =>
      simp only [run, bind, Except.bind] at hrun
      cases hstep : step limit s e with
      | error => simp [hstep] at hrun
      | ok t =>
        simp only [hstep] at hrun
        obtain ⟨fs, rfl, hfs⟩ := ih (step_holds h hstep) hrun
        exact ⟨e :: fs, rfl, by simpa using hfs⟩

/-- A text is accepted with a tree exactly when it can be read to its end, is a document nested at most
`MAX_DEPTH` deep with at most the nodes allowed, and the tree is the one the grammar gives it. -/
theorem parseLimited_iff (limit : Nat) (events : List (Except Text Event)) (d : Element) :
    parseLimited limit events = .ok d ↔ ∃ es n, events = es.map .ok ∧ n ≤ limit ∧ Document n es d := by
  constructor
  · intro h
    simp only [parseLimited, bind, Except.bind] at h
    cases hrun : run limit events ⟨[], none, limit⟩ with
    | error => simp [hrun] at h
    | ok s =>
      simp only [hrun] at h
      have hinit : Holds limit [] ⟨[], none, limit⟩ := .opened (.nil outside_nil) (Nat.zero_add limit)
      obtain ⟨es, rfl, hs⟩ := run_holds hinit hrun
      cases hs with
      | @opened stack =>
        cases stack with
        | nil => cases h
        | cons => cases h
      | closed hdoc hused =>
        cases h
        exact ⟨es, _, rfl, by omega, hdoc⟩
  · rintro ⟨es, n, rfl, hn, hdoc⟩
    exact parseLimited_document hdoc hn

end Grammar

/-! ## What the tree costs -/

mutual

/-- The elements and attributes of a tree. -/
def nodes : Element → Nat
  | .mk _ _ attrs _ children => attrs.length + 1 + allNodes children

def allNodes : List Element → Nat
  | [] => 0
  | c :: cs => nodes c + allNodes cs

end

mutual

def height : Element → Nat
  | .mk _ _ _ _ children => 1 + maxHeight children

def maxHeight : List Element → Nat
  | [] => 0
  | c :: cs => max (height c) (maxHeight cs)

end

/-- The elements and attributes the parser has built. -/
def State.nodes (s : State) : Nat := allNodes s.stack + allNodes s.root.toList

/-- An element with what was built in it. -/
def closeInto (child : Option Element) (parent : Element) : Option Element := some (child.elim parent (pushChild · parent))

/-- The tree when every open element ends where it is. -/
def State.tree (s : State) : Option Element := s.stack.foldl closeInto s.root

/-- An end tag takes nothing from the tree and adds nothing to it. -/
theorem tree_close (e : Element) (below : List Element) (budget : Nat) :
    (close e ⟨below, none, budget⟩).tree = (⟨e :: below, none, budget⟩ : State).tree := by
  cases below with
  | nil => rfl
  | cons parent below => rfl

section Cost

variable {limit depth n : Nat} {es : List Event} {t : Text} {cs : List Element}

theorem nodes_element (tag : Tag) (t : Text) (cs : List Element) : nodes (tag.element t cs) = tag.cost + allNodes cs := by
  simp only [Tag.element, nodes, Tag.cost]

theorem height_element (tag : Tag) (t : Text) (cs : List Element) : height (tag.element t cs) = 1 + maxHeight cs := by
  simp only [Tag.element, height]

theorem Content.nodes (h : Content depth n es t cs) : allNodes cs = n := by
  induction h with
  | nil => rfl
  | chars _ _ ih => exact ih
  | empty tag _ ih =>
    simp only [allNodes, nodes_element]
    omega
  | element tag _ _ ihinner ih =>
    simp only [allNodes, nodes_element]
    omega

theorem Content.height (h : Content depth n es t cs) : maxHeight cs ≤ depth + 1 := by
  induction h with
  | nil => exact Nat.zero_le _
  | chars _ _ ih => exact ih
  | empty tag _ ih =>
    simp only [maxHeight, height_element]
    omega
  | element tag _ _ ihinner ih =>
    simp only [maxHeight, height_element]
    omega

theorem Document.cost {d : Element} (h : Document n es d) : XmlTree.nodes d = n ∧ XmlTree.height d ≤ MAX_DEPTH + 1 := by
  cases h with
  | empty tag =>
    simp only [nodes_element, height_element, allNodes, maxHeight]
    omega
  | element tag _ hcontent _ =>
    have hdepth : MAX_DEPTH - 1 + 1 = MAX_DEPTH := by decide
    have hnodes := hcontent.nodes
    have hheight := hcontent.height
    simp only [nodes_element, height_element]
    omega

theorem Open.cost {stack : List Element} (h : Open es stack n) :
    allNodes stack = n ∧ stack.length ≤ MAX_DEPTH ∧ maxHeight stack ≤ MAX_DEPTH + 1 := by
  induction h with
  | nil => exact ⟨rfl, Nat.zero_le _, Nat.zero_le _⟩
  | push tag _ hdepth hcontent ih =>
    obtain ⟨hstack, -, hmax⟩ := ih
    have hnodes := hcontent.nodes
    have hheight := hcontent.height
    simp only [allNodes, nodes_element, maxHeight, height_element, List.length_cons]
    omega

theorem closeInto_element (child : Option Element) (tag : Tag) (t : Text) (cs : List Element) :
    closeInto child (tag.element t cs) = some (tag.element t (cs ++ child.toList)) := by
  cases child with
  | none => rw [Option.toList_none, List.append_nil]; rfl
  | some c => rfl

theorem allNodes_append (cs ds : List Element) : allNodes (cs ++ ds) = allNodes cs + allNodes ds := by
  induction cs with
  | nil => exact (Nat.zero_add _).symm
  | cons c cs ih => rw [List.cons_append, allNodes, allNodes, ih, Nat.add_assoc]

theorem maxHeight_append (cs ds : List Element) : maxHeight (cs ++ ds) = max (maxHeight cs) (maxHeight ds) := by
  induction cs with
  | nil => exact (Nat.zero_max _).symm
  | cons c cs ih => rw [List.cons_append, maxHeight, maxHeight, ih, Nat.max_assoc]

/-- Closing the open elements around a tree adds their nodes to it, and at most their number to its height. -/
theorem Open.tree {stack : List Element} (h : Open es stack n) {child : Option Element}
    (hheight : maxHeight child.toList + stack.length ≤ MAX_DEPTH + 1) :
    allNodes (stack.foldl closeInto child).toList = allNodes child.toList + n ∧
      maxHeight (stack.foldl closeInto child).toList ≤ MAX_DEPTH + 1 := by
  induction h generalizing child with
  | nil => exact ⟨rfl, hheight⟩
  | @push _ _ stack cs m k t tag _ hdepth hcontent ih =>
    have hkids := hcontent.height
    have hnodes := hcontent.nodes
    rw [List.length_cons] at hheight
    rw [List.foldl_cons, closeInto_element]
    have hnew : maxHeight (some (tag.element t (cs ++ child.toList))).toList + stack.length ≤ MAX_DEPTH + 1 := by
      simp only [Option.toList_some, maxHeight, height_element, maxHeight_append]
      omega
    obtain ⟨hall, hmax⟩ := ih hnew
    refine ⟨hall.trans ?_, hmax⟩
    simp only [Option.toList_some, allNodes, nodes_element, allNodes_append]
    omega

/-- At every point of a parse, also of one that fails later, what was built has the nodes that were charged, and the tree
that it is when every open element ends there is nested no deeper than an empty element in the deepest open one. -/
theorem run_cost (limit : Nat) (events : List (Except Text Event)) (s : State)
    (h : run limit events ⟨[], none, limit⟩ = .ok s) :
    s.nodes + s.budget = limit ∧ s.stack.length ≤ MAX_DEPTH ∧ maxHeight (s.stack ++ s.root.toList) ≤ MAX_DEPTH + 1 ∧
      allNodes s.tree.toList = s.nodes ∧ maxHeight s.tree.toList ≤ MAX_DEPTH + 1 := by
  have hinit : Holds limit [] ⟨[], none, limit⟩ := .opened (.nil outside_nil) (Nat.zero_add limit)
  obtain ⟨es, -, hs⟩ := run_holds hinit h
  cases hs with
  | opened hopen hused =>
    obtain ⟨hnodes, hlength, hheight⟩ := hopen.cost
    obtain ⟨htree, hmax⟩ := @Open.tree _ _ _ hopen none (by simp only [Option.toList_none, maxHeight]; omega)
    refine ⟨?_, hlength, by simpa using hheight, ?_, hmax⟩
    · simp only [State.nodes, hnodes, Option.toList_none, allNodes]
      omega
    · simp only [State.nodes, hnodes, Option.toList_none, allNodes, State.tree, htree, Nat.zero_add, Nat.add_zero]
  | closed hdoc hused =>
    obtain ⟨hnodes, hheight⟩ := hdoc.cost
    refine ⟨?_, Nat.zero_le _, ?_, ?_, ?_⟩
    · simp only [State.nodes, Option.toList_some, allNodes, hnodes]
      omega
    · simpa [maxHeight] using hheight
    · simp only [State.tree, State.nodes, List.foldl_nil, allNodes, Nat.zero_add]
    · simpa [State.tree, maxHeight] using hheight

def multistatus : Tag := ⟨.bound dav, "multistatus".toList, [("d".toList, dav)]⟩

def response : Tag := ⟨.bound dav, "response".toList, []⟩

/-- Before the end tag of an answer with one empty response, of six nodes allowed. -/
def beforeEnd : State := ⟨[multistatus.element [] [response.element [] []]], none, 3⟩

theorem run_cost_beforeEnd :
    beforeEnd.nodes + beforeEnd.budget = 6 ∧ beforeEnd.stack.length ≤ MAX_DEPTH ∧
      maxHeight (beforeEnd.stack ++ beforeEnd.root.toList) ≤ MAX_DEPTH + 1 ∧
      allNodes beforeEnd.tree.toList = beforeEnd.nodes ∧ maxHeight beforeEnd.tree.toList ≤ MAX_DEPTH + 1 :=
  run_cost 6 [.ok (.start multistatus), .ok (.empty response)] beforeEnd rfl

end Cost

end XmlTree
