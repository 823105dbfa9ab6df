import Mathlib.Algebra.GroupWithZero.Nat
import Mathlib.Algebra.Order.BigOperators.Group.List
import RemarkableServer.Lib.RustText
import RemarkableServer.Lib.TreeWalk

/-!
# Walks over a parsed page

`page_shape` estimates the work that the extraction of an article from a page
takes, and `plain_paragraphs` collects the text of a page. Both go over pages
too deep for recursion and step from node to node. The contents of templates
are not in the tree.
-/
namespace PageWalks

open RustText TreeWalk

inductive NodeData where
  | element (name : Text) (attrs : List (Text × Text))
  | text (contents : Text)
  /-- The document, a doctype, a comment or a processing instruction. -/
  | other

namespace NodeData

def hasName (name : Text) : NodeData → Bool
  | element n _ => n == name
  | _ => false

def isElement : NodeData → Bool
  | element _ _ => true
  | _ => false

def isOneOf (names : List Text) : NodeData → Bool
  | element n _ => names.contains n
  | _ => false

/-- The attributes of an element, and the bytes of a text. -/
def measure : NodeData → Nat × Nat
  | element _ attrs => (attrs.length, 0)
  | text contents => (0, byteLen contents)
  | other => (0, 0)

end NodeData

open NodeData

/-- The document, with its children. -/
def root (children : List (RoseTree NodeData)) : Place NodeData := ⟨.other, children, [], [], []⟩

/-! ## The shape of a page -/

structure PageShape where
  deepest : Nat
  work : Nat
  headings : Nat
  deriving DecidableEq

def u64Max : Nat := 2 ^ 64 - 1

/-- `u64::saturating_add` -/
def saturatingAdd (a b : Nat) : Nat := min (a + b) u64Max

/-- `u64::saturating_mul` -/
def saturatingMul (a b : Nat) : Nat := min (a * b) u64Max

/-- What the loop adds for a node. The sum within the argument wraps in a release build. -/
def shapeVisit (parent : Option NodeData) (node : NodeData) (depth : Nat) (shape : PageShape) : PageShape :=
  let (attrs, bytes) := node.measure
  let inCode := 0 < bytes && parent.any fun p => p.hasName "script".toList || p.hasName "style".toList
  let textWork := if inCode then 0 else bytes * (3 + depth / 3)
  { deepest := if node.isElement then max shape.deepest depth else shape.deepest
    work := saturatingAdd shape.work ((300 + depth * depth + 40 * attrs + textWork) % 2 ^ 64)
    headings :=
      if node.isElement && (node.hasName "h1".toList || node.hasName "h2".toList) then shape.headings + 1 else shape.headings }

def shapeWalker : Walker NodeData PageShape where
  visit := shapeVisit
  enter _ := true
  leave _ shape := shape

def pageShape (fuel : Nat) (children : List (RoseTree NodeData)) : Option PageShape :=
  shapeWalker.walk fuel (root children) ⟨0, 0, 0⟩

structure ExtractLimits where
  bytes : Nat
  nodes : Nat
  depth : Nat
  work : Nat

/-- `ARTICLE_LIMITS` -/
def articleLimits : ExtractLimits := ⟨16 * 2 ^ 20, 250000, 512, 128000000⟩

inductive OverLimit where
  | depth | work
  deriving DecidableEq

def titleWork : Nat := 16

/-- `PageShape::over` -/
def PageShape.over (shape : PageShape) (limits : ExtractLimits) (titleBytes : Nat) : Option OverLimit :=
  let title := saturatingMul (saturatingMul shape.headings titleBytes) titleWork
  if limits.depth < shape.deepest then some .depth
  else if limits.work < saturatingAdd shape.work title then some .work
  else none

/-! ## The paragraphs of a page -/

def skipped : List Text :=
  ["script", "style", "noscript", "template", "iframe", "object", "svg", "select", "textarea"].map String.toList

def blocks : List Text :=
  ["address", "article", "aside", "blockquote", "br", "caption", "dd", "details", "div", "dl", "dt", "fieldset", "figcaption",
    "figure", "footer", "form", "h1", "h2", "h3", "h4", "h5", "h6", "header", "hr", "li", "main", "nav", "ol", "p", "pre",
    "section", "summary", "table", "td", "th", "tr", "ul"].map String.toList

/-- The paragraphs, the one that is being written, and whether a space is due in it. -/
structure Writing where
  paragraphs : List Text
  current : Text
  space : Bool
  deriving DecidableEq

def endParagraph (s : Writing) : Writing :=
  ⟨if s.current.isEmpty then s.paragraphs else s.paragraphs ++ [s.current], [], false⟩

def pushChar (s : Writing) (c : Char) : Writing :=
  if isWhitespace c then { s with space := !s.current.isEmpty }
  else if s.space then { s with current := s.current ++ [' '] ++ [c], space := false }
  else { s with current := s.current ++ [c] }

def textVisit (_ : Option NodeData) (node : NodeData) (_ : Nat) (s : Writing) : Writing :=
  match node with
  | .element _ _ => if !node.isOneOf skipped && node.isOneOf blocks then endParagraph s else s
  | .text contents => contents.foldl pushChar s
  | .other => s

def textWalker : Walker NodeData Writing where
  visit := textVisit
  enter node := node.isElement && !node.isOneOf skipped
  leave parent s := if parent.isOneOf blocks then endParagraph s else s

/-- `body` is that of the document, with its place in it. -/
def plainParagraphs (fuel : Nat) (body : Option (Place NodeData)) : Option (List Text) :=
  match body with
  | none => some []
  | some body => (textWalker.walk fuel body ⟨[], [], false⟩).map fun s => (endParagraph s).paragraphs

/-! ## The recursive definitions -/

/-- What a node at a depth counts for: text directly in a script or a style is not counted. -/
def nodeWork (level : Level NodeData) : Nat :=
  let inCode := level.1.any fun p => p.hasName "script".toList || p.hasName "style".toList
  300 + level.2.2 * level.2.2 + 40 * level.2.1.measure.1 + if inCode then 0 else level.2.1.measure.2 * (3 + level.2.2 / 3)

/-- How deep the deepest of some nodes that are elements is. -/
def deepestOf (nodes : List (Level NodeData)) : Nat := ((nodes.filter (·.2.1.isElement)).map (·.2.2)).foldr max 0

def headingsOf (nodes : List (Level NodeData)) : Nat :=
  nodes.countP fun level => level.2.1.hasName "h1".toList || level.2.1.hasName "h2".toList

/-- The shape by the recursion over all nodes, with a work for each node. -/
def shapeOf (work : Level NodeData → Nat) (children : List (RoseTree NodeData)) : PageShape :=
  let nodes := levelsForest (some .other) 1 children
  ⟨deepestOf nodes, min (nodes.map work).sum u64Max, headingsOf nodes⟩

/-- A page within the limits of bytes and nodes. Only elements have children, and a character of the page is at most three
bytes of text, as where U+FFFD stands for it. -/
structure WithinLimits (limits : ExtractLimits) (children : List (RoseTree NodeData)) : Prop where
  nodes : innerForest children ≤ limits.nodes
  attrs : ∀ level ∈ levelsForest (some .other) 1 children, level.2.1.measure.1 ≤ limits.bytes
  text : ∀ level ∈ levelsForest (some .other) 1 children, level.2.1.measure.2 ≤ 3 * limits.bytes

inductive Token where
  | char (c : Char)
  | stop
  deriving DecidableEq

mutual

/-- The text of a tree, in document order, with a break on each side of a block. -/
def tokens : RoseTree NodeData → List Token
  | .node (.element name attrs) children =>
    if (NodeData.element name attrs).isOneOf skipped then []
    else if (NodeData.element name attrs).isOneOf blocks then .stop :: (tokensForest children ++ [.stop])
    else tokensForest children
  | .node (.text contents) _ => contents.map .char
  | .node .other _ => []

def tokensForest : List (RoseTree NodeData) → List Token
  | [] => []
  | t :: ts => tokens t ++ tokensForest ts

end

/-- What stands between the breaks. -/
def pieces : List Token → List Text
  | [] => [[]]
  | .stop :: rest => [] :: pieces rest
  | .char c :: rest => (pieces rest).modifyHead (c :: ·)

def words (t : Text) : List Text := (t.splitOnP isWhitespace).filter (!·.isEmpty)

/-- A text with one space between its words. -/
def collapse (t : Text) : Text := [' '].intercalate (words t)

def paragraphsOf (children : List (RoseTree NodeData)) : List Text :=
  ((pieces (tokensForest children)).map collapse).filter (!·.isEmpty)

/-! ## The shape is that of the recursion -/

theorem shapeVisit_work (parent : Option NodeData) (node : NodeData) (depth : Nat) (shape : PageShape) :
    (shapeVisit parent node depth shape).work = saturatingAdd shape.work (nodeWork (parent, node, depth) % 2 ^ 64) := by
  have htext : ∀ code : Bool, (if (0 < node.measure.2 && code) = true then 0 else node.measure.2 * (3 + depth / 3)) =
      if code = true then 0 else node.measure.2 * (3 + depth / 3) := by
    intro code
    rcases Nat.eq_zero_or_pos node.measure.2 with hzero | hpos
    · rw [hzero, Nat.zero_mul, ite_self, ite_self]
    · rw [decide_eq_true hpos, Bool.true_and]
  rw [nodeWork]
  dsimp only
  rw [← htext]
  rfl

theorem isElement_of_hasName {name : Text} {node : NodeData} (h : node.hasName name = true) : node.isElement = true := by
  cases node with
  | element n attrs => rfl
  | text contents => cases h
  | other => cases h

theorem shapeVisit_headings (parent : Option NodeData) (node : NodeData) (depth : Nat) (shape : PageShape) :
    (shapeVisit parent node depth shape).headings =
      if node.hasName "h1".toList || node.hasName "h2".toList then shape.headings + 1 else shape.headings := by
  have hand : (node.isElement && (node.hasName "h1".toList || node.hasName "h2".toList)) =
      (node.hasName "h1".toList || node.hasName "h2".toList) := by
    cases h : node.hasName "h1".toList || node.hasName "h2".toList with
    | false => rw [Bool.and_false]
    | true =>
      rcases Bool.or_eq_true_iff.mp h with h | h
      · rw [isElement_of_hasName h]
        rfl
      · rw [isElement_of_hasName h]
        rfl
  rw [shapeVisit]
  dsimp only
  rw [hand]

/-- The loop adds up what the recursion adds up. -/
theorem foldl_shapeVisit (nodes : List (Level NodeData)) {shape : PageShape} (h : shape.work ≤ u64Max) :
    nodes.foldl (fun shape level => shapeVisit level.1 level.2.1 level.2.2 shape) shape =
      ⟨max shape.deepest (deepestOf nodes), min (shape.work + (nodes.map fun level => nodeWork level % 2 ^ 64).sum) u64Max,
        shape.headings + headingsOf nodes⟩ := by
  induction nodes generalizing shape with
  | nil => simp [deepestOf, headingsOf, h]
  | cons level nodes ih =>
    obtain ⟨parent, node, depth⟩ := level
    have hwork := shapeVisit_work parent node depth shape
    have hle : (shapeVisit parent node depth shape).work ≤ u64Max := by
      rw [hwork]
      exact Nat.min_le_right _ _
    rw [List.foldl_cons, ih hle, hwork, shapeVisit_headings, PageShape.mk.injEq]
    refine ⟨?_, ?_, ?_⟩
    · rw [shapeVisit, deepestOf, deepestOf, List.filter_cons]
      dsimp only
      cases node.isElement with
      | true =>
        simp only [if_true, List.map_cons, List.foldr_cons]
        omega
      | false => simp only [Bool.false_eq_true, if_false]
    · rw [List.map_cons, List.sum_cons, saturatingAdd]
      omega
    · rw [headingsOf, headingsOf, List.countP_cons]
      split
      · omega
      · rfl

theorem pageShape_eq {fuel : Nat} {children : List (RoseTree NodeData)} (h : sizeForest children ≤ fuel) :
    pageShape fuel children = some (shapeOf (fun level => nodeWork level % 2 ^ 64) children) := by
  have hwalk := shapeWalker.walk_eq (show sizeForest (root children).children ≤ fuel from h) ⟨0, 0, 0⟩
  rw [pageShape, hwalk, overForest_eq_foldl (fun _ => rfl) (fun _ _ => rfl)]
  change some ((levelsForest _ _ _).foldl (fun shape level => shapeVisit level.1 level.2.1 level.2.2 shape) ⟨0, 0, 0⟩) = _
  rw [foldl_shapeVisit _ (Nat.zero_le _)]
  simp only [Nat.zero_max, Nat.zero_add]
  rfl

/-- No node of a page within the limits counts for more than fits. -/
theorem nodeWork_lt {children : List (RoseTree NodeData)} (h : WithinLimits articleLimits children) {level : Level NodeData}
    (hlevel : level ∈ levelsForest (some .other) 1 children) : nodeWork level < 2 ^ 64 := by
  obtain ⟨parent, node, depth⟩ := level
  have hinner : innerForest children ≤ 250000 := h.nodes
  have hdepth : depth ≤ 1 + innerForest children := depth_le_innerForest hlevel
  have hattrs := h.attrs _ hlevel
  have htext := h.text _ hlevel
  rw [articleLimits] at hattrs htext
  dsimp only at hattrs htext
  have hsquare : depth * depth ≤ 250001 * 250001 := Nat.mul_le_mul (by omega) (by omega)
  have hbytes : node.measure.2 * (3 + depth / 3) ≤ 3 * (16 * 2 ^ 20) * 83337 := Nat.mul_le_mul htext (by omega)
  rw [nodeWork]
  dsimp only
  split <;> omega

theorem shapeOf_mod {children : List (RoseTree NodeData)} (h : WithinLimits articleLimits children) :
    shapeOf (fun level => nodeWork level % 2 ^ 64) children = shapeOf nodeWork children := by
  have hmap : (levelsForest (some .other) 1 children).map (fun level => nodeWork level % 2 ^ 64) =
      (levelsForest (some .other) 1 children).map nodeWork :=
    List.map_congr_left fun level hlevel => Nat.mod_eq_of_lt (nodeWork_lt h hlevel)
  rw [shapeOf, shapeOf, hmap]

theorem saturating_sum (work title : Nat) :
    saturatingAdd (min work u64Max) (saturatingMul (min title u64Max) titleWork) = min (work + title * titleWork) u64Max := by
  unfold saturatingAdd saturatingMul titleWork
  omega

/-- A page that is not over a limit is within it by the work of all its nodes and of its title. -/
theorem over_eq_none_iff {limits : ExtractLimits} (hlimit : limits.work < u64Max) (children : List (RoseTree NodeData))
    (titleBytes : Nat) :
    (shapeOf nodeWork children).over limits titleBytes = none ↔
      deepestOf (levelsForest (some .other) 1 children) ≤ limits.depth ∧
        ((levelsForest (some .other) 1 children).map nodeWork).sum +
          headingsOf (levelsForest (some .other) 1 children) * titleBytes * titleWork ≤ limits.work := by
  have hsum := saturating_sum ((levelsForest (some .other) 1 children).map nodeWork).sum
    (headingsOf (levelsForest (some .other) 1 children) * titleBytes)
  have hover : (shapeOf nodeWork children).over limits titleBytes =
      if limits.depth < deepestOf (levelsForest (some .other) 1 children) then some .depth
      else if limits.work < min (((levelsForest (some .other) 1 children).map nodeWork).sum +
        headingsOf (levelsForest (some .other) 1 children) * titleBytes * titleWork) u64Max then some .work
      else none := by
    rw [← hsum]
    rfl
  rw [hover]
  split
  next hdeep => exact ⟨fun h => (nomatch h), fun h => absurd h.1 (by omega)⟩
  next hdeep =>
    split
    next hover => exact ⟨fun h => (nomatch h), fun h => absurd h.2 (by omega)⟩
    next hover => exact ⟨fun _ => ⟨by omega, by omega⟩, fun _ => rfl⟩

/-! ## The text is that of the recursion -/

/-- What a token does to the paragraphs. -/
def write (s : Writing) : Token → Writing
  | .char c => pushChar s c
  | .stop => endParagraph s

theorem endParagraph_endParagraph (s : Writing) : endParagraph (endParagraph s) = endParagraph s := by
  rw [endParagraph]
  rfl

theorem foldl_write_chars (contents : Text) (s : Writing) : (contents.map Token.char).foldl write s = contents.foldl pushChar s := by
  rw [List.foldl_map]
  rfl

theorem element_visit (parent : Option NodeData) (name : Text) (attrs : List (Text × Text)) (depth : Nat) (s : Writing) :
    textWalker.visit parent (.element name attrs) depth s =
      if !(NodeData.element name attrs).isOneOf skipped && (NodeData.element name attrs).isOneOf blocks then endParagraph s
      else s := rfl

theorem element_leave (node : NodeData) (s : Writing) :
    textWalker.leave node s = if node.isOneOf blocks then endParagraph s else s := rfl

mutual

/-- The walk writes the tokens of the tree. -/
theorem overTree_write (parent : Option NodeData) (depth : Nat) (s : Writing) : ∀ t : RoseTree NodeData,
    textWalker.overTree parent depth t s = (tokens t).foldl write s
  | .node (.element name attrs) children => by
    rw [Walker.overTree, tokens]
    have hforest := fun s => overForest_write (some (.element name attrs)) (depth + 1) s children
    rw [element_visit, element_leave]
    change (if (!(NodeData.element name attrs).isOneOf skipped && !children.isEmpty) = true then _ else _) = _
    rw [hforest]
    cases hskip : (NodeData.element name attrs).isOneOf skipped with
    | true => rfl
    | false =>
    cases hblock : (NodeData.element name attrs).isOneOf blocks with
    | true =>
      cases children with
      | nil =>
        -- the break after a block without children has nothing to end
        exact (endParagraph_endParagraph s).symm
      | cons t ts =>
        simp only [Bool.not_false, Bool.true_and, List.isEmpty_cons, if_true, Bool.false_eq_true, if_false, List.foldl_cons,
          List.foldl_append, List.foldl_nil]
        rfl
    | false =>
      cases children with
      | nil => rfl
      | cons t ts => rfl
  | .node (.text contents) children => by
    rw [Walker.overTree, tokens, foldl_write_chars]
    rfl
  | .node .other children => by
    rw [Walker.overTree, tokens]
    rfl

theorem overForest_write (parent : Option NodeData) (depth : Nat) (s : Writing) : ∀ ts : List (RoseTree NodeData),
    textWalker.overForest parent depth ts s = (tokensForest ts).foldl write s
  | [] => rfl
  | t :: ts => by
    rw [Walker.overForest, tokensForest, List.foldl_append, overTree_write parent depth s t, overForest_write parent depth _ ts]

end

/-! ## Whitespace -/

theorem words_nil : words [] = [] := rfl

theorem words_append_blank {c : Char} (hc : isWhitespace c = true) (a b : Text) : words (a ++ c :: b) = words a ++ words b := by
  rw [words, List.splitOnP_append_cons a b hc, List.filter_append]
  rfl

theorem words_of_no_blank {t : Text} (hne : t ≠ []) (h : ∀ c ∈ t, isWhitespace c = false) : words t = [t] := by
  rw [words, List.splitOnP_eq_singleton h, List.filter_cons_of_pos (by simpa using hne), List.filter_nil]

theorem ne_nil_of_mem_words {t w : Text} (h : w ∈ words t) : w ≠ [] := by
  have hw := (List.mem_filter.mp h).2
  simpa using hw

theorem intercalate_concat (ws : List Text) (w : Text) :
    [' '].intercalate (ws ++ [w]) = if ws = [] then w else [' '].intercalate ws ++ ' ' :: w := by
  induction ws with
  | nil => rw [List.nil_append, List.intercalate_singleton, if_pos rfl]
  | cons v ws ih =>
    rw [if_neg (List.cons_ne_nil v ws), List.cons_append, List.intercalate_cons_of_ne_nil (by simp), ih]
    split
    next hnil =>
      rw [hnil, List.intercalate_singleton]
      simp
    next hne =>
      rw [List.intercalate_cons_of_ne_nil hne]
      simp

theorem collapse_eq_nil_iff {t : Text} : collapse t = [] ↔ words t = [] := by
  constructor
  · intro h
    by_contra hne
    obtain ⟨w, ws, hw⟩ := List.exists_cons_of_ne_nil hne
    have hwne : w ≠ [] := ne_nil_of_mem_words (hw ▸ List.mem_cons_self)
    rw [collapse, hw] at h
    cases ws with
    | nil =>
      rw [List.intercalate_singleton] at h
      exact hwne h
    | cons v ws =>
      rw [List.intercalate_cons_cons] at h
      simp at h
  · intro h
    rw [collapse, h]
    rfl

/-- A text up to its last blank, and what follows that. -/
theorem last_word (t : Text) : (∀ c ∈ t, isWhitespace c = false) ∨
    ∃ a c b, t = a ++ c :: b ∧ isWhitespace c = true ∧ ∀ c ∈ b, isWhitespace c = false := by
  induction t with
  | nil => exact .inl fun c hc => absurd hc List.not_mem_nil
  | cons d t ih =>
    rcases ih with hnone | ⟨a, c, b, rfl, hc, hb⟩
    · cases hd : isWhitespace d with
      | false => exact .inl (List.forall_mem_cons.mpr ⟨hd, hnone⟩)
      | true => exact .inr ⟨[], d, t, rfl, hd, hnone⟩
    · exact .inr ⟨d :: a, c, b, rfl, hc, hb⟩

/-- A blank at the end is not seen. -/
theorem collapse_blank (t : Text) {c : Char} (hc : isWhitespace c = true) : collapse (t ++ [c]) = collapse t := by
  rw [collapse, words_append_blank hc, words_nil, List.append_nil]
  rfl

/-- A character after a blank begins a word. -/
theorem collapse_begin {t : Text} {c d : Char} (hd : isWhitespace d = true) (hc : isWhitespace c = false) :
    collapse (t ++ [d] ++ [c]) = if collapse t = [] then [c] else collapse t ++ [' ', c] := by
  have hword : words [c] = [[c]] := words_of_no_blank (List.cons_ne_nil _ _) (List.forall_mem_singleton.mpr hc)
  rw [List.append_assoc, collapse, List.singleton_append, words_append_blank hd, hword, intercalate_concat]
  simp only [collapse_eq_nil_iff]
  rfl

/-- A character at the beginning or after another one goes on with the word. -/
theorem collapse_extend {t : Text} {c : Char} (ht : ∀ d, t.getLast? = some d → isWhitespace d = false)
    (hc : isWhitespace c = false) : collapse (t ++ [c]) = collapse t ++ [c] := by
  have hwords : ∃ ws w, words t = ws ++ (if w = [] then [] else [w]) ∧ words (t ++ [c]) = ws ++ [w ++ [c]] ∧ (w = [] → ws = []) := by
    rcases last_word t with hnone | ⟨a, d, b, rfl, hd, hb⟩
    · have hall : ∀ d ∈ t ++ [c], isWhitespace d = false := List.forall_mem_append.mpr ⟨hnone, List.forall_mem_singleton.mpr hc⟩
      refine ⟨[], t, ?_, words_of_no_blank (by simp) hall, fun _ => rfl⟩
      split
      next hnil => rw [hnil, words_nil, List.append_nil]
      next hne => exact words_of_no_blank hne hnone
    · have hne : b ≠ [] := by
        rintro rfl
        rw [ht d (by simp)] at hd
        cases hd
      have hall : ∀ d ∈ b ++ [c], isWhitespace d = false := List.forall_mem_append.mpr ⟨hb, List.forall_mem_singleton.mpr hc⟩
      refine ⟨words a, b, ?_, ?_, fun h => absurd h hne⟩
      · rw [words_append_blank hd, words_of_no_blank hne hb, if_neg hne]
      · rw [List.append_assoc, List.cons_append, words_append_blank hd, words_of_no_blank (by simp) hall]
  obtain ⟨ws, w, ht, htc, hempty⟩ := hwords
  rw [collapse, collapse, ht, htc, intercalate_concat]
  by_cases hw : w = []
  · rw [if_pos hw, hempty hw, hw, if_pos rfl]
    rfl
  · rw [if_neg hw, intercalate_concat]
    split
    · rfl
    · simp

/-! ## Paragraphs -/

/-- The paragraph that is being written is a text with its whitespace collapsed, and a space is due after
a blank that is not at its beginning. -/
structure Represents (piece : Text) (s : Writing) : Prop where
  current : s.current = collapse piece
  space : s.space = (piece.getLast?.any isWhitespace && !(collapse piece).isEmpty)

theorem Represents.nil (paragraphs : List Text) : Represents [] ⟨paragraphs, [], false⟩ := ⟨rfl, rfl⟩

theorem pushChar_paragraphs (s : Writing) (c : Char) : (pushChar s c).paragraphs = s.paragraphs := by
  rw [pushChar]
  split
  · rfl
  · split <;> rfl

theorem Represents.pushChar {piece : Text} {s : Writing} (h : Represents piece s) (c : Char) :
    Represents (piece ++ [c]) (pushChar s c) := by
  have hlast : (piece ++ [c]).getLast? = some c := by simp
  unfold PageWalks.pushChar
  cases hc : isWhitespace c with
  | true =>
    rw [if_pos rfl]
    refine ⟨h.current.trans (collapse_blank piece hc).symm, ?_⟩
    rw [hlast, Option.any_some, hc, collapse_blank piece hc, Bool.true_and, h.current]
  | false =>
    rw [if_neg Bool.false_ne_true]
    have hend : (((piece ++ [c]).getLast?.any isWhitespace) && !(collapse (piece ++ [c])).isEmpty) = false := by
      rw [hlast, Option.any_some, hc, Bool.false_and]
    cases hspace : s.space with
    | true =>
      rw [if_pos rfl]
      refine ⟨?_, hend.symm⟩
      rw [h.space, Bool.and_eq_true_iff] at hspace
      obtain ⟨d, hd, hblank⟩ : ∃ d, piece.getLast? = some d ∧ isWhitespace d = true := by
        cases hd : piece.getLast? with
        | none =>
          rw [hd] at hspace
          cases hspace.1
        | some d =>
          rw [hd] at hspace
          exact ⟨d, rfl, hspace.1⟩
      obtain ⟨before, rfl⟩ := List.getLast?_eq_some_iff.mp hd
      have hne : collapse before ≠ [] := by
        rw [← collapse_blank before hblank]
        simpa using hspace.2
      dsimp only
      rw [collapse_begin hblank hc, if_neg hne, h.current, collapse_blank before hblank, List.append_assoc]
      rfl
    | false =>
      rw [if_neg Bool.false_ne_true]
      refine ⟨?_, hend.symm⟩
      dsimp only
      rw [h.current]
      rw [h.space] at hspace
      cases hlast' : piece.getLast? with
      | none =>
        refine (collapse_extend (fun d hd => ?_) hc).symm
        rw [hlast'] at hd
        cases hd
      | some d =>
        cases hblank : isWhitespace d with
        | false =>
          refine (collapse_extend (fun d' hd' => ?_) hc).symm
          rw [hlast'] at hd'
          cases hd'
          exact hblank
        | true =>
          obtain ⟨before, rfl⟩ := List.getLast?_eq_some_iff.mp hlast'
          rw [hlast', Option.any_some, hblank, Bool.true_and, Bool.not_eq_false', List.isEmpty_iff, collapse_blank before hblank]
            at hspace
          rw [collapse_begin hblank hc, if_pos hspace, collapse_blank before hblank, hspace]
          rfl

theorem pieces_ne_nil (stream : List Token) : pieces stream ≠ [] := by
  induction stream with
  | nil => exact List.cons_ne_nil _ _
  | cons token stream ih =>
    cases token with
    | stop => exact List.cons_ne_nil _ _
    | char c =>
      obtain ⟨first, rest, h⟩ := List.exists_cons_of_ne_nil ih
      rw [pieces, h]
      exact List.cons_ne_nil _ _

/-- The paragraphs are the pieces between the breaks, as far as there is something in them. -/
theorem paragraphs_write (stream : List Token) (done : List Text) {piece : Text} {s : Writing}
    (hdone : s.paragraphs = (done.map collapse).filter (!·.isEmpty)) (h : Represents piece s) :
    (endParagraph (stream.foldl write s)).paragraphs =
      ((done ++ (pieces stream).modifyHead (piece ++ ·)).map collapse).filter (!·.isEmpty) := by
  have hend : ∀ {s : Writing} {done : List Text} {piece : Text}, s.paragraphs = (done.map collapse).filter (!·.isEmpty) →
      Represents piece s → (endParagraph s).paragraphs = ((done ++ [piece]).map collapse).filter (!·.isEmpty) := by
    intro s done piece hdone h
    rw [List.map_append, List.filter_append, List.map_singleton, endParagraph, h.current, hdone]
    cases collapse piece with
    | nil => simp
    | cons c t => simp
  induction stream generalizing done piece s with
  | nil =>
    rw [List.foldl_nil, hend hdone h, pieces, List.modifyHead_cons, List.append_nil]
  | cons token stream ih =>
    obtain ⟨first, rest, hpieces⟩ := List.exists_cons_of_ne_nil (pieces_ne_nil stream)
    rw [List.foldl_cons]
    cases token with
    | char c =>
      rw [write, ih done ((pushChar_paragraphs s c).trans hdone) (h.pushChar c), pieces, hpieces]
      simp only [List.modifyHead_cons, List.append_assoc, List.singleton_append]
    | stop =>
      have hstop : Represents [] (endParagraph s) := .nil _
      rw [write, ih (done ++ [piece]) (hend hdone h) hstop, pieces, hpieces]
      simp only [List.modifyHead_cons, List.append_assoc, List.nil_append, List.append_nil, List.singleton_append]

theorem plainParagraphs_eq {fuel : Nat} {body : Place NodeData} (h : sizeForest body.children ≤ fuel) :
    plainParagraphs fuel (some body) = some (paragraphsOf body.children) := by
  have hwalk := textWalker.walk_eq h ⟨[], [], false⟩
  obtain ⟨first, rest, hpieces⟩ := List.exists_cons_of_ne_nil (pieces_ne_nil (tokensForest body.children))
  rw [plainParagraphs, hwalk, overForest_write, Option.map_some, paragraphs_write _ [] rfl (.nil []), paragraphsOf, hpieces]
  rfl

/-- With a step for each node of the page both walks end. The shape is what the recursion over all nodes gives, with the
work of a node as it is if the page is within the limits; the paragraphs are what the recursion over the body gives; and
no walk comes to a node that is not below the one that it began under. -/
theorem walks_visit_all :
    (∀ (children : List (RoseTree NodeData)) (fuel : Nat), sizeForest children ≤ fuel →
      pageShape fuel children = some (shapeOf (fun level => nodeWork level % 2 ^ 64) children)) ∧
    (∀ children : List (RoseTree NodeData), WithinLimits articleLimits children →
      (∀ level ∈ levelsForest (some .other) 1 children, nodeWork level < 2 ^ 64) ∧
        ∀ fuel, sizeForest children ≤ fuel → pageShape fuel children = some (shapeOf nodeWork children)) ∧
    (∀ (body : Place NodeData) (fuel : Nat), sizeForest body.children ≤ fuel →
      plainParagraphs fuel (some body) = some (paragraphsOf body.children)) ∧
    ∀ (body node : Place NodeData) (depth : Nat) (s s' : Writing), textWalker.Reached body s node depth s' →
      1 ≤ depth ∧ node.ancestor depth = some body := by
  refine ⟨fun _ _ => pageShape_eq, fun children h => ⟨fun _ => nodeWork_lt h, fun fuel hfuel => ?_⟩, fun _ _ => plainParagraphs_eq,
    fun _ _ _ _ _ => Walker.ancestor_of_reached⟩
  rw [pageShape_eq hfuel, shapeOf_mod h]

/-- A div with a word, a word with a bold end, and a line break. -/
def page : List (RoseTree NodeData) :=
  [.node (.element "div".toList [("id".toList, "a".toList)])
    [.node (.text " one\n two".toList) [], .node (.element "b".toList []) [.node (.text "s ".toList) []],
      .node (.element "br".toList []) [], .node (.text "three".toList) [], .node (.element "script".toList []) []]]

theorem walks_visit_all_page : (∀ level ∈ levelsForest (some .other) 1 page, nodeWork level < 2 ^ 64) ∧
    pageShape 8 page = some ⟨2, 2220, 0⟩ ∧
    plainParagraphs 8 (some (root page)) = some ["one twos".toList, "three".toList] := by
  have hlimits : WithinLimits articleLimits page := ⟨by decide +kernel, by decide +kernel, by decide +kernel⟩
  obtain ⟨hwork, hshape⟩ := walks_visit_all.2.1 page hlimits
  refine ⟨hwork, (hshape 8 (by decide)).trans (by decide +kernel),
    (walks_visit_all.2.2.1 (root page) 8 (by decide)).trans ?_⟩
  decide +kernel

end PageWalks
