import Mathlib.Algebra.Order.BigOperators.Group.List
import Mathlib.Data.List.Dedup
import Mathlib.Data.List.Perm.Basic
import RemarkableServer.Lib.Rfc3339
import RemarkableServer.Lib.RustText
import RemarkableServer.Lib.TextSearch

/-!
# Subscriptions as OPML

`export_opml` writes an element on a line of its own for each subscription, and
`parse_opml` reads a document line by line, without an XML parser. The writer
escapes `&`, `<`, `>` and `"`, and the reader puts back the first three, each
over the whole text.
-/
namespace Opml

open RustText TextSearch Civil Chrono Rfc3339

inductive FeedType where
  | rss | atom | newsletter
  deriving DecidableEq

/-- `Display`. -/
def FeedType.toText : FeedType → Text
  | .rss => "rss".toList
  | .atom => "atom".toList
  | .newsletter => "newsletter".toList

structure Subscription where
  name : Text
  url : Text
  feedType : FeedType
  folder : Text
  deriving DecidableEq

/-! ## The writer -/

def htmlEscape (s : Text) : Text :=
  replace ['"'] "&quot;".toList (replace ['>'] "&gt;".toList (replace ['<'] "&lt;".toList (replace ['&'] "&amp;".toList s)))

def shortWeekday : Weekday → Text
  | .mon => "Mon".toList
  | .tue => "Tue".toList
  | .wed => "Wed".toList
  | .thu => "Thu".toList
  | .fri => "Fri".toList
  | .sat => "Sat".toList
  | .sun => "Sun".toList

def shortMonths : List Text :=
  ["Jan", "Feb", "Mar", "Apr", "May", "Jun", "Jul", "Aug", "Sep", "Oct", "Nov", "Dec"].map String.toList

/-- `to_rfc2822` in UTC, which panics on years without four digits. -/
def toRfc2822 (t : NaiveDateTime) : Option Text :=
  let secs := t.time.secs.val
  if 0 ≤ t.date.year ∧ t.date.year ≤ 9999 then
    some (shortWeekday t.date.weekday ++ ", ".toList ++ padded 1 t.date.dayOfMonth ++ " ".toList ++
      shortMonths.getD (t.date.month - 1) [] ++ " ".toList ++ padded 4 t.date.year.toNat ++ " ".toList ++
      padded 2 (secs / 3600) ++ ":".toList ++ padded 2 (secs / 60 % 60) ++ ":".toList ++
      padded 2 (secs % 60 + t.time.frac.val / 1000000000) ++ " +0000".toList)
  else none

def header (date : Text) : Text :=
  "<?xml version=\"1.0\" encoding=\"UTF-8\"?>\n".toList ++ "<opml version=\"2.0\">\n".toList ++ "<head>\n".toList ++
    "    <title>remarkable-server feeds</title>\n".toList ++
    "    <dateCreated>".toList ++ date ++ "</dateCreated>\n".toList ++ "</head>\n".toList ++ "<body>\n".toList

def footer : Text := "</body>\n</opml>".toList

def outlineElement (indent : Text) (sub : Subscription) : Text :=
  indent ++ "<outline text=\"".toList ++ htmlEscape sub.name ++ "\" type=\"".toList ++ sub.feedType.toText ++
    "\" xmlUrl=\"".toList ++ htmlEscape sub.url ++ "\" />\n".toList

def folderStart (folder : Text) : Text := "    <outline text=\"".toList ++ htmlEscape folder ++ "\">\n".toList

def folderEnd : Text := "    </outline>\n".toList

def folderElement (folder : Text) (subs : List Subscription) : Text :=
  if folder.isEmpty then subs.flatMap (outlineElement "    ".toList)
  else folderStart folder ++ subs.flatMap (outlineElement "        ".toList) ++ folderEnd

/-- `folders` are the keys of the map `by_folder` in the order that it gives them. -/
def exportOpml (now : NaiveDateTime) (folders : List Text) (subscriptions : List Subscription) : Option Text := do
  let date ← toRfc2822 now
  return header date ++ (folders.flatMap fun folder => folderElement folder (subscriptions.filter (·.folder = folder))) ++ footer

/-! ## The reader -/

structure OpmlOutline where
  text : Text
  xmlUrl : Option Text
  htmlUrl : Option Text
  feedType : Option Text
  children : List OpmlOutline

structure OpmlDocument where
  title : Text
  dateCreated : Option Text
  outlines : List OpmlOutline

def extractXmlValue (content tag : Text) : Option Text := do
  let (_, rest) ← splitFirst ('<' :: tag ++ ['>']) content
  let (value, _) ← splitFirst ("</".toList ++ tag ++ ['>']) rest
  return value

/-- The entities that are put back: not the one of the quotation mark. -/
def unescape (value : Text) : Text :=
  replace "&gt;".toList ['>'] (replace "&lt;".toList ['<'] (replace "&amp;".toList ['&'] value))

def extractAttr (line attr : Text) : Option Text := do
  let (_, rest) ← splitFirst (attr ++ ['='] ++ ['"']) line
  let (value, _) ← splitFirst ['"'] rest
  return unescape value

def parseOutline (line : Text) : OpmlOutline where
  text := (extractAttr line "text".toList).getD []
  xmlUrl := extractAttr line "xmlUrl".toList
  htmlUrl := extractAttr line "htmlUrl".toList
  feedType := extractAttr line "type".toList
  children := []

def isOutline (line : Text) : Bool := (splitFirst "<outline".toList line).isSome

def outlinesOf (lines : List Text) : List OpmlOutline := (lines.filter isOutline).map parseOutline

def parseOutlines (content : Text) : List OpmlOutline := outlinesOf (lines content)

def parseOpml (content : Text) : OpmlDocument where
  title := (extractXmlValue content "title".toList).getD "Imported".toList
  dateCreated := none
  outlines := parseOutlines content

mutual

def flattenOutline (outline : OpmlOutline) : List OpmlOutline :=
  match outline with
  | ⟨text, xmlUrl, htmlUrl, feedType, children⟩ => ⟨text, xmlUrl, htmlUrl, feedType, children⟩ :: flattenOutlines children

def flattenOutlines : List OpmlOutline → List OpmlOutline
  | [] => []
  | outline :: outlines => flattenOutline outline ++ flattenOutlines outlines

end

/-! ## What is compared -/

/-- The name, the URL and the feed type that an outline with an `xmlUrl` carries. -/
def OpmlOutline.feed (o : OpmlOutline) : Option (Text × Text × Option Text) :=
  o.xmlUrl.map fun url => (o.text, url, o.feedType)

def Subscription.feed (sub : Subscription) : Text × Text × Option Text := (sub.name, sub.url, some sub.feedType.toText)

/-- The feeds that an import finds in a document. -/
def feeds (content : Text) : List (Text × Text × Option Text) := (flattenOutlines (parseOpml content).outlines).filterMap (·.feed)

/-- A text that the reader puts back as it was. -/
def Plain (t : Text) : Prop := '"' ∉ t ∧ ¬ "&lt;".toList <:+: t ∧ ¬ "&gt;".toList <:+: t

instance (t : Text) : Decidable (Plain t) := inferInstanceAs (Decidable (_ ∧ _))

/-- The reader takes the first place where the name of an attribute stands before a quotation mark,
which is in the name of the subscription if that ends so. -/
def Subscription.Survives (sub : Subscription) : Prop :=
  '\n' ∉ sub.name ∧ Plain sub.name ∧ ¬ "type=".toList <:+ sub.name ∧
    if "xmlUrl=".toList <:+ sub.name then sub.url = " type=".toList else '\n' ∉ sub.url ∧ Plain sub.url

instance (sub : Subscription) : Decidable sub.Survives := inferInstanceAs (Decidable (_ ∧ _ ∧ _ ∧ ite _ _ _))

/-! ## Escaping and putting back -/

/-- The escapes of the writer. -/
def entities : List (Char × Text) :=
  [('&', "amp;".toList), ('<', "lt;".toList), ('>', "gt;".toList), ('"', "quot;".toList)]

theorem htmlEscape_eq (s : Text) : htmlEscape s = s.flatMap (escape '&' entities) := by
  unfold htmlEscape
  simp only [replace_singleton, List.flatMap_assoc]
  congr 1
  funext c
  by_cases hamp : c = '&'
  · rw [if_pos hamp, hamp]
    decide
  by_cases hlt : c = '<'
  · rw [if_neg hamp, hlt]
    decide
  by_cases hgt : c = '>'
  · rw [if_neg hamp, hgt]
    decide
  by_cases hquot : c = '"'
  · rw [if_neg hamp, hquot]
    decide
  simp [hamp, hlt, hgt, hquot, entities, escape]

/-- What the reader makes of what the writer wrote: entities in the text itself are put back as well,
and quotation marks stay escaped. -/
theorem unescape_htmlEscape (s : Text) :
    unescape (htmlEscape s) =
      (replace "&gt;".toList ['>'] (replace "&lt;".toList ['<'] s)).flatMap (escape '&' [('"', "quot;".toList)]) := by
  have hamp : replace "&amp;".toList ['&'] (s.flatMap (escape '&' entities)) = s.flatMap (escape '&' (entities.drop 1)) :=
    replace_escape_mark (by decide) (by decide) s
  have hlt : ∀ t, replace "&lt;".toList ['<'] (t.flatMap (escape '&' (entities.drop 1))) =
      (replace "&lt;".toList ['<'] t).flatMap (escape '&' (entities.drop 2)) :=
    replace_escape (by decide) (by decide) (by decide) (by decide) (by decide)
  have hgt : ∀ t, replace "&gt;".toList ['>'] (t.flatMap (escape '&' (entities.drop 2))) =
      (replace "&gt;".toList ['>'] t).flatMap (escape '&' (entities.drop 3)) :=
    replace_escape (by decide) (by decide) (by decide) (by decide) (by decide)
  rw [unescape, htmlEscape_eq, hamp, hlt, hgt]
  rfl

theorem quote_not_mem_htmlEscape (s : Text) : '"' ∉ htmlEscape s := by
  rw [htmlEscape_eq]
  exact not_mem_escape (by decide) (by decide) s

theorem lt_not_mem_htmlEscape (s : Text) : '<' ∉ htmlEscape s := by
  rw [htmlEscape_eq]
  exact not_mem_escape (by decide) (by decide) s

theorem newline_mem_htmlEscape {s : Text} : '\n' ∈ htmlEscape s ↔ '\n' ∈ s := by
  rw [htmlEscape_eq]
  exact mem_escape_iff (by decide) (by decide)

theorem suffix_htmlEscape {w : Text} (hkeys : ∀ entry ∈ entities, entry.1 ∉ w) (hw : ';' ∉ w) {s : Text} :
    w <:+ htmlEscape s ↔ w <:+ s := by
  have hends : ∀ entry ∈ entities, ('&' :: entry.2).getLast? = some ';' := by decide
  rw [htmlEscape_eq]
  apply suffix_flatMap_escape (plain_of_keys hkeys)
  intro entry hentry z hz
  rw [hends entry hentry] at hz
  cases hz
  exact hw

/-- What is read back for a text that was written. -/
def readBack (s : Text) : Text := unescape (htmlEscape s)

theorem quote_not_mem_readBack (s : Text) : '"' ∉ readBack s := by
  rw [readBack, unescape_htmlEscape]
  exact not_mem_escape (by decide) (by decide) _

theorem readBack_of_not_mem {s : Text} (h : '"' ∉ s) :
    readBack s = replace "&gt;".toList ['>'] (replace "&lt;".toList ['<'] s) := by
  rw [readBack, unescape_htmlEscape]
  apply flatMap_escape_of_plain
  intro c hc hkey
  rw [List.map_singleton, List.mem_singleton] at hkey
  rw [hkey] at hc
  rcases mem_replace hc with hc | hc
  · exact absurd hc (by decide)
  · exact (mem_replace hc).elim (by decide) h

/-- Without quotation marks nothing gets longer, and what stays as long is as it was. -/
theorem readBack_cases {s : Text} (h : '"' ∉ s) :
    (Plain s ∧ readBack s = s) ∨ (¬ Plain s ∧ (readBack s).length < s.length) := by
  rw [readBack_of_not_mem h]
  rcases replace_cases (by decide) (show ['<'].length < "&lt;".toList.length by decide) s with ⟨hlt, heq⟩ | ⟨hlt, hless⟩
  · rw [heq]
    rcases replace_cases (by decide) (show ['>'].length < "&gt;".toList.length by decide) s with ⟨hgt, heq'⟩ | ⟨hgt, hless⟩
    · exact .inl ⟨⟨h, hlt, hgt⟩, heq'⟩
    · exact .inr ⟨fun hplain => hplain.2.2 hgt, hless⟩
  · refine .inr ⟨fun hplain => hplain.2.1 hlt, ?_⟩
    rcases replace_cases (by decide) (show ['>'].length < "&gt;".toList.length by decide)
      (replace "&lt;".toList ['<'] s) with ⟨-, heq⟩ | ⟨-, hless'⟩
    · rwa [heq]
    · exact hless'.trans hless

theorem readBack_of_plain {s : Text} (h : Plain s) : readBack s = s :=
  (readBack_cases h.1).elim And.right fun hnot => absurd h hnot.1

/-! ## Attributes -/

/-- Segments with quotation marks between them. -/
def quoted (first : Text) (segments : List Text) : Text := first ++ segments.flatMap fun segment => '"' :: segment

/-- The segment after the first one that ends in a name, if a quotation mark ends it too. -/
def attrAt (name : Text) : Text → List Text → Option Text
  | first, value :: next :: segments => if name <:+ first then some value else attrAt name value (next :: segments)
  | _, _ => none

theorem quoted_cons (first segment : Text) (segments : List Text) :
    quoted first (segment :: segments) = first ++ '"' :: quoted segment segments := by
  simp [quoted]

theorem quoted_nil (first : Text) : quoted first [] = first := by
  simp [quoted]

theorem extractAttr_quoted {attr first : Text} {segments : List Text} (hattr : '"' ∉ attr) (hfirst : '"' ∉ first)
    (hsegments : ∀ segment ∈ segments, '"' ∉ segment) :
    extractAttr (quoted first segments) attr = (attrAt (attr ++ ['=']) first segments).map unescape := by
  have hname : '"' ∉ attr ++ ['='] := by simpa using hattr
  have hne : attr ++ ['='] ≠ [] := by simp
  rw [extractAttr]
  induction segments generalizing first with
  | nil =>
    rw [quoted_nil, splitFirst_unmarked hfirst]
    rfl
  | cons value segments ih =>
    have hvalue := hsegments value List.mem_cons_self
    have hrest := ih hvalue fun segment h => hsegments segment (List.mem_cons_of_mem value h)
    rw [quoted_cons, splitFirst_marked hfirst hname hne]
    by_cases hsuffix : attr ++ ['='] <:+ first
    · rw [if_pos hsuffix]
      cases segments with
      | nil =>
        rw [Option.bind_eq_bind, Option.bind_some, quoted_nil]
        change (splitFirst ([] ++ ['"']) value).bind _ = _
        rw [splitFirst_unmarked hvalue]
        rfl
      | cons next segments =>
        rw [Option.bind_eq_bind, Option.bind_some, quoted_cons, attrAt, if_pos hsuffix]
        dsimp only
        rw [splitFirst_mark hvalue]
        rfl
    · rw [if_neg hsuffix]
      have hat : attrAt (attr ++ ['=']) first (value :: segments) = attrAt (attr ++ ['=']) value segments := by
        cases segments with
        | nil => rfl
        | cons next segments => rw [attrAt, if_neg hsuffix]
      rw [hat, ← hrest]
      cases splitFirst (attr ++ ['='] ++ ['"']) (quoted value segments) <;> rfl

/-! ## Lines -/

theorem lines_append_newline (a b : Text) : lines (a ++ '\n' :: b) = (a.splitOn '\n').map stripCr ++ lines b := by
  obtain ⟨piece, pieces, hb⟩ := List.exists_cons_of_ne_nil (List.splitOn_ne_nil '\n' b)
  unfold lines
  rw [List.splitOn_append_cons_self, hb]
  dsimp only
  rw [List.dropLast_append_of_ne_nil (List.cons_ne_nil _ _), List.map_append, List.append_assoc,
    List.getLastD_eq_getLast?, List.getLastD_eq_getLast?, List.getLast?_append_of_ne_nil _ (List.cons_ne_nil _ _)]

theorem flattenOutlines_leaves {outlines : List OpmlOutline} (h : ∀ o ∈ outlines, o.children = []) :
    flattenOutlines outlines = outlines := by
  induction outlines with
  | nil => rw [flattenOutlines]
  | cons o outlines ih =>
    have ho := h o List.mem_cons_self
    obtain ⟨text, xmlUrl, htmlUrl, feedType, children⟩ := o
    dsimp only at ho
    rw [flattenOutlines, flattenOutline, ho, flattenOutlines, ih fun o hmem => h o (List.mem_cons_of_mem _ hmem)]
    rfl

/-- The feeds of some lines. -/
def feedsOf (ls : List Text) : List (Text × Text × Option Text) := (outlinesOf ls).filterMap (·.feed)

theorem feeds_eq (content : Text) : feeds content = feedsOf (lines content) := by
  unfold feeds feedsOf
  rw [parseOpml, parseOutlines, flattenOutlines_leaves]
  intro o ho
  obtain ⟨line, -, rfl⟩ := List.mem_map.mp ho
  rfl

theorem feedsOf_append (ls ls' : List Text) : feedsOf (ls ++ ls') = feedsOf ls ++ feedsOf ls' := by
  unfold feedsOf outlinesOf
  rw [List.filter_append, List.map_append, List.filterMap_append]

theorem feedsOf_of_not_outline {ls : List Text} (h : ∀ line ∈ ls, isOutline line = false) : feedsOf ls = [] := by
  have hnone : ls.filter isOutline = [] := List.filter_eq_nil_iff.mpr fun line hline => by rw [h line hline]; exact Bool.false_ne_true
  rw [feedsOf, outlinesOf, hnone]
  rfl

theorem feedsOf_outline {line : Text} (h : isOutline line = true) : feedsOf [line] = (parseOutline line).feed.toList := by
  rw [feedsOf, outlinesOf, List.filter_cons_of_pos h, List.filter_nil, List.map_singleton, List.filterMap_cons, List.filterMap_nil]
  cases (parseOutline line).feed <;> rfl

theorem isOutline_of_not_mem {line : Text} (h : '<' ∉ line) : isOutline line = false := by
  rw [isOutline, ← Bool.not_eq_true, splitFirst_isSome_iff]
  exact fun hinf => h (hinf.subset (by decide))

/-- A text that some feeds are read for, whatever follows it. -/
def Reads (t : Text) (found : List (Text × Text × Option Text)) : Prop := ∀ rest, feeds (t ++ rest) = found ++ feeds rest

theorem Reads.nil : Reads [] [] := fun _ => rfl

theorem Reads.append {t t' : Text} {found found' : List (Text × Text × Option Text)} (h : Reads t found) (h' : Reads t' found') :
    Reads (t ++ t') (found ++ found') := by
  intro rest
  rw [List.append_assoc, h, h', List.append_assoc]

theorem Reads.flatMap {α : Type} {f : α → Text} {g : α → List (Text × Text × Option Text)} {xs : List α}
    (h : ∀ x ∈ xs, Reads (f x) (g x)) : Reads (xs.flatMap f) (xs.flatMap g) := by
  induction xs with
  | nil => exact .nil
  | cons x xs ih => exact (h x List.mem_cons_self).append (ih fun y hy => h y (List.mem_cons_of_mem x hy))

theorem reads_newline (t : Text) : Reads (t ++ ['\n']) (feedsOf ((t.splitOn '\n').map stripCr)) := by
  intro rest
  rw [feeds_eq, feeds_eq, List.append_assoc, List.singleton_append, lines_append_newline, feedsOf_append]

theorem reads_line {t : Text} (h : '\n' ∉ t) : Reads (t ++ ['\n']) (feedsOf [stripCr t]) := by
  have hsplit : t.splitOn '\n' = [t] :=
    List.splitOn_eq_singleton_of_beq_eq_false fun c hc => beq_false_of_ne fun heq => h (heq ▸ hc)
  have hreads := reads_newline t
  rwa [hsplit, List.map_singleton] at hreads

/-- Only the first line of an element is read. -/
theorem reads_element {first rest : Text} (hfirst : '\n' ∉ first) (hrest : '<' ∉ rest) :
    Reads (first ++ '\n' :: rest ++ ['\n']) (feedsOf [stripCr first]) := by
  have hafter : feedsOf ((rest.splitOn '\n').map stripCr) = [] := by
    apply feedsOf_of_not_outline
    intro line hline
    obtain ⟨piece, hpiece, rfl⟩ := List.mem_map.mp hline
    exact isOutline_of_not_mem fun h => hrest (mem_of_mem_splitOn hpiece (mem_of_mem_stripCr h))
  have hsplit : (first ++ '\n' :: rest).splitOn '\n' = first :: rest.splitOn '\n' := splitOn_append_sep '\n' first rest hfirst
  have hfeeds : feedsOf (stripCr first :: (rest.splitOn '\n').map stripCr) = feedsOf [stripCr first] := by
    rw [← List.singleton_append, feedsOf_append, hafter, List.append_nil]
  have hreads := reads_newline (first ++ '\n' :: rest)
  rwa [hsplit, List.map_cons, hfeeds] at hreads

/-! ## Elements -/

def opening (indent : Text) : Text := indent ++ "<outline text=".toList

/-- The indents of the writer. -/
def IsIndent (indent : Text) : Prop := indent = "    ".toList ∨ indent = "        ".toList

theorem opening_spec {indent : Text} (h : IsIndent indent) :
    '"' ∉ opening indent ∧ '\n' ∉ opening indent ∧ "<outline".toList <:+: opening indent ∧ "text=".toList <:+ opening indent ∧
      ¬ "type=".toList <:+ opening indent ∧ ¬ "xmlUrl=".toList <:+ opening indent := by
  rcases h with rfl | rfl <;> decide

/-- What an import finds of a subscription. -/
def Subscription.read (sub : Subscription) : Option (Text × Text × Option Text) :=
  let feedType := if "type=".toList <:+ sub.name then " type=".toList else sub.feedType.toText
  if '\n' ∈ sub.name then none
  else if "xmlUrl=".toList <:+ sub.name then some (readBack sub.name, " type=".toList, some feedType)
  else if '\n' ∈ sub.url then none
  else some (readBack sub.name, readBack sub.url, some feedType)

theorem quote_not_mem_toText (feedType : FeedType) : '"' ∉ feedType.toText := by
  cases feedType <;> decide

theorem unescape_toText (feedType : FeedType) : unescape feedType.toText = feedType.toText := by
  cases feedType <;> decide

/-- The segments of the line of a subscription, of which the last ones may be missing. -/
def segments (sub : Subscription) (after : List Text) : List Text :=
  htmlEscape sub.name :: " type=".toList :: sub.feedType.toText :: " xmlUrl=".toList :: after

theorem quote_not_mem_segments (sub : Subscription) {after : List Text} (h : ∀ segment ∈ after, '"' ∉ segment) :
    ∀ segment ∈ segments sub after, '"' ∉ segment := by
  intro segment hsegment
  simp only [segments, List.mem_cons] at hsegment
  rcases hsegment with rfl | rfl | rfl | rfl | hafter
  · exact quote_not_mem_htmlEscape _
  · decide
  · exact quote_not_mem_toText _
  · decide
  · exact h segment hafter

section
variable {indent : Text} {sub : Subscription}

theorem parse_text (h : IsIndent indent) {after : List Text} (hafter : ∀ segment ∈ after, '"' ∉ segment) :
    extractAttr (quoted (opening indent) (segments sub after)) "text".toList = some (readBack sub.name) := by
  obtain ⟨hquote, -, -, htext, -, -⟩ := opening_spec h
  rw [extractAttr_quoted (by decide) hquote (quote_not_mem_segments sub hafter), segments, attrAt]
  change (if "text=".toList <:+ opening indent then _ else _ : Option Text).map unescape = _
  rw [if_pos htext]
  rfl

theorem parse_type (h : IsIndent indent) {after : List Text} (hafter : ∀ segment ∈ after, '"' ∉ segment) :
    extractAttr (quoted (opening indent) (segments sub after)) "type".toList =
      some (if "type=".toList <:+ sub.name then " type=".toList else sub.feedType.toText) := by
  obtain ⟨hquote, -, -, -, htype, -⟩ := opening_spec h
  have hname := suffix_htmlEscape (w := "type=".toList) (by decide) (by decide) (s := sub.name)
  rw [extractAttr_quoted (by decide) hquote (quote_not_mem_segments sub hafter), segments]
  change (attrAt "type=".toList _ _).map unescape = _
  rw [attrAt, if_neg htype, attrAt]
  by_cases hsuffix : "type=".toList <:+ sub.name
  · rw [if_pos (hname.mpr hsuffix), if_pos hsuffix]
    decide
  · rw [if_neg (mt hname.mp hsuffix), if_neg hsuffix, attrAt, if_pos (by decide), Option.map_some, unescape_toText]

theorem parse_xmlUrl (h : IsIndent indent) {url : Text} {after : List Text} (hafter : ∀ segment ∈ url :: after, '"' ∉ segment) :
    extractAttr (quoted (opening indent) (segments sub (url :: after))) "xmlUrl".toList =
      if "xmlUrl=".toList <:+ sub.name then some " type=".toList else if after = [] then none else some (unescape url) := by
  obtain ⟨hquote, -, -, -, -, hxml⟩ := opening_spec h
  have hname := suffix_htmlEscape (w := "xmlUrl=".toList) (by decide) (by decide) (s := sub.name)
  have htype : ¬ "xmlUrl=".toList <:+ sub.feedType.toText := by
    cases sub.feedType <;> decide
  rw [extractAttr_quoted (by decide) hquote (quote_not_mem_segments sub hafter), segments]
  change (attrAt "xmlUrl=".toList _ _).map unescape = _
  rw [attrAt, if_neg hxml, attrAt]
  by_cases hsuffix : "xmlUrl=".toList <:+ sub.name
  · rw [if_pos (hname.mpr hsuffix), if_pos hsuffix]
    decide
  · rw [if_neg (mt hname.mp hsuffix), if_neg hsuffix, attrAt, if_neg (by decide), attrAt, if_neg htype]
    cases after with
    | nil => rfl
    | cons next after =>
      rw [attrAt, if_pos (by decide), if_neg (List.cons_ne_nil _ _)]
      rfl

/-- What is read of the line of a subscription. -/
theorem feedsOf_segments (h : IsIndent indent) {url : Text} {after : List Text} (hafter : ∀ segment ∈ url :: after, '"' ∉ segment) :
    feedsOf [quoted (opening indent) (segments sub (url :: after))] =
      ((if "xmlUrl=".toList <:+ sub.name then some " type=".toList
        else if after = [] then none else some (unescape url)).map fun url =>
          (readBack sub.name, url, some (if "type=".toList <:+ sub.name then " type=".toList else sub.feedType.toText))).toList := by
  have houtline : isOutline (quoted (opening indent) (segments sub (url :: after))) = true := by
    rw [isOutline, splitFirst_isSome_iff]
    exact (opening_spec h).2.2.1.trans (List.prefix_append _ _).isInfix
  rw [feedsOf_outline houtline, OpmlOutline.feed, parseOutline]
  dsimp only
  rw [parse_text h hafter, parse_type h hafter, parse_xmlUrl h hafter, Option.getD_some]

/-- A line that ends in the first value is no subscription. -/
theorem feedsOf_opening (h : IsIndent indent) {value : Text} {after : List Text} (hvalue : ∀ segment ∈ value :: after, '"' ∉ segment)
    (hafter : after.length ≤ 1) : feedsOf [quoted (opening indent) (value :: after)] = [] := by
  obtain ⟨hquote, -, houtline, -, -, hxml⟩ := opening_spec h
  have houtline : isOutline (quoted (opening indent) (value :: after)) = true := by
    rw [isOutline, splitFirst_isSome_iff]
    exact houtline.trans (List.prefix_append _ _).isInfix
  have hnone : attrAt "xmlUrl=".toList (opening indent) (value :: after) = none := by
    match after, hafter with
    | [], _ => rfl
    | [next], _ =>
      rw [attrAt, if_neg hxml]
      rfl
  have hurl : extractAttr (quoted (opening indent) (value :: after)) "xmlUrl".toList = none := by
    rw [extractAttr_quoted (by decide) hquote hvalue]
    change (attrAt "xmlUrl=".toList _ _).map unescape = _
    rw [hnone]
    rfl
  rw [feedsOf_outline houtline, OpmlOutline.feed, parseOutline, hurl]
  rfl

theorem stripCr_append (p : Text) {c : Char} (hc : c ≠ '\r') (x : Text) : stripCr (p ++ c :: x) = p ++ c :: stripCr x := by
  unfold stripCr
  cases x with
  | nil => simp [hc]
  | cons d x =>
    have hlast : (p ++ c :: d :: x).getLast? = (d :: x).getLast? := by
      rw [List.getLast?_append_of_ne_nil _ (List.cons_ne_nil _ _), List.getLast?_cons_cons]
    rw [hlast]
    split
    · rw [List.dropLast_append_of_ne_nil (List.cons_ne_nil _ _), List.dropLast_cons_of_ne_nil (List.cons_ne_nil _ _)]
    · rfl

theorem quoted_append (first : Text) (before after : List Text) :
    quoted first (before ++ after) = quoted first before ++ after.flatMap fun segment => '"' :: segment := by
  rw [quoted, quoted, List.flatMap_append, List.append_assoc]

theorem stripCr_quoted (first : Text) (before : List Text) (last : Text) :
    stripCr (quoted first (before ++ [last])) = quoted first (before ++ [stripCr last]) := by
  rw [quoted_append, quoted_append, List.flatMap_singleton, List.flatMap_singleton, stripCr_append _ (by decide)]

/-- A character of some segments that is not a quotation mark. -/
theorem mem_of_mem_quoted {first : Text} {before : List Text} {c : Char} (hc : c ≠ '"') (h : c ∈ quoted first before) :
    c ∈ first ∨ ∃ segment ∈ before, c ∈ segment := by
  rcases List.mem_append.mp h with h | h
  · exact .inl h
  · obtain ⟨segment, hsegment, hmem⟩ := List.mem_flatMap.mp h
    exact .inr ⟨segment, hsegment, (List.mem_cons.mp hmem).resolve_left hc⟩

theorem outlineElement_eq (indent : Text) (sub : Subscription) :
    outlineElement indent sub =
      quoted (opening indent) (segments sub [htmlEscape sub.url, " />".toList]) ++ ['\n'] := by
  have htext : "<outline text=\"".toList = "<outline text=".toList ++ ['"'] := by decide
  have htype : "\" type=\"".toList = '"' :: " type=".toList ++ ['"'] := by decide
  have hxml : "\" xmlUrl=\"".toList = '"' :: " xmlUrl=".toList ++ ['"'] := by decide
  have hend : "\" />\n".toList = '"' :: " />".toList ++ ['\n'] := by decide
  rw [outlineElement, htext, htype, hxml, hend, opening, segments]
  simp only [quoted, List.flatMap_cons, List.flatMap_nil, List.append_assoc, List.cons_append, List.nil_append, List.append_nil]

/-- What follows the tag of a subscription has no `<`. -/
theorem lt_not_mem_segments (sub : Subscription) {after : List Text} (h : ∀ segment ∈ after, '<' ∉ segment) :
    ∀ segment ∈ segments sub after, '<' ∉ segment := by
  have htype : '<' ∉ sub.feedType.toText := by
    cases sub.feedType <;> decide
  intro segment hsegment
  simp only [segments, List.mem_cons] at hsegment
  rcases hsegment with rfl | rfl | rfl | rfl | hafter
  · exact lt_not_mem_htmlEscape _
  · decide
  · exact htype
  · decide
  · exact h segment hafter

/-- A value with a line feed ends the line that is read. -/
theorem reads_broken (h : IsIndent indent) {before after : List Text} {value : Text} (hbefore : ∀ segment ∈ before, '\n' ∉ segment)
    (hvalue : '\n' ∈ value) (hlt : ∀ segment ∈ value :: after, '<' ∉ segment) :
    ∃ x, (∀ c ∈ x, c ∈ value) ∧ Reads (quoted (opening indent) (before ++ value :: after) ++ ['\n'])
      (feedsOf [quoted (opening indent) (before ++ [x])]) := by
  obtain ⟨x, y, rfl, hx⟩ := List.eq_append_cons_of_mem hvalue
  refine ⟨stripCr x, fun c hc => List.mem_append_left _ (mem_of_mem_stripCr hc), ?_⟩
  have hline : quoted (opening indent) (before ++ (x ++ '\n' :: y) :: after) =
      quoted (opening indent) (before ++ [x]) ++ '\n' :: quoted y after := by
    simp only [quoted, List.flatMap_append, List.flatMap_cons, List.flatMap_nil, List.append_assoc, List.cons_append,
      List.append_nil]
  have hfirst : '\n' ∉ quoted (opening indent) (before ++ [x]) := by
    intro hmem
    rcases mem_of_mem_quoted (by decide) hmem with hmem | ⟨segment, hsegment, hmem⟩
    · exact (opening_spec h).2.1 hmem
    · rcases List.mem_append.mp hsegment with hsegment | hsegment
      · exact hbefore segment hsegment hmem
      · rw [List.mem_singleton.mp hsegment] at hmem
        exact hx hmem
  have hrest : '<' ∉ quoted y after := by
    intro hmem
    rcases mem_of_mem_quoted (by decide) hmem with hmem | ⟨segment, hsegment, hmem⟩
    · exact hlt _ List.mem_cons_self (List.mem_append_right _ (List.mem_cons_of_mem _ hmem))
    · exact hlt segment (List.mem_cons_of_mem _ hsegment) hmem
  have hreads := reads_element hfirst hrest
  rwa [stripCr_quoted, ← hline] at hreads

theorem newline_not_mem_toText (feedType : FeedType) : '\n' ∉ feedType.toText := by
  cases feedType <;> decide

theorem reads_outlineElement (h : IsIndent indent) (sub : Subscription) : Reads (outlineElement indent sub) sub.read.toList := by
  have hurl := quote_not_mem_htmlEscape sub.url
  have htail : ∀ segment ∈ ([htmlEscape sub.url, " />".toList] : List Text), '<' ∉ segment :=
    List.forall_mem_cons.mpr ⟨lt_not_mem_htmlEscape _, List.forall_mem_singleton.mpr (by decide)⟩
  rw [outlineElement_eq, Subscription.read]
  by_cases hname : '\n' ∈ sub.name
  · -- the line ends in the name
    have hnone : ∀ segment ∈ ([] : List Text), '\n' ∉ segment := fun segment hmem => absurd hmem List.not_mem_nil
    obtain ⟨x, hx, hreads⟩ := reads_broken h hnone (newline_mem_htmlEscape.mpr hname) (lt_not_mem_segments sub htail)
    have hquote : ∀ segment ∈ ([x] : List Text), '"' ∉ segment :=
      List.forall_mem_singleton.mpr fun hmem => quote_not_mem_htmlEscape _ (hx _ hmem)
    rw [List.nil_append, List.nil_append, feedsOf_opening h hquote (Nat.zero_le 1)] at hreads
    rw [if_pos hname]
    exact hreads
  rw [if_neg hname]
  have hbefore : ∀ segment ∈ segments sub [], '\n' ∉ segment := by
    intro segment hsegment
    simp only [segments, List.mem_cons, List.not_mem_nil, or_false] at hsegment
    rcases hsegment with rfl | rfl | rfl | rfl
    · exact mt newline_mem_htmlEscape.mp hname
    · decide
    · exact newline_not_mem_toText _
    · decide
  by_cases hnewline : '\n' ∈ sub.url
  · -- the line ends in the URL
    obtain ⟨x, hx, hreads⟩ := reads_broken h hbefore (newline_mem_htmlEscape.mpr hnewline) htail
    have hquote : ∀ segment ∈ ([x] : List Text), '"' ∉ segment :=
      List.forall_mem_singleton.mpr fun hmem => hurl (hx _ hmem)
    have hline : segments sub [] ++ [x] = segments sub [x] := rfl
    rw [hline, feedsOf_segments h hquote, if_pos rfl] at hreads
    rw [if_pos hnewline]
    by_cases hxml : "xmlUrl=".toList <:+ sub.name
    · rwa [if_pos hxml] at hreads ⊢
    · rwa [if_neg hxml] at hreads ⊢
  · have hquote : ∀ segment ∈ ([htmlEscape sub.url, " />".toList] : List Text), '"' ∉ segment :=
      List.forall_mem_cons.mpr ⟨hurl, List.forall_mem_singleton.mpr (by decide)⟩
    have hline : '\n' ∉ quoted (opening indent) (segments sub [htmlEscape sub.url, " />".toList]) := by
      intro hmem
      rcases mem_of_mem_quoted (by decide) hmem with hmem | ⟨segment, hsegment, hmem⟩
      · exact (opening_spec h).2.1 hmem
      · have hsplit : segments sub [htmlEscape sub.url, " />".toList] = segments sub [] ++ [htmlEscape sub.url, " />".toList] := rfl
        rw [hsplit] at hsegment
        rcases List.mem_append.mp hsegment with hsegment | hsegment
        · exact hbefore segment hsegment hmem
        · simp only [List.mem_cons, List.not_mem_nil, or_false] at hsegment
          rcases hsegment with rfl | rfl
          · exact hnewline (newline_mem_htmlEscape.mp hmem)
          · exact absurd hmem (by decide)
    have hstrip : stripCr (quoted (opening indent) (segments sub [htmlEscape sub.url, " />".toList])) =
        quoted (opening indent) (segments sub [htmlEscape sub.url, " />".toList]) :=
      (stripCr_quoted _ (segments sub [htmlEscape sub.url]) " />".toList).trans rfl
    have hreads := reads_line hline
    rw [hstrip, feedsOf_segments h hquote, if_neg (List.cons_ne_nil _ _)] at hreads
    rw [if_neg hnewline]
    by_cases hxml : "xmlUrl=".toList <:+ sub.name
    · rwa [if_pos hxml] at hreads ⊢
    · rwa [if_neg hxml] at hreads ⊢

end

theorem reads_plain {t : Text} (hline : '\n' ∉ t) (houtline : isOutline (stripCr t) = false) : Reads (t ++ ['\n']) [] := by
  have hreads := reads_line hline
  rwa [feedsOf_of_not_outline (List.forall_mem_singleton.mpr houtline)] at hreads

theorem reads_folderStart (folder : Text) : Reads (folderStart folder) [] := by
  have hindent : IsIndent "    ".toList := .inl rfl
  have hquote : ∀ segment ∈ ([htmlEscape folder, ">".toList] : List Text), '"' ∉ segment :=
    List.forall_mem_cons.mpr ⟨quote_not_mem_htmlEscape _, List.forall_mem_singleton.mpr (by decide)⟩
  have heq : folderStart folder = quoted (opening "    ".toList) [htmlEscape folder, ">".toList] ++ ['\n'] := by
    have htext : "    <outline text=\"".toList = "    ".toList ++ "<outline text=".toList ++ ['"'] := by decide
    have hend : "\">\n".toList = '"' :: ">".toList ++ ['\n'] := by decide
    unfold folderStart opening
    simp only [htext, hend, quoted, List.flatMap_cons, List.flatMap_nil, List.append_assoc, List.cons_append, List.nil_append, List.append_nil]
  rw [heq]
  by_cases hnewline : '\n' ∈ folder
  · have hlt : ∀ segment ∈ ([htmlEscape folder, ">".toList] : List Text), '<' ∉ segment :=
      List.forall_mem_cons.mpr ⟨lt_not_mem_htmlEscape _, List.forall_mem_singleton.mpr (by decide)⟩
    have hnone : ∀ segment ∈ ([] : List Text), '\n' ∉ segment := fun segment hmem => absurd hmem List.not_mem_nil
    obtain ⟨x, hx, hreads⟩ := reads_broken hindent hnone (newline_mem_htmlEscape.mpr hnewline) hlt
    have hquote : ∀ segment ∈ ([x] : List Text), '"' ∉ segment :=
      List.forall_mem_singleton.mpr fun hmem => quote_not_mem_htmlEscape _ (hx _ hmem)
    rwa [List.nil_append, List.nil_append, feedsOf_opening hindent hquote (Nat.zero_le 1)] at hreads
  · have hline : '\n' ∉ quoted (opening "    ".toList) [htmlEscape folder, ">".toList] := by
      intro hmem
      rcases mem_of_mem_quoted (by decide) hmem with hmem | ⟨segment, hsegment, hmem⟩
      · exact absurd hmem (by decide)
      · simp only [List.mem_cons, List.not_mem_nil, or_false] at hsegment
        rcases hsegment with rfl | rfl
        · exact hnewline (newline_mem_htmlEscape.mp hmem)
        · exact absurd hmem (by decide)
    have hstrip : stripCr (quoted (opening "    ".toList) [htmlEscape folder, ">".toList]) =
        quoted (opening "    ".toList) [htmlEscape folder, ">".toList] :=
      (stripCr_quoted _ [htmlEscape folder] ">".toList).trans rfl
    have hreads := reads_line hline
    rwa [hstrip, feedsOf_opening hindent hquote (Nat.le_refl 1)] at hreads

theorem reads_outlineElements {indent : Text} (h : IsIndent indent) (subs : List Subscription) :
    Reads (subs.flatMap (outlineElement indent)) (subs.filterMap (·.read)) := by
  rw [List.filterMap_eq_flatMap_toList]
  exact .flatMap fun sub _ => reads_outlineElement h sub

theorem reads_folderElement (folder : Text) (subs : List Subscription) :
    Reads (folderElement folder subs) (subs.filterMap (·.read)) := by
  rw [folderElement]
  split
  · exact reads_outlineElements (.inl rfl) subs
  · have hend : Reads folderEnd [] := by
      have heq : folderEnd = "    </outline>".toList ++ ['\n'] := by decide
      rw [heq]
      exact reads_plain (by decide) (by decide)
    have hreads := ((reads_folderStart folder).append (reads_outlineElements (.inr rfl) subs)).append hend
    rwa [List.nil_append, List.append_nil] at hreads

/-! ## The document -/

theorem isDigit_of_mem_padded {w n : Nat} {c : Char} (h : c ∈ padded w n) : c.isDigit = true := by
  unfold padded List.leftpad at h
  rcases List.mem_append.mp h with hzero | hdigit
  · rw [List.eq_of_mem_replicate hzero]
    decide
  · exact Nat.isDigit_of_mem_toDigits (by decide) (by decide) hdigit

theorem not_mem_padded {c : Char} (hc : c.isDigit = false) (w n : Nat) : c ∉ padded w n := by
  intro h
  rw [isDigit_of_mem_padded h] at hc
  cases hc

/-- A date keeps to its line and its tag. -/
theorem not_mem_toRfc2822 {t : NaiveDateTime} {date : Text} (h : toRfc2822 t = some date) : '\n' ∉ date ∧ '<' ∉ date := by
  have hweekday : ∀ day, '\n' ∉ shortWeekday day ∧ '<' ∉ shortWeekday day := by
    intro day
    cases day <;> decide
  have hmonth : ∀ n, '\n' ∉ shortMonths.getD n [] ∧ '<' ∉ shortMonths.getD n [] := by
    intro n
    have hall : ∀ month ∈ shortMonths, '\n' ∉ month ∧ '<' ∉ month := by decide
    rw [List.getD_eq_getElem?_getD]
    cases hn : shortMonths[n]? with
    | none => exact ⟨List.not_mem_nil, List.not_mem_nil⟩
    | some month => exact hall month (List.mem_of_getElem? hn)
  have hnewline := not_mem_padded (show '\n'.isDigit = false by decide)
  have hlt := not_mem_padded (show '<'.isDigit = false by decide)
  unfold toRfc2822 at h
  dsimp only at h
  split at h
  · cases h
    simp [-List.getD_eq_getElem?_getD, hweekday, hmonth, hnewline, hlt]
  · cases h

theorem stripCr_begins (t : Text) : stripCr t <+: t := by
  unfold stripCr
  split
  · exact List.dropLast_prefix t
  · exact List.prefix_rfl

theorem reads_dateLine {date : Text} (hnewline : '\n' ∉ date) (hlt : '<' ∉ date) :
    Reads ("    <dateCreated>".toList ++ date ++ "</dateCreated>\n".toList) [] := by
  have heq : "    <dateCreated>".toList ++ date ++ "</dateCreated>\n".toList =
      "    <dateCreated>".toList ++ date ++ "</dateCreated>".toList ++ ['\n'] :=
    (List.append_assoc _ "</dateCreated>".toList _).symm
  have hline : '\n' ∉ "    <dateCreated>".toList ++ date ++ "</dateCreated>".toList := by
    simp only [List.mem_append, not_or]
    exact ⟨⟨by decide, hnewline⟩, by decide⟩
  have hbefore : '<' ∉ "dateCreated>".toList ++ date := by
    simp only [List.mem_append, not_or]
    exact ⟨by decide, hlt⟩
  have hnot : ¬ "<outline".toList <:+: "    <dateCreated>".toList ++ date ++ "</dateCreated>".toList := by
    change ¬ '<' :: "outline".toList <:+: "    ".toList ++ ('<' :: ("dateCreated>".toList ++ date ++ "</dateCreated>".toList))
    rw [infix_append_iff (by decide), List.infix_cons_iff, infix_append_iff hbefore]
    rintro (hpre | hinf)
    · have hhead := (List.cons_prefix_cons.mp hpre).2
      change 'o' :: "utline".toList <+: 'd' :: _ at hhead
      exact absurd (List.cons_prefix_cons.mp hhead).1 (by decide)
    · exact absurd hinf (by decide)
  rw [heq]
  apply reads_plain hline
  rw [isOutline, ← Bool.not_eq_true, splitFirst_isSome_iff]
  exact fun hinf => hnot (hinf.trans (stripCr_begins _).isInfix)

theorem reads_header {date : Text} (hnewline : '\n' ∉ date) (hlt : '<' ∉ date) : Reads (header date) [] := by
  have hplain : ∀ t ∈ ["<?xml version=\"1.0\" encoding=\"UTF-8\"?>\n".toList, "<opml version=\"2.0\">\n".toList,
      "<head>\n".toList, "    <title>remarkable-server feeds</title>\n".toList, "</head>\n".toList, "<body>\n".toList],
      t.dropLast ++ ['\n'] = t ∧ '\n' ∉ t.dropLast ∧ isOutline (stripCr t.dropLast) = false := by
    decide +kernel
  have hreads : ∀ t ∈ ["<?xml version=\"1.0\" encoding=\"UTF-8\"?>\n".toList, "<opml version=\"2.0\">\n".toList,
      "<head>\n".toList, "    <title>remarkable-server feeds</title>\n".toList, "</head>\n".toList, "<body>\n".toList],
      Reads t [] := by
    intro t ht
    obtain ⟨heq, hline, houtline⟩ := hplain t ht
    rw [← heq]
    exact reads_plain hline houtline
  simp only [List.forall_mem_cons] at hreads
  obtain ⟨hxml, hopml, hhead, htitle, hend, hbody, -⟩ := hreads
  have hall := ((((hxml.append hopml).append hhead).append htitle).append (reads_dateLine hnewline hlt)).append (hend.append hbody)
  unfold header
  simpa only [List.append_assoc, List.append_nil] using hall

theorem feeds_footer : feeds footer = [] := by
  rw [feeds_eq]
  exact feedsOf_of_not_outline (by decide +kernel)

/-- What an import finds in an export. -/
theorem feeds_exportOpml {now : NaiveDateTime} {folders : List Text} {subs : List Subscription} {text : Text}
    (h : exportOpml now folders subs = some text) :
    feeds text = folders.flatMap fun folder => (subs.filter (·.folder = folder)).filterMap (·.read) := by
  obtain ⟨date, hdate, htext⟩ := Option.bind_eq_some_iff.mp h
  cases htext
  obtain ⟨hnewline, hlt⟩ := not_mem_toRfc2822 hdate
  have hbody : Reads (folders.flatMap fun folder => folderElement folder (subs.filter (·.folder = folder)))
      (folders.flatMap fun folder => (subs.filter (·.folder = folder)).filterMap (·.read)) :=
    .flatMap fun folder _ => reads_folderElement folder _
  have hreads := (reads_header hnewline hlt).append hbody
  rw [hreads footer, feeds_footer, List.nil_append, List.append_nil]

/-! ## Which subscriptions come back -/

theorem perm_grouped {α β : Type} [DecidableEq β] {key : α → β} {keys : List β} (hkeys : keys.Nodup) (xs : List α) :
    (keys.flatMap fun k => xs.filter (key · = k)).Perm (xs.filter (key · ∈ keys)) := by
  induction keys with
  | nil => simp
  | cons k keys ih =>
    have hk := (List.nodup_cons.mp hkeys).1
    have hfirst : (xs.filter (key · ∈ k :: keys)).filter (key · = k) = xs.filter (key · = k) := by
      rw [List.filter_filter]
      apply List.filter_congr
      intro x _
      by_cases hx : key x = k <;> simp [hx]
    have hrest : (xs.filter (key · ∈ k :: keys)).filter (fun x => !decide (key x = k)) = xs.filter (key · ∈ keys) := by
      rw [List.filter_filter]
      apply List.filter_congr
      intro x _
      by_cases hx : key x = k <;> simp [hx, hk]
    have hperm := List.filter_append_perm (key · = k) (xs.filter (key · ∈ k :: keys))
    rw [hfirst, hrest] at hperm
    rw [List.flatMap_cons]
    exact ((ih (List.nodup_cons.mp hkeys).2).append_left _).trans hperm

theorem perm_grouped_of_mem {α β : Type} [DecidableEq β] {key : α → β} {keys : List β} (hkeys : keys.Nodup) {xs : List α}
    (h : ∀ x ∈ xs, key x ∈ keys) : (keys.flatMap fun k => xs.filter (key · = k)).Perm xs := by
  have hall : xs.filter (key · ∈ keys) = xs := List.filter_eq_self.mpr fun x hx => decide_eq_true (h x hx)
  have hperm : (keys.flatMap fun k => xs.filter (key · = k)).Perm (xs.filter (key · ∈ keys)) := perm_grouped hkeys xs
  rwa [hall] at hperm

theorem isSome_of_length_filterMap {α β : Type} {f : α → Option β} {xs : List α} (h : xs.length ≤ (xs.filterMap f).length) :
    ∀ x ∈ xs, (f x).isSome = true := by
  induction xs with
  | nil => exact fun x hx => absurd hx List.not_mem_nil
  | cons y xs ih =>
    have hle := List.length_filterMap_le f xs
    rw [List.filterMap_cons] at h
    cases hy : f y with
    | none =>
      rw [hy, List.length_cons] at h
      dsimp only at h
      omega
    | some b =>
      rw [hy] at h
      simp only [List.length_cons, Nat.add_le_add_iff_right] at h
      exact List.forall_mem_cons.mpr ⟨by rw [hy]; rfl, ih h⟩

/-- Sums of the same value over which one side is nowhere greater are the same everywhere. -/
theorem eq_of_sum_eq {α : Type} {f g : α → Nat} {xs : List α} (hle : ∀ x ∈ xs, f x ≤ g x)
    (hsum : (xs.map f).sum = (xs.map g).sum) : ∀ x ∈ xs, f x = g x := by
  induction xs with
  | nil => exact fun x hx => absurd hx List.not_mem_nil
  | cons y xs ih =>
    have hy := hle y List.mem_cons_self
    have hxs := List.sum_le_sum fun x hx => hle x (List.mem_cons_of_mem y hx)
    simp only [List.map_cons, List.sum_cons] at hsum
    exact List.forall_mem_cons.mpr ⟨by omega, ih (fun x hx => hle x (List.mem_cons_of_mem y hx)) (by omega)⟩

namespace Subscription

/-- What is found if anything is. -/
def found (sub : Subscription) : Text × Text × Option Text :=
  (readBack sub.name, if "xmlUrl=".toList <:+ sub.name then " type=".toList else readBack sub.url,
    some (if "type=".toList <:+ sub.name then " type=".toList else sub.feedType.toText))

variable {sub : Subscription}

theorem read_of_isSome (h : sub.read.isSome = true) :
    sub.read = some sub.found ∧ '\n' ∉ sub.name ∧ ("xmlUrl=".toList <:+ sub.name ∨ '\n' ∉ sub.url) := by
  unfold read found at *
  dsimp only at h ⊢
  by_cases hname : '\n' ∈ sub.name
  · rw [if_pos hname] at h
    cases h
  rw [if_neg hname] at h ⊢
  by_cases hxml : "xmlUrl=".toList <:+ sub.name
  · rw [if_pos hxml, if_pos hxml]
    exact ⟨rfl, hname, .inl hxml⟩
  rw [if_neg hxml] at h ⊢
  by_cases hurl : '\n' ∈ sub.url
  · rw [if_pos hurl] at h
    cases h
  rw [if_neg hurl, if_neg hxml]
  exact ⟨rfl, hname, .inr hurl⟩

theorem read_of_survives (h : sub.Survives) : sub.read = some sub.feed := by
  obtain ⟨hname, hplain, htype, hurl⟩ := h
  unfold read feed
  rw [if_neg hname, if_neg htype, readBack_of_plain hplain]
  by_cases hxml : "xmlUrl=".toList <:+ sub.name
  · rw [if_pos hxml] at hurl ⊢
    rw [hurl]
  · rw [if_neg hxml] at hurl ⊢
    rw [if_neg hurl.1, readBack_of_plain hurl.2]

end Subscription

section
variable {subs : List Subscription}

/-- A number that is nowhere greater for what is found, where the same feeds are found. -/
theorem found_eq (h : (subs.map (·.found)).Perm (subs.map (·.feed))) (number : Text × Text × Option Text → Nat)
    (hle : ∀ sub ∈ subs, number sub.found ≤ number sub.feed) : ∀ sub ∈ subs, number sub.found = number sub.feed := by
  have hsum := (h.map number).sum_eq
  rw [List.map_map, List.map_map] at hsum
  exact eq_of_sum_eq hle hsum

theorem names_plain (h : (subs.map (·.found)).Perm (subs.map (·.feed))) : ∀ sub ∈ subs, Plain sub.name := by
  -- what is found has no quotation marks
  have hcount := found_eq h (fun feed => feed.1.count '"') fun sub _ => by
    dsimp only [Subscription.found]
    rw [List.count_eq_zero_of_not_mem (quote_not_mem_readBack _)]
    exact Nat.zero_le _
  have hquote : ∀ sub ∈ subs, '"' ∉ sub.name := by
    intro sub hsub
    have heq := hcount sub hsub
    dsimp only [Subscription.found, Subscription.feed] at heq
    rw [List.count_eq_zero_of_not_mem (quote_not_mem_readBack _)] at heq
    exact List.count_eq_zero.mp heq.symm
  have hlength := found_eq h (fun feed => feed.1.length) fun sub hsub => by
    rcases readBack_cases (hquote sub hsub) with ⟨-, heq⟩ | ⟨-, hless⟩
    · exact (congrArg List.length heq).le
    · exact hless.le
  intro sub hsub
  rcases readBack_cases (hquote sub hsub) with ⟨hplain, -⟩ | ⟨-, hless⟩
  · exact hplain
  · exact absurd (hlength sub hsub) hless.ne

theorem types_kept (h : (subs.map (·.found)).Perm (subs.map (·.feed))) : ∀ sub ∈ subs, ¬ "type=".toList <:+ sub.name := by
  have htype : ∀ feedType : FeedType, feedType.toText ≠ " type=".toList := by
    intro feedType
    cases feedType <;> decide
  have hfeed : ∀ sub : Subscription, (if sub.feed.2.2 = some " type=".toList then 0 else 1) = 1 := fun sub =>
    if_neg fun heq => htype sub.feedType (Option.some.inj heq)
  have hkept := found_eq h (fun feed => if feed.2.2 = some " type=".toList then 0 else 1) fun sub _ => by
    rw [hfeed]
    split <;> decide
  intro sub hsub hsuffix
  have hfound : sub.found.2.2 = some " type=".toList := congrArg some (if_pos hsuffix)
  have heq := hkept sub hsub
  rw [hfeed, if_pos hfound] at heq
  cases heq

theorem found_url_of_suffix {sub : Subscription} (h : "xmlUrl=".toList <:+ sub.name) : sub.found.2.1 = " type=".toList := if_pos h

theorem found_url {sub : Subscription} (h : ¬ "xmlUrl=".toList <:+ sub.name) : sub.found.2.1 = readBack sub.url := if_neg h

theorem found_name {sub : Subscription} (h : Plain sub.name) : sub.found.1 = sub.name := readBack_of_plain h

/-- The subscriptions whose names end in the name of the attribute are compared by themselves. -/
theorem url_of_suffix (h : (subs.map (·.found)).Perm (subs.map (·.feed))) (hnames : ∀ sub ∈ subs, Plain sub.name) :
    ∀ sub ∈ subs, "xmlUrl=".toList <:+ sub.name → sub.url = " type=".toList := by
  have hfound : ∀ sub ∈ subs, (if "xmlUrl=".toList <:+ sub.found.1 ∧ sub.found.2.1 ≠ " type=".toList then 1 else 0) = 0 := by
    intro sub hsub
    apply if_neg
    rintro ⟨hsuffix, hne⟩
    rw [found_name (hnames sub hsub)] at hsuffix
    exact hne (found_url_of_suffix hsuffix)
  have hkept := found_eq h (fun feed => if "xmlUrl=".toList <:+ feed.1 ∧ feed.2.1 ≠ " type=".toList then 1 else 0)
    fun sub hsub => (hfound sub hsub).trans_le (Nat.zero_le _)
  intro sub hsub hsuffix
  by_contra hne
  have heq := (hfound sub hsub).symm.trans (hkept sub hsub)
  have hone : (if "xmlUrl=".toList <:+ sub.feed.1 ∧ sub.feed.2.1 ≠ " type=".toList then 1 else 0) = 1 := if_pos ⟨hsuffix, hne⟩
  exact absurd (heq.trans hone) Nat.zero_ne_one

/-- So are the others. -/
theorem urls_eq (h : (subs.map (·.found)).Perm (subs.map (·.feed))) (hnames : ∀ sub ∈ subs, Plain sub.name) (number : Text → Nat)
    (hle : ∀ sub ∈ subs, ¬ "xmlUrl=".toList <:+ sub.name → number (readBack sub.url) ≤ number sub.url) :
    ∀ sub ∈ subs, ¬ "xmlUrl=".toList <:+ sub.name → number (readBack sub.url) = number sub.url := by
  have hfound : ∀ sub ∈ subs, (if "xmlUrl=".toList <:+ sub.found.1 then 0 else number sub.found.2.1) =
      if "xmlUrl=".toList <:+ sub.name then 0 else number (readBack sub.url) := by
    intro sub hsub
    rw [found_name (hnames sub hsub)]
    by_cases hsuffix : "xmlUrl=".toList <:+ sub.name
    · rw [if_pos hsuffix, if_pos hsuffix]
    · rw [if_neg hsuffix, if_neg hsuffix, found_url hsuffix]
  have hkept := found_eq h (fun feed => if "xmlUrl=".toList <:+ feed.1 then 0 else number feed.2.1) fun sub hsub => by
    rw [hfound sub hsub, Subscription.feed]
    by_cases hsuffix : "xmlUrl=".toList <:+ sub.name
    · rw [if_pos hsuffix]
      exact Nat.zero_le _
    · rw [if_neg hsuffix, if_neg hsuffix]
      exact hle sub hsub hsuffix
  intro sub hsub hsuffix
  have heq := hkept sub hsub
  rwa [hfound sub hsub, Subscription.feed, if_neg hsuffix, if_neg hsuffix] at heq

theorem urls_plain (h : (subs.map (·.found)).Perm (subs.map (·.feed))) (hnames : ∀ sub ∈ subs, Plain sub.name) :
    ∀ sub ∈ subs, ¬ "xmlUrl=".toList <:+ sub.name → Plain sub.url := by
  have hzero : ∀ t, (readBack t).count '"' = 0 := fun t => List.count_eq_zero_of_not_mem (quote_not_mem_readBack t)
  have hcount := urls_eq h hnames (·.count '"') fun sub _ _ => (hzero sub.url).trans_le (Nat.zero_le _)
  have hquote : ∀ sub ∈ subs, ¬ "xmlUrl=".toList <:+ sub.name → '"' ∉ sub.url := fun sub hsub hsuffix =>
    List.count_eq_zero.mp ((hcount sub hsub hsuffix).symm.trans (hzero sub.url))
  have hlength := urls_eq h hnames List.length fun sub hsub hsuffix => by
    rcases readBack_cases (hquote sub hsub hsuffix) with ⟨-, heq⟩ | ⟨-, hless⟩
    · rw [heq]
    · exact hless.le
  intro sub hsub hsuffix
  rcases readBack_cases (hquote sub hsub hsuffix) with ⟨hplain, -⟩ | ⟨-, hless⟩
  · exact hplain
  · exact absurd (hlength sub hsub hsuffix) hless.ne

/-- The feeds that are found are those of the subscriptions exactly if each of them comes back. -/
theorem perm_read_iff : (subs.filterMap (·.read)).Perm (subs.map (·.feed)) ↔ ∀ sub ∈ subs, sub.Survives := by
  constructor
  · intro h
    have hlength : subs.length ≤ (subs.filterMap (·.read)).length := by rw [h.length_eq, List.length_map]
    have hsome := isSome_of_length_filterMap hlength
    have hread : ∀ sub ∈ subs, sub.read = some sub.found := fun sub hsub => (Subscription.read_of_isSome (hsome sub hsub)).1
    rw [List.filterMap_congr hread, List.filterMap_eq_map'] at h
    have hnames := names_plain h
    intro sub hsub
    obtain ⟨-, hname, hurl⟩ := Subscription.read_of_isSome (hsome sub hsub)
    refine ⟨hname, hnames sub hsub, types_kept h sub hsub, ?_⟩
    split
    next hsuffix => exact url_of_suffix h hnames sub hsub hsuffix
    next hsuffix => exact ⟨hurl.resolve_left hsuffix, urls_plain h hnames sub hsub hsuffix⟩
  · intro h
    rw [List.filterMap_congr fun sub hsub => Subscription.read_of_survives (h sub hsub), List.filterMap_eq_map']

end

theorem perm_feeds {folders : List Text} {subs : List Subscription} (h : folders.Perm (subs.map (·.folder)).dedup) :
    (folders.flatMap fun folder => (subs.filter (·.folder = folder)).filterMap (·.read)).Perm (subs.filterMap (·.read)) := by
  have hmem : ∀ sub ∈ subs, sub.folder ∈ folders := fun sub hsub =>
    h.mem_iff.mpr (List.mem_dedup.mpr (List.mem_map_of_mem hsub))
  have hgrouped := perm_grouped_of_mem (h.nodup_iff.mpr (List.nodup_dedup _)) hmem
  have hperm := hgrouped.filterMap (·.read)
  rwa [List.filterMap_flatMap] at hperm

/-- An import of the export finds exactly the subscriptions, up to their order, if and only if the name of none
has a line feed, a quotation mark, `&lt;` or `&gt;` or ends in `type=`, and the URL of none has such a text,
except of one whose name ends in `xmlUrl=`, which must be what the reader takes for it. -/
theorem opml_round_trip_iff {now : NaiveDateTime} (hnow : 0 ≤ now.date.year ∧ now.date.year ≤ 9999) {folders : List Text}
    {subs : List Subscription} (hfolders : folders.Perm (subs.map (·.folder)).dedup) :
    ∃ text, exportOpml now folders subs = some text ∧
      ((feeds text).Perm (subs.map (·.feed)) ↔ ∀ sub ∈ subs, sub.Survives) := by
  obtain ⟨date, hdate⟩ : ∃ date, toRfc2822 now = some date := ⟨_, if_pos hnow⟩
  have hexport : ∃ text, exportOpml now folders subs = some text := by
    rw [exportOpml, hdate]
    exact ⟨_, rfl⟩
  obtain ⟨text, htext⟩ := hexport
  refine ⟨text, htext, ?_⟩
  have hfeeds := perm_feeds hfolders
  rw [← feeds_exportOpml htext] at hfeeds
  rw [← perm_read_iff]
  exact ⟨hfeeds.symm.trans, hfeeds.trans⟩

/-- 1 January 1970. -/
def epoch : NaiveDateTime := ⟨⟨719528, by decide⟩, .midnight⟩

def research : Subscription := ⟨"R&D <news>".toList, "https://a.example/?x=1&y=2".toList, .atom, "Work".toList⟩

def plainName : Subscription := ⟨"news".toList, "https://b.example/".toList, .rss, []⟩

/-- Two subscriptions that come back. -/
theorem opml_round_trip_research : ∃ text, exportOpml epoch [[], "Work".toList] [research, plainName] = some text ∧
    (feeds text).Perm ([research, plainName].map (·.feed)) := by
  obtain ⟨text, htext, hiff⟩ := opml_round_trip_iff
    (show 0 ≤ epoch.date.year ∧ epoch.date.year ≤ 9999 by decide +kernel)
    (show ([[], "Work".toList] : List Text).Perm ([research, plainName].map (·.folder)).dedup by decide +kernel)
  exact ⟨text, htext, hiff.mpr (by decide +kernel)⟩

def said : Subscription := ⟨"Say \"hi\"".toList, "https://c.example/".toList, .rss, []⟩

/-- A name with quotation marks comes back with their entities. -/
theorem quotation_marks_stay_escaped : ∃ text, exportOpml epoch [[]] [said] = some text ∧
    feeds text = [("Say &quot;hi&quot;".toList, said.url, some "rss".toList)] ∧ ¬ (feeds text).Perm ([said].map (·.feed)) := by
  have hsome : (exportOpml epoch [[]] [said]).isSome = true := by decide +kernel
  obtain ⟨text, htext⟩ := Option.isSome_iff_exists.mp hsome
  have hread : (([[]] : List Text).flatMap fun folder => ([said].filter (·.folder = folder)).filterMap (·.read)) =
      [("Say &quot;hi&quot;".toList, said.url, some "rss".toList)] := by
    decide +kernel
  have hfeeds := (feeds_exportOpml htext).trans hread
  refine ⟨text, htext, hfeeds, ?_⟩
  rw [hfeeds]
  decide +kernel

end Opml
