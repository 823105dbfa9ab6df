import Mathlib.Data.List.Basic

/-!
# Walks over a tree without recursion

A walk goes from a node to its first child, to its next sibling or up to the
nearest ancestor that has one, and counts how deep it is. It does the same as
the recursion over the tree, in as many steps as it visits nodes, and it does
not leave the node under which it began.
-/
namespace TreeWalk

inductive RoseTree (α : Type) where
  | node (label : α) (children : List (RoseTree α))

/-- An ancestor of a node, with its siblings; those before it nearest first. -/
structure Frame (α : Type) where
  label : α
  before : List (RoseTree α)
  after : List (RoseTree α)

/-- A node in its place in a tree. -/
structure Place (α : Type) where
  label : α
  children : List (RoseTree α)
  before : List (RoseTree α)
  after : List (RoseTree α)
  above : List (Frame α)

variable {α σ : Type}

namespace Place

def tree (p : Place α) : RoseTree α := .node p.label p.children

def firstChild (p : Place α) : Option (Place α) :=
  match p.children with
  | [] => none
  | .node label children :: after => some ⟨label, children, [], after, ⟨p.label, p.before, p.after⟩ :: p.above⟩

def nextSibling (p : Place α) : Option (Place α) :=
  match p.after with
  | [] => none
  | .node label children :: after => some ⟨label, children, p.tree :: p.before, after, p.above⟩

def parent (p : Place α) : Option (Place α) :=
  match p.above with
  | [] => none
  | frame :: above => some ⟨frame.label, p.before.reverse ++ p.tree :: p.after, frame.before, frame.after, above⟩

/-- The ancestor some levels up. -/
def ancestor : Nat → Place α → Option (Place α)
  | 0, p => some p
  | n + 1, p => p.parent.bind (ancestor n)

theorem parent_firstChild {p child : Place α} (h : p.firstChild = some child) : child.parent = some p := by
  obtain ⟨label, children, before, after, above⟩ := p
  cases children with
  | nil => cases h
  | cons first rest =>
    obtain ⟨l, cs⟩ := first
    cases h
    rfl

theorem parent_nextSibling {p next : Place α} (h : p.nextSibling = some next) : next.parent = p.parent := by
  obtain ⟨label, children, before, after, above⟩ := p
  cases after with
  | nil => cases h
  | cons first rest =>
    obtain ⟨l, cs⟩ := first
    cases h
    cases above with
    | nil => rfl
    | cons frame above => simp [parent, tree]

theorem tree_nextSibling {p next : Place α} (h : p.nextSibling = some next) : next.tree :: next.after = p.after := by
  obtain ⟨label, children, before, after, above⟩ := p
  cases after with
  | nil => cases h
  | cons first rest =>
    obtain ⟨l, cs⟩ := first
    cases h
    rfl

theorem after_eq_nil {p : Place α} (h : p.nextSibling = none) : p.after = [] := by
  obtain ⟨label, children, before, after, above⟩ := p
  cases after with
  | nil => rfl
  | cons first rest =>
    obtain ⟨l, cs⟩ := first
    cases h

end Place

/-- What is done at a node, told by its parent, whether its children are visited, and what is done on the
way up to a node. -/
structure Walker (α σ : Type) where
  visit : Option α → α → Nat → σ → σ
  enter : α → Bool
  leave : α → σ → σ

namespace Walker

/-- The next node in document order after a node and all below it, within the first level. -/
def climb (w : Walker α σ) (depth : Nat) (cur : Place α) (s : σ) : Option (Place α) × Nat × σ :=
  match cur.nextSibling with
  | some sibling => (some sibling, depth, s)
  | none =>
    match depth with
    | d + 2 =>
      match cur.parent with
      | some parent => w.climb (d + 1) parent (w.leave parent.label s)
      | none => (none, d + 2, s)
    | _ => (none, depth, s)

def step (w : Walker α σ) (node : Place α) (depth : Nat) (s : σ) : Option (Place α) × Nat × σ :=
  let s := w.visit (node.parent.map (·.label)) node.label depth s
  match node.firstChild with
  | some child => if w.enter node.label then (some child, depth + 1, s) else w.climb depth node s
  | none => w.climb depth node s

/-- The loop; nothing when the fuel ends before it. -/
def run (w : Walker α σ) : Nat → Option (Place α) × Nat × σ → Option σ
  | _, (none, _, s) => some s
  | 0, (some _, _, _) => none
  | fuel + 1, (some node, depth, s) => w.run fuel (w.step node depth s)

/-- The walk over what is below a node. -/
def walk (w : Walker α σ) (fuel : Nat) (top : Place α) (s : σ) : Option σ := w.run fuel (top.firstChild, 1, s)

/-! ## The recursion -/

mutual

def overTree (w : Walker α σ) (parent : Option α) (depth : Nat) : RoseTree α → σ → σ
  | .node label children, s =>
    let s := w.visit parent label depth s
    if w.enter label && !children.isEmpty then w.leave label (w.overForest (some label) (depth + 1) children s) else s

def overForest (w : Walker α σ) (parent : Option α) (depth : Nat) : List (RoseTree α) → σ → σ
  | [], s => s
  | t :: ts, s => w.overForest parent depth ts (w.overTree parent depth t s)

end

mutual

/-- The nodes that are visited. -/
def visited (w : Walker α σ) : RoseTree α → Nat
  | .node label children => 1 + if w.enter label then w.visitedForest children else 0

def visitedForest (w : Walker α σ) : List (RoseTree α) → Nat
  | [] => 0
  | t :: ts => w.visited t + w.visitedForest ts

end

end Walker

mutual

def size : RoseTree α → Nat
  | .node _ children => 1 + sizeForest children

def sizeForest : List (RoseTree α) → Nat
  | [] => 0
  | t :: ts => size t + sizeForest ts

end

namespace Walker

/-! ## The walk is the recursion -/

/-- What follows a node and all its later siblings. -/
def up (w : Walker α σ) (depth : Nat) (cur : Place α) (s : σ) : Option (Place α) × Nat × σ :=
  match depth, cur.parent with
  | d + 2, some parent => w.climb (d + 1) parent (w.leave parent.label s)
  | depth, _ => (none, depth, s)

theorem climb_of_next {w : Walker α σ} {depth : Nat} {cur next : Place α} (h : cur.nextSibling = some next) (s : σ) :
    w.climb depth cur s = (some next, depth, s) := by
  rw [climb.eq_def, h]

theorem climb_of_last {w : Walker α σ} {depth : Nat} {cur : Place α} (h : cur.nextSibling = none) (s : σ) :
    w.climb depth cur s = w.up depth cur s := by
  rw [climb.eq_def, h, up.eq_def]
  match depth with
  | 0 => rfl
  | 1 => rfl
  | d + 2 => cases cur.parent <;> rfl

theorem up_congr {w : Walker α σ} {depth : Nat} {cur cur' : Place α} (h : cur.parent = cur'.parent) (s : σ) :
    w.up depth cur s = w.up depth cur' s := by
  rw [up.eq_def, h]
  rfl

theorem run_succ (w : Walker α σ) (fuel : Nat) (node : Place α) (depth : Nat) (s : σ) :
    w.run (fuel + 1) (some node, depth, s) = w.run fuel (w.step node depth s) := rfl

theorem step_of_enter {w : Walker α σ} {node child : Place α} (h : node.firstChild = some child) (henter : w.enter node.label = true)
    (depth : Nat) (s : σ) :
    w.step node depth s = (some child, depth + 1, w.visit (node.parent.map (·.label)) node.label depth s) := by
  rw [step, h]
  dsimp only
  rw [if_pos henter]

theorem step_of_leaf {w : Walker α σ} {node : Place α} (h : (w.enter node.label && !node.children.isEmpty) = false) (depth : Nat)
    (s : σ) : w.step node depth s = w.climb depth node (w.visit (node.parent.map (·.label)) node.label depth s) := by
  rw [step]
  cases hchild : node.firstChild with
  | none => rfl
  | some child =>
    have hchildren : node.children.isEmpty = false := by
      cases hc : node.children with
      | nil =>
        rw [Place.firstChild, hc] at hchild
        cases hchild
      | cons t ts => rfl
    rw [hchildren, Bool.not_false, Bool.and_true] at h
    dsimp only
    rw [if_neg (by rw [h]; exact Bool.false_ne_true)]

mutual

/-- The walk from a node does what the recursion does to the tree, and then goes on after it. -/
theorem run_tree (w : Walker α σ) (fuel depth : Nat) (cur : Place α) (s : σ) :
    ∀ t : RoseTree α, cur.tree = t → 1 ≤ depth →
      w.run (w.visited t + fuel) (some cur, depth, s) =
        w.run fuel (w.climb depth cur (w.overTree (cur.parent.map (·.label)) depth t s))
  | .node label children, ht, hdepth => by
    obtain ⟨label', children', before, after, above⟩ := cur
    obtain ⟨rfl, rfl⟩ := RoseTree.node.inj ht.symm
    rw [overTree, visited]
    by_cases henter : (w.enter label && !children.isEmpty) = true
    · obtain ⟨hlabel, hne⟩ := Bool.and_eq_true_iff.mp henter
      obtain ⟨⟨l, cs⟩, rest, hcons⟩ := List.exists_cons_of_ne_nil (by simpa using hne : children ≠ [])
      have hchild : (⟨label, children, before, after, above⟩ : Place α).firstChild =
          some ⟨l, cs, [], rest, ⟨label, before, after⟩ :: above⟩ := by
        rw [hcons]
        rfl
      obtain ⟨d, rfl⟩ := Nat.exists_eq_add_of_le' hdepth
      rw [if_pos henter, if_pos hlabel, Nat.add_assoc, Nat.add_comm 1, run_succ, step_of_enter hchild hlabel,
        run_forest w fuel (d + 2) _ _ children (by rw [hcons]; rfl) (Nat.le_add_left _ _), up.eq_def,
        Place.parent_firstChild hchild]
      rfl
    · have hleaf : (w.enter label && !children.isEmpty) = false := Bool.not_eq_true _ ▸ henter
      have hcount : (if w.enter label = true then w.visitedForest children else 0) = 0 := by
        cases children with
        | nil =>
          rw [visitedForest]
          split <;> rfl
        | cons t ts => rw [if_neg (by simpa using hleaf)]
      rw [if_neg henter, hcount, Nat.add_zero, Nat.add_comm 1, run_succ, step_of_leaf hleaf]

/-- From a node on, the walk does what the recursion does to it and its later siblings, and then goes up. -/
theorem run_forest (w : Walker α σ) (fuel depth : Nat) (cur : Place α) (s : σ) :
    ∀ ts : List (RoseTree α), cur.tree :: cur.after = ts → 1 ≤ depth →
      w.run (w.visitedForest ts + fuel) (some cur, depth, s) =
        w.run fuel (w.up depth cur (w.overForest (cur.parent.map (·.label)) depth ts s))
  | [], h, _ => nomatch h
  | t :: ts, h, hdepth => by
    obtain ⟨ht, hts⟩ := List.cons.inj h
    rw [visitedForest, overForest, Nat.add_assoc, run_tree w _ depth cur s t ht hdepth]
    cases hnext : cur.nextSibling with
    | none =>
      have hnil : ts = [] := hts.symm.trans (Place.after_eq_nil hnext)
      rw [climb_of_last hnext, hnil, visitedForest, overForest, Nat.zero_add]
    | some next =>
      have hafter : next.tree :: next.after = ts := (Place.tree_nextSibling hnext).trans hts
      have hparent := Place.parent_nextSibling hnext
      rw [climb_of_next hnext, run_forest w fuel depth next _ ts hafter hdepth, up_congr hparent, hparent]

end

mutual

theorem visited_le_size (w : Walker α σ) : ∀ t : RoseTree α, w.visited t ≤ size t
  | .node label children => by
    have h := visitedForest_le_size w children
    rw [visited, size]
    split <;> omega

theorem visitedForest_le_size (w : Walker α σ) : ∀ ts : List (RoseTree α), w.visitedForest ts ≤ sizeForest ts
  | [] => Nat.le_refl 0
  | t :: ts => by
    have h := visited_le_size w t
    have h' := visitedForest_le_size w ts
    rw [visitedForest, sizeForest]
    omega

end

/-- With a step for each node the walk ends, and gives what the recursion over the children gives. -/
theorem walk_eq (w : Walker α σ) {fuel : Nat} {top : Place α} (h : sizeForest top.children ≤ fuel) (s : σ) :
    w.walk fuel top s = some (w.overForest (some top.label) 1 top.children s) := by
  obtain ⟨label, children, before, after, above⟩ := top
  cases children with
  | nil =>
    rw [walk, overForest]
    cases fuel <;> rfl
  | cons t ts =>
    obtain ⟨l, cs⟩ := t
    have hchild : (⟨label, .node l cs :: ts, before, after, above⟩ : Place α).firstChild =
        some ⟨l, cs, [], ts, ⟨label, before, after⟩ :: above⟩ := rfl
    obtain ⟨extra, rfl⟩ := Nat.exists_eq_add_of_le (Nat.le_trans (visitedForest_le_size w (.node l cs :: ts)) h)
    rw [walk, hchild, run_forest w extra 1 _ s (.node l cs :: ts) rfl (Nat.le_refl 1), Place.parent_firstChild hchild]
    cases extra <;> rfl

/-! ## Where the walk comes -/

/-- The nodes that the loop comes to, each with its depth. -/
inductive Reached (w : Walker α σ) (top : Place α) (s : σ) : Place α → Nat → σ → Prop where
  | first {child : Place α} (h : top.firstChild = some child) : Reached w top s child 1 s
  | next {node node' : Place α} {depth depth' : Nat} {t t' : σ} (h : Reached w top s node depth t)
      (hstep : w.step node depth t = (some node', depth', t')) : Reached w top s node' depth' t'

theorem ancestor_climb {w : Walker α σ} {top cur next : Place α} {depth depth' : Nat} {s s' : σ} (hdepth : 1 ≤ depth)
    (htop : cur.ancestor depth = some top) (h : w.climb depth cur s = (some next, depth', s')) :
    1 ≤ depth' ∧ next.ancestor depth' = some top := by
  induction depth generalizing cur s with
  | zero => omega
  | succ depth ih =>
    cases hnext : cur.nextSibling with
    | some sibling =>
      rw [climb_of_next hnext] at h
      cases h
      refine ⟨hdepth, ?_⟩
      rw [Place.ancestor, Place.parent_nextSibling hnext]
      exact htop
    | none =>
      rw [climb_of_last hnext, up.eq_def] at h
      cases depth with
      | zero => cases h
      | succ depth =>
        obtain ⟨parent, hparent, htop⟩ := Option.bind_eq_some_iff.mp htop
        rw [hparent] at h
        exact ih (Nat.le_add_left _ _) htop h

/-- Every node that the loop comes to is below the one that it began under, by its depth. -/
theorem ancestor_of_reached {w : Walker α σ} {top node : Place α} {depth : Nat} {s t : σ} (h : Reached w top s node depth t) :
    1 ≤ depth ∧ node.ancestor depth = some top := by
  induction h with
  | first h =>
    refine ⟨Nat.le_refl 1, ?_⟩
    rw [Place.ancestor, Place.parent_firstChild h]
    rfl
  | next h hstep ih =>
    rename_i node node' depth depth' t t'
    rw [step] at hstep
    split at hstep
    next child hchild =>
      split at hstep
      · cases hstep
        refine ⟨Nat.le_add_left _ _, ?_⟩
        rw [Place.ancestor, Place.parent_firstChild hchild]
        exact ih.2
      · exact ancestor_climb ih.1 ih.2 hstep
    · exact ancestor_climb ih.1 ih.2 hstep

end Walker

/-! ## All nodes -/

/-- A node by its parent, itself and its depth. -/
abbrev Level (α : Type) := Option α × α × Nat

mutual

def levels (parent : Option α) (depth : Nat) : RoseTree α → List (Level α)
  | .node label children => (parent, label, depth) :: levelsForest (some label) (depth + 1) children

/-- All nodes, in document order. -/
def levelsForest (parent : Option α) (depth : Nat) : List (RoseTree α) → List (Level α)
  | [] => []
  | t :: ts => levels parent depth t ++ levelsForest parent depth ts

end

mutual

/-- A recursion that enters every node and does nothing on the way up is a fold over all nodes. -/
theorem overTree_eq_foldl {w : Walker α σ} (henter : ∀ a, w.enter a = true) (hleave : ∀ a s, w.leave a s = s)
    (parent : Option α) (depth : Nat) (s : σ) : ∀ t : RoseTree α,
    w.overTree parent depth t s = (levels parent depth t).foldl (fun s level => w.visit level.1 level.2.1 level.2.2 s) s
  | .node label children => by
    rw [Walker.overTree, levels, List.foldl_cons, ← overForest_eq_foldl henter hleave (some label) (depth + 1) _ children, hleave, henter]
    cases children with
    | nil => rfl
    | cons t ts => rfl

theorem overForest_eq_foldl {w : Walker α σ} (henter : ∀ a, w.enter a = true) (hleave : ∀ a s, w.leave a s = s)
    (parent : Option α) (depth : Nat) (s : σ) : ∀ ts : List (RoseTree α),
    w.overForest parent depth ts s =
      (levelsForest parent depth ts).foldl (fun s level => w.visit level.1 level.2.1 level.2.2 s) s
  | [] => rfl
  | t :: ts => by
    rw [Walker.overForest, levelsForest, List.foldl_append, overTree_eq_foldl henter hleave parent depth s t,
      overForest_eq_foldl henter hleave parent depth _ ts]

end

mutual

/-- The nodes that have children. -/
def inner : RoseTree α → Nat
  | .node _ children => (if children.isEmpty then 0 else 1) + innerForest children

def innerForest : List (RoseTree α) → Nat
  | [] => 0
  | t :: ts => inner t + innerForest ts

end

mutual

/-- A node is no deeper than there are nodes with children. -/
theorem depth_le_inner {parent : Option α} {depth : Nat} {level : Level α} : ∀ {t : RoseTree α}, level ∈ levels parent depth t →
    level.2.2 ≤ depth + inner t
  | .node label children, h => by
    rw [levels] at h
    rw [inner]
    rcases List.mem_cons.mp h with rfl | h
    · exact Nat.le_add_right _ _
    · have hchild := depth_le_innerForest h
      have hne : children.isEmpty = false := by
        cases children with
        | nil =>
          rw [levelsForest] at h
          cases h
        | cons t ts => rfl
      rw [hne]
      simp only [Bool.false_eq_true, if_false]
      omega

theorem depth_le_innerForest {parent : Option α} {depth : Nat} {level : Level α} : ∀ {ts : List (RoseTree α)},
    level ∈ levelsForest parent depth ts → level.2.2 ≤ depth + innerForest ts
  | t :: ts, h => by
    rw [levelsForest] at h
    rw [innerForest]
    rcases List.mem_append.mp h with h | h
    · have := depth_le_inner h
      omega
    · have := depth_le_innerForest h
      omega

end
end TreeWalk
