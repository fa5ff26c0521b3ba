import Enlist.Syntax.TreeCursor

/-!
# Walking a syntax tree

A visitor sees the nodes of a tree in the order of the text, parents before their children, and says
after each node how to go on: into its children, past them, or not at all. `walk` moves one cursor over
the tree, until the visitor stops it or there is nothing left behind the place of the cursor.

* `pending_next?` / `sizeAll_left`   what is ahead of a cursor that goes on, and that it gets less
-/

namespace Enlist.Syntax

/-- How a walk goes on behind a node. -/
inductive Step where
  /-- Into the children of the node. -/
  | descend
  /-- Past the children of the node. -/
  | skip
  | stop
  deriving DecidableEq, Repr

/-- What a visitor does with one node, given what it has gathered so far. -/
abbrev Visitor (σ : Type) := σ → Node → σ × Step

/-- Where a walk goes on behind the node that a cursor is at. A node without children is passed over, also
where the visitor descends. -/
def TreeCursor.next? (c : TreeCursor) : Step → Option TreeCursor
  | .descend =>
    match c.firstChild? with
    | some first => some first
    | none => c.onward?
  | .skip => c.onward?
  | .stop => none

/-- The trees that are ahead of a cursor when the visitor has answered for its node. -/
def TreeCursor.left (c : TreeCursor) : Step → List Node
  | .descend => c.node.children ++ c.behind
  | .skip => c.behind
  | .stop => []

/-- After a step a walk has to see what the visitor has left of the tree. -/
theorem TreeCursor.pending_next? (c : TreeCursor) (step : Step) :
    (c.next? step).elim [] pending = c.left step := by
  cases step with
  | descend =>
    have hfirst := c.pending_firstChild?
    rw [next?, left, ← hfirst]
    cases c.firstChild? with
    | some first => rfl
    | none => exact c.pending_onward?
  | skip => exact c.pending_onward?
  | stop => rfl

/-- Fewer nodes are ahead with each node that is seen. -/
theorem TreeCursor.sizeAll_left (c : TreeCursor) (step : Step) :
    Node.sizeAll (c.left step) < Node.sizeAll c.pending := by
  rw [pending, Node.sizeAll, Node.size_eq]
  -- Whatever the step is, the node itself is done with
  cases step with
  | descend =>
    rw [left, Node.sizeAll_append]
    omega
  | skip =>
    rw [left]
    omega
  | stop =>
    rw [left, Node.sizeAll]
    omega

/-- Walks on from the place of a cursor. -/
def walkFrom {σ : Type} (visit : Visitor σ) (c : TreeCursor) (s : σ) : σ :=
  match visit s c.node with
  | (s', step) =>
    match _h : c.next? step with
    | some next => walkFrom visit next s'
    | none => s'
termination_by Node.sizeAll c.pending
decreasing_by
  have hnext : next.pending = c.left step := by
    rw [← c.pending_next? step, _h]
    rfl
  rw [hnext]
  exact c.sizeAll_left step

/-- A walk shows a node to the visitor, and goes on from where the answer leads. -/
theorem walkFrom_step {σ : Type} (visit : Visitor σ) (c : TreeCursor) (s : σ) :
    walkFrom visit c s =
      match c.next? (visit s c.node).2 with
      | some next => walkFrom visit next (visit s c.node).1
      | none => (visit s c.node).1 := by
  rw [walkFrom]
  obtain ⟨s', step⟩ := visit s c.node
  dsimp only
  split
  case h_1 next hnext => rw [hnext]
  case h_2 hnone => rw [hnone]

/-- Walks the tree below `root`, itself included. -/
def walk {σ : Type} (visit : Visitor σ) (root : Node) (s : σ) : σ :=
  walkFrom visit (.ofRoot root) s

/-- The first node that `find` gives a value, among the nodes that a walk reaches; it looks below a
node without a value where `inside` allows it. -/
def findFirst {α : Type} (find : Node → Option α) (inside : Node → Bool) (root : Node) : Option α :=
  walk (fun _ n =>
    match find n with
    | some a => (some a, .stop)
    | none => (none, if inside n then .descend else .skip)) root none

end Enlist.Syntax
