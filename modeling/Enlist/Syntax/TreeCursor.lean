import Enlist.Syntax.Node

/-!
# Places in a syntax tree

A `TreeCursor` is at one node of a tree. It moves to the first child of the node, to its next sibling or to
its parent. The cursor knows of no node above the one that it was made for, and of none beside that.

* `pending_firstChild?` / `pending_onward?`   what is ahead of a cursor that moves on
-/

namespace Enlist.Syntax

/-- A node above the place of a cursor. -/
structure Level where
  parent : Node
  /-- The children of `parent` behind the one that the place is in. -/
  behind : List Node

structure TreeCursor where
  /-- The node that the cursor is at. -/
  node : Node
  /-- The nodes above it, the nearest first. -/
  above : List Level

namespace TreeCursor

/-- The cursor at `root` that stays in the tree below it. -/
def ofRoot (root : Node) : TreeCursor :=
  { node := root, above := [] }

def firstChild? (c : TreeCursor) : Option TreeCursor :=
  match c.node.children with
  | [] => none
  | n :: ns => some ⟨n, ⟨c.node, ns⟩ :: c.above⟩

def nextSibling? (c : TreeCursor) : Option TreeCursor :=
  match c.above with
  | ⟨parent, n :: ns⟩ :: above => some ⟨n, ⟨parent, ns⟩ :: above⟩
  | ⟨_, []⟩ :: _ | [] => none

def parent? (c : TreeCursor) : Option TreeCursor :=
  match c.above with
  | ⟨parent, _⟩ :: above => some ⟨parent, above⟩
  | [] => none

/-- A cursor that moves to its parent leaves the place of that one on the way. -/
theorem exists_above_of_parent? {c p : TreeCursor} (h : c.parent? = some p) :
    ∃ behind, c.above = ⟨p.node, behind⟩ :: p.above := by
  rw [parent?] at h
  split at h
  case h_1 parent behind above habove =>
    cases h
    exact ⟨behind, habove⟩
  case h_2 => cases h

/-- The next node that is not below the one the cursor is at: its sibling, or else that of the nearest node
above it which has one. -/
def onward? (c : TreeCursor) : Option TreeCursor :=
  match c.nextSibling? with
  | some next => some next
  | none =>
    match _h : c.parent? with
    | some p => p.onward?
    | none => none
termination_by c.above.length
decreasing_by
  obtain ⟨behind, habove⟩ := exists_above_of_parent? _h
  rw [habove]
  exact Nat.lt_succ_self _

/-- The nodes beside the way to the place that come behind it, in the order of the text. -/
def behind (c : TreeCursor) : List Node :=
  c.above.flatMap Level.behind

/-- The trees that are ahead, beginning with the one the cursor is at. -/
def pending (c : TreeCursor) : List Node :=
  c.node :: c.behind

/-- A cursor that moves down has the children to come, in front of what came behind the node. -/
theorem pending_firstChild? (c : TreeCursor) :
    c.firstChild?.elim c.behind pending = c.node.children ++ c.behind := by
  rw [firstChild?]
  split
  case h_1 hchildren => rw [hchildren]; rfl
  case h_2 n ns hchildren => rw [hchildren]; rfl

/-- A cursor that moves to a sibling has what came behind its node to come, and one that moves up loses
nothing. -/
theorem pending_nextSibling? (c : TreeCursor) :
    (∀ next, c.nextSibling? = some next → next.pending = c.behind) ∧
      ∀ p, c.nextSibling? = none → c.parent? = some p → p.behind = c.behind := by
  obtain ⟨n, above⟩ := c
  match above with
  | [] => simp [nextSibling?, parent?]
  | ⟨parent, []⟩ :: above => simp [nextSibling?, parent?, behind]
  | ⟨parent, n :: ns⟩ :: above => simp [nextSibling?, pending, behind]

/-- A cursor that moves on without moving down has what came behind its node to come. -/
theorem pending_onward? (c : TreeCursor) : c.onward?.elim [] pending = c.behind := by
  fun_induction onward? c with
  | case1 c next hnext => exact (pending_nextSibling? c).1 next hnext
  | case2 c hnone p hparent ih => exact ih.trans ((pending_nextSibling? c).2 p hnone hparent)
  | case3 c hnone hparent =>
    obtain ⟨n, above⟩ := c
    match above with
    | [] => rfl
    | ⟨parent, behind⟩ :: above => exact nomatch hparent

end TreeCursor

end Enlist.Syntax
