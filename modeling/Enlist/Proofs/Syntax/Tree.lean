import Enlist.Proofs.Syntax.Reading
import Enlist.Proofs.Syntax.Walk
import Enlist.Syntax.Tree

/-!
# The nodes of a text

The tree of every text without errors is laid out, and so is each of its nodes, however it is found.

## Key results

- `placed_root`: the tree of a text without errors is laid out
- `exists_of_findFirst`: what a walk finds is found in a node of the tree
-/

namespace Enlist.Syntax

open Text

/-! ## The grammar -/

/-- The rules only add nodes to a frame. -/
theorem TypeScript.grammar_keeps (r : TypeScript.Rule) : (TypeScript.grammar r).keeps = true := by
  cases r with
  | binary level =>
    simp only [TypeScript.grammar, TypeScript.binary]
    split <;> rfl
  -- All rules but the levels of operators are closed terms
  | _ => decide +kernel

/-- Operators have no brackets. -/
private theorem wellBracketed_binaryOperator (level : Nat) :
    (TypeScript.binaryOperator level).wellBracketed = true := by
  unfold TypeScript.binaryOperator
  split <;> rfl

/-- Arrays, objects and lists of imported names have their brackets. -/
theorem TypeScript.grammar_wellBracketed (r : TypeScript.Rule) :
    (TypeScript.grammar r).wellBracketed = true := by
  cases r with
  | binary level =>
    simp only [TypeScript.grammar, TypeScript.binary]
    split
    · show (true && (true && ((TypeScript.binaryOperator level).wellBracketed && true))) = true
      rw [wellBracketed_binaryOperator]
      rfl
    · rfl
  | _ => decide +kernel

/-! ## The tree of a text -/

/-- The start of a text is in the text, and the comments in front of its first token are laid out. -/
theorem ofText_placed {text : List Char} {f : Frame} {c : Cursor}
    (h : Cursor.ofText text = some (f, c)) : c.In text ∧ Frame.Placed text 0 f c.offset := by
  have hat : (Cursor.mk text 0 false).In text := ⟨[], rfl, rfl⟩
  obtain ⟨hin, gap, rfl, _, hgap⟩ := skipGap_placed h hat hat.boundary (Nat.le_refl 0)
  rw [List.append_nil]
  exact ⟨hin, hgap⟩

/-- The statements of a text are laid out in it, one behind the other. -/
theorem statements_placed {text : List Char} {ns : List Node}
    (h : SyntaxTree.statements? text = some ns) :
    InRow 0 ns (utf8Length text) ∧ ∀ n ∈ ns, n.Placed text := by
  simp only [SyntaxTree.statements?, Option.bind_eq_bind, Option.bind_eq_some_iff,
    Option.pure_def, Option.some.injEq, Prod.exists] at h
  obtain ⟨f, c, hstart, f', c', hread, rfl⟩ := h
  obtain ⟨hin, hf⟩ := ofText_placed hstart
  have hd := derives_of_grammarRead hread
  have hf' := hd.placed TypeScript.grammar_keeps TypeScript.grammar_wellBracketed hin rfl hf
  have hend := le_of_isBoundary (hd.moves hin).boundary
  refine ⟨?_, fun n hn => hf'.nodes n (List.mem_reverse.1 hn)⟩
  have hrow := inRow_append.2 ⟨_, hf'.row, (show InRow _ [] _ from hend)⟩
  rwa [List.append_nil] at hrow

/-- A tree is laid out if its statements are. -/
private theorem placed_ofStatements {text : List Char} {ns : List Node}
    (hrow : InRow 0 ns (utf8Length text)) (hns : ∀ n ∈ ns, n.Placed text) :
    (SyntaxTree.ofStatements (utf8Length text) ns).Placed text := by
  cases ns with
  | nil =>
    exact .mk (isBoundary_utf8Length text) (isBoundary_utf8Length text) (Nat.le_refl _)
      (fun _ _ h => nomatch h) hns
  | cons n ns =>
    refine .mk (hns n List.mem_cons_self).start_boundary (isBoundary_utf8Length text) ?_
      (fun _ _ h => nomatch h) hns
    exact ⟨Nat.le_refl _, hrow.2⟩

section

variable [Recovery] {text : List Char}

/-- The node of a whole text without errors is a program. -/
theorem kind_root (h : (SyntaxTree.ofText text).hasErrors = false) :
    (SyntaxTree.ofText text).root.kind = .program := by
  obtain ⟨ns, _, htree⟩ := SyntaxTree.statements?_of_hasErrors h
  rw [htree]
  rfl

/-- The tree of a text without errors is laid out. -/
theorem placed_root (h : (SyntaxTree.ofText text).hasErrors = false) :
    (SyntaxTree.ofText text).root.Placed text := by
  obtain ⟨ns, hread, htree⟩ := SyntaxTree.statements?_of_hasErrors h
  rw [htree]
  obtain ⟨hrow, hns⟩ := statements_placed hread
  exact placed_ofStatements hrow hns

end

/-! ## Nodes that are found -/

/-- What a walk finds, it finds in a node of the tree: in one that has every property that a node
hands down to its children, if the tree has it. -/
theorem exists_of_findFirst {P : Node → Prop} (hchild : ∀ n, P n → ∀ c ∈ n.children, P c) {α : Type}
    {find : Node → Option α} {inside : Node → Bool} {root : Node} {a : α} (hroot : P root)
    (h : findFirst find inside root = some a) : ∃ n, P n ∧ find n = some a := by
  rw [findFirst_eq_findSome?] at h
  obtain ⟨n, hn, hfind⟩ := List.exists_of_findSome?_eq_some h
  exact ⟨n, Node.inherited_of_mem_nodes hchild hroot (Node.mem_nodes_of_mem_reached hn), hfind⟩

namespace Node

/-- A child that is found by its label is a child. -/
theorem mem_children_of_child? {n m : Node} {l : Label} (h : n.child? l = some m) :
    m ∈ n.children :=
  List.mem_of_find?_eq_some h

/-- A named child is a child. -/
theorem mem_children_of_namedChildren {n m : Node} (h : m ∈ n.namedChildren) : m ∈ n.children :=
  (List.mem_filter.1 h).1

end Node

end Enlist.Syntax
