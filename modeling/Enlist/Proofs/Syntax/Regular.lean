import Enlist.Proofs.Syntax.Children
import Enlist.Proofs.Syntax.Tree
import Enlist.Snapshot

/-!
# Regular trees

The tree of a text without errors is one of the grammar: its nodes are laid out, its root is a program,
and its import statements have at most one of each of their parts. A tree that is recovered from a text
with errors may be of this kind too, and need not be: a closing bracket may be missing. What is said of
places in a text is said of regular trees, and so of every text without errors.

## Key results

- `TypeScript.grammar_obeys`: what stands at most once in an import statement
- `Snapshot.isRegular`: the tree of a text without errors is regular
- `Snapshot.inText`: the tree of any text stands in it
-/

namespace Enlist

namespace Syntax

/-! ## Import statements -/

/-- What stands at most once in an import statement. The whole text is no part of another one. -/
def importShape : Shape where
  kinds k := k != .program
  comments := rfl
  limits
    | .importStatement => [(.ofLabel .source, 1), (.ofKind .importClause, 1)]
    | .importClause => [(.ofKind .identifier, 1), (.ofKind .namedImports, 1)]
    | .importSpecifier => [(.ofLabel .name, 1), (.ofLabel .alias, 1)]
    | _ => []

/-- Operators have no parts that are counted. -/
private theorem obeys_binaryOperator (level : Nat) :
    (TypeScript.binaryOperator level).obeys importShape = true := by
  unfold TypeScript.binaryOperator
  split <;> rfl

/-- All rules of the grammar obey the shape of import statements. -/
theorem TypeScript.grammar_obeys (r : TypeScript.Rule) :
    (TypeScript.grammar r).obeys importShape = true := by
  cases r with
  | binary level =>
    simp only [TypeScript.grammar, TypeScript.binary]
    split
    · show (true && (((TypeScript.binaryOperator level).obeys importShape && true) && true && true)) = true
      rw [obeys_binaryOperator]
      rfl
    · rfl
  | _ => decide +kernel

/-! ## Whole texts -/

/-- Every node of a tree stands in the text, also where the tree is recovered. -/
theorem inText_root [Recovery] (text : List Char) : (SyntaxTree.ofText text).root.InText text := by
  cases h : (SyntaxTree.ofText text).hasErrors with
  | false => exact (placed_root h).inText
  | true =>
    rw [SyntaxTree.root_of_hasErrors h]
    exact Recovery.inText text

/-- The node is one of a whole text: no other whole text is among its parts. -/
structure Node.IsWhole (n : Node) : Prop where
  kind : n.kind = .program
  parts : ∀ c ∈ n.children, c.kind ≠ .program

/-- The node is one of a whole text that the grammar reads: its parts are laid out in the text, and they
have at most once what stands at most once in an import statement. -/
structure Node.IsRegular (text : List Char) (n : Node) : Prop where
  kind : n.kind = .program
  placed : n.Placed text
  shaped : ∀ c ∈ n.children, c.Obeys importShape

/-- A regular node is one of a whole text. -/
theorem Node.IsRegular.isWhole {text : List Char} {n : Node} (h : n.IsRegular text) : n.IsWhole where
  kind := h.kind
  parts c hc hprogram := by
    have hobeys := (h.shaped c hc).kind
    rw [hprogram] at hobeys
    exact absurd hobeys (by decide)

/-- The tree of a text without errors is regular. -/
theorem isRegular_root [Recovery] {text : List Char} (h : (SyntaxTree.ofText text).hasErrors = false) :
    (SyntaxTree.ofText text).root.IsRegular text where
  kind := kind_root h
  placed := placed_root h
  shaped := obeys_root TypeScript.grammar_obeys h

end Syntax

namespace Snapshot

/-- The tree of the snapshot is regular. -/
def IsRegular (s : Snapshot) : Prop :=
  s.root.IsRegular s.chars

/-- The tree of a snapshot stands in its text. -/
theorem inText (s : Snapshot) : s.root.InText s.chars := by
  obtain ⟨_, htree⟩ := s.tree_eq
  rw [root, htree]
  exact Syntax.inText_root s.chars

/-- A snapshot of a text without syntax errors is regular, whatever is recovered from other texts. -/
theorem isRegular {s : Snapshot} (h : s.hasSyntaxErrors = false) : s.IsRegular := by
  obtain ⟨_, htree⟩ := s.tree_eq
  rw [hasSyntaxErrors, htree] at h
  have hroot := Syntax.isRegular_root h
  rw [← htree] at hroot
  exact hroot

/-- The tree of a text without syntax errors is laid out. -/
theorem placed_root {s : Snapshot} (h : s.hasSyntaxErrors = false) : s.root.Placed s.chars :=
  (isRegular h).placed

end Snapshot

end Enlist
