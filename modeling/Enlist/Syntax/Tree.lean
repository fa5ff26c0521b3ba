import Enlist.Syntax.TypeScript.Grammar

/-!
# Syntax trees of texts

`SyntaxTree.ofText` reads a whole text. A text that the grammar does not accept has a tree too: it is
marked, and a parser that goes on behind errors makes up its nodes. The grammar says nothing of such a
tree, so what a parser does there is a parameter, the `Recovery`: all that is known of it is that its
nodes stand in the text.

* `statements?_of_hasErrors`   a tree that is not marked is the one of the grammar
* `root_of_hasErrors`   a tree that is marked is one that was recovered
-/

namespace Enlist.Syntax

/-- What a parser makes of a text that the grammar does not accept: the node of the whole text. -/
class Recovery where
  recover : List Char → Node
  /-- Its nodes are ranges of the text in order. A closing bracket, say, may be missing. -/
  inText : ∀ text, (recover text).InText text

/-- Gives such a text up: its tree has no parts. -/
instance Recovery.givesUp : Recovery where
  recover _ := .mk .program none ⟨0, 0⟩ []
  inText text := .mk (Text.isBoundary_zero text) (Text.isBoundary_zero text) (Nat.le_refl 0)
    (fun _ h => absurd h List.not_mem_nil)

structure SyntaxTree where
  /-- The node of the whole text. -/
  root : Node
  /-- The text is not one that the grammar accepts, and the tree is one that was recovered. -/
  hasErrors : Bool

namespace SyntaxTree

/-- The nodes of the statements of a text, in order, if the grammar accepts it. -/
def statements? (text : List Char) : Option (List Node) := do
  let (f, c) ← Cursor.ofText text
  -- Between two tokens no more rules are opened than the grammar has levels.
  let limit := text.length + 1
  let (f', _) ← Grammar.read TypeScript.grammar limit (40 * (limit + 1)) .program f c
  return f'.reverse

/-- The tree with the given statements: it begins with the first of them and ends with the text. -/
def ofStatements (stop : Nat) (ns : List Node) : Node :=
  let start := match ns with
    | n :: _ => n.span.start
    | [] => stop
  .mk .program none ⟨start, stop⟩ ns

/-- Reads a text. -/
def ofText [Recovery] (text : List Char) : SyntaxTree :=
  match statements? text with
  | some ns => ⟨ofStatements (Text.utf8Length text) ns, false⟩
  | none => ⟨Recovery.recover text, true⟩

/-- A tree that is not marked is made of the statements that the grammar reads. -/
theorem statements?_of_hasErrors [Recovery] {text : List Char} (h : (ofText text).hasErrors = false) :
    ∃ ns, statements? text = some ns ∧
      ofText text = ⟨ofStatements (Text.utf8Length text) ns, false⟩ := by
  cases hread : statements? text with
  | some ns => exact ⟨ns, rfl, by rw [ofText, hread]⟩
  | none =>
    rw [ofText, hread] at h
    cases h

/-- A tree that is marked is the one that was recovered. -/
theorem root_of_hasErrors [Recovery] {text : List Char} (h : (ofText text).hasErrors = true) :
    (ofText text).root = Recovery.recover text := by
  cases hread : statements? text with
  | some ns =>
    rw [ofText, hread] at h
    cases h
  | none => rw [ofText, hread]

end SyntaxTree

end Enlist.Syntax
