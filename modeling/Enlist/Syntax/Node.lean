import Enlist.Syntax.Kind
import Enlist.Text.Utf8

/-!
# Syntax nodes

A syntax tree keeps every token and comment of its text as a leaf. A `Node` has a kind, possibly a
label that says what it is to its parent, the byte range it covers, and its children in the order
of the text. `InText` says of a tree what holds of any that was read from a text, whatever its kinds.

* `size_eq` / `sizeAll_append`   the number of nodes of a tree, from its parts
-/

namespace Enlist.Syntax

/-- A range of bytes of a text, `stop` excluded. -/
structure Span where
  start : Nat
  stop : Nat
  deriving DecidableEq, Repr

inductive Node where
  | mk (kind : Kind) (label : Option Label) (span : Span) (children : List Node)

namespace Node

def kind : Node → Kind
  | mk k _ _ _ => k

def label : Node → Option Label
  | mk _ l _ _ => l

def span : Node → Span
  | mk _ _ s _ => s

/-- All children, punctuation and comments included. -/
def children : Node → List Node
  | mk _ _ _ cs => cs

/-- The children that have a name of their own, comments excluded. -/
def namedChildren (n : Node) : List Node :=
  n.children.filter fun c => c.kind.isNamed && !c.kind.isExtra

def child? (n : Node) (l : Label) : Option Node :=
  n.children.find? fun c => c.label == some l

/-- The child with a label, if it is of the given kind. -/
def childOfKind? (n : Node) (l : Label) (k : Kind) : Option Node :=
  (n.child? l).filter fun c => c.kind == k

def labelled (l : Label) : Node → Node
  | mk k l' s cs => if k.isExtra then mk k l' s cs else mk k (some l) s cs

/-- The characters of the text that the node covers. -/
def textIn (text : List Char) (n : Node) : List Char :=
  Text.slice text n.span.start n.span.stop

mutual

def size : Node → Nat
  | mk _ _ _ cs => 1 + sizeAll cs

/-- The number of nodes of a list of trees. -/
def sizeAll : List Node → Nat
  | [] => 0
  | n :: ns => size n + sizeAll ns

end

/-- A node counts for one, and with all that is below it. -/
theorem size_eq (n : Node) : n.size = 1 + sizeAll n.children := by
  cases n
  rw [size, children]

theorem sizeAll_append (ms ns : List Node) : sizeAll (ms ++ ns) = sizeAll ms + sizeAll ns := by
  induction ms with
  | nil => simp [sizeAll]
  | cons m ms ih => rw [List.cons_append, sizeAll, ih, sizeAll, Nat.add_assoc]

end Node

/-! ## Where nodes stand -/

/-- The nodes stand one behind the other in the bytes from `lo` to `hi`. -/
def InRow (lo : Nat) : List Node → Nat → Prop
  | [], hi => lo ≤ hi
  | n :: ns, hi => lo ≤ n.span.start ∧ n.span.start ≤ n.span.stop ∧ InRow n.span.stop ns hi

/-- The node covers a range of whole characters, its children stand in it one behind the other, and so
do theirs. -/
inductive Node.InText (text : List Char) : Node → Prop
  | mk {k : Kind} {l : Option Label} {s : Span} {cs : List Node}
      (start : Text.isBoundary text s.start = true) (stop : Text.isBoundary text s.stop = true)
      (row : InRow s.start cs s.stop)
      (children : ∀ n ∈ cs, Node.InText text n) : Node.InText text (.mk k l s cs)

end Enlist.Syntax
