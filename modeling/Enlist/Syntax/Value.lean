import Enlist.Syntax.Node

/-!
# Texts of nodes

The source text of a node, and the value of a string literal.
-/

namespace Enlist.Syntax.Node

def source (text : List Char) (n : Node) : String :=
  String.ofList (n.textIn text)

/-- The characters between the quotes of a literal, escapes as they are written. What stands in no
quotes is its own value. -/
def unquote (cs : List Char) : List Char :=
  match cs with
  | q :: rest =>
    if (q == '\'' || q == '"' || q == '\x60') && !rest.isEmpty && rest.getLast? == some q then
      rest.dropLast
    else cs
  | [] => []

def stringValue (text : List Char) (n : Node) : String :=
  String.ofList (unquote (n.textIn text))

end Enlist.Syntax.Node
