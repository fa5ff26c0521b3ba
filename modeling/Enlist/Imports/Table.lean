import Enlist.Syntax.Tree
import Enlist.Syntax.Value
import Enlist.Syntax.Walk

/-!
# Import statements

An `ImportTable` holds what the import statements at the top level of a text bind, in the order of the
text, and where a directive `'use strict'` ends that opens the text.

A binding is known by its local name and by the module that it comes from. Statements that bind types
only bind no value.
-/

namespace Enlist.Imports

open Syntax

/-- One name that an import statement binds. -/
structure Binding where
  /-- The name under which the module exports it. -/
  imported : String
  /-- The name under which it is known in this text. -/
  name : String
  /-- The bytes that bind it. -/
  span : Span
  deriving DecidableEq, Repr

/-- One import statement that names a module. -/
structure ImportDecl where
  module : String
  /-- The bytes of the module's name, quotes included. -/
  moduleSpan : Span
  /-- The binding without braces. -/
  defaultBinding : Option Binding
  named : List Binding
  /-- The bytes of the braces and of what stands in them. -/
  braces : Option Span
  wholeName : Option String
  /-- The statement binds types only. -/
  typeOnly : Bool
  /-- The bytes of the statement. -/
  span : Span
  deriving DecidableEq, Repr

namespace ImportDecl

/-- The bindings of a statement, the one without braces first. -/
def bindings (d : ImportDecl) : List Binding :=
  d.defaultBinding.toList ++ d.named

def binds (d : ImportDecl) (name : String) : Bool :=
  !d.typeOnly && d.bindings.any fun b => b.name == name

/-- The binding of a name in braces. -/
def specifier? (text : List Char) (n : Node) : Option Binding :=
  (n.child? .name).map fun name =>
    let imported := if name.kind = .string then name.stringValue text else name.source text
    let renamed := (n.child? .alias).map (Node.source text)
    { imported, name := renamed.getD imported, span := n.span }

def part? (clauses : List Node) (k : Kind) : Option Node :=
  clauses.findSome? fun c => c.namedChildren.find? fun p => p.kind == k

/-- Reads an import statement, unless it names no module. -/
def ofNode? (text : List Char) (n : Node) : Option ImportDecl :=
  (n.child? .source).map fun source =>
    let clauses := n.children.filter fun c => c.kind == .importClause
    let braces := part? clauses .namedImports
    { module := source.stringValue text
      moduleSpan := source.span
      defaultBinding := (part? clauses .identifier).map fun name =>
        { imported := "default", name := name.source text, span := name.span }
      named := (braces.toList.flatMap Node.namedChildren).filterMap fun s =>
        if s.kind = .importSpecifier then specifier? text s else none
      braces := braces.map Node.span
      wholeName := (part? clauses .namespaceImport).bind fun w =>
        w.namedChildren.getLast?.map (Node.source text)
      typeOnly := (n.child? .typeOnly).isSome
      span := n.span }

end ImportDecl

structure ImportTable where
  /-- In the order of the text. -/
  decls : List ImportDecl
  /-- The byte at which a directive `'use strict'` ends that the text opens with. -/
  useStrictEnd : Option Nat
  deriving DecidableEq, Repr

/-- An import that is asked for. -/
structure ImportRequest where
  symbol : String
  module : String
  /-- Bind the default export, without braces. -/
  isDefault : Bool
  deriving DecidableEq, Repr

namespace ImportTable

/-- Gathers the statements among the children of the whole text, the latest first. -/
def collect (text : List Char) : Visitor (List ImportDecl) := fun decls n =>
  match n.kind.role with
  | .program => (decls, .descend)
  | .importStatement => ((ImportDecl.ofNode? text n).toList ++ decls, .skip)
  | _ => (decls, .skip)

/-- The end of the directive that the text opens with, if that is `'use strict'`. -/
def useStrictEnd? (text : List Char) (root : Node) : Option Nat := do
  let first ← root.namedChildren.head?
  let literal ← if first.kind = .expressionStatement then first.namedChildren.head? else none
  if literal.kind = .string ∧ literal.stringValue text = "use strict" then
    some literal.span.stop
  else none

def ofTree (text : List Char) (root : Node) : ImportTable :=
  { decls := (walk (collect text) root []).reverse
    useStrictEnd := useStrictEnd? text root }

/-- All values that are bound, each as the request that it would satisfy. -/
def entries (t : ImportTable) : List ImportRequest :=
  (t.decls.filter fun d => !d.typeOnly).flatMap fun d =>
    (d.defaultBinding.toList.map fun b => ⟨b.name, d.module, true⟩) ++
      d.named.map fun b => ⟨b.name, d.module, false⟩

/-- A value of the module is bound under the name. -/
def isImported (t : ImportTable) (name module : String) : Bool :=
  t.decls.any fun d => d.module == module && d.binds name

def localNames (t : ImportTable) (imported module : String) : List String :=
  (t.decls.filter fun d => d.module == module && !d.typeOnly).flatMap fun d =>
    (d.named.filter fun b => b.imported == imported).map Binding.name

/-- The module that a name comes from. -/
def moduleOf? (t : ImportTable) (name : String) : Option String :=
  (t.decls.find? fun d => d.binds name).map ImportDecl.module

end ImportTable

end Enlist.Imports
