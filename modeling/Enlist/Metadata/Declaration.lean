import Enlist.Metadata.Error
import Enlist.Snapshot

/-!
# The target declaration

Registrations go to one declaration of a file: the first in the order of the text that carries the
selected decorator, called. Decorators inside the arguments of other decorators are not looked at. The
argument of the call, an object literal, is the metadata of the declaration.
-/

namespace Enlist.Metadata

open Syntax

/-- The module that the decorator comes from unless another one is selected. -/
def angularCore : String := "@angular/core"

/-- Which declaration is the target. -/
structure Selector where
  decorator : String
  /-- The module that the decorator comes from; other names under which it is imported from there
  select the declaration as well. -/
  module : Option String
  deriving DecidableEq, Repr

namespace Selector

/-- The first declaration that has the decorator by name. -/
def named (decorator : String) : Selector :=
  { decorator, module := none }

/-- The first declaration that has the decorator by name or by another name imported from the
module. -/
def fromModule (decorator module : String) : Selector :=
  { decorator, module := some module }

def ngModule : Selector :=
  fromModule "NgModule" angularCore

instance : Inhabited Selector := ⟨ngModule⟩

/-- The names that select a declaration in a snapshot. -/
def names (sel : Selector) (s : Snapshot) : List String :=
  sel.decorator :: match sel.module with
    | some module => s.imports.localNames sel.decorator module
    | none => []

end Selector

/-- The target declaration in a syntax tree. -/
structure Declaration where
  decorator : Node
  /-- The object literal that the decorator is given. -/
  metadata : Node

structure DeclarationInfo where
  /-- The name of what is decorated, if it has one. -/
  className : Option String
  decoratorSpan : Span
  metadataSpan : Span
  deriving DecidableEq, Repr

/-- The call in a decorator that calls one of some names. -/
def selectedCall? (text : List Char) (names : List String) (decorator : Node) : Option Node := do
  let call ← decorator.namedChildren.find? fun c => c.kind == .callExpression
  let callee ← call.child? .function
  if names.contains (callee.source text) then some call else none

/-- The first decorator of a tree that calls one of some names, and its call. -/
def findDecorator (text : List Char) (names : List String) (root : Node) : Option (Node × Node) :=
  findFirst
    (fun n =>
      if n.kind = .decorator then (selectedCall? text names n).map fun call => (n, call) else none)
    (fun n => n.kind != .decorator) root

def firstArgument? (call : Node) : Option Node :=
  (call.child? .arguments).bind fun args => args.namedChildren.head?

def locateDeclaration (s : Snapshot) (sel : Selector) : Except ResolveError Declaration :=
  match findDecorator s.chars (sel.names s) s.root with
  | none => .error (.declarationNotFound sel.decorator s.path)
  | some (decorator, call) =>
    match (firstArgument? call).filter fun a => a.kind == .object with
    | none => .error (.metadataNotObject sel.decorator s.path)
    | some metadata => .ok { decorator, metadata }

def ownerOf? (root decorator : Node) : Option Node :=
  findFirst
    (fun n =>
      if n.children.any fun c => c.kind == .decorator && c.span == decorator.span then some n
      else none)
    (fun _ => true) root

/-- The name of what a decorator decorates. In front of an exported declaration it is the name of the
declaration. -/
def decoratedName? (text : List Char) (root decorator : Node) : Option String := do
  let owner ← ownerOf? root decorator
  let named ← if owner.kind = .exportStatement then owner.child? .declaration else some owner
  let name ← named.child? .name
  return name.source text

/-- What is known about the target declaration. -/
def describe (s : Snapshot) (sel : Selector) : Except ResolveError DeclarationInfo :=
  (locateDeclaration s sel).map fun d =>
    { className := decoratedName? s.chars s.root d.decorator
      decoratorSpan := d.decorator.span
      metadataSpan := d.metadata.span }

end Enlist.Metadata
