import Enlist.Metadata.Slot

/-!
# Routes

A router is registered by an entry `RouterModule.forRoot(…)` or `RouterModule.forChild(…)` of the slot
`imports`. Its routes are the array literal that it is given, or the array literal that the name it is
given is bound to. A route that matches everything stays behind the routes that are added.
-/

namespace Enlist.Metadata

open Syntax

structure RouterDeclaration where
  text : String
  method : String
  span : Span
  deriving DecidableEq, Repr

/-- The method by which an entry registers a router. -/
def routerMethod? (text : List Char) (entry : Node) : Option String := do
  let callee ← if entry.kind = .callExpression then entry.childOfKind? .function .memberExpression
    else none
  let object ← callee.child? .object
  let property ← callee.child? .property
  let method := property.source text
  if object.source text = "RouterModule" ∧ (method = "forRoot" ∨ method = "forChild") then
    some method
  else none

/-- The first entry of the slot `imports` that registers a router, and its method. -/
def routerCall (s : Snapshot) (sel : Selector) : Except ResolveError (Option (Node × String)) :=
  (locateDeclaration s sel).map fun d => do
    let member ← (membersNamed s.chars d.metadata "imports").first?
    let array ← member.childOfKind? .value .array
    array.namedChildren.findSome? fun entry =>
      (routerMethod? s.chars entry).map fun method => (entry, method)

/-- The registration of a router, if there is one. -/
def routerDeclaration (s : Snapshot) (sel : Selector) :
    Except ResolveError (Option RouterDeclaration) :=
  (routerCall s sel).map fun found => found.map fun (call, method) =>
    { text := call.source s.chars, method, span := call.span }

/-- The array literal of the first declarator of a name that has one, wherever it stands. -/
def boundArray? (text : List Char) (name : String) (root : Node) : Option Node :=
  findFirst
    (fun n =>
      if n.kind = .variableDeclarator ∧ (n.child? .name).map (Node.source text) = some name then
        n.childOfKind? .value .array
      else none)
    (fun _ => true) root

/-- A route that matches everything: an object with the path `**`. -/
def isWildcard (text : List Char) (element : Node) : Bool :=
  element.kind == .object && element.namedChildren.any fun m =>
    propertyName? text m == some "path" &&
      (m.childOfKind? .value .string).any fun v => v.stringValue text == "**"

/-- The array literal of the routes that a registration is given. -/
def routesArray (s : Snapshot) (call : Node) : Except ResolveError Node :=
  match firstArgument? call with
  | none => .error (.routesNotResolvable .noArgument)
  | some argument =>
    match argument.kind with
    | .array => .ok argument
    | .identifier =>
      let name := argument.source s.chars
      match boundArray? s.chars name s.root with
      | some array => .ok array
      | none => .error (.routesNotResolvable (.notBound name s.path))
    | kind => .error (.routesNotResolvable (.unsupported kind.name))

/-- The routes of an array literal, and where new ones go: in front of the first that matches
everything, or behind the last. -/
def locateInRoutes (text : List Char) (array : Node) : SlotLocation :=
  let location := locateInArray text "routes" array
  match array.namedChildren.find? (isWildcard text) with
  | some wildcard =>
    { location with point := .prepend wildcard.span.start (separatorOf text wildcard) }
  | none => location

def locateRoutes (s : Snapshot) (sel : Selector) : Except ResolveError SlotLocation := do
  match ← routerCall s sel with
  | none => .error (.routerNotFound s.path)
  | some (call, _) => (routesArray s call).map (locateInRoutes s.chars)

end Enlist.Metadata
