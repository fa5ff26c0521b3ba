/-!
# Errors of a search for metadata

Why a declaration, one of its slots or its routes cannot be used.
-/

namespace Enlist.Metadata

/-- Why the routes of a router registration are not known. -/
inductive RoutesProblem where
  | noArgument
  /-- The registration is given a name that no array literal in the file is bound to. -/
  | notBound (name path : String)
  /-- The registration is given something else. -/
  | unsupported (kind : String)
  deriving DecidableEq, Repr

def RoutesProblem.message : RoutesProblem → String
  | noArgument => "router registration has no routes argument"
  | notBound name path => s!"'{name}' is not bound to an array literal in {path}"
  | unsupported kind => s!"unsupported routes argument of kind '{kind}'"

/-- Why something is not found in a snapshot. -/
inductive ResolveError where
  /-- No declaration has the decorator. -/
  | declarationNotFound (decorator path : String)
  /-- The decorator is not given an object literal. -/
  | metadataNotObject (decorator path : String)
  /-- The slot is there, but its value is no array literal. -/
  | slotNotArray (slot : String)
  /-- No router is registered among the imports of the declaration. -/
  | routerNotFound (path : String)
  | routesNotResolvable (problem : RoutesProblem)
  deriving DecidableEq, Repr

def ResolveError.message : ResolveError → String
  | declarationNotFound decorator path =>
    s!"no declaration decorated with @{decorator} in {path}"
  | metadataNotObject decorator path =>
    s!"@{decorator} metadata in {path} is not an object literal"
  | slotNotArray slot => s!"metadata property '{slot}' is not an array literal"
  | routerNotFound path => s!"no RouterModule declaration found in {path}"
  | routesNotResolvable problem => s!"routes not resolvable: {problem.message}"

end Enlist.Metadata
