import Enlist.Proofs.Metadata.Routes
import Enlist.Proofs.Syntax.Walk

/-!
# Routes under a name

A router may be given a name for its routes. Then they are the array literal of a declarator of that
name. Which one is decided by the order of the text alone: a declarator in the body of a function comes
first where it stands first, and counts where there is no other.

`Metadata.ResolvesIn` says what the routes are when a list of nodes is searched for the declarator. The
nodes that are searched are those of the whole text; those at module scope give the same where no array
literal is bound to the name inside a block, a loop or a class.

## Key results

- `locateRoutes_of_name`: the routes under a name
- `locateRoutes_of_inner_name`: a declarator in the body of a function is taken for the one of the module
-/

namespace Enlist

open Syntax

/-- The names that are declared below the node are not those of the module, or not all of them: it is a
block, the body of a class or of a `switch`, or a loop. -/
def Syntax.Node.opensScope (n : Node) : Bool :=
  match n.kind with
  | .statementBlock | .classBody | .switchBody | .forStatement => true
  | _ => false

/-- The nodes at module scope. -/
def Syntax.Node.moduleNodes (root : Node) : List Node :=
  root.reached fun n => !n.opensScope

namespace Metadata

/-- The node declares a variable of the name, and the array literal is its value. -/
structure BindsArray (text : List Char) (name : String) (n array : Node) : Prop where
  kind : n.kind = .variableDeclarator
  name : ∃ m, n.child? .name = some m ∧ m.source text = name
  value : n.child? .value = some array
  isArray : array.kind = .array

/-- The array literal that is bound to the name first. -/
def FirstBound (text : List Char) (name : String) (nodes : List Node) (array : Node) : Prop :=
  ∃ before n after, nodes = before ++ n :: after ∧ BindsArray text name n array ∧
    ∀ m ∈ before, ∀ a, ¬BindsArray text name m a

/-- What the routes under a name are when the name is looked up among `nodes`. -/
inductive ResolvesIn (s : Snapshot) (name : String) (nodes : List Node) :
    Except ResolveError SlotLocation → Prop where
  | bound {array : Node} (first : FirstBound s.chars name nodes array) :
      ResolvesIn s name nodes (.ok (locateInRoutes s.chars array))
  | unbound (none : ∀ n ∈ nodes, ∀ array, ¬BindsArray s.chars name n array) :
      ResolvesIn s name nodes (.error (.routesNotResolvable (.notBound name s.path)))

/-- The name that the router of a snapshot is given for its routes. -/
def routesName? (s : Snapshot) (sel : Selector) : Option String :=
  match routerCall s sel with
  | .ok (some (call, _)) =>
    ((firstArgument? call).filter fun argument => argument.kind == .identifier).map
      (Node.source s.chars)
  | _ => none

/-! ## Looking a name up -/

/-- The array literal that a node binds to a name. -/
def arrayBoundBy? (text : List Char) (name : String) (n : Node) : Option Node :=
  if n.kind = .variableDeclarator ∧ (n.child? .name).map (Node.source text) = some name then
    n.childOfKind? .value .array
  else none

/-- The array that a node is found to bind to a name is the one it binds. -/
theorem arrayBoundBy?_eq_some_iff {text : List Char} {name : String} {n array : Node} :
    arrayBoundBy? text name n = some array ↔ BindsArray text name n array := by
  simp only [arrayBoundBy?, Option.ite_none_right_eq_some, Node.childOfKind?,
    Option.filter_eq_some_iff, beq_iff_eq, Option.map_eq_some_iff]
  constructor
  · rintro ⟨⟨hkind, hname⟩, hvalue, harray⟩
    exact ⟨hkind, hname, hvalue, harray⟩
  · rintro ⟨hkind, hname, hvalue, harray⟩
    exact ⟨⟨hkind, hname⟩, hvalue, harray⟩

/-- A node is found to bind no array to a name exactly if it binds none. -/
theorem arrayBoundBy?_eq_none_iff {text : List Char} {name : String} {n : Node} :
    arrayBoundBy? text name n = none ↔ ∀ array, ¬BindsArray text name n array := by
  simp only [Option.eq_none_iff_forall_ne_some, ne_eq, arrayBoundBy?_eq_some_iff]

/-- The array that is bound to a name is that of the first node that binds one, in the order of the
tree. -/
theorem boundArray?_eq_findSome? (text : List Char) (name : String) (root : Node) :
    boundArray? text name root = root.nodes.findSome? (arrayBoundBy? text name) :=
  findFirst_eq_findSome? _ _ root

/-- The location of routes under a name, looked up among `nodes`. -/
def routesAmong (s : Snapshot) (name : String) (nodes : List Node) : Except ResolveError SlotLocation :=
  match nodes.findSome? (arrayBoundBy? s.chars name) with
  | some array => .ok (locateInRoutes s.chars array)
  | none => .error (.routesNotResolvable (.notBound name s.path))

/-- The search among nodes finds the array that is bound first. -/
theorem findSome?_arrayBoundBy?_eq_some_iff {text : List Char} {name : String} {nodes : List Node}
    {array : Node} :
    nodes.findSome? (arrayBoundBy? text name) = some array ↔ FirstBound text name nodes array := by
  simp only [List.findSome?_eq_some_iff, arrayBoundBy?_eq_some_iff, arrayBoundBy?_eq_none_iff,
    FirstBound]

/-- What a name resolves to is what is looked up for it. -/
theorem resolvesIn_iff {s : Snapshot} {name : String} {nodes : List Node}
    {r : Except ResolveError SlotLocation} :
    ResolvesIn s name nodes r ↔ r = routesAmong s name nodes := by
  rw [routesAmong]
  constructor
  · intro h
    -- An array that is found is the first that the name is bound to, and one that is not found is
    -- none
    cases h with
    | bound first => rw [findSome?_arrayBoundBy?_eq_some_iff.2 first]
    | unbound hnone =>
      rw [List.findSome?_eq_none_iff.2 fun n hn => arrayBoundBy?_eq_none_iff.2 (hnone n hn)]
  · rintro rfl
    cases hfind : nodes.findSome? (arrayBoundBy? s.chars name) with
    | some array => exact .bound (findSome?_arrayBoundBy?_eq_some_iff.1 hfind)
    | none =>
      exact .unbound fun n hn =>
        arrayBoundBy?_eq_none_iff.1 (List.findSome?_eq_none_iff.1 hfind n hn)

/-- Routes that are given by a name are looked up among all nodes of the tree. -/
theorem locateRoutes_eq_routesAmong {s : Snapshot} {sel : Selector} {name : String}
    (h : routesName? s sel = some name) : locateRoutes s sel = routesAmong s name s.root.nodes := by
  rw [routesName?] at h
  split at h
  case h_2 => exact nomatch h
  case h_1 call method hcall =>
    obtain ⟨argument, hargument, rfl⟩ := Option.map_eq_some_iff.1 h
    -- The array is looked up under the name only if the argument is one
    obtain ⟨hfirst, hkind⟩ := Option.filter_eq_some_iff.1 hargument
    have hlocate : locateRoutes s sel = (routesArray s call).map (locateInRoutes s.chars) := by
      simp only [locateRoutes, bind, Except.bind, hcall]
    rw [hlocate, routesAmong, ← boundArray?_eq_findSome?, routesArray, hfirst]
    simp only [beq_iff_eq.1 hkind]
    cases boundArray? s.chars (argument.source s.chars) s.root <;> rfl

/-- The routes under a name are the array literal of the first declarator of the name in the whole text
that has one, and where there is none they cannot be resolved. Where no declarator inside a block, a
loop or a class has an array literal for the name, the first at module scope decides: then the routes
are an array literal that the name is bound to in the module, or cannot be resolved. -/
theorem locateRoutes_of_name {s : Snapshot} {sel : Selector} {name : String}
    (h : routesName? s sel = some name) :
    ResolvesIn s name s.root.nodes (locateRoutes s sel) ∧
      ((∀ n ∈ s.root.nodes, n.opensScope = true →
          ∀ m ∈ n.nodes, ∀ array, ¬BindsArray s.chars name m array) →
        ResolvesIn s name s.root.moduleNodes (locateRoutes s sel)) := by
  have hlocate := locateRoutes_eq_routesAmong h
  refine ⟨resolvesIn_iff.2 hlocate, fun hinner => ?_⟩
  -- What is left out of the nodes at module scope has nothing for the name
  have hsame : s.root.moduleNodes.findSome? (arrayBoundBy? s.chars name) =
      s.root.nodes.findSome? (arrayBoundBy? s.chars name) :=
    findSome?_reached s.root fun n hn hopens m hm =>
      arrayBoundBy?_eq_none_iff.2 (hinner n hn (by simpa using hopens) m hm)
  rw [resolvesIn_iff, hlocate, routesAmong, routesAmong, hsame]

/-- A class has a method with a list of its own, under another name, and a loop runs over a third; the
routes are bound twice in the module, first to a call. -/
theorem locateRoutes_of_name_sample :
    let s : Snapshot := .ofText "/m.ts" ("var r=f(),r=[A];for(const l=[B];;)l;" ++
      "class D\x7bm()\x7bconst k=[r]\x7d\x7d@M(\x7bimports:[RouterModule.forRoot(r)]\x7d)class C\x7b\x7d")
    let sel : Selector := .named "M"
    routesName? s sel = some "r" ∧
      (∀ n ∈ s.root.nodes, n.opensScope = true →
        ∀ m ∈ n.nodes, ∀ array, ¬BindsArray s.chars "r" m array) ∧
      ResolvesIn s "r" s.root.moduleNodes (locateRoutes s sel) ∧
      (locateRoutes s sel).toOption.map SlotLocation.existing = some ["A"] := by
  intro s sel
  obtain ⟨hname, hnone, hexisting⟩ : routesName? s sel = some "r" ∧
      (∀ n ∈ s.root.nodes, n.opensScope = true →
        ∀ m ∈ n.nodes, (arrayBoundBy? s.chars "r" m).isNone = true) ∧
      (locateRoutes s sel).toOption.map SlotLocation.existing = some ["A"] := by
    decide +kernel
  have hinner : ∀ n ∈ s.root.nodes, n.opensScope = true →
      ∀ m ∈ n.nodes, ∀ array, ¬BindsArray s.chars "r" m array := fun n hn hopens m hm =>
    arrayBoundBy?_eq_none_iff.1 (Option.isNone_iff_eq_none.1 (hnone n hn hopens m hm))
  exact ⟨hname, hinner, (locateRoutes_of_name hname).2 hinner, hexisting⟩

/-- Not every router that is given a name gets the routes that the name is bound to in the module: a
declarator of that name in the body of a function stands in front of them here. -/
theorem locateRoutes_of_inner_name :
    ¬∀ (s : Snapshot) (sel : Selector) (name : String), routesName? s sel = some name →
      ResolvesIn s name s.root.moduleNodes (locateRoutes s sel) := by
  intro hall
  let s : Snapshot := .ofText "/m.ts" ("function f()\x7bconst r=[]\x7d const r=[A];" ++
    "@M(\x7bimports:[RouterModule.forRoot(r)]\x7d)class C\x7b\x7d")
  let sel : Selector := .named "M"
  obtain ⟨hname, hfound, hmodule⟩ : routesName? s sel = some "r" ∧
      (locateRoutes s sel).toOption.map SlotLocation.existing = some [] ∧
      (routesAmong s "r" s.root.moduleNodes).toOption.map SlotLocation.existing = some ["A"] := by
    decide +kernel
  rw [resolvesIn_iff.1 (hall s sel "r" hname), hmodule] at hfound
  exact absurd hfound (by decide)

end Metadata

end Enlist
