import Enlist.Metadata.Routes
import Enlist.Proofs.Metadata.Places

/-!
# The target declaration

All lookups in the metadata of a snapshot begin with its target: the first decorator, outside of other
decorators, whose call is one of a selected name. What comes behind it does not count, also where the target
is not given an object literal and a later decorator is.

## Key results

- `findDecorator_eq_some_iff`: what a walk finds is the target
- `goesByTarget_bind`: what locates the declaration first goes by the target
- `lookups_go_by_target`: so all lookups have the same declaration, or fail for the same reason
-/

namespace Enlist

open Syntax

/-- The decorators of a tree that stand in no other decorator, in the order of the text. -/
def Syntax.Node.outerDecorators (root : Node) : List Node :=
  (root.reached fun n => n.kind != .decorator).filter fun n => n.kind == .decorator

namespace Metadata

/-- The name is the one that is selected, or an import statement for values binds it to what the selected
module exports under that name. -/
def Selector.Selects (sel : Selector) (s : Snapshot) (name : String) : Prop :=
  name = sel.decorator ∨
    ∃ d ∈ s.imports.decls, sel.module = some d.module ∧ d.typeOnly = false ∧
      ∃ b ∈ d.named, b.imported = sel.decorator ∧ b.name = name

/-- The first call among the children of a decorator is the call of a selected name. -/
structure IsSelected (s : Snapshot) (sel : Selector) (decorator call : Node) : Prop where
  isCall : call.kind = .callExpression
  first : ∃ before after, decorator.namedChildren = before ++ call :: after ∧
    ∀ n ∈ before, n.kind ≠ .callExpression
  callee : ∃ name, call.child? .function = some name ∧ sel.Selects s (name.source s.chars)

/-- The decorator is the first one with such a call. Decorators in other decorators do not count. -/
structure IsTarget (s : Snapshot) (sel : Selector) (decorator call : Node) : Prop where
  selected : IsSelected s sel decorator call
  first : ∃ before after, s.root.outerDecorators = before ++ decorator :: after ∧
    ∀ n ∈ before, ∀ c, ¬IsSelected s sel n c

/-- The first argument of a call, comments aside. -/
def IsFirstArgument (call argument : Node) : Prop :=
  ∃ arguments others, call.child? .arguments = some arguments ∧
    arguments.namedChildren = argument :: others

/-- The first argument of a call is an object literal. -/
structure IsGiven (call metadata : Node) : Prop where
  first : IsFirstArgument call metadata
  isObject : metadata.kind = .object

/-- A lookup goes by the target declaration: it gives what `use` makes of it, and it fails for want of a
declaration exactly when there is none that can be used. -/
structure GoesByTarget (s : Snapshot) (sel : Selector) {α : Type}
    (use : Declaration → Except ResolveError α) (r : Except ResolveError α) : Prop where
  found : ∀ decorator call metadata, IsTarget s sel decorator call → IsGiven call metadata →
    r = use { decorator, metadata }
  notFound : ∀ name path, r = .error (.declarationNotFound name path) ↔
    name = sel.decorator ∧ path = s.path ∧
      ∀ n ∈ s.root.outerDecorators, ∀ call, ¬IsSelected s sel n call
  notObject : ∀ name path, r = .error (.metadataNotObject name path) ↔
    name = sel.decorator ∧ path = s.path ∧
      ∃ decorator call, IsTarget s sel decorator call ∧ ∀ metadata, ¬IsGiven call metadata

variable {s : Snapshot} {sel : Selector} {decorator call metadata : Node}

/-! ## Finding the target -/

/-- A search in what is kept of a list is one in the list that passes over the rest. -/
private theorem findSome?_filter {α β : Type} (p : α → Bool) (f : α → Option β) (as : List α) :
    (as.filter p).findSome? f = as.findSome? fun a => if p a then f a else none := by
  induction as with
  | nil => rfl
  | cons a as ih =>
    rw [List.filter_cons, List.findSome?_cons]
    cases p a with
    | true => simp only [if_true, List.findSome?_cons, ih]
    | false => simpa using ih

/-- The decorator that is found is one of those that stand in no other. -/
theorem findDecorator_eq (text : List Char) (names : List String) (root : Node) :
    findDecorator text names root =
      root.outerDecorators.findSome? fun n => (selectedCall? text names n).map fun call => (n, call) := by
  rw [findDecorator, findFirst_eq_findSome?, Node.outerDecorators, findSome?_filter]
  simp only [beq_iff_eq]

theorem mem_names_iff {name : String} : name ∈ sel.names s ↔ sel.Selects s name := by
  rw [Selector.names, List.mem_cons, Selector.Selects]
  cases sel.module with
  | none => simp
  | some module => simp [Imports.ImportTable.localNames, and_assoc, @eq_comm _ module]

/-- The call that is found in a decorator is the one that is selected. -/
theorem selectedCall?_eq_some_iff :
    selectedCall? s.chars (sel.names s) decorator = some call ↔ IsSelected s sel decorator call := by
  simp only [selectedCall?, Option.bind_eq_bind, Option.bind_eq_some_iff, List.contains_iff_mem,
    mem_names_iff, Option.ite_none_right_eq_some, Option.some.injEq, List.find?_eq_some_iff_append,
    beq_iff_eq, Bool.not_eq_true', beq_eq_false_iff_ne]
  constructor
  · rintro ⟨call, ⟨hkind, hfirst⟩, name, hname, hselects, rfl⟩
    exact ⟨hkind, hfirst, name, hname, hselects⟩
  · rintro ⟨hkind, hfirst, name, hname, hselects⟩
    exact ⟨call, ⟨hkind, hfirst⟩, name, hname, hselects, rfl⟩

/-- No call is found in a decorator exactly if none is selected. -/
private theorem selectedCall?_eq_none_iff :
    selectedCall? s.chars (sel.names s) decorator = none ↔ ∀ c, ¬IsSelected s sel decorator c := by
  simp only [Option.eq_none_iff_forall_ne_some, ne_eq, selectedCall?_eq_some_iff]

/-- The decorator that is found is the target. -/
theorem findDecorator_eq_some_iff :
    findDecorator s.chars (sel.names s) s.root = some (decorator, call) ↔
      IsTarget s sel decorator call := by
  simp only [findDecorator_eq, List.findSome?_eq_some_iff, Option.map_eq_some_iff,
    Option.map_eq_none_iff, selectedCall?_eq_some_iff, selectedCall?_eq_none_iff, Prod.mk.injEq]
  constructor
  · rintro ⟨before, n, after, hsplit, ⟨c, hselected, rfl, rfl⟩, hbefore⟩
    exact ⟨hselected, before, after, hsplit, hbefore⟩
  · rintro ⟨hselected, before, after, hsplit, hbefore⟩
    exact ⟨before, decorator, after, hsplit, ⟨call, hselected, rfl, rfl⟩, hbefore⟩

/-- No decorator is found exactly if no outer decorator is selected. -/
theorem findDecorator_eq_none_iff :
    findDecorator s.chars (sel.names s) s.root = none ↔
      ∀ n ∈ s.root.outerDecorators, ∀ call, ¬IsSelected s sel n call := by
  simp only [findDecorator_eq, List.findSome?_eq_none_iff, Option.map_eq_none_iff,
    selectedCall?_eq_none_iff]

/-- The first argument that is found is the first one. -/
theorem firstArgument?_eq_some_iff {argument : Node} :
    firstArgument? call = some argument ↔ IsFirstArgument call argument := by
  simp only [firstArgument?, IsFirstArgument, Option.bind_eq_some_iff, List.head?_eq_some_iff,
    exists_and_left]

/-- The metadata is the first argument of the call, if that is an object. -/
theorem isGiven_iff :
    (firstArgument? call).filter (fun a => a.kind == .object) = some metadata ↔
      IsGiven call metadata := by
  rw [Option.filter_eq_some_iff, firstArgument?_eq_some_iff, beq_iff_eq]
  exact ⟨fun ⟨hfirst, hkind⟩ => ⟨hfirst, hkind⟩, fun ⟨hfirst, hkind⟩ => ⟨hfirst, hkind⟩⟩

/-! ## Locating the declaration -/

/-- A target with metadata is located. -/
theorem locateDeclaration_eq_ok (htarget : IsTarget s sel decorator call)
    (hgiven : IsGiven call metadata) : locateDeclaration s sel = .ok { decorator, metadata } := by
  rw [locateDeclaration, findDecorator_eq_some_iff.2 htarget]
  simp only [isGiven_iff.2 hgiven]

/-- A declaration is not found exactly if there is no target. -/
theorem locateDeclaration_eq_notFound_iff {name path : String} :
    locateDeclaration s sel = .error (.declarationNotFound name path) ↔
      name = sel.decorator ∧ path = s.path ∧
        ∀ n ∈ s.root.outerDecorators, ∀ call, ¬IsSelected s sel n call := by
  rw [← findDecorator_eq_none_iff, locateDeclaration]
  cases findDecorator s.chars (sel.names s) s.root with
  | none => simp [@eq_comm _ name, @eq_comm _ path]
  | some found =>
    dsimp only
    cases (firstArgument? found.2).filter fun a => a.kind == .object <;> simp

/-- The metadata is refused exactly if there is a target that is given no object. -/
theorem locateDeclaration_eq_notObject_iff {name path : String} :
    locateDeclaration s sel = .error (.metadataNotObject name path) ↔
      name = sel.decorator ∧ path = s.path ∧
        ∃ decorator call, IsTarget s sel decorator call ∧ ∀ metadata, ¬IsGiven call metadata := by
  simp only [← findDecorator_eq_some_iff, ← isGiven_iff, locateDeclaration]
  -- With a decorator that is selected, the first argument of its call decides
  cases findDecorator s.chars (sel.names s) s.root with
  | none => simp
  | some found =>
    obtain ⟨decorator, call⟩ := found
    dsimp only
    cases hgiven : (firstArgument? call).filter fun a => a.kind == .object with
    | none =>
      constructor
      · intro h
        cases h
        refine ⟨rfl, rfl, decorator, call, rfl, fun metadata hsome => ?_⟩
        rw [hgiven] at hsome
        cases hsome
      · rintro ⟨rfl, rfl, _⟩
        rfl
    | some metadata =>
      constructor
      · intro h
        cases h
      · rintro ⟨_, _, _, _, hsame, hnone⟩
        cases hsame
        exact absurd hgiven (hnone metadata)

/-- The error says that there is no declaration that can be used. -/
def ResolveError.blamesDeclaration : ResolveError → Bool
  | .declarationNotFound _ _ | .metadataNotObject _ _ => true
  | _ => false

/-- A lookup that locates the declaration first, and then has other reasons to fail, goes by the target. -/
theorem goesByTarget_bind {α : Type} {use : Declaration → Except ResolveError α}
    (huse : ∀ d e, use d = .error e → e.blamesDeclaration = false) :
    GoesByTarget s sel use ((locateDeclaration s sel).bind use) := by
  -- Errors of the declaration come from locating it, as what is done with it has errors of its own
  have hblame {e : ResolveError} (he : e.blamesDeclaration = true) :
      (locateDeclaration s sel).bind use = .error e ↔ locateDeclaration s sel = .error e := by
    cases locateDeclaration s sel with
    | error e' => simp [Except.bind]
    | ok d =>
      refine ⟨fun h => ?_, fun h => nomatch h⟩
      rw [huse d e h] at he
      exact nomatch he
  constructor
  · intro decorator call metadata htarget hgiven
    rw [locateDeclaration_eq_ok htarget hgiven]
    rfl
  · intro name path
    rw [hblame rfl, locateDeclaration_eq_notFound_iff]
  · intro name path
    rw [hblame rfl, locateDeclaration_eq_notObject_iff]

/-! ## Lookups -/

/-- What is known about a declaration. -/
def Declaration.info (s : Snapshot) (d : Declaration) : DeclarationInfo :=
  { className := decoratedName? s.chars s.root d.decorator
    decoratorSpan := d.decorator.span
    metadataSpan := d.metadata.span }

/-- A slot of a declaration. -/
def Declaration.slot (s : Snapshot) (slot : String) (d : Declaration) :
    Except ResolveError SlotLocation :=
  if isAbsent s.chars d.metadata slot then
    .ok { slot, existing := [], point := creationPoint s.chars d.metadata }
  else
    match slotArray? s.chars d.metadata slot with
    | some array => .ok (locateInArray s.chars slot array)
    | none => .error (.slotNotArray slot)

/-- The first entry of the slot `imports` of a declaration that registers a router, and its method. -/
def Declaration.routerCall? (s : Snapshot) (d : Declaration) : Option (Node × String) :=
  (slotArray? s.chars d.metadata "imports").bind fun array =>
    array.namedChildren.findSome? fun entry =>
      (routerMethod? s.chars entry).map fun method => (entry, method)

/-- The registration of a router in a declaration, if there is one. -/
def Declaration.router? (s : Snapshot) (d : Declaration) : Option RouterDeclaration :=
  (d.routerCall? s).map fun (call, method) =>
    { text := call.source s.chars, method, span := call.span }

/-- The routes of the router that is registered in a declaration. -/
def Declaration.routes (s : Snapshot) (d : Declaration) : Except ResolveError SlotLocation :=
  match d.routerCall? s with
  | some (call, _) => (routesArray s call).map (locateInRoutes s.chars)
  | none => .error (.routerNotFound s.path)

theorem describe_eq_bind (s : Snapshot) (sel : Selector) :
    describe s sel = (locateDeclaration s sel).bind fun d => .ok (d.info s) := by
  rw [describe]
  cases locateDeclaration s sel <;> rfl

theorem locateSlot_eq_bind (s : Snapshot) (sel : Selector) (slot : String) :
    locateSlot s sel slot = (locateDeclaration s sel).bind (Declaration.slot s slot) := by
  cases hd : locateDeclaration s sel with
  | error e => simp only [locateSlot, hd, bind, Except.bind]
  | ok d => exact locateSlot_eq hd slot

theorem routerCall_eq_map (s : Snapshot) (sel : Selector) :
    routerCall s sel = (locateDeclaration s sel).map (Declaration.routerCall? s) := by
  rw [routerCall]
  congr 1
  funext d
  rw [Declaration.routerCall?, slotArray?, Option.bind_assoc]
  rfl

theorem routerDeclaration_eq_bind (s : Snapshot) (sel : Selector) :
    routerDeclaration s sel = (locateDeclaration s sel).bind fun d => .ok (d.router? s) := by
  rw [routerDeclaration, routerCall_eq_map]
  cases locateDeclaration s sel <;> rfl

theorem locateRoutes_eq_bind (s : Snapshot) (sel : Selector) :
    locateRoutes s sel = (locateDeclaration s sel).bind (Declaration.routes s) := by
  rw [locateRoutes, routerCall_eq_map]
  cases locateDeclaration s sel with
  | error e => rfl
  | ok d =>
    simp only [Except.map, bind, Except.bind, Declaration.routes]
    cases d.routerCall? s <;> rfl

/-- A slot is not missing for want of a declaration. -/
theorem Declaration.blames_of_slot {slot : String} {d : Declaration} {e : ResolveError}
    (h : d.slot s slot = .error e) : e.blamesDeclaration = false := by
  rw [Declaration.slot] at h
  split at h
  case isTrue => cases h
  case isFalse =>
    split at h
    case h_1 => cases h
    case h_2 =>
      cases h
      rfl

/-- Routes that are not resolved are refused for that. -/
theorem exists_of_routesArray_eq_error {call : Node} {e : ResolveError}
    (h : routesArray s call = .error e) : ∃ problem, e = .routesNotResolvable problem := by
  rw [routesArray] at h
  split at h
  -- Each way to fail is a problem of the routes
  case h_1 => exact ⟨_, (Except.error.inj h).symm⟩
  case h_2 =>
    split at h
    case h_1 => cases h
    case h_2 =>
      dsimp only at h
      split at h
      · cases h
      · exact ⟨_, (Except.error.inj h).symm⟩
    case h_3 => exact ⟨_, (Except.error.inj h).symm⟩

/-- Routes are not missing for want of a declaration. -/
theorem Declaration.blames_of_routes {d : Declaration} {e : ResolveError}
    (h : d.routes s = .error e) : e.blamesDeclaration = false := by
  rw [Declaration.routes] at h
  split at h
  case h_1 call method hcall =>
    cases harray : routesArray s call with
    -- What is done with the array of routes does not fail
    | ok array =>
      rw [harray] at h
      cases h
    | error e' =>
      rw [harray] at h
      cases h
      obtain ⟨problem, rfl⟩ := exists_of_routesArray_eq_error harray
      rfl
  case h_2 =>
    cases h
    rfl

/-- All lookups have the declaration of one decorator: the first outside of other decorators whose call is
of the selected name, or of another name for what the selected module exports under it. They fail for want
of a declaration exactly when there is no such decorator, or its first argument is no object literal; what
a decorator behind it is given does not matter. -/
theorem lookups_go_by_target (s : Snapshot) (sel : Selector) :
    GoesByTarget s sel (fun d => .ok (d.info s)) (describe s sel) ∧
      (∀ slot, GoesByTarget s sel (Declaration.slot s slot) (locateSlot s sel slot)) ∧
      GoesByTarget s sel (fun d => .ok (d.router? s)) (routerDeclaration s sel) ∧
      GoesByTarget s sel (Declaration.routes s) (locateRoutes s sel) := by
  refine ⟨?_, fun slot => ?_, ?_, ?_⟩
  · rw [describe_eq_bind]
    exact goesByTarget_bind fun _ _ h => nomatch h
  · rw [locateSlot_eq_bind]
    exact goesByTarget_bind fun _ _ h => Declaration.blames_of_slot h
  · rw [routerDeclaration_eq_bind]
    exact goesByTarget_bind fun _ _ h => nomatch h
  · rw [locateRoutes_eq_bind]
    exact goesByTarget_bind fun _ _ h => Declaration.blames_of_routes h

example : describe (.ofText "/m.ts" "@M(x)class A\x7b\x7d@M(\x7b\x7d)class B\x7b\x7d") (.named "M") matches
    .error (.metadataNotObject "M" "/m.ts") := by
  decide +kernel

end Metadata

end Enlist
