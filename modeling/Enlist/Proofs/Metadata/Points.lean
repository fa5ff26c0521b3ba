import Enlist.Proofs.Metadata.NamedRoutes
import Enlist.Proofs.Metadata.Target

/-!
# Insertion points

An insertion point is computed in one of four ways: from the last element of an array, from a closing
bracket, from an element that stays behind, or from the last member of the metadata. All of them are in
the literal that the new entries belong to, behind its opening bracket and not behind its closing one, and
none is inside of something that is there. Of a text with errors this is so as far as its tree is laid
out as one of the grammar is.

## Key results

- `pointsInto_itemsOffset` / `pointsInto_routesOffset`: the places of new items are in their list
- `slotArray?_eq_some_iff` / `isAbsent_iff`: when a slot has an array literal, and when it is not there
- `located_points_inside`: the insertion point of a slot, or of routes, is in the right literal
-/

namespace Enlist.Metadata

open Syntax Text

/-- The byte is inside of the brackets of a list, between two characters, and not inside of one of the
children of the list. -/
structure PointsInto (text : List Char) (o c : Char) (list : Node) (p : Nat) : Prop where
  opening : ∃ rest, dropBytes text list.span.start = o :: rest
  closing : ∃ rest, dropBytes text (list.span.stop - 1) = c :: rest
  behind : list.span.start + 1 ≤ p
  inFront : p ≤ list.span.stop - 1
  between : isBoundary text p = true
  outside : ∀ n ∈ list.children, Outside n p

/-- The array literal is the value of the first member of the metadata with the name of the slot. -/
structure IsSlotArray (text : List Char) (metadata : Node) (slot : String) (array : Node) : Prop where
  member : ∃ front member back, metadata.namedChildren = front ++ member :: back ∧
    propertyName? text member = some slot ∧ (∀ m ∈ front, propertyName? text m ≠ some slot) ∧
      member.child? .value = some array
  isArray : array.kind = .array

/-- The array literal is what a router is registered with: it is given to the call, or bound to the name
that is given to the call. -/
inductive IsRoutesArray (s : Snapshot) (call array : Node) : Prop where
  | given (first : IsFirstArgument call array) (isArray : array.kind = .array)
  | bound {name : Node} (first : IsFirstArgument call name) (isName : name.kind = .identifier)
      (bound : FirstBound s.chars (name.source s.chars) s.root.nodes array)

/-- New entries go into the array literal. -/
structure EntersArray (text : List Char) (array : Node) (l : SlotLocation) : Prop where
  creates : l.point.createsSlot = false
  inside : PointsInto text '[' ']' array l.point.offset
  fills : l.existing = [] ↔ ∃ offset, l.point = .fill offset

/-- The metadata has no member with the name of the slot, and one is created in it. -/
structure EntersMetadata (text : List Char) (metadata : Node) (slot : String) (l : SlotLocation) :
    Prop where
  absent : ∀ m ∈ metadata.namedChildren, propertyName? text m ≠ some slot
  creates : l.point.createsSlot = true
  inside : PointsInto text '\x7b' '\x7d' metadata l.point.offset
  existing : l.existing = []

variable {s : Snapshot} {text : List Char} {list metadata array : Node} {o c : Char} {slot : String}

/-! ## Places in a list -/

/-- Where a child of a node starts and where it ends is outside of all children of the node. -/
theorem outside_children (h : list.Placed text) {n m : Node} (hn : n ∈ list.children)
    (hm : m ∈ list.children) : Outside m n.span.start ∧ Outside m n.span.stop := by
  have hmem : m ∈ list.nodes := Node.mem_nodes.2 (.inr ⟨m, hm, m.self_mem_nodes⟩)
  refine outside_ends h hn hmem ?_
  rintro rfl
  exact Nat.lt_irrefl _ (Node.size_lt_of_mem_children hm)

/-- No child of a list is around its closing bracket. -/
private theorem outside_closing (h : list.Placed text) (hk : list.kind.brackets? = some (o, c))
    {n : Node} (hn : n ∈ list.children) : Outside n (list.span.stop - 1) := by
  obtain ⟨first, inner, last, hchildren, _, hlast, _, hstop⟩ := h.enclosed hk
  have hmem : last ∈ list.children := by
    rw [hchildren]
    simp
  -- The closing bracket is a child of one byte
  have hstart : last.span.start = list.span.stop - 1 := by
    have := hlast.stop
    omega
  rw [← hstart]
  exact (outside_children h hmem hn).1

/-- An offset between the brackets of a list, and inside of none of its children, points into the list.
-/
private theorem PointsInto.mk_of_bounds {p : Nat} (h : list.Placed text)
    (hk : list.kind.brackets? = some (o, c)) (hbounds : list.span.start < p ∧ p < list.span.stop)
    (hbetween : isBoundary text p = true) (houtside : ∀ n ∈ list.children, Outside n p) :
    PointsInto text o c list p where
  opening := opening_bracket h hk
  closing := (closing_bracket h hk).2.2
  behind := hbounds.1
  inFront := Nat.le_sub_one_of_lt hbounds.2
  between := hbetween
  outside := houtside

/-- New items of a list go inside of its brackets, and not inside of an item. -/
theorem pointsInto_itemsOffset (h : list.Placed text) (hk : list.kind.brackets? = some (o, c)) :
    PointsInto text o c list (itemsOffset list) := by
  refine .mk_of_bounds h hk (itemsOffset_bounds h hk) (isBoundary_itemsOffset h hk) fun n hn => ?_
  rw [itemsOffset]
  split
  case h_1 last hlast =>
    have hmem := Node.mem_children_of_namedChildren (List.mem_of_mem_getLast? hlast)
    exact (outside_children h hmem hn).2
  case h_2 => exact outside_closing h hk hn

/-- New routes go inside of the brackets of their array literal, and not inside of a route. -/
theorem pointsInto_routesOffset (h : array.Placed text) (hk : array.kind.brackets? = some (o, c)) :
    PointsInto text o c array (routesOffset text array) := by
  cases hfind : array.namedChildren.find? (isWildcard text) with
  | none =>
    rw [routesOffset, hfind]
    exact pointsInto_itemsOffset h hk
  | some wildcard =>
    -- In front of the route that matches everything
    have hroute := List.mem_of_find?_eq_some hfind
    have hbounds := namedChildren_bounds h hk hroute
    have hmem := Node.mem_children_of_namedChildren hroute
    rw [routesOffset, hfind]
    dsimp only
    refine .mk_of_bounds h hk ⟨hbounds.1, by omega⟩ (h.child hmem).start_boundary fun n hn => ?_
    exact (outside_children h hmem hn).1

/-! ## The literal of a slot -/

/-- The first member of a name is the first one that is found by it. -/
private theorem first?_membersNamed :
    (membersNamed text metadata slot).first? =
      metadata.namedChildren.find? fun m => propertyName? text m == some slot := by
  rw [membersNamed, Lookup.first?_ofList, List.head?_filter]

/-- The array that is found for a slot is the one of that slot. -/
theorem slotArray?_eq_some_iff :
    slotArray? text metadata slot = some array ↔ IsSlotArray text metadata slot array := by
  simp only [slotArray?, first?_membersNamed, Node.childOfKind?, Option.bind_eq_some_iff,
    Option.filter_eq_some_iff, List.find?_eq_some_iff_append, beq_iff_eq, Bool.not_eq_true',
    beq_eq_false_iff_ne]
  constructor
  · rintro ⟨member, ⟨hname, front, back, hmembers, hfront⟩, hvalue, harray⟩
    exact ⟨⟨front, member, back, hmembers, hname, hfront, hvalue⟩, harray⟩
  · rintro ⟨⟨front, member, back, hmembers, hname, hfront, hvalue⟩, harray⟩
    exact ⟨member, ⟨hname, front, back, hmembers, hfront⟩, hvalue, harray⟩

/-- A slot is absent exactly if no member has its name. -/
theorem isAbsent_iff :
    isAbsent text metadata slot = true ↔
      ∀ m ∈ metadata.namedChildren, propertyName? text m ≠ some slot := by
  rw [isAbsent, first?_membersNamed, Option.isNone_iff_eq_none, List.find?_eq_none]
  simp only [beq_iff_eq, ne_eq]

/-- The array that a call resolves to is its array of routes. -/
theorem isRoutesArray_of_routesArray {call : Node} (h : routesArray s call = .ok array) :
    IsRoutesArray s call array := by
  rw [routesArray] at h
  split at h
  case h_1 => cases h
  case h_2 argument hargument =>
    -- The argument of the call is an array, or a name that is bound to one
    have hfirst := firstArgument?_eq_some_iff.1 hargument
    split at h
    case h_1 hkind =>
      cases h
      exact .given hfirst hkind
    case h_2 hkind =>
      dsimp only at h
      split at h
      case h_1 bound hbound =>
        cases h
        rw [boundArray?_eq_findSome?, findSome?_arrayBoundBy?_eq_some_iff] at hbound
        exact .bound hfirst hkind hbound
      case h_2 => cases h
    case h_3 => cases h

/-! ## Locations -/

/-- The location of a slot with an array points into that array. -/
theorem entersArray_locateInArray (slot : String) (h : array.Placed text)
    (hk : array.kind.brackets? = some ('[', ']')) :
    EntersArray text array (locateInArray text slot array) := by
  refine ⟨createsSlot_locateInArray text slot array, ?_, ?_⟩
  · rw [offset_locateInArray]
    exact pointsInto_itemsOffset h hk
  · rw [locateInArray, List.map_eq_nil_iff, ← List.getLast?_eq_none_iff]
    cases array.namedChildren.getLast? <;> simp

/-- The location of routes points into their array. -/
theorem entersArray_locateInRoutes (h : array.Placed text)
    (hk : array.kind.brackets? = some ('[', ']')) :
    EntersArray text array (locateInRoutes text array) := by
  cases hfind : array.namedChildren.find? (isWildcard text) with
  | none =>
    rw [locateInRoutes, hfind]
    exact entersArray_locateInArray "routes" h hk
  | some wildcard =>
    have hinside := pointsInto_routesOffset h hk
    rw [routesOffset, hfind] at hinside
    rw [locateInRoutes, hfind]
    refine ⟨rfl, hinside, ?_⟩
    -- There is a route, in front of which new ones go
    have hroutes : array.namedChildren ≠ [] := List.ne_nil_of_mem (List.mem_of_find?_eq_some hfind)
    simp [locateInArray, hroutes]

/-- The location of a slot that is absent points into the metadata. -/
theorem entersMetadata_creationPoint (h : metadata.Placed text)
    (hk : metadata.kind.brackets? = some ('\x7b', '\x7d')) (habsent : isAbsent text metadata slot = true) :
    EntersMetadata text metadata slot
      { slot, existing := [], point := creationPoint text metadata } := by
  refine ⟨isAbsent_iff.1 habsent, createsSlot_creationPoint text metadata, ?_, rfl⟩
  rw [offset_creationPoint]
  exact pointsInto_itemsOffset h hk

/-- The insertion point of a slot that is located is inside of the array literal of its first member, or,
where no member has its name, inside of the metadata; that of routes is inside of the array literal that
the router is registered with. It is never inside of an element or a member. There are entries exactly
where the point is neither one that fills an empty array nor one that creates a slot. -/
theorem located_points_inside {s : Snapshot} (hroot : s.root.Placed s.chars) (sel : Selector) :
    (∀ slot l, locateSlot s sel slot = .ok l → ∃ d, locateDeclaration s sel = .ok d ∧
      (EntersMetadata s.chars d.metadata slot l ∨
        ∃ array, IsSlotArray s.chars d.metadata slot array ∧ EntersArray s.chars array l)) ∧
    (∀ l, locateRoutes s sel = .ok l → ∃ call method array,
      routerCall s sel = .ok (some (call, method)) ∧ IsRoutesArray s call array ∧
        EntersArray s.chars array l) := by
  constructor
  · intro slot l hl
    -- A slot that is absent is created, and one that is there has its array
    obtain ⟨d, hd, ⟨habsent, rfl⟩ | ⟨array, harray, rfl⟩⟩ := locateSlot_cases hl
    · obtain ⟨hplaced, hkind⟩ := placed_metadata hroot hd
      exact ⟨d, hd, .inl (entersMetadata_creationPoint hplaced (by rw [hkind]; rfl) habsent)⟩
    · obtain ⟨hplaced, hbrackets⟩ := placed_slotArray? (placed_metadata hroot hd).1 harray
      exact ⟨d, hd, .inr ⟨array, slotArray?_eq_some_iff.1 harray,
        entersArray_locateInArray slot hplaced hbrackets⟩⟩
  · intro l hl
    obtain ⟨array, harray, rfl⟩ := locateRoutes_eq_ok_iff.1 hl
    obtain ⟨hplaced, hbrackets⟩ := placed_routesOf? hroot harray
    obtain ⟨call, method, hcall, hroutes⟩ := routesOf?_eq_some_iff.1 harray
    exact ⟨call, method, array, hcall, isRoutesArray_of_routesArray hroutes,
      entersArray_locateInRoutes hplaced hbrackets⟩

/-- A location that has a point is one that was found. -/
private theorem exists_of_point {r : Except ResolveError SlotLocation} {p : InsertionPoint}
    (h : r.toOption.map SlotLocation.point = some p) : ∃ l, r = .ok l ∧ l.point = p := by
  cases r with
  | error e => exact nomatch h
  | ok l => exact ⟨l, rfl, Option.some.inj h⟩

/-- A slot is an empty array under a key in quotes, another one is only there in a comment, and the routes
are bound to a name, with one among them that matches everything. -/
theorem located_points_inside_sample :
    let s : Snapshot := .ofText "/m.ts" ("@M(\x7ba:[A,],'b':[],/* c:[] */imports:[RouterModule.forRoot(r)]" ++
      "\x7d)class C\x7b\x7d const r=[\x7bpath:'**'\x7d]")
    let sel : Selector := .named "M"
    ∃ filled created routes,
      (locateSlot s sel "b" = .ok filled ∧ filled.point = .fill 16 ∧
        ∃ array, EntersArray s.chars array filled) ∧
      (locateSlot s sel "c" = .ok created ∧ created.point = .create 61 ", " true ∧
        ∃ metadata, EntersMetadata s.chars metadata "c" created) ∧
      locateRoutes s sel = .ok routes ∧ routes.point = .prepend 82 ", " ∧
        ∃ array, EntersArray s.chars array routes := by
  intro s sel
  have hroot : s.root.Placed s.chars := Snapshot.placed_root (by decide +kernel)
  obtain ⟨hb, hc, hr⟩ :
      (locateSlot s sel "b").toOption.map SlotLocation.point = some (.fill 16) ∧
      (locateSlot s sel "c").toOption.map SlotLocation.point = some (.create 61 ", " true) ∧
      (locateRoutes s sel).toOption.map SlotLocation.point = some (.prepend 82 ", ") := by
    decide +kernel
  obtain ⟨filled, hfilled, hfill⟩ := exists_of_point hb
  obtain ⟨created, hcreated, hcreate⟩ := exists_of_point hc
  obtain ⟨routes, hroutes, hprepend⟩ := exists_of_point hr
  refine ⟨filled, created, routes, ⟨hfilled, hfill, ?_⟩, ⟨hcreated, hcreate, ?_⟩, hroutes, hprepend, ?_⟩
  · obtain ⟨d, _, hmetadata | ⟨array, _, harray⟩⟩ := (located_points_inside hroot sel).1 "b" filled hfilled
    -- The slot has an array, so it is not created
    · have hcreates := hmetadata.creates
      rw [hfill] at hcreates
      exact nomatch hcreates
    · exact ⟨array, harray⟩
  · obtain ⟨d, _, hmetadata | ⟨array, _, harray⟩⟩ := (located_points_inside hroot sel).1 "c" created hcreated
    · exact ⟨d.metadata, hmetadata⟩
    -- The slot is absent, so no array is entered
    · have hcreates := harray.creates
      rw [hcreate] at hcreates
      exact nomatch hcreates
  · obtain ⟨_, _, array, _, _, harray⟩ := (located_points_inside hroot sel).2 routes hroutes
    exact ⟨array, harray⟩

end Enlist.Metadata
