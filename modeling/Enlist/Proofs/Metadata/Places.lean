import Enlist.Metadata.Slot
import Enlist.Proofs.Syntax.Regular
import Enlist.Proofs.Syntax.Walk
import Mathlib.Data.List.Pairwise

/-!
# Places of new items

New entries of a slot, and new slots of the metadata, are new items of a list in brackets: they go
behind its last item, or in front of the closing bracket of an empty list. This file says where that
is, and that no two lists that a registration may touch share the place.

## Key results

- `placed_metadata`: the metadata of the target declaration is laid out
- `itemsOffset_bounds` / `isBoundary_itemsOffset`: new items go inside of the brackets, between two
  characters
- `closing_bracket`: the bracket that an empty list is filled in front of
- `TakesItems`: what a list has to have so that new items go into it
- `locateSlot_cases`: what a slot is located as
- `itemsOffset_ne` / `itemsOffset_lt_metadata`: different lists have different places
-/

namespace Enlist

namespace Metadata

open Syntax Text

/-- Of two nodes of a row, one stands behind the other. -/
theorem apart_of_pairwise {ns : List Node} (h : ns.Pairwise fun a b => a.span.stop ≤ b.span.start)
    {a b : Node} (ha : a ∈ ns) (hb : b ∈ ns) (hne : a ≠ b) :
    a.span.stop ≤ b.span.start ∨ b.span.stop ≤ a.span.start := by
  have hsymm : Std.Symm fun a b : Node =>
      a.span.stop ≤ b.span.start ∨ b.span.stop ≤ a.span.start := ⟨fun _ _ h => h.symm⟩
  have hapart : ns.Pairwise fun a b => a.span.stop ≤ b.span.start ∨ b.span.stop ≤ a.span.start :=
    h.imp Or.inl
  exact hapart.forall ha hb hne

/-! ## Places outside of a node -/

/-- The byte is not between the first of a node and the one behind it. -/
def Outside (n : Node) (p : Nat) : Prop :=
  p ≤ n.span.start ∨ n.span.stop ≤ p

/-- The nodes of a tree that is laid out stand in it. -/
theorem within_of_mem_nodes {text : List Char} {n m : Node} (hn : n.Placed text) (hm : m ∈ n.nodes) :
    n.span.start ≤ m.span.start ∧ m.span.stop ≤ n.span.stop := by
  rcases Node.mem_nodes.1 hm with rfl | ⟨c, hc, hm⟩
  · exact ⟨Nat.le_refl _, Nat.le_refl _⟩
  · have hwithin := within_of_mem_nodes (hn.child hc) hm
    have := hn.row.mem hc
    omega
termination_by n.size
decreasing_by exact Node.size_lt_of_mem_children hc

section

variable {text : List Char} {parent n m : Node} {p : Nat}

/-- A place in a child of a node is outside of all nodes below the node that are not below the child. -/
theorem outside_or_mem_nodes (hparent : parent.Placed text) (hn : n ∈ parent.children)
    (hm : m ∈ parent.nodes) (hne : m ≠ parent) (hlo : n.span.start ≤ p) (hhi : p ≤ n.span.stop) :
    Outside m p ∨ m ∈ n.nodes := by
  obtain ⟨c, hc, hmc⟩ := (Node.mem_nodes.1 hm).resolve_left hne
  by_cases heq : c = n
  · exact .inr (heq ▸ hmc)
  · have hwithin := within_of_mem_nodes (hparent.child hc) hmc
    have := apart_of_pairwise hparent.row.pairwise hc hn heq
    left
    rw [Outside]
    omega

/-- Where a child of a node starts and where it ends is outside of all nodes below the node. -/
theorem outside_ends (hparent : parent.Placed text) (hn : n ∈ parent.children) (hm : m ∈ parent.nodes)
    (hne : m ≠ parent) : Outside m n.span.start ∧ Outside m n.span.stop := by
  have hle := (hparent.child hn).start_le_stop
  have hbelow (hmn : m ∈ n.nodes) := within_of_mem_nodes (hparent.child hn) hmn
  constructor
  · rcases outside_or_mem_nodes hparent hn hm hne (Nat.le_refl _) hle with hout | hmn
    · exact hout
    · exact .inl (hbelow hmn).1
  · rcases outside_or_mem_nodes hparent hn hm hne hle (Nat.le_refl _) with hout | hmn
    · exact hout
    · exact .inr (hbelow hmn).2

end

/-! ## The metadata -/

/-- The call in a decorator is one of its children. -/
private theorem mem_of_selectedCall? {text : List Char} {names : List String} {decorator call : Node}
    (h : selectedCall? text names decorator = some call) : call ∈ decorator.children := by
  simp only [selectedCall?, Option.bind_eq_bind, Option.bind_eq_some_iff] at h
  obtain ⟨c, hc, _, _, h⟩ := h
  split at h
  · cases h
    exact Node.mem_children_of_namedChildren (List.mem_of_find?_eq_some hc)
  · exact nomatch h

/-- The first argument of a call is a child of a node that has what nodes hand down to their children, if
the call has it. -/
private theorem exists_parent_of_firstArgument? {P : Node → Prop}
    (hchild : ∀ n, P n → ∀ c ∈ n.children, P c) {call argument : Node} (hcall : P call)
    (h : firstArgument? call = some argument) : ∃ parent, P parent ∧ argument ∈ parent.children := by
  simp only [firstArgument?, Option.bind_eq_some_iff] at h
  obtain ⟨arguments, harguments, h⟩ := h
  exact ⟨arguments, hchild _ hcall _ (Node.mem_children_of_child? harguments),
    Node.mem_children_of_namedChildren (List.mem_of_mem_head? h)⟩

/-- What goes down to children goes from a call to its first argument. -/
theorem inherited_firstArgument? {P : Node → Prop} (hchild : ∀ n, P n → ∀ c ∈ n.children, P c)
    {call argument : Node} (hcall : P call) (h : firstArgument? call = some argument) : P argument := by
  obtain ⟨parent, hparent, hmem⟩ := exists_parent_of_firstArgument? hchild hcall h
  exact hchild _ hparent _ hmem

/-- The metadata of the target declaration is an object literal, a child of a node that has what nodes
hand down to their children, if the tree has it. -/
theorem exists_parent_of_metadata {P : Node → Prop} (hchild : ∀ n, P n → ∀ c ∈ n.children, P c)
    {s : Snapshot} {sel : Selector} {d : Declaration} (hroot : P s.root)
    (h : locateDeclaration s sel = .ok d) :
    d.metadata.kind = .object ∧ ∃ parent, P parent ∧ d.metadata ∈ parent.children := by
  simp only [locateDeclaration] at h
  split at h
  case h_1 => exact nomatch h
  case h_2 decorator call hfound =>
    split at h
    case h_1 => exact nomatch h
    case h_2 metadata hargument =>
      cases h
      -- The decorator is found in some node of the tree
      obtain ⟨n, hn, hcall⟩ := exists_of_findFirst hchild hroot hfound
      obtain ⟨hfirst, hkind⟩ := Option.filter_eq_some_iff.1 hargument
      split at hcall
      case isFalse => exact nomatch hcall
      case isTrue =>
        obtain ⟨call', hselected, heq⟩ := Option.map_eq_some_iff.1 hcall
        cases heq
        have hcall' := hchild _ hn _ (mem_of_selectedCall? hselected)
        exact ⟨beq_iff_eq.1 hkind, exists_parent_of_firstArgument? hchild hcall' hfirst⟩

/-- The metadata of the target declaration is an object literal, and has what nodes hand down to their
children, if the tree has it. -/
theorem inherited_metadata {P : Node → Prop} (hchild : ∀ n, P n → ∀ c ∈ n.children, P c) {s : Snapshot}
    {sel : Selector} {d : Declaration} (hroot : P s.root) (h : locateDeclaration s sel = .ok d) :
    P d.metadata ∧ d.metadata.kind = .object := by
  obtain ⟨hkind, parent, hparent, hmem⟩ := exists_parent_of_metadata hchild hroot h
  exact ⟨hchild _ hparent _ hmem, hkind⟩

/-- The metadata of the target declaration is an object literal that is laid out, as the tree is. -/
theorem placed_metadata {s : Snapshot} (hroot : s.root.Placed s.chars) {sel : Selector}
    {d : Declaration} (h : locateDeclaration s sel = .ok d) :
    d.metadata.Placed s.chars ∧ d.metadata.kind = .object :=
  inherited_metadata (fun _ h _ hc => h.child hc) hroot h

/-- The metadata is a node of the tree. -/
theorem metadata_mem_nodes {s : Snapshot} {sel : Selector} {d : Declaration}
    (h : locateDeclaration s sel = .ok d) : d.metadata ∈ s.root.nodes :=
  (inherited_metadata (fun _ hn _ hc => Node.child_mem_nodes hn hc) s.root.self_mem_nodes h).1

/-- The metadata of the target declaration is not the whole text. -/
theorem metadata_ne_root {s : Snapshot} {sel : Selector} {d : Declaration}
    (h : locateDeclaration s sel = .ok d) : d.metadata ≠ s.root := by
  obtain ⟨_, parent, hparent, hmem⟩ := exists_parent_of_metadata (P := fun n => n.size ≤ s.root.size)
    (fun _ hn _ hc => Nat.le_trans (Nat.le_of_lt (Node.size_lt_of_mem_children hc)) hn)
    (Nat.le_refl _) h
  intro heq
  have := Node.size_lt_of_mem_children hmem
  rw [heq] at this
  omega

/-! ## Items of a list in brackets -/

/-- The byte at which new items of a list in brackets are put in: behind its last item, or in front of
the closing bracket of an empty list. -/
def itemsOffset (list : Node) : Nat :=
  match list.namedChildren.getLast? with
  | some last => last.span.stop
  | none => list.span.stop - 1

variable {text : List Char} {list : Node} {o c : Char}

/-- A mark is no item of a list. -/
private theorem not_mem_namedChildren_of_isMark {n : Node} {m : Char} (h : n.IsMark text m) :
    n ∉ list.namedChildren := by
  intro hn
  have hkind := (List.mem_filter.1 hn).2
  rw [h.kind] at hkind
  exact absurd hkind (by decide)

/-- The items of a list stand inside of its brackets. -/
theorem namedChildren_bounds (h : list.Placed text) (hk : list.kind.brackets? = some (o, c)) {n : Node}
    (hn : n ∈ list.namedChildren) :
    list.span.start < n.span.start ∧ n.span.start ≤ n.span.stop ∧ n.span.stop < list.span.stop := by
  obtain ⟨first, inner, last, hchildren, hfirst, hlast, hstart, hstop⟩ := h.enclosed hk
  have hmem := Node.mem_children_of_namedChildren hn
  have hrow := h.row
  rw [hchildren] at hmem hrow
  have hnfirst : n ≠ first := fun heq => not_mem_namedChildren_of_isMark hfirst (heq ▸ hn)
  have hnlast : n ≠ last := fun heq => not_mem_namedChildren_of_isMark hlast (heq ▸ hn)
  -- So the item is one of the nodes between the two marks
  have hinner : n ∈ inner := by
    rcases List.mem_cons.1 hmem with hmem | hmem
    · exact absurd hmem hnfirst
    · rcases List.mem_append.1 hmem with hmem | hmem
      · exact hmem
      · exact absurd (List.mem_singleton.1 hmem) hnlast
  obtain ⟨_, _, hrest⟩ := hrow
  obtain ⟨hrest, _, _⟩ := inRow_concat.1 hrest
  have hbounds := hrest.mem hinner
  have := hfirst.stop
  have := hlast.stop
  omega

/-- The closing bracket of a list is its last byte. -/
theorem closing_bracket (h : list.Placed text) (hk : list.kind.brackets? = some (o, c)) :
    list.span.start + 2 ≤ list.span.stop ∧ isBoundary text (list.span.stop - 1) = true ∧
      ∃ rest, dropBytes text (list.span.stop - 1) = c :: rest := by
  -- The opening bracket is the first child and the closing one the last, one byte each
  obtain ⟨first, inner, last, hchildren, hfirst, hlast, hstart, hstop⟩ := h.enclosed hk
  have hrow := h.row
  rw [hchildren] at hrow
  obtain ⟨_, _, hrest⟩ := hrow
  obtain ⟨hrest, _, _⟩ := inRow_concat.1 hrest
  have hle := hrest.le
  have hfirstStop := hfirst.stop
  have hlastStop := hlast.stop
  have hlastStart : list.span.stop - 1 = last.span.start := by omega
  have hplaced : last.Placed text := h.child (by rw [hchildren]; simp)
  rw [hlastStart]
  exact ⟨by omega, hplaced.start_boundary, hlast.text⟩

/-- The opening bracket of a list is its first byte. -/
theorem opening_bracket (h : list.Placed text) (hk : list.kind.brackets? = some (o, c)) :
    ∃ rest, dropBytes text list.span.start = o :: rest := by
  obtain ⟨_, _, _, _, hfirst, _, hstart, _⟩ := h.enclosed hk
  rw [← hstart]
  exact hfirst.text

/-- New items go inside of the brackets. -/
theorem itemsOffset_bounds (h : list.Placed text) (hk : list.kind.brackets? = some (o, c)) :
    list.span.start < itemsOffset list ∧ itemsOffset list < list.span.stop := by
  simp only [itemsOffset]
  cases hlast : list.namedChildren.getLast? with
  | none =>
    have := (closing_bracket h hk).1
    simp only
    omega
  | some last =>
    have := namedChildren_bounds h hk (List.mem_of_mem_getLast? hlast)
    simp only
    omega

/-- New slots go inside of the metadata. -/
theorem metadata_bounds {s : Snapshot} (hroot : s.root.Placed s.chars) {sel : Selector}
    {d : Declaration} (h : locateDeclaration s sel = .ok d) :
    d.metadata.span.start < itemsOffset d.metadata ∧ itemsOffset d.metadata < d.metadata.span.stop := by
  obtain ⟨hplaced, hkind⟩ := placed_metadata hroot h
  have hbrackets : d.metadata.kind.brackets? = some ('\x7b', '\x7d') := by rw [hkind]; rfl
  exact itemsOffset_bounds hplaced hbrackets

/-- The character `c` is the last one of the node. -/
def EndsWith (text : List Char) (c : Char) (n : Node) : Prop :=
  ∃ front back, text = front ++ c :: back ∧ utf8Length front + c.utf8Size = n.span.stop

/-- There is a place in the list for new items: the list is in the text, and one that is empty has the
closing bracket `c`. In a text with errors an empty list may lack it. -/
structure TakesItems (text : List Char) (c : Char) (list : Node) : Prop where
  inText : list.InText text
  closed : list.namedChildren = [] → EndsWith text c list

/-- The closing bracket of a list that is laid out is its last character. -/
theorem endsWith_of_placed (h : list.Placed text) (hk : list.kind.brackets? = some (o, c))
    (hc : c.utf8Size = 1) : EndsWith text c list := by
  obtain ⟨hle, hboundary, rest, hrest⟩ := closing_bracket h hk
  refine ⟨takeBytes text (list.span.stop - 1), rest, ?_, ?_⟩
  · rw [← hrest, takeBytes_append_dropBytes]
  · rw [utf8Length_takeBytes hboundary, hc]
    omega

/-- A list that is laid out takes items between its brackets. -/
theorem takesItems_of_placed (h : list.Placed text) (hk : list.kind.brackets? = some (o, c))
    (hc : c.utf8Size = 1) : TakesItems text c list :=
  ⟨h.inText, fun _ => endsWith_of_placed h hk hc⟩

/-- New items go between two characters. -/
theorem TakesItems.isBoundary_itemsOffset (h : TakesItems text c list) (hc : c.utf8Size = 1) :
    isBoundary text (itemsOffset list) = true := by
  simp only [itemsOffset]
  cases hlast : list.namedChildren.getLast? with
  | none =>
    obtain ⟨front, back, htext, hstop⟩ := h.closed (List.getLast?_eq_none_iff.1 hlast)
    rw [hc] at hstop
    exact isBoundary_iff.2 ⟨front, c :: back, htext, Nat.eq_sub_of_add_eq hstop⟩
  | some last =>
    have hmem := Node.mem_children_of_namedChildren (List.mem_of_mem_getLast? hlast)
    exact (h.inText.child hmem).stop_boundary

/-- New items of a list that is laid out go between two characters. -/
theorem isBoundary_itemsOffset (h : list.Placed text) (hk : list.kind.brackets? = some (o, c)) :
    isBoundary text (itemsOffset list) = true := by
  have hc : c.utf8Size = 1 := by
    cases hkind : list.kind <;> rw [hkind] at hk <;> cases hk <;> rfl
  exact (takesItems_of_placed h hk hc).isBoundary_itemsOffset hc

/-- An item of a list ends at the place of new items or in front of it. -/
theorem stop_le_itemsOffset (h : list.Placed text) {n : Node} (hn : n ∈ list.namedChildren) :
    n.span.stop ≤ itemsOffset list := by
  cases hlast : list.namedChildren.getLast? with
  | none =>
    rw [List.getLast?_eq_none_iff] at hlast
    rw [hlast] at hn
    exact nomatch hn
  | some last =>
    -- The items are a part of a row, in which the last one stands behind all others
    obtain ⟨front, hfront⟩ := List.getLast?_eq_some_iff.1 hlast
    have hpair := h.row.pairwise.sublist (List.filter_sublist (p := fun c => c.kind.isNamed && !c.kind.isExtra))
    rw [← Node.namedChildren, hfront] at hpair
    simp only [itemsOffset, hlast]
    rw [hfront] at hn
    rcases List.mem_append.1 hn with hn | hn
    · have hle := (List.pairwise_append.1 hpair).2.2 n hn last List.mem_cons_self
      have hlastMem := Node.mem_children_of_namedChildren (List.mem_of_mem_getLast? hlast)
      exact Nat.le_trans hle (h.child hlastMem).start_le_stop
    · obtain rfl := List.mem_singleton.1 hn
      exact Nat.le_refl _

/-! ## Insertion points -/

/-- An array that is there takes entries, and its slot is not created. -/
theorem createsSlot_locateInArray (text : List Char) (slot : String) (array : Node) :
    (locateInArray text slot array).point.createsSlot = false := by
  rw [locateInArray]
  cases array.namedChildren.getLast? <;> rfl

/-- Entries of an array go where its items go. -/
theorem offset_locateInArray (text : List Char) (slot : String) (array : Node) :
    (locateInArray text slot array).point.offset = itemsOffset array := by
  rw [locateInArray, itemsOffset]
  cases array.namedChildren.getLast? <;> rfl

/-- A slot that is not there is created. -/
theorem createsSlot_creationPoint (text : List Char) (metadata : Node) :
    (creationPoint text metadata).createsSlot = true := by
  rw [creationPoint]
  cases metadata.namedChildren.getLast? <;> rfl

/-- A slot is created where items of the metadata go. -/
theorem offset_creationPoint (text : List Char) (metadata : Node) :
    (creationPoint text metadata).offset = itemsOffset metadata := by
  rw [creationPoint, itemsOffset]
  cases metadata.namedChildren.getLast? <;> rfl

/-! ## The arrays of slots -/

/-- The array literal that a slot of the metadata is given. Of several members with its name the first
counts. -/
def slotArray? (text : List Char) (metadata : Node) (slot : String) : Option Node :=
  (membersNamed text metadata slot).first?.bind fun member => member.childOfKind? .value .array

/-- The metadata has no member with the name of the slot. -/
def isAbsent (text : List Char) (metadata : Node) (slot : String) : Bool :=
  (membersNamed text metadata slot).first?.isNone

/-- A slot is located as an array literal, as one that is created, or not at all. -/
theorem locateSlot_eq {s : Snapshot} {sel : Selector} {d : Declaration}
    (hd : locateDeclaration s sel = .ok d) (slot : String) :
    locateSlot s sel slot =
      if isAbsent s.chars d.metadata slot then
        .ok { slot, existing := [], point := creationPoint s.chars d.metadata }
      else
        match slotArray? s.chars d.metadata slot with
        | some array => .ok (locateInArray s.chars slot array)
        | none => .error (.slotNotArray slot) := by
  rcases Option.eq_none_or_eq_some (membersNamed s.chars d.metadata slot).first? with
    hmember | ⟨member, hmember⟩
  · simp only [locateSlot, hd, isAbsent, hmember, bind, Except.bind, Option.isNone_none, if_true]
  · cases harray : member.childOfKind? .value .array <;>
      simp only [locateSlot, hd, isAbsent, slotArray?, hmember, harray, bind, Except.bind,
        Option.bind_some, Option.isNone_some, Bool.false_eq_true, if_false]

/-- A slot that is located is one that is created, or an array literal. -/
theorem locateSlot_cases {s : Snapshot} {sel : Selector} {slot : String} {l : SlotLocation}
    (h : locateSlot s sel slot = .ok l) :
    ∃ d, locateDeclaration s sel = .ok d ∧
      ((isAbsent s.chars d.metadata slot = true ∧
          l = { slot, existing := [], point := creationPoint s.chars d.metadata }) ∨
        ∃ array, slotArray? s.chars d.metadata slot = some array ∧
          l = locateInArray s.chars slot array) := by
  cases hd : locateDeclaration s sel with
  | error e =>
    simp only [locateSlot, hd] at h
    cases h
  | ok d =>
    refine ⟨d, rfl, ?_⟩
    rw [locateSlot_eq hd] at h
    split at h
    case isTrue habsent => exact .inl ⟨habsent, (Except.ok.inj h).symm⟩
    -- The slot is there, so it has an array, or locating it fails
    case isFalse =>
      split at h
      case h_1 array harray => exact .inr ⟨array, harray, (Except.ok.inj h).symm⟩
      case h_2 => cases h

variable {metadata array array' : Node} {slot slot' : String}

/-- A slot with an array is not absent. -/
theorem not_isAbsent_of_slotArray? (h : slotArray? text metadata slot = some array) :
    isAbsent text metadata slot = false := by
  simp only [slotArray?, Option.bind_eq_some_iff] at h
  obtain ⟨member, hmember, _⟩ := h
  rw [isAbsent, hmember]
  rfl

/-- A slot that is not there has another name than one with an array literal. -/
theorem ne_of_slotArray? (habsent : isAbsent text metadata slot = true)
    (h : slotArray? text metadata slot' = some array) : slot ≠ slot' := by
  rintro rfl
  rw [not_isAbsent_of_slotArray? h] at habsent
  exact nomatch habsent

/-- The array literal of a slot is a child of the member of the metadata with the name of the slot. -/
private theorem exists_member_of_slotArray? (h : slotArray? text metadata slot = some array) :
    array.kind = .array ∧ ∃ member ∈ metadata.namedChildren,
      propertyName? text member = some slot ∧ array ∈ member.children := by
  simp only [slotArray?, Option.bind_eq_some_iff] at h
  obtain ⟨member, hmember, harray⟩ := h
  rw [membersNamed, Lookup.first?_ofList] at hmember
  obtain ⟨hmem, hname⟩ := List.mem_filter.1 (List.mem_of_mem_head? hmember)
  obtain ⟨hchild, hkind⟩ := Option.filter_eq_some_iff.1 harray
  exact ⟨beq_iff_eq.1 hkind, member, hmem, beq_iff_eq.1 hname, Node.mem_children_of_child? hchild⟩

/-- The array literal of a slot has what nodes hand down to their children, if the metadata has it. -/
theorem inherited_slotArray? {P : Node → Prop} (hchild : ∀ n, P n → ∀ c ∈ n.children, P c)
    (hmetadata : P metadata) (h : slotArray? text metadata slot = some array) :
    P array ∧ array.kind = .array := by
  obtain ⟨hkind, member, hmem, _, harray⟩ := exists_member_of_slotArray? h
  exact ⟨hchild _ (hchild _ hmetadata _ (Node.mem_children_of_namedChildren hmem)) _ harray, hkind⟩

/-- The array literal of a slot is laid out, and its kind is one in brackets. -/
theorem placed_slotArray? (hplaced : metadata.Placed text)
    (h : slotArray? text metadata slot = some array) :
    array.Placed text ∧ array.kind.brackets? = some ('[', ']') := by
  obtain ⟨harray, hkind⟩ := inherited_slotArray? (fun _ h _ hc => h.child hc) hplaced h
  exact ⟨harray, by rw [hkind]; rfl⟩

/-- New entries of a slot go inside of the member of the metadata with the name of the slot. -/
private theorem exists_member_around (hplaced : metadata.Placed text)
    (h : slotArray? text metadata slot = some array) :
    ∃ member ∈ metadata.namedChildren, propertyName? text member = some slot ∧
      member.span.start < itemsOffset array ∧ itemsOffset array < member.span.stop := by
  obtain ⟨_, member, hmem, hname, hchild⟩ := exists_member_of_slotArray? h
  obtain ⟨harray, hbrackets⟩ := placed_slotArray? hplaced h
  have hmember := hplaced.child (Node.mem_children_of_namedChildren hmem)
  have hinside := hmember.row.mem hchild
  have hbounds := itemsOffset_bounds harray hbrackets
  exact ⟨member, hmem, hname, by omega, by omega⟩

/-- New entries of different slots have different places. -/
theorem itemsOffset_ne (hplaced : metadata.Placed text) (h : slotArray? text metadata slot = some array)
    (h' : slotArray? text metadata slot' = some array') (hne : slot ≠ slot') :
    itemsOffset array ≠ itemsOffset array' := by
  obtain ⟨m, hm, hname, hlo, hhi⟩ := exists_member_around hplaced h
  obtain ⟨m', hm', hname', hlo', hhi'⟩ := exists_member_around hplaced h'
  have hmm' : m ≠ m' := by
    rintro rfl
    rw [hname, Option.some.injEq] at hname'
    exact hne hname'
  -- The two members stand one behind the other, and each place is inside of its member
  have := apart_of_pairwise hplaced.row.pairwise (Node.mem_children_of_namedChildren hm)
    (Node.mem_children_of_namedChildren hm') hmm'
  omega

/-- New entries of a slot go inside of the metadata. -/
theorem start_lt_itemsOffset (hplaced : metadata.Placed text)
    (h : slotArray? text metadata slot = some array) : metadata.span.start < itemsOffset array := by
  obtain ⟨m, hm, _, hlo, _⟩ := exists_member_around hplaced h
  have := hplaced.row.mem (Node.mem_children_of_namedChildren hm)
  omega

/-- New entries of a slot go in front of new slots. -/
theorem itemsOffset_lt_metadata (hplaced : metadata.Placed text)
    (h : slotArray? text metadata slot = some array) : itemsOffset array < itemsOffset metadata := by
  obtain ⟨m, hm, _, _, hhi⟩ := exists_member_around hplaced h
  exact Nat.lt_of_lt_of_le hhi (stop_le_itemsOffset hplaced hm)

end Metadata

end Enlist
