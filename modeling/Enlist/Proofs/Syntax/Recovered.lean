import Enlist.Proofs.Syntax.Tree

/-!
# Trees that are recovered

A parser that goes on behind errors recovers some tree, of which it is known only that its nodes stand in
the text. This file decides whether those of a given tree do, and makes any such tree the one that is
recovered from a text: what is said of every recovered tree is said of each of these.

## Key results

- `inText_iff_forall_mem_nodes`: the nodes of a tree are in a text when each stands in it by itself
- `ofText_only`: a tree whose nodes are in a text may be recovered from it
- `statements_append`: the statements of two texts are in the text that they make up
- `inText_resumed`: a tree that is put together of nodes in a text is in the text
-/

namespace Enlist.Syntax

open Text

/-! ## Nodes in a text -/

/-- Whether nodes stand one behind the other. -/
instance decidableInRow : ∀ (lo : Nat) (ns : List Node) (hi : Nat), Decidable (InRow lo ns hi)
  | lo, [], hi => inferInstanceAs (Decidable (lo ≤ hi))
  | lo, n :: ns, hi =>
    have := decidableInRow n.span.stop ns hi
    inferInstanceAs (Decidable (lo ≤ n.span.start ∧ n.span.start ≤ n.span.stop ∧ _))

/-- The node covers whole characters, and its children stand in it one behind the other. -/
def Node.Stands (text : List Char) (n : Node) : Prop :=
  isBoundary text n.span.start = true ∧ isBoundary text n.span.stop = true ∧
    InRow n.span.start n.children n.span.stop

instance (text : List Char) (n : Node) : Decidable (n.Stands text) :=
  inferInstanceAs (Decidable (_ ∧ _))

/-- The nodes of a tree are in a text when each of them stands in it by itself. -/
theorem inText_iff_forall_mem_nodes {text : List Char} {root : Node} :
    root.InText text ↔ ∀ n ∈ root.nodes, n.Stands text := by
  constructor
  · intro h n hn
    have hn := Node.inherited_of_mem_nodes (fun _ h _ hc => h.child hc) h hn
    exact ⟨hn.start_boundary, hn.stop_boundary, hn.row⟩
  · -- Induction on the size of the tree, whose children are smaller
    intro h
    obtain ⟨hstart, hstop, hrow⟩ := h root root.self_mem_nodes
    have hchildren : ∀ c ∈ root.children, c.InText text := fun c hc =>
      inText_iff_forall_mem_nodes.2 fun n hn => h n (Node.mem_nodes.2 (.inr ⟨c, hc, hn⟩))
    cases root
    exact .mk hstart hstop hrow hchildren
termination_by root.size
decreasing_by exact Node.size_lt_of_mem_children hc

instance (text : List Char) (n : Node) : Decidable (n.InText text) :=
  decidable_of_iff _ inText_iff_forall_mem_nodes.symm

/-! ## Recovering a given tree -/

/-- Recovers the tree `root` from one text, if it is one in that text, and gives up all others. -/
@[reducible] def Recovery.only (text : List Char) (root : Node) : Recovery where
  recover cs := if cs = text ∧ root.InText text then root else givesUp.recover cs
  inText cs := by
    split
    case isTrue h => exact h.1.symm ▸ h.2
    case isFalse => exact givesUp.inText cs

/-- Any tree whose nodes are in a text that the grammar does not accept may be recovered from it. -/
theorem ofText_only {text : List Char} {root : Node} (hroot : root.InText text)
    (herrors : SyntaxTree.statements? text = none) :
    @SyntaxTree.ofText (.only text root) text = ⟨root, true⟩ := by
  simp only [SyntaxTree.ofText, herrors]
  exact congrArg (SyntaxTree.mk · true) (if_pos ⟨rfl, hroot⟩)

namespace Node

mutual

/-- The node with all its offsets changed. -/
def moved (f : Nat → Nat) : Node → Node
  | mk k l s cs => mk k l ⟨f s.start, f s.stop⟩ (movedAll f cs)

def movedAll (f : Nat → Nat) : List Node → List Node
  | [] => []
  | n :: ns => moved f n :: movedAll f ns

end

end Node

/-- The tree of a parser that reads some nodes, skips some where they may not stand, and goes on with
others. -/
def Node.resumed (stop : Nat) (kept skipped rest : List Node) : Node :=
  let lo := (skipped.head?.map fun n => n.span.start).getD stop
  let hi := (skipped.getLast?.map fun n => n.span.stop).getD stop
  .mk .program none ⟨0, stop⟩ (kept ++ .mk .error none ⟨lo, hi⟩ skipped :: rest)

/-! ## Trees that are put together -/

namespace Node

/-- A node that is moved covers the range that is moved. -/
@[simp] theorem span_moved (f : Nat → Nat) (n : Node) :
    (n.moved f).span = ⟨f n.span.start, f n.span.stop⟩ := by
  cases n
  rw [moved]
  rfl

/-- Nodes are moved one by one. -/
theorem movedAll_eq_map (f : Nat → Nat) (ns : List Node) : movedAll f ns = ns.map (moved f) := by
  induction ns with
  | nil => rw [movedAll, List.map_nil]
  | cons n ns ih => rw [movedAll, List.map_cons, ih]

end Node

/-- Nodes that stand one behind the other do so wherever they are moved. -/
theorem InRow.movedAll {lo hi : Nat} {ns : List Node} (h : InRow lo ns hi) (d : Nat) :
    InRow (d + lo) (Node.movedAll (d + ·) ns) (d + hi) := by
  induction ns generalizing lo with
  | nil =>
    rw [Node.movedAll]
    exact Nat.add_le_add_left h d
  | cons n ns ih =>
    obtain ⟨hlo, hn, hns⟩ := h
    rw [Node.movedAll, InRow, Node.span_moved]
    exact ⟨Nat.add_le_add_left hlo d, Nat.add_le_add_left hn d, ih hns⟩

namespace Node.InText

variable {text : List Char} {n : Node}

/-- A node in a text is in every text that goes on behind it. -/
theorem append (h : n.InText text) (back : List Char) : n.InText (text ++ back) := by
  induction h with
  | mk start stop row _ ih =>
    refine .mk ?_ ?_ row ih
    · rwa [isBoundary_append_of_le (le_of_isBoundary start)]
    · rwa [isBoundary_append_of_le (le_of_isBoundary stop)]

/-- A node in a text is in every text that ends with it, moved by what stands in front. -/
theorem moved (h : n.InText text) (front : List Char) :
    (n.moved (utf8Length front + ·)).InText (front ++ text) := by
  induction h with
  | mk start stop row _ ih =>
    rw [Node.moved]
    refine .mk ?_ ?_ (row.movedAll _) fun m hm => ?_
    · rwa [isBoundary_append]
    · rwa [isBoundary_append]
    · rw [movedAll_eq_map] at hm
      obtain ⟨c, hc, rfl⟩ := List.mem_map.1 hm
      exact ih c hc

end Node.InText

/-- The statements of two texts, the second ones moved, are in the text that the two make up. -/
theorem statements_append {front back : List Char} {ms ns : List Node}
    (hms : SyntaxTree.statements? front = some ms) (hns : SyntaxTree.statements? back = some ns) :
    InRow 0 (ms ++ Node.movedAll (utf8Length front + ·) ns) (utf8Length (front ++ back)) ∧
      ∀ n ∈ ms ++ Node.movedAll (utf8Length front + ·) ns, n.InText (front ++ back) := by
  obtain ⟨hfront, hmsPlaced⟩ := statements_placed hms
  obtain ⟨hback, hnsPlaced⟩ := statements_placed hns
  constructor
  · rw [utf8Length_append]
    exact inRow_append.2 ⟨_, hfront, hback.movedAll _⟩
  · intro n hn
    rcases List.mem_append.1 hn with hn | hn
    · exact (hmsPlaced n hn).inText.append back
    · rw [Node.movedAll_eq_map] at hn
      obtain ⟨m, hm, rfl⟩ := List.mem_map.1 hn
      exact (hnsPlaced m hm).inText.moved front

/-- A tree that is put together of nodes in a text is in the text, if they stand in it in their order and
some of them are skipped. -/
theorem inText_resumed {text : List Char} {kept skipped rest : List Node} (hskipped : skipped ≠ [])
    (hrow : InRow 0 (kept ++ (skipped ++ rest)) (utf8Length text))
    (hns : ∀ n ∈ kept ++ (skipped ++ rest), n.InText text) :
    (Node.resumed (utf8Length text) kept skipped rest).InText text := by
  obtain ⟨lo, hkept, hbehind⟩ := inRow_append.1 hrow
  obtain ⟨hi, hmiddle, hrest⟩ := inRow_append.1 hbehind
  obtain ⟨hnsKept, hnsBehind⟩ := List.forall_mem_append.1 hns
  obtain ⟨hnsSkipped, hnsRest⟩ := List.forall_mem_append.1 hnsBehind
  obtain ⟨first, others, rfl⟩ := List.exists_cons_of_ne_nil hskipped
  -- What is skipped goes from the start of its first node to the end of its last one
  have hlast := List.dropLast_concat_getLast hskipped
  generalize (first :: others).getLast hskipped = last at hlast
  have hinner : InRow first.span.start (first :: others) last.span.stop ∧ last.span.stop ≤ hi := by
    have hcut : InRow first.span.start (first :: others) hi := ⟨Nat.le_refl _, hmiddle.2⟩
    rw [← hlast] at hcut ⊢
    obtain ⟨hinner, hends, hle⟩ := inRow_concat.1 hcut
    exact ⟨inRow_concat.2 ⟨hinner, hends, Nat.le_refl _⟩, hle⟩
  have herror : (Node.mk .error none ⟨first.span.start, last.span.stop⟩ (first :: others)).InText text :=
    .mk (hnsSkipped first List.mem_cons_self).start_boundary
      (hnsSkipped last (hlast ▸ List.mem_concat_self)).stop_boundary hinner.1 hnsSkipped
  have hresumed : Node.resumed (utf8Length text) kept (first :: others) rest =
      .mk .program none ⟨0, utf8Length text⟩
        (kept ++ .mk .error none ⟨first.span.start, last.span.stop⟩ (first :: others) :: rest) := by
    rw [Node.resumed, List.head?_cons, ← hlast, List.getLast?_concat]
    rfl
  rw [hresumed]
  refine .mk (isBoundary_zero text) (isBoundary_utf8Length text) ?_ ?_
  · exact inRow_append.2 ⟨lo, hkept, hmiddle.1, hinner.1.le, hrest.of_le hinner.2⟩
  · exact List.forall_mem_append.2 ⟨hnsKept, List.forall_mem_cons.2 ⟨herror, hnsRest⟩⟩

end Enlist.Syntax
