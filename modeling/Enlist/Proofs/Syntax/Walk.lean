import Enlist.Proofs.Syntax.Tour

/-!
# What a walk reaches

`Node.reached` lists the nodes of a tree that a walk sees which looks into some nodes and passes over the
others, in the order of the text, parents before their children. The moves of its cursor do not show in
what it finds.

## Key results

- `findFirst_eq_findSome?`: a walk that looks for a value finds the first in the list
- `findSome?_reached`: what is passed over does not matter where it has no value
- `walk_eq_tour`: a walk and a tour of the same tree
-/

namespace Enlist.Syntax

namespace Node

mutual

/-- The nodes of a tree in the order of the text, its root first. Below a node there are those that are
reached where `inside` allows it. -/
def reached (inside : Node → Bool) : Node → List Node
  | mk k l s cs => mk k l s cs :: if inside (mk k l s cs) then reachedAll inside cs else []

/-- The nodes of a list of trees, one tree behind the other. -/
def reachedAll (inside : Node → Bool) : List Node → List Node
  | [] => []
  | n :: ns => reached inside n ++ reachedAll inside ns

end

/-- All nodes of a tree. -/
def nodes (n : Node) : List Node :=
  n.reached fun _ => true

/-- A node is reached, and what is below it if it is gone into. -/
theorem reached_eq (inside : Node → Bool) (n : Node) :
    n.reached inside = n :: if inside n then reachedAll inside n.children else [] := by
  cases n
  rw [reached, children]

/-- A node is reached from several ones if it is from one of them. -/
theorem mem_reachedAll {inside : Node → Bool} {m : Node} {ns : List Node} :
    m ∈ reachedAll inside ns ↔ ∃ n ∈ ns, m ∈ n.reached inside := by
  induction ns with
  | nil => simp [reachedAll]
  | cons n ns ih => simp [reachedAll, ih]

/-- The nodes of a tree are its root and those of the trees below it. -/
theorem mem_nodes {m n : Node} : m ∈ n.nodes ↔ m = n ∨ ∃ c ∈ n.children, m ∈ c.nodes := by
  rw [nodes, reached_eq, if_pos rfl, List.mem_cons, mem_reachedAll]
  rfl

/-- A node is among its nodes. -/
theorem self_mem_nodes (n : Node) : n ∈ n.nodes :=
  mem_nodes.2 (.inl rfl)

/-- A child is smaller than its parent. -/
theorem size_lt_of_mem_children {n c : Node} (h : c ∈ n.children) : c.size < n.size := by
  obtain ⟨front, back, hchildren⟩ := List.append_of_mem h
  rw [size_eq n, hchildren, sizeAll_append, sizeAll]
  omega

/-- The children of the nodes of a tree are nodes of the tree. -/
theorem child_mem_nodes {root n c : Node} (hn : n ∈ root.nodes) (hc : c ∈ n.children) :
    c ∈ root.nodes := by
  rcases mem_nodes.1 hn with rfl | ⟨d, hd, hn⟩
  · exact mem_nodes.2 (.inr ⟨c, hc, self_mem_nodes c⟩)
  · exact mem_nodes.2 (.inr ⟨d, hd, child_mem_nodes hn hc⟩)
termination_by root.size
decreasing_by exact size_lt_of_mem_children hd

/-- A node that is reached is one of the tree. -/
theorem mem_nodes_of_mem_reached {inside : Node → Bool} {n m : Node} (h : m ∈ n.reached inside) :
    m ∈ n.nodes := by
  rw [reached_eq, List.mem_cons] at h
  rw [mem_nodes]
  refine h.imp_right fun h => ?_
  split at h
  case isTrue =>
    obtain ⟨c, hc, hm⟩ := mem_reachedAll.1 h
    exact ⟨c, hc, mem_nodes_of_mem_reached hm⟩
  case isFalse => exact nomatch h
termination_by n.size
decreasing_by exact size_lt_of_mem_children hc

/-- The nodes of a tree have what nodes hand down to their children, if the tree has it. -/
theorem inherited_of_mem_nodes {P : Node → Prop} (hchild : ∀ n, P n → ∀ c ∈ n.children, P c)
    {root n : Node} (hroot : P root) (hn : n ∈ root.nodes) : P n := by
  rcases mem_nodes.1 hn with rfl | ⟨c, hc, hn⟩
  · exact hroot
  · exact inherited_of_mem_nodes hchild (hchild root hroot c hc) hn
termination_by root.size
decreasing_by exact size_lt_of_mem_children hc

end Node

open Node

variable {α : Type} {find : Node → Option α} {inside : Node → Bool}

/-- The visitor that looks for a value. -/
private def seeking (find : Node → Option α) (inside : Node → Bool) : Visitor (Option α) := fun _ n =>
  match find n with
  | some a => (some a, .stop)
  | none => (none, if inside n then .descend else .skip)

/-- A tour of a tree in search of a value ends with the first that is reached. -/
private structure Seeks (t : Tour (Option α)) (ns : List Node) (find : Node → Option α) : Prop where
  gathered : t.gathered = ns.findSome? find
  stopped : t.stopped = (ns.findSome? find).isSome

/-- Seeking among some nodes and then among others is seeking among all. -/
private theorem Seeks.andThen {t : Tour (Option α)} {ms ns : List Node} (ht : Seeks t ms find)
    {rest : Option α → Tour (Option α)} (hrest : Seeks (rest none) ns find) :
    Seeks (t.andThen rest) (ms ++ ns) find := by
  obtain ⟨hgathered, hstopped⟩ := ht
  -- A search that has stopped has found what it looks for
  cases hfind : ms.findSome? find with
  | some a =>
    rw [hfind] at hgathered hstopped
    rw [Tour.andThen_of_stopped hstopped]
    exact ⟨by rw [hgathered, List.findSome?_append, hfind]; rfl,
      by rw [hstopped, List.findSome?_append, hfind]; rfl⟩
  | none =>
    rw [hfind] at hgathered hstopped
    rw [Tour.andThen_of_not_stopped hstopped, hgathered]
    exact ⟨by rw [List.findSome?_append, hfind]; exact hrest.gathered,
      by rw [List.findSome?_append, hfind]; exact hrest.stopped⟩

mutual

/-- A tour seeks among the nodes that it reaches. -/
private theorem seeks_tour : ∀ n : Node,
    Seeks (tour (seeking find inside) n none) (n.reached inside) find
  | .mk k l span cs => by
    rw [tour_eq, seeking, reached_eq]
    cases hfind : find (.mk k l span cs) with
    | some a => exact ⟨by rw [List.findSome?_cons, hfind], by rw [List.findSome?_cons, hfind]; rfl⟩
    | none =>
      have hfirst : Seeks ⟨[(.mk k l span cs, .descend)], none, false⟩ [.mk k l span cs] find :=
        ⟨by rw [List.findSome?_singleton, hfind], by rw [List.findSome?_singleton, hfind]; rfl⟩
      cases inside (.mk k l span cs) with
      | true => exact hfirst.andThen (seeks_tourAll cs)
      | false => exact ⟨hfirst.gathered, hfirst.stopped⟩

/-- A tour of several nodes seeks among all that it reaches. -/
private theorem seeks_tourAll : ∀ ns : List Node,
    Seeks (tourAll (seeking find inside) ns none) (reachedAll inside ns) find
  | [] => ⟨rfl, rfl⟩
  | n :: ns => by
    rw [tourAll, reachedAll]
    exact (seeks_tour n).andThen (seeks_tourAll ns)

end

/-- A walk that looks for a value finds the first that is reached. -/
theorem findFirst_eq_findSome? (find : Node → Option α) (inside : Node → Bool) (root : Node) :
    findFirst find inside root = (root.reached inside).findSome? find :=
  (walk_eq (seeking find inside) root none).trans (seeks_tour root).gathered

mutual

/-- Whether a walk looks below nodes that have no value below them does not matter. -/
theorem findSome?_reached : ∀ n : Node,
    (∀ m ∈ n.nodes, inside m = false → ∀ p ∈ m.nodes, find p = none) →
    (n.reached inside).findSome? find = n.nodes.findSome? find
  | .mk k l s cs, h => by
    have hnodes : (mk k l s cs).nodes = mk k l s cs :: reachedAll (fun _ => true) cs := by
      rw [nodes, reached_eq, if_pos rfl, children]
    rw [hnodes] at h
    obtain ⟨hroot, hbelow⟩ := List.forall_mem_cons.1 h
    rw [reached_eq, hnodes, List.findSome?_cons, List.findSome?_cons]
    cases hfind : find (mk k l s cs) with
    | some a => rfl
    | none =>
      cases hin : inside (mk k l s cs) with
      | true => exact findSome?_reachedAll cs hbelow
      | false =>
        -- What is passed over has no value
        have hnone := List.findSome?_eq_none_iff.2 (hroot hin)
        rw [hnodes, List.findSome?_cons, hfind] at hnone
        exact hnone.symm

/-- Passing over nodes in which nothing is found changes nothing in what is found. -/
theorem findSome?_reachedAll : ∀ ns : List Node,
    (∀ m ∈ reachedAll (fun _ => true) ns, inside m = false → ∀ p ∈ m.nodes, find p = none) →
    (reachedAll inside ns).findSome? find = (reachedAll (fun _ => true) ns).findSome? find
  | [], _ => rfl
  | n :: ns, h => by
    rw [reachedAll] at h
    obtain ⟨hn, hns⟩ := List.forall_mem_append.1 h
    rw [reachedAll, reachedAll, List.findSome?_append, List.findSome?_append, findSome?_reached n hn,
      findSome?_reachedAll ns hns, nodes]

end

/-! ## What a walk sees -/

section

variable {σ : Type} (visit : Visitor σ)

mutual

/-- A tour shows nodes of the tree in their order, none of them twice. -/
private theorem tour_sublist : ∀ (n : Node) (s : σ),
    ((tour visit n s).calls.map Prod.fst).Sublist n.nodes
  | .mk k l span cs, s => by
    rw [tour_eq, nodes, reached_eq, if_pos rfl]
    obtain ⟨s', step⟩ := visit s (.mk k l span cs)
    cases step with
    | descend =>
      dsimp only
      rw [Tour.andThen_of_not_stopped rfl]
      exact (tourAll_sublist cs s').cons_cons _
    | skip => exact (List.nil_sublist _).cons_cons _
    | stop => exact (List.nil_sublist _).cons_cons _

/-- A tour of several nodes shows what is in them in order, none of it twice. -/
private theorem tourAll_sublist : ∀ (ns : List Node) (s : σ),
    ((tourAll visit ns s).calls.map Prod.fst).Sublist (reachedAll (fun _ => true) ns)
  | [], s => List.nil_sublist _
  | n :: ns, s => by
    have hn := tour_sublist n s
    rw [tourAll, reachedAll]
    cases ht : (tour visit n s).stopped with
    | true =>
      rw [Tour.andThen_of_stopped ht]
      exact hn.trans (List.sublist_append_left _ _)
    | false =>
      rw [Tour.andThen_of_not_stopped ht, List.map_append]
      exact hn.append (tourAll_sublist ns _)

end

mutual

/-- The size of a node counts its nodes. -/
private theorem length_nodes : ∀ n : Node, n.nodes.length = n.size
  | .mk k l span cs => by
    rw [nodes, reached_eq, if_pos rfl, List.length_cons, size_eq, Nat.add_comm]
    exact congrArg (1 + ·) (length_reachedAll cs)

/-- The sizes of several nodes count the nodes in them. -/
private theorem length_reachedAll : ∀ ns : List Node,
    (reachedAll (fun _ => true) ns).length = sizeAll ns
  | [] => rfl
  | n :: ns => by
    rw [reachedAll, List.length_append, length_reachedAll ns, sizeAll]
    exact congrArg (· + sizeAll ns) (length_nodes n)

end

/-- A walk calls the visitor on the nodes that a tour by recursion shows, in the same order and with the
same answers, and comes to the same. The nodes that it sees are some of those of the tree, in the order of
the text and none more than once; behind a call that the visitor answers with `stop` there is no other; and
it makes no difference whether the visitor descends into a leaf or passes it over. -/
theorem walk_eq_tour (root : Node) (s : σ) :
    let t := tour visit root s
    walk visit root s = t.gathered ∧
      walk (recording visit) root ([], s) = (t.calls, t.gathered) ∧
      (t.calls.map Prod.fst).Sublist root.nodes ∧ t.calls.length ≤ root.size ∧
      (∀ before call after, t.calls = before ++ call :: after → call.2 = .stop → after = []) ∧
      (tour (skippingLeaves visit) root s).calls.map Prod.fst = t.calls.map Prod.fst ∧
      walk (skippingLeaves visit) root s = walk visit root s := by
  intro t
  have hsublist := tour_sublist visit root s
  have hagrees := tour_skippingLeaves visit root s
  refine ⟨walk_eq visit root s, walk_recording visit root s, hsublist, ?_, ?_, hagrees.nodes, ?_⟩
  -- No node is called twice
  · have hlength := hsublist.length_le
    rwa [List.length_map, length_nodes] at hlength
  -- A call that says to stop is the last one
  · intro before call after hcalls hstop
    have hlast := (endsAtStop_tour visit root s).last
    rw [hcalls] at hlast
    cases after with
    | nil => rfl
    | cons next after =>
      have hcall := (List.pairwise_cons.1 (List.pairwise_append.1 hlast).2.1).1
      exact absurd hstop (hcall next List.mem_cons_self)
  · rw [walk_eq, walk_eq, hagrees.gathered]

end

end Enlist.Syntax
