import Enlist.Syntax.Walk

/-!
# Tours

A `Tour` is what a visitor is shown of a tree, and what comes of it. `tour` goes over a tree by recursion: a
node is shown first, and then, where the visitor descends, the trees of its children, one behind the other,
until the visitor stops. A walk has no such recursion: it moves a cursor. What it is about to show is what a
tour of the trees ahead of the cursor shows.

## Key results

- `walkFrom_eq`: a walk from a cursor, and a tour of what is ahead of it
- `walk_eq` / `walk_recording`: a walk does what a tour does, call by call
- `endsAtStop_tour`: a visitor that stops is shown nothing more
- `tour_skippingLeaves`: it does not matter whether a visitor descends into a leaf
-/

namespace Enlist.Syntax

variable {σ : Type}

/-- What a visitor is shown, and what comes of it. -/
structure Tour (σ : Type) where
  /-- The nodes that are shown, in order, and what the visitor answers to each. -/
  calls : List (Node × Step)
  /-- What the visitor has gathered in the end. -/
  gathered : σ
  /-- The visitor has stopped. -/
  stopped : Bool

namespace Tour

/-- One tour and then another one, unless the visitor stops in the first. -/
def andThen (t : Tour σ) (rest : σ → Tour σ) : Tour σ :=
  if t.stopped then t
  else { rest t.gathered with calls := t.calls ++ (rest t.gathered).calls }

/-- Behind a stop nothing is shown. -/
theorem andThen_of_stopped {t : Tour σ} (h : t.stopped = true) (rest : σ → Tour σ) :
    t.andThen rest = t :=
  if_pos h

/-- A tour that was not stopped goes on with the rest. -/
theorem andThen_of_not_stopped {t : Tour σ} (h : t.stopped = false) (rest : σ → Tour σ) :
    t.andThen rest = { rest t.gathered with calls := t.calls ++ (rest t.gathered).calls } :=
  if_neg (by simp [h])

theorem andThen_assoc (t : Tour σ) (f g : σ → Tour σ) :
    (t.andThen f).andThen g = t.andThen fun s => (f s).andThen g := by
  cases ht : t.stopped with
  | true => rw [andThen_of_stopped ht, andThen_of_stopped ht, andThen_of_stopped ht]
  | false =>
    rw [andThen_of_not_stopped ht, andThen_of_not_stopped ht]
    cases hf : (f t.gathered).stopped with
    | true => rw [andThen_of_stopped (by exact hf), andThen_of_stopped hf]
    | false =>
      rw [andThen_of_not_stopped (by exact hf), andThen_of_not_stopped hf]
      simp only [List.append_assoc]

end Tour

/-! ## Tours by recursion -/

mutual

/-- Shows a tree to a visitor. -/
def tour (visit : Visitor σ) : Node → σ → Tour σ
  | .mk k l span cs, s =>
    match visit s (.mk k l span cs) with
    | (s', .stop) => ⟨[(.mk k l span cs, .stop)], s', true⟩
    | (s', .skip) => ⟨[(.mk k l span cs, .skip)], s', false⟩
    | (s', .descend) =>
      Tour.andThen ⟨[(.mk k l span cs, .descend)], s', false⟩ fun s => tourAll visit cs s

/-- Shows trees to a visitor, one behind the other. -/
def tourAll (visit : Visitor σ) : List Node → σ → Tour σ
  | [], s => ⟨[], s, false⟩
  | n :: ns, s => (tour visit n s).andThen fun s => tourAll visit ns s

end

variable (visit : Visitor σ)

/-- A node is shown first, and what comes next depends on the answer. -/
theorem tour_eq (n : Node) (s : σ) : tour visit n s =
    match visit s n with
    | (s', .stop) => ⟨[(n, .stop)], s', true⟩
    | (s', .skip) => ⟨[(n, .skip)], s', false⟩
    | (s', .descend) => Tour.andThen ⟨[(n, .descend)], s', false⟩ (tourAll visit n.children) := by
  cases n
  rw [tour]
  rfl

theorem tourAll_append (as bs : List Node) (s : σ) :
    tourAll visit (as ++ bs) s = (tourAll visit as s).andThen (tourAll visit bs) := by
  induction as generalizing s with
  | nil => rw [List.nil_append, tourAll, Tour.andThen_of_not_stopped rfl]; rfl
  | cons a as ih =>
    rw [List.cons_append, tourAll, tourAll, Tour.andThen_assoc]
    simp only [ih]

/-! ## Walks -/

/-- A tour of what is ahead of a cursor shows the node at the cursor, and then what is left ahead. -/
theorem tourAll_pending (c : TreeCursor) (s : σ) :
    tourAll visit c.pending s =
      let rest := tourAll visit (c.left (visit s c.node).2) (visit s c.node).1
      { calls := (c.node, (visit s c.node).2) :: rest.calls
        gathered := rest.gathered
        stopped := (visit s c.node).2 == .stop || rest.stopped } := by
  rw [TreeCursor.pending, tourAll, tour_eq]
  obtain ⟨s', step⟩ := visit s c.node
  cases step with
  | descend =>
    simp only [TreeCursor.left]
    rw [Tour.andThen_assoc, Tour.andThen_of_not_stopped rfl, tourAll_append]
    rfl
  | skip => rw [Tour.andThen_of_not_stopped rfl]; rfl
  | stop => rw [Tour.andThen_of_stopped rfl]; rfl

/-- A walk from a cursor gathers what a tour of all that is ahead of it gathers. -/
theorem walkFrom_eq (c : TreeCursor) (s : σ) :
    walkFrom visit c s = (tourAll visit c.pending s).gathered := by
  -- Induction along the walk; each move of the cursor leaves ahead what the tour has still to show
  induction c, s using walkFrom.induct visit with
  | case1 c s s' step hvisit next hnext ih =>
    have hpending : next.pending = c.left step := by
      rw [← c.pending_next? step, hnext]
      rfl
    rw [walkFrom_step, tourAll_pending, hvisit]
    simp only [hnext, ih, hpending]
  | case2 c s s' step hvisit hnone =>
    have hpending : [] = c.left step := by
      rw [← c.pending_next? step, hnone]
      rfl
    rw [walkFrom_step, tourAll_pending, hvisit]
    simp only [hnone, ← hpending, tourAll]

/-- A walk gathers what a tour gathers. -/
theorem walk_eq (root : Node) (s : σ) : walk visit root s = (tour visit root s).gathered := by
  rw [walk, walkFrom_eq, TreeCursor.pending]
  show ((tour visit root s).andThen fun s => ⟨[], s, false⟩).gathered = _
  rw [Tour.andThen]
  split <;> rfl

/-! ## Calls -/

/-- The visitor that does what `visit` does, and writes down each call. -/
def recording : Visitor (List (Node × Step) × σ) := fun (calls, s) n =>
  let (s', step) := visit s n
  ((calls ++ [(n, step)], s'), step)

/-- The tour of a visitor that has written down `before` and goes on to write down its calls. -/
def Tour.recorded (before : List (Node × Step)) (t : Tour σ) : Tour (List (Node × Step) × σ) :=
  { t with gathered := (before ++ t.calls, t.gathered) }

/-- Recording goes on from one tour to the next. -/
private theorem Tour.andThen_recorded (before : List (Node × Step)) (t : Tour σ) {rest : σ → Tour σ}
    {rest' : List (Node × Step) × σ → Tour (List (Node × Step) × σ)}
    (h : ∀ calls s, rest' (calls, s) = (rest s).recorded calls) :
    (t.recorded before).andThen rest' = (t.andThen rest).recorded before := by
  cases ht : t.stopped with
  | true => rw [andThen_of_stopped (by exact ht), andThen_of_stopped ht]
  | false =>
    rw [andThen_of_not_stopped (by exact ht), andThen_of_not_stopped ht]
    simp only [recorded, h, List.append_assoc]

mutual

/-- A visitor that records is shown what it is shown without that. -/
private theorem tour_recording : ∀ (n : Node) (before : List (Node × Step)) (s : σ),
    tour (recording visit) n (before, s) = (tour visit n s).recorded before
  | .mk k l span cs, before, s => by
    rw [tour_eq, tour_eq, recording]
    obtain ⟨s', step⟩ := visit s (.mk k l span cs)
    cases step with
    | descend =>
      have hfirst := Tour.andThen_recorded before ⟨[(.mk k l span cs, .descend)], s', false⟩
        fun calls s => tourAll_recording cs calls s
      exact hfirst
    | skip => rfl
    | stop => rfl

/-- A visitor that records is shown what it is shown without that, node by node. -/
private theorem tourAll_recording : ∀ (ns : List Node) (before : List (Node × Step)) (s : σ),
    tourAll (recording visit) ns (before, s) = (tourAll visit ns s).recorded before
  | [], before, s => by simp [tourAll, Tour.recorded]
  | n :: ns, before, s => by
    rw [tourAll, tourAll, tour_recording n]
    exact Tour.andThen_recorded before _ fun calls s => tourAll_recording ns calls s

end

/-- A walk calls the visitor as a tour does: on the same nodes, in the same order, with the same
answers. -/
theorem walk_recording (root : Node) (s : σ) :
    walk (recording visit) root ([], s) = ((tour visit root s).calls, (tour visit root s).gathered) := by
  rw [walk_eq, tour_recording]
  rfl

/-! ## Where a tour ends -/

/-- Only the last call of a tour can be one that stops it. -/
structure Tour.EndsAtStop (t : Tour σ) : Prop where
  last : t.calls.Pairwise fun call _ => call.2 ≠ .stop
  goes_on : t.stopped = false → ∀ call ∈ t.calls, call.2 ≠ .stop

/-- Two tours with no call behind a stop have none when they are put together. -/
private theorem Tour.EndsAtStop.andThen {t : Tour σ} (ht : t.EndsAtStop) {rest : σ → Tour σ}
    (hrest : ∀ s, (rest s).EndsAtStop) : (t.andThen rest).EndsAtStop := by
  cases hstopped : t.stopped with
  | true => rwa [andThen_of_stopped hstopped]
  | false =>
    rw [andThen_of_not_stopped hstopped]
    have hfront := ht.goes_on hstopped
    refine ⟨List.pairwise_append.2 ⟨ht.last, (hrest _).last, fun call hcall _ _ => hfront call hcall⟩,
      fun hnot => List.forall_mem_append.2 ⟨hfront, (hrest _).goes_on hnot⟩⟩

mutual

/-- In a tour no call stands behind a stop. -/
theorem endsAtStop_tour : ∀ (n : Node) (s : σ), (tour visit n s).EndsAtStop
  | .mk k l span cs, s => by
    rw [tour_eq]
    obtain ⟨s', step⟩ := visit s (.mk k l span cs)
    cases step with
    | descend =>
      have hfirst : Tour.EndsAtStop ⟨[(.mk k l span cs, .descend)], s', false⟩ :=
        ⟨List.pairwise_singleton _ _, by simp⟩
      exact hfirst.andThen fun s => endsAtStop_tourAll cs s
    | skip => exact ⟨List.pairwise_singleton _ _, by simp⟩
    | stop => exact ⟨List.pairwise_singleton _ _, by simp⟩

/-- In a tour of several nodes no call stands behind a stop. -/
private theorem endsAtStop_tourAll : ∀ (ns : List Node) (s : σ), (tourAll visit ns s).EndsAtStop
  | [], s => ⟨List.Pairwise.nil, by simp [tourAll]⟩
  | n :: ns, s => by
    rw [tourAll]
    exact (endsAtStop_tour n s).andThen fun s => endsAtStop_tourAll ns s

end

/-! ## Leaves -/

/-- The visitor that does what `visit` does, but passes over a leaf where `visit` descends into it. -/
def skippingLeaves : Visitor σ := fun s n =>
  let (s', step) := visit s n
  (s', if n.children.isEmpty && step == .descend then .skip else step)

/-- Two tours show the same nodes and come to the same. -/
structure Tour.Agrees (t u : Tour σ) : Prop where
  nodes : t.calls.map Prod.fst = u.calls.map Prod.fst
  gathered : t.gathered = u.gathered
  stopped : t.stopped = u.stopped

/-- Tours that agree do so when they are put together. -/
private theorem Tour.Agrees.andThen {t u : Tour σ} (h : t.Agrees u) {f g : σ → Tour σ}
    (hfg : ∀ s, (f s).Agrees (g s)) : (t.andThen f).Agrees (u.andThen g) := by
  cases ht : t.stopped with
  | true =>
    rw [andThen_of_stopped ht, andThen_of_stopped (h.stopped ▸ ht)]
    exact h
  | false =>
    rw [andThen_of_not_stopped ht, andThen_of_not_stopped (h.stopped ▸ ht), h.gathered]
    obtain ⟨hnodes, hgathered, hstopped⟩ := hfg u.gathered
    exact ⟨by simp only [List.map_append, h.nodes, hnodes], hgathered, hstopped⟩

mutual

/-- For leaves it does not matter whether the visitor descends. -/
theorem tour_skippingLeaves : ∀ (n : Node) (s : σ),
    (tour (skippingLeaves visit) n s).Agrees (tour visit n s)
  | .mk k l span cs, s => by
    rw [tour_eq, tour_eq, skippingLeaves]
    obtain ⟨s', step⟩ := visit s (.mk k l span cs)
    cases step with
    | skip | stop => cases cs <;> exact ⟨rfl, rfl, rfl⟩
    | descend =>
      cases cs with
      -- Below a leaf there is nothing to show
      | nil => exact ⟨rfl, rfl, rfl⟩
      | cons c cs =>
        have hfirst : Tour.Agrees ⟨[(.mk k l span (c :: cs), .descend)], s', false⟩
          ⟨[(.mk k l span (c :: cs), .descend)], s', false⟩ := ⟨rfl, rfl, rfl⟩
        exact hfirst.andThen fun s => tourAll_skippingLeaves (c :: cs) s

/-- For leaves it does not matter whether the visitor descends, node by node. -/
private theorem tourAll_skippingLeaves : ∀ (ns : List Node) (s : σ),
    (tourAll (skippingLeaves visit) ns s).Agrees (tourAll visit ns s)
  | [], s => ⟨rfl, rfl, rfl⟩
  | n :: ns, s => by
    rw [tourAll, tourAll]
    exact (tour_skippingLeaves n s).andThen fun s => tourAll_skippingLeaves ns s

end

end Enlist.Syntax
