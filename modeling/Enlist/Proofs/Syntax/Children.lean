import Enlist.Proofs.Syntax.Reading
import Enlist.Syntax.Tree
import Mathlib.Data.List.TakeWhile
import Mathlib.Data.Option.NAry

/-!
# How many children there are

A form says how many nodes of a sort it reads at most (`Form.most`), and so the forms of a grammar say
how many children of a sort a node has. A `Shape` is such a demand on the nodes of a tree, and `Form.obeys`
checks it form by form. A child that stands at most once under a node is the one that a search for it
finds.

## Key results

- `Derives.countP_le`: a form adds no more nodes of a sort than it says
- `Derives.obeys`: the nodes that are read have the shape that the forms of the grammar have
- `obeys_root`: the nodes of a text have it
- `Node.Obeys.child?_eq_some_iff`: a child with a label that is given once
-/

namespace Enlist.Syntax

variable {R : Type} {rules : R → Form R}

/-! ## Sorts of nodes -/

/-- A sort of nodes, told by their kind and by what they are to their parent. -/
abbrev NodeSort := Kind → Option Label → Bool

def NodeSort.ofKind (k : Kind) : NodeSort := fun k' _ => k' == k

def NodeSort.ofLabel (l : Label) : NodeSort := fun _ l' => l' == some l

namespace Node

/-- The node is of the sort. Comments are of no sort. -/
def isOf (p : NodeSort) (n : Node) : Bool :=
  p n.kind n.label && !n.kind.isExtra

def IsComment (n : Node) : Prop :=
  ∃ start stop, n = commentNode start stop

/-- A comment is extra. -/
theorem IsComment.isExtra {n : Node} (h : n.IsComment) : n.kind.isExtra = true := by
  obtain ⟨start, stop, rfl⟩ := h
  rfl

theorem isOf_labelled (p : NodeSort) (l : Label) (n : Node) :
    (n.labelled l).isOf p = n.isOf fun k _ => p k (some l) := by
  obtain ⟨k, l', s, cs⟩ := n
  cases hk : k.isExtra <;> simp [labelled, isOf, kind, label, hk]

end Node

/-- A node counts at most when its kind and label are of the sort. -/
theorem ite_isOf_le (p : NodeSort) (k : Kind) (l : Option Label) (s : Span) (cs : List Node) :
    (if (Node.mk k l s cs).isOf p then 1 else 0) ≤ if p k l then 1 else 0 := by
  cases hp : p k l with
  | true =>
    rw [if_pos rfl]
    split <;> omega
  | false =>
    have hnot : (Node.mk k l s cs).isOf p = false := by rw [Node.isOf, Node.kind, Node.label, hp]; rfl
    rw [hnot]

/-- Extra nodes are of no sort that is counted. -/
theorem countP_isOf_of_extra {p : NodeSort} {f : Frame} (h : ∀ n ∈ f, n.kind.isExtra = true) :
    f.countP (Node.isOf p) = 0 := by
  rw [List.countP_eq_zero]
  intro n hn
  simp [Node.isOf, h n hn]

/-- Skipping a gap puts comments on the frame. -/
theorem comments_of_skipGap {g : Gap} {nl : Bool} {i : Nat} {cs : List Char} {f f' : Frame}
    {c' : Cursor} (h : skipGap g nl i cs f = some (f', c')) :
    ∃ gap : Frame, f' = gap ++ f ∧ ∀ n ∈ gap, n.IsComment := by
  -- A comment is a node of the gap; blanks and line breaks leave none
  have hbehind {f : Frame} {start stop : Nat}
      (h : ∃ gap : Frame, f' = gap ++ commentNode start stop :: f ∧ ∀ n ∈ gap, n.IsComment) :
      ∃ gap : Frame, f' = gap ++ f ∧ ∀ n ∈ gap, n.IsComment := by
    obtain ⟨gap, rfl, hgap⟩ := h
    refine ⟨gap ++ [commentNode start stop], by simp, ?_⟩
    exact List.forall_mem_append.2 ⟨hgap, List.forall_mem_singleton.2 ⟨start, stop, rfl⟩⟩
  have hnone {f : Frame} : ∃ gap : Frame, f = gap ++ f ∧ ∀ n ∈ gap, n.IsComment := ⟨[], rfl, by simp⟩
  fun_induction skipGap g nl i cs f
  case case1 ih | case2 ih | case3 ih | case7 ih | case10 ih => exact ih h
  case case4 | case5 => cases h; exact hnone
  case case6 ih | case9 ih => exact hbehind (ih h)
  case case8 => cases h; exact hbehind hnone
  case case11 => cases h

/-- Reading a token puts a leaf on the frame, and comments behind it. -/
theorem leaf_of_shift {k : Kind} {l : Lexeme} {f f' : Frame} {c c' : Cursor}
    (h : c.shift k l f = some (f', c')) :
    ∃ (gap : Frame) (s : Span), f' = gap ++ .mk k none s [] :: f ∧ ∀ n ∈ gap, n.IsComment := by
  simp only [Cursor.shift] at h
  split at h
  case h_2 => cases h
  case h_1 =>
    obtain ⟨gap, hf', hgap⟩ := comments_of_skipGap h
    exact ⟨gap, _, hf', hgap⟩

/-! ## How many nodes a form adds -/

/-- How many nodes there are after any number of additions of at most `n`; none if there is no bound. -/
def repeated : Option Nat → Option Nat
  | some 0 => some 0
  | _ => none

/-- At most how many nodes of the sort the form adds to a frame; none if it does not say. -/
def Form.most (p : NodeSort) : Form R → Option Nat
  | leaf k _ | node k _ | extend k _ _ => some (if p k none then 1 else 0)
  | seq a b => Option.map₂ (· + ·) (a.most p) (b.most p)
  | alt a b => Option.map₂ max (a.most p) (b.most p)
  | many a => repeated (a.most p)
  | labelled l a => a.most fun k _ => p k (some l)
  | grow base step => Option.map₂ (· + ·) (base.most p) (repeated (step.most p))
  | call _ => none
  | empty | ahead _ | absent _ | newLine | sameLine | textEnd => some 0

/-- What may be repeated any number of times is not there at all. -/
theorem repeated_eq_some {o : Option Nat} {n : Nat} (h : repeated o = some n) : o = some 0 ∧ n = 0 := by
  match o, h with
  | some 0, h => exact ⟨rfl, (Option.some.inj h).symm⟩

/-- Nodes are put under a new node without the comments behind them, or they are nothing but comments. -/
theorem wrap_cases (k : Kind) (f : Frame) :
    (Frame.wrap k f = f ∧ ∀ n ∈ f, n.kind.isExtra = true) ∨
      ∃ s, Frame.wrap k f = (f.takeWhile fun n => n.kind.isExtra) ++
        [.mk k none s (f.dropWhile fun n => n.kind.isExtra).reverse] := by
  rw [Frame.wrap]
  split
  case h_1 last rest first _ _ => exact .inr ⟨_, rfl⟩
  case h_2 hcore =>
    refine .inl ⟨rfl, List.dropWhile_eq_nil_iff.1 (Classical.byContradiction fun hne => ?_)⟩
    obtain ⟨last, rest, hcons⟩ := List.exists_cons_of_ne_nil hne
    exact hcore last rest _ hcons (List.getLast?_eq_some_getLast hne)

/-- The extra nodes in front are extra. -/
theorem isExtra_of_mem_takeWhile {f : Frame} :
    ∀ n ∈ f.takeWhile fun n => n.kind.isExtra, n.kind.isExtra = true :=
  List.all_eq_true.1 List.all_takeWhile

/-- Nodes that are put under a new node are one node. -/
theorem countP_wrap_le (p : NodeSort) (k : Kind) (f : Frame) :
    (Frame.wrap k f).countP (Node.isOf p) ≤ if p k none then 1 else 0 := by
  rcases wrap_cases k f with ⟨hwrap, hextra⟩ | ⟨s, hwrap⟩
  · rw [hwrap, countP_isOf_of_extra hextra]
    exact Nat.zero_le _
  · rw [hwrap, List.countP_append, countP_isOf_of_extra isExtra_of_mem_takeWhile, List.countP_singleton,
      Nat.zero_add]
    exact ite_isOf_le p k none s _

/-- A form adds no more nodes of a sort than it says. -/
theorem Derives.countP_le {p : NodeSort} {a : Form R} {f f' : Frame} {c c' : Cursor} {m : Nat}
    (h : Derives rules a f c f' c') (hm : a.most p = some m) :
    f'.countP (Node.isOf p) ≤ f.countP (Node.isOf p) + m := by
  -- Form by form: what is counted is bounded by what each part may add
  induction h generalizing p m with
  | stay => exact Nat.le_add_right _ _
  | @leaf k _ _ _ _ _ h =>
    obtain ⟨gap, s, rfl, hgap⟩ := leaf_of_shift h
    cases hm
    have := ite_isOf_le p k none s []
    rw [List.countP_append, countP_isOf_of_extra fun n hn => (hgap n hn).isExtra, List.countP_cons]
    omega
  | seq _ _ ih₁ ih₂ =>
    obtain ⟨m₁, m₂, hm₁, hm₂, rfl⟩ := Option.map₂_eq_some_iff.1 hm
    have := ih₁ hm₁
    have := ih₂ hm₂
    omega
  | left _ ih =>
    obtain ⟨m₁, m₂, hm₁, hm₂, rfl⟩ := Option.map₂_eq_some_iff.1 hm
    have := ih hm₁
    omega
  | right _ ih =>
    obtain ⟨m₁, m₂, hm₁, hm₂, rfl⟩ := Option.map₂_eq_some_iff.1 hm
    have := ih hm₂
    omega
  | many _ _ ih₁ ih₂ =>
    obtain ⟨hnone, rfl⟩ := repeated_eq_some hm
    have := ih₁ hnone
    have := ih₂ hm
    omega
  | @node k _ _ g =>
    have := countP_wrap_le p k g
    cases hm
    rw [List.countP_append]
    omega
  | @labelled l _ _ _ _ _ _ ih =>
    have := ih hm
    have hsorts : Node.isOf p ∘ Node.labelled l = Node.isOf fun k _ => p k (some l) :=
      funext (Node.isOf_labelled p l)
    rw [List.countP_append, Frame.label, List.countP_map, hsorts]
    rw [List.countP_nil] at this
    omega
  | grow _ _ ih₁ ih₂ =>
    obtain ⟨m₁, m₂, hm₁, hm₂, rfl⟩ := Option.map₂_eq_some_iff.1 hm
    have := ih₁ hm₁
    have := ih₂ hm₂
    rw [List.countP_append]
    rw [List.countP_nil] at *
    omega
  | @extend k _ _ _ g =>
    have := countP_wrap_le p k g
    cases hm
    omega
  | call => cases hm

/-! ## Shapes of nodes -/

/-- What the nodes of a tree are held to. -/
structure Shape where
  /-- The kinds that there are. -/
  kinds : Kind → Bool
  comments : kinds .comment = true
  /-- At most how many children of a sort the nodes of a kind have. -/
  limits : Kind → List (NodeSort × Nat)

/-- The nodes that a form reads have the shape. -/
def Form.obeys (s : Shape) : Form R → Bool
  | leaf k _ => s.kinds k
  | seq a b | alt a b | grow a b => a.obeys s && b.obeys s
  | many a | labelled _ a => a.obeys s
  | node k a => a.obeys s && s.kinds k && (s.limits k).all fun x => (a.most x.1).any (· ≤ x.2)
  | extend k _ a => a.obeys s && s.kinds k && (s.limits k).isEmpty
  | _ => true

/-- The node and the nodes below it have the shape. -/
inductive Node.Obeys (s : Shape) : Node → Prop
  | mk {k : Kind} {l : Option Label} {span : Span} {cs : List Node} (kind : s.kinds k = true)
      (bare : k.isExtra = true → l = none)
      (limits : ∀ x ∈ s.limits k, cs.countP (Node.isOf x.1) ≤ x.2)
      (children : ∀ n ∈ cs, Node.Obeys s n) : Node.Obeys s (.mk k l span cs)

variable {s : Shape}

/-- A leaf obeys a shape if its kind may stand in it. -/
theorem Node.obeys_leaf {k : Kind} {span : Span} (hk : s.kinds k = true) :
    Node.Obeys s (.mk k none span []) :=
  .mk hk (fun _ => rfl) (fun _ _ => Nat.zero_le _) (fun _ h => nomatch h)

/-- A comment obeys every shape. -/
theorem Node.IsComment.obeys {n : Node} (h : n.IsComment) : n.Obeys s := by
  obtain ⟨start, stop, rfl⟩ := h
  exact Node.obeys_leaf s.comments

theorem Node.Obeys.labelled {n : Node} (h : n.Obeys s) (l : Label) : (n.labelled l).Obeys s := by
  obtain ⟨k, l', span, cs⟩ := n
  rw [Node.labelled]
  split
  case isTrue => exact h
  case isFalse hk =>
    cases h with
    | mk kind _ limits children => exact .mk kind (fun hextra => absurd hextra hk) limits children

/-- A frame whose nodes have the shape keeps it under labels. -/
theorem obeys_label {l : Option Label} {f : Frame} (hf : ∀ n ∈ f, n.Obeys s) :
    ∀ n ∈ Frame.label l f, n.Obeys s := by
  cases l with
  | none => exact hf
  | some l =>
    intro n hn
    obtain ⟨m, hm, rfl⟩ := List.mem_map.1 hn
    exact (hf m hm).labelled l

/-- Nodes that are put under a new one, where there are no more of them than are allowed. -/
theorem obeys_wrap {k : Kind} {f : Frame} (hf : ∀ n ∈ f, n.Obeys s) (hk : s.kinds k = true)
    (hlimits : ∀ x ∈ s.limits k, f.countP (Node.isOf x.1) ≤ x.2) :
    ∀ n ∈ Frame.wrap k f, n.Obeys s := by
  rcases wrap_cases k f with ⟨hwrap, _⟩ | ⟨span, hwrap⟩
  · rwa [hwrap]
  · rw [hwrap]
    have hdrop := List.dropWhile_sublist (fun n : Node => n.kind.isExtra) (l := f)
    have htake := List.takeWhile_sublist (fun n : Node => n.kind.isExtra) (l := f)
    refine List.forall_mem_append.2 ⟨fun n hn => hf n (htake.subset hn), ?_⟩
    refine List.forall_mem_singleton.2 (.mk hk (fun _ => rfl) (fun x hx => ?_) fun n hn => ?_)
    · rw [List.countP_reverse]
      exact Nat.le_trans hdrop.countP_le (hlimits x hx)
    · exact hf n (hdrop.subset (List.mem_reverse.1 hn))

/-- The nodes that are read have the shape that the forms of the grammar have. -/
theorem Derives.obeys (hrules : ∀ r, (rules r).obeys s = true) {a : Form R} {f f' : Frame}
    {c c' : Cursor} (h : Derives rules a f c f' c') (ha : a.obeys s = true)
    (hf : ∀ n ∈ f, n.Obeys s) : ∀ n ∈ f', n.Obeys s := by
  -- Only nodes that are made are new, and their form says what they may hold
  induction h with
  | stay => exact hf
  | leaf h =>
    obtain ⟨gap, span, rfl, hgap⟩ := leaf_of_shift h
    exact List.forall_mem_append.2 ⟨fun n hn => (hgap n hn).obeys,
      List.forall_mem_cons.2 ⟨Node.obeys_leaf ha, hf⟩⟩
  | seq _ _ ih₁ ih₂ =>
    simp only [Form.obeys, Bool.and_eq_true] at ha
    exact ih₂ ha.2 (ih₁ ha.1 hf)
  | left _ ih =>
    simp only [Form.obeys, Bool.and_eq_true] at ha
    exact ih ha.1 hf
  | right _ ih =>
    simp only [Form.obeys, Bool.and_eq_true] at ha
    exact ih ha.2 hf
  | many _ _ ih₁ ih₂ => exact ih₂ ha (ih₁ ha hf)
  | node hd ih =>
    simp only [Form.obeys, Bool.and_eq_true, List.all_eq_true] at ha
    obtain ⟨⟨ha, hk⟩, hlimits⟩ := ha
    refine List.forall_mem_append.2 ⟨obeys_wrap (ih ha fun _ h => nomatch h) hk fun x hx => ?_, hf⟩
    -- What the form says of itself bounds what it has read on a frame of its own
    obtain ⟨m, hm, hle⟩ := (Option.any_eq_true _ _).1 (hlimits x hx)
    have hcount := hd.countP_le hm
    rw [List.countP_nil, Nat.zero_add] at hcount
    exact Nat.le_trans hcount (of_decide_eq_true hle)
  | labelled _ ih =>
    exact List.forall_mem_append.2 ⟨obeys_label (ih ha fun _ h => nomatch h), hf⟩
  | grow _ _ ih₁ ih₂ =>
    simp only [Form.obeys, Bool.and_eq_true] at ha
    exact List.forall_mem_append.2 ⟨ih₂ ha.2 (ih₁ ha.1 fun _ h => nomatch h), hf⟩
  | extend _ ih =>
    simp only [Form.obeys, Bool.and_eq_true, List.isEmpty_iff] at ha
    obtain ⟨⟨ha, hk⟩, hlimits⟩ := ha
    refine obeys_wrap (ih ha (obeys_label hf)) hk fun x hx => ?_
    rw [hlimits] at hx
    exact nomatch hx
  | call _ ih => exact ih (hrules _) hf

/-- The nodes of a text without errors have the shape of the grammar. -/
theorem obeys_root [Recovery] (hrules : ∀ r, (TypeScript.grammar r).obeys s = true) {text : List Char}
    (herrors : (SyntaxTree.ofText text).hasErrors = false) :
    ∀ n ∈ (SyntaxTree.ofText text).root.children, n.Obeys s := by
  obtain ⟨ns, h, htree⟩ := SyntaxTree.statements?_of_hasErrors herrors
  rw [htree]
  simp only [SyntaxTree.statements?, Option.bind_eq_bind, Option.bind_eq_some_iff,
    Option.pure_def, Option.some.injEq, Prod.exists] at h
  obtain ⟨f, c, hstart, f', c', hread, rfl⟩ := h
  -- What stands in front of the first statement are comments
  obtain ⟨gap, rfl, hgap⟩ := comments_of_skipGap hstart
  rw [List.append_nil] at hread
  intro n hn
  exact (derives_of_grammarRead hread).obeys hrules rfl (fun m hm => (hgap m hm).obeys) n
    (List.mem_reverse.1 hn)

/-! ## Children that are given once -/

/-- Where one element at most is looked for, it is the one that is found. -/
theorem find?_eq_some_iff_of_unique {α : Type} {q : α → Bool} {as : List α} {a : α}
    (h : ∀ b ∈ as, ∀ c ∈ as, q b = true → q c = true → b = c) :
    as.find? q = some a ↔ a ∈ as ∧ q a = true := by
  refine ⟨fun hfind => ⟨List.mem_of_find?_eq_some hfind, List.find?_some hfind⟩, fun ⟨ha, hq⟩ => ?_⟩
  cases hfind : as.find? q with
  | none => exact absurd hq (List.find?_eq_none.1 hfind a ha)
  | some b => rw [h b (List.mem_of_find?_eq_some hfind) a ha (List.find?_some hfind) hq]

namespace Node

variable {n m m' : Node}

/-- The children of a node that obeys a shape obey it too. -/
theorem Obeys.child (h : n.Obeys s) (hm : m ∈ n.children) : m.Obeys s := by
  cases h with
  | mk _ _ _ children => exact children m hm

/-- A node that obeys a shape is of a kind that may stand in it. -/
theorem Obeys.kind (h : n.Obeys s) : s.kinds n.kind = true := by
  cases h; assumption

/-- An extra node has no label. -/
theorem Obeys.bare (h : n.Obeys s) : n.kind.isExtra = true → n.label = none := by
  cases h; assumption

/-- A node has no more children of a sort than its shape allows. -/
theorem Obeys.limits (h : n.Obeys s) :
    ∀ x ∈ s.limits n.kind, n.children.countP (isOf x.1) ≤ x.2 := by
  cases h; assumption

/-- A child with a label is no comment. -/
theorem Obeys.isOf_ofLabel_iff (h : m.Obeys s) {l : Label} :
    m.isOf (.ofLabel l) = true ↔ m.label = some l := by
  rw [isOf, NodeSort.ofLabel, Bool.and_eq_true, beq_iff_eq, and_iff_left_iff_imp]
  intro hlabel
  cases hextra : m.kind.isExtra with
  | true => exact nomatch (h.bare hextra).symm.trans hlabel
  | false => rfl

/-- A node is of the sort of a kind if it is of that kind. -/
theorem isOf_ofKind_iff {k : Kind} (hk : k.isExtra = false) :
    m.isOf (.ofKind k) = true ↔ m.kind = k := by
  rw [isOf, NodeSort.ofKind, Bool.and_eq_true, beq_iff_eq]
  exact ⟨And.left, fun h => ⟨h, by rw [h, hk]; rfl⟩⟩

/-- A sort of which there is one child at most. -/
theorem Obeys.eq_of_isOf (h : n.Obeys s) {p : NodeSort} (hp : (p, 1) ∈ s.limits n.kind)
    (hm : m ∈ n.children) (hm' : m' ∈ n.children) (hmp : m.isOf p = true) (hmp' : m'.isOf p = true) :
    m = m' := by
  have hcount := h.limits _ hp
  rw [List.countP_eq_length_filter] at hcount
  have hmem := List.mem_filter.2 ⟨hm, hmp⟩
  have hmem' := List.mem_filter.2 ⟨hm', hmp'⟩
  obtain ⟨only, honly⟩ := List.length_eq_one_iff.1 (Nat.le_antisymm hcount (List.length_pos_of_mem hmem))
  rw [honly, List.mem_singleton] at hmem hmem'
  rw [hmem, hmem']

/-- The child with a label that is given once at most. -/
theorem Obeys.child?_eq_some_iff (h : n.Obeys s) {l : Label} (hl : (.ofLabel l, 1) ∈ s.limits n.kind) :
    n.child? l = some m ↔ m ∈ n.children ∧ m.label = some l := by
  have hlabel (m : Node) : (m.label == some l) = true ↔ m.label = some l := beq_iff_eq
  rw [child?, find?_eq_some_iff_of_unique, hlabel]
  intro a ha b hb hla hlb
  exact h.eq_of_isOf hl ha hb ((h.child ha).isOf_ofLabel_iff.2 (beq_iff_eq.1 hla))
    ((h.child hb).isOf_ofLabel_iff.2 (beq_iff_eq.1 hlb))

/-- Where one child of a kind is allowed, two of them are the same. -/
theorem Obeys.eq_of_kind (h : n.Obeys s) {k : Kind} (hk : (.ofKind k, 1) ∈ s.limits n.kind)
    (hextra : k.isExtra = false) (hm : m ∈ n.children) (hm' : m' ∈ n.children) (hmk : m.kind = k)
    (hmk' : m'.kind = k) : m = m' :=
  h.eq_of_isOf hk hm hm' ((isOf_ofKind_iff hextra).2 hmk) ((isOf_ofKind_iff hextra).2 hmk')

end Node

end Enlist.Syntax
