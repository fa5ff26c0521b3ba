import Enlist.Proofs.Syntax.Children
import Enlist.Proofs.Syntax.Tree

/-!
# What stands between tokens

`Trivia` says what blanks and comments are without saying how they are read. Nothing else stands between
a token and the next one, so nothing else stands between the node that a form reads last and what is read
behind the form.

## Key results

- `trivia_of_skipGap`: what is skipped between tokens is trivia
- `Trivia.unique`: where trivia end is determined
- `Derives.endsIn`: what stands behind the last node of a form
- `Derives.exists_body`: where the nodes of a kind come from
-/

namespace Enlist.Syntax

open Text

/-! ## Blanks and comments -/

/-- Blanks and comments, each of which is closed. -/
inductive Trivia : List Char → Prop
  | nil : Trivia []
  | blank {c : Char} {cs : List Char} (hc : isGap c = true) (hcs : Trivia cs) : Trivia (c :: cs)
  | lineComment {body : List Char} {c : Char} {cs : List Char}
      (hbody : ∀ b ∈ body, isLineBreak b = false) (hc : isLineBreak c = true) (hcs : Trivia cs) :
      Trivia ('/' :: '/' :: (body ++ c :: cs))
  | blockComment {body cs : List Char} (hbody : ¬['*', '/'] <:+: body) (hcs : Trivia cs) :
      Trivia ('/' :: '*' :: (body ++ '*' :: '/' :: cs))

/-- What closes a gap that is read up to some place: trivia, behind the rest of a comment if one is
open. -/
def Gap.Closing : Gap → List Char → Prop
  | between, cs => Trivia cs
  | inLine _, cs => ∃ body c rest, cs = body ++ c :: rest ∧ (∀ b ∈ body, isLineBreak b = false) ∧
      isLineBreak c = true ∧ Trivia rest
  | inBlock _, cs => ∃ body rest, cs = body ++ '*' :: '/' :: rest ∧ ¬['*', '/'] <:+: body ∧ Trivia rest

/-- What is skipped between two tokens is trivia. -/
theorem trivia_of_skipGap {g : Gap} {nl : Bool} {i : Nat} {cs : List Char} {f f' : Frame} {c' : Cursor}
    (h : skipGap g nl i cs f = some (f', c')) (hrest : c'.rest ≠ []) :
    ∃ gap, cs = gap ++ c'.rest ∧ c'.offset = i + utf8Length gap ∧ g.Closing gap := by
  -- Along the cases of `skipGap`; each puts one character or mark in front of what closes the gap
  fun_induction skipGap g nl i cs f
  case case1 nl i cs f ih =>
    obtain ⟨gap, rfl, hoffset, body, c, rest, rfl, hbody, hc, htrivia⟩ := ih h
    refine ⟨'/' :: '/' :: (body ++ c :: rest), rfl, ?_, .lineComment hbody hc htrivia⟩
    show _ = i + (1 + (1 + utf8Length _))
    omega
  case case2 nl i cs f ih =>
    obtain ⟨gap, rfl, hoffset, body, rest, rfl, hbody, htrivia⟩ := ih h
    refine ⟨'/' :: '*' :: (body ++ '*' :: '/' :: rest), rfl, ?_, .blockComment hbody htrivia⟩
    show _ = i + (1 + (1 + utf8Length _))
    omega
  case case3 nl i c cs f _ _ hc ih =>
    obtain ⟨gap, rfl, hoffset, htrivia⟩ := ih h
    exact ⟨c :: gap, rfl, by rw [hoffset, utf8Length, Nat.add_assoc], .blank hc htrivia⟩
  case case4 => cases h; exact ⟨[], rfl, rfl, .nil⟩
  case case5 => cases h; exact absurd rfl hrest
  case case6 start nl i c cs f hc ih =>
    obtain ⟨gap, rfl, hoffset, htrivia⟩ := ih h
    exact ⟨c :: gap, rfl, by rw [hoffset, utf8Length, Nat.add_assoc], [], c, gap, rfl, by simp, hc, htrivia⟩
  case case7 start nl i c cs f hc ih =>
    obtain ⟨gap, rfl, hoffset, body, b, rest, rfl, hbody, hb, htrivia⟩ := ih h
    exact ⟨c :: (body ++ b :: rest), rfl, by rw [hoffset, utf8Length, Nat.add_assoc], c :: body, b, rest,
      rfl, List.forall_mem_cons.2 ⟨eq_false_of_ne_true hc, hbody⟩, hb, htrivia⟩
  case case8 => cases h; exact absurd rfl hrest
  case case9 start nl i cs f ih =>
    obtain ⟨gap, rfl, hoffset, htrivia⟩ := ih h
    refine ⟨'*' :: '/' :: gap, rfl, ?_, [], gap, rfl, by simp, htrivia⟩
    show _ = i + (1 + (1 + utf8Length _))
    omega
  case case10 start nl i c cs f hno ih =>
    obtain ⟨gap, rfl, hoffset, body, rest, rfl, hbody, htrivia⟩ := ih h
    refine ⟨c :: (body ++ '*' :: '/' :: rest), by simp, by rw [hoffset, utf8Length, Nat.add_assoc],
      c :: body, rest, rfl, fun hinfix => ?_, htrivia⟩
    -- The comment would have been closed before
    rcases List.infix_cons_iff.1 hinfix with hprefix | hinfix
    · obtain ⟨tail, htail⟩ := hprefix
      obtain ⟨rfl, rfl⟩ := List.cons.inj htail
      exact hno _ rfl rfl
    · exact hbody hinfix
  case case11 => cases h

/-! ## Where trivia end -/

/-- The characters begin neither with a blank nor with a comment. -/
structure Solid (cs : List Char) : Prop where
  noBlank : ∀ c rest, cs = c :: rest → isGap c = false
  noLine : ∀ rest, cs ≠ '/' :: '/' :: rest
  noBlock : ∀ rest, cs ≠ '/' :: '*' :: rest

theorem solid_nil : Solid [] :=
  ⟨by simp, by simp, by simp⟩

theorem solid_cons {c : Char} {cs : List Char} (hgap : isGap c = false) (hslash : c ≠ '/') :
    Solid (c :: cs) :=
  ⟨fun _ _ h => (List.cons.inj h).1 ▸ hgap, fun _ h => hslash (List.cons.inj h).1,
    fun _ h => hslash (List.cons.inj h).1⟩

/-- Where a comment ends that ends with its line. -/
private theorem line_unique {a b r s : List Char} {c d : Char} (ha : ∀ x ∈ a, isLineBreak x = false)
    (hc : isLineBreak c = true) (hb : ∀ x ∈ b, isLineBreak x = false) (hd : isLineBreak d = true)
    (h : a ++ c :: r = b ++ d :: s) : a = b ∧ c = d ∧ r = s := by
  -- Where one body ends, a line ends, so the other ends there too
  induction a generalizing b with
  | nil =>
    cases b with
    | nil => exact ⟨rfl, (List.cons.inj h).1, (List.cons.inj h).2⟩
    | cons y b =>
      rw [(List.cons.inj h).1, hb y List.mem_cons_self] at hc
      cases hc
  | cons x a ih =>
    cases b with
    | nil =>
      rw [← (List.cons.inj h).1, ha x List.mem_cons_self] at hd
      cases hd
    | cons y b =>
      obtain ⟨rfl, hrest⟩ := List.cons.inj h
      obtain ⟨rfl, hcd, hrs⟩ := ih (List.forall_mem_cons.1 ha).2 (List.forall_mem_cons.1 hb).2 hrest
      exact ⟨rfl, hcd, hrs⟩

/-- The end of a comment is inside of it if the comment goes on behind. -/
private theorem mark_within {b r s : List Char} (h : '*' :: '/' :: r = b ++ '*' :: '/' :: s)
    (hb : b ≠ []) : ['*', '/'] <:+: b := by
  match b, hb, h with
  | [y], _, h => cases (List.cons.inj (List.cons.inj h).2).1
  | x :: y :: b, _, h =>
    obtain ⟨rfl, hrest⟩ := List.cons.inj h
    obtain ⟨rfl, _⟩ := List.cons.inj hrest
    exact (List.prefix_append ['*', '/'] b).isInfix

/-- Where a comment ends that has a closing mark. -/
private theorem block_unique {a b r s : List Char} (ha : ¬['*', '/'] <:+: a) (hb : ¬['*', '/'] <:+: b)
    (h : a ++ '*' :: '/' :: r = b ++ '*' :: '/' :: s) : a = b ∧ r = s := by
  -- Side by side: where the one body ends, the other one would have the mark inside
  induction a generalizing b with
  | nil =>
    cases b with
    | nil => exact ⟨rfl, (List.cons.inj (List.cons.inj h).2).2⟩
    | cons y b => exact absurd (mark_within h (List.cons_ne_nil y b)) hb
  | cons x a ih =>
    cases b with
    | nil => exact absurd (mark_within h.symm (List.cons_ne_nil x a)) ha
    | cons y b =>
      obtain ⟨rfl, hrest⟩ := List.cons.inj h
      obtain ⟨rfl, hrs⟩ := ih (fun hi => ha (List.infix_cons hi)) (fun hi => hb (List.infix_cons hi)) hrest
      exact ⟨rfl, hrs⟩

/-- Where trivia end is determined by what stands behind them. -/
theorem Trivia.unique {a b x y : List Char} (ha : Trivia a) (hb : Trivia b) (h : a ++ x = b ++ y)
    (hx : Solid x) (hy : Solid y) : a = b ∧ x = y := by
  -- Induction on the first trivia; the others begin with the same blank or comment
  induction ha generalizing b with
  | nil =>
    cases hb with
    | nil => exact ⟨rfl, h⟩
    | blank hc => exact absurd hc (by rw [hx.noBlank _ _ h]; exact Bool.false_ne_true)
    | lineComment => exact absurd h (hx.noLine _)
    | blockComment => exact absurd h (hx.noBlock _)
  | blank hc _ ih =>
    cases hb with
    | nil => exact absurd hc (by rw [hy.noBlank _ _ h.symm]; exact Bool.false_ne_true)
    | blank _ hcs =>
      obtain ⟨rfl, hrest⟩ := List.cons.inj h
      obtain ⟨rfl, hxy⟩ := ih hcs hrest
      exact ⟨rfl, hxy⟩
    | lineComment | blockComment =>
      rw [(List.cons.inj h).1] at hc
      exact absurd hc (by decide)
  | lineComment hbody hc _ ih =>
    cases hb with
    | nil => exact absurd h.symm (hy.noLine _)
    | blank hc' =>
      rw [← (List.cons.inj h).1] at hc'
      exact absurd hc' (by decide)
    | lineComment hbody' hc' hcs =>
      simp only [List.cons_append, List.append_assoc, List.cons.injEq, true_and] at h
      obtain ⟨rfl, rfl, hrest⟩ := line_unique hbody hc hbody' hc' h
      obtain ⟨rfl, hxy⟩ := ih hcs hrest
      exact ⟨rfl, hxy⟩
    | blockComment => cases (List.cons.inj (List.cons.inj h).2).1
  | blockComment hbody _ ih =>
    cases hb with
    | nil => exact absurd h.symm (hy.noBlock _)
    | blank hc' =>
      rw [← (List.cons.inj h).1] at hc'
      exact absurd hc' (by decide)
    | lineComment => cases (List.cons.inj (List.cons.inj h).2).1
    | blockComment hbody' hcs =>
      simp only [List.cons_append, List.append_assoc, List.cons.injEq, true_and] at h
      obtain ⟨rfl, hrest⟩ := block_unique hbody hbody' h
      obtain ⟨rfl, hxy⟩ := ih hcs hrest
      exact ⟨rfl, hxy⟩

/-! ## Behind a node -/

/-- Nothing but trivia stands from the byte up to the cursor, unless the cursor is at the end. -/
def Cursor.Follows (text : List Char) (p : Nat) (c : Cursor) : Prop :=
  c.rest ≠ [] → p ≤ c.offset ∧ Trivia (slice text p c.offset)

/-- Behind a token stand trivia. -/
theorem follows_of_shift {text : List Char} {k : Kind} {l : Lexeme} {f f' : Frame} {c c' : Cursor}
    (h : c.shift k l f = some (f', c')) (hc : c.In text) {n : Nat} (hn : l.length? c.rest = some n) :
    c'.Follows text (c.leaf k n).span.stop := by
  intro hrest
  simp only [Cursor.shift] at h
  split at h
  case h_2 => cases h
  case h_1 m hm =>
    obtain rfl : m + 1 = n := Option.some.inj (hm.symm.trans hn)
    obtain ⟨gap, hgap, hoffset, htrivia⟩ := trivia_of_skipGap h hrest
    obtain ⟨before, htext, hlength⟩ := hc
    refine ⟨by rw [hoffset]; exact Nat.le_add_right _ _, ?_⟩
    -- The text is what was read, the leaf, the gap and the rest
    have hparts : text = (before ++ c.rest.take (m + 1)) ++ (gap ++ c'.rest) := by
      rw [← hgap, List.append_assoc, List.take_append_drop, htext]
    have hstop : (c.leaf k (m + 1)).span.stop = utf8Length (before ++ c.rest.take (m + 1)) := by
      rw [utf8Length_append, hlength]
      rfl
    have hoffset' : c'.offset = utf8Length (before ++ c.rest.take (m + 1)) + utf8Length gap := by
      rw [hoffset, ← hstop]
      rfl
    rw [hstop, hoffset', hparts, slice_append_append]
    exact htrivia

/-- The form ends with a leaf that has the label, or with one without a label. -/
def Form.endsIn {R : Type} (l : Option Label) : Form R → Bool
  | leaf k _ => l == none && !k.isExtra
  | labelled l' (leaf k _) => l == some l' && !k.isExtra
  | seq a b => a.keeps && b.endsIn l
  | _ => false

variable {R : Type} {rules : R → Form R}

/-- A form that ends with a leaf reads it last, and behind it stand trivia. -/
theorem Derives.endsIn {text : List Char} (hrules : ∀ r, (rules r).keeps = true) {l : Option Label}
    {a : Form R} {f f' : Frame} {c c' : Cursor} (h : Derives rules a f c f' c') (hc : c.In text)
    (ha : a.endsIn l = true) :
    ∃ gap last g, f' = gap ++ last :: (g ++ f) ∧ (∀ n ∈ gap, n.kind.isExtra = true) ∧
      last.kind.isExtra = false ∧ last.label = l ∧ c'.Follows text last.span.stop := by
  fun_induction Form.endsIn l a generalizing f f' c c'
  -- A leaf, a leaf with a label, or the last part of a sequence
  case case1 k lx =>
    simp only [Bool.and_eq_true, beq_iff_eq, Bool.not_eq_true'] at ha
    cases h with
    | stay hs => cases hs
    | leaf h =>
      obtain ⟨_, n, gap, hn, rfl, hextra, _⟩ := shift_cases h hc
      exact ⟨gap, c.leaf k n, [], rfl, hextra, ha.2, ha.1.symm, follows_of_shift h hc hn⟩
  case case2 l' k lx =>
    simp only [Bool.and_eq_true, beq_iff_eq, Bool.not_eq_true'] at ha
    cases h with
    | stay hs => cases hs
    | labelled h =>
      cases h with
      | stay hs => cases hs
      | leaf h =>
        obtain ⟨_, n, gap, hn, rfl, hextra, _⟩ := shift_cases h hc
        refine ⟨gap.map (Node.labelled l'), (c.leaf k n).labelled l', [], ?_, ?_, ?_, ?_, ?_⟩
        · simp [Frame.label]
        · intro m hm
          obtain ⟨m', hm', rfl⟩ := List.mem_map.1 hm
          rw [Node.kind_labelled]
          exact hextra m' hm'
        · rw [Node.kind_labelled]
          exact ha.2
        · rw [ha.1, Cursor.leaf, Node.labelled, if_neg (by simp [ha.2])]
          rfl
        · rw [Node.span_labelled]
          exact follows_of_shift h hc hn
  case case3 a b ihb =>
    simp only [Bool.and_eq_true] at ha
    cases h with
    | stay hs => cases hs
    | seq hd hd' =>
      obtain ⟨g, rfl⟩ := hd.adds hrules hc ha.1
      obtain ⟨gap, last, g', rfl, hlast⟩ := ihb hd' (hd.moves hc) ha.2
      exact ⟨gap, last, g' ++ g, by simp, hlast⟩
  case case4 => cases ha

/-! ## Where nodes of a kind come from -/

/-- How a form adds nodes of the kind to a frame: as nodes over what another form reads, or otherwise. -/
def Form.bodies (k : Kind) : Form R → List (Option (Form R))
  | leaf k' _ | extend k' _ _ => if k' = k then [none] else []
  | node k' a => if k' = k then [some a] else []
  | seq a b | alt a b | grow a b => a.bodies k ++ b.bodies k
  | many a | labelled _ a => a.bodies k
  | _ => []

/-- The node is put over what the form reads in the text. -/
def Node.OverForm (rules : R → Form R) (text : List Char) (a : Form R) (n : Node) : Prop :=
  ∃ c f c', c.In text ∧ Derives rules a [] c f c' ∧
    ∃ last rest, (f.dropWhile fun m => m.kind.isExtra) = last :: rest ∧
      n.children = (last :: rest).reverse ∧ n.span.stop = last.span.stop

theorem Node.OverForm.labelled {text : List Char} {a : Form R} {n : Node} (h : n.OverForm rules text a)
    (l : Label) : (n.labelled l).OverForm rules text a := by
  obtain ⟨c, f, c', hc, hd, last, rest, hcore, hchildren, hstop⟩ := h
  exact ⟨c, f, c', hc, hd, last, rest, hcore, by rw [children_labelled, hchildren],
    by rw [span_labelled, hstop]⟩

/-- The node that is put over others, from the first of them to the last that is no comment. -/
theorem Frame.wrap_of_core {k : Kind} {f : Frame} {last : Node} {rest : List Node}
    (hcore : (f.dropWhile fun m => m.kind.isExtra) = last :: rest) :
    Frame.wrap k f = (f.takeWhile fun m => m.kind.isExtra) ++
      [.mk k none ⟨((last :: rest).getLast (List.cons_ne_nil last rest)).span.start, last.span.stop⟩
        (last :: rest).reverse] := by
  rw [Frame.wrap]
  simp only [hcore, List.getLast?_eq_some_getLast (List.cons_ne_nil last rest)]

section

variable {f gap rest : Frame} {last : Node} (hgap : ∀ n ∈ gap, n.kind.isExtra = true)
  (hlast : last.kind.isExtra = false)
include hgap hlast

/-- Without the comments behind it, a frame ends with its last node. -/
theorem dropWhile_gap : ((gap ++ last :: rest).dropWhile fun m => m.kind.isExtra) = last :: rest := by
  rw [List.dropWhile_append_of_pos hgap, List.dropWhile_cons_of_neg (by simp [hlast])]

/-- The comments behind the last node of a frame stay outside of a node that is put over it. -/
theorem wrap_gap (k : Kind) : Frame.wrap k (gap ++ last :: rest) = gap ++
    [.mk k none ⟨((last :: rest).getLast (List.cons_ne_nil last rest)).span.start, last.span.stop⟩
      (last :: rest).reverse] := by
  rw [Frame.wrap_of_core (dropWhile_gap hgap hlast), List.takeWhile_append_of_pos hgap,
    List.takeWhile_cons_of_neg (by simp [hlast]), List.append_nil]

end

/-- Nodes that are no comments are not behind the last that is none. -/
theorem mem_core {f : Frame} {n : Node} (hn : n ∈ f) (hextra : n.kind.isExtra = false) :
    n ∈ f.dropWhile fun m => m.kind.isExtra := by
  rw [← f.takeWhile_append_dropWhile (p := fun m => m.kind.isExtra)] at hn
  refine (List.mem_append.1 hn).resolve_left fun hn => ?_
  rw [isExtra_of_mem_takeWhile n hn] at hextra
  cases hextra

/-- The children of a node are the nodes that it is put over, but for the comments behind them. -/
theorem mem_children_of_core {f : Frame} {n last : Node} {rest : List Node}
    (hcore : (f.dropWhile fun m => m.kind.isExtra) = last :: rest)
    (hchildren : n.children = (last :: rest).reverse) {m : Node} (hextra : m.kind.isExtra = false) :
    m ∈ n.children ↔ m ∈ f := by
  rw [hchildren, ← hcore, List.mem_reverse]
  exact ⟨fun hm => (List.dropWhile_sublist _).subset hm, fun hm => mem_core hm hextra⟩

/-- Of the nodes that are put under a new node, only that one is no comment. -/
private theorem core_of_mem_wrap {k : Kind} {f : Frame} {n : Node} (hn : n ∈ Frame.wrap k f)
    (hextra : n.kind.isExtra = false) :
    n.kind = k ∧ ∃ last rest, (f.dropWhile fun m => m.kind.isExtra) = last :: rest ∧
      n.children = (last :: rest).reverse ∧ n.span.stop = last.span.stop := by
  -- The node that is wrapped ends with its last part; what is behind it is extra
  cases hcore : f.dropWhile fun m => m.kind.isExtra with
  | nil =>
    have hnone : Frame.wrap k f = f := by simp only [Frame.wrap, hcore]
    rw [hnone] at hn
    rw [List.dropWhile_eq_nil_iff.1 hcore n hn] at hextra
    cases hextra
  | cons last rest =>
    rw [Frame.wrap_of_core hcore] at hn
    rcases List.mem_append.1 hn with hn | hn
    · rw [isExtra_of_mem_takeWhile n hn] at hextra
      cases hextra
    · obtain rfl := List.mem_singleton.1 hn
      exact ⟨rfl, last, rest, rfl, rfl, rfl⟩

/-- A node of a kind that is only read over one form is read over it. -/
theorem Derives.exists_body {text : List Char} {k : Kind} {body : Form R} (hk : k.isExtra = false)
    (hrules : ∀ r, ∀ b ∈ (rules r).bodies k, b = some body) {a : Form R} {f f' : Frame} {c c' : Cursor}
    (h : Derives rules a f c f' c') (hc : c.In text) (ha : ∀ b ∈ a.bodies k, b = some body) {n : Node}
    (hn : n ∈ f') (hkind : n.kind = k) : n ∈ f ∨ n.OverForm rules text body := by
  have hextra : n.kind.isExtra = false := by rw [hkind, hk]
  -- Induction on the derivation: a node of the kind was there before, or a `node` of the grammar puts it
  -- over what its form reads on a frame of its own
  induction h generalizing n with
  | stay => exact .inl hn
  | @leaf k' _ _ _ _ _ h =>
    obtain ⟨_, m, gap, _, rfl, hgap, _⟩ := shift_cases h hc
    rcases List.mem_append.1 hn with hn | hn
    · rw [hgap n hn] at hextra
      cases hextra
    · rcases List.mem_cons.1 hn with rfl | hn
      · rw [Form.bodies, if_pos (show k' = k from hkind)] at ha
        cases ha none List.mem_cons_self
      · exact .inl hn
  | seq hd _ ih₁ ih₂ =>
    simp only [Form.bodies, List.forall_mem_append] at ha
    rcases ih₂ (hd.moves hc) ha.2 hn hkind hextra with hn | hover
    · exact ih₁ hc ha.1 hn hkind hextra
    · exact .inr hover
  | left _ ih =>
    simp only [Form.bodies, List.forall_mem_append] at ha
    exact ih hc ha.1 hn hkind hextra
  | right _ ih =>
    simp only [Form.bodies, List.forall_mem_append] at ha
    exact ih hc ha.2 hn hkind hextra
  | many hd _ ih₁ ih₂ =>
    rcases ih₂ (hd.moves hc) ha hn hkind hextra with hn | hover
    · exact ih₁ hc ha hn hkind hextra
    · exact .inr hover
  | @node k' a' _ g _ _ hd ih =>
    rcases List.mem_append.1 hn with hn | hn
    · obtain ⟨hk', hcore⟩ := core_of_mem_wrap hn hextra
      rw [Form.bodies, if_pos (hk'.symm.trans hkind)] at ha
      obtain rfl := Option.some.inj (ha _ List.mem_cons_self)
      exact .inr ⟨_, g, _, hc, hd, hcore⟩
    · exact .inl hn
  | labelled _ ih =>
    rcases List.mem_append.1 hn with hn | hn
    · obtain ⟨m, hm, rfl⟩ := List.mem_map.1 hn
      rw [Node.kind_labelled] at hkind hextra
      rcases ih hc ha hm hkind hextra with hm | hover
      · cases hm
      · exact .inr (hover.labelled _)
    · exact .inl hn
  | grow hd _ ih₁ ih₂ =>
    simp only [Form.bodies, List.forall_mem_append] at ha
    rcases List.mem_append.1 hn with hn | hn
    · rcases ih₂ (hd.moves hc) ha.2 hn hkind hextra with hn | hover
      · rcases ih₁ hc ha.1 hn hkind hextra with hn | hover
        · cases hn
        · exact .inr hover
      · exact .inr hover
    · exact .inl hn
  | @extend k' _ _ _ g _ _ _ ih =>
    obtain ⟨hk', _⟩ := core_of_mem_wrap hn hextra
    rw [Form.bodies, if_pos (hk'.symm.trans hkind)] at ha
    cases ha none List.mem_cons_self
  | call _ ih => exact ih hc (hrules _) hn hkind hextra

end Enlist.Syntax
