import Enlist.Proofs.Text.Bytes
import Enlist.Syntax.Form

/-!
# Where nodes stand

Nodes that are read one after the other stand one behind the other in the text, each between two
characters, and a node of one of the kinds in brackets begins and ends with its brackets. This file
says so of nodes and frames (`Node.Placed`, `Frame.Placed`) and shows that the steps of reading keep
it up: skipping a gap, reading a token, and putting nodes under a new one.

## Key results

- `inRow_append`: a row is cut anywhere into two rows
- `skipGap_placed` / `shift_cases`: what a gap, and a token with the gap behind it, add to a frame
- `Frame.Placed.wrap`: nodes that are put under a new node
-/

namespace Enlist.Syntax

open Text

/-! ## Rows of nodes -/

theorem InRow.le {lo hi : Nat} {ns : List Node} (h : InRow lo ns hi) : lo ≤ hi := by
  induction ns generalizing lo with
  | nil => exact h
  | cons n ns ih =>
    obtain ⟨hlo, hn, hns⟩ := h
    have := ih hns
    omega

/-- A row is cut anywhere into two rows. -/
theorem inRow_append {lo hi : Nat} {as bs : List Node} :
    InRow lo (as ++ bs) hi ↔ ∃ mid, InRow lo as mid ∧ InRow mid bs hi := by
  -- Induction on the first part; where it is empty, the cut is at the start of the row
  induction as generalizing lo with
  | nil =>
    constructor
    · intro h
      exact ⟨lo, Nat.le_refl lo, h⟩
    · rintro ⟨mid, hlo, h⟩
      cases bs with
      | nil => exact Nat.le_trans hlo h
      | cons b bs => exact ⟨Nat.le_trans hlo h.1, h.2⟩
  | cons a as ih =>
    simp only [List.cons_append, InRow, ih]
    constructor
    · rintro ⟨hlo, ha, mid, has, hbs⟩
      exact ⟨mid, ⟨hlo, ha, has⟩, hbs⟩
    · rintro ⟨mid, ⟨hlo, ha, has⟩, hbs⟩
      exact ⟨hlo, ha, mid, has, hbs⟩

/-- One more node stands behind a row. -/
theorem inRow_concat {lo hi : Nat} {ns : List Node} {n : Node} :
    InRow lo (ns ++ [n]) hi ↔
      InRow lo ns n.span.start ∧ n.span.start ≤ n.span.stop ∧ n.span.stop ≤ hi := by
  rw [inRow_append]
  constructor
  · rintro ⟨mid, hns, hmid, hn, hhi⟩
    refine ⟨?_, hn, hhi⟩
    have := inRow_append.2 ⟨mid, hns, (show InRow mid [] n.span.start from hmid)⟩
    rwa [List.append_nil] at this
  · rintro ⟨hns, hn, hhi⟩
    exact ⟨n.span.start, hns, Nat.le_refl _, hn, hhi⟩

theorem InRow.of_le {lo mid hi : Nat} {ns : List Node} (h : InRow mid ns hi) (hlo : lo ≤ mid) :
    InRow lo ns hi :=
  inRow_append.2 ⟨mid, (show InRow lo [] mid from hlo), h⟩

/-- A node in a row stands between its ends. -/
theorem InRow.mem {lo hi : Nat} {ns : List Node} {n : Node} (h : InRow lo ns hi) (hn : n ∈ ns) :
    lo ≤ n.span.start ∧ n.span.start ≤ n.span.stop ∧ n.span.stop ≤ hi := by
  obtain ⟨front, back, rfl⟩ := List.append_of_mem hn
  obtain ⟨mid, hfront, hmid, hle, hback⟩ := inRow_append.1 h
  exact ⟨Nat.le_trans hfront.le hmid, hle, hback.le⟩

/-- Of two nodes of a row the first ends where the second starts, or earlier. -/
theorem InRow.pairwise {lo hi : Nat} {ns : List Node} (h : InRow lo ns hi) :
    ns.Pairwise fun a b => a.span.stop ≤ b.span.start := by
  induction ns generalizing lo with
  | nil => exact List.Pairwise.nil
  | cons n ns ih =>
    obtain ⟨_, _, hns⟩ := h
    exact List.pairwise_cons.2 ⟨fun m hm => (hns.mem hm).1, ih hns⟩

/-! ## Nodes that are laid out -/

/-- The brackets of the kinds of nodes whose brackets edits go by. -/
def Kind.brackets? : Kind → Option (Char × Char)
  | .array => some ('[', ']')
  | .object | .namedImports => some ('\x7b', '\x7d')
  | _ => none

/-- The node is a mark of one byte, the character `c` of the text. -/
structure Node.IsMark (text : List Char) (c : Char) (n : Node) : Prop where
  kind : n.kind = .punctuation
  stop : n.span.stop = n.span.start + 1
  text : ∃ rest, dropBytes text n.span.start = c :: rest

/-- Nodes over the bytes of a span begin with the mark `o` and end with the mark `c`. -/
def Enclosed (text : List Char) (o c : Char) (s : Span) (ns : List Node) : Prop :=
  ∃ first inner last, ns = first :: (inner ++ [last]) ∧ first.IsMark text o ∧ last.IsMark text c ∧
    first.span.start = s.start ∧ last.span.stop = s.stop

/-- The node covers a range of whole characters, its children stand in it one behind the other, and so
do theirs; a node of one of the kinds in brackets begins and ends with its brackets. -/
inductive Node.Placed (text : List Char) : Node → Prop
  | mk {k : Kind} {l : Option Label} {s : Span} {cs : List Node}
      (start : isBoundary text s.start = true) (stop : isBoundary text s.stop = true)
      (row : InRow s.start cs s.stop)
      (brackets : ∀ o c, k.brackets? = some (o, c) → Enclosed text o c s cs)
      (children : ∀ n ∈ cs, Node.Placed text n) : Node.Placed text (.mk k l s cs)

namespace Node.Placed

variable {text : List Char} {n : Node}

theorem start_boundary (h : n.Placed text) : isBoundary text n.span.start = true := by
  cases h; assumption

theorem stop_boundary (h : n.Placed text) : isBoundary text n.span.stop = true := by
  cases h; assumption

theorem row (h : n.Placed text) : InRow n.span.start n.children n.span.stop := by
  cases h; assumption

theorem enclosed (h : n.Placed text) {o c : Char} (hk : n.kind.brackets? = some (o, c)) :
    Enclosed text o c n.span n.children := by
  cases h with
  | mk _ _ _ hb _ => exact hb o c hk

theorem child (h : n.Placed text) {m : Node} (hm : m ∈ n.children) : m.Placed text := by
  cases h with
  | mk _ _ _ _ hc => exact hc m hm

/-- A node that is laid out does not end in front of where it begins. -/
theorem start_le_stop (h : n.Placed text) : n.span.start ≤ n.span.stop :=
  h.row.le

/-- A node that is laid out is in the text, its brackets aside. -/
theorem inText (h : n.Placed text) : n.InText text := by
  induction h with
  | mk start stop row _ _ ih => exact .mk start stop row ih

end Node.Placed

namespace Node.InText

variable {text : List Char} {n : Node}

theorem start_boundary (h : n.InText text) : isBoundary text n.span.start = true := by
  cases h; assumption

theorem stop_boundary (h : n.InText text) : isBoundary text n.span.stop = true := by
  cases h; assumption

theorem row (h : n.InText text) : InRow n.span.start n.children n.span.stop := by
  cases h; assumption

theorem child (h : n.InText text) {m : Node} (hm : m ∈ n.children) : m.InText text := by
  cases h with
  | mk _ _ _ hc => exact hc m hm

/-- A node in a text does not end in front of where it begins. -/
theorem start_le_stop (h : n.InText text) : n.span.start ≤ n.span.stop :=
  h.row.le

end Node.InText

@[simp] theorem Node.span_labelled (l : Label) (n : Node) : (n.labelled l).span = n.span := by
  obtain ⟨k, l', s, cs⟩ := n
  rw [Node.labelled]
  split <;> rfl

@[simp] theorem Node.kind_labelled (l : Label) (n : Node) : (n.labelled l).kind = n.kind := by
  obtain ⟨k, l', s, cs⟩ := n
  rw [Node.labelled]
  split <;> rfl

@[simp] theorem Node.children_labelled (l : Label) (n : Node) :
    (n.labelled l).children = n.children := by
  obtain ⟨k, l', s, cs⟩ := n
  rw [Node.labelled]
  split <;> rfl

theorem Node.Placed.labelled {text : List Char} {n : Node} (h : n.Placed text) (l : Label) :
    (n.labelled l).Placed text := by
  obtain ⟨k, l', s, cs⟩ := n
  rw [Node.labelled]
  split
  · exact h
  · cases h with
    | mk hstart hstop hrow hb hc => exact .mk hstart hstop hrow hb hc

/-! ## Frames -/

/-- The nodes of a frame are laid out and stand one behind the other in the bytes from `lo` to `hi`. -/
structure Frame.Placed (text : List Char) (lo : Nat) (f : Frame) (hi : Nat) : Prop where
  row : InRow lo f.reverse hi
  nodes : ∀ n ∈ f, n.Placed text

namespace Frame.Placed

variable {text : List Char} {lo mid hi : Nat} {f g : Frame} {n : Node}

theorem nil (h : lo ≤ hi) : Frame.Placed text lo [] hi :=
  ⟨h, by simp⟩

theorem le (h : Frame.Placed text lo f hi) : lo ≤ hi :=
  h.row.le

theorem of_le (hlo : lo ≤ mid) (hf : Frame.Placed text mid f hi) : Frame.Placed text lo f hi :=
  ⟨hf.row.of_le hlo, hf.nodes⟩

theorem append (hf : Frame.Placed text lo f mid) (hg : Frame.Placed text mid g hi) :
    Frame.Placed text lo (g ++ f) hi := by
  refine ⟨?_, ?_⟩
  · rw [List.reverse_append]
    exact inRow_append.2 ⟨mid, hf.row, hg.row⟩
  · intro n hn
    rcases List.mem_append.1 hn with hn | hn
    · exact hg.nodes n hn
    · exact hf.nodes n hn

theorem cons (hf : Frame.Placed text lo f mid) (hmid : mid ≤ n.span.start) (hn : n.Placed text)
    (hhi : n.span.stop ≤ hi) : Frame.Placed text lo (n :: f) hi :=
  append (g := [n]) hf ⟨⟨hmid, hn.start_le_stop, hhi⟩, by simpa using hn⟩

/-- The nodes behind some of a frame, and those in front of them. -/
theorem of_append (h : Frame.Placed text lo (g ++ f) hi) :
    ∃ mid, Frame.Placed text lo f mid ∧ Frame.Placed text mid g hi := by
  obtain ⟨hrow, hnodes⟩ := h
  rw [List.reverse_append] at hrow
  obtain ⟨mid, hf, hg⟩ := inRow_append.1 hrow
  exact ⟨mid, ⟨hf, fun n hn => hnodes n (List.mem_append_right g hn)⟩,
    ⟨hg, fun n hn => hnodes n (List.mem_append_left f hn)⟩⟩

theorem label (h : Frame.Placed text lo f hi) (l : Option Label) :
    Frame.Placed text lo (Frame.label l f) hi := by
  -- A label changes neither the ranges of nodes nor what is in them
  cases l with
  | none => exact h
  | some l =>
    have hrow : ∀ (ns : List Node) (lo : Nat), InRow lo ns hi → InRow lo (ns.map (Node.labelled l)) hi := by
      intro ns
      induction ns with
      | nil => exact fun _ h => h
      | cons n ns ih =>
        rintro lo ⟨hlo, hn, hns⟩
        simp only [List.map_cons, InRow, Node.span_labelled]
        exact ⟨hlo, hn, ih _ hns⟩
    refine ⟨?_, ?_⟩
    · simp only [Frame.label, ← List.map_reverse]
      exact hrow _ _ h.row
    · intro n hn
      obtain ⟨m, hm, rfl⟩ := List.mem_map.1 hn
      exact (h.nodes m hm).labelled l

end Frame.Placed

/-! ## Nodes under a new node -/

/-- A frame that begins with the mark `o` and ends with the mark `c`, comments behind it aside. -/
def Frame.InBrackets (text : List Char) (o c : Char) (f : Frame) : Prop :=
  ∃ gap last inner first, f = gap ++ last :: (inner ++ [first]) ∧
    (∀ n ∈ gap, n.kind.isExtra = true) ∧ first.IsMark text o ∧ last.IsMark text c

/-- Nodes that begin and end with brackets are enclosed by them. -/
private theorem enclosed_of_inBrackets {text : List Char} {o c : Char} {f core : Frame}
    {first last : Node} (h : f.InBrackets text o c)
    (hcore : core = f.dropWhile fun n => n.kind.isExtra) (hlast : core.head? = some last)
    (hfirst : core.getLast? = some first) :
    Enclosed text o c ⟨first.span.start, last.span.stop⟩ core.reverse := by
  obtain ⟨gap, last', inner, first', rfl, hgap, ho, hc⟩ := h
  have hextra : ¬ last'.kind.isExtra = true := by rw [hc.kind]; decide
  -- Dropping the comments at the end leaves what stands from mark to mark
  rw [List.dropWhile_append_of_pos hgap, List.dropWhile_cons, if_neg hextra] at hcore
  subst hcore
  rw [List.head?_cons, Option.some.injEq] at hlast
  rw [← List.cons_append, List.getLast?_concat, Option.some.injEq] at hfirst
  subst hlast hfirst
  refine ⟨first', inner.reverse, last', ?_, ho, hc, rfl, rfl⟩
  rw [List.reverse_cons, List.reverse_append, List.reverse_singleton, List.singleton_append,
    List.cons_append]

/-- Nodes that are put under a new node stand where they stood. -/
theorem Frame.Placed.wrap {text : List Char} {lo hi : Nat} {f : Frame} {k : Kind}
    (h : Frame.Placed text lo f hi)
    (hk : ∀ o c, k.brackets? = some (o, c) → f.InBrackets text o c) :
    Frame.Placed text lo (Frame.wrap k f) hi := by
  have hparts := f.takeWhile_append_dropWhile (p := fun n => n.kind.isExtra)
  simp only [Frame.wrap]
  split
  case h_2 => exact h
  case h_1 last rest first hcore hfirst =>
    rw [← hparts] at h
    obtain ⟨mid, hcorePlaced, hgap⟩ := h.of_append
    obtain ⟨front, hfront⟩ := List.getLast?_eq_some_iff.1 hfirst
    have hrow := hcorePlaced.row
    -- The row begins with the first node of the core and ends with its last
    have hbegin : lo ≤ first.span.start ∧
        InRow first.span.start (f.dropWhile fun n => n.kind.isExtra).reverse mid := by
      rw [hfront, List.reverse_concat] at hrow ⊢
      exact ⟨hrow.1, Nat.le_refl _, hrow.2⟩
    have hend : last.span.stop ≤ mid ∧ InRow first.span.start
        (f.dropWhile fun n => n.kind.isExtra).reverse last.span.stop := by
      have hrow := hbegin.2
      rw [hcore, List.reverse_cons] at hrow ⊢
      obtain ⟨hrest, hlast, hmid⟩ := inRow_concat.1 hrow
      exact ⟨hmid, inRow_concat.2 ⟨hrest, hlast, Nat.le_refl _⟩⟩
    have hfirstPlaced : first.Placed text := hcorePlaced.nodes first (by rw [hfront]; simp)
    have hlastPlaced : last.Placed text := hcorePlaced.nodes last (by rw [hcore]; simp)
    have hnode : (Node.mk k none ⟨first.span.start, last.span.stop⟩
        (f.dropWhile fun n => n.kind.isExtra).reverse).Placed text := by
      -- A node that is wrapped stands between its first and its last part
      refine .mk hfirstPlaced.start_boundary hlastPlaced.stop_boundary hend.2 ?_ ?_
      · intro o c hoc
        exact enclosed_of_inBrackets (hk o c hoc) rfl (by rw [hcore]; rfl) hfirst
      · intro n hn
        exact hcorePlaced.nodes n (List.mem_reverse.1 hn)
    have hwrapped : Frame.Placed text lo [Node.mk k none ⟨first.span.start, last.span.stop⟩
        (f.dropWhile fun n => n.kind.isExtra).reverse] mid :=
      ⟨⟨hbegin.1, hnode.start_le_stop, hend.1⟩, by simpa using hnode⟩
    exact hwrapped.append hgap

/-! ## Gaps and tokens -/

/-- The cursor is at its offset in the text. -/
def Cursor.In (text : List Char) (c : Cursor) : Prop :=
  ∃ before, text = before ++ c.rest ∧ utf8Length before = c.offset

/-- A cursor in a text is between two characters. -/
theorem Cursor.In.boundary {text : List Char} {c : Cursor} (h : c.In text) :
    isBoundary text c.offset = true := by
  obtain ⟨before, htext, hlen⟩ := h
  exact isBoundary_iff.2 ⟨before, c.rest, htext, hlen⟩

/-- A cursor in a text has the rest of it in front of it. -/
theorem Cursor.In.dropBytes_eq {text : List Char} {c : Cursor} (h : c.In text) :
    dropBytes text c.offset = c.rest := by
  obtain ⟨before, htext, hlen⟩ := h
  rw [htext, ← hlen, dropBytes_append]

/-- The cursor behind some of the characters that are left. -/
theorem Cursor.In.step {text cs : List Char} {i : Nat} {nl : Bool} (front : List Char)
    (h : (Cursor.mk (front ++ cs) i nl).In text) (nl' : Bool) :
    (Cursor.mk cs (i + utf8Length front) nl').In text := by
  obtain ⟨before, htext, hlen⟩ := h
  exact ⟨before ++ front, by rw [htext, List.append_assoc],
    by rw [utf8Length_append, hlen]⟩

/-- Where the nodes of a gap begin: in front of the comment that was opened, if one was. -/
def Gap.start (i : Nat) : Gap → Nat
  | between => i
  | inLine start | inBlock start => start

/-- The nodes of a gap behind a comment, and the comment in front of them. -/
private theorem exists_gap_of_comment {text : List Char} {f f' : Frame} {start stop mid hi : Nat}
    (hstart : isBoundary text start = true) (hstop : isBoundary text stop = true)
    (hle : start ≤ stop) (hmid : stop ≤ mid)
    (h : ∃ gap, f' = gap ++ commentNode start stop :: f ∧ (∀ n ∈ gap, n.kind.isExtra = true) ∧
      Frame.Placed text mid gap hi) :
    ∃ gap, f' = gap ++ f ∧ (∀ n ∈ gap, n.kind.isExtra = true) ∧ Frame.Placed text start gap hi := by
  obtain ⟨gap, rfl, hextra, hgap⟩ := h
  have hcomment : (commentNode start stop).Placed text :=
    .mk hstart hstop hle (fun _ _ h => nomatch h) (fun _ h => nomatch h)
  refine ⟨gap ++ [commentNode start stop], by simp, ?_, ?_⟩
  · intro n hn
    rcases List.mem_append.1 hn with hn | hn
    · exact hextra n hn
    · rw [List.mem_singleton.1 hn]
      rfl
  · exact Frame.Placed.append ⟨⟨Nat.le_refl _, hle, hmid⟩, by simpa using hcomment⟩ hgap

/-- Skipping a gap puts comments on the frame, which stand between the start of the gap and the next
token. -/
theorem skipGap_placed {text : List Char} {g : Gap} {nl : Bool} {i : Nat} {cs : List Char}
    {f f' : Frame} {c' : Cursor} (h : skipGap g nl i cs f = some (f', c'))
    (hat : (Cursor.mk cs i nl).In text) (hstart : isBoundary text (g.start i) = true)
    (hle : g.start i ≤ i) :
    c'.In text ∧ ∃ gap, f' = gap ++ f ∧ (∀ n ∈ gap, n.kind.isExtra = true) ∧
      Frame.Placed text (g.start i) gap c'.offset := by
  -- Along the cases of `skipGap`; in a comment the gap has to begin in front of it
  fun_induction skipGap g nl i cs f
  case case1 nl i cs f ih =>
    -- A comment opens that ends with its line
    exact ih h (hat.step ['/', '/'] nl) hat.boundary (Nat.le_add_right i 2)
  case case2 nl i cs f ih =>
    -- A comment opens that has a closing mark
    exact ih h (hat.step ['/', '*'] nl) hat.boundary (Nat.le_add_right i 2)
  case case3 nl i c cs f _ _ _ ih =>
    have hat' := hat.step [c] (nl || isLineBreak c)
    obtain ⟨hin, gap, hf', hextra, hgap⟩ := ih h hat' hat'.boundary (Nat.le_refl _)
    exact ⟨hin, gap, hf', hextra, hgap.of_le (Nat.le_add_right i c.utf8Size)⟩
  case case4 nl i c cs f _ _ _ =>
    cases h
    exact ⟨hat, [], rfl, by simp, .nil (Nat.le_refl i)⟩
  case case5 nl i f =>
    cases h
    exact ⟨hat, [], rfl, by simp, .nil (Nat.le_refl i)⟩
  case case6 start nl i c cs f _ ih =>
    -- The comment ends in front of the line break
    have hat' := hat.step [c] true
    obtain ⟨hin, hgap⟩ := ih h hat' hat'.boundary (Nat.le_refl _)
    exact ⟨hin, exists_gap_of_comment hstart hat.boundary hle (Nat.le_add_right i _) hgap⟩
  case case7 start nl i c cs f _ ih =>
    exact ih h (hat.step [c] nl) hstart (Nat.le_add_right_of_le hle)
  case case8 start nl i f =>
    cases h
    exact ⟨hat, exists_gap_of_comment hstart hat.boundary hle (Nat.le_refl i)
      ⟨[], rfl, by simp, .nil (Nat.le_refl i)⟩⟩
  case case9 start nl i cs f ih =>
    -- The comment ends with its closing mark
    have hat' := hat.step ['*', '/'] nl
    obtain ⟨hin, hgap⟩ := ih h hat' hat'.boundary (Nat.le_refl _)
    exact ⟨hin, exists_gap_of_comment hstart hat'.boundary (Nat.le_add_right_of_le hle)
      (Nat.le_refl _) hgap⟩
  case case10 start nl i c cs f _ ih =>
    exact ih h (hat.step [c] nl) hstart (Nat.le_add_right_of_le hle)
  case case11 => exact nomatch h

/-- The leaf that a token of `n` characters is read as. -/
def Cursor.leaf (c : Cursor) (k : Kind) (n : Nat) : Node :=
  .mk k none ⟨c.offset, c.offset + utf8Length (c.rest.take n)⟩ []

/-- Reading a token puts its leaf on the frame, and the comments of the gap behind it. -/
theorem shift_cases {text : List Char} {k : Kind} {l : Lexeme} {f f' : Frame} {c c' : Cursor}
    (h : c.shift k l f = some (f', c')) (hc : c.In text) :
    c'.In text ∧ ∃ n gap, l.length? c.rest = some n ∧ f' = gap ++ c.leaf k n :: f ∧
      (∀ m ∈ gap, m.kind.isExtra = true) ∧ isBoundary text (c.leaf k n).span.stop = true ∧
      Frame.Placed text (c.leaf k n).span.stop gap c'.offset := by
  simp only [Cursor.shift] at h
  split at h
  case h_2 => exact nomatch h
  -- The leaf is cut off the text, and behind it the gap is skipped
  case h_1 n hn =>
    have hat : (Cursor.mk (c.rest.take (n + 1) ++ c.rest.drop (n + 1)) c.offset false).In text := by
      rw [List.take_append_drop]
      exact hc
    have hbehind := hat.step (c.rest.take (n + 1)) false
    obtain ⟨hin, gap, hf', hextra, hgap⟩ :=
      skipGap_placed h hbehind hbehind.boundary (Nat.le_refl _)
    exact ⟨hin, n + 1, gap, hn, hf', hextra, hbehind.boundary, hgap⟩

/-- A token that ends between two characters is laid out. -/
theorem Cursor.In.leaf_placed {text : List Char} {c : Cursor} {k : Kind} {n : Nat} (hc : c.In text)
    (hk : k.brackets? = none) (hstop : isBoundary text (c.leaf k n).span.stop = true) :
    (c.leaf k n).Placed text :=
  .mk hc.boundary hstop (Nat.le_add_right _ _) (fun o m h => by rw [hk] at h; exact nomatch h)
    (fun _ h => nomatch h)

/-- A leaf of one ASCII character is a mark. -/
theorem Cursor.In.isMark_leaf {text : List Char} {c : Cursor} {n : Nat} {m : Char}
    (hc : c.In text) (hm : m.utf8Size = 1)
    (hn : (Lexeme.symbol [m] []).length? c.rest = some n) :
    (c.leaf .punctuation n).IsMark text m := by
  -- The text goes on with the mark, which is one byte long
  obtain ⟨rest, hrest, rfl⟩ : ∃ rest, c.rest = m :: rest ∧ n = 1 := by
    simp only [Lexeme.length?] at hn
    split at hn
    case isFalse => exact nomatch hn
    case isTrue hprefix =>
      obtain ⟨rest, hrest⟩ := List.isPrefixOf_iff_prefix.1 hprefix
      refine ⟨rest, hrest.symm, ?_⟩
      split at hn <;> simp_all
  refine ⟨rfl, ?_, rest, ?_⟩
  · simp [Cursor.leaf, Node.span, hrest, utf8Length, hm]
  · rw [← hrest]
    exact hc.dropBytes_eq

end Enlist.Syntax
