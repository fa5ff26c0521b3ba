import Enlist.Proofs.Syntax.Layout

/-!
# What a grammar reads stands where it was read

`Derives` says what a form can read without saying how: it forgets which choice comes first and how
often a repetition is tried. Whatever is read is derived (`derives_of_read`), and facts about all that a
grammar reads are inductions over derivations. The facts here need two things of the grammar, which are
computed from its forms: only a step of a `grow` puts nodes that were read before it under a new one
(`Form.keeps`), and nodes of the kinds in brackets are made of forms that begin and end with these
(`Form.wellBracketed`).

## Key results

- `derives_of_read`: what is read is derived
- `Derives.adds`: a form that keeps the frame only adds nodes to it
- `Derives.inBrackets`: a form in brackets reads nodes in brackets
- `Derives.placed`: what is derived stands behind what was read before it
-/

namespace Enlist.Syntax

open Text

variable {R : Type} {rules : R → Form R}

/-! ## Derivations -/

/-- The form can be read without reading anything. -/
def Form.mayStay : Form R → Bool
  | empty | many _ | ahead _ | absent _ | newLine | sameLine | textEnd => true
  | _ => false

/-- A form takes a frame and a cursor to another frame and another cursor. -/
inductive Derives (rules : R → Form R) : Form R → Frame → Cursor → Frame → Cursor → Prop
  /-- Nothing is read, and nothing is added. -/
  | stay {a : Form R} (ha : a.mayStay = true) (f : Frame) (c : Cursor) : Derives rules a f c f c
  | leaf {k : Kind} {l : Lexeme} {f f' : Frame} {c c' : Cursor}
      (h : c.shift k l f = some (f', c')) : Derives rules (.leaf k l) f c f' c'
  | seq {a b : Form R} {f g f' : Frame} {c d c' : Cursor}
      (ha : Derives rules a f c g d) (hb : Derives rules b g d f' c') :
      Derives rules (.seq a b) f c f' c'
  | left {a b : Form R} {f f' : Frame} {c c' : Cursor}
      (ha : Derives rules a f c f' c') : Derives rules (.alt a b) f c f' c'
  | right {a b : Form R} {f f' : Frame} {c c' : Cursor}
      (hb : Derives rules b f c f' c') : Derives rules (.alt a b) f c f' c'
  | many {a : Form R} {f g f' : Frame} {c d c' : Cursor}
      (ha : Derives rules a f c g d) (hs : Derives rules (.many a) g d f' c') :
      Derives rules (.many a) f c f' c'
  | node {k : Kind} {a : Form R} {f g : Frame} {c c' : Cursor}
      (ha : Derives rules a [] c g c') : Derives rules (.node k a) f c (Frame.wrap k g ++ f) c'
  | labelled {l : Label} {a : Form R} {f g : Frame} {c c' : Cursor}
      (ha : Derives rules a [] c g c') :
      Derives rules (.labelled l a) f c (Frame.label (some l) g ++ f) c'
  | grow {base step : Form R} {f g g' : Frame} {c d c' : Cursor}
      (hb : Derives rules base [] c g d) (hs : Derives rules (.many step) g d g' c') :
      Derives rules (.grow base step) f c (g' ++ f) c'
  | extend {k : Kind} {l : Option Label} {a : Form R} {f g : Frame} {c c' : Cursor}
      (ha : Derives rules a (Frame.label l f) c g c') :
      Derives rules (.extend k l a) f c (Frame.wrap k g) c'
  | call {r : R} {f f' : Frame} {c c' : Cursor}
      (h : Derives rules (rules r) f c f' c') : Derives rules (.call r) f c f' c'

namespace Derives

variable {a b : Form R} {k : Kind} {f f' : Frame} {c c' : Cursor}

theorem of_leaf {l : Lexeme} (h : Derives rules (.leaf k l) f c f' c') :
    c.shift k l f = some (f', c') := by
  cases h with
  | stay ha => exact nomatch ha
  | leaf h => exact h

theorem of_seq (h : Derives rules (.seq a b) f c f' c') :
    ∃ g d, Derives rules a f c g d ∧ Derives rules b g d f' c' := by
  cases h with
  | stay ha => exact nomatch ha
  | seq ha hb => exact ⟨_, _, ha, hb⟩

theorem of_alt (h : Derives rules (.alt a b) f c f' c') :
    Derives rules a f c f' c' ∨ Derives rules b f c f' c' := by
  cases h with
  | stay ha => exact nomatch ha
  | left ha => exact .inl ha
  | right hb => exact .inr hb

theorem of_node (h : Derives rules (.node k a) f c f' c') :
    ∃ g, Derives rules a [] c g c' ∧ f' = Frame.wrap k g ++ f := by
  cases h with
  | stay ha => exact nomatch ha
  | node ha => exact ⟨_, ha, rfl⟩

theorem of_call {r : R} (h : Derives rules (.call r) f c f' c') :
    Derives rules (rules r) f c f' c' := by
  cases h with
  | stay ha => exact nomatch ha
  | call h => exact h

end Derives

/-- What a reader that is run again and again reads is derived, if each run is. -/
private theorem derives_repeat {a : Form R} {r : Reader}
    (hr : ∀ f c f' c', r f c = some (f', c') → Derives rules a f c f' c') (n : Nat) (f : Frame)
    (c : Cursor) :
    Derives rules (.many a) f c (Reader.repeat r n f c).1 (Reader.repeat r n f c).2 := by
  induction n generalizing f c with
  | zero => exact .stay rfl f c
  | succ n ih =>
    simp only [Reader.repeat]
    split
    case h_1 f' c' h =>
      split
      · exact .many (hr f c f' c' h) (ih f' c')
      · exact .stay rfl f c
    case h_2 => exact .stay rfl f c

/-- What a form reads is derived, if what the rules read is. -/
theorem derives_of_read {limit : Nat} {rule : R → Reader}
    (hrule : ∀ r f c f' c', rule r f c = some (f', c') → Derives rules (.call r) f c f' c')
    {a : Form R} {f f' : Frame} {c c' : Cursor}
    (h : a.read limit rule f c = some (f', c')) : Derives rules a f c f' c' := by
  -- Induction on the form; `ahead` and `absent` read, but leave the cursor where it was
  induction a generalizing f c f' c' with
  | empty =>
    cases h
    exact .stay rfl f c
  | leaf k l => exact .leaf h
  | seq a b iha ihb =>
    simp only [Form.read] at h
    split at h
    case h_1 g d ha => exact .seq (iha ha) (ihb h)
    case h_2 => exact nomatch h
  | alt a b iha ihb =>
    simp only [Form.read] at h
    split at h
    case h_1 ha =>
      cases h
      exact .left (iha ha)
    case h_2 => exact .right (ihb h)
  | many a iha =>
    simp only [Form.read, Option.some.injEq] at h
    have hd := derives_repeat (fun _ _ _ _ => iha) limit f c
    rwa [h] at hd
  | ahead a iha | absent a iha =>
    simp only [Form.read] at h
    split at h <;> cases h
    exact .stay rfl f c
  | node k a iha =>
    simp only [Form.read] at h
    split at h <;> cases h
    case h_1 g ha => exact .node (iha ha)
  | labelled l a iha =>
    simp only [Form.read] at h
    split at h <;> cases h
    case h_1 g ha => exact .labelled (iha ha)
  | grow base step ihb ihs =>
    simp only [Form.read] at h
    split at h
    case h_1 g d hb =>
      cases h
      exact .grow (ihb hb) (derives_repeat (fun _ _ _ _ => ihs) limit g d)
    case h_2 => exact nomatch h
  | extend k l a iha =>
    simp only [Form.read] at h
    split at h <;> cases h
    case h_1 g ha => exact .extend (iha ha)
  | call r => exact hrule r f c f' c' h
  | newLine | sameLine | textEnd =>
    simp only [Form.read] at h
    split at h <;> cases h
    exact .stay rfl f c

/-- What a rule of a grammar reads is derived. -/
theorem derives_of_grammarRead {limit depth : Nat} {r : R} {f f' : Frame} {c c' : Cursor}
    (h : Grammar.read rules limit depth r f c = some (f', c')) :
    Derives rules (.call r) f c f' c' := by
  -- Induction on the number of rules that may be open, since forms call rules
  induction depth generalizing r f c f' c' with
  | zero => exact nomatch h
  | succ depth ih => exact .call (derives_of_read (fun _ _ _ _ _ => ih) h)

/-- What is derived ends in the text in which it begins. -/
theorem Derives.moves {text : List Char} {a : Form R} {f f' : Frame} {c c' : Cursor}
    (h : Derives rules a f c f' c') (hc : c.In text) : c'.In text := by
  induction h with
  | stay => exact hc
  | leaf h => exact (shift_cases h hc).1
  | seq _ _ ih₁ ih₂ | many _ _ ih₁ ih₂ | grow _ _ ih₁ ih₂ => exact ih₂ (ih₁ hc)
  | left _ ih | right _ ih | node _ ih | labelled _ ih | extend _ ih | call _ ih => exact ih hc

/-! ## Forms that only add nodes -/

/-- The form leaves the nodes of a frame as they are: no part of it extends what was read before it,
unless inside a `grow` or a node of its own. -/
def Form.keeps : Form R → Bool
  | seq a b | alt a b => a.keeps && b.keeps
  | many a => a.keeps
  | extend _ _ _ => false
  | _ => true

/-- A form that keeps the frame only adds nodes to it. -/
theorem Derives.adds {text : List Char} (hrules : ∀ r, (rules r).keeps = true) {a : Form R}
    {f f' : Frame} {c c' : Cursor} (h : Derives rules a f c f' c') (hc : c.In text)
    (ha : a.keeps = true) : ∃ g, f' = g ++ f := by
  -- A form puts nodes in front of the frame; only `extend` takes some away
  induction h with
  | stay => exact ⟨[], rfl⟩
  | leaf h =>
    obtain ⟨_, n, gap, _, hf', _⟩ := shift_cases h hc
    rw [← List.singleton_append, ← List.append_assoc] at hf'
    exact ⟨_, hf'⟩
  | seq hd _ ih₁ ih₂ =>
    simp only [Form.keeps, Bool.and_eq_true] at ha
    obtain ⟨g, rfl⟩ := ih₁ hc ha.1
    obtain ⟨g', rfl⟩ := ih₂ (hd.moves hc) ha.2
    exact ⟨g' ++ g, by simp⟩
  | left _ ih =>
    simp only [Form.keeps, Bool.and_eq_true] at ha
    exact ih hc ha.1
  | right _ ih =>
    simp only [Form.keeps, Bool.and_eq_true] at ha
    exact ih hc ha.2
  | many hd _ ih₁ ih₂ =>
    obtain ⟨g, rfl⟩ := ih₁ hc ha
    obtain ⟨g', rfl⟩ := ih₂ (hd.moves hc) ha
    exact ⟨g' ++ g, by simp⟩
  | node | labelled | grow => exact ⟨_, rfl⟩
  | extend => exact nomatch ha
  | call _ ih => exact ih hc (hrules _)

/-! ## Forms in brackets -/

/-- The form begins with the mark `o`, and keeps it. -/
def Form.opensWith (o : Char) : Form R → Bool
  | leaf .punctuation (.symbol [m] []) => m == o
  | seq a b => a.opensWith o && b.keeps
  | _ => false

def Form.closesWith (c : Char) : Form R → Bool
  | leaf .punctuation (.symbol [m] []) => m == c
  | seq a b => a.keeps && b.closesWith c
  | _ => false

def Form.inBrackets (o c : Char) : Form R → Bool
  | seq a b => a.opensWith o && b.closesWith c
  | _ => false

/-- The nodes of the form that are of one of the kinds in brackets have their brackets. -/
def Form.wellBracketed : Form R → Bool
  | leaf k _ => k.brackets?.isNone
  | seq a b | alt a b | grow a b => a.wellBracketed && b.wellBracketed
  | many a | labelled _ a => a.wellBracketed
  | node k a =>
    a.wellBracketed &&
      match k.brackets? with
      | some (o, c) => a.inBrackets o c
      | none => true
  | extend k _ a => k.brackets?.isNone && a.wellBracketed
  | _ => true

/-- A form that begins with a mark puts the mark on the frame first. -/
private theorem Derives.opens {text : List Char} (hrules : ∀ r, (rules r).keeps = true) {a : Form R}
    {f f' : Frame} {c c' : Cursor} (h : Derives rules a f c f' c') (hc : c.In text) {o : Char}
    (ho : o.utf8Size = 1) (ha : a.opensWith o = true) :
    ∃ g first, f' = g ++ first :: f ∧ first.IsMark text o := by
  fun_induction Form.opensWith o a generalizing f f' c c'
  case case1 m =>
    obtain rfl : m = o := beq_iff_eq.1 ha
    -- A mark is a leaf of its own, and of a sequence it opens the first part
    cases h with
    | stay hs => exact nomatch hs
    | leaf h =>
      obtain ⟨_, n, gap, hn, rfl, _⟩ := shift_cases h hc
      exact ⟨gap, _, rfl, hc.isMark_leaf ho hn⟩
  case case2 a b iha =>
    simp only [Bool.and_eq_true] at ha
    cases h with
    | stay hs => exact nomatch hs
    | seq hd hd' =>
      obtain ⟨g, first, rfl, hfirst⟩ := iha hd hc ha.1
      obtain ⟨g', rfl⟩ := hd'.adds hrules (hd.moves hc) ha.2
      exact ⟨g' ++ g, first, by simp, hfirst⟩
  case case3 => exact nomatch ha

/-- A form that ends with a mark puts the mark on the frame last, but for comments. -/
private theorem Derives.closes {text : List Char} (hrules : ∀ r, (rules r).keeps = true) {a : Form R}
    {f f' : Frame} {c c' : Cursor} (h : Derives rules a f c f' c') (hc : c.In text) {m : Char}
    (hm : m.utf8Size = 1) (ha : a.closesWith m = true) :
    ∃ gap last g, f' = gap ++ last :: (g ++ f) ∧ (∀ n ∈ gap, n.kind.isExtra = true) ∧
      last.IsMark text m := by
  fun_induction Form.closesWith m a generalizing f f' c c'
  case case1 m' =>
    obtain rfl : m' = m := beq_iff_eq.1 ha
    cases h with
    | stay hs => exact nomatch hs
    | leaf h =>
      obtain ⟨_, n, gap, hn, rfl, hextra, _⟩ := shift_cases h hc
      exact ⟨gap, _, [], rfl, hextra, hc.isMark_leaf hm hn⟩
  case case2 a b ihb =>
    -- Of a sequence the mark closes the second part
    simp only [Bool.and_eq_true] at ha
    cases h with
    | stay hs => exact nomatch hs
    | seq hd hd' =>
      obtain ⟨g, rfl⟩ := hd.adds hrules hc ha.1
      obtain ⟨gap, last, g', rfl, hextra, hlast⟩ := ihb hd' (hd.moves hc) ha.2
      exact ⟨gap, last, g' ++ g, by simp, hextra, hlast⟩
  case case3 => exact nomatch ha

/-- A form in brackets reads nodes in brackets. -/
theorem Derives.inBrackets {text : List Char} (hrules : ∀ r, (rules r).keeps = true) {a : Form R}
    {f' : Frame} {c c' : Cursor} (h : Derives rules a [] c f' c') (hc : c.In text) {o m : Char}
    (ho : o.utf8Size = 1) (hm : m.utf8Size = 1) (ha : a.inBrackets o m = true) :
    f'.InBrackets text o m := by
  cases a with
  | seq a b =>
    simp only [Form.inBrackets, Bool.and_eq_true] at ha
    cases h with
    | stay hs => exact nomatch hs
    | seq hd hd' =>
      obtain ⟨g, first, rfl, hfirst⟩ := hd.opens hrules hc ho ha.1
      obtain ⟨gap, last, g', rfl, hextra, hlast⟩ := hd'.closes hrules (hd.moves hc) hm ha.2
      exact ⟨gap, last, g' ++ g, first, by simp, hextra, hfirst, hlast⟩
  | _ => exact nomatch ha

/-- Brackets are marks of one byte. -/
theorem Kind.utf8Size_of_brackets? {k : Kind} {o c : Char} (h : k.brackets? = some (o, c)) :
    o.utf8Size = 1 ∧ c.utf8Size = 1 := by
  cases k <;> simp only [Kind.brackets?, reduceCtorEq, Option.some.injEq, Prod.mk.injEq] at h <;>
    obtain ⟨rfl, rfl⟩ := h <;> exact ⟨rfl, rfl⟩

/-! ## What is derived is laid out -/

/-- What is derived behind the nodes of a frame stands behind them, and is laid out. -/
theorem Derives.placed {text : List Char} (hkeeps : ∀ r, (rules r).keeps = true)
    (hwell : ∀ r, (rules r).wellBracketed = true) {a : Form R} {f f' : Frame} {c c' : Cursor}
    (h : Derives rules a f c f' c') (hc : c.In text) (ha : a.wellBracketed = true) {lo : Nat}
    (hf : Frame.Placed text lo f c.offset) : Frame.Placed text lo f' c'.offset := by
  -- Every form goes on where the one in front of it ended
  induction h generalizing lo with
  | stay => exact hf
  | leaf h =>
    obtain ⟨_, n, gap, _, rfl, _, hstop, hgap⟩ := shift_cases h hc
    have hleaf := hc.leaf_placed (Option.isNone_iff_eq_none.1 ha) hstop
    exact (hf.cons (Nat.le_refl _) hleaf (Nat.le_refl _)).append hgap
  | seq hd _ ih₁ ih₂ =>
    simp only [Form.wellBracketed, Bool.and_eq_true] at ha
    exact ih₂ (hd.moves hc) ha.2 (ih₁ hc ha.1 hf)
  | left _ ih =>
    simp only [Form.wellBracketed, Bool.and_eq_true] at ha
    exact ih hc ha.1 hf
  | right _ ih =>
    simp only [Form.wellBracketed, Bool.and_eq_true] at ha
    exact ih hc ha.2 hf
  | many hd _ ih₁ ih₂ => exact ih₂ (hd.moves hc) ha (ih₁ hc ha hf)
  -- A node is read on a frame of its own, so its marks are the ends of that frame
  | node hd ih =>
    simp only [Form.wellBracketed, Bool.and_eq_true] at ha
    have hnodes := ih hc ha.1 (.nil (Nat.le_refl _))
    refine hf.append (hnodes.wrap fun o m hom => ?_)
    have hb := ha.2
    rw [hom] at hb
    obtain ⟨ho, hm⟩ := Kind.utf8Size_of_brackets? hom
    exact hd.inBrackets hkeeps hc ho hm hb
  | labelled _ ih => exact hf.append ((ih hc ha (.nil (Nat.le_refl _))).label _)
  | grow hd _ ih₁ ih₂ =>
    simp only [Form.wellBracketed, Bool.and_eq_true] at ha
    exact hf.append (ih₂ (hd.moves hc) ha.2 (ih₁ hc ha.1 (.nil (Nat.le_refl _))))
  | extend _ ih =>
    simp only [Form.wellBracketed, Bool.and_eq_true, Option.isNone_iff_eq_none] at ha
    refine (ih hc ha.2 (hf.label _)).wrap fun o m hom => ?_
    rw [ha.1] at hom
    exact nomatch hom
  | call _ ih => exact ih hc (hwell _) hf

end Enlist.Syntax
