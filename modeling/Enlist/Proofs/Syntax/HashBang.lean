import Enlist.Imports.Table
import Enlist.Proofs.Syntax.Tokens
import Enlist.Proofs.Syntax.Tree

/-!
# The line that names an interpreter

Such a line opens with `#!` and stands at the beginning of a text only: no token of any other class
begins so, and so no rule but that of the whole text gets past it. That is computed from the forms of
the grammar, by a check of their leaves.

## Key results

- `Derives.stands`: a form without a token for what is left reads nothing
- `statement_stands`: no statement begins with `#!`
- `useStrictEnd?_of_hashBang`: behind such a line there is no directive
-/

namespace Enlist.Syntax

variable {R : Type} {rules : R → Form R}

/-! ## Forms that find no token -/

/-- All tokens of the form are of classes in `p`, and all rules that it calls are in `called`. -/
def Form.over (p : Lexeme → Bool) (called : R → Bool) : Form R → Bool
  | leaf _ l => p l
  | seq a b | alt a b | grow a b => a.over p called && b.over p called
  | many a | ahead a | absent a | node _ a | labelled _ a | extend _ _ a => a.over p called
  | call r => called r
  | empty | newLine | sameLine | textEnd => true

/-- Where no token of a form stands, the form stays where it is. -/
theorem Derives.stands {p : Lexeme → Bool} {called : R → Bool}
    (hrules : ∀ r, called r = true → (rules r).over p called = true) {a : Form R} {f f' : Frame}
    {c c' : Cursor} (h : Derives rules a f c f' c')
    (hnone : ∀ l, p l = true → l.length? c.rest = none) (ha : a.over p called = true) : c' = c := by
  -- No lexeme reads anything, so no part moves the cursor
  induction h with
  | stay => rfl
  | leaf h =>
    rw [Cursor.shift, hnone _ ha] at h
    cases h
  | seq _ _ ih₁ ih₂ | grow _ _ ih₁ ih₂ =>
    simp only [Form.over, Bool.and_eq_true] at ha
    obtain rfl := ih₁ hnone ha.1
    exact ih₂ hnone ha.2
  | left _ ih =>
    simp only [Form.over, Bool.and_eq_true] at ha
    exact ih hnone ha.1
  | right _ ih =>
    simp only [Form.over, Bool.and_eq_true] at ha
    exact ih hnone ha.2
  | many _ _ ih₁ ih₂ =>
    obtain rfl := ih₁ hnone ha
    exact ih₂ hnone ha
  | node _ ih | labelled _ ih | extend _ ih => exact ih hnone ha
  | call _ ih => exact ih hnone (hrules _ ha)

/-! ## Tokens that do not begin with the mark -/

/-- No token of the class begins with `#!`. -/
def Lexeme.passesHashBang : Lexeme → Bool
  | symbol (c :: _) _ | keyword (c :: _) => c != '#'
  | symbol [] _ | keyword [] | hashBang => false
  | _ => true

/-- No token but the line itself begins with `#!`. -/
theorem Lexeme.length?_hashBang {l : Lexeme} (h : l.passesHashBang = true) (cs : List Char) :
    l.length? ('#' :: '!' :: cs) = none := by
  have hword : wordLength? ('#' :: '!' :: cs) = none := by
    simp [wordLength?, show isWordStart '#' = false by decide]
  have hinner : wordLength? ('!' :: cs) = none := by
    simp [wordLength?, show isWordStart '!' = false by decide]
  -- Each lexeme begins with another character
  cases l with
  | symbol text stops =>
    cases text with
    | nil => cases h
    | cons c text => simp [length?, List.isPrefixOf, bne_iff_ne.1 h]
  | keyword text =>
    cases text with
    | nil => cases h
    | cons c text => simp [length?, List.isPrefixOf, bne_iff_ne.1 h]
  | word => exact hword
  | name except => simp [length?, hword]
  | privateName => simp [length?, hinner]
  | number => simp [length?, numberLength?, decimalLength?, digitsLength?, show ('#').isDigit = false by decide]
  | string => simp [length?]
  | regex => simp [length?]
  | template opens continues => cases opens <;> simp [length?]
  | hashBang => cases h

/-! ## The grammar -/

/-- Every rule but that of a whole text. -/
def isInner : TypeScript.Rule → Bool
  | .program => false
  | _ => true

/-- No operator begins with `#!`. -/
private theorem over_binaryOperator (level : Nat) :
    (TypeScript.binaryOperator level).over Lexeme.passesHashBang isInner = true := by
  unfold TypeScript.binaryOperator
  split <;> decide +kernel

/-- Only the rule of a whole text has a token that begins with `#!`. -/
theorem TypeScript.grammar_over (r : TypeScript.Rule) (h : isInner r = true) :
    (TypeScript.grammar r).over Lexeme.passesHashBang isInner = true := by
  cases r with
  | program => exact nomatch h
  | binary level =>
    simp only [TypeScript.grammar, TypeScript.binary]
    split
    · show (true && ((TypeScript.binaryOperator level).over Lexeme.passesHashBang isInner && true)) = true
      rw [over_binaryOperator]
      rfl
    · rfl
  | _ => decide +kernel

/-- No statement begins with `#!`. -/
theorem statement_stands {limit depth : Nat} {f f' : Frame} {c c' : Cursor} {cs : List Char}
    (hrest : c.rest = '#' :: '!' :: cs)
    (h : Grammar.read TypeScript.grammar limit depth .statement f c = some (f', c')) : c' = c := by
  refine (derives_of_grammarRead h).stands TypeScript.grammar_over (fun l hl => ?_) rfl
  rw [hrest]
  exact Lexeme.length?_hashBang hl cs

/-! ## Texts that begin so -/

/-- A reader that does not get on is not run again. -/
theorem Reader.repeat_eq_self {r : Reader} {f : Frame} {c : Cursor}
    (h : ∀ f' c', r f c = some (f', c') → c' = c) (n : Nat) : Reader.repeat r n f c = (f, c) := by
  cases n with
  | zero => rfl
  | succ n =>
    rw [Reader.repeat]
    split
    case h_1 f' c' hr =>
      rw [h f' c' hr]
      exact if_neg (Nat.lt_irrefl _)
    case h_2 => rfl

open TypeScript in
/-- A whole text is read as a first line that may name an interpreter, and as statements up to its
end. -/
theorem exists_of_read_program {limit depth : Nat} {f f' : Frame} {c c' : Cursor}
    (h : Grammar.read grammar limit depth .program f c = some (f', c')) :
    ∃ inner first d,
      (Form.opt (leaf .hashBang .hashBang)).read limit (Grammar.read grammar limit inner) f c =
        some (first, d) ∧
      Reader.repeat (Grammar.read grammar limit inner .statement) limit first d = (f', c') ∧
      c'.rest = [] := by
  cases depth with
  | zero => cases h
  | succ inner =>
    refine ⟨inner, ?_⟩
    have hread : program.read limit (Grammar.read grammar limit inner) f c = some (f', c') := h
    simp only [program, HAppend.hAppend, Append.append, Form.read] at hread
    -- The first line is read if it is there, and then statements up to the end
    cases hline : (Form.opt (leaf .hashBang .hashBang)).read limit (Grammar.read grammar limit inner) f c with
    | none =>
      rw [hline] at hread
      cases hread
    | some r =>
      rw [hline] at hread
      simp only at hread
      split at hread
      case isFalse => cases hread
      case isTrue hempty =>
        obtain ⟨rfl, rfl⟩ := Prod.mk.inj (Option.some.inj hread)
        exact ⟨r.1, r.2, rfl, rfl, List.isEmpty_iff.1 hempty⟩

/-- The statements of a text that begins with `#!` are read behind a node of that line. -/
theorem exists_hashBang_of_statements {cs : List Char} {ns : List Node}
    (h : SyntaxTree.statements? ('#' :: '!' :: cs) = some ns) :
    ∃ n rest, ns = n :: rest ∧ n.kind = .hashBang := by
  simp only [SyntaxTree.statements?, Option.bind_eq_bind, Option.bind_eq_some_iff,
    Option.pure_def, Option.some.injEq, Prod.exists] at h
  obtain ⟨f, c, hstart, f', c', hread, rfl⟩ := h
  have hat : Cursor.ofText ('#' :: '!' :: cs) = some ([], ⟨'#' :: '!' :: cs, 0, false⟩) :=
    skipGap_cons (by decide) false 0 _ []
  rw [hat, Option.some.injEq, Prod.mk.injEq] at hstart
  obtain ⟨rfl, rfl⟩ := hstart
  generalize ('#' :: '!' :: cs).length + 1 = limit at hread
  obtain ⟨inner, first, d, hline, hstatements, hend⟩ := exists_of_read_program hread
  simp only [Form.opt, HOrElse.hOrElse, OrElse.orElse, Form.read] at hline
  cases hshift : Cursor.shift .hashBang .hashBang [] ⟨'#' :: '!' :: cs, 0, false⟩ with
  | none =>
    -- Then the statements begin with the mark, and none does
    rw [hshift, Option.some.injEq, Prod.mk.injEq] at hline
    obtain ⟨rfl, rfl⟩ := hline
    rw [Reader.repeat_eq_self fun f' c' hr => statement_stands rfl hr, Prod.mk.injEq] at hstatements
    rw [← hstatements.2] at hend
    exact absurd hend (List.cons_ne_nil _ _)
  | some r =>
    rw [hshift] at hline
    obtain rfl := Option.some.inj hline
    obtain ⟨hin, n, gap, _, rfl, _⟩ := shift_cases hshift ⟨[], rfl, rfl⟩
    have hmany : (Form.many (.call .statement)).read limit
        (Grammar.read TypeScript.grammar limit inner) (gap ++ [Cursor.leaf _ .hashBang n]) d =
          some (f', c') := congrArg some hstatements
    have hd := derives_of_read (fun _ _ _ _ _ => derives_of_grammarRead) hmany
    obtain ⟨g, rfl⟩ := hd.adds TypeScript.grammar_keeps hin rfl
    exact ⟨Cursor.leaf _ .hashBang n, gap.reverse ++ g.reverse, by simp; rfl, rfl⟩

/-- A text without errors that begins with `#!` opens with no directive. -/
theorem useStrictEnd?_of_hashBang [Recovery] {cs : List Char}
    (h : (SyntaxTree.ofText ('#' :: '!' :: cs)).hasErrors = false) :
    Imports.ImportTable.useStrictEnd? ('#' :: '!' :: cs) (SyntaxTree.ofText ('#' :: '!' :: cs)).root =
      none := by
  obtain ⟨ns, hread, htree⟩ := SyntaxTree.statements?_of_hasErrors h
  obtain ⟨n, rest, rfl, hkind⟩ := exists_hashBang_of_statements hread
  rw [htree]
  simp [Imports.ImportTable.useStrictEnd?, SyntaxTree.ofStatements, Node.namedChildren, Node.children, hkind,
    Kind.isNamed, Kind.isExtra]

end Enlist.Syntax
