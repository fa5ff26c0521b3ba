import Enlist.Imports.Ensure
import Enlist.Proofs.Syntax.HashBang

/-!
# Import statements that are written

A statement that is written for a request is read as an import statement, up to its end, in front of any
text that begins with a token. So statements that are written in front of a text are read one by one,
and the text begins where they end.

`Form.Reads` and `Form.Fails` say what a form does with the characters that are left, whatever stands
in front of them and whatever the rules say that it calls.

## Key results

- `reads_statement`: a statement that is written is read up to its end
- `hasErrors_of_statements_before_hashBang`: statements in front of a line that names an interpreter are
  an error
-/

namespace Enlist.Syntax

variable {R : Type} {a b : Form R} {cs ds es : List Char} {c : Char}

/-! ## What a form does with some characters -/

/-- Blanks and comments are skipped from `cs` to `ds`. -/
def Skips (cs ds : List Char) : Prop :=
  ∀ nl i f, ∃ f' i' nl', skipGap .between nl i cs f = some (f', ⟨ds, i', nl'⟩)

/-- The form reads from `cs` to `ds`. -/
def Form.Reads (a : Form R) (cs ds : List Char) : Prop :=
  ∀ limit rule f i nl, ∃ f' i' nl', a.read limit rule f ⟨cs, i, nl⟩ = some (f', ⟨ds, i', nl'⟩)

/-- The form cannot be read from `cs`. -/
def Form.Fails (a : Form R) (cs : List Char) : Prop :=
  ∀ limit rule f i nl, a.read limit rule f ⟨cs, i, nl⟩ = none

/-- Where a token begins nothing is skipped. -/
theorem skips_token (hgap : isGap c = false) (hslash : c ≠ '/') : Skips (c :: cs) (c :: cs) := by
  intro nl i f
  rw [skipGap_cons hslash, hgap]
  exact ⟨f, i, nl, rfl⟩

/-- A blank in front is skipped. -/
theorem skips_blank (hgap : isGap c = true) (h : Skips cs ds) : Skips (c :: cs) ds := by
  have hslash : c ≠ '/' := by
    rintro rfl
    exact nomatch hgap
  intro nl i f
  rw [skipGap_cons hslash, hgap]
  exact h _ _ f

namespace Form

/-- A form reads a token if there is one, and what is between it and the next one. -/
theorem reads_leaf {k : Kind} {l : Lexeme} {n : Nat} (hl : l.length? cs = some (n + 1))
    (hskip : Skips (cs.drop (n + 1)) ds) : (leaf k l : Form R).Reads cs ds := by
  intro limit rule f i nl
  simp only [read, Cursor.shift, hl]
  exact hskip _ _ _

/-- A leaf fails where its token does not begin. -/
theorem fails_leaf {k : Kind} {l : Lexeme} (hl : l.length? cs = none) :
    (leaf k l : Form R).Fails cs := by
  intro limit rule f i nl
  simp only [read, Cursor.shift, hl]

theorem Reads.seq (ha : a.Reads cs ds) (hb : b.Reads ds es) : (seq a b).Reads cs es := by
  intro limit rule f i nl
  obtain ⟨g, j, ml, hread⟩ := ha limit rule f i nl
  simp only [read, hread]
  exact hb limit rule g j ml

theorem Fails.seq (ha : a.Fails cs) : (Form.seq a b).Fails cs := by
  intro limit rule f i nl
  simp only [read, ha limit rule f i nl]

theorem Reads.seq_fails (ha : a.Reads cs ds) (hb : b.Fails ds) : (Form.seq a b).Fails cs := by
  intro limit rule f i nl
  obtain ⟨g, j, ml, hread⟩ := ha limit rule f i nl
  simp only [read, hread, hb limit rule g j ml]

theorem Reads.left (ha : a.Reads cs ds) : (alt a b).Reads cs ds := by
  intro limit rule f i nl
  obtain ⟨g, j, ml, hread⟩ := ha limit rule f i nl
  exact ⟨g, j, ml, by simp only [read, hread]⟩

theorem Fails.right (ha : a.Fails cs) (hb : b.Reads cs ds) : (alt a b).Reads cs ds := by
  intro limit rule f i nl
  simp only [read, ha limit rule f i nl]
  exact hb limit rule f i nl

theorem Fails.alt (ha : a.Fails cs) (hb : b.Fails cs) : (Form.alt a b).Fails cs := by
  intro limit rule f i nl
  simp only [read, ha limit rule f i nl, hb limit rule f i nl]

theorem Fails.opt (ha : a.Fails cs) : (Form.opt a).Reads cs cs :=
  ha.right fun _ _ f i nl => ⟨f, i, nl, rfl⟩

theorem Fails.many (ha : a.Fails cs) : (Form.many a).Reads cs cs := by
  intro limit rule f i nl
  refine ⟨f, i, nl, ?_⟩
  simp only [read]
  rw [Reader.repeat_eq_self fun f' c' h => ?_]
  rw [ha limit rule f i nl] at h
  cases h

theorem Reads.ahead (ha : a.Reads cs ds) : (Form.ahead a).Reads cs cs := by
  intro limit rule f i nl
  obtain ⟨g, j, ml, hread⟩ := ha limit rule [] i nl
  exact ⟨f, i, nl, by simp only [read, hread]⟩

theorem Reads.node (ha : a.Reads cs ds) (k : Kind) : (Form.node k a).Reads cs ds := by
  intro limit rule f i nl
  obtain ⟨g, j, ml, hread⟩ := ha limit rule [] i nl
  exact ⟨_, j, ml, by simp only [read, hread]; rfl⟩

theorem Fails.node (ha : a.Fails cs) (k : Kind) : (Form.node k a).Fails cs := by
  intro limit rule f i nl
  simp only [read, ha limit rule [] i nl]

theorem Reads.labelled (ha : a.Reads cs ds) (l : Label) : (Form.labelled l a).Reads cs ds := by
  intro limit rule f i nl
  obtain ⟨g, j, ml, hread⟩ := ha limit rule [] i nl
  exact ⟨_, j, ml, by simp only [read, hread]; rfl⟩

theorem Fails.labelled (ha : a.Fails cs) (l : Label) : (Form.labelled l a).Fails cs := by
  intro limit rule f i nl
  simp only [read, ha limit rule [] i nl]

/-- Whether a line ended or not, what follows cannot be read. -/
theorem Fails.sameLine (ha : a.Fails cs) : (Form.seq Form.sameLine a).Fails cs := by
  intro limit rule f i nl
  cases nl <;> simp [read, ha limit rule f i]

end Form

namespace TypeScript

/-! ## The parts of a statement -/

/-- The statement that imports a name in braces, in front of `rest`. -/
def writtenImport (name module rest : List Char) : List Char :=
  "import".toList ++ ' ' :: '{' :: ' ' :: (name ++ ' ' :: '}' :: ' ' :: ("from".toList ++
    ' ' :: '\'' :: (module ++ '\'' :: ';' :: '\n' :: rest)))

variable {s m rest : List Char}

/-- The name of a specifier is read in front of the closing brace. -/
private theorem reads_name (hs : IsName s) :
    (Form.labelled .name (anyIdentifier <|> string)).Reads (s ++ ' ' :: '\x7d' :: rest)
      ('\x7d' :: rest) := by
  have hlength : Lexeme.word.length? (s ++ ' ' :: '\x7d' :: rest) = some s.length :=
    hs.wordLength?_append ⟨rfl, by decide⟩ _
  have hdrop : (s ++ ' ' :: '\x7d' :: rest).drop s.length = ' ' :: '\x7d' :: rest := List.drop_left
  obtain ⟨a, t, rfl, _⟩ := hs.exists_cons
  refine (Form.Reads.left (Form.reads_leaf hlength ?_)).labelled .name
  rw [← List.length_cons, hdrop]
  exact skips_blank rfl (skips_token rfl (by decide))

/-- At a closing brace there is no name. -/
private theorem fails_name : (Form.labelled .name (anyIdentifier <|> string)).Fails ('\x7d' :: rest) :=
  ((Form.fails_leaf rfl).alt (Form.fails_leaf rfl)).labelled .name

/-- A mark is read, with the gap behind it. -/
private theorem reads_mark {m : Char} (hskip : Skips rest es) :
    (leaf .punctuation (.symbol [m] [])).Reads (m :: rest) es :=
  Form.reads_leaf (n := 0) (length?_mark m rest) hskip

/-- A word is read that something else follows than a part of a name. -/
private theorem reads_word {w : String} (hw : w.toList ≠ []) (hc : EndsName c)
    (hskip : Skips (c :: rest) es) : (word w).Reads (w.toList ++ c :: rest) es := by
  have hlength : (Lexeme.keyword w.toList).length? (w.toList ++ c :: rest) = some w.toList.length := by
    simp [Lexeme.length?, wordTail_of_endsName hc]
  obtain ⟨a, t, hcons⟩ := List.exists_cons_of_ne_nil hw
  refine Form.reads_leaf (n := t.length) (by rw [hlength, hcons, List.length_cons]) ?_
  have hdrop : (w.toList ++ c :: rest).drop (t.length + 1) = c :: rest := by
    rw [← List.length_cons (a := a), ← hcons, List.drop_left]
  rwa [hdrop]

/-- A name in braces is read as a specifier, also where it is a word that marks names. -/
private theorem reads_importSpecifier (hs : IsName s) (hskip : Skips rest es) :
    importSpecifier.Reads (s ++ ' ' :: '\x7d' :: rest) ('\x7d' :: rest) := by
  have hname : (Form.labelled .name (anyIdentifier <|> string)).Reads (s ++ ' ' :: '\x7d' :: rest)
      ('\x7d' :: rest) := reads_name hs
  have hfollows : listFollows.Reads ('\x7d' :: rest) ('\x7d' :: rest) :=
    ((Form.fails_leaf rfl).right (reads_mark hskip)).ahead
  have haliased : (Form.labelled .name (anyIdentifier <|> string) ++ word "as" ++
      Form.labelled .alias anyIdentifier ++ listFollows).Fails (s ++ ' ' :: '\x7d' :: rest) :=
    (hname.seq_fails (Form.fails_leaf rfl)).seq.seq
  -- A word that is the whole name is read as a keyword first, but no name follows it
  have hkeyword : ∀ k : String, k.toList.all isWordChar = true → k.toList ≠ [] →
      (word k).Fails (s ++ ' ' :: '\x7d' :: rest) ∨
        (word k).Reads (s ++ ' ' :: '\x7d' :: rest) ('\x7d' :: rest) := by
    intro k hk hne
    have hlength := hs.length?_keyword hk (c := ' ') ⟨rfl, by decide⟩ ('\x7d' :: rest)
    split at hlength
    case isFalse => exact .inl (Form.fails_leaf hlength)
    case isTrue heq =>
      subst heq
      exact .inr (reads_word hne ⟨rfl, by decide⟩ (skips_blank rfl (skips_token rfl (by decide))))
  have htyped : ∀ a : Rules, a.Fails ('\x7d' :: rest) →
      (typeMark ++ a).Fails (s ++ ' ' :: '\x7d' :: rest) := by
    intro a ha
    rcases hkeyword "type" (by decide) (by decide) with htype | htype
    · rcases hkeyword "typeof" (by decide) (by decide) with htypeof | htypeof
      · exact (htype.alt htypeof).seq
      · exact (htype.right htypeof).seq_fails ha
    · exact htype.left.seq_fails ha
  refine Form.Reads.node ?_ .importSpecifier
  refine haliased.right ?_
  refine (htyped _ fails_name.seq.seq.seq).right ?_
  refine (htyped _ fails_name).seq.right ?_
  exact hname.seq hfollows

/-- The braces with the name are read as the clause of the statement. -/
private theorem reads_importClause (hs : IsName s) (hskip : Skips rest es) :
    importClause.Reads ('\x7b' :: ' ' :: (s ++ ' ' :: '\x7d' :: rest)) es := by
  obtain ⟨a, t, hcons, hgap, hslash⟩ := hs.exists_cons
  have hopen : openBrace.Reads ('\x7b' :: ' ' :: (s ++ ' ' :: '\x7d' :: rest))
      (s ++ ' ' :: '\x7d' :: rest) := by
    refine reads_mark (skips_blank rfl ?_)
    rw [hcons]
    exact skips_token hgap hslash
  have hspecifiers := ((reads_importSpecifier hs hskip).seq
    ((Form.fails_leaf (k := .punctuation) (l := .symbol [','] []) rfl).seq (b := importSpecifier)).many).left
      (b := Form.empty)
  -- The braces are the third form of a clause, after a name and a name space
  refine Form.Reads.node ?_ .importClause
  refine Form.Reads.left ?_
  refine Form.Fails.right ((Form.fails_leaf rfl).seq.seq.node _) (Form.Reads.node ?_ .namedImports)
  exact ((hopen.seq hspecifiers).seq (Form.fails_leaf rfl).opt).seq (reads_mark hskip)

/-- The module of a statement is read behind `from`. -/
private theorem reads_fromClause (hm : IsPlain m) (hskip : Skips rest es) :
    fromClause.Reads ("from".toList ++ ' ' :: '\'' :: (m ++ '\'' :: rest)) es := by
  have hmodule : string.Reads ('\'' :: (m ++ '\'' :: rest)) es := by
    refine Form.reads_leaf (n := m.length + 1) (hm.length?_string rest) ?_
    have hdrop : ('\'' :: (m ++ '\'' :: rest)).drop (m.length + 1 + 1) = rest := by simp
    rwa [hdrop]
  have hfrom : (word "from").Reads ("from".toList ++ ' ' :: '\'' :: (m ++ '\'' :: rest))
      ('\'' :: (m ++ '\'' :: rest)) :=
    reads_word (by decide) ⟨rfl, by decide⟩ (skips_blank rfl (skips_token rfl (by decide)))
  exact hfrom.seq (hmodule.labelled .source)

/-- One blank in front of `from` is skipped. -/
private theorem skips_from (cs : List Char) :
    Skips (' ' :: ("from".toList ++ cs)) ("from".toList ++ cs) := by
  have hword : Skips ('f' :: 'r' :: 'o' :: 'm' :: cs) ('f' :: 'r' :: 'o' :: 'm' :: cs) :=
    skips_token rfl (by decide)
  exact skips_blank rfl hword

/-- A statement that is written is read up to its end. -/
theorem reads_statement (hs : IsName s) (hm : IsPlain m) (hrest : Skips rest rest) :
    statement.Reads (writtenImport s m rest) rest := by
  have hsemicolon : Skips (';' :: '\n' :: rest) (';' :: '\n' :: rest) := skips_token rfl (by decide)
  have hclause := (reads_importClause hs (skips_from _)).seq (reads_fromClause hm hsemicolon)
  have himport : ∀ cs, (word "import").Reads ("import".toList ++ ' ' :: '\x7b' :: cs)
      ('\x7b' :: cs) := fun cs =>
    reads_word (by decide) ⟨rfl, by decide⟩ (skips_blank rfl (skips_token rfl (by decide)))
  have htyped : ∀ cs, (Form.labelled .typeOnly (word "type") <|> word "typeof").Fails ('\x7b' :: cs) :=
    fun cs => ((Form.fails_leaf rfl).labelled .typeOnly).alt (Form.fails_leaf rfl)
  have hattribute : (Form.opt importAttribute).Reads (';' :: '\n' :: rest) (';' :: '\n' :: rest) :=
    ((((Form.fails_leaf rfl).alt (Form.fails_leaf rfl).sameLine).seq).node .importAttribute).opt
  have hend : semicolon.Reads (';' :: '\n' :: rest) rest :=
    (reads_mark (skips_blank rfl hrest)).left
  refine Form.Reads.left (Form.Reads.node ?_ .importStatement)
  refine (((himport _).seq ?_).seq hattribute).seq hend
  -- Nothing is bound as a type only, so the statement goes on with what is imported
  exact (htyped _).seq.right hclause.left

end TypeScript

end Enlist.Syntax

/-! ## Statements in front of a text -/

namespace Enlist.Imports

open Syntax Syntax.TypeScript

namespace ImportRequest

/-- A request for a name in braces whose statement can be read again. -/
structure Writable (r : ImportRequest) : Prop where
  braces : r.isDefault = false
  name : IsName r.symbol.toList
  plain : IsPlain r.module.toList

/-- A statement with braces is written as its symbol and its module in fixed text. -/
theorem toList_statement {r : ImportRequest} (h : r.isDefault = false) (rest : List Char) :
    (r.statement ++ ";\n").toList ++ rest =
      writtenImport r.symbol.toList r.module.toList rest := by
  simp only [statement, h, Bool.false_eq_true, if_false, String.toList_append, List.append_assoc]
  rfl

end ImportRequest

variable {rs : List ImportRequest}

/-- The statements that are written for some requests, in front of `rest`. -/
def writtenImports (rs : List ImportRequest) (rest : List Char) : List Char :=
  rs.foldr (fun r rest => writtenImport r.symbol.toList r.module.toList rest) rest

/-- Statements and a line that names an interpreter go on after blanks, not with one. -/
private theorem skips_writtenImports (cs : List Char) :
    ∀ rs : List ImportRequest,
      Skips (writtenImports rs ('#' :: '!' :: cs)) (writtenImports rs ('#' :: '!' :: cs))
  | [] => skips_token rfl (by decide)
  | _ :: _ => skips_token (c := 'i') rfl (by decide)

/-- However many statements are read, the line that names an interpreter is left. -/
theorem rest_repeat_ne_nil (hrs : ∀ r ∈ rs, r.Writable) (cs : List Char) (limit depth n : Nat)
    (f : Frame) (i : Nat) (nl : Bool) :
    (Reader.repeat (Grammar.read grammar limit depth .statement) n f
      ⟨writtenImports rs ('#' :: '!' :: cs), i, nl⟩).2.rest ≠ [] := by
  have hne : writtenImports rs ('#' :: '!' :: cs) ≠ [] := by
    cases rs <;> exact List.cons_ne_nil _ _
  -- As many statements are read as are written, and reading stops in front of the `#`
  induction n generalizing rs f i nl with
  | zero => exact hne
  | succ n ih =>
    cases rs with
    | nil =>
      rw [Reader.repeat_eq_self fun _ _ h => statement_stands rfl h]
      exact hne
    | cons r rs =>
      rw [Reader.repeat]
      cases depth with
      | zero => exact hne
      | succ depth =>
        obtain ⟨hr, hrs⟩ := List.forall_mem_cons.1 hrs
        obtain ⟨f', i', nl', hread⟩ := reads_statement hr.name hr.plain (skips_writtenImports cs rs)
          limit (Grammar.read grammar limit depth) f i nl
        have hstatement : Grammar.read grammar limit (depth + 1) .statement f
            ⟨writtenImports (r :: rs) ('#' :: '!' :: cs), i, nl⟩ = some (f', ⟨_, i', nl'⟩) := hread
        rw [hstatement]
        simp only
        split
        · exact ih hrs f' i' nl' (by cases rs <;> exact List.cons_ne_nil _ _)
        · exact hne

/-- A line that names an interpreter is an error behind other statements. -/
theorem hasErrors_of_statements_before_hashBang [Recovery] (hne : rs ≠ [])
    (hrs : ∀ r ∈ rs, r.Writable) (cs : List Char) :
    (SyntaxTree.ofText (writtenImports rs ('#' :: '!' :: cs))).hasErrors = true := by
  rw [← Bool.not_eq_false]
  intro herrors
  obtain ⟨ns, h, _⟩ := SyntaxTree.statements?_of_hasErrors herrors
  simp only [SyntaxTree.statements?, Option.bind_eq_bind, Option.bind_eq_some_iff,
    Option.pure_def, Option.some.injEq, Prod.exists] at h
  obtain ⟨f, c, hstart, f', c', hread, rfl⟩ := h
  obtain ⟨f₀, i, nl, hskip⟩ := skips_writtenImports cs rs false 0 []
  rw [Cursor.ofText, hskip, Option.some.injEq, Prod.mk.injEq] at hstart
  obtain ⟨rfl, rfl⟩ := hstart
  generalize (writtenImports rs ('#' :: '!' :: cs)).length + 1 = limit at hread
  obtain ⟨inner, first, d, hline, hstatements, hend⟩ := exists_of_read_program hread
  -- The text begins with a statement, so it names no interpreter before them
  have hopt : (Form.opt (leaf .hashBang .hashBang) : Form Rule).Reads
      (writtenImports rs ('#' :: '!' :: cs)) (writtenImports rs ('#' :: '!' :: cs)) := by
    obtain ⟨r, rs, rfl⟩ := List.exists_cons_of_ne_nil hne
    exact (Form.fails_leaf rfl).opt
  obtain ⟨g, j, ml, hd⟩ := hopt limit (Grammar.read grammar limit inner) f₀ i nl
  rw [hd, Option.some.injEq, Prod.mk.injEq] at hline
  obtain ⟨rfl, rfl⟩ := hline
  refine absurd hend ?_
  have hleft := rest_repeat_ne_nil hrs cs limit inner limit g j ml
  rwa [hstatements] at hleft

end Enlist.Imports
