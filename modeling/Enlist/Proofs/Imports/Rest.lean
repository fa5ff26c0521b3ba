import Enlist.Proofs.Imports.Places
import Enlist.Proofs.Syntax.Trivia

/-!
# What stands behind the module of an import statement

A new import statement goes behind the name of the module of the last one, so what stands there is
left to the new statement. That is nothing but trivia and perhaps a semicolon, unless the last statement
has an attribute.

## Key results

- `overForm_of_mem_root`: how the import statements of a text are read
- `rest_of_statement`: what stands behind the module of an import statement
- `ensure_keeps_statements`: what a change for an import leaves of the import statements of a text
-/

namespace Enlist

open Edit Imports Metadata Syntax Text

/-! ## How import statements are read -/

namespace Syntax.TypeScript

open Form

/-- The parts of an import statement. -/
def importParts : Rules :=
  word "import" ++ importSource ++ opt importAttribute ++ semicolon

/-- Import statements are read in one way only. -/
theorem grammar_bodies (r : Rule) :
    ∀ b ∈ (grammar r).bodies .importStatement, b = some importParts := by
  have hnone {bs : List (Option Rules)} (h : bs = []) : ∀ b ∈ bs, b = some importParts := by simp [h]
  cases r with
  | statement => exact fun b hb => List.mem_singleton.1 hb
  | binary level =>
    refine hnone ?_
    simp only [grammar, binary]
    split <;> rfl
  | _ => exact hnone rfl

/-- The import statements at the top of a text without errors are read as import statements. -/
theorem overForm_of_mem_root [Recovery] {text : List Char}
    (herrors : (SyntaxTree.ofText text).hasErrors = false) {n : Node}
    (hn : n ∈ (SyntaxTree.ofText text).root.children) (hk : n.kind = .importStatement) :
    n.OverForm grammar text importParts := by
  obtain ⟨ns, h, htree⟩ := SyntaxTree.statements?_of_hasErrors herrors
  rw [htree] at hn
  simp only [SyntaxTree.statements?, Option.bind_eq_bind, Option.bind_eq_some_iff,
    Option.pure_def, Option.some.injEq, Prod.exists] at h
  obtain ⟨f, c, hstart, f', c', hread, rfl⟩ := h
  obtain ⟨hc, _⟩ := ofText_placed hstart
  obtain ⟨gap, rfl, hgap⟩ := comments_of_skipGap hstart
  rw [List.append_nil] at hread
  have hextra : n.kind.isExtra = false := by rw [hk]; rfl
  -- What stands in front of the first statement are comments
  refine ((derives_of_grammarRead hread).exists_body rfl grammar_bodies hc (by simp [Form.bodies])
    (List.mem_reverse.1 hn) hk).resolve_left fun hmem => ?_
  rw [(hgap n hmem).isExtra] at hextra
  cases hextra

/-! ## The parts -/

variable {text : List Char} {f f' : Frame} {c c' : Cursor}

/-- What is imported ends with the name of the module, or has none as a part. -/
private theorem importSource_cases (h : Derives grammar importSource f c f' c') :
    (∃ a, Derives grammar a f c f' c' ∧ a.endsIn (some .source) = true) ∨
      ∃ a, Derives grammar a f c f' c' ∧ a.most (.ofLabel .source) = some 0 := by
  -- One alternative of the source after the other: a module at the end, or none at all
  rcases h.of_alt with h | h
  · -- Behind a mark there stands the same as without one
    obtain ⟨g, d, hmark, h⟩ := h.of_seq
    rcases h.of_alt with h | h
    · exact .inl ⟨_, .seq hmark h, rfl⟩
    rcases h.of_alt with h | h
    · exact .inr ⟨_, .seq hmark h, rfl⟩
    · exact .inl ⟨_, .seq hmark h, rfl⟩
  rcases h.of_alt with h | h
  · exact .inl ⟨_, h, rfl⟩
  rcases h.of_alt with h | h
  · exact .inr ⟨_, h, rfl⟩
  · exact .inl ⟨_, h, rfl⟩

/-- A keyword is one leaf, and stands where it is read. -/
private theorem word_read {w : String} (h : Derives grammar (word w) f c f' c') (hc : c.In text) :
    ∃ gap n, f' = gap ++ c.leaf .keyword n :: f ∧ (∀ m ∈ gap, m.kind.isExtra = true) ∧
      w.toList <+: c.rest := by
  obtain ⟨_, n, gap, hn, rfl, hgap, _⟩ := shift_cases h.of_leaf hc
  refine ⟨gap, n, rfl, hgap, List.isPrefixOf_iff_prefix.1 ?_⟩
  simp only [Lexeme.length?] at hn
  split at hn
  case isTrue hword => exact (Bool.and_eq_true_iff.1 hword).1
  case isFalse => cases hn

/-- The words that an attribute begins with. -/
def attributeWords : List String :=
  ["with", "assert"]

/-- An attribute is one node that begins with one of its words and holds an object, and trivia stand
behind it. -/
private theorem importAttribute_read (h : Derives grammar importAttribute f c f' c') (hc : c.In text) :
    ∃ gap part, f' = gap ++ part :: f ∧ (∀ m ∈ gap, m.kind.isExtra = true) ∧
      part.kind = .importAttribute ∧ part.span.start = c.offset ∧ c'.Follows text part.span.stop ∧
      (∃ w ∈ attributeWords, w.toList <+: c.rest) ∧ ∃ m ∈ part.children, m.kind = .object := by
  obtain ⟨g, hparts, rfl⟩ := h.of_node
  obtain ⟨g₁, d, hword, hobject⟩ := hparts.of_seq
  have hd := hword.moves hc
  obtain ⟨gap₁, n, rfl, hgap₁, w, hw, hrest⟩ : ∃ gap n, g₁ = gap ++ [c.leaf .keyword n] ∧
      (∀ m ∈ gap, m.kind.isExtra = true) ∧ ∃ w ∈ attributeWords, w.toList <+: c.rest := by
    rcases hword.of_alt with hword | hword
    · obtain ⟨gap, n, rfl, hgap, hrest⟩ := word_read hword hc
      exact ⟨gap, n, rfl, hgap, _, by simp [attributeWords], hrest⟩
    · obtain ⟨_, _, hline, hword⟩ := hword.of_seq
      cases hline
      obtain ⟨gap, n, rfl, hgap, hrest⟩ := word_read hword hc
      exact ⟨gap, n, rfl, hgap, _, by simp [attributeWords], hrest⟩
  obtain ⟨g₂, hinside, rfl⟩ := hobject.of_call.of_node
  obtain ⟨gap₂, last, g₃, rfl, hgap₂, hlast, _, hfollows⟩ :=
    hinside.endsIn (l := none) grammar_keeps hd rfl
  rw [wrap_gap hgap₂ hlast, List.append_assoc, List.singleton_append, wrap_gap hgap₂ rfl]
  refine ⟨gap₂, _, List.append_assoc _ _ _, hgap₂, rfl, ?_, hfollows, ⟨w, hw, hrest⟩,
    _, List.mem_reverse.2 List.mem_cons_self, rfl⟩
  -- The first of the nodes is the word
  simp [Node.span, Cursor.leaf]

/-- Nothing but trivia, and perhaps a semicolon behind them. -/
def IsBareEnd (cs : List Char) : Prop :=
  ∃ gap, Trivia gap ∧ (cs = gap ∨ cs = gap ++ [';'])

/-- What stands behind the name of the module of the statement `n`: nothing but trivia and perhaps a
semicolon, if the statement has no attribute, and otherwise the attribute in front of these. -/
inductive IsRest (text : List Char) (n : Node) (cs : List Char) : Prop
  | bare (hnone : ∀ m ∈ n.children, m.kind ≠ .importAttribute) (hbare : IsBareEnd cs)
  | attribute {part : Node} {gap behind : List Char} (hpart : part ∈ n.children)
      (hkind : part.kind = .importAttribute) (hgap : Trivia gap) (hbehind : IsBareEnd behind)
      (hcs : cs = gap ++ part.textIn text ++ behind) (hnot : ¬IsBareEnd cs)

/-- Behind the last node of a statement stand trivia and a semicolon, or it ends with that node. -/
private theorem semicolon_read {gap rest : Frame} {last : Node}
    (h : Derives grammar semicolon (gap ++ last :: rest) c f' c') (hc : c.In text)
    (hgap : ∀ m ∈ gap, m.kind.isExtra = true) (hlast : last.kind.isExtra = false)
    (hboundary : isBoundary text last.span.stop = true) (hfollows : c.Follows text last.span.stop) :
    ∃ end' rest', (f'.dropWhile fun m => m.kind.isExtra) = end' :: rest' ∧
      last.span.stop ≤ end'.span.stop ∧ isBoundary text end'.span.stop = true ∧
      IsBareEnd (slice text last.span.stop end'.span.stop) := by
  have hnothing : IsBareEnd (slice text last.span.stop last.span.stop) := by
    rw [slice, Nat.sub_self, takeBytes_zero]
    exact ⟨[], .nil, .inl rfl⟩
  rcases h.of_alt with h | h
  · obtain ⟨_, n, gap', hn, rfl, hgap', hstop, _⟩ := shift_cases h.of_leaf hc
    have hmark := hc.isMark_leaf (m := ';') rfl hn
    obtain ⟨behind, hbehind⟩ := hmark.text
    have hstart : (c.leaf .punctuation n).span.start = c.offset := rfl
    rw [hstart, hc.dropBytes_eq] at hbehind
    obtain ⟨hle, htrivia⟩ := hfollows (by rw [hbehind]; exact List.cons_ne_nil _ _)
    have hone : slice text c.offset (c.leaf .punctuation n).span.stop = [';'] := by
      rw [slice, hc.dropBytes_eq, hbehind, hmark.stop, hstart, Nat.add_sub_cancel_left, takeBytes,
        if_neg Nat.one_ne_zero, show 1 - (';' : Char).utf8Size = 0 from rfl, takeBytes_zero]
    have hle' : c.offset ≤ (c.leaf .punctuation n).span.stop := Nat.le_add_right _ _
    refine ⟨_, _, dropWhile_gap hgap' rfl, Nat.le_trans hle hle', hstop, _, htrivia, .inr ?_⟩
    rw [← hone, slice_append hboundary hc.boundary hstop hle hle']
  -- Everything else looks at what follows, and reads nothing
  · have hsame : f' = gap ++ last :: rest := by
      rcases h.of_alt with h | h
      · cases h
        rfl
      · rcases h.of_alt with h | h
        · cases h
          rfl
        · cases h
          rfl
    rw [hsame]
    exact ⟨last, rest, dropWhile_gap hgap hlast, Nat.le_refl _, hboundary, hnothing⟩

/-! ## Whole statements -/

/-- What begins with a word is no trivia, and no semicolon. -/
theorem not_isBareEnd {gap cs : List Char} {x : Char} (hgap : Trivia gap)
    (hx : x = 'w' ∨ x = 'a') : ¬IsBareEnd (gap ++ x :: cs) := by
  have hsolid : Solid (x :: cs) := by
    rcases hx with rfl | rfl <;> exact solid_cons rfl (by decide)
  rintro ⟨gap', hgap', h | h⟩
  · rw [← List.append_nil gap'] at h
    cases (hgap.unique hgap' h hsolid solid_nil).2
  · have hsame := (hgap.unique hgap' h hsolid (solid_cons rfl (by decide))).2
    rw [(List.cons.inj hsame).1] at hx
    exact absurd hx (by decide)

/-- The text of an attribute begins with one of its words. -/
private theorem exists_textIn_cons {part : Node} (hplaced : part.Placed text)
    (hword : ∃ w ∈ attributeWords, w.toList <+: dropBytes text part.span.start)
    (hobject : ∃ m ∈ part.children, m.kind = .object) :
    ∃ x cs, part.textIn text = x :: cs ∧ (x = 'w' ∨ x = 'a') := by
  obtain ⟨m, hm, hkind⟩ := hobject
  -- There are at least two bytes, those of the brackets, so the first character is that of the word
  have hbrackets : m.kind.brackets? = some ('\x7b', '\x7d') := by rw [hkind]; rfl
  have hbounds := Metadata.closing_bracket (hplaced.child hm) hbrackets
  have hwithin := hplaced.row.mem hm
  have hlength : part.span.stop - part.span.start ≠ 0 := by omega
  obtain ⟨w, hw, rest, hrest⟩ := hword
  simp only [attributeWords, List.mem_cons, List.not_mem_nil, or_false] at hw
  rw [Node.textIn, slice, ← hrest]
  rcases hw with rfl | rfl
  · exact ⟨'w', _, if_neg hlength, .inl rfl⟩
  · exact ⟨'a', _, if_neg hlength, .inr rfl⟩

/-- A statement with an attribute: trivia stand in front of it, and behind it what ends the statement. -/
private theorem rest_of_attribute {part : Node} {start stop : Nat} (hc : c.In text)
    (hfollows : c.Follows text start) (hboundary : isBoundary text start = true)
    (hplaced : part.Placed text) (hstart : part.span.start = c.offset)
    (hword : ∃ w ∈ attributeWords, w.toList <+: c.rest) (hobject : ∃ m ∈ part.children, m.kind = .object)
    (hle : part.span.stop ≤ stop) (hstop : isBoundary text stop = true) {n : Node}
    (hpart : part ∈ n.children) (hkind : part.kind = .importAttribute)
    (hbare : IsBareEnd (slice text part.span.stop stop)) : IsRest text n (slice text start stop) := by
  rw [← hc.dropBytes_eq, ← hstart] at hword
  obtain ⟨x, cs, htext, hx⟩ := exists_textIn_cons hplaced hword hobject
  -- The text goes on with the attribute, so what is in front of it are trivia
  have hrest : c.rest ≠ [] := by
    rw [← hc.dropBytes_eq, ← hstart]
    intro hnil
    rw [Node.textIn, slice, hnil] at htext
    cases htext
  obtain ⟨hle', htrivia⟩ := hfollows hrest
  rw [← hstart] at hle' htrivia
  have hparts : slice text start stop =
      slice text start part.span.start ++ part.textIn text ++ slice text part.span.stop stop := by
    rw [Node.textIn, slice_append hboundary hplaced.start_boundary hplaced.stop_boundary hle'
      hplaced.start_le_stop, slice_append hboundary hplaced.stop_boundary hstop
      (hle'.trans hplaced.start_le_stop) hle]
  refine .attribute hpart hkind htrivia hbare hparts ?_
  rw [hparts, htext, List.append_assoc, List.cons_append]
  exact not_isBareEnd htrivia hx

/-- What stands behind the name of the module, up to the end of an import statement. -/
theorem rest_of_statement {n source : Node} (hover : n.OverForm grammar text importParts)
    (hplaced : n.Placed text) (hobeys : n.Obeys importShape) (hk : n.kind = .importStatement)
    (hsource : n.child? .source = some source) :
    IsRest text n (slice text source.span.stop n.span.stop) := by
  obtain ⟨c, f, c', hc, hread, last, core, hcore, hchildren, hstop⟩ := hover
  have hchild {m : Node} (hextra : m.kind.isExtra = false) : m ∈ n.children ↔ m ∈ f :=
    mem_children_of_core hcore hchildren hextra
  have hnone {p : NodeSort} (hcount : f.countP (Node.isOf p) ≤ 0) (m : Node) (hm : m ∈ n.children) :
      ¬m.isOf p = true := fun hp =>
    have hextra : m.kind.isExtra = false := by simpa using (Bool.and_eq_true_iff.1 hp).2
    List.countP_eq_zero.1 (Nat.le_zero.1 hcount) m ((hchild hextra).1 hm) hp
  have hsources (m : Node) : n.child? .source = some m ↔ m ∈ n.children ∧ m.label = some .source :=
    hobeys.child?_eq_some_iff (by rw [hk]; exact List.mem_cons_self)
  -- The parts of the statement, from the last to the first
  obtain ⟨g₃, c₃, hread, hsemicolon⟩ := hread.of_seq
  obtain ⟨g₂, c₂, hread, hattribute⟩ := hread.of_seq
  obtain ⟨g₁, c₁, hword, himported⟩ := hread.of_seq
  have hc₁ := hword.moves hc
  have hc₂ := himported.moves hc₁
  have hc₃ := hattribute.moves hc₂
  obtain ⟨new₃, hf⟩ := hsemicolon.adds grammar_keeps hc₃ rfl
  obtain ⟨new₂, hg₃⟩ := hattribute.adds grammar_keeps hc₂ rfl
  rw [hstop]
  rcases importSource_cases himported with ⟨a, himported', hends⟩ | ⟨a, himported', hmost⟩
  -- The name of the module was read last, and behind it an attribute or nothing
  · obtain ⟨gap, src, g, rfl, hgap, hextra, hlabel, hfollows⟩ :=
      himported'.endsIn grammar_keeps hc₁ hends
    have hsrc : src ∈ n.children := (hchild hextra).2 (by simp [hf, hg₃])
    obtain rfl := Option.some.inj (hsource.symm.trans ((hsources src).2 ⟨hsrc, hlabel⟩))
    have hsrcStop := (hplaced.child hsrc).stop_boundary
    rcases hattribute.of_alt with hattribute | hattribute
    · obtain ⟨gap', part, rfl, hgap', hkind, hstart, hfollows', hbegins, hobject⟩ :=
        importAttribute_read hattribute hc₂
      have hextra' : part.kind.isExtra = false := by rw [hkind]; rfl
      have hpart : part ∈ n.children := (hchild hextra').2 (by simp [hf])
      have hpartPlaced := hplaced.child hpart
      obtain ⟨end', rest', hcore', hle, hboundary, hbare⟩ :=
        semicolon_read hsemicolon hc₃ hgap' hextra' hpartPlaced.stop_boundary hfollows'
      obtain rfl : last = end' := (List.cons.inj (hcore.symm.trans hcore')).1
      exact rest_of_attribute hc₂ hfollows hsrcStop hpartPlaced hstart hbegins hobject hle hboundary
        hpart hkind hbare
    · cases hattribute
      obtain ⟨end', rest', hcore', _, _, hbare⟩ :=
        semicolon_read hsemicolon hc₃ hgap hextra hsrcStop hfollows
      obtain rfl : last = end' := (List.cons.inj (hcore.symm.trans hcore')).1
      refine .bare (fun m hm hkind => ?_) hbare
      have hin := hword.countP_le (p := .ofKind .importAttribute) (m := 0) rfl
      have hbehind := himported.countP_le (p := .ofKind .importAttribute) (m := 0) rfl
      have hend := hsemicolon.countP_le (p := .ofKind .importAttribute) (m := 0) rfl
      exact hnone (hend.trans (hbehind.trans hin)) m hm ((Node.isOf_ofKind_iff rfl).2 hkind)
  -- No part of what is imported is the name of a module
  · have hin := hword.countP_le (p := .ofLabel .source) (m := 0) rfl
    have hbehind := himported'.countP_le hmost
    have hpart := hattribute.countP_le (p := .ofLabel .source) (m := 0) rfl
    have hend := hsemicolon.countP_le (p := .ofLabel .source) (m := 0) rfl
    obtain ⟨hmem, hlabel⟩ := (hsources source).1 hsource
    exact absurd ((hobeys.child hmem).isOf_ofLabel_iff.2 hlabel)
      (hnone (hend.trans (hpart.trans (hbehind.trans hin))) source hmem)

end Syntax.TypeScript

/-! ## What a change leaves of the statements -/

namespace Imports

/-- What stands behind the name of the module, up to the end of the statement. -/
def ImportDecl.rest (text : List Char) (d : ImportDecl) : List Char :=
  slice text d.moduleSpan.stop d.span.stop

variable {s : Snapshot} {n : Node} {d : ImportDecl}

/-- What stands behind the name of the module in a statement at the top of a text. -/
theorem isRest_of_decl (herrors : s.hasSyntaxErrors = false) (hn : n ∈ s.root.children)
    (hk : n.kind = .importStatement) (hread : ImportDecl.ofNode? s.chars n = some d) :
    TypeScript.IsRest s.chars n (d.rest s.chars) := by
  obtain ⟨source, hsource, rfl⟩ := Option.map_eq_some_iff.1 hread
  have hregular := Snapshot.isRegular herrors
  obtain ⟨_, htree⟩ := s.tree_eq
  have hover : n.OverForm TypeScript.grammar s.chars TypeScript.importParts := by
    rw [Snapshot.hasSyntaxErrors, htree] at herrors
    rw [Snapshot.root, htree] at hn
    exact TypeScript.overForm_of_mem_root herrors hn hk
  exact TypeScript.rest_of_statement hover (hregular.placed.child hn) (hregular.shaped n hn) hk hsource

section

variable (h : s.IsRegular)

include h

/-- A place inside of a statement is outside of all others. -/
private theorem outside_other {m : Node} (hn : n ∈ s.root.children) (hm : m ∈ s.root.children)
    (hne : m ≠ n) {p : Nat} (hlo : n.span.start ≤ p) (hhi : p ≤ n.span.stop) : Outside m p := by
  have := apart_of_pairwise h.placed.row.pairwise hm hn hne
  rw [Outside]
  omega

/-- A statement that is added leaves all others whole, but for the one that it goes into. -/
private theorem outside_or_behind (r : ImportRequest) (hn : n ∈ s.root.children)
    (hk : n.kind = .importStatement) :
    Outside n (s.imports.statementInserted r).offset ∨
      ∃ d, ImportDecl.ofNode? s.chars n = some d ∧ s.imports.decls.getLast? = some d ∧
        s.imports.statementInserted r = ⟨d.moduleSpan.stop, ";\n" ++ r.statement⟩ := by
  rw [ImportTable.statementInserted]
  split
  case h_1 last hlast =>
    obtain ⟨m, hm, _, hread⟩ := (mem_decls_iff h).1 (List.mem_of_mem_getLast? hlast)
    have hwithin := (ImportDecl.placed_ofNode? (h.placed.child hm) hread).module_within
    -- Behind the module of the last statement: other statements do not reach there
    by_cases heq : n = m
    · subst heq
      exact .inr ⟨last, hread, hlast, rfl⟩
    · exact .inl (outside_other h hm hn heq hwithin.1 hwithin.2)
  case h_2 stop _ hstop =>
    obtain ⟨first, hm, hkind, literal, hliteral, rfl⟩ := exists_useStrict hstop
    have hwithin := (h.placed.child hm).row.mem hliteral
    -- A directive is a statement of another kind
    have hne : n ≠ first := by
      rintro rfl
      cases hk.symm.trans hkind
    exact .inl (outside_other h hm hn hne (hwithin.1.trans hwithin.2.1) hwithin.2.2)
  case h_3 => exact .inl (.inl (Nat.zero_le _))

/-- A name that joins a statement leaves all others whole, and goes between its braces. -/
private theorem outside_or_inside {r : ImportRequest} {free : Bool} {i : Insertion}
    (hjoin : s.imports.joinInserted? r free = some i) (hn : n ∈ s.root.children) :
    Outside n i.offset ∨ ∃ d, ImportDecl.ofNode? s.chars n = some d ∧
      ∃ braces, d.braces = some braces ∧ braces.start < i.offset ∧ i.offset < braces.stop := by
  obtain ⟨d, hd, hoffset⟩ := ImportTable.offset_of_joinInserted? hjoin
  obtain ⟨m, hm, _, hread⟩ := (mem_decls_iff h).1 (ImportTable.mem_of_openClause? hd).1
  have hplaced := h.placed.child hm
  have hwithin := (ImportDecl.placed_ofNode? hplaced hread).join_within i.offset hoffset
  by_cases heq : n = m
  · subst heq
    exact .inr ⟨d, hread, ImportDecl.joinOffset?_inside hplaced hread hoffset⟩
  · exact .inl (outside_other h hm hn heq (Nat.le_of_lt hwithin.1) (Nat.le_of_lt hwithin.2))

end

/-- A change for an import is put in whole, and leaves every import statement whole, but for one that
takes the name into its braces, and for the last one: behind the name of its module the new statement
goes, and what stood there stands behind the new one. That is nothing but trivia and perhaps a
semicolon, unless the last statement has an attribute. -/
theorem ensure_keeps_statements (herrors : s.hasSyntaxErrors = false) {r : ImportRequest}
    {pending : List Change} {c : Change} (h : s.imports.ensure r pending = some c) :
    apply s.text [c] = .ok (String.ofList
        (takeBytes s.chars c.offset ++ c.text.toList ++ dropBytes s.chars c.offset)) ∧
      ∀ n ∈ s.root.children, n.kind = .importStatement → Outside n c.offset ∨
        ∃ d, ImportDecl.ofNode? s.chars n = some d ∧
          ((∃ braces, d.braces = some braces ∧ braces.start < c.offset ∧ c.offset < braces.stop) ∨
            s.imports.decls.getLast? = some d ∧ c.offset = d.moduleSpan.stop ∧
              c.text = ";\n" ++ r.statement ∧ TypeScript.IsRest s.chars n (d.rest s.chars)) := by
  have hregular := Snapshot.isRegular herrors
  rw [ImportTable.ensure] at h
  split at h
  case isTrue => cases h
  case isFalse =>
    obtain rfl := Option.some.inj h
    obtain ⟨hins, hinserted, _⟩ := s.imports.satisfy_inserts r pending
    generalize s.imports.satisfy r pending = c at *
    have hboundary := (placed_imports hregular.placed).inserted_boundary r (s.imports.isFree r.module pending)
    rw [← hinserted] at hboundary
    refine ⟨apply_insertion hins hboundary, fun n hn hk => ?_⟩
    -- The change is a statement of its own, or it joins the braces of one
    rcases ImportTable.inserted_cases s.imports r (s.imports.isFree r.module pending) with
      hstatement | hjoin
    · rcases outside_or_behind hregular r hn hk with hout | ⟨d, hread, hlast, hplace⟩
      · rw [← hstatement, ← hinserted] at hout
        exact .inl hout
      · rw [← hstatement, ← hinserted] at hplace
        exact .inr ⟨d, hread, .inr ⟨hlast, congrArg Insertion.offset hplace,
          congrArg Insertion.text hplace, isRest_of_decl herrors hn hk hread⟩⟩
    · rw [← hinserted] at hjoin
      rcases outside_or_inside hregular hjoin hn with hout | ⟨d, hread, hinside⟩
      · exact .inl hout
      · exact .inr ⟨d, hread, .inl hinside⟩

/-- Behind the last module of this text there are a comment and a semicolon, which the new statement gets. -/
theorem ensure_keeps_statements_sample :
    let s : Snapshot := .ofText "/m.ts" "import \x7b A \x7d from './a';\nimport b from './b' /* b */;\n"
    ∃ c, s.imports.ensure ⟨"W", "./w", false⟩ [] = some c ∧
      c.text = ";\nimport \x7b W \x7d from './w'" ∧
      ∃ d, s.imports.decls.getLast? = some d ∧ c.offset = d.moduleSpan.stop ∧
        d.rest s.chars = " /* b */;".toList ∧ TypeScript.IsBareEnd (d.rest s.chars) := by
  intro s
  let c := s.imports.satisfy ⟨"W", "./w", false⟩ []
  have hrun : s.imports.ensure ⟨"W", "./w", false⟩ [] = some c ∧
      c.text = ";\nimport \x7b W \x7d from './w'" ∧
      ∃ n ∈ s.root.children, n.kind = .importStatement ∧
        (n.span.start < c.offset ∧ c.offset < n.span.stop) ∧
        (∀ m ∈ n.children, m.kind ≠ .importAttribute) ∧
        (ImportDecl.ofNode? s.chars n).all (fun d => d.braces.isNone) = true ∧
        (ImportDecl.ofNode? s.chars n).map (ImportDecl.rest s.chars) = some " /* b */;".toList := by
    decide +kernel
  obtain ⟨hensure, htext, n, hn, hk, hwithin, hnone, hbraces, hrest⟩ := hrun
  refine ⟨c, hensure, htext, ?_⟩
  have herrors : s.hasSyntaxErrors = false := by decide +kernel
  -- It goes behind the last statement, as that has no braces, and it has no attribute
  rcases (ensure_keeps_statements herrors hensure).2 n hn hk with hout | ⟨d, hread, hplace⟩
  · rw [Outside] at hout
    omega
  · rw [hread] at hbraces hrest
    rcases hplace with ⟨braces, hd, _⟩ | ⟨hlast, hoffset, _, ⟨_, hbare⟩ | ⟨hpart, hkind, _⟩⟩
    · rw [Option.all_some, hd] at hbraces
      cases hbraces
    · exact ⟨d, hlast, hoffset, Option.some.inj hrest, hbare⟩
    · exact absurd hkind (hnone _ hpart)

/-- The attribute of the last statement becomes that of the new one, which is put in front of it. -/
theorem attribute_changes_statement :
    let s : Snapshot := .ofText "/m.ts" "import data from './d.json' with \x7b type: 'json' \x7d;\n"
    ∃ c, s.imports.ensure ⟨"W", "./w", false⟩ [] = some c ∧
      Edit.apply s.text [c] = .ok ("import data from './d.json';\n" ++
        "import \x7b W \x7d from './w' with \x7b type: 'json' \x7d;\n") ∧
      ∃ d, s.imports.decls.getLast? = some d ∧ c.offset = d.moduleSpan.stop ∧
        ¬TypeScript.IsBareEnd (d.rest s.chars) := by
  intro s
  let c := s.imports.satisfy ⟨"W", "./w", false⟩ []
  have hrun : s.imports.ensure ⟨"W", "./w", false⟩ [] = some c ∧
      Edit.apply s.text [c] = .ok ("import data from './d.json';\n" ++
        "import \x7b W \x7d from './w' with \x7b type: 'json' \x7d;\n") ∧
      ∃ d ∈ s.imports.decls.getLast?, c.offset = d.moduleSpan.stop ∧
        d.rest s.chars = ' ' :: 'w' :: "ith \x7b type: 'json' \x7d;".toList := by
    decide +kernel
  obtain ⟨hensure, happly, d, hlast, hoffset, hrest⟩ := hrun
  refine ⟨c, hensure, happly, d, hlast, hoffset, ?_⟩
  -- Behind a blank stands the first letter of the attribute
  rw [hrest]
  exact TypeScript.not_isBareEnd (.blank rfl .nil) (.inl rfl)

end Imports

end Enlist
