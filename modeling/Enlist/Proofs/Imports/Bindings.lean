import Enlist.Imports.Ensure
import Enlist.Proofs.Syntax.Regular

/-!
# What import statements bind

Import statements bind names as values or as types only. This file says so in terms of the tree: which
statements stand at the top level, which names they bind and what each is bound as. A table finds exactly
these names, but it looks at the word `type` behind `import` only: a name that is marked in its braces
counts as a value.

## Key results

- `decls_ofTree` / `statementsRead_of_isWhole`: the statements of a table are those at the top level
- `Tells.binds_iff`: what a statement is taken to bind
- `exists_mem_requests_iff`: what a statement binds, as requests that it satisfies
- `table_overlooks_marks`: what a table takes for imported
- `isImported_of_marked`: a name that is imported as a type only, and is taken for a value
-/

namespace Enlist

open Syntax

namespace Syntax

theorem Kind.role_eq_program_iff {k : Kind} : k.role = .program ↔ k = .program := by
  cases k <;> simp [Kind.role]

theorem Kind.role_eq_importStatement_iff {k : Kind} : k.role = .importStatement ↔ k = .importStatement := by
  cases k <;> simp [Kind.role]

end Syntax

namespace Imports

/-! ## What statements say -/

/-- What a name is bound as. -/
inductive Sense where
  | value
  | type
  deriving DecidableEq, Repr

/-- The statement takes its names from the module. -/
def TakesFrom (text : List Char) (n : Node) (module : String) : Prop :=
  ∃ source ∈ n.children, source.label = some .source ∧ source.stringValue text = module

/-- The word `type` stands behind `import`. -/
def IsTypeOnly (n : Node) : Prop :=
  ∃ c ∈ n.children, c.label = some .typeOnly

/-- The statement binds the name without braces. -/
def BindsDefault (text : List Char) (n : Node) (name : String) : Prop :=
  ∃ clause ∈ n.children, clause.kind = .importClause ∧
    ∃ own ∈ clause.children, own.kind = .identifier ∧ own.source text = name

/-- The names in the braces of a statement. -/
def specifiers (n : Node) : List Node :=
  let inside (k : Kind) (ns : List Node) := ns.flatMap fun m => m.children.filter fun c => c.kind == k
  inside .importSpecifier (inside .namedImports (inside .importClause [n]))

/-- The name that a name in braces has in the text: the one behind `as`, or else its own. -/
def IsKnownAs (text : List Char) (s : Node) (name : String) : Prop :=
  ∃ own ∈ s.children, own.label = some .name ∧
    ((∃ given ∈ s.children, given.label = some .alias ∧ given.source text = name) ∨
      (∀ c ∈ s.children, c.label ≠ some .alias) ∧
        (if own.kind = .string then own.stringValue text else own.source text) = name)

/-- The word `type` stands in front of a name in braces. -/
def IsMarked (text : List Char) (s : Node) : Prop :=
  ∃ c ∈ s.children, c.kind = .keyword ∧ c.source text = "type"

/-- The statement binds the name: without braces, or in its braces, where a mark makes it a type. -/
def BindsAs (text : List Char) (n : Node) (name : String) (sense : Sense) : Prop :=
  (sense = .value ∧ BindsDefault text n name) ∨
    ∃ s ∈ specifiers n, IsKnownAs text s name ∧ (IsMarked text s ↔ sense = .type)

/-- Some import statement at the top level that is not marked as a whole binds the name, as what is
said. -/
def IsBound (s : Snapshot) (name module : String) (sense : Sense) : Prop :=
  ∃ n ∈ s.root.children, n.kind = .importStatement ∧ TakesFrom s.chars n module ∧ ¬ IsTypeOnly n ∧
    BindsAs s.chars n name sense

section

variable (text : List Char) (n : Node) (name : String)

instance (module : String) : Decidable (TakesFrom text n module) :=
  inferInstanceAs (Decidable (∃ source ∈ n.children, _))

instance : Decidable (IsTypeOnly n) :=
  inferInstanceAs (Decidable (∃ c ∈ n.children, _))

instance : Decidable (BindsDefault text n name) :=
  inferInstanceAs (Decidable (∃ clause ∈ n.children, _))

instance : Decidable (IsKnownAs text n name) :=
  inferInstanceAs (Decidable (∃ own ∈ n.children, _))

instance : Decidable (IsMarked text n) :=
  inferInstanceAs (Decidable (∃ c ∈ n.children, _))

instance (sense : Sense) : Decidable (BindsAs text n name sense) :=
  inferInstanceAs (Decidable ((_ ∧ _) ∨ ∃ s ∈ specifiers n, _))

instance (s : Snapshot) (module : String) (sense : Sense) : Decidable (IsBound s name module sense) :=
  inferInstanceAs (Decidable (∃ n ∈ s.root.children, _))

end

/-! ## One statement -/

variable {text : List Char} {n : Node} {d : ImportDecl} {name module : String}

/-- A name in braces is read as what it is known as. -/
theorem exists_specifier?_iff {s : Node} (hs : s.Obeys importShape) (hk : s.kind = .importSpecifier) :
    (∃ b, ImportDecl.specifier? text s = some b ∧ b.name = name) ↔ IsKnownAs text s name := by
  have hown (m : Node) : s.child? .name = some m ↔ m ∈ s.children ∧ m.label = some .name :=
    hs.child?_eq_some_iff (by rw [hk]; exact List.mem_cons_self)
  have hgiven (m : Node) : s.child? .alias = some m ↔ m ∈ s.children ∧ m.label = some .alias :=
    hs.child?_eq_some_iff (by rw [hk]; exact List.mem_cons_of_mem _ List.mem_cons_self)
  -- The name behind `as` goes before the name of the module's own
  have hname (imported : String) :
      ((s.child? .alias).map (Node.source text)).getD imported = name ↔
        (∃ given ∈ s.children, given.label = some .alias ∧ given.source text = name) ∨
          (∀ c ∈ s.children, c.label ≠ some .alias) ∧ imported = name := by
    cases halias : s.child? .alias with
    | none =>
      have hnone : ∀ c ∈ s.children, c.label ≠ some .alias := fun c hc hl =>
        nomatch halias.symm.trans ((hgiven c).2 ⟨hc, hl⟩)
      refine ⟨fun h => .inr ⟨hnone, h⟩, ?_⟩
      rintro (⟨given, hmem, hlabel, _⟩ | ⟨_, h⟩)
      · exact absurd hlabel (hnone given hmem)
      · exact h
    | some given =>
      obtain ⟨hmem, hlabel⟩ := (hgiven given).1 halias
      refine ⟨fun h => .inl ⟨given, hmem, hlabel, h⟩, ?_⟩
      rintro (⟨other, hother, hotherLabel, h⟩ | ⟨hnone, _⟩)
      · obtain rfl := Option.some.inj (halias.symm.trans ((hgiven other).2 ⟨hother, hotherLabel⟩))
        exact h
      · exact absurd hlabel (hnone given hmem)
  rw [IsKnownAs]
  constructor
  · rintro ⟨b, hb, hbname⟩
    obtain ⟨own, hownChild, rfl⟩ := Option.map_eq_some_iff.1 hb
    obtain ⟨hmem, hlabel⟩ := (hown own).1 hownChild
    exact ⟨own, hmem, hlabel, (hname _).1 hbname⟩
  · rintro ⟨own, hmem, hlabel, hknown⟩
    exact ⟨_, Option.map_eq_some_iff.2 ⟨own, (hown own).2 ⟨hmem, hlabel⟩, rfl⟩, (hname _).2 hknown⟩

/-- A part of a clause is the one that stands in the clause of the statement. -/
theorem part?_eq_some_iff (hn : n.Obeys importShape) (hk : n.kind = .importStatement) {k : Kind}
    (hpart : (.ofKind k, 1) ∈ importShape.limits .importClause) (hnamed : k.isNamed = true)
    (hextra : k.isExtra = false) {p : Node} :
    ImportDecl.part? (n.children.filter fun c => c.kind == .importClause) k = some p ↔
      ∃ clause ∈ n.children, clause.kind = .importClause ∧ p ∈ clause.children ∧ p.kind = k := by
  -- In a clause the search finds the only child of its kind
  have hclause (clause : Node) (hc : clause ∈ n.children) (hck : clause.kind = .importClause) :
      clause.namedChildren.find? (fun m => m.kind == k) = some p ↔ p ∈ clause.children ∧ p.kind = k := by
    rw [find?_eq_some_iff_of_unique, beq_iff_eq, Node.namedChildren, List.mem_filter]
    · refine and_congr_left fun hp => and_iff_left ?_
      rw [hp, hnamed, hextra]
      rfl
    · intro a ha b hb hak hbk
      exact (hn.child hc).eq_of_kind (by rwa [hck]) hextra (Node.mem_children_of_namedChildren ha)
        (Node.mem_children_of_namedChildren hb) (beq_iff_eq.1 hak) (beq_iff_eq.1 hbk)
  have hmem {clause : Node} : (clause ∈ n.children.filter fun c => c.kind == .importClause) ↔
      clause ∈ n.children ∧ clause.kind = .importClause := by
    rw [List.mem_filter, beq_iff_eq]
  constructor
  · intro h
    obtain ⟨clause, hc, hfind⟩ := List.exists_of_findSome?_eq_some h
    obtain ⟨hc, hck⟩ := hmem.1 hc
    exact ⟨clause, hc, hck, (hclause clause hc hck).1 hfind⟩
  · rintro ⟨clause, hc, hck, hp⟩
    -- There is no other clause that a search could look into first
    have honce : (.ofKind .importClause, 1) ∈ importShape.limits n.kind := by
      rw [hk]
      exact List.mem_cons_of_mem _ List.mem_cons_self
    have hfind := (hclause clause hc hck).2 hp
    cases h : ImportDecl.part? (n.children.filter fun c => c.kind == .importClause) k with
    | none => exact nomatch hfind.symm.trans (List.findSome?_eq_none_iff.1 h clause (hmem.2 ⟨hc, hck⟩))
    | some q =>
      obtain ⟨other, hother, hq⟩ := List.exists_of_findSome?_eq_some h
      obtain ⟨hother, hotherKind⟩ := hmem.1 hother
      obtain rfl := hn.eq_of_kind honce rfl hc hother hck hotherKind
      exact hq.symm.trans hfind

/-- What a statement is read as tells what it says. -/
structure Tells (text : List Char) (n : Node) (d : ImportDecl) : Prop where
  module : ∀ m, d.module = m ↔ TakesFrom text n m
  typeOnly : d.typeOnly = true ↔ IsTypeOnly n
  default : ∀ name, (∃ b ∈ d.defaultBinding, b.name = name) ↔ BindsDefault text n name
  named : ∀ name, (∃ b ∈ d.named, b.name = name) ↔ ∃ s ∈ specifiers n, IsKnownAs text s name

/-- A name in braces stands two levels below its statement. -/
theorem mem_specifiers {s : Node} : s ∈ specifiers n ↔
    ∃ clause ∈ n.children, clause.kind = .importClause ∧ ∃ braces ∈ clause.children,
      braces.kind = .namedImports ∧ s ∈ braces.children ∧ s.kind = .importSpecifier := by
  simp only [specifiers, List.mem_flatMap, List.mem_filter, List.mem_singleton, beq_iff_eq]
  constructor
  · rintro ⟨braces, ⟨clause, ⟨_, rfl, hclause, hck⟩, hbraces, hbk⟩, hs, hsk⟩
    exact ⟨clause, hclause, hck, braces, hbraces, hbk, hs, hsk⟩
  · rintro ⟨clause, hclause, hck, braces, hbraces, hbk, hs, hsk⟩
    exact ⟨braces, ⟨clause, ⟨n, rfl, hclause, hck⟩, hbraces, hbk⟩, hs, hsk⟩

/-- What is read of a statement tells what it says. -/
theorem tells_ofNode? (hn : n.Obeys importShape) (hk : n.kind = .importStatement)
    (h : ImportDecl.ofNode? text n = some d) : Tells text n d := by
  obtain ⟨source, hsource, rfl⟩ := Option.map_eq_some_iff.1 h
  -- A statement has one source at most
  have hsources (m : Node) : n.child? .source = some m ↔ m ∈ n.children ∧ m.label = some .source :=
    hn.child?_eq_some_iff (by rw [hk]; exact List.mem_cons_self)
  constructor
  case module =>
    intro m
    constructor
    · intro hm
      obtain ⟨hmem, hlabel⟩ := (hsources source).1 hsource
      exact ⟨source, hmem, hlabel, hm⟩
    · rintro ⟨other, hmem, hlabel, hm⟩
      obtain rfl := Option.some.inj (hsource.symm.trans ((hsources other).2 ⟨hmem, hlabel⟩))
      exact hm
  case typeOnly =>
    show (n.child? .typeOnly).isSome = true ↔ _
    rw [Node.child?, List.find?_isSome]
    simp only [beq_iff_eq, IsTypeOnly]
  case default =>
    intro name
    -- The default binding is the only name that stands in the clause itself
    have hpart (p : Node) := part?_eq_some_iff (p := p) hn hk (k := .identifier) List.mem_cons_self rfl rfl
    constructor
    · rintro ⟨b, hb, hbname⟩
      obtain ⟨own, hown, rfl⟩ := Option.map_eq_some_iff.1 hb
      obtain ⟨clause, hclause, hck, hmem, hkind⟩ := (hpart own).1 hown
      exact ⟨clause, hclause, hck, own, hmem, hkind, hbname⟩
    · rintro ⟨clause, hclause, hck, own, hmem, hkind, hown⟩
      exact ⟨_, Option.map_eq_some_iff.2 ⟨own, (hpart own).2 ⟨clause, hclause, hck, hmem, hkind⟩, rfl⟩,
        hown⟩
  case named =>
    intro name
    have hpart (p : Node) := part?_eq_some_iff (p := p) hn hk (k := .namedImports)
      (List.mem_cons_of_mem _ List.mem_cons_self) rfl rfl
    -- A specifier is read as the name that it is known by
    have hspecifier {clause braces s : Node} (hclause : clause ∈ n.children)
        (hbraces : braces ∈ clause.children) (hs : s ∈ braces.children) (hsk : s.kind = .importSpecifier) :
        (∃ b, ImportDecl.specifier? text s = some b ∧ b.name = name) ↔ IsKnownAs text s name :=
      exists_specifier?_iff (((hn.child hclause).child hbraces).child hs) hsk
    constructor
    · rintro ⟨b, hb, hbname⟩
      obtain ⟨s, hs, hb⟩ := List.mem_filterMap.1 hb
      obtain ⟨braces, hbraces, hs⟩ := List.mem_flatMap.1 hs
      obtain ⟨clause, hclause, hck, hmem, hbk⟩ := (hpart braces).1 (Option.mem_toList.1 hbraces)
      split at hb
      case isFalse => cases hb
      case isTrue hsk =>
        have hs := Node.mem_children_of_namedChildren hs
        exact ⟨s, mem_specifiers.2 ⟨clause, hclause, hck, braces, hmem, hbk, hs, hsk⟩,
          (hspecifier hclause hmem hs hsk).1 ⟨b, hb, hbname⟩⟩
    · rintro ⟨s, hs, hknown⟩
      obtain ⟨clause, hclause, hck, braces, hmem, hbk, hs, hsk⟩ := mem_specifiers.1 hs
      obtain ⟨b, hb, hbname⟩ := (hspecifier hclause hmem hs hsk).2 hknown
      refine ⟨b, List.mem_filterMap.2 ⟨s, List.mem_flatMap.2 ⟨braces, ?_, ?_⟩, by rw [if_pos hsk, hb]⟩,
        hbname⟩
      · exact Option.mem_toList.2 ((hpart braces).2 ⟨clause, hclause, hck, hmem, hbk⟩)
      · exact List.mem_filter.2 ⟨hs, by rw [hsk]; rfl⟩

/-- A statement that names a module is read. -/
theorem exists_ofNode?_iff (hn : n.Obeys importShape) (hk : n.kind = .importStatement) :
    (∃ d, ImportDecl.ofNode? text n = some d ∧ d.module = module) ↔ TakesFrom text n module := by
  constructor
  · rintro ⟨d, hd, hmodule⟩
    exact ((tells_ofNode? hn hk hd).module module).1 hmodule
  · rintro ⟨source, hsource, hlabel, hmodule⟩
    have hchild : n.child? .source = some source :=
      (hn.child?_eq_some_iff (by rw [hk]; exact List.mem_cons_self)).2 ⟨hsource, hlabel⟩
    exact ⟨_, Option.map_eq_some_iff.2 ⟨source, hchild, rfl⟩, hmodule⟩

/-- As one thing or the other, a statement binds its own name and all names in its braces. -/
theorem exists_bindsAs_iff : (∃ sense, BindsAs text n name sense) ↔
    BindsDefault text n name ∨ ∃ s ∈ specifiers n, IsKnownAs text s name := by
  constructor
  · rintro ⟨sense, ⟨_, h⟩ | ⟨s, hs, hknown, _⟩⟩
    · exact .inl h
    · exact .inr ⟨s, hs, hknown⟩
  · rintro (h | ⟨s, hs, hknown⟩)
    · exact ⟨.value, .inl ⟨rfl, h⟩⟩
    · by_cases hmark : IsMarked text s
      · exact ⟨.type, .inr ⟨s, hs, hknown, iff_of_true hmark rfl⟩⟩
      · exact ⟨.value, .inr ⟨s, hs, hknown, iff_of_false hmark (fun h => nomatch h)⟩⟩

/-- What a statement is taken to bind: a mark in its braces is overlooked. -/
theorem Tells.binds_iff (h : Tells text n d) :
    d.binds name = true ↔ ¬ IsTypeOnly n ∧ ∃ sense, BindsAs text n name sense := by
  rw [exists_bindsAs_iff, ← h.default, ← h.named, ← h.typeOnly]
  simp [ImportDecl.binds, ImportDecl.bindings]

/-! ## The statements of a text -/

/-- The statements that the table of a tree is read off, in the order of the text: those of whole texts,
and nothing below them. -/
def statementsRead (root : Node) : List Node :=
  (root.reached fun n => n.kind == .program).filter fun n => n.kind == .importStatement

/-- What the walk over a tree does with a node. -/
private theorem collect_cases (text : List Char) (n : Node) (decls : List ImportDecl) :
    (n.kind = .program ∧ ImportTable.collect text decls n = (decls, .descend)) ∨
    n.kind ≠ .program ∧
      ((n.kind = .importStatement ∧
          ImportTable.collect text decls n = ((ImportDecl.ofNode? text n).toList ++ decls, .skip)) ∨
        n.kind ≠ .importStatement ∧ ImportTable.collect text decls n = (decls, .skip)) := by
  simp only [ne_eq, ← Kind.role_eq_program_iff, ← Kind.role_eq_importStatement_iff,
    ImportTable.collect]
  cases n.kind.role <;> simp

mutual

/-- A tour of a tree gathers the statements that its table is read off, and does not stop. -/
private theorem tour_collect : ∀ (n : Node) (decls : List ImportDecl),
    (tour (ImportTable.collect text) n decls).stopped = false ∧
      (tour (ImportTable.collect text) n decls).gathered =
        ((statementsRead n).filterMap (ImportDecl.ofNode? text)).reverse ++ decls
  | .mk k l span cs, decls => by
    rw [tour_eq, statementsRead, Node.reached_eq]
    obtain ⟨hk, hcollect⟩ | ⟨hk, ⟨himport, hcollect⟩ | ⟨himport, hcollect⟩⟩ :=
      collect_cases text (.mk k l span cs) decls
    · -- The trees of the children are toured
      obtain ⟨hstopped, hgathered⟩ := tourAll_collect cs decls
      rw [hcollect, if_pos (by rw [hk]; rfl), List.filter_cons_of_neg (by rw [hk]; decide)]
      exact ⟨hstopped, hgathered⟩
    -- A statement is read as a whole and not entered; anything else is passed by
    · rw [hcollect, if_neg (by simpa using hk), List.filter_cons_of_pos (by simpa using himport)]
      cases hread : ImportDecl.ofNode? text (.mk k l span cs) <;> simp [hread]
    · rw [hcollect, if_neg (by simpa using hk), List.filter_cons_of_neg (by simpa using himport)]
      exact ⟨rfl, rfl⟩

/-- Collecting goes through the whole tree, and gathers the statements that it reaches from the last to
the first. -/
private theorem tourAll_collect : ∀ (ns : List Node) (decls : List ImportDecl),
    (tourAll (ImportTable.collect text) ns decls).stopped = false ∧
      (tourAll (ImportTable.collect text) ns decls).gathered =
        (((Node.reachedAll (fun n => n.kind == .program) ns).filter
          fun n => n.kind == .importStatement).filterMap (ImportDecl.ofNode? text)).reverse ++ decls
  | [], decls => ⟨rfl, rfl⟩
  | n :: ns, decls => by
    obtain ⟨hfirst, hgathered⟩ := tour_collect n decls
    obtain ⟨hrest, hrestGathered⟩ :=
      tourAll_collect ns (tour (ImportTable.collect text) n decls).gathered
    rw [tourAll, Tour.andThen_of_not_stopped hfirst]
    refine ⟨hrest, ?_⟩
    show (tourAll _ ns _).gathered = _
    rw [hrestGathered, hgathered, Node.reachedAll, List.filter_append, List.filterMap_append,
      List.reverse_append, List.append_assoc, statementsRead]

end

/-- The declarations of a table are those of the statements that are reached, in order. -/
theorem decls_ofTree (text : List Char) (root : Node) : (ImportTable.ofTree text root).decls =
    (statementsRead root).filterMap (ImportDecl.ofNode? text) := by
  show (walk (ImportTable.collect text) root []).reverse = _
  rw [walk_eq, (tour_collect root []).2, List.append_nil, List.reverse_reverse]

/-- The statements of a whole text are those at its top level. -/
theorem statementsRead_of_isWhole {root : Node} (h : root.IsWhole) :
    statementsRead root = root.children.filter fun n => n.kind == .importStatement := by
  -- Nothing below the root is a program, so nothing below it is entered
  have hchildren : ∀ ns : List Node, (∀ c ∈ ns, c.kind ≠ .program) →
      Node.reachedAll (fun n => n.kind == .program) ns = ns := by
    intro ns hns
    induction ns with
    | nil => rfl
    | cons n ns ih =>
      obtain ⟨hn, hns⟩ := List.forall_mem_cons.1 hns
      rw [Node.reachedAll, ih hns, Node.reached_eq, if_neg (by simpa using hn)]
      rfl
  rw [statementsRead, Node.reached_eq, if_pos (by simpa using h.kind), hchildren _ h.parts,
    List.filter_cons_of_neg (by rw [h.kind]; decide)]

/-- The declarations of a regular snapshot are those of the statements at its top level. -/
theorem decls_eq {s : Snapshot} (h : s.IsRegular) : s.imports.decls =
    (s.root.children.filter fun n => n.kind == .importStatement).filterMap
      (ImportDecl.ofNode? s.chars) := by
  rw [s.imports_eq, ← statementsRead_of_isWhole h.isWhole]
  exact decls_ofTree _ _

/-! ## What a table finds -/

/-- A declaration of a regular snapshot is read from a statement at its top level. -/
theorem mem_decls_iff {s : Snapshot} (h : s.IsRegular) : d ∈ s.imports.decls ↔
    ∃ n ∈ s.root.children, n.kind = .importStatement ∧ ImportDecl.ofNode? s.chars n = some d := by
  simp only [decls_eq h, List.mem_filterMap, List.mem_filter, beq_iff_eq, and_assoc]

/-- What a table takes for imported is bound, as a value or as a type. -/
theorem isImported_iff_isBound {s : Snapshot} (h : s.IsRegular) (name module : String) :
    s.imports.isImported name module = true ↔ ∃ sense, IsBound s name module sense := by
  simp only [ImportTable.isImported, List.any_eq_true, Bool.and_eq_true, beq_iff_eq]
  constructor
  · rintro ⟨d, hd, hmodule, hbinds⟩
    obtain ⟨n, hn, hk, hread⟩ := (mem_decls_iff h).1 hd
    have htells := tells_ofNode? (h.shaped _ hn) hk hread
    obtain ⟨honly, sense, hsense⟩ := htells.binds_iff.1 hbinds
    exact ⟨sense, n, hn, hk, (htells.module module).1 hmodule, honly, hsense⟩
  · rintro ⟨sense, n, hn, hk, htakes, honly, hsense⟩
    obtain ⟨d, hread, hmodule⟩ := (exists_ofNode?_iff (h.shaped _ hn) hk).2 htakes
    have htells := tells_ofNode? (h.shaped _ hn) hk hread
    exact ⟨d, (mem_decls_iff h).2 ⟨n, hn, hk, hread⟩, hmodule, htells.binds_iff.2 ⟨honly, sense, hsense⟩⟩

/-- The requests that a statement satisfies. -/
def ImportDecl.requests (d : ImportDecl) : List ImportRequest :=
  if d.typeOnly then []
  else (d.defaultBinding.toList.map fun b => ⟨b.name, d.module, true⟩) ++
    d.named.map fun b => ⟨b.name, d.module, false⟩

/-- The entries of a table are those of its statements. -/
theorem entries_eq_flatMap (t : ImportTable) : t.entries = t.decls.flatMap ImportDecl.requests := by
  rw [ImportTable.entries]
  induction t.decls with
  | nil => rfl
  | cons d ds ih => cases honly : d.typeOnly <;> simp [ImportDecl.requests, honly, ih]

/-- A statement satisfies only requests for its module. -/
theorem module_of_mem_requests {r : ImportRequest} (h : r ∈ d.requests) : r.module = d.module := by
  rw [ImportDecl.requests] at h
  split at h
  case isTrue => exact nomatch h
  case isFalse =>
    rcases List.mem_append.1 h with h | h
    · obtain ⟨b, _, rfl⟩ := List.mem_map.1 h
      rfl
    · obtain ⟨b, _, rfl⟩ := List.mem_map.1 h
      rfl

/-- A statement satisfies the requests for the names that it binds. -/
theorem exists_mem_requests_iff : (∃ r ∈ d.requests, r.symbol = name) ↔ d.binds name = true := by
  cases honly : d.typeOnly with
  | true => simp [ImportDecl.requests, ImportDecl.binds, honly]
  | false =>
    simp [ImportDecl.requests, ImportDecl.binds, ImportDecl.bindings, honly, or_and_right, exists_or]

/-- The entries of a table are what it takes for imported. -/
theorem exists_mem_entries_iff (t : ImportTable) (name module : String) :
    (∃ isDefault, ⟨name, module, isDefault⟩ ∈ t.entries) ↔ t.isImported name module = true := by
  simp only [entries_eq_flatMap, List.mem_flatMap, ImportTable.isImported, List.any_eq_true,
    Bool.and_eq_true, beq_iff_eq]
  constructor
  · rintro ⟨isDefault, d, hd, hr⟩
    exact ⟨d, hd, (module_of_mem_requests hr).symm, exists_mem_requests_iff.1 ⟨_, hr, rfl⟩⟩
  · rintro ⟨d, hd, rfl, hbinds⟩
    obtain ⟨r, hr, rfl⟩ := exists_mem_requests_iff.2 hbinds
    exact ⟨r.isDefault, d, hd, by rwa [← module_of_mem_requests hr]⟩

/-- An import is not put in exactly if the table takes it for imported. -/
theorem ensure_eq_none_iff (t : ImportTable) (r : ImportRequest) (pending : List Edit.Change) :
    t.ensure r pending = none ↔ t.isImported r.symbol r.module = true := by
  rw [ImportTable.ensure]
  split
  case isTrue h => exact iff_of_true rfl h
  case isFalse h => exact iff_of_false (fun h => nomatch h) h

/-- The names of a text that its table finds, in each of its answers, are those that an import statement
at the top level binds which is not marked as a whole, as values and as types alike. This is so in every
text without errors, and in any other text whose tree is recovered in that form. -/
theorem table_overlooks_marks {s : Snapshot} (h : s.IsRegular) :
    (∀ d ∈ s.imports.decls, ∃ n ∈ s.root.children, n.kind = .importStatement ∧
      TakesFrom s.chars n d.module ∧
      ∀ name, d.binds name = true ↔ ¬ IsTypeOnly n ∧ ∃ sense, BindsAs s.chars n name sense) ∧
    ∀ name module,
      (s.imports.isImported name module = true ↔ ∃ sense, IsBound s name module sense) ∧
      ((∃ isDefault, ⟨name, module, isDefault⟩ ∈ s.imports.entries) ↔
        ∃ sense, IsBound s name module sense) ∧
      ∀ isDefault pending, s.imports.ensure ⟨name, module, isDefault⟩ pending = none ↔
        ∃ sense, IsBound s name module sense := by
  refine ⟨fun d hd => ?_, fun name module => ?_⟩
  · obtain ⟨n, hn, hk, hread⟩ := (mem_decls_iff h).1 hd
    have htells := tells_ofNode? (h.shaped _ hn) hk hread
    exact ⟨n, hn, hk, (htells.module d.module).1 rfl, fun name => htells.binds_iff⟩
  · have himported := isImported_iff_isBound h name module
    exact ⟨himported, (exists_mem_entries_iff _ _ _).trans himported,
      fun isDefault pending => (ensure_eq_none_iff _ _ _).trans himported⟩

/-- One name is bound as a value, another one as a type, and whatever is pending no import of either is
put in. -/
theorem table_overlooks_marks_sample :
    let s : Snapshot := .ofText "/m.ts" "import D, \x7b type A as B \x7d from 'm';\n"
    s.IsRegular ∧ IsBound s "D" "m" .value ∧ IsBound s "B" "m" .type ∧
      ∀ name ∈ ["D", "B"], ∀ isDefault pending, s.imports.ensure ⟨name, "m", isDefault⟩ pending = none := by
  intro s
  have h : s.IsRegular := Snapshot.isRegular (by decide +kernel)
  have hbound : IsBound s "D" "m" .value ∧ IsBound s "B" "m" .type := by decide +kernel
  refine ⟨h, hbound.1, hbound.2, fun name hname isDefault pending => ?_⟩
  obtain ⟨_, _, hensure⟩ := (table_overlooks_marks h).2 name "m"
  rw [hensure]
  simp only [List.mem_cons, List.not_mem_nil, or_false] at hname
  rcases hname with rfl | rfl
  · exact ⟨_, hbound.1⟩
  · exact ⟨_, hbound.2⟩

example :
    let s : Snapshot :=
      .ofText "/m.ts" "import D, \x7b type as B, type type, type E as F \x7d from 'm';\n"
    IsBound s "D" "m" .value ∧ IsBound s "B" "m" .value ∧ IsBound s "type" "m" .type ∧
      IsBound s "F" "m" .type ∧ ¬ IsBound s "F" "m" .value ∧ ¬ IsBound s "E" "m" .type := by
  decide +kernel

/-- The name is imported as a type only, and it is taken for imported as a value. -/
theorem isImported_of_marked :
    let s : Snapshot := .ofText "/m.ts" "import \x7b type A \x7d from './a';\n"
    s.hasSyntaxErrors = false ∧ IsBound s "A" "./a" .type ∧ ¬ IsBound s "A" "./a" .value ∧
      s.imports.isImported "A" "./a" = true ∧ s.imports.entries = [⟨"A", "./a", false⟩] ∧
      s.imports.decls.map (fun d => d.binds "A") = [true] ∧
      s.imports.ensure ⟨"A", "./a", false⟩ [] = none := by
  decide +kernel

end Imports

end Enlist
