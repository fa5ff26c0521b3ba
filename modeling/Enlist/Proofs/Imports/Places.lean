import Enlist.Imports.Ensure
import Enlist.Proofs.Edit.Insertion
import Enlist.Proofs.Imports.Bindings
import Enlist.Proofs.Metadata.Places

/-!
# Places of imports

A new name goes into the braces of an import statement or behind the name of its module. This file says
where that is in the text, and that the braces of different statements have different places, none of
which is behind the name of a module.

## Key results

- `exists_row_of_decls`: the statements of a table are read off nodes that stand one behind the other
- `useStrictEnd_eq_some_iff`: when a text opens with a directive `'use strict'`
- `placed_imports`: where the statements of the table of a snapshot can be edited
- `satisfy_inserts`: what the change that satisfies a request puts in
- `ImportTable.Placed.inserted_boundary`: it goes between two characters
- `ImportTable.inserted_outside`: it goes outside of all literals
-/

namespace Enlist.Imports

open Edit Metadata Syntax Text

/-! ## One statement -/

namespace ImportDecl

/-- The byte at which a name joins the braces of a statement: behind the last name in them, or in front
of the closing brace of empty ones. -/
def joinOffset? (d : ImportDecl) : Option Nat :=
  d.braces.map fun braces =>
    match d.named.getLast? with
    | some last => last.span.stop
    | none => braces.stop - 1

variable {text : List Char} {n : Node} {d : ImportDecl}

/-- The name of the module is a child of the statement. -/
private theorem exists_source (h : ofNode? text n = some d) :
    ∃ source ∈ n.children, d.moduleSpan = source.span := by
  obtain ⟨source, hsource, rfl⟩ := Option.map_eq_some_iff.1 h
  exact ⟨source, Node.mem_children_of_child? hsource, rfl⟩

/-- Braces stand in a clause of the statement, and the names in them are those of their items. -/
private theorem exists_list (h : ofNode? text n = some d) {braces : Span}
    (hbraces : d.braces = some braces) :
    ∃ clause ∈ n.children, clause.kind = .importClause ∧ ∃ list ∈ clause.namedChildren,
      list.kind = .namedImports ∧ list.span = braces ∧
      ∀ b ∈ d.named, ∃ item ∈ list.namedChildren, b.span = item.span := by
  obtain ⟨source, _, rfl⟩ := Option.map_eq_some_iff.1 h
  obtain ⟨list, hlist, rfl⟩ := Option.map_eq_some_iff.1 hbraces
  obtain ⟨clause, hclause, hfind⟩ := List.exists_of_findSome?_eq_some hlist
  have hkind : list.kind = .namedImports := by simpa using List.find?_some hfind
  obtain ⟨hchild, hclauseKind⟩ := List.mem_filter.1 hclause
  refine ⟨clause, hchild, beq_iff_eq.1 hclauseKind, list, List.mem_of_find?_eq_some hfind, hkind, rfl,
    fun b hb => ?_⟩
  -- A binding is one of the items that are specifiers
  dsimp only at hb
  rw [hlist] at hb
  obtain ⟨item, hitem, hb⟩ := List.mem_filterMap.1 hb
  split at hb
  case isFalse => exact nomatch hb
  case isTrue =>
    obtain ⟨name, _, rfl⟩ := Option.map_eq_some_iff.1 hb
    exact ⟨item, by simpa using hitem, rfl⟩

/-- The names of an import statement stand in braces. -/
private theorem brackets_namedImports {list : Node} (h : list.kind = .namedImports) :
    list.kind.brackets? = some ('\x7b', '\x7d') := by
  rw [h]
  rfl

/-- Where the name of the module and the names in braces stand in a statement that is laid out. -/
structure Placed (text : List Char) (n : Node) (d : ImportDecl) : Prop where
  module_within : n.span.start ≤ d.moduleSpan.stop ∧ d.moduleSpan.stop ≤ n.span.stop
  module_boundary : isBoundary text d.moduleSpan.stop = true
  join_within : ∀ o, d.joinOffset? = some o → n.span.start < o ∧ o < n.span.stop
  join_ne_module : ∀ o, d.joinOffset? = some o → o ≠ d.moduleSpan.stop
  join_boundary : ∀ o, d.joinOffset? = some o → isBoundary text o = true
  /-- The last byte of braces is the closing one. -/
  closing : ∀ braces, d.braces = some braces → ∃ rest, dropBytes text (braces.stop - 1) = '\x7d' :: rest

/-- A name joins braces inside of them. -/
private theorem joinOffset?_bounds {list : Node} {braces : Span} {o : Nat} (hlist : list.Placed text)
    (hkind : list.kind.brackets? = some ('\x7b', '\x7d')) (hspan : list.span = braces)
    (hbraces : d.braces = some braces)
    (hnamed : ∀ b ∈ d.named, ∃ item ∈ list.namedChildren, b.span = item.span)
    (ho : d.joinOffset? = some o) :
    list.span.start < o ∧ o < list.span.stop ∧ isBoundary text o = true := by
  simp only [joinOffset?, hbraces, Option.map_some, Option.some.injEq] at ho
  subst hspan
  -- The empty braces are joined in front of the closing one, others behind the last item
  cases hlast : d.named.getLast? with
  | none =>
    simp only [hlast] at ho
    obtain ⟨hlength, hboundary, _⟩ := closing_bracket hlist hkind
    subst ho
    exact ⟨by omega, by omega, hboundary⟩
  | some last =>
    simp only [hlast] at ho
    obtain ⟨item, hitem, hspan⟩ := hnamed last (List.mem_of_mem_getLast? hlast)
    have hbounds := namedChildren_bounds hlist hkind hitem
    have hboundary := (hlist.child (Node.mem_children_of_namedChildren hitem)).stop_boundary
    rw [← ho, hspan]
    exact ⟨by omega, by omega, hboundary⟩

/-- The places that are read of a statement are in that statement. -/
theorem placed_ofNode? (hn : n.Placed text) (h : ofNode? text n = some d) : d.Placed text n := by
  obtain ⟨source, hsource, hmodule⟩ := exists_source h
  have hsourceBounds := hn.row.mem hsource
  -- The braces stand inside of a clause, which is the name of the module itself or apart from it
  have hjoin : ∀ o, d.joinOffset? = some o →
      (n.span.start < o ∧ o < n.span.stop) ∧ o ≠ source.span.stop ∧ isBoundary text o = true := by
    intro o ho
    obtain ⟨braces, hbraces, _⟩ := Option.map_eq_some_iff.1 ho
    obtain ⟨clause, hclause, _, list, hlist, hkind, hspan, hnamed⟩ := exists_list h hbraces
    have hclausePlaced := hn.child hclause
    have hlistChild := Node.mem_children_of_namedChildren hlist
    have hclauseBounds := hn.row.mem hclause
    have hlistBounds := hclausePlaced.row.mem hlistChild
    obtain ⟨hlo, hhi, hboundary⟩ := joinOffset?_bounds (hclausePlaced.child hlistChild)
      (brackets_namedImports hkind) hspan hbraces hnamed ho
    refine ⟨⟨by omega, by omega⟩, ?_, hboundary⟩
    by_cases heq : clause = source
    · subst heq
      omega
    · have := apart_of_pairwise hn.row.pairwise hclause hsource heq
      omega
  refine ⟨by rw [hmodule]; omega, hmodule ▸ (hn.child hsource).stop_boundary,
    fun o ho => (hjoin o ho).1, fun o ho => hmodule ▸ (hjoin o ho).2.1,
    fun o ho => (hjoin o ho).2.2, fun braces hbraces => ?_⟩
  obtain ⟨clause, hclause, _, list, hlist, hkind, rfl, _⟩ := exists_list h hbraces
  have hlistPlaced := (hn.child hclause).child (Node.mem_children_of_namedChildren hlist)
  exact (closing_bracket hlistPlaced (brackets_namedImports hkind)).2.2

/-- Names join a statement inside of its braces. -/
theorem joinOffset?_inside (hn : n.Placed text) (h : ofNode? text n = some d) {o : Nat}
    (ho : d.joinOffset? = some o) : ∃ braces, d.braces = some braces ∧ braces.start < o ∧ o < braces.stop := by
  obtain ⟨braces, hbraces, _⟩ := Option.map_eq_some_iff.1 ho
  obtain ⟨clause, hclause, _, list, hlist, hkind, rfl, hnamed⟩ := exists_list h hbraces
  have hlistPlaced := (hn.child hclause).child (Node.mem_children_of_namedChildren hlist)
  obtain ⟨hlo, hhi, _⟩ :=
    joinOffset?_bounds hlistPlaced (brackets_namedImports hkind) rfl hbraces hnamed ho
  exact ⟨_, hbraces, hlo, hhi⟩

end ImportDecl

/-! ## The statements of a text -/

section

variable {text : List Char} {root n m : Node}

mutual

/-- The statements that the table of a tree is read off stand one behind the other. -/
private theorem inRow_statementsRead : ∀ {root : Node}, root.Placed text →
    InRow root.span.start (statementsRead root) root.span.stop
  | .mk k l s cs, h => by
    rw [statementsRead, Node.reached_eq]
    by_cases hk : k = .program
    · -- Those of a whole text are those of its children
      subst hk
      rw [List.filter_cons_of_neg (by simp [Node.kind])]
      exact inRow_statementsReadAll h.row fun c hc => h.child hc
    · rw [if_neg (by simpa [Node.kind] using hk), List.filter_cons]
      split
      · exact ⟨Nat.le_refl _, h.start_le_stop, Nat.le_refl _⟩
      · exact h.start_le_stop

/-- The statements that are reached stand one behind the other. -/
private theorem inRow_statementsReadAll : ∀ {lo hi : Nat} {ns : List Node}, InRow lo ns hi →
    (∀ n ∈ ns, n.Placed text) →
      InRow lo ((Node.reachedAll (fun n => n.kind == .program) ns).filter
        fun n => n.kind == .importStatement) hi
  | _, _, [], h, _ => h
  | _, _, n :: ns, ⟨hlo, _, hrow⟩, hns => by
    rw [Node.reachedAll, List.filter_append]
    have hn := inRow_statementsRead (hns n List.mem_cons_self)
    exact inRow_append.2 ⟨_, hn.of_le hlo,
      inRow_statementsReadAll hrow fun m hm => hns m (List.mem_cons_of_mem _ hm)⟩

end

/-- A statement that a table is read off is a node of the tree. -/
private theorem mem_statementsRead (h : n ∈ statementsRead root) :
    n ∈ root.nodes ∧ n.kind = .importStatement := by
  obtain ⟨hreached, hkind⟩ := List.mem_filter.1 h
  exact ⟨Node.mem_nodes_of_mem_reached hreached, beq_iff_eq.1 hkind⟩

/-- The statements of the table of a tree are read off nodes that stand one behind the other. -/
theorem exists_row_of_decls {s : Snapshot} (hroot : s.root.Placed s.chars) :
    ∃ ns : List Node, (ns.Pairwise fun a b => a.span.stop ≤ b.span.start) ∧
      (∀ n ∈ ns, n.Placed s.chars) ∧ s.imports.decls = ns.filterMap (ImportDecl.ofNode? s.chars) := by
  refine ⟨statementsRead s.root, (inRow_statementsRead hroot).pairwise, fun n hn => ?_, ?_⟩
  · exact Node.inherited_of_mem_nodes (fun _ h _ hc => h.child hc) hroot (mem_statementsRead hn).1
  · rw [s.imports_eq, decls_ofTree]
    rfl

end

/-- Where the statements of a table can be edited. -/
structure ImportTable.Placed (text : List Char) (t : ImportTable) : Prop where
  module_boundary : ∀ d ∈ t.decls, isBoundary text d.moduleSpan.stop = true
  join_boundary : ∀ d ∈ t.decls, ∀ o, d.joinOffset? = some o → isBoundary text o = true
  useStrict_boundary : ∀ stop, t.useStrictEnd = some stop → isBoundary text stop = true
  /-- The last byte of braces is the closing one. -/
  closing : ∀ d ∈ t.decls, ∀ braces, d.braces = some braces →
    ∃ rest, dropBytes text (braces.stop - 1) = '\x7d' :: rest
  /-- Names join different statements at different places. -/
  join_inj : ∀ d ∈ t.decls, ∀ d' ∈ t.decls, ∀ o, d.joinOffset? = some o → d'.joinOffset? = some o →
    d = d'
  /-- Names join no statement behind the name of its module. -/
  join_ne_module : ∀ d ∈ t.decls, ∀ d' ∈ t.decls, ∀ o, d.joinOffset? = some o → o ≠ d'.moduleSpan.stop

/-- The text opens with a directive `'use strict'`, whose literal ends at `stop`: comments aside, the
first of its parts is a statement that begins with this literal. -/
def OpensWithUseStrict (text : List Char) (root : Node) (stop : Nat) : Prop :=
  ∃ directive others literal rest, root.namedChildren = directive :: others ∧
    directive.kind = .expressionStatement ∧ directive.namedChildren = literal :: rest ∧
    literal.kind = .string ∧ literal.stringValue text = "use strict" ∧ literal.span.stop = stop

/-- The end of a directive is found exactly where the text opens with `'use strict'`. -/
theorem useStrictEnd?_eq_some_iff {text : List Char} {root : Node} {stop : Nat} :
    ImportTable.useStrictEnd? text root = some stop ↔ OpensWithUseStrict text root stop := by
  simp only [ImportTable.useStrictEnd?, Option.bind_eq_bind]
  constructor
  -- What the search looks for in turn is the directive, then its literal
  · intro h
    obtain ⟨directive, hdirective, h⟩ := Option.bind_eq_some_iff.1 h
    obtain ⟨others, hothers⟩ := List.head?_eq_some_iff.1 hdirective
    split at h
    case isFalse => exact nomatch h
    case isTrue hkind =>
      obtain ⟨literal, hliteral, h⟩ := Option.bind_eq_some_iff.1 h
      obtain ⟨rest, hrest⟩ := List.head?_eq_some_iff.1 hliteral
      split at h
      case isFalse => exact nomatch h
      case isTrue hvalue =>
        exact ⟨directive, others, literal, rest, hothers, hkind, hrest, hvalue.1, hvalue.2,
          Option.some.inj h⟩
  · rintro ⟨directive, others, literal, rest, hothers, hkind, hrest, hstring, hvalue, rfl⟩
    simp [hothers, hkind, hrest, hstring, hvalue]

/-- A table has the end of the directive `'use strict'` exactly when its text opens with one. -/
theorem useStrictEnd_eq_some_iff (s : Snapshot) (stop : Nat) :
    s.imports.useStrictEnd = some stop ↔ OpensWithUseStrict s.chars s.root stop := by
  rw [s.imports_eq]
  exact useStrictEnd?_eq_some_iff

/-- A directive `'use strict'` is a statement of the text, and the literal in it is where it ends. -/
theorem exists_useStrict {s : Snapshot} {stop : Nat} (h : s.imports.useStrictEnd = some stop) :
    ∃ first ∈ s.root.children, first.kind = .expressionStatement ∧
      ∃ literal ∈ first.children, literal.span.stop = stop := by
  obtain ⟨first, _, literal, _, hfirst, hkind, hliteral, _, _, rfl⟩ :=
    (useStrictEnd_eq_some_iff s stop).1 h
  exact ⟨first, Node.mem_children_of_namedChildren (by rw [hfirst]; exact List.mem_cons_self), hkind,
    literal, Node.mem_children_of_namedChildren (by rw [hliteral]; exact List.mem_cons_self), rfl⟩

/-- Where the statements of the table of a snapshot can be edited. -/
theorem placed_imports {s : Snapshot} (hroot : s.root.Placed s.chars) : s.imports.Placed s.chars := by
  obtain ⟨ns, hrow, hplaced, hdecls⟩ := exists_row_of_decls hroot
  -- Every statement is read off one of the nodes, and lies inside of it
  have hnode : ∀ d ∈ s.imports.decls, ∃ n ∈ ns, ImportDecl.ofNode? s.chars n = some d ∧
      d.Placed s.chars n := by
    intro d hd
    rw [hdecls] at hd
    obtain ⟨n, hn, hd⟩ := List.mem_filterMap.1 hd
    exact ⟨n, hn, hd, ImportDecl.placed_ofNode? (hplaced n hn) hd⟩
  refine ⟨fun d hd => ?_, fun d hd => ?_, fun stop hstop => ?_, fun d hd => ?_,
    fun d hd d' hd' o ho ho' => ?_, fun d hd d' hd' o ho => ?_⟩
  · obtain ⟨n, _, _, hdPlaced⟩ := hnode d hd
    exact hdPlaced.module_boundary
  · obtain ⟨n, _, _, hdPlaced⟩ := hnode d hd
    exact hdPlaced.join_boundary
  · obtain ⟨first, hfirst, _, literal, hliteral, rfl⟩ := exists_useStrict hstop
    exact ((hroot.child hfirst).child hliteral).stop_boundary
  · obtain ⟨n, _, _, hdPlaced⟩ := hnode d hd
    exact hdPlaced.closing
  -- Two names join at one byte only in one statement, as statements do not overlap
  · obtain ⟨n, hn, hread, hdPlaced⟩ := hnode d hd
    obtain ⟨n', hn', hread', hdPlaced'⟩ := hnode d' hd'
    by_cases heq : n = n'
    · subst heq
      exact Option.some.inj (hread.symm.trans hread')
    · have := apart_of_pairwise hrow hn hn' heq
      have := hdPlaced.join_within o ho
      have := hdPlaced'.join_within o ho'
      omega
  -- A name joins inside of the braces, and a statement goes behind the name of the module
  · obtain ⟨n, hn, hread, hdPlaced⟩ := hnode d hd
    obtain ⟨n', hn', hread', hdPlaced'⟩ := hnode d' hd'
    by_cases heq : n = n'
    · subst heq
      obtain rfl : d = d' := Option.some.inj (hread.symm.trans hread')
      exact hdPlaced.join_ne_module o ho
    · have := apart_of_pairwise hrow hn hn' heq
      have := hdPlaced.join_within o ho
      have := hdPlaced'.module_within
      omega

/-! ## What is put in -/

namespace ImportTable

/-- What a request becomes as a statement of its own: behind the name of the last module, behind a
directive `'use strict'`, or at the top. -/
def statementInserted (t : ImportTable) (r : ImportRequest) : Insertion :=
  match t.decls.getLast?, t.useStrictEnd with
  | some last, _ => ⟨last.moduleSpan.stop, ";\n" ++ r.statement⟩
  | none, some stop => ⟨stop, ";\n" ++ r.statement⟩
  | none, none => ⟨0, r.statement ++ ";\n"⟩

/-- What a request becomes in the braces of a statement for its module. Empty braces take it in only
while they are free. -/
def joinInserted? (t : ImportTable) (r : ImportRequest) (free : Bool) : Option Insertion :=
  (t.openClause? r.module).bind fun d => d.braces.bind fun braces =>
    match d.named.getLast? with
    | some last => some ⟨last.span.stop, ", " ++ r.symbol⟩
    | none => if free then some ⟨braces.stop - 1, " " ++ r.symbol ++ " "⟩ else none

/-- What a request that the text does not satisfy becomes. -/
def inserted (t : ImportTable) (r : ImportRequest) (free : Bool) : Insertion :=
  if r.isDefault then t.statementInserted r
  else (t.joinInserted? r free).getD (t.statementInserted r)

/-- No pending change puts a name into empty braces for the module. -/
def isFree (t : ImportTable) (module : String) (pending : List Change) : Bool :=
  (t.openClause? module).all fun d => d.braces.all fun braces => !isFilled (braces.stop - 1) pending

variable {t : ImportTable} {r : ImportRequest} {text : List Char}

/-- A statement is put in without taking anything out. -/
private theorem addStatement_inserts (t : ImportTable) (r : ImportRequest) :
    (t.addStatement r).isInsertion = true ∧ (t.addStatement r).insertion = t.statementInserted r ∧
      (t.addStatement r).origin = r.origin := by
  simp only [addStatement, statementInserted]
  cases t.decls.getLast? with
  | some last => exact ⟨rfl, rfl, rfl⟩
  | none => cases t.useStrictEnd <;> exact ⟨rfl, rfl, rfl⟩

/-- A change joins the braces of a statement exactly when its name is put in there. -/
private theorem join?_inserts (t : ImportTable) (r : ImportRequest) (pending : List Change) :
    (t.join? r pending = none ∧ t.joinInserted? r (t.isFree r.module pending) = none) ∨
    ∃ c, t.join? r pending = some c ∧ c.isInsertion = true ∧
      t.joinInserted? r (t.isFree r.module pending) = some c.insertion ∧ c.origin = r.origin := by
  -- A statement is joined if it has braces; empty ones take in the first name only
  cases hd : t.openClause? r.module with
  | none => exact .inl (by simp [join?, joinInserted?, hd])
  | some d =>
    cases hbraces : d.braces with
    | none => exact .inl (by simp [join?, joinInserted?, hd, hbraces])
    | some braces =>
      cases hlast : d.named.getLast? with
      | some last =>
        refine .inr ⟨_, by simp [join?, hd, hbraces, hlast]; rfl, rfl, ?_, rfl⟩
        simp only [joinInserted?, hd, hbraces, hlast, Option.bind_some]
        rfl
      | none =>
        cases hfilled : isFilled (braces.stop - 1) pending with
        | true => exact .inl (by simp [join?, joinInserted?, isFree, hd, hbraces, hlast, hfilled])
        | false =>
          refine .inr ⟨_, by simp [join?, hd, hbraces, hlast, hfilled]; rfl, rfl, ?_, rfl⟩
          simp only [joinInserted?, isFree, hd, hbraces, hlast, hfilled, Option.bind_some,
            Option.all_some, Bool.not_false, if_true]
          rfl

/-- The change that satisfies a request takes nothing out, and is known as that of the request. -/
theorem satisfy_inserts (t : ImportTable) (r : ImportRequest) (pending : List Change) :
    (t.satisfy r pending).isInsertion = true ∧
      (t.satisfy r pending).insertion = t.inserted r (t.isFree r.module pending) ∧
      (t.satisfy r pending).origin = r.origin := by
  have hstatement := addStatement_inserts t r
  rw [satisfy, inserted]
  split
  case isTrue => exact hstatement
  case isFalse =>
    rcases join?_inserts t r pending with ⟨hjoin, hinserted⟩ | ⟨c, hjoin, hins, hinserted, horigin⟩
    · rw [hjoin, hinserted]
      exact hstatement
    · rw [hjoin, hinserted]
      exact ⟨hins, rfl, horigin⟩

/-- The clause that a name joins is one with braces, of the module that is asked for. -/
theorem mem_of_openClause? {module : String} {d : ImportDecl} (h : t.openClause? module = some d) :
    d ∈ t.decls ∧ d.module = module ∧ d.braces.isSome = true := by
  have hfound := List.find?_some h
  simp only [Bool.and_eq_true, beq_iff_eq] at hfound
  exact ⟨List.mem_of_find?_eq_some h, hfound.1.1, hfound.2⟩

/-- A name joins the braces of the first statement for its module that has braces, at their place. -/
theorem offset_of_joinInserted? {free : Bool} {i : Insertion} (h : t.joinInserted? r free = some i) :
    ∃ d, t.openClause? r.module = some d ∧ d.joinOffset? = some i.offset := by
  obtain ⟨d, hd, h⟩ := Option.bind_eq_some_iff.1 h
  obtain ⟨braces, hbraces, h⟩ := Option.bind_eq_some_iff.1 h
  refine ⟨d, hd, ?_⟩
  -- In either form of the braces, the change goes to the byte at which they are joined
  rw [ImportDecl.joinOffset?, hbraces, Option.map_some]
  split at h
  case h_1 =>
    cases h
    rfl
  case h_2 =>
    split at h
    · cases h
      rfl
    · exact nomatch h

/-- A request becomes a statement of its own, or a name in braces. -/
theorem inserted_cases (t : ImportTable) (r : ImportRequest) (free : Bool) :
    t.inserted r free = t.statementInserted r ∨ t.joinInserted? r free = some (t.inserted r free) := by
  rw [inserted]
  split
  case isTrue => exact .inl rfl
  case isFalse =>
    cases t.joinInserted? r free with
    | none => exact .inl rfl
    | some i => exact .inr rfl

/-- A statement goes between two characters. -/
private theorem Placed.statementInserted_boundary (h : t.Placed text) (r : ImportRequest) :
    isBoundary text (t.statementInserted r).offset = true := by
  rw [statementInserted]
  split
  case h_1 last hlast => exact h.module_boundary last (List.mem_of_mem_getLast? hlast)
  case h_2 stop _ hstop => exact h.useStrict_boundary stop hstop
  case h_3 => exact isBoundary_zero text

/-- What a request becomes goes between two characters. -/
theorem Placed.inserted_boundary (h : t.Placed text) (r : ImportRequest) (free : Bool) :
    isBoundary text (t.inserted r free).offset = true := by
  rcases inserted_cases t r free with hstatement | hjoin
  · rw [hstatement]
    exact h.statementInserted_boundary r
  · obtain ⟨d, hd, hoffset⟩ := offset_of_joinInserted? hjoin
    exact h.join_boundary d (mem_of_openClause? hd).1 _ hoffset

/-! ## Literals -/

/-- The node is an array literal or an object literal. -/
def IsLiteral (m : Node) : Prop :=
  m.kind = .array ∨ m.kind = .object

/-- A literal is another node than one that is none. -/
private theorem IsLiteral.ne {m n : Node} (h : IsLiteral m) (hn : ¬IsLiteral n) : m ≠ n :=
  fun heq => hn (heq ▸ h)

variable {n m : Node} {d : ImportDecl}

/-- A name joins braces outside of all literals. -/
private theorem outside_joinOffset? (hn : n.Placed text) (hread : ImportDecl.ofNode? text n = some d)
    (hm : m ∈ n.nodes) (hne : m ≠ n) (hliteral : IsLiteral m) {o : Nat} (ho : d.joinOffset? = some o) :
    Outside m o := by
  obtain ⟨braces, hbraces, hoffset⟩ := Option.map_eq_some_iff.1 ho
  obtain ⟨clause, hclause, hclauseKind, list, hlist, hkind, rfl, hnamed⟩ :=
    ImportDecl.exists_list hread hbraces
  have hclausePlaced := hn.child hclause
  have hlistChild := Node.mem_children_of_namedChildren hlist
  have hlistPlaced := hclausePlaced.child hlistChild
  have hbrackets := ImportDecl.brackets_namedImports hkind
  obtain ⟨hlo, hhi, _⟩ := ImportDecl.joinOffset?_bounds hlistPlaced hbrackets rfl hbraces hnamed ho
  have hwithin := hclausePlaced.row.mem hlistChild
  -- Either the place is outside already, or the literal is below the clause, the braces, and an item
  rcases outside_or_mem_nodes hn hclause hm hne (p := o) (by omega) (by omega) with hout | hm
  · exact hout
  have hneClause := hliteral.ne (n := clause) (by simp [IsLiteral, hclauseKind])
  rcases outside_or_mem_nodes hclausePlaced hlistChild hm hneClause (p := o) (by omega) (by omega) with
    hout | hm
  · exact hout
  have hneList := hliteral.ne (n := list) (by simp [IsLiteral, hkind])
  split at hoffset
  case h_1 last hlast =>
    obtain ⟨item, hitem, hspan⟩ := hnamed last (List.mem_of_mem_getLast? hlast)
    rw [← hoffset, hspan]
    exact (outside_ends hlistPlaced (Node.mem_children_of_namedChildren hitem) hm hneList).2
  case h_2 =>
    -- The place is where the closing brace starts
    obtain ⟨first, inner, closing, hchildren, _, hmark, _, hstop⟩ := hlistPlaced.enclosed hbrackets
    have hstart : o = closing.span.start := by
      have := hmark.stop
      omega
    rw [hstart]
    exact (outside_ends hlistPlaced (by rw [hchildren]; simp) hm hneList).1

/-- A place in a statement that a table is read off is outside of all literals that are not below the
statement: what the statement is below are whole texts. -/
private theorem outside_or_mem_statement {root n m : Node} (hroot : root.Placed text)
    (hn : n ∈ root.reached fun n => n.kind == .program) (hm : m ∈ root.nodes) (hliteral : IsLiteral m)
    {p : Nat} (hlo : n.span.start ≤ p) (hhi : p ≤ n.span.stop) : Outside m p ∨ m ∈ n.nodes := by
  rw [Node.reached_eq, List.mem_cons] at hn
  -- At the root, or in the part of it that the statement stands in
  rcases hn with rfl | hn
  · exact .inr hm
  · split at hn
    case isFalse => exact nomatch hn
    case isTrue hprogram =>
      obtain ⟨c, hc, hn⟩ := Node.mem_reachedAll.1 hn
      have hneRoot := hliteral.ne (n := root) (by simp [IsLiteral, beq_iff_eq.1 hprogram])
      have hwithin := within_of_mem_nodes (hroot.child hc) (Node.mem_nodes_of_mem_reached hn)
      rcases outside_or_mem_nodes hroot hc hm hneRoot (p := p) (by omega) (by omega) with
        hout | hm
      · exact .inl hout
      · exact outside_or_mem_statement (hroot.child hc) hn hm hliteral hlo hhi
termination_by root.size
decreasing_by exact Node.size_lt_of_mem_children hc

section

variable {s : Snapshot} (hroot : s.root.Placed s.chars)

include hroot

/-- A statement that is read is a node that is laid out, and a place in it is outside of all literals
that are not below it. -/
private theorem exists_statement_of_mem_decls (hd : d ∈ s.imports.decls) :
    ∃ n, n.Placed s.chars ∧ n.kind = .importStatement ∧ ImportDecl.ofNode? s.chars n = some d ∧
      ∀ m ∈ s.root.nodes, IsLiteral m → ∀ p, n.span.start ≤ p → p ≤ n.span.stop →
        Outside m p ∨ m ∈ n.nodes := by
  rw [s.imports_eq, decls_ofTree] at hd
  obtain ⟨n, hn, hread⟩ := List.mem_filterMap.1 hd
  obtain ⟨hmem, hkind⟩ := mem_statementsRead hn
  exact ⟨n, Node.inherited_of_mem_nodes (fun _ h _ hc => h.child hc) hroot hmem, hkind, hread,
    fun m hm hliteral p hlo hhi =>
      outside_or_mem_statement hroot (List.mem_filter.1 hn).1 hm hliteral hlo hhi⟩

variable (hm : m ∈ s.root.nodes) (hne : m ≠ s.root) (hliteral : IsLiteral m)

include hm hne hliteral

/-- A statement that is added goes outside of all literals. -/
private theorem outside_statementInserted (r : ImportRequest) :
    Outside m (s.imports.statementInserted r).offset := by
  rw [statementInserted]
  split
  -- Behind the last statement: a literal in it ends in front of its module, or begins behind it
  case h_1 last hlast =>
    obtain ⟨n, hnPlaced, hkind, hread, hapart⟩ :=
      exists_statement_of_mem_decls hroot (List.mem_of_mem_getLast? hlast)
    obtain ⟨source, hsource, hmodule⟩ := ImportDecl.exists_source hread
    have hwithin := (ImportDecl.placed_ofNode? hnPlaced hread).module_within
    rcases hapart m hm hliteral _ hwithin.1 hwithin.2 with hout | hm
    · exact hout
    · rw [hmodule]
      exact (outside_ends hnPlaced hsource hm (hliteral.ne (by simp [IsLiteral, hkind]))).2
  -- Behind the directive, which ends with its literal
  case h_2 stop _ hstop =>
    obtain ⟨first, hn, hkind, literal, hchild, rfl⟩ := exists_useStrict hstop
    have hnPlaced := hroot.child hn
    have hwithin := hnPlaced.row.mem hchild
    rcases outside_or_mem_nodes hroot hn hm hne (by omega) hwithin.2.2 with hout | hm
    · exact hout
    · exact (outside_ends hnPlaced hchild hm (hliteral.ne (by simp [IsLiteral, hkind]))).2
  case h_3 => exact .inl (Nat.zero_le _)

/-- What a request becomes goes outside of all array literals and object literals of the text. -/
theorem inserted_outside (r : ImportRequest) (free : Bool) :
    Outside m (s.imports.inserted r free).offset := by
  -- A statement of its own, or a name that joins the braces of one
  rcases inserted_cases s.imports r free with hstatement | hjoin
  · rw [hstatement]
    exact outside_statementInserted hroot hm hne hliteral r
  · obtain ⟨d, hd, hoffset⟩ := offset_of_joinInserted? hjoin
    obtain ⟨n, hnPlaced, hkind, hread, hapart⟩ :=
      exists_statement_of_mem_decls hroot (mem_of_openClause? hd).1
    have hwithin := (ImportDecl.placed_ofNode? hnPlaced hread).join_within _ hoffset
    rcases hapart m hm hliteral _ (Nat.le_of_lt hwithin.1) (Nat.le_of_lt hwithin.2) with hout | hm
    · exact hout
    · exact outside_joinOffset? hnPlaced hread hm (hliteral.ne (by simp [IsLiteral, hkind])) hliteral
        hoffset

end

end ImportTable

end Enlist.Imports
