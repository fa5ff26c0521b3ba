import Enlist.Proofs.Imports.Bindings
import Mathlib.Data.List.Forall2

/-!
# What a table answers

A table is asked in several ways: for all that is bound, whether a name is bound from a module, which
module a name comes from, and which names an export is known by. All the answers are read off one list of
statements, and that list holds the import statements at the top level of the tree which name a module.

## Key results

- `moduleOf?_eq`: a name comes from the module of its first entry
- `isImported_of_mem_localNames`: the names of an export are bound from its module
- `forall₂_declares`: the declarations are the import statements that name a module, in order
- `answers_agree`: the views of a table agree
-/

namespace Enlist.Imports

open Syntax

variable {t : ImportTable} {d : ImportDecl} {name module : String}

/-! ## Answers -/

/-- The module that one statement gives for a name. -/
theorem map_find?_requests (d : ImportDecl) (name : String) :
    (d.requests.find? fun r => r.symbol == name).map ImportRequest.module =
      if d.binds name then some d.module else none := by
  -- One name is bound by a statement under one module
  cases hfind : d.requests.find? fun r => r.symbol == name with
  | none =>
    rw [if_neg]
    · rfl
    · intro hbinds
      obtain ⟨r, hr, hsymbol⟩ := exists_mem_requests_iff.2 hbinds
      exact List.find?_eq_none.1 hfind r hr (beq_iff_eq.2 hsymbol)
  | some r =>
    have hr := List.mem_of_find?_eq_some hfind
    have hsymbol : r.symbol = name := by simpa using List.find?_some hfind
    rw [if_pos (exists_mem_requests_iff.1 ⟨r, hr, hsymbol⟩), Option.map_some, module_of_mem_requests hr]

/-- A name comes from the module of the first entry for it. -/
theorem moduleOf?_eq (t : ImportTable) (name : String) :
    t.moduleOf? name = (t.entries.find? fun r => r.symbol == name).map ImportRequest.module := by
  rw [entries_eq_flatMap, ImportTable.moduleOf?]
  induction t.decls with
  | nil => rfl
  | cons d ds ih =>
    rw [List.flatMap_cons, List.find?_append, Option.map_or, map_find?_requests, ← ih, List.find?_cons]
    cases d.binds name <;> rfl

/-- The names that an export is known by are bound from its module. -/
theorem isImported_of_mem_localNames {imported : String} (h : name ∈ t.localNames imported module) :
    t.isImported name module = true := by
  simp only [ImportTable.localNames, List.mem_flatMap, List.mem_filter, List.mem_map, Bool.and_eq_true,
    Bool.not_eq_true'] at h
  obtain ⟨d, ⟨hd, hmodule, honly⟩, b, ⟨hb, _⟩, rfl⟩ := h
  have hbinds : d.binds b.name = true := by
    simp only [ImportDecl.binds, honly, Bool.not_false, Bool.true_and, List.any_eq_true, beq_iff_eq]
    exact ⟨b, List.mem_append_right _ hb, rfl⟩
  exact List.any_eq_true.2 ⟨d, hd, by rw [hmodule, hbinds]; rfl⟩

/-! ## Declarations -/

/-- The name of a module is a part of the statement. An import by `require` has a clause for it, and
names none itself. -/
def NamesModule (n : Node) : Prop :=
  ∃ source ∈ n.children, source.label = some .source

instance (n : Node) : Decidable (NamesModule n) :=
  inferInstanceAs (Decidable (∃ source ∈ n.children, _))

/-- The import statements at the top level of a tree that name a module, in order. -/
def statements (root : Node) : List Node :=
  root.children.filter fun n => n.kind = .importStatement ∧ NamesModule n

/-- The declaration is read off the statement: it stands there, and names its module. -/
structure Declares (text : List Char) (n : Node) (d : ImportDecl) : Prop where
  read : ImportDecl.ofNode? text n = some d
  span : d.span = n.span
  source : ∃ source ∈ n.children, source.label = some .source ∧ d.moduleSpan = source.span ∧
    d.module = source.stringValue text

variable {text : List Char} {root n : Node}

/-- What is read of a statement is what it declares. -/
theorem declares_of_ofNode? (h : ImportDecl.ofNode? text n = some d) : Declares text n d := by
  obtain ⟨source, hsource, rfl⟩ := Option.map_eq_some_iff.1 h
  have hlabel : source.label = some .source := by simpa using List.find?_some hsource
  exact ⟨h, rfl, source, Node.mem_children_of_child? hsource, hlabel, rfl, rfl⟩

/-- A statement is read exactly if it names a module. -/
theorem isSome_ofNode?_iff : (ImportDecl.ofNode? text n).isSome = true ↔ NamesModule n := by
  rw [ImportDecl.ofNode?, Option.isSome_map, Node.child?, List.find?_isSome]
  simp only [beq_iff_eq, NamesModule]

/-- What is kept of a list by reading it comes from what can be read, one by one. -/
private theorem forall₂_filterMap {α β : Type} (f : α → Option β) (as : List α) :
    List.Forall₂ (fun a b => f a = some b) (as.filter fun a => (f a).isSome) (as.filterMap f) := by
  induction as with
  | nil => exact .nil
  | cons a as ih =>
    cases ha : f a with
    | none => rwa [List.filter_cons_of_neg (by simp [ha]), List.filterMap_cons_none ha]
    | some b =>
      rw [List.filter_cons_of_pos (by simp [ha]), List.filterMap_cons_some ha]
      exact .cons ha ih

/-- The statements that are read are those that name a module. -/
theorem statements_eq (text : List Char) (root : Node) : statements root =
    (root.children.filter fun n => n.kind == .importStatement).filter fun n =>
      (ImportDecl.ofNode? text n).isSome := by
  rw [statements, List.filter_filter]
  refine List.filter_congr fun n _ => ?_
  rw [Bool.eq_iff_iff, decide_eq_true_iff, Bool.and_eq_true, isSome_ofNode?_iff, beq_iff_eq, and_comm]

/-- The declarations of the table of a tree are its import statements that name a module, in order. -/
theorem forall₂_declares (h : root.IsWhole) :
    List.Forall₂ (Declares text) (statements root) (ImportTable.ofTree text root).decls := by
  rw [decls_ofTree, statementsRead_of_isWhole h, statements_eq text root]
  exact (forall₂_filterMap (ImportDecl.ofNode? text) _).imp fun n d => declares_of_ofNode?

/-- Declarations stand where their statements stand. -/
theorem map_span_decls (h : root.IsWhole) :
    (ImportTable.ofTree text root).decls.map ImportDecl.span = (statements root).map Node.span := by
  rw [← List.forall₂_eq_eq_eq, List.forall₂_map_left_iff, List.forall₂_map_right_iff]
  exact ((forall₂_declares h).flip).imp fun d n hd => hd.span

/-- In a tree that is laid out, the declarations stand one behind the other. -/
theorem pairwise_decls (h : root.IsWhole) (hplaced : root.Placed text) :
    (ImportTable.ofTree text root).decls.Pairwise fun d e => d.span.stop ≤ e.span.start := by
  have hstatements := hplaced.row.pairwise.filter fun n => n.kind = .importStatement ∧ NamesModule n
  have hspans : ((ImportTable.ofTree text root).decls.map ImportDecl.span).Pairwise
      fun a b => a.stop ≤ b.start := by
    rw [map_span_decls h]
    exact List.pairwise_map.2 hstatements
  exact List.pairwise_map.1 hspans

/-- The views of the table of a tree agree. A name is imported from a module exactly where some entry says
so, it comes from the module of the first entry for it, and the names that an export is known by are
imported. The declarations of a whole text are the import statements at its top level that name a module,
one by one and in the order of the text: nothing below the top level is among them. -/
theorem answers_agree (text : List Char) (root : Node) :
    let t := ImportTable.ofTree text root
    (∀ name module, t.isImported name module = true ↔
      ∃ r ∈ t.entries, r.symbol = name ∧ r.module = module) ∧
    (∀ name, t.moduleOf? name =
      (t.entries.find? fun r => r.symbol == name).map ImportRequest.module) ∧
    (∀ imported module, ∀ name ∈ t.localNames imported module, t.isImported name module = true) ∧
    (root.IsWhole → List.Forall₂ (Declares text) (statements root) t.decls ∧
      (root.Placed text → t.decls.Pairwise fun d e => d.span.stop ≤ e.span.start)) := by
  refine ⟨fun name module => ?_, moduleOf?_eq _, fun imported module name => isImported_of_mem_localNames,
    fun h => ⟨forall₂_declares h, pairwise_decls h⟩⟩
  rw [← exists_mem_entries_iff]
  constructor
  · rintro ⟨isDefault, hr⟩
    exact ⟨_, hr, rfl, rfl⟩
  · rintro ⟨r, hr, rfl, rfl⟩
    exact ⟨r.isDefault, hr⟩

/-- Of four import statements three stand at the top level, and two of these name a module. The name that
both bind comes from the first. -/
theorem answers_agree_sample :
    let text := ("import A, \x7b B as C \x7d from './a';\nimport x = require('r');\n" ++
      "import \x7b A \x7d from './b';\ndeclare module 'q' \x7b import D from './d'; \x7d\n").toList
    let root := (SyntaxTree.ofText text).root
    let t := ImportTable.ofTree text root
    root.IsWhole ∧ root.Placed text ∧ (root.nodes.countP fun n => n.kind == .importStatement) = 4 ∧
      (root.children.countP fun n => n.kind == .importStatement) = 3 ∧
      List.Forall₂ (Declares text) (statements root) t.decls ∧
      (t.decls.Pairwise fun d e => d.span.stop ≤ e.span.start) ∧
      t.decls.map ImportDecl.module = ["./a", "./b"] ∧ t.moduleOf? "A" = some "./a" ∧
      "C" ∈ t.localNames "B" "./a" ∧ t.isImported "C" "./a" = true ∧ t.isImported "D" "./d" = false := by
  intro text root t
  have hrun : (root.nodes.countP fun n => n.kind == .importStatement) = 4 ∧
      (root.children.countP fun n => n.kind == .importStatement) = 3 ∧
      t.decls.map ImportDecl.module = ["./a", "./b"] ∧
      (t.entries.find? fun r => r.symbol == "A").map ImportRequest.module = some "./a" ∧
      "C" ∈ t.localNames "B" "./a" ∧ t.isImported "D" "./d" = false := by
    decide +kernel
  -- What is asked of the names by their values is told by the views
  obtain ⟨hnodes, htop, hmodules, hfirst, hnames, hnested⟩ := hrun
  have hregular : root.IsRegular text := isRegular_root (by decide +kernel)
  have hwhole : root.IsWhole := hregular.isWhole
  have hplaced : root.Placed text := hregular.placed
  obtain ⟨_, hmoduleOf, hlocal, hdecls⟩ := answers_agree text root
  obtain ⟨hstatements, hapart⟩ := hdecls hwhole
  exact ⟨hwhole, hplaced, hnodes, htop, hstatements, hapart hplaced, hmodules,
    (hmoduleOf "A").trans hfirst, hnames, hlocal "B" "./a" "C" hnames, hnested⟩

end Enlist.Imports
