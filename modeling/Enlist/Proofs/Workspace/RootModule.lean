import Enlist.Proofs.Metadata.Target
import Enlist.Proofs.Syntax.Walk
import Enlist.Workspace.RootModule
import Mathlib.Control.Monad.Basic

/-!
# What a main file bootstraps

The root module of a project is what its main file bootstraps: the first call of `bootstrapModule` that
has an identifier among its arguments decides, and the first identifier among them is taken for the
module, also where it stands behind another argument. Where the calls of a main file have no identifier
behind a first argument that is none, the module is the first argument of a call.

## Key results

- `bootstrapped?_eq_some_iff`: which argument is taken for the module
- `rootModulePath_eq_ok_iff`: which path is found, and when the first argument of a call leads there
- `rootModulePath_of_later_argument`: it is not always the first
-/

namespace Enlist.Workspace

open Syntax Store Metadata

/-- The node calls a function or a method with the name `bootstrapModule`. -/
structure CallsBootstrap (text : List Char) (call : Node) : Prop where
  isCall : call.kind = .callExpression
  callee : ∃ callee, call.child? .function = some callee ∧
    (callee.kind = .identifier ∧ callee.source text = "bootstrapModule" ∨
      callee.kind = .memberExpression ∧
        ∃ name, callee.child? .property = some name ∧ name.source text = "bootstrapModule")

/-- The first of the arguments of a call that are identifiers. -/
structure IsFirstIdentifier (call argument : Node) : Prop where
  isIdentifier : argument.kind = .identifier
  first : ∃ arguments before after, call.child? .arguments = some arguments ∧
    arguments.namedChildren = before ++ argument :: after ∧ ∀ n ∈ before, n.kind ≠ .identifier

/-- The call decides which module a text bootstraps: no call in front of it has an identifier. -/
structure Bootstraps (main : Snapshot) (call argument : Node) : Prop where
  calls : CallsBootstrap main.chars call
  argument : IsFirstIdentifier call argument
  first : ∃ before after, main.root.nodes = before ++ call :: after ∧
    ∀ n ∈ before, CallsBootstrap main.chars n → ∀ a, ¬IsFirstIdentifier n a

/-- The argument is imported from a module whose name begins with a dot, and the path is that of the
module from the directory of the main file. -/
def LeadsTo (main : Snapshot) (argument : Node) (path : String) : Prop :=
  ∃ specifier rest, main.imports.moduleOf? (argument.source main.chars) = some specifier ∧
    specifier.toList = '.' :: rest ∧
    path = Path.normalize (Path.parent main.path ++ "/" ++ specifier ++ ".ts")

/-- The snapshot is that of the main file of the project that is selected. -/
def IsMain [Recovery] (tree : FileTree) (project : Option String) (main : Snapshot) : Prop :=
  ∃ config name selected file text, readConfig tree = .ok config ∧
    config.select project = .ok (name, selected) ∧ selected.mainFile? = some file ∧
    tree.readText (Path.normalize file) = .ok text ∧ main = .ofText (Path.normalize file) text

/-- The argument is an identifier that stands first in a call of `bootstrapModule`. -/
structure StandsFirst (main : Snapshot) (argument : Node) : Prop where
  call : ∃ call ∈ main.root.nodes, CallsBootstrap main.chars call ∧ IsFirstArgument call argument
  isIdentifier : argument.kind = .identifier

/-- In no call of `bootstrapModule` an identifier stands behind a first argument that is none. -/
def HasIdentifiersFirst (main : Snapshot) : Prop :=
  ∀ call ∈ main.root.nodes, CallsBootstrap main.chars call →
    ∀ argument, IsFirstIdentifier call argument → IsFirstArgument call argument

/-- The path is one that the first argument of a call in the main file leads to. -/
def ComesFromFirst [Recovery] (tree : FileTree) (project : Option String) (path : String) : Prop :=
  ∃ main argument, IsMain tree project main ∧ StandsFirst main argument ∧ LeadsTo main argument path

variable {text : List Char} {call argument : Node}

/-! ## Calls -/

/-- The name that a call calls is the function itself, or the last part of a member access. -/
theorem calledName?_eq_some_iff {name : String} :
    calledName? text call = some name ↔
      ∃ callee, call.child? .function = some callee ∧
        (callee.kind = .identifier ∧ callee.source text = name ∨
          callee.kind = .memberExpression ∧
            ∃ n, callee.child? .property = some n ∧ n.source text = name) := by
  rw [calledName?, Option.bind_eq_bind, Option.bind_eq_some_iff]
  refine exists_congr fun callee => and_congr_right fun _ => ?_
  split
  case h_1 hkind => simp [hkind]
  case h_2 hkind => simp [hkind]
  case h_3 hmember hidentifier =>
    have hmember : callee.kind ≠ .memberExpression := hmember
    have hidentifier : callee.kind ≠ .identifier := hidentifier
    simp [hmember, hidentifier]

/-- A call bootstraps by the name that it calls. -/
theorem callsBootstrap_iff :
    CallsBootstrap text call ↔
      call.kind = .callExpression ∧ calledName? text call = some "bootstrapModule" := by
  rw [calledName?_eq_some_iff]
  exact ⟨fun ⟨hkind, hcallee⟩ => ⟨hkind, hcallee⟩, fun ⟨hkind, hcallee⟩ => ⟨hkind, hcallee⟩⟩

/-- The identifier that is found in a call is the first one among its arguments. -/
theorem identifierArgument?_eq_some_iff {name : String} :
    identifierArgument? text call = some name ↔
      ∃ argument, IsFirstIdentifier call argument ∧ argument.source text = name := by
  simp only [identifierArgument?, Option.bind_eq_bind, Option.bind_eq_some_iff, Option.pure_def,
    Option.some.injEq, List.find?_eq_some_iff_append, beq_iff_eq, Bool.not_eq_true',
    beq_eq_false_iff_ne]
  constructor
  · rintro ⟨arguments, harguments, argument, ⟨hkind, before, after, hsplit, hbefore⟩, hname⟩
    exact ⟨argument, ⟨hkind, arguments, before, after, harguments, hsplit, hbefore⟩, hname⟩
  · rintro ⟨argument, ⟨hkind, arguments, before, after, harguments, hsplit, hbefore⟩, hname⟩
    exact ⟨arguments, harguments, argument, ⟨hkind, before, after, hsplit, hbefore⟩, hname⟩

/-- What a call bootstraps is its first identifier. -/
theorem bootstraps?_eq_some_iff {name : String} :
    bootstraps? text call = some name ↔
      CallsBootstrap text call ∧ ∃ argument, IsFirstIdentifier call argument ∧
        argument.source text = name := by
  rw [bootstraps?, Option.ite_none_right_eq_some, ← callsBootstrap_iff,
    identifierArgument?_eq_some_iff]

/-- A call bootstraps nothing if it is no such call or is given no identifier. -/
theorem bootstraps?_eq_none_iff :
    bootstraps? text call = none ↔ (CallsBootstrap text call → ∀ a, ¬IsFirstIdentifier call a) := by
  rw [Option.eq_none_iff_forall_ne_some]
  simp only [ne_eq, bootstraps?_eq_some_iff]
  exact ⟨fun h hcalls a ha => h _ ⟨hcalls, a, ha, rfl⟩, fun h _ ⟨hcalls, a, ha, _⟩ => h hcalls a ha⟩

/-- The name that is found is that of the argument that decides. -/
theorem bootstrapped?_eq_some_iff {main : Snapshot} {name : String} :
    bootstrapped? main = some name ↔
      ∃ call argument, Bootstraps main call argument ∧ argument.source main.chars = name := by
  rw [bootstrapped?, findFirst_eq_findSome?, List.findSome?_eq_some_iff]
  simp only [bootstraps?_eq_some_iff, bootstraps?_eq_none_iff]
  constructor
  · rintro ⟨before, call, after, hsplit, ⟨hcalls, argument, hargument, hname⟩, hbefore⟩
    exact ⟨call, argument, ⟨hcalls, hargument, before, after, hsplit, hbefore⟩, hname⟩
  · rintro ⟨call, argument, ⟨hcalls, hargument, before, after, hsplit, hbefore⟩, hname⟩
    exact ⟨before, call, after, hsplit, ⟨hcalls, argument, hargument, hname⟩, hbefore⟩

/-! ## Paths -/

/-- A specifier is relative exactly if it begins with a dot. -/
theorem isRelative_iff {specifier : String} :
    isRelative specifier = true ↔ ∃ rest, specifier.toList = '.' :: rest := by
  rw [isRelative, beq_iff_eq, List.head?_eq_some_iff]

/-- The path of a root module is where the argument that decides leads to. -/
theorem rootModuleIn_eq_ok_iff {main : Snapshot} {path : String} :
    rootModuleIn main = .ok path ↔
      ∃ call argument, Bootstraps main call argument ∧ LeadsTo main argument path := by
  rw [rootModuleIn]
  constructor
  -- The name that is bootstrapped, then the module that it comes from
  · intro h
    split at h
    case h_1 => exact nomatch h
    case h_2 name hname =>
      split at h
      case h_1 => exact nomatch h
      case h_2 specifier hspecifier =>
        obtain ⟨call, argument, hdecides, rfl⟩ := bootstrapped?_eq_some_iff.1 hname
        obtain ⟨hmodule, hrelative⟩ := Option.filter_eq_some_iff.1 hspecifier
        obtain ⟨rest, hrest⟩ := isRelative_iff.1 hrelative
        exact ⟨call, argument, hdecides, specifier, rest, hmodule, hrest, (Except.ok.inj h).symm⟩
  · rintro ⟨call, argument, hdecides, specifier, rest, hmodule, hrest, rfl⟩
    have hspecifier : (main.imports.moduleOf? (argument.source main.chars)).filter isRelative =
        some specifier :=
      Option.filter_eq_some_iff.2 ⟨hmodule, isRelative_iff.2 ⟨rest, hrest⟩⟩
    simp only [bootstrapped?_eq_some_iff.2 ⟨call, argument, hdecides, rfl⟩, hspecifier]
    rfl

/-! ## Main files -/

/-- Two steps succeed exactly if the first does, and the second on its result. -/
theorem bind_eq_ok_iff {ε α β : Type} {x : Except ε α} {f : α → Except ε β} {b : β} :
    (x >>= f) = .ok b ↔ ∃ a, x = .ok a ∧ f a = .ok b := by
  constructor
  · intro h
    cases x with
    | error e => cases h
    | ok a => exact ⟨a, rfl, h⟩
  · rintro ⟨a, rfl, h⟩
    exact h

/-- The main file of a project is read from its normal path. -/
theorem readMain_eq_ok_iff [Recovery] {tree : FileTree} {name : String} {project : Project}
    {main : Snapshot} :
    readMain tree name project = .ok main ↔
      ∃ file text, project.mainFile? = some file ∧
        tree.readText (Path.normalize file) = .ok text ∧
          main = .ofText (Path.normalize file) text := by
  rw [readMain]
  constructor
  -- The main file is named by the project, and there is a text in it
  · intro h
    split at h
    case h_1 => exact nomatch h
    case h_2 file hfile =>
      simp only at h
      split at h
      case h_1 text htext => exact ⟨file, text, hfile, htext, (Except.ok.inj h).symm⟩
      case h_2 => exact nomatch h
      case h_3 => exact nomatch h
  · rintro ⟨file, text, hfile, htext, rfl⟩
    simp only [hfile, htext]

/-- The main file that is found is the one of the project. -/
theorem isMain_of_findMain [Recovery] {tree : FileTree} {project : Option String} {main : MainFile}
    (h : findMain tree project = .ok main) : IsMain tree project main.snapshot := by
  obtain ⟨config, hconfig, h⟩ := bind_eq_ok_iff.1 h
  obtain ⟨⟨name, selected⟩, hselected, h⟩ := bind_eq_ok_iff.1 h
  obtain ⟨snapshot, hsnapshot, h⟩ := bind_eq_ok_iff.1 h
  obtain ⟨file, text, hfile, htext, rfl⟩ := readMain_eq_ok_iff.1 hsnapshot
  obtain rfl := Except.ok.inj h
  exact ⟨config, name, selected, file, text, hconfig, hselected, hfile, htext, rfl⟩

/-- The main file is read from its text. -/
theorem IsMain.eq_ofText [Recovery] {tree : FileTree} {project : Option String} {main : Snapshot}
    (h : IsMain tree project main) : main = .ofText main.path main.text := by
  obtain ⟨_, _, _, file, text, -, -, -, -, rfl⟩ := h
  rfl

/-- The main file of a project is found. -/
theorem findMain_of_isMain [Recovery] {tree : FileTree} {project : Option String} {main : Snapshot}
    (h : IsMain tree project main) :
    ∃ name, findMain tree project = .ok { project := name, snapshot := main } := by
  obtain ⟨config, name, selected, file, text, hconfig, hselected, hfile, htext, hmain⟩ := h
  refine ⟨name, bind_eq_ok_iff.2 ⟨config, hconfig, bind_eq_ok_iff.2 ⟨_, hselected, ?_⟩⟩⟩
  exact bind_eq_ok_iff.2 ⟨main, readMain_eq_ok_iff.2 ⟨file, text, hfile, htext, hmain⟩, rfl⟩

/-! ## Root modules -/

variable {tree : FileTree} {project : Option String} {path : String}

/-- The path of the root module is the one that the main file names. -/
theorem rootModulePath_eq_ok_iff_rootModuleIn [Recovery] :
    rootModulePath tree project = .ok path ↔
      ∃ main, IsMain tree project main ∧ rootModuleIn main = .ok path := by
  rw [rootModulePath, bind_eq_ok_iff]
  constructor
  · rintro ⟨main, hmain, h⟩
    split at h
    case h_1 found hfound =>
      exact ⟨main.snapshot, isMain_of_findMain hmain, hfound.trans (congrArg _ (Except.ok.inj h))⟩
    case h_2 => cases h
  · rintro ⟨main, hmain, hfound⟩
    obtain ⟨name, hname⟩ := findMain_of_isMain hmain
    exact ⟨_, hname, by simp only [hfound]⟩

/-- The first call with an identifier decides, and a path is found exactly where its first identifier
leads to. Where the calls of the main file have their identifiers first, that is the first argument of
the call. -/
theorem rootModulePath_eq_ok_iff [Recovery] (tree : FileTree) (project : Option String)
    (path : String) :
    (rootModulePath tree project = .ok path ↔
      ∃ main call argument, IsMain tree project main ∧ Bootstraps main call argument ∧
        LeadsTo main argument path) ∧
    ((∀ main, IsMain tree project main → HasIdentifiersFirst main) →
      rootModulePath tree project = .ok path → ComesFromFirst tree project path) := by
  have hpath : rootModulePath tree project = .ok path ↔
      ∃ main call argument, IsMain tree project main ∧ Bootstraps main call argument ∧
        LeadsTo main argument path := by
    rw [rootModulePath_eq_ok_iff_rootModuleIn]
    simp only [rootModuleIn_eq_ok_iff, ← exists_and_left]
  refine ⟨hpath, fun hfirst hfound => ?_⟩
  obtain ⟨main, call, argument, hmain, hdecides, hleads⟩ := hpath.1 hfound
  -- The call that decides is one of the whole file
  have hcall : call ∈ main.root.nodes := by
    obtain ⟨before, after, hsplit, -⟩ := hdecides.first
    exact hsplit ▸ List.mem_append_cons_self
  have hargument : IsFirstArgument call argument :=
    hfirst main hmain call hcall hdecides.calls argument hdecides.argument
  exact ⟨main, argument, hmain, ⟨⟨call, hcall, hdecides.calls, hargument⟩,
    hdecides.argument.isIdentifier⟩, hleads⟩

/-- The path that a first argument leads to, as it is computed. -/
def firstLeadsTo? (main : Snapshot) (call : Node) : Option String :=
  if call.kind = .callExpression ∧ calledName? main.chars call = some "bootstrapModule" then
    ((firstArgument? call).filter fun a => a.kind == .identifier).bind fun a =>
      ((main.imports.moduleOf? (a.source main.chars)).filter isRelative).map
        (relativeFile main.path)
  else none

/-- A path that a first argument leads to is among the candidates. -/
theorem mem_firstLeadsTo? {main : Snapshot} (hfirst : StandsFirst main argument)
    (hleads : LeadsTo main argument path) :
    path ∈ main.root.nodes.filterMap (firstLeadsTo? main) := by
  obtain ⟨⟨call, hcall, hcalls, hargument⟩, hkind⟩ := hfirst
  obtain ⟨specifier, rest, hmodule, hrest, hpath⟩ := hleads
  refine List.mem_filterMap.2 ⟨call, hcall, ?_⟩
  have hgiven : (firstArgument? call).filter (fun a => a.kind == .identifier) = some argument :=
    Option.filter_eq_some_iff.2 ⟨firstArgument?_eq_some_iff.2 hargument, beq_iff_eq.2 hkind⟩
  have hspecifier : (main.imports.moduleOf? (argument.source main.chars)).filter isRelative =
      some specifier :=
    Option.filter_eq_some_iff.2 ⟨hmodule, isRelative_iff.2 ⟨rest, hrest⟩⟩
  rw [firstLeadsTo?, if_pos (callsBootstrap_iff.1 hcalls), hgiven, Option.bind_some, hspecifier,
    Option.map_some, hpath]
  rfl

/-- Not every path that is found comes from a first argument: the first call here has a member of an
object in front, and the identifier behind it is taken for the module. -/
theorem rootModulePath_of_later_argument :
    ¬∀ (tree : FileTree) (project : Option String) (path : String),
      rootModulePath tree project = .ok path → ComesFromFirst tree project path := by
  intro hall
  let text := "import \x7b A \x7d from './a';\nimport \x7b o \x7d from './o';\n" ++
    "bootstrapModule(m.M, o);\nbootstrapModule(A);\n"
  let tree := (FileTree.empty.insert configPath ("\x7b\"projects\":\x7b\"shop\":\x7b\"architect\":" ++
    "\x7b\"build\":\x7b\"options\":\x7b\"main\":\"src/main.ts\"\x7d\x7d\x7d\x7d\x7d\x7d").toUTF8).insert
      "/src/main.ts" text.toUTF8
  let main : Snapshot := .ofText "/src/main.ts" text
  -- The first call has an argument that is a member, and the identifier behind it is taken
  obtain ⟨hfound, hmain, hfirst⟩ : rootModulePath tree none = .ok "/src/o.ts" ∧
      (findMain tree none).toOption.map (fun m => (m.snapshot.path, m.snapshot.text)) =
        some ("/src/main.ts", text) ∧
      main.root.nodes.filterMap (firstLeadsTo? main) = ["/src/a.ts"] := by
    decide +kernel
  obtain ⟨main', argument, hmain', hargument, hleads⟩ := hall tree none "/src/o.ts" hfound
  -- The main file is the one text there is
  have heq : main' = main := by
    obtain ⟨name, hname⟩ := findMain_of_isMain hmain'
    rw [hname, Except.toOption, Option.map_some, Option.some.injEq, Prod.mk.injEq] at hmain
    rw [hmain'.eq_ofText, hmain.1, hmain.2]
  -- From first arguments, only the other module is reached
  have hmem := mem_firstLeadsTo? hargument hleads
  rw [heq, hfirst, List.mem_singleton] at hmem
  exact absurd hmem (by decide)

end Enlist.Workspace
