import Enlist.Event
import Enlist.Metadata.Declaration
import Enlist.Store.FileTree
import Enlist.Workspace.Config

/-!
# The root module of a project

The main file of a project bootstraps a module by a call of `bootstrapModule`. The module has to be
imported there from a path that is relative to the main file; that path leads to the file of the root
module.
-/

namespace Enlist.Workspace

open Syntax Store

/-- Where a workspace keeps its configuration. -/
def configPath : String := "/angular.json"

def readConfig (tree : FileTree) : Except ConfigError WorkspaceConfig :=
  match tree.readText configPath with
  | .ok text => WorkspaceConfig.ofText text
  | .error _ => .error (.configurationMissing configPath)

/-- The name of the function or method that a call calls. -/
def calledName? (text : List Char) (call : Node) : Option String := do
  let callee ← call.child? .function
  match callee.kind with
  | .memberExpression => (callee.child? .property).map (Node.source text)
  | .identifier => some (callee.source text)
  | _ => none

/-- The first argument of a call that is an identifier. -/
def identifierArgument? (text : List Char) (call : Node) : Option String := do
  let arguments ← call.child? .arguments
  let argument ← arguments.namedChildren.find? fun a => a.kind == .identifier
  return argument.source text

/-- The name of the module that a call bootstraps. -/
def bootstraps? (text : List Char) (call : Node) : Option String :=
  if call.kind = .callExpression ∧ calledName? text call = some "bootstrapModule" then
    identifierArgument? text call
  else none

/-- The name of the module that is bootstrapped first in a file. -/
def bootstrapped? (s : Snapshot) : Option String :=
  findFirst (bootstraps? s.chars) (fun _ => true) s.root

/-- The path of the file that a relative path names in a file. -/
def relativeFile (file path : String) : String :=
  Path.normalize s!"{Path.parent file}/{path}.ts"

def isRelative (path : String) : Bool :=
  path.toList.head? == some '.'

/-- The path of the root module that a main file bootstraps. -/
def rootModuleIn (main : Snapshot) : Except TargetProblem String :=
  match bootstrapped? main with
  | none => .error (.noBootstrap main.path)
  | some module =>
    match (main.imports.moduleOf? module).filter isRelative with
    | none => .error (.notRelative module main.path)
    | some path => .ok (relativeFile main.path path)

structure MainFile where
  project : String
  snapshot : Snapshot

/-- Reads the main file of a project. -/
def readMain [Recovery] (tree : FileTree) (name : String) (project : Project) :
    Except ConfigError Snapshot :=
  match project.mainFile? with
  | none => .error (.targetNotResolvable name (.noMainFile (project.sourceRoot.getD project.root)))
  | some main =>
    let path := Path.normalize main
    match tree.readText path with
    | .ok text => .ok (.ofText path text)
    | .error (.fileNotFound path) => .error (.fileNotFound path)
    | .error e => .error (.targetNotResolvable name (.unreadable e.message))

/-- Finds the main file of a project, or of the one that is meant where none is named. -/
def findMain [Recovery] (tree : FileTree) (project : Option String) : Except ConfigError MainFile := do
  let config ← readConfig tree
  let (name, project) ← config.select project
  return { project := name, snapshot := ← readMain tree name project }

/-- The path of the root module of a project. -/
def rootModulePath [Recovery] (tree : FileTree) (project : Option String) :
    Except ConfigError String := do
  let main ← findMain tree project
  match rootModuleIn main.snapshot with
  | .ok path => .ok path
  | .error problem => .error (.targetNotResolvable main.project problem)

def rootModuleEvents [Recovery] (tree : FileTree) (project : Option String) : List Event :=
  match findMain tree project with
  | .error _ => []
  | .ok main =>
    let found := match rootModuleIn main.snapshot with
      | .ok path =>
        [⟨.debug, "resolved root module",
          [("project", main.project), ("main", main.snapshot.path), ("resolved", path)]⟩]
      | .error _ => []
    main.snapshot.events ++ found

end Enlist.Workspace
