import Enlist.Json.Record
import Enlist.Json.Value
import Enlist.Workspace.Error

/-!
# The configuration of a workspace

A workspace has projects, a project has build targets, and a target has options. Fields that are not
known are left out, but for the options of a target, where all values are kept. `WorkspaceConfig.ofText?`
reads a configuration, and `WorkspaceConfig.select` picks a project.
-/

namespace Enlist.Workspace

open Json

structure Options where
  main : Option String
  /-- The main file, under the name that newer builders give it. -/
  browser : Option String
  /-- All other options by name. -/
  extra : List (String × Value)

structure Target where
  builder : Option String
  options : Options

structure Project where
  /-- An application or a library. -/
  projectType : Option String
  root : String
  sourceRoot : Option String
  /-- What the selectors of its components begin with. -/
  selectorPrefix : Option String
  targets : List (String × Target)

structure WorkspaceConfig where
  version : Option Nat
  /-- The directory of new projects. -/
  newProjectRoot : Option String
  /-- The name of the project that is meant where none is named. -/
  defaultProject : Option String
  projects : List (String × Project)

namespace Options

/-- The options of a target that gives none. -/
def empty : Options :=
  { main := none, browser := none, extra := [] }

/-- The number of arrays and objects that may stand around one another in an option. A configuration
has at most 127 levels, and options stand in six of them. -/
def levels : Nat := 121

/-- The options that are kept by name. -/
def extraOf? (members : List (String × Written)) : Option (List (String × Value)) :=
  let others := members.filter fun m => m.1 != "main" && m.1 != "browser"
  let read := others.mapM fun (name, v) => (Value.ofWritten? levels v).map fun v => (name, v)
  read.map Members.ofList

/-- Reads the options of a target, which are an object. -/
def ofWritten? : Option Written → Option Options
  | none => some empty
  | some (.object members) => do
    let members ← Written.namedMembers? members
    let main ← Written.optionalText? (← Written.field? members ["main"])
    let browser ← Written.optionalText? (← Written.field? members ["browser"])
    let extra ← extraOf? members
    return { main, browser, extra }
  | _ => none

end Options

/-- Reads values by name, all in one way; of several with one name the last counts. -/
def byName? {α : Type} (read : Written → Option α) : Option Written → Option (List (String × α))
  | none => some []
  | some (.object members) => do
    let members ← Written.namedMembers? members
    let values ← members.mapM fun (name, v) => (read v).map fun a => (name, a)
    return Members.ofList values
  | _ => none

def Target.ofWritten? (v : Written) : Option Target := do
  let [builder, options] ← v.fields? [["builder"], ["options"]] | none
  return { builder := ← Written.optionalText? builder, options := ← Options.ofWritten? options }

namespace Project

/-- Reads a project. Its targets go by two names. -/
def ofWritten? (v : Written) : Option Project := do
  let [projectType, root, sourceRoot, selectorPrefix, targets] ← v.fields?
    [["projectType"], ["root"], ["sourceRoot"], ["prefix"], ["architect", "targets"]] | none
  return {
    projectType := ← Written.optionalText? projectType
    root := ← Written.textOr? "" root
    sourceRoot := ← Written.optionalText? sourceRoot
    selectorPrefix := ← Written.optionalText? selectorPrefix
    targets := ← byName? Target.ofWritten? targets }

/-- The main file of a project, as the target `build` names it. -/
def mainFile? (p : Project) : Option String := do
  let target ← Members.get? "build" p.targets
  target.options.main <|> target.options.browser

end Project

namespace WorkspaceConfig

def versionLimit : Nat := 0x100000000

def ofWritten? (v : Written) : Option WorkspaceConfig := do
  let [version, newProjectRoot, defaultProject, projects] ← v.fields?
    [["version"], ["newProjectRoot"], ["defaultProject"], ["projects"]] | none
  return {
    version := ← Written.optionalNatural? versionLimit version
    newProjectRoot := ← Written.optionalText? newProjectRoot
    defaultProject := ← Written.optionalText? defaultProject
    projects := ← byName? Project.ofWritten? projects }

def ofText? (text : List Char) : Option WorkspaceConfig :=
  (Written.ofText? text).bind ofWritten?

/-- Reads the text of a configuration, or says that it is none. -/
def ofText (text : String) : Except ConfigError WorkspaceConfig :=
  match ofText? text.toList with
  | some config => .ok config
  | none => .error .invalidConfiguration

/-- The project of a name; without a name the default project, or the only one if there is no
default. -/
def select (config : WorkspaceConfig) (name : Option String) :
    Except ConfigError (String × Project) :=
  match name <|> config.defaultProject with
  | some wanted =>
    match Members.get? wanted config.projects with
    | some project => .ok (wanted, project)
    | none => .error (.projectNotFound wanted)
  | none =>
    match config.projects with
    | [only] => .ok only
    | _ => .error (.projectNotFound "<default>")

end WorkspaceConfig

end Enlist.Workspace
