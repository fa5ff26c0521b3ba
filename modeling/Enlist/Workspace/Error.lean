/-!
# Errors of a workspace

Why the configuration of a workspace cannot be used, or the root module of a project is not found.
-/

namespace Enlist.Workspace

/-- Why a root module cannot be told. -/
inductive TargetProblem where
  /-- The build target names no main file; `root` is where the sources of the project are. -/
  | noMainFile (root : String)
  | unreadable (message : String)
  /-- No module is bootstrapped in the main file. -/
  | noBootstrap (main : String)
  /-- The module that is bootstrapped does not come from a file next to the main file. -/
  | notRelative (module main : String)
  deriving DecidableEq, Repr

def TargetProblem.message : TargetProblem → String
  | noMainFile root => s!"no main file in build options ({root})"
  | unreadable message => message
  | noBootstrap main => s!"no bootstrapModule call in {main}"
  | notRelative module main => s!"'{module}' is not imported from a relative path in {main}"

/-- Why a workspace cannot be used. -/
inductive ConfigError where
  /-- There is no configuration that is a text. -/
  | configurationMissing (path : String)
  | invalidConfiguration
  /-- No project is selected. -/
  | projectNotFound (name : String)
  | targetNotResolvable (project : String) (problem : TargetProblem)
  /-- A file that the configuration names is not there. -/
  | fileNotFound (path : String)
  deriving DecidableEq, Repr

def ConfigError.message : ConfigError → String
  | configurationMissing path => s!"could not find Angular workspace configuration at {path}"
  | invalidConfiguration => "invalid workspace configuration:"
  | projectNotFound name => s!"project not found: {name}"
  | targetNotResolvable project problem =>
    s!"cannot resolve root module of project '{project}': {problem.message}"
  | fileNotFound path => s!"could not find file for path: {path}"

end Enlist.Workspace
