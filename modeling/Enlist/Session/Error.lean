import Enlist.Edit.Splice
import Enlist.Metadata.Error
import Enlist.Store.FileTree
import Enlist.Workspace.Error

/-!
# Errors of a session

A step of a session fails for a reason of its own or for one of the parts that it uses. A step that
fails changes nothing.
-/

namespace Enlist

/-- Why a step of a session fails. -/
inductive SessionError where
  /-- The workspace does not lead to a file. -/
  | config (e : Workspace.ConfigError)
  | store (e : Store.StoreError)
  | resolve (e : Metadata.ResolveError)
  | apply (e : Edit.ApplyError)
  | fileNotFound (path : String)
  /-- The file holds neither what was read nor what the session wrote last. -/
  | staleSnapshot (path expected actual : String)
  deriving DecidableEq, Repr

namespace SessionError

def message : SessionError → String
  | config e => s!"configuration error: {e.message}"
  | store e => s!"store error: {e.message}"
  | resolve e => s!"resolve error: {e.message}"
  | apply e => s!"apply error: {e.message}"
  | fileNotFound path => s!"could not find file for path: {path}"
  | staleSnapshot path expected actual =>
    s!"stale snapshot of {path}: parsed {expected}, store holds {actual}"

/-- The error of a file that cannot be read. -/
def ofRead : Store.StoreError → SessionError
  | .fileNotFound path => fileNotFound path
  | e => store e

/-- The run should end. No step is tried again, so this holds of every error. -/
def isFatal : SessionError → Bool
  | config _ | store _ | resolve _ | apply _ | fileNotFound _ | staleSnapshot _ _ _ => true

end SessionError

end Enlist
