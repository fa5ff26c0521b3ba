import Enlist.Metadata.Routes
import Enlist.Session.Error
import Enlist.Session.ModulePath

/-!
# Sessions

A session collects changes to one file against one snapshot of it. The pending changes stay when they
are committed, so that further changes are still relative to the snapshot; only discarding them or
reading the file again drops them.
-/

namespace Enlist

open Edit Metadata Store Syntax

structure SessionConfig where
  /-- What the module of a symbol begins with. -/
  importBase : String
  selector : Selector
  deriving DecidableEq, Repr

namespace SessionConfig

/-- The base of modules unless another one is given. -/
def defaultBase : String := "."

/-- Modules are next to the file, and the declaration is that of an Angular module. -/
def standard : SessionConfig :=
  { importBase := defaultBase, selector := .ngModule }

end SessionConfig

/-- What was done last with the pending changes. -/
inductive SessionState where
  /-- The file was read, and nothing is pending. -/
  | parsed
  | accumulating
  | committed
  deriving DecidableEq, Repr

/-- The changes to one file. -/
structure Session where
  /-- The file as it was read. -/
  snapshot : Snapshot
  /-- The changes that a commit applies, in order. -/
  pending : ChangeSet
  config : SessionConfig
  state : SessionState
  /-- The digest of the text that was committed last since the file was read. -/
  lastCommitted : Option Digest

namespace Session

def path (s : Session) : String :=
  s.snapshot.path

/-- The session that starts with a snapshot. -/
def start (snapshot : Snapshot) (config : SessionConfig) : Session :=
  { snapshot, pending := [], config, state := .parsed, lastCommitted := none }

def startEvents (snapshot : Snapshot) : List Event :=
  [⟨.info, "session created", [("path", snapshot.path), ("hash", snapshot.digest.short)]⟩]

def readSnapshot [Recovery] (t : FileTree) (path : String) : Except SessionError Snapshot :=
  match t.readText path with
  | .ok text => .ok (.ofText path text)
  | .error e => .error (.ofRead e)

def openFile [Recovery] (t : FileTree) (path : String) (config : SessionConfig) :
    Except SessionError Session :=
  (readSnapshot t (Path.normalize path)).map fun snapshot => start snapshot config

def openEvents [Recovery] (t : FileTree) (path : String) : List Event :=
  match readSnapshot t (Path.normalize path) with
  | .ok snapshot => snapshot.events ++ startEvents snapshot
  | .error _ => []

/-- The state without new changes. -/
def idleState (s : Session) : SessionState :=
  if s.lastCommitted.isSome then .committed else .parsed

def override (s : Session) (changes : ChangeSet) : Session :=
  { s with
    pending := changes
    state := if changes.isEmpty then s.idleState else .accumulating }

def overrideEvents (s : Session) (changes : ChangeSet) : List Event :=
  [⟨.debug, "pending changes overridden",
    [("path", s.path), ("count", toString changes.length)]⟩]

def discard (s : Session) : Session :=
  { s with pending := [], state := s.idleState }

def discardEvents (s : Session) : List Event :=
  [⟨.debug, "pending changes discarded",
    [("path", s.path), ("count", toString s.pending.length)]⟩]

/-- Reads the file again and drops the pending changes, step by step. -/
def refreshSteps [Recovery] (t : FileTree) : Work Session SessionError Unit := do
  let snapshot ← Work.ofExcept (readSnapshot t (← get).path)
  modify fun s => { s with snapshot }
  modify fun s => { s with pending := [], state := .parsed, lastCommitted := none }

def refresh [Recovery] (s : Session) (t : FileTree) : Except SessionError Session :=
  ((refreshSteps t).outcome s).map Prod.snd

/-- A refresh starts the session anew over the text that is read, or fails and leaves it as it was. -/
theorem exec_refreshSteps [Recovery] (s : Session) (t : FileTree) :
    (refreshSteps t).exec s =
      match readSnapshot t s.path with
      | .ok snapshot => (.ok (), start snapshot s.config)
      | .error e => (.error e, s) := by
  simp only [refreshSteps, Work.exec_bind, Work.exec_get, Work.exec_ofExcept]
  cases readSnapshot t s.path <;> rfl

def refreshEvents [Recovery] (s : Session) (t : FileTree) : List Event :=
  match readSnapshot t s.path with
  | .ok snapshot =>
    snapshot.events ++
      [⟨.info, "session refreshed", [("path", snapshot.path), ("hash", snapshot.digest.short)]⟩]
  | .error _ => []

def modulePath (s : Session) (suffix : Option String) : String :=
  ModulePath.join s.config.importBase (suffix.getD "")

/-- A symbol is imported from the module of a suffix, by the text or by a pending change. -/
def isImported (s : Session) (symbol : String) (suffix : Option String) : Bool :=
  let module := s.modulePath suffix
  s.snapshot.imports.isImported symbol module || s.pending.containsOrigin (.importOf symbol module)

/-- The registration of a router that the declaration has. -/
def router (s : Session) : Except SessionError (Option RouterDeclaration) :=
  match routerDeclaration s.snapshot s.config.selector with
  | .ok r => .ok r
  | .error e => .error (.resolve e)

end Session

end Enlist
