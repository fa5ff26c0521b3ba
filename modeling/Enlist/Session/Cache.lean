import Enlist.Session.Commit
import Enlist.Workspace.RootModule

/-!
# Session caches

A cache keeps one session for each file, in the order in which the files were asked for first. All who
register symbols in one file share its session, and so its snapshot and its pending changes.
-/

namespace Enlist

open Store Syntax

/-- The sessions of a run, each known by the path of its file. -/
structure SessionCache where
  config : SessionConfig
  /-- In the order in which they were opened. -/
  sessions : List Session

namespace SessionCache

def empty (config : SessionConfig) : SessionCache :=
  { config, sessions := [] }

/-- The paths of the files, in the order in which they were opened. -/
def paths (c : SessionCache) : List String :=
  c.sessions.map Session.path

def get? (c : SessionCache) (path : String) : Option Session :=
  c.sessions.find? fun s => s.path == Path.normalize path

def set (c : SessionCache) (s : Session) : SessionCache :=
  { c with sessions := c.sessions.map fun other => if other.path = s.path then s else other }

/-- Gives the session of a file, step by step. It is opened, by its normal path, when it is asked for
first. -/
def sessionSteps [Recovery] (t : FileTree) (path : String) : Work SessionCache SessionError Session := do
  let c ← get
  match c.get? path with
  | some s => return s
  | none =>
    let s ← Work.ofExcept (Session.openFile t (Path.normalize path) c.config)
    modify fun c => { c with sessions := c.sessions ++ [s] }
    return s

/-- The session of a file, and the cache that has it. -/
def session [Recovery] (c : SessionCache) (t : FileTree) (path : String) :
    Except SessionError (SessionCache × Session) :=
  ((sessionSteps t path).outcome c).map Prod.swap

/-- A session that is open is handed out; otherwise the file is read, and its session is put behind the
others. -/
theorem exec_sessionSteps [Recovery] (c : SessionCache) (t : FileTree) (path : String) :
    (sessionSteps t path).exec c =
      match c.get? path with
      | some s => (.ok s, c)
      | none =>
        match Session.openFile t (Path.normalize path) c.config with
        | .ok s => (.ok s, { c with sessions := c.sessions ++ [s] })
        | .error e => (.error e, c) := by
  simp only [sessionSteps, Work.exec_bind, Work.exec_get]
  cases c.get? path with
  | some s => rfl
  | none =>
    simp only [Work.exec_bind, Work.exec_ofExcept]
    cases Session.openFile t (Path.normalize path) c.config <;> rfl

def sessionEvents [Recovery] (c : SessionCache) (t : FileTree) (path : String) : List Event :=
  if (c.get? path).isSome then [] else Session.openEvents t path

/-- Gives the session of the root module of a project, step by step. -/
def rootSessionSteps [Recovery] (t : FileTree) (project : Option String) :
    Work SessionCache SessionError Session := do
  let path ← Work.ofExcept ((Workspace.rootModulePath t project).mapError .config)
  sessionSteps t path

def rootSession [Recovery] (c : SessionCache) (t : FileTree) (project : Option String) :
    Except SessionError (SessionCache × Session) :=
  ((rootSessionSteps t project).outcome c).map Prod.swap

/-- The session of the root module is that of the file which the workspace leads to. -/
theorem exec_rootSessionSteps [Recovery] (c : SessionCache) (t : FileTree) (project : Option String) :
    (rootSessionSteps t project).exec c =
      match Workspace.rootModulePath t project with
      | .ok path => (sessionSteps t path).exec c
      | .error e => (.error (.config e), c) := by
  rw [rootSessionSteps, Work.exec_bind, Work.exec_ofExcept]
  cases Workspace.rootModulePath t project <;> rfl

def rootSessionEvents [Recovery] (c : SessionCache) (t : FileTree) (project : Option String) :
    List Event :=
  Workspace.rootModuleEvents t project ++
    match Workspace.rootModulePath t project with
    | .ok path => c.sessionEvents t path
    | .error _ => []

def clear (c : SessionCache) : SessionCache :=
  { c with sessions := [] }

/-- Commits sessions one after the other up to the first that fails. Sessions without pending changes
are passed over. -/
def commitEach : List Session → FileTree →
    List Session × FileTree × Except SessionError (List Committed)
  | [], t => ([], t, .ok [])
  | s :: rest, t =>
    if s.pending.isEmpty then
      let (rest, t, results) := commitEach rest t
      (s :: rest, t, results)
    else
      match s.commit t with
      | .error e => (s :: rest, t, .error e)
      | .ok (s, t, committed) =>
        let (rest, t, results) := commitEach rest t
        (s :: rest, t, results.map (committed :: ·))

/-- Commits all sessions with pending changes, in order, up to the first that fails. What was
committed before it stays committed. -/
def commitAll (c : SessionCache) (t : FileTree) :
    SessionCache × FileTree × Except SessionError (List Committed) :=
  let (sessions, t, results) := commitEach c.sessions t
  ({ c with sessions }, t, results)

def commitEachEvents : List Session → FileTree → List Event
  | [], _ => []
  | s :: rest, t =>
    if s.pending.isEmpty then commitEachEvents rest t
    else
      s.commitEvents t ++
        match s.commit t with
        | .error _ => []
        | .ok (_, t, _) => commitEachEvents rest t

def commitAllEvents (c : SessionCache) (t : FileTree) : List Event :=
  commitEachEvents c.sessions t

end SessionCache

end Enlist
