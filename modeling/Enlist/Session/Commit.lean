import Enlist.Session.Basic

/-!
# Commits

A commit applies the pending changes to the snapshot and writes the whole text once. Everything that
can fail before the write is done by `prepare`; it leaves an update that `finish` commits to the store.
The file must still hold what was read, or what the session wrote last.

* `exec_commitSteps`   a commit prepares an update of the store, and then commits it
-/

namespace Enlist

open Edit Store

structure Committed where
  path : String
  applied : Nat
  before : Digest
  /-- The digest of the text that was written. -/
  after : Digest
  text : String

/-- The text is what it was before. -/
def Committed.isUnchanged (c : Committed) : Bool :=
  c.before = c.after

structure PreparedCommit where
  outcome : Committed
  update : Update

namespace Session

/-- The session knows the content: it read it, or wrote it last. -/
def knows (s : Session) (d : Digest) : Bool :=
  d = s.snapshot.digest || some d = s.lastCommitted

/-- Prepares a commit. Nothing is written. -/
def prepare (s : Session) (t : FileTree) : Except SessionError PreparedCommit :=
  match apply s.snapshot.text s.pending with
  | .error e => .error (.apply e)
  | .ok text =>
    match t.readText s.path with
    | .error e => .error (.ofRead e)
    | .ok stored =>
      let before := Digest.ofText stored
      if s.knows before then
        .ok {
          outcome :=
            { path := s.path, applied := s.pending.length, before, after := .ofText text, text }
          update := (t.beginUpdate s.path).overwrite text.toUTF8 }
      else .error (.staleSnapshot s.path s.snapshot.digest.short before.short)

/-- Commits a prepared update to the store, and remembers what was written. -/
def finishSteps (p : PreparedCommit) : Work (Session × FileTree) SessionError Unit := do
  Work.onSecond .store (FileTree.commitSteps p.update)
  modify fun (s, t) => ({ s with lastCommitted := some p.outcome.after }, t)
  modify fun (s, t) => ({ s with state := .committed }, t)

def finish (s : Session) (p : PreparedCommit) (t : FileTree) :
    Except SessionError (Session × FileTree) :=
  ((finishSteps p).outcome (s, t)).map Prod.snd

/-- Applies the pending changes and writes the file, step by step. -/
def commitSteps : Work (Session × FileTree) SessionError Committed := do
  let (s, t) ← get
  let p ← Work.ofExcept (s.prepare t)
  finishSteps p
  return p.outcome

/-- The session and the store after a commit, and what was done. -/
def commit (s : Session) (t : FileTree) : Except SessionError (Session × FileTree × Committed) :=
  (commitSteps.outcome (s, t)).map fun (c, s, t) => (s, t, c)

/-- What is prepared is done if the store takes the update, and otherwise the session stays as it was.
-/
theorem exec_finishSteps (s : Session) (t : FileTree) (p : PreparedCommit) :
    (finishSteps p).exec (s, t) =
      match (FileTree.commitSteps p.update).exec t with
      | (.ok (), t) => (.ok (), { s with state := .committed, lastCommitted := some p.outcome.after }, t)
      | (.error e, t) => (.error (.store e), s, t) := by
  simp only [finishSteps, Work.exec_bind, Work.exec_onSecond]
  cases h : (FileTree.commitSteps p.update).exec t with
  | mk r t' => cases r <;> rfl

/-- A commit prepares what it writes, which may fail, before anything is done. -/
theorem exec_commitSteps (s : Session) (t : FileTree) :
    commitSteps.exec (s, t) =
      match s.prepare t with
      | .error e => (.error e, s, t)
      | .ok p =>
        match (finishSteps p).exec (s, t) with
        | (.ok (), s, t) => (.ok p.outcome, s, t)
        | (.error e, s, t) => (.error e, s, t) := by
  simp only [commitSteps, Work.exec_bind, Work.exec_get, Work.exec_ofExcept]
  cases s.prepare t with
  | error e => rfl
  | ok p =>
    dsimp only
    cases h : (finishSteps p).exec (s, t) with
    | mk r q => cases r <;> rfl

def prepareEvents (s : Session) (t : FileTree) : List Event :=
  match s.prepare t with
  | .error (.staleSnapshot path _ _) =>
    [⟨.warn, "stored file changed since it was parsed", [("path", path)]⟩]
  | _ => []

def finishEvents (s : Session) (p : PreparedCommit) (t : FileTree) : List Event :=
  match s.finish p t with
  | .error _ => []
  | .ok _ =>
    [⟨.debug, "committing update",
      [("path", p.update.path), ("bytes", toString p.outcome.text.utf8ByteSize)]⟩,
     ⟨.info, "committed changes",
      [("path", p.outcome.path), ("applied", toString p.outcome.applied),
        ("before", p.outcome.before.short), ("after", p.outcome.after.short)]⟩]

def commitEvents (s : Session) (t : FileTree) : List Event :=
  s.prepareEvents t ++
    match s.prepare t with
    | .ok p => s.finishEvents p t
    | .error _ => []

end Session

end Enlist
