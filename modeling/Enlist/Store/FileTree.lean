import Enlist.Digest
import Enlist.Store.Path
import Enlist.Work
import Std.Data.TreeMap.Lemmas

/-!
# The file store

A `FileTree` maps paths to contents and counts the updates that were committed to it. A file is
written through an `Update`: it remembers the digest of the content that the writer started from, and
a commit is refused when the file has another content by then.

Paths are normalised when a file is read, inserted or opened for an update. An update itself is
committed to the very path that it holds.

* `getElem?_insert_files`   a file that is written has its content, and the others keep theirs
* `exec_commitSteps`, `exec_commitSteps_cases`   a commit that is refused changes nothing
-/

namespace Enlist.Store

/-- Why a file cannot be read or written. -/
inductive StoreError where
  | fileNotFound (path : String)
  | notUtf8 (path : String)
  /-- The file has changed since the update was begun. -/
  | concurrentModification (path expected actual : String)
  /-- Nothing was recorded that could be written. -/
  | nothingRecorded (path : String)
  deriving DecidableEq, Repr

def StoreError.message : StoreError → String
  | fileNotFound path => s!"file not found: {path}"
  | notUtf8 path => s!"file is not valid UTF-8: {path}"
  | concurrentModification path expected actual =>
    s!"concurrent modification of {path}: expected {expected}, found {actual}"
  | nothingRecorded path => s!"update for {path} recorded no content"

/-- A write of one file that was begun and not yet committed. -/
structure Update where
  path : String
  /-- The digest of the content that the writer started from, none for a file that was not there. -/
  base : Option Digest
  /-- The content to be written, if one was recorded. -/
  content : Option ByteArray

namespace Update

def start (path : String) (base : Option Digest) : Update :=
  { path, base, content := none }

/-- The update that writes `content` in place of what was recorded before. -/
def overwrite (u : Update) (content : ByteArray) : Update :=
  { u with content := some content }

end Update

/-- Files by path, and the number of updates committed. -/
structure FileTree where
  files : Std.TreeMap String ByteArray
  commits : Nat

namespace FileTree

def empty : FileTree :=
  { files := ∅, commits := 0 }

def read? (t : FileTree) (path : String) : Option ByteArray :=
  t.files[Path.normalize path]?

def contains (t : FileTree) (path : String) : Bool :=
  (t.read? path).isSome

/-- The content of a file as a text. -/
def readText (t : FileTree) (path : String) : Except StoreError String :=
  match t.read? path with
  | none => .error (.fileNotFound path)
  | some bytes =>
    match String.fromUTF8? bytes with
    | some text => .ok text
    | none => .error (.notUtf8 path)

def paths (t : FileTree) : List String :=
  t.files.keys

/-- Writes a file without asking what it held. -/
def insert (t : FileTree) (path : String) (content : ByteArray) : FileTree :=
  { t with files := t.files.insert (Path.normalize path) content }

/-- The digest of what is stored at the very path given. -/
def digestAt (t : FileTree) (path : String) : Option Digest :=
  t.files[path]?.map Digest.ofBytes

def beginUpdate (t : FileTree) (path : String) : Update :=
  let path := Path.normalize path
  .start path (t.digestAt path)

/-- How a digest is told in an error. -/
def describe : Option Digest → String
  | some d => d.short
  | none => "<absent>"

/-- Commits an update, step by step: the file must hold what it held when the update was begun. -/
def commitSteps (u : Update) : Work FileTree StoreError Unit := do
  let current := (← get).digestAt u.path
  if current = u.base then
    match u.content with
    | some content =>
      modify fun t => { t with files := t.files.insert u.path content }
      modify fun t => { t with commits := t.commits + 1 }
    | none => throw (.nothingRecorded u.path)
  else throw (.concurrentModification u.path (describe u.base) (describe current))

def commit (t : FileTree) (u : Update) : Except StoreError FileTree :=
  ((commitSteps u).outcome t).map Prod.snd

/-- A file that is written has its content, and the others keep theirs. -/
theorem getElem?_insert_files (t : FileTree) (path q : String) (content : ByteArray) :
    (t.files.insert path content)[q]? = if q = path then some content else t.files[q]? := by
  simp only [Std.TreeMap.getElem?_insert, Std.LawfulEqCmp.compare_eq_iff_eq, eq_comm (a := q)]

/-- An update is written if the file still has the content over which it was begun and a new one is
given. -/
theorem exec_commitSteps (t : FileTree) (u : Update) :
    (commitSteps u).exec t =
      if t.digestAt u.path = u.base then
        match u.content with
        | some content => (.ok (), { files := t.files.insert u.path content, commits := t.commits + 1 })
        | none => (.error (.nothingRecorded u.path), t)
      else
        (.error (.concurrentModification u.path (describe u.base) (describe (t.digestAt u.path))), t) := by
  simp only [commitSteps, Work.exec_bind, Work.exec_get]
  split
  · cases u.content <;> simp [Work.exec_bind]
  · rfl

/-- A commit writes what was recorded, over the content that the update was begun on; or it is refused
and changes nothing. -/
theorem exec_commitSteps_cases (t : FileTree) (u : Update) :
    (∃ bytes, t.digestAt u.path = u.base ∧ u.content = some bytes ∧ (commitSteps u).exec t =
      (.ok (), { files := t.files.insert u.path bytes, commits := t.commits + 1 })) ∨
    (¬ (t.digestAt u.path = u.base ∧ u.content.isSome) ∧ ∃ e, (commitSteps u).exec t = (.error e, t)) := by
  rw [exec_commitSteps]
  by_cases hbase : t.digestAt u.path = u.base
  · cases hcontent : u.content with
    | some bytes => exact .inl ⟨bytes, hbase, rfl, by rw [if_pos hbase]⟩
    | none => exact .inr ⟨by simp, .nothingRecorded u.path, by rw [if_pos hbase]⟩
  · exact .inr ⟨fun h => hbase h.1, _, by rw [if_neg hbase]⟩

end FileTree

end Enlist.Store
