import Enlist.Proofs.Store.Path
import Enlist.Store.FileTree

/-!
# The paths of a store

A store is written by inserting files and by committing updates, which need not have been begun on it.
What is inserted is stored under a normal path. An update is committed to the very path that it holds:
where that is not normal, no spelling of it finds the file again.

## Key results

- `mem_paths_writeAll`: the stored paths are those of the writes that were done
- `stored_paths_normal_iff`: which stores have normal paths only, and which updates are read back
- `commit_of_plain_path`: an update that is committed and not read back
-/

namespace Enlist.Store

/-- A path that is its own normal form. -/
def Path.IsNormal (path : String) : Prop :=
  Path.normalize path = path

instance (path : String) : Decidable (Path.IsNormal path) :=
  inferInstanceAs (Decidable (_ = _))

/-- A write of a store. -/
inductive StoreWrite where
  | insert (path : String) (content : ByteArray)
  | commit (u : Update)

namespace FileTree

/-- The store after a write; a commit may be refused. -/
def write (t : FileTree) : StoreWrite → FileTree
  | .insert path content => t.insert path content
  | .commit u => ((commitSteps u).exec t).2

def writeAll (t : FileTree) (ws : List StoreWrite) : FileTree :=
  ws.foldl write t

/-- The commit of `u` is one of the writes, made from the empty store, and was done. -/
def WasCommitted (ws : List StoreWrite) (u : Update) : Prop :=
  ∃ before after t, ws = before ++ .commit u :: after ∧ (empty.writeAll before).commit u = .ok t

variable {t t' : FileTree} {u : Update} {ws : List StoreWrite} {path q : String}

/-- The paths of a store are those of its files. -/
theorem mem_paths_iff : q ∈ t.paths ↔ t.files[q]?.isSome := by
  rw [paths, Std.TreeMap.mem_keys, Std.TreeMap.mem_iff_isSome_getElem?]

/-- An empty store has no paths. -/
theorem paths_empty : empty.paths = [] := by
  rfl

/-- A file that is written adds its path, and no other one. -/
theorem mem_paths_insert {content : ByteArray} {commits : Nat} :
    q ∈ paths { files := t.files.insert path content, commits } ↔ q = path ∨ q ∈ t.paths := by
  rw [mem_paths_iff, getElem?_insert_files, mem_paths_iff]
  split <;> simp [*]

/-- A commit that is done writes what was recorded to the path of the update. -/
theorem exists_content_of_commit (h : t.commit u = .ok t') :
    ∃ bytes, u.content = some bytes ∧
      t' = { files := t.files.insert u.path bytes, commits := t.commits + 1 } := by
  rcases exec_commitSteps_cases t u with ⟨bytes, _, hcontent, hexec⟩ | ⟨_, e, hexec⟩
  · simp only [commit, Work.outcome, hexec, Except.map, Except.ok.injEq] at h
    exact ⟨bytes, hcontent, h.symm⟩
  · simp [commit, Work.outcome, hexec, Except.map] at h

/-- The path that a write stores a file under; none for a commit that is refused. -/
def target? (t : FileTree) : StoreWrite → Option String
  | .insert path _ => some (Path.normalize path)
  | .commit u =>
    match t.commit u with
    | .ok _ => some u.path
    | .error _ => none

/-- A write adds its path to the stored ones, and nothing else. -/
theorem mem_paths_write (t : FileTree) (w : StoreWrite) :
    q ∈ (t.write w).paths ↔ t.target? w = some q ∨ q ∈ t.paths := by
  cases w with
  | insert path content =>
    rw [write, insert, mem_paths_insert, target?, Option.some.injEq, eq_comm]
  | commit u =>
    rcases exec_commitSteps_cases t u with ⟨bytes, _, _, hexec⟩ | ⟨_, e, hexec⟩
    · simp only [write, target?, commit, Work.outcome, hexec, Except.map, mem_paths_insert,
        Option.some.injEq, eq_comm]
    · simp [write, target?, commit, Work.outcome, hexec, Except.map]

/-- What is stored after some writes was stored before them, or is the path of one of them. -/
theorem mem_paths_writeAll (t : FileTree) (ws : List StoreWrite) :
    q ∈ (t.writeAll ws).paths ↔ q ∈ t.paths ∨
      ∃ before w after, ws = before ++ w :: after ∧ (t.writeAll before).target? w = some q := by
  -- Whether a commit is done depends on the writes before it, so the store changes along the induction
  induction ws generalizing t with
  | nil => simp [writeAll]
  | cons w ws ih =>
    have hrun : t.writeAll (w :: ws) = (t.write w).writeAll ws := rfl
    rw [hrun, ih, mem_paths_write]
    constructor
    · rintro ((hfirst | hthere) | ⟨before, w', after, rfl, hlater⟩)
      · exact .inr ⟨[], w, ws, rfl, hfirst⟩
      · exact .inl hthere
      · exact .inr ⟨w :: before, w', after, rfl, hlater⟩
    · rintro (hthere | ⟨before, w', after, hws, htarget⟩)
      · exact .inl (.inr hthere)
      · rcases List.cons_eq_append_iff.1 hws with ⟨rfl, hhead⟩ | ⟨before', rfl, htail⟩
        · obtain ⟨rfl, rfl⟩ := List.cons.inj hhead
          exact .inl (.inl htarget)
        · exact .inr ⟨before', w', after, htail, htarget⟩

/-- An update that is begun on a store has a normal path. -/
theorem isNormal_beginUpdate (t : FileTree) (path : String) :
    Path.IsNormal (t.beginUpdate path).path :=
  Path.normalize_normalize path

/-- What a committed update leaves to be read at its path. -/
theorem read?_of_commit (h : t.commit u = .ok t') (hpath : Path.normalize path = Path.normalize u.path) :
    t'.read? path = if Path.IsNormal u.path then u.content else t.read? path := by
  obtain ⟨bytes, hcontent, rfl⟩ := exists_content_of_commit h
  simp only [read?, getElem?_insert_files, hpath, hcontent, Path.IsNormal]

/-- A store that was written from nothing by inserting files and committing updates has normal paths
only exactly if all updates committed had normal paths, as those that are begun on a store do. A
commit that is done is read back, under any spelling of its path, exactly where that path is normal;
under any other one, the file that can be read is as it was. -/
theorem stored_paths_normal_iff (ws : List StoreWrite) :
    let t := empty.writeAll ws
    ((∀ q ∈ t.paths, Path.IsNormal q) ↔ ∀ u, WasCommitted ws u → Path.IsNormal u.path) ∧
    (∀ path, Path.IsNormal (t.beginUpdate path).path) ∧
    ∀ u t', t.commit u = .ok t' → ∀ path, Path.normalize path = Path.normalize u.path →
      t'.read? path = if Path.IsNormal u.path then u.content else t.read? path := by
  refine ⟨⟨fun hnormal u hu => ?_, fun hnormal q hq => ?_⟩, isNormal_beginUpdate _,
    fun u t' hcommit path hpath => read?_of_commit hcommit hpath⟩
  · obtain ⟨before, after, t', hws, hcommit⟩ := hu
    refine hnormal u.path ((mem_paths_writeAll _ _).2 (.inr ⟨before, _, after, hws, ?_⟩))
    simp only [target?, hcommit]
  -- A path that is stored is the target of a write, and an insertion makes its target normal
  · rcases (mem_paths_writeAll _ _).1 hq with hthere | ⟨before, w, after, hws, htarget⟩
    · exact absurd hthere (by simp [paths_empty])
    · cases w with
      | insert path content =>
        obtain rfl : Path.normalize path = q := Option.some.inj htarget
        exact Path.normalize_normalize path
      | commit u =>
        simp only [target?] at htarget
        split at htarget
        · next t' hcommit => exact Option.some.inj htarget ▸ hnormal u ⟨before, after, t', hws, hcommit⟩
        · cases htarget

/-- An update on a path without a leading slash: the commit is done and counted, and no spelling of the
path finds the file. -/
theorem commit_of_plain_path :
    let u := (Update.start "a.ts" none).overwrite "x".toUTF8
    ∃ t, empty.commit u = .ok t ∧ t.commits = 1 ∧ t.paths = ["a.ts"] ∧ ¬ Path.IsNormal "a.ts" ∧
      ∀ path, Path.normalize path = Path.normalize "a.ts" → t.read? path = none := by
  intro u
  have habsent : empty.digestAt u.path = u.base := by simp [digestAt, empty, u, Update.overwrite,
    Update.start]
  have hcommit : empty.commit u =
      .ok { files := empty.files.insert "a.ts" "x".toUTF8, commits := 1 } := by
    simp only [commit, Work.outcome, exec_commitSteps, if_pos habsent]
    rfl
  refine ⟨_, hcommit, rfl, rfl, by decide, fun path hpath => ?_⟩
  rw [read?_of_commit hcommit hpath, if_neg (by decide), read?, empty]
  simp

end FileTree

end Enlist.Store
