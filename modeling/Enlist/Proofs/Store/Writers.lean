import Enlist.Proofs.Store.Path
import Enlist.Store.FileTree

/-!
# Writers that share a file store

Any number of writers work on one store, one act after the other in any order. A writer begins an
update of a path, records what is to be written, as often as it likes, and commits; others write files
into the store directly. A writer is known by its number, and may commit a copy of its update more
than once.

What an update holds is read off the acts: its base is the digest of the file when it was begun, and
its content is what was recorded last.

## Key results

- `act_commit_cases`: what a commit comes to
- `writes_of_run`: what the update of a writer holds after any acts
- `writers_guarded`: a commit is done only over the content that its writer began on, and a writer
  whose file another one has written is refused until the old content is back
-/

namespace Enlist.Store

/-- What one of the writers, or somebody else, does. -/
inductive WriterAct where
  /-- The next writer begins an update. -/
  | begin (path : String)
  | overwrite (i : Nat) (content : ByteArray)
  | commit (i : Nat)
  /-- Somebody writes a file. -/
  | insert (path : String) (content : ByteArray)

namespace WriterAct

def begins : WriterAct → Bool
  | begin _ => true
  | _ => false

/-- What writer `i` has recorded after an act; it was `content` before. -/
def record (i : Nat) (content : Option ByteArray) : WriterAct → Option ByteArray
  | overwrite j new => if j = i then some new else content
  | _ => content

end WriterAct

/-- The content that writer `i` recorded last. -/
def recorded (i : Nat) (acts : List WriterAct) : Option ByteArray :=
  acts.foldl (WriterAct.record i) none

namespace FileTree

/-- The digest of a file, none for a file that is not there. -/
def digest? (t : FileTree) (path : String) : Option Digest :=
  (t.read? path).map Digest.ofBytes

/-- The digest of a file is looked up under its normal path. -/
theorem digestAt_normalize (t : FileTree) (path : String) :
    t.digestAt (Path.normalize path) = t.digest? path := rfl

/-- All spellings of a path have one digest. -/
theorem digest?_congr {t : FileTree} {path path' : String}
    (h : Path.normalize path' = Path.normalize path) : t.digest? path' = t.digest? path := by
  rw [← digestAt_normalize, ← digestAt_normalize, h]

end FileTree

/-- A store, the updates that were begun on it, and the answers to the commits. -/
structure SharedTree where
  tree : FileTree
  updates : List Update
  answers : List (Nat × Except StoreError Unit)

namespace SharedTree

/-- The store before any update is begun. -/
def start (t : FileTree) : SharedTree :=
  { tree := t, updates := [], answers := [] }

/-- The store after an act. An act of a writer that has not begun is none. -/
def act (w : SharedTree) : WriterAct → SharedTree
  | .begin path => { w with updates := w.updates ++ [w.tree.beginUpdate path] }
  | .overwrite i content => { w with updates := w.updates.modify i (·.overwrite content) }
  | .commit i =>
    match w.updates[i]? with
    | some u =>
      let (answer, tree) := (FileTree.commitSteps u).exec w.tree
      { w with tree, answers := w.answers ++ [(i, answer)] }
    | none => w
  | .insert path content => { w with tree := w.tree.insert path content }

def run (w : SharedTree) (acts : List WriterAct) : SharedTree :=
  acts.foldl act w

/-- A commit by writer `i` is done. -/
def Commits (w : SharedTree) (i : Nat) : Prop :=
  (w.act (.commit i)).answers = w.answers ++ [(i, .ok ())]

/-- A commit by writer `i` is refused, and leaves all files, the count and all updates as they are. -/
def Refuses (w : SharedTree) (i : Nat) : Prop :=
  ∃ e, w.act (.commit i) = { w with answers := w.answers ++ [(i, .error e)] }

/-- How many commits were answered with success. -/
def successes (w : SharedTree) : Nat :=
  w.answers.countP (·.2.isOk)

/-- In a run from `t`, writer `i` began on `path`, whose file had the digest `base`, and has recorded
`content` since. -/
def Writes (t : FileTree) (acts : List WriterAct) (i : Nat) (path : String) (base : Option Digest)
    (content : Option ByteArray) : Prop :=
  ∃ before after, acts = before ++ .begin path :: after ∧ i = before.countP (·.begins) ∧
    base = ((start t).run before).tree.digest? path ∧ content = recorded i after

variable {t : FileTree} {w : SharedTree} {acts : List WriterAct} {i : Nat} {path : String}

@[simp] theorem run_nil (w : SharedTree) : w.run [] = w := rfl

@[simp] theorem run_cons (w : SharedTree) (a : WriterAct) (acts : List WriterAct) :
    w.run (a :: acts) = (w.act a).run acts := rfl

theorem run_append (w : SharedTree) (as bs : List WriterAct) : w.run (as ++ bs) = (w.run as).run bs :=
  List.foldl_append

/-! ## Commits -/

/-- A commit of an update that was begun. It is done over the content that the update was begun on,
if anything was recorded, and replaces this one file; else it is refused. -/
theorem act_commit_cases {u : Update} (hu : w.updates[i]? = some u) :
    (∃ bytes, w.tree.digestAt u.path = u.base ∧ u.content = some bytes ∧
      w.act (.commit i) =
        { w with
          tree := { files := w.tree.files.insert u.path bytes, commits := w.tree.commits + 1 }
          answers := w.answers ++ [(i, .ok ())] }) ∨
    (¬ (w.tree.digestAt u.path = u.base ∧ u.content.isSome) ∧ w.Refuses i) := by
  simp only [Refuses, act, hu]
  rcases FileTree.exec_commitSteps_cases w.tree u with
    ⟨bytes, hbase, hcontent, hexec⟩ | ⟨hnot, e, hexec⟩
  · exact .inl ⟨bytes, hbase, hcontent, by rw [hexec]⟩
  · exact .inr ⟨hnot, e, by rw [hexec]⟩

/-- What is refused is not committed. -/
theorem Refuses.not_commits (h : w.Refuses i) : ¬ w.Commits i := by
  obtain ⟨e, he⟩ := h
  simp [Commits, he]

/-! ## What an update holds -/

/-- An act adds an update if it begins one. -/
theorem length_updates_act (w : SharedTree) (a : WriterAct) :
    (w.act a).updates.length = w.updates.length + [a].countP (·.begins) := by
  cases a with
  | begin path => simp [act, WriterAct.begins]
  | overwrite j content => simp [act, WriterAct.begins]
  | commit j => simp only [act]; split <;> simp [WriterAct.begins]
  | insert path content => simp [act, WriterAct.begins]

/-- A run adds as many updates as it begins. -/
theorem length_updates_run (w : SharedTree) (acts : List WriterAct) :
    (w.run acts).updates.length = w.updates.length + acts.countP (·.begins) := by
  induction acts generalizing w with
  | nil => simp
  | cons a acts ih =>
    rw [run_cons, ih, length_updates_act, Nat.add_assoc, ← List.countP_append, List.singleton_append]

/-- An act leaves an update as it is, but for what is recorded. -/
theorem updates_act {u : Update} (hu : w.updates[i]? = some u) (a : WriterAct) :
    (w.act a).updates[i]? = some { u with content := a.record i u.content } := by
  cases a with
  | begin path =>
    simp only [act]
    rw [List.getElem?_append_left (List.getElem?_eq_some_iff.1 hu).1, hu]
    rfl
  | overwrite j content =>
    simp only [act, List.getElem?_modify, hu, WriterAct.record]
    split <;> rfl
  | commit j => simp only [act]; split <;> exact hu
  | insert path content => exact hu

/-- An update gets the content that is recorded last for it, whatever else is done. -/
theorem updates_run {u : Update} (hu : w.updates[i]? = some u) (acts : List WriterAct) :
    (w.run acts).updates[i]? = some { u with content := acts.foldl (WriterAct.record i) u.content } := by
  induction acts generalizing w u with
  | nil => exact hu
  | cons a acts ih => exact ih (updates_act hu a)

/-- After any acts, an update has the path that it was begun on, the digest that the file had then,
and what was recorded last. -/
theorem writes_of_run {base : Option Digest} {content : Option ByteArray}
    (h : Writes t acts i path base content) :
    ((start t).run acts).updates[i]? = some { path := Path.normalize path, base, content } := by
  obtain ⟨before, after, rfl, rfl, rfl, rfl⟩ := h
  have hlength : ((start t).run before).updates.length = before.countP (·.begins) := by
    rw [length_updates_run]
    exact Nat.zero_add _
  have hbegun : (((start t).run before).act (.begin path)).updates[before.countP (·.begins)]? =
      some (((start t).run before).tree.beginUpdate path) := by
    rw [← hlength]
    exact List.getElem?_concat_length
  rw [run_append, run_cons]
  exact updates_run hbegun after

/-- A writer goes on to write what it began on. -/
theorem Writes.append {base : Option Digest} {content : Option ByteArray}
    (h : Writes t acts i path base content) (later : List WriterAct) :
    Writes t (acts ++ later) i path base (later.foldl (WriterAct.record i) content) := by
  obtain ⟨before, after, rfl, hi, hbase, rfl⟩ := h
  exact ⟨before, after ++ later, by simp, hi, hbase, List.foldl_append.symm⟩

/-! ## Files and the count over runs -/

/-- A commit is the only act that is answered, and a success the only one that counts. -/
theorem commits_act (w : SharedTree) (a : WriterAct) :
    (w.act a).tree.commits + w.successes = w.tree.commits + (w.act a).successes := by
  -- The count goes up with a commit that is done, and with nothing else
  cases a with
  | begin path => rfl
  | overwrite j content => rfl
  | commit j =>
    cases hu : w.updates[j]? with
    | none => simp only [act, hu]
    | some u =>
      rcases act_commit_cases hu with ⟨bytes, _, _, hact⟩ | ⟨_, e, hact⟩
      · simp only [hact, successes, List.countP_append, List.countP_singleton, Except.isOk,
          Except.toBool, if_true]
        omega
      · simp [hact, successes, Except.isOk, Except.toBool]
  | insert path content => rfl

/-- The store counts as many commits as succeed. -/
theorem commits_run (w : SharedTree) (acts : List WriterAct) :
    (w.run acts).tree.commits + w.successes = w.tree.commits + (w.run acts).successes := by
  induction acts generalizing w with
  | nil => rfl
  | cons a acts ih =>
    have hstep := commits_act w a
    have hrest := ih (w.act a)
    rw [run_cons]
    omega

/-- No act removes a file. -/
theorem isSome_files_act {q : String} (h : w.tree.files[q]?.isSome) (a : WriterAct) :
    (w.act a).tree.files[q]?.isSome := by
  -- A file that is written over is there, and any other one is as it was
  have hinsert : ∀ q' bytes, (w.tree.files.insert q' bytes)[q]?.isSome := by
    intro q' bytes
    rw [FileTree.getElem?_insert_files]
    split
    · rfl
    · exact h
  cases a with
  | begin path => exact h
  | overwrite j content => exact h
  | commit j =>
    cases hu : w.updates[j]? with
    | none => simpa only [act, hu] using h
    | some u =>
      rcases act_commit_cases hu with ⟨bytes, _, _, hact⟩ | ⟨_, e, hact⟩
      · simpa only [hact] using hinsert u.path bytes
      · simpa only [hact] using h
  | insert path content => exact hinsert _ content

/-- No act takes a file away. -/
theorem isSome_files_run {q : String} (h : w.tree.files[q]?.isSome) (acts : List WriterAct) :
    (w.run acts).tree.files[q]?.isSome := by
  induction acts generalizing w with
  | nil => exact h
  | cons a acts ih => exact ih (isSome_files_act h a)

/-- What does not hold at first and holds after a run came to hold by one of the acts. -/
theorem exists_turn {P : SharedTree → Prop} (hfirst : ¬ P w) (hlast : P (w.run acts)) :
    ∃ front a back, acts = front ++ a :: back ∧ ¬ P (w.run front) ∧ P (w.run (front ++ [a])) := by
  induction acts generalizing w with
  | nil => exact absurd hlast hfirst
  | cons a acts ih =>
    by_cases hnow : P (w.act a)
    · exact ⟨[], a, acts, rfl, hfirst, hnow⟩
    · obtain ⟨front, b, back, rfl, hbefore, hafter⟩ := ih hnow hlast
      exact ⟨a :: front, b, back, rfl, hbefore, hafter⟩

/-! ## Writers -/

/-- A commit by a writer that has begun is done if the file has the digest that it had then, and
something was recorded; it replaces this one file. Else it is refused. -/
private theorem commit_of_writes {base : Option Digest} {content : Option ByteArray}
    (h : Writes t acts i path base content) :
    let w := (start t).run acts
    (w.Commits i ↔ w.tree.digest? path = base ∧ content.isSome) ∧
    (w.Commits i → ∃ bytes, content = some bytes ∧
      (w.act (.commit i)).tree.commits = w.tree.commits + 1 ∧
      ∀ q, (w.act (.commit i)).tree.files[q]? =
        if q = Path.normalize path then some bytes else w.tree.files[q]?) ∧
    (¬ w.Commits i → w.Refuses i) := by
  intro w
  -- The commit is done, or it is refused and changes nothing
  rcases act_commit_cases (writes_of_run h) with ⟨bytes, hbase, hcontent, hact⟩ | ⟨hnot, hrefused⟩
  · have hcommits : w.Commits i := by simp only [Commits, w, hact]
    rw [FileTree.digestAt_normalize] at hbase
    obtain rfl : content = some bytes := hcontent
    refine ⟨⟨fun _ => ⟨hbase, rfl⟩, fun _ => hcommits⟩,
      fun _ => ⟨bytes, rfl, by simp only [w, hact], fun q => ?_⟩, fun hno => absurd hcommits hno⟩
    simp only [w, hact, FileTree.getElem?_insert_files]
  · rw [FileTree.digestAt_normalize] at hnot
    exact ⟨⟨fun hyes => absurd hyes hrefused.not_commits, fun hyes => absurd hyes hnot⟩,
      fun hyes => absurd hyes hrefused.not_commits, fun _ => hrefused⟩

/-- However any number of writers and others work on one store:

* the count of commits is raised by the commits that are answered with success, and by nothing else;
* a commit by a writer is done exactly if the file has the digest that it had when the writer began,
  or is absent as it was then, and something was recorded. It replaces this one file by what was
  recorded, and raises the count by one. Any other commit is refused and changes neither files nor
  count;
* once a writer has committed a content with another digest than the file had when it began, any writer
  who began on the same content of the same path, however it is spelled, is refused, unless one of the
  acts since has brought the old digest back. A file that was absent never is again. -/
theorem writers_guarded (t : FileTree) (acts : List WriterAct) :
    let w := (start t).run acts
    w.tree.commits = t.commits + w.successes ∧
    ∀ i path base content, Writes t acts i path base content →
      let w' := w.act (.commit i)
      (w.Commits i ↔ w.tree.digest? path = base ∧ content.isSome) ∧
      (w.Commits i → ∃ bytes, content = some bytes ∧ w'.tree.commits = w.tree.commits + 1 ∧
        ∀ q, w'.tree.files[q]? =
          if q = Path.normalize path then some bytes else w.tree.files[q]?) ∧
      (¬ w.Commits i → w.Refuses i) ∧
      (w.Commits i → content.map Digest.ofBytes ≠ base →
        ∀ j path' content', Writes t acts j path' base content' →
          Path.normalize path' = Path.normalize path → ∀ later,
            (w'.run later).Refuses j ∨
            base ≠ none ∧ ∃ front a back, later = front ++ a :: back ∧
              (w'.run front).tree.digest? path ≠ base ∧
              (w'.run (front ++ [a])).tree.digest? path = base) := by
  intro w
  refine ⟨?_, fun i path base content h => ?_⟩
  · have hfirst : (start t).successes = 0 := rfl
    have hcount := commits_run (start t) acts
    rwa [hfirst, Nat.add_zero] at hcount
  · intro w'
    obtain ⟨hiff, hdone, hrefused⟩ := commit_of_writes h
    refine ⟨hiff, hdone, hrefused, fun hcommits hdigest j path' content' hj hpath later => ?_⟩
    obtain ⟨bytes, rfl, _, hfiles⟩ := hdone hcommits
    have hstored : w'.tree.read? path = some bytes := by
      rw [FileTree.read?, hfiles, if_pos rfl]
    have hnow : w'.tree.digest? path ≠ base := by
      rw [FileTree.digest?, hstored]
      exact hdigest
    have hend : (w'.run later) = (start t).run (acts ++ .commit i :: later) := by
      rw [run_append, run_cons]
    obtain ⟨hiff', _, hrefused'⟩ := commit_of_writes (hj.append (.commit i :: later))
    rw [← hend, FileTree.digest?_congr hpath] at hiff'
    rw [← hend] at hrefused'
    by_cases hcommits' : (w'.run later).Commits j
    · have hback : (w'.run later).tree.digest? path = base := (hiff'.1 hcommits').1
      refine .inr ⟨?_, exists_turn (P := fun v => v.tree.digest? path = base) hnow hback⟩
      -- the file that was written is still there
      rintro rfl
      have hthere : (w'.run later).tree.files[Path.normalize path]?.isSome :=
        isSome_files_run (by rw [FileTree.read?] at hstored; rw [hstored]; rfl) later
      rw [FileTree.digest?, FileTree.read?, Option.map_eq_none_iff] at hback
      rw [hback] at hthere
      exact nomatch hthere
    · exact .inl (hrefused' hcommits')

/-- Two writers who begin on a file that is absent, under two spellings of its path: the first commits,
and the second is refused from then on, whatever happens. -/
theorem writers_guarded_sample :
    let acts : List WriterAct :=
      [.begin "a.ts", .begin "./a.ts", .overwrite 0 "A".toUTF8, .overwrite 1 "B".toUTF8]
    let w := (start .empty).run acts
    w.Commits 0 ∧ ∀ later, ((w.act (.commit 0)).run later).Refuses 1 := by
  intro acts w
  have habsent : ∀ path, FileTree.empty.digest? path = none := fun path => by
    simp [FileTree.digest?, FileTree.read?, FileTree.empty]
  -- Both updates begin on the empty tree, under two names of one file
  have hfirst : Writes .empty acts 0 "a.ts" none (some "A".toUTF8) :=
    ⟨[], _, rfl, rfl, (habsent _).symm, rfl⟩
  have hsecond : Writes .empty acts 1 "./a.ts" none (some "B".toUTF8) :=
    ⟨[.begin "a.ts"], _, rfl, rfl, (habsent _).symm, rfl⟩
  obtain ⟨hdone, _, _, hguard⟩ := (writers_guarded .empty acts).2 0 _ _ _ hfirst
  have hcommits : w.Commits 0 := hdone.2 ⟨habsent _, rfl⟩
  refine ⟨hcommits, fun later => ?_⟩
  have hpath : Path.normalize "./a.ts" = Path.normalize "a.ts" := by decide
  -- The second one commits only if the file is gone again, and it is there
  rcases hguard hcommits (by simp) 1 _ _ hsecond hpath later with hrefused | ⟨hthere, _⟩
  · exact hrefused
  · exact absurd rfl hthere

end SharedTree

end Enlist.Store
