import Enlist.Proofs.Session.Kept

/-!
# Commits made again

A commit keeps the pending changes, and the session remembers what it has written. So the same commit can
be made again: the file no longer holds what the session has read, but it holds what the session has
written last. It is written once more, and nothing changes but the number of commits.

## Key results

- `CommitEffect.again`: a commit behind one that was done
- `commitTimes_of_commit`: any number of them
-/

namespace Enlist

open Edit Store

/-- What is told of a commit when it is made again: the file holds its text already. -/
def Committed.again (c : Committed) : Committed :=
  { c with before := c.after }

namespace Session

/-- What is answered to commits one after the other, and the session and the store behind them. -/
def commitTimes : Nat → Session × FileTree → List (Except SessionError Committed) × Session × FileTree
  | 0, w => ([], w)
  | n + 1, w =>
    let (answer, w) := commitSteps.exec w
    let (answers, w) := commitTimes n w
    (answer :: answers, w)

variable {s s' : Session} {t t' : FileTree} {c : Committed}

/-- A commit behind one that was done writes the same text over itself. -/
theorem CommitEffect.again (h : CommitEffect s t c s' t') :
    ∃ t'', commitSteps.exec (s', t') = (.ok c.again, s', t'') ∧ CommitEffect s' t' c.again s' t'' ∧
      ∀ path : String, t''.files[path]? = t'.files[path]? := by
  have hs : s' = { s with state := .committed, lastCommitted := some c.after } := h.session
  obtain ⟨bytes, hstored, hutf8⟩ := exists_stored_of_readText h.readText
  have htext : c.text.toUTF8 = bytes := toUTF8_of_fromUTF8? hutf8
  have hafter : c.after = Digest.ofBytes bytes := htext ▸ h.after
  have happly : Edit.apply s'.snapshot.text s'.pending = .ok c.text := by rw [hs]; exact h.text
  have hpath : c.path = s'.path := by rw [h.path, hs]; rfl
  have happlied : c.applied = s'.pending.length := by rw [h.applied, hs]
  -- The session need not have read the content, since it has written it
  have hwritten : some (Digest.ofBytes bytes) = s'.lastCommitted := by rw [hs, hafter]
  have hprepare := prepare_of_known happly hstored hutf8 (.inr hwritten)
  rw [ofText_of_fromUTF8? hutf8, ← hafter, ← hpath, ← happlied] at hprepare
  have hsame : { s' with state := .committed, lastCommitted := some c.after } = s' := by rw [hs]
  have hexec := exec_commitSteps_of_prepare hprepare
  have heffect := CommitEffect.of_prepare hprepare
  rw [hsame] at hexec heffect
  refine ⟨_, hexec, heffect, fun path => ?_⟩
  rw [heffect.files]
  split
  case isTrue hfile => rw [hfile]; exact (congrArg some htext).trans hstored.symm
  case isFalse => rfl

/-- Behind a commit, `n` more of them write the same text `n` times. -/
private theorem CommitEffect.commitTimes (h : CommitEffect s t c s' t') (n : Nat) :
    (commitTimes n (s', t')).1 = List.replicate n (.ok c.again) ∧ (commitTimes n (s', t')).2.1 = s' ∧
      (∀ path : String, (commitTimes n (s', t')).2.2.files[path]? = t'.files[path]?) ∧
      (commitTimes n (s', t')).2.2.commits = t'.commits + n := by
  -- Induction on the number of commits; the store changes with each, and what it holds does not
  induction n generalizing s t c t' with
  | zero => exact ⟨rfl, rfl, fun _ => rfl, rfl⟩
  | succ n ih =>
    obtain ⟨t'', hexec, heffect, hfiles⟩ := h.again
    obtain ⟨hanswers, hsession, hrest, hcommits⟩ := ih heffect
    simp only [Session.commitTimes, hexec]
    refine ⟨?_, hsession, fun path => (hrest path).trans (hfiles path), ?_⟩
    · rw [hanswers, List.replicate_succ]
      rfl
    · rw [hcommits, heffect.commits]
      omega

/-- Any number of commits behind one that was done are done too. Each is told of as the first one but for
the content that it was made over, which is its own text; the session and all files are as behind the first
one, and only the number of commits has grown, by one with each. -/
theorem commitTimes_of_commit {w w' : Session × FileTree}
    (h : commitSteps.exec w = (.ok c, w')) (n : Nat) :
    (commitTimes n w').1 = List.replicate n (.ok c.again) ∧ c.again.isUnchanged = true ∧
      (commitTimes n w').2.1 = w'.1 ∧
      (∀ path : String, (commitTimes n w').2.2.files[path]? = w'.2.files[path]?) ∧
      w'.2.commits = w.2.commits + 1 ∧ (commitTimes n w').2.2.commits = w'.2.commits + n := by
  have heffect := commitEffect_of_ok h
  obtain ⟨hanswers, hsession, hfiles, hcommits⟩ := heffect.commitTimes n
  exact ⟨hanswers, decide_eq_true rfl, hsession, hfiles, heffect.commits, hcommits⟩

/-- The changes were put in by hand, and one of them takes a character out. -/
theorem commitTimes_of_commit_sample :
    let snapshot : Snapshot := .ofText "/m.ts" "class é\x7b\x7d"
    let config : SessionConfig := { importBase := ".", selector := .named "M" }
    let s := (start snapshot config).override
      [.insertAfter 6 "D" .manual, .make 6 (.remove 8) "" .manual]
    let t : FileTree :=
      { files := (∅ : Std.TreeMap String ByteArray).insert "/m.ts" snapshot.text.toUTF8, commits := 0 }
    ∃ c w, commitSteps.exec (s, t) = (.ok c, w) ∧ c.text = "class D\x7b\x7d" ∧
      (commitTimes 3 w).1 = List.replicate 3 (.ok c.again) ∧
      (commitTimes 3 w).2.2.files["/m.ts"]? = some c.text.toUTF8 ∧ (commitTimes 3 w).2.2.commits = 4 := by
  intro snapshot config s t
  have happly : Edit.apply s.snapshot.text s.pending = .ok "class D\x7b\x7d" := by decide +kernel
  have hread : t.readText s.path = .ok s.snapshot.text := by decide +kernel
  obtain ⟨c, s', t', hexec, heffect⟩ := exists_commit_of_known happly hread (.inl rfl)
  obtain ⟨hanswers, _, _, hfiles, hfirst, hcommits⟩ := commitTimes_of_commit hexec 3
  have hfile : "/m.ts" = Path.normalize s.path := by decide +kernel
  refine ⟨c, (s', t'), hexec, Except.ok.inj (heffect.text.symm.trans happly), hanswers, ?_, ?_⟩
  · rw [hfiles, heffect.files, if_pos hfile]
  · rw [hcommits, hfirst]

end Session

end Enlist
