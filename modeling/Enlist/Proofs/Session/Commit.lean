import Enlist.Session.Commit
import Enlist.Session.Register

/-!
# Commits that fail and commits that succeed

A commit is several steps on the session and on the store, and each of them may fail. `CommitFailure`
says which failure a commit ends with, and `CommitEffect` what a commit that succeeds has done. Both
speak of the session and the store as they were before the commit.

## Key results

- `exec_commitSteps_of_prepare`: once a commit is prepared, the store cannot refuse it
- `commitFailure_of_prepare` / `CommitEffect.of_prepare`: what preparing comes to
- `CommitFailure.unique`: a commit can fail in one way at a time
- `exec_commitSteps_cases`: a commit fails and does nothing, or succeeds
- `commit_all_or_nothing`: a step that fails leaves session and store as they were, and a commit that
  succeeds writes the whole text once
-/

namespace Enlist.Session

open Edit Metadata Store Syntax

/-! ## What a commit does -/

/-- The content of the file of a session. -/
def stored? (s : Session) (t : FileTree) : Option ByteArray :=
  t.files[Path.normalize s.path]?

/-- The failure that a commit ends with: that of the changes comes first, then that of a file which is
not there, then that of a file which is no text, and last that of a file with a content that the
session has neither read nor written last. -/
inductive CommitFailure (s : Session) (t : FileTree) : SessionError → Prop where
  | apply {e : ApplyError} (happly : Edit.apply s.snapshot.text s.pending = .error e) :
      CommitFailure s t (.apply e)
  | fileNotFound {text : String} (happly : Edit.apply s.snapshot.text s.pending = .ok text)
      (hstored : s.stored? t = none) : CommitFailure s t (.fileNotFound s.path)
  | notUtf8 {text : String} {bytes : ByteArray}
      (happly : Edit.apply s.snapshot.text s.pending = .ok text)
      (hstored : s.stored? t = some bytes) (hutf8 : String.fromUTF8? bytes = none) :
      CommitFailure s t (.store (.notUtf8 s.path))
  | staleSnapshot {text stored : String} {bytes : ByteArray}
      (happly : Edit.apply s.snapshot.text s.pending = .ok text)
      (hstored : s.stored? t = some bytes) (hutf8 : String.fromUTF8? bytes = some stored)
      (hread : Digest.ofBytes bytes ≠ s.snapshot.digest)
      (hwritten : some (Digest.ofBytes bytes) ≠ s.lastCommitted) :
      CommitFailure s t
        (.staleSnapshot s.path s.snapshot.digest.short (Digest.ofBytes bytes).short)

/-- What a commit that succeeds has done: `s` and `t` are the session and the store before, `s'` and
`t'` those after. -/
structure CommitEffect (s : Session) (t : FileTree) (c : Committed) (s' : Session) (t' : FileTree) :
    Prop where
  /-- The text written is that of the snapshot with all pending changes. -/
  text : Edit.apply s.snapshot.text s.pending = .ok c.text
  /-- The file held a content that the session had read or written last. -/
  before : ∃ bytes, s.stored? t = some bytes ∧ c.before = Digest.ofBytes bytes ∧
    (c.before = s.snapshot.digest ∨ some c.before = s.lastCommitted)
  after : c.after = Digest.ofBytes c.text.toUTF8
  applied : c.applied = s.pending.length
  path : c.path = s.path
  /-- The file holds the text, and no other file is touched. -/
  files : ∀ path, t'.files[path]? =
    if path = Path.normalize s.path then some c.text.toUTF8 else t.files[path]?
  commits : t'.commits = t.commits + 1
  /-- The session keeps its snapshot and its pending changes. -/
  session : s' = { s with state := .committed, lastCommitted := some c.after }

/-! ## Reading the stored text -/

/-- Bytes that are read as a text are the bytes of that text. -/
theorem toUTF8_of_fromUTF8? {bytes : ByteArray} {text : String}
    (h : String.fromUTF8? bytes = some text) : text.toUTF8 = bytes := by
  simp only [String.fromUTF8?] at h
  split at h
  · rw [Option.some.injEq] at h
    exact h ▸ rfl
  · exact nomatch h

/-- The digest of a text is that of the bytes it was read from. -/
theorem ofText_of_fromUTF8? {bytes : ByteArray} {text : String}
    (h : String.fromUTF8? bytes = some text) : Digest.ofText text = Digest.ofBytes bytes := by
  rw [Digest.ofText, toUTF8_of_fromUTF8? h]

/-- A file is read as a text if its bytes are one. -/
theorem readText_eq (s : Session) (t : FileTree) :
    t.readText s.path =
      match s.stored? t with
      | none => .error (.fileNotFound s.path)
      | some bytes =>
        match String.fromUTF8? bytes with
        | some text => .ok text
        | none => .error (.notUtf8 s.path) := rfl

/-- A text that is read is stored as bytes. -/
theorem exists_stored_of_readText {s : Session} {t : FileTree} {text : String}
    (h : t.readText s.path = .ok text) :
    ∃ bytes, s.stored? t = some bytes ∧ String.fromUTF8? bytes = some text := by
  rw [readText_eq] at h
  cases hstored : s.stored? t with
  | none => simp only [hstored] at h; exact nomatch h
  | some bytes =>
    refine ⟨bytes, rfl, ?_⟩
    simp only [hstored] at h
    split at h
    case h_1 hutf8 => exact Except.ok.inj h ▸ hutf8
    case h_2 => exact nomatch h

/-- A session knows what it has read, and what it has written last. -/
theorem knows_iff {s : Session} {d : Digest} :
    s.knows d = true ↔ d = s.snapshot.digest ∨ some d = s.lastCommitted := by
  simp [knows]

/-! ## Preparing -/

/-- What is prepared when the changes apply, the file is a text, and the session knows it. -/
theorem prepare_of_known {s : Session} {t : FileTree} {text stored : String} {bytes : ByteArray}
    (happly : Edit.apply s.snapshot.text s.pending = .ok text)
    (hstored : s.stored? t = some bytes) (hutf8 : String.fromUTF8? bytes = some stored)
    (hknown : Digest.ofBytes bytes = s.snapshot.digest ∨
      some (Digest.ofBytes bytes) = s.lastCommitted) :
    s.prepare t = .ok {
      outcome :=
        { path := s.path, applied := s.pending.length, before := Digest.ofBytes bytes,
          after := Digest.ofText text, text }
      update := (t.beginUpdate s.path).overwrite text.toUTF8 } := by
  simp only [prepare, happly, readText_eq, hstored, hutf8, ofText_of_fromUTF8? hutf8,
    knows_iff.2 hknown, if_true]

/-- A commit that cannot be prepared fails as `CommitFailure` says. -/
theorem commitFailure_of_prepare {s : Session} {t : FileTree} {e : SessionError}
    (h : s.prepare t = .error e) : CommitFailure s t e := by
  -- The cases follow the order of the checks, each one past those before it
  cases happly : Edit.apply s.snapshot.text s.pending with
  | error e' =>
    simp only [prepare, happly, Except.error.injEq] at h
    exact h ▸ .apply happly
  | ok text =>
    cases hstored : s.stored? t with
    | none =>
      simp only [prepare, happly, readText_eq, hstored, Except.error.injEq] at h
      exact h ▸ .fileNotFound happly hstored
    | some bytes =>
      cases hutf8 : String.fromUTF8? bytes with
      | none =>
        simp only [prepare, happly, readText_eq, hstored, hutf8, Except.error.injEq] at h
        exact h ▸ .notUtf8 happly hstored hutf8
      | some stored =>
        by_cases hknown : Digest.ofBytes bytes = s.snapshot.digest ∨
            some (Digest.ofBytes bytes) = s.lastCommitted
        · rw [prepare_of_known happly hstored hutf8 hknown] at h
          exact nomatch h
        · have hunknown : ¬ s.knows (Digest.ofBytes bytes) = true := fun hk => hknown (knows_iff.1 hk)
          simp only [prepare, happly, readText_eq, hstored, hutf8, ofText_of_fromUTF8? hutf8,
            if_neg hunknown, Except.error.injEq] at h
          rw [not_or] at hknown
          exact h ▸ .staleSnapshot happly hstored hutf8 hknown.1 hknown.2

/-- A commit that `CommitFailure` speaks of cannot be prepared. -/
theorem CommitFailure.prepare_eq {s : Session} {t : FileTree} {e : SessionError}
    (h : CommitFailure s t e) : s.prepare t = .error e := by
  -- The checks in their order: those in front of the one that fails are passed
  cases h with
  | apply happly => simp only [prepare, happly]
  | fileNotFound happly hstored =>
    simp only [prepare, happly, readText_eq, hstored]
    rfl
  | notUtf8 happly hstored hutf8 =>
    simp only [prepare, happly, readText_eq, hstored, hutf8]
    rfl
  | staleSnapshot happly hstored hutf8 hread hwritten =>
    rename_i bytes
    have hunknown : ¬ s.knows (Digest.ofBytes bytes) = true := fun hk =>
      (knows_iff.1 hk).elim hread hwritten
    simp only [prepare, happly, readText_eq, hstored, hutf8, ofText_of_fromUTF8? hutf8,
      if_neg hunknown]

/-- A commit can fail in one way at a time. -/
theorem CommitFailure.unique {s : Session} {t : FileTree} {e e' : SessionError}
    (h : CommitFailure s t e) (h' : CommitFailure s t e') : e = e' := by
  have heq := h.prepare_eq.symm.trans h'.prepare_eq
  exact Except.error.inj heq

/-! ## Committing -/

/-- An update that is committed to the store with which it was begun cannot be refused. -/
theorem exec_commitSteps_beginUpdate (t : FileTree) (path : String) (content : ByteArray) :
    (FileTree.commitSteps ((t.beginUpdate path).overwrite content)).exec t =
      (.ok (), {
        files := t.files.insert (Path.normalize path) content
        commits := t.commits + 1 }) := by
  -- Nothing was written since the update was begun
  have hbase : t.digestAt ((t.beginUpdate path).overwrite content).path =
      ((t.beginUpdate path).overwrite content).base := rfl
  rw [FileTree.exec_commitSteps, if_pos hbase]
  rfl

/-- Once a commit is prepared, the store cannot refuse it: the update was begun with the content that
the store still has. -/
theorem exec_commitSteps_of_prepare {s : Session} {t : FileTree} {p : PreparedCommit}
    (h : s.prepare t = .ok p) :
    commitSteps.exec (s, t) =
      (.ok p.outcome, { s with state := .committed, lastCommitted := some p.outcome.after },
        { files := t.files.insert (Path.normalize s.path) p.outcome.text.toUTF8
          commits := t.commits + 1 }) := by
  -- Only a commit that passes every check is prepared
  cases happly : Edit.apply s.snapshot.text s.pending with
  | error e => simp only [prepare, happly] at h; exact nomatch h
  | ok text =>
    cases hread : t.readText s.path with
    | error e => simp only [prepare, happly, hread] at h; exact nomatch h
    | ok stored =>
      simp only [prepare, happly, hread] at h
      split at h
      case isFalse => exact nomatch h
      case isTrue hknown =>
        rw [Except.ok.injEq] at h
        subst h
        simp only [exec_commitSteps, prepare, happly, hread, hknown, if_true, exec_finishSteps,
          exec_commitSteps_beginUpdate]

/-- A commit that is prepared does what `CommitEffect` says. -/
theorem CommitEffect.of_prepare {s : Session} {t : FileTree} {p : PreparedCommit}
    (h : s.prepare t = .ok p) :
    CommitEffect s t p.outcome
      { s with state := .committed, lastCommitted := some p.outcome.after }
      { files := t.files.insert (Path.normalize s.path) p.outcome.text.toUTF8
        commits := t.commits + 1 } := by
  -- A commit that is prepared has no failure, so every check before it has passed
  have hnofail : ∀ e, ¬ CommitFailure s t e := fun e he => by
    rw [he.prepare_eq] at h
    exact nomatch h
  cases happly : Edit.apply s.snapshot.text s.pending with
  | error e => exact absurd (.apply happly) (hnofail _)
  | ok text =>
    cases hstored : s.stored? t with
    | none => exact absurd (.fileNotFound happly hstored) (hnofail _)
    | some bytes =>
      cases hutf8 : String.fromUTF8? bytes with
      | none => exact absurd (.notUtf8 happly hstored hutf8) (hnofail _)
      | some stored =>
        have hknown : Digest.ofBytes bytes = s.snapshot.digest ∨
            some (Digest.ofBytes bytes) = s.lastCommitted := by
          refine Decidable.byContradiction fun hunknown => ?_
          rw [not_or] at hunknown
          exact hnofail _ (.staleSnapshot happly hstored hutf8 hunknown.1 hunknown.2)
        rw [prepare_of_known happly hstored hutf8 hknown, Except.ok.injEq] at h
        subst h
        -- What is left is that the store holds the text at the path, and all else as before
        refine ⟨happly, ⟨bytes, hstored, rfl, hknown⟩, rfl, rfl, rfl, fun path => ?_, rfl, rfl⟩
        exact FileTree.getElem?_insert_files t _ path _

/-- A commit succeeds when the changes apply and the file is a text that the session knows. -/
theorem exists_commit_of_known {s : Session} {t : FileTree} {text stored : String}
    (happly : Edit.apply s.snapshot.text s.pending = .ok text)
    (hread : t.readText s.path = .ok stored)
    (hknown : Digest.ofText stored = s.snapshot.digest ∨
      some (Digest.ofText stored) = s.lastCommitted) :
    ∃ c s' t', commitSteps.exec (s, t) = (.ok c, s', t') ∧ CommitEffect s t c s' t' := by
  obtain ⟨bytes, hstored, hutf8⟩ := exists_stored_of_readText hread
  rw [ofText_of_fromUTF8? hutf8] at hknown
  have hprepare := prepare_of_known happly hstored hutf8 hknown
  exact ⟨_, _, _, exec_commitSteps_of_prepare hprepare, .of_prepare hprepare⟩

/-- A commit that fails changes neither the session nor the store. -/
theorem exec_commitSteps_of_failure {s : Session} {t : FileTree} {e : SessionError}
    (h : CommitFailure s t e) : commitSteps.exec (s, t) = (.error e, s, t) := by
  simp only [exec_commitSteps, h.prepare_eq]

/-- A commit fails and does nothing, or succeeds. -/
theorem exec_commitSteps_cases (s : Session) (t : FileTree) :
    (∃ e, CommitFailure s t e ∧ commitSteps.exec (s, t) = (.error e, s, t)) ∨
    ∃ c s' t', CommitEffect s t c s' t' ∧ commitSteps.exec (s, t) = (.ok c, s', t') := by
  cases h : s.prepare t with
  | error e =>
    have hfail := commitFailure_of_prepare h
    exact .inl ⟨e, hfail, exec_commitSteps_of_failure hfail⟩
  | ok p => exact .inr ⟨_, _, _, .of_prepare h, exec_commitSteps_of_prepare h⟩

/-- A commit fails with the failure that `CommitFailure` speaks of. -/
theorem exec_commitSteps_eq_error_iff {s : Session} {t : FileTree} {e : SessionError} :
    (commitSteps.exec (s, t)).1 = .error e ↔ CommitFailure s t e := by
  constructor
  · intro he
    rcases exec_commitSteps_cases s t with ⟨e', hfail, hexec⟩ | ⟨c, s', t', _, hexec⟩
    · rw [hexec] at he
      exact Except.error.inj he ▸ hfail
    · rw [hexec] at he
      exact nomatch he
  · intro hfail
    rw [exec_commitSteps_of_failure hfail]

/-! ## Requests and refreshes -/

/-- A request that fails records nothing. -/
theorem eq_of_registerSteps_error {s s' : Session} {r : Request} {e : SessionError}
    (h : (registerSteps r).exec s = (.error e, s')) : s' = s := by
  rw [exec_registerSteps] at h
  -- A step fails where it locates something, which is before it records anything
  cases r with
  | entry slot symbol module =>
    dsimp only at h
    cases hl : locateSlot s.snapshot s.config.selector slot with
    | ok l => simp only [hl] at h; exact nomatch h
    | error e' => simp only [hl, Prod.mk.injEq] at h; exact h.2.symm
  | imported r => exact nomatch h
  | route literal =>
    dsimp only at h
    cases hl : locateRoutes s.snapshot s.config.selector with
    | ok l => simp only [hl] at h; exact nomatch h
    | error e' => simp only [hl, Prod.mk.injEq] at h; exact h.2.symm

/-- A refresh that fails leaves the session as it was. -/
theorem eq_of_refreshSteps_error [Recovery] {s s' : Session} {t : FileTree} {e : SessionError}
    (h : (refreshSteps t).exec s = (.error e, s')) : s' = s := by
  rw [exec_refreshSteps] at h
  cases hread : readSnapshot t s.path with
  | ok snapshot => simp only [hread] at h; exact nomatch h
  | error e' => simp only [hread, Prod.mk.injEq] at h; exact h.2.symm

/-- A step of a session that fails leaves the session, and every file and the number of commits, as
they were. A commit fails exactly as `CommitFailure` says, and a commit that succeeds has done what
`CommitEffect` says. -/
theorem commit_all_or_nothing [Recovery] (s : Session) (t : FileTree) :
    (match commitSteps.exec (s, t) with
      | (.error e, s', t') => CommitFailure s t e ∧ s' = s ∧ t' = t
      | (.ok c, s', t') => CommitEffect s t c s' t') ∧
    (∀ e, (commitSteps.exec (s, t)).1 = .error e ↔ CommitFailure s t e) ∧
    (∀ (r : Request) (e : SessionError) (s' : Session),
      (registerSteps r).exec s = (.error e, s') → s' = s) ∧
    ∀ (e : SessionError) (s' : Session), (refreshSteps t).exec s = (.error e, s') → s' = s := by
  refine ⟨?_, fun e => exec_commitSteps_eq_error_iff, fun r e s' h => eq_of_registerSteps_error h,
    fun e s' h => eq_of_refreshSteps_error h⟩
  rcases exec_commitSteps_cases s t with ⟨e, hfail, hexec⟩ | ⟨c, s', t', heffect, hexec⟩
  · rw [hexec]
    exact ⟨hfail, rfl, rfl⟩
  · rw [hexec]
    exact heffect

end Enlist.Session
