import Enlist.Proofs.Session.Commit
import Enlist.Proofs.Session.Run

/-!
# Sessions that share a store

Any number of sessions work on one store, one act after the other in any order, and others write files
into the store directly. The history of a world says which sessions were opened and refreshed, and
which of their commits were done and which refused; what a session wrote last is read off it.

## Key results

- `remembers_run`: in every world that is reached, a session remembers the digest of what the history
  says it wrote last
- `act_commit_cases` / `act_commit_of_not_holdsKnown`: what a commit comes to
- `commit_guarded`: a commit replaces only what the session has read or written last, and a session
  whose file another one has written is refused until the file holds something that it knows
-/

namespace Enlist

open Edit Store Syntax

/-- What is known of one act afterwards. -/
inductive Happening where
  | opened (i : Nat)
  | refreshed (i : Nat)
  | committed (i : Nat) (c : Committed)
  | refused (i : Nat) (e : SessionError)

/-- What one of the sessions, or somebody else, does. Sessions are known by their number. -/
inductive Act where
  /-- A session starts with a text that was read before. -/
  | start (snapshot : Snapshot) (config : SessionConfig)
  /-- A session starts with a stored file. -/
  | openFile (path : String) (config : SessionConfig)
  | register (i : Nat) (r : Request)
  | discard (i : Nat)
  | override (i : Nat) (changes : ChangeSet)
  | refresh (i : Nat)
  | commit (i : Nat)
  /-- Somebody writes a file. -/
  | insert (path : String) (content : ByteArray)

/-- The text that session `i` wrote last, after something happened; it was `written` before. -/
def Happening.lastWritten (i : Nat) (written : Option String) : Happening → Option String
  | opened j => if j = i then none else written
  | refreshed j => if j = i then none else written
  | committed j c => if j = i then some c.text else written
  | refused _ _ => written

/-- The text that session `i` wrote last since it was opened or refreshed, by the history. -/
def lastWritten (i : Nat) (history : List Happening) : Option String :=
  history.foldl (Happening.lastWritten i) none

/-- Sessions, the store that they share, and what has happened. -/
structure World where
  sessions : List Session
  tree : FileTree
  history : List Happening

namespace World

/-- The world before any session is opened. -/
def start (t : FileTree) : World :=
  { sessions := [], tree := t, history := [] }

/-- The world with one more session. -/
def join (w : World) (s : Session) : World :=
  { w with sessions := w.sessions ++ [s], history := w.history ++ [.opened w.sessions.length] }

/-- The world after an act. An act of a session that was not opened is none. -/
def act [Recovery] (w : World) : Act → World
  | .start snapshot config => w.join (.start snapshot config)
  | .openFile path config =>
    match Session.openFile w.tree path config with
    | .ok s => w.join s
    | .error _ => w
  | .register i r =>
    match w.sessions[i]? with
    | some s => { w with sessions := w.sessions.set i ((Session.registerSteps r).exec s).2 }
    | none => w
  | .discard i =>
    match w.sessions[i]? with
    | some s => { w with sessions := w.sessions.set i s.discard }
    | none => w
  | .override i changes =>
    match w.sessions[i]? with
    | some s => { w with sessions := w.sessions.set i (s.override changes) }
    | none => w
  | .refresh i =>
    match w.sessions[i]? with
    | some s =>
      match (Session.refreshSteps w.tree).exec s with
      | (.ok (), s) =>
        { w with sessions := w.sessions.set i s, history := w.history ++ [.refreshed i] }
      | (.error _, s) => { w with sessions := w.sessions.set i s }
    | none => w
  | .commit i =>
    match w.sessions[i]? with
    | some s =>
      match Session.commitSteps.exec (s, w.tree) with
      | (.ok c, s, t) =>
        { sessions := w.sessions.set i s, tree := t, history := w.history ++ [.committed i c] }
      | (.error e, s, t) =>
        { sessions := w.sessions.set i s, tree := t, history := w.history ++ [.refused i e] }
    | none => w
  | .insert path content => { w with tree := w.tree.insert path content }

def run [Recovery] (w : World) (acts : List Act) : World :=
  acts.foldl act w

/-- Session `i` knows a content: it is the text that the session works on, or the text that it wrote
last, as far as digests tell. -/
def Knows (w : World) (i : Nat) (bytes : ByteArray) : Prop :=
  ∃ s, w.sessions[i]? = some s ∧
    (Digest.ofBytes bytes = s.snapshot.digest ∨
      ∃ text, lastWritten i w.history = some text ∧ Digest.ofBytes bytes = Digest.ofText text)

/-- The file of session `i` holds a content that the session knows. -/
def HoldsKnown (w : World) (i : Nat) : Prop :=
  ∃ s bytes, w.sessions[i]? = some s ∧ s.stored? w.tree = some bytes ∧ w.Knows i bytes

/-- A commit of session `i` is done. -/
def Commits [Recovery] (w : World) (i : Nat) (c : Committed) : Prop :=
  (w.act (.commit i)).history = w.history ++ [.committed i c]

/-- A commit of session `i` is refused, and leaves all sessions and all files as they are. -/
def Refuses [Recovery] (w : World) (i : Nat) : Prop :=
  ∃ e, w.act (.commit i) = { w with history := w.history ++ [.refused i e] }

/-- Two sessions work on one file, and each with the same text of it. -/
def Together (w : World) (i j : Nat) (text : String) : Prop :=
  i ≠ j ∧ ∃ s r, w.sessions[i]? = some s ∧ w.sessions[j]? = some r ∧
    Path.normalize s.path = Path.normalize r.path ∧
    s.snapshot.text = text ∧ r.snapshot.text = text

/-- Every session remembers the digest of what it wrote last. -/
def Remembers (w : World) : Prop :=
  ∀ i s, w.sessions[i]? = some s → s.lastCommitted = (lastWritten i w.history).map Digest.ofText

/-! ## What each act does to what is remembered -/

theorem lastWritten_append (i : Nat) (history : List Happening) (h : Happening) :
    lastWritten i (history ++ [h]) = h.lastWritten i (lastWritten i history) := by
  rw [lastWritten, List.foldl_append]
  rfl

/-- At the beginning there is nothing to remember. -/
theorem remembers_start (t : FileTree) : (start t).Remembers := by
  intro i s hs
  exact nomatch hs

/-- A new session has written nothing. -/
private theorem Remembers.join {w : World} {s : Session} (h : w.Remembers)
    (hs : s.lastCommitted = none) : (w.join s).Remembers := by
  intro i s' hs'
  simp only [World.join, lastWritten_append, Happening.lastWritten] at *
  rcases Nat.lt_trichotomy i w.sessions.length with hi | rfl | hi
  · -- the other sessions are not the one that was opened
    rw [List.getElem?_append_left hi] at hs'
    rw [if_neg (by omega)]
    exact h i s' hs'
  · rw [List.getElem?_concat_length, Option.some.injEq] at hs'
    rw [if_pos rfl, ← hs', hs]
    rfl
  · rw [List.getElem?_eq_none (by simp; omega)] at hs'
    cases hs'

/-- A session may change as long as it remembers what the history says, and the history changes for
the other sessions in nothing. -/
private theorem Remembers.set {w : World} {i : Nat} {s : Session} {t : FileTree}
    {history : List Happening} (h : w.Remembers)
    (hs : s.lastCommitted = (lastWritten i history).map Digest.ofText)
    (hothers : ∀ j, j ≠ i → lastWritten j history = lastWritten j w.history) :
    ({ sessions := w.sessions.set i s, tree := t, history } : World).Remembers := by
  intro j s' hs'
  -- The session that is put in remembers what its history says, and the others are as they were
  by_cases hj : j = i
  · subst hj
    have hlt : j < w.sessions.length := by
      have := (List.getElem?_eq_some_iff.1 hs').1
      rwa [List.length_set] at this
    rw [List.getElem?_set_self hlt, Option.some.injEq] at hs'
    exact hs' ▸ hs
  · rw [List.getElem?_set_ne (Ne.symm hj)] at hs'
    rw [hothers j hj]
    exact h j s' hs'

/-! ## Commits -/

/-- What a session knows, by what it remembers. -/
private theorem knows_iff_of_remembers {w : World} {i : Nat} {s : Session} {bytes : ByteArray}
    (h : w.Remembers) (hs : w.sessions[i]? = some s) :
    w.Knows i bytes ↔ Digest.ofBytes bytes = s.snapshot.digest ∨
      some (Digest.ofBytes bytes) = s.lastCommitted := by
  -- A session remembers as its last commit what the history says
  rw [h i s hs]
  constructor
  · rintro ⟨s', hs', hknown⟩
    rw [hs, Option.some.injEq] at hs'
    subst hs'
    rcases hknown with hread | ⟨text, htext, hwritten⟩
    · exact .inl hread
    · exact .inr (by rw [htext, hwritten]; rfl)
  · rintro (hread | hwritten)
    · exact ⟨s, hs, .inl hread⟩
    · obtain ⟨text, htext, hdigest⟩ := Option.map_eq_some_iff.1 hwritten.symm
      exact ⟨s, hs, .inr ⟨text, htext, hdigest.symm⟩⟩

/-- A commit of session `i` has been done, from the session `s` and to the session `s'` and the store
`t'`. -/
structure CommitDone [Recovery] (w : World) (i : Nat) (s : Session) (c : Committed) (s' : Session)
    (t' : FileTree) : Prop where
  /-- The content that it replaces is one that the session knows. -/
  known : ∃ bytes, s.stored? w.tree = some bytes ∧ c.before = .ofBytes bytes ∧ w.Knows i bytes
  effect : Session.CommitEffect s w.tree c s' t'
  act_eq : w.act (.commit i) =
    { sessions := w.sessions.set i s', tree := t', history := w.history ++ [.committed i c] }

/-- A commit either is refused and changes nothing but the history, or it is done over a content that
the session knows. -/
theorem act_commit_cases [Recovery] {w : World} {i : Nat} {s : Session} (h : w.Remembers)
    (hs : w.sessions[i]? = some s) :
    w.Refuses i ∨ ∃ c s' t', w.CommitDone i s c s' t' := by
  cases hp : s.prepare w.tree with
  | error e =>
    left
    have hfail := Session.exec_commitSteps_of_failure (Session.commitFailure_of_prepare hp)
    -- The session is put back where it was
    have hset : w.sessions.set i s = w.sessions := by
      obtain ⟨hlt, rfl⟩ := List.getElem?_eq_some_iff.1 hs
      exact List.set_getElem_self hlt
    exact ⟨e, by simp only [act, hs, hfail, hset]⟩
  | ok p =>
    right
    have heffect := Session.CommitEffect.of_prepare hp
    obtain ⟨bytes, hstored, hbefore, hknown⟩ := heffect.before
    rw [hbefore] at hknown
    have hknows : w.Knows i bytes := (knows_iff_of_remembers h hs).2 hknown
    refine ⟨p.outcome, _, _, ⟨bytes, hstored, hbefore, hknows⟩, heffect, ?_⟩
    simp only [act, hs, Session.exec_commitSteps_of_prepare hp]

/-- A commit over a content that the session does not know is refused, and nothing changes but the
history. -/
theorem act_commit_of_not_holdsKnown [Recovery] {w : World} {i : Nat} {s : Session} (h : w.Remembers)
    (hs : w.sessions[i]? = some s) (hunknown : ¬ w.HoldsKnown i) :
    w.Refuses i := by
  rcases act_commit_cases h hs with hrefused | ⟨c, s', t', hdone⟩
  · exact hrefused
  · obtain ⟨bytes, hstored, _, hknown⟩ := hdone.known
    exact absurd ⟨s, bytes, hs, hstored, hknown⟩ hunknown

/-! ## Runs -/

/-- Every act is remembered. -/
theorem remembers_act [Recovery] {w : World} (h : w.Remembers) (a : Act) : (w.act a).Remembers := by
  cases a with
  | start snapshot config => exact h.join rfl
  | openFile path config =>
    simp only [act]
    cases hopen : Session.openFile w.tree path config with
    | error e => exact h
    | ok s =>
      simp only [Session.openFile] at hopen
      cases hread : Session.readSnapshot w.tree (Path.normalize path) with
      | error e => rw [hread] at hopen; exact nomatch hopen
      | ok snapshot =>
        rw [hread] at hopen
        cases hopen
        exact h.join rfl
  | register i r =>
    -- A request and the next two moves leave what the session has committed
    simp only [act]
    cases hs : w.sessions[i]? with
    | none => exact h
    | some s =>
      exact h.set ((Session.lastCommitted_carryOut s r).trans (h i s hs)) fun _ _ => rfl
  | discard i =>
    simp only [act]
    cases hs : w.sessions[i]? with
    | none => exact h
    | some s => exact h.set (h i s hs) fun _ _ => rfl
  | override i changes =>
    simp only [act]
    cases hs : w.sessions[i]? with
    | none => exact h
    | some s => exact h.set (h i s hs) fun _ _ => rfl
  | refresh i =>
    simp only [act]
    cases hs : w.sessions[i]? with
    | none => exact h
    | some s =>
      -- A session that is read again has committed nothing
      simp only [Session.exec_refreshSteps]
      cases Session.readSnapshot w.tree s.path with
      | error e => exact h.set (h i s hs) fun _ _ => rfl
      | ok snapshot =>
        refine h.set ?_ fun j hj => ?_
        · rw [lastWritten_append, Happening.lastWritten, if_pos rfl]
          rfl
        · rw [lastWritten_append, Happening.lastWritten, if_neg (Ne.symm hj)]
  | commit i =>
    cases hs : w.sessions[i]? with
    | none =>
      simp only [act, hs]
      exact h
    | some s =>
      rcases act_commit_cases h hs with ⟨e, hact⟩ | ⟨c, s', t', hdone⟩
      · -- a refusal is no news of what was written
        rw [hact]
        intro j s' hs'
        rw [lastWritten_append]
        exact h j s' hs'
      · rw [hdone.act_eq]
        refine h.set ?_ fun j hj => ?_
        · rw [lastWritten_append, Happening.lastWritten, if_pos rfl, hdone.effect.session,
            hdone.effect.after]
          rfl
        · rw [lastWritten_append, Happening.lastWritten, if_neg (Ne.symm hj)]
  | insert path content => exact h

/-- In every world that is reached, the sessions remember what they wrote last. -/
theorem remembers_run [Recovery] {w : World} (h : w.Remembers) (acts : List Act) :
    (w.run acts).Remembers := by
  induction acts generalizing w with
  | nil => exact h
  | cons a acts ih => exact ih (remembers_act h a)

/-- An act that adds a commit of session `i` to the history is a commit of `i` over a content that it
knows. -/
private theorem history_act [Recovery] {w : World} (h : w.Remembers) (a : Act) :
    ∃ new, (w.act a).history = w.history ++ new ∧
      ∀ i c, .committed i c ∈ new → w.HoldsKnown i := by
  cases a with
  -- Only a session that is opened or read again, and a commit, add to the history
  | start snapshot config => exact ⟨[.opened w.sessions.length], rfl, by simp⟩
  | openFile path config =>
    simp only [act]
    cases Session.openFile w.tree path config with
    | error e => exact ⟨[], by simp, by simp⟩
    | ok s => exact ⟨[.opened w.sessions.length], rfl, by simp⟩
  | register i r => simp only [act]; split <;> exact ⟨[], by simp, by simp⟩
  | discard i => simp only [act]; split <;> exact ⟨[], by simp, by simp⟩
  | override i changes => simp only [act]; split <;> exact ⟨[], by simp, by simp⟩
  | refresh i =>
    simp only [act]
    split
    · split
      · exact ⟨[.refreshed i], rfl, by simp⟩
      · exact ⟨[], by simp, by simp⟩
    · exact ⟨[], by simp, by simp⟩
  | commit i =>
    cases hs : w.sessions[i]? with
    | none => exact ⟨[], by simp [act, hs], by simp⟩
    | some s =>
      rcases act_commit_cases h hs with ⟨e, hact⟩ | ⟨c, s', t', hdone⟩
      · exact ⟨[.refused i e], by rw [hact], by simp⟩
      · obtain ⟨bytes, hstored, _, hknown⟩ := hdone.known
        refine ⟨[.committed i c], by rw [hdone.act_eq], fun j d hmem => ?_⟩
        rw [List.mem_singleton, Happening.committed.injEq] at hmem
        exact hmem.1 ▸ ⟨s, bytes, hs, hstored, hknown⟩
  | insert path content => exact ⟨[], by simp [act], by simp⟩

/-- While its file holds nothing that a session knows, the session commits nothing. -/
theorem not_committed_of_not_holdsKnown [Recovery] {w : World} {i : Nat} (h : w.Remembers)
    (acts : List Act)
    (hnow : ¬ w.HoldsKnown i) (hlater : ∀ n, ¬ (w.run (acts.take (n + 1))).HoldsKnown i) :
    ∃ new, (w.run acts).history = w.history ++ new ∧ ∀ c, .committed i c ∉ new := by
  -- Induction on the acts; `Remembers` carries it, since `history_act` needs it of every world
  induction acts generalizing w with
  | nil => exact ⟨[], by simp [run], by simp⟩
  | cons a acts ih =>
    obtain ⟨first, hfirst, hmem⟩ := history_act h a
    obtain ⟨rest, hrest, hnone⟩ := ih (remembers_act h a) (hlater 0) fun n => hlater (n + 1)
    refine ⟨first ++ rest, ?_, fun c hc => ?_⟩
    · have hrun : (w.run (a :: acts)).history = ((w.act a).run acts).history := rfl
      rw [hrun, hrest, hfirst, List.append_assoc]
    · rcases List.mem_append.1 hc with hc | hc
      · exact hnow (hmem i c hc)
      · exact hnone c hc

/-- A commit that is done is done over a content that the session knows. -/
private theorem Commits.done [Recovery] {w : World} {i : Nat} {c : Committed} (h : w.Remembers)
    (hc : w.Commits i c) :
    ∃ s s' t', w.sessions[i]? = some s ∧ w.CommitDone i s c s' t' := by
  cases hs : w.sessions[i]? with
  | none =>
    simp only [Commits, act, hs] at hc
    exact absurd hc (by simp)
  | some s =>
    rcases act_commit_cases h hs with ⟨e, hact⟩ | ⟨c', s', t', hdone⟩
    · rw [Commits, hact] at hc
      simp at hc
    · -- the history tells which commit it was
      rw [Commits, hdone.act_eq, List.append_cancel_left_eq] at hc
      obtain rfl : c' = c := by simpa using hc
      exact ⟨s, s', t', rfl, hdone⟩

/-- After a session has written the file, another one knows what it holds only if it is the text that
this one works on or wrote last. -/
private theorem Commits.knows_of_holdsKnown [Recovery] {w : World} {i j : Nat} {c : Committed}
    {text : String}
    (h : w.Remembers) (htogether : w.Together i j text) (hc : w.Commits i c)
    (hknown : (w.act (.commit i)).HoldsKnown j) :
    c.after = .ofText text ∨
      ∃ written, lastWritten j w.history = some written ∧ c.after = .ofText written := by
  obtain ⟨hij, s, r, hs, hr, hpath, _, hrtext⟩ := htogether
  obtain ⟨s₀, s', t', hs₀, hdone⟩ := hc.done h
  obtain rfl : s₀ = s := Option.some.inj (hs₀.symm.trans hs)
  have heffect := hdone.effect
  obtain ⟨r₁, bytes, hr₁, hstored, r₂, hr₂, hdigest⟩ := hknown
  rw [hdone.act_eq] at hr₁ hr₂ hstored hdigest
  -- Session `j` is as it was, and its file holds what session `i` has written
  rw [List.getElem?_set_ne hij, hr, Option.some.injEq] at hr₁ hr₂
  subst hr₁ hr₂
  rw [Session.stored?, heffect.files, if_pos hpath.symm, Option.some.injEq] at hstored
  rw [← hstored, ← heffect.after] at hdigest
  rcases hdigest with hread | ⟨written, hwritten, hdigest⟩
  · exact .inl (by rw [hread, Snapshot.digest, hrtext])
  · rw [lastWritten_append, Happening.lastWritten, if_neg hij] at hwritten
    exact .inr ⟨written, hwritten, hdigest⟩

/-- In every world that is reached by sessions and others over one store:

* a commit that is done replaces a content that the session has read or written last;
* a commit over any other content, or over none, is refused, and session and store stay as they are;
* once one of two sessions that were opened on the same text of a file has written a text with
  another digest, the other one commits nothing until the file holds a content that it knows. That it
  knows the content right then takes that it wrote a text with the same digest last. -/
theorem commit_guarded [Recovery] (t : FileTree) (acts : List Act) (i : Nat) :
    let w := (start t).run acts
    (∀ c, w.Commits i c → ∃ s bytes, w.sessions[i]? = some s ∧ s.stored? w.tree = some bytes ∧
      c.before = .ofBytes bytes ∧ w.Knows i bytes) ∧
    (i < w.sessions.length → ¬ w.HoldsKnown i → w.Refuses i) ∧
    ∀ j c text, w.Together i j text → w.Commits i c → c.after ≠ .ofText text →
      let w' := w.act (.commit i)
      (w'.HoldsKnown j →
        ∃ written, lastWritten j w.history = some written ∧ c.after = .ofText written) ∧
      ∀ later, (∀ n, ¬ (w'.run (later.take n)).HoldsKnown j) →
        ∃ new, (w'.run later).history = w'.history ++ new ∧ ∀ d, .committed j d ∉ new := by
  have h : ((start t).run acts).Remembers := remembers_run (remembers_start t) acts
  refine ⟨fun c hc => ?_, fun hi hunknown => ?_, fun j c text htogether hc hafter => ⟨fun hknown => ?_,
    fun later hlater => ?_⟩⟩
  · obtain ⟨s, s', t', hs, hdone⟩ := hc.done h
    obtain ⟨bytes, hstored, hbefore, hknown⟩ := hdone.known
    exact ⟨s, bytes, hs, hstored, hbefore, hknown⟩
  · exact act_commit_of_not_holdsKnown h (List.getElem?_eq_getElem hi) hunknown
  · exact (hc.knows_of_holdsKnown h htogether hknown).resolve_left hafter
  · exact not_committed_of_not_holdsKnown (remembers_act h _) later (hlater 0) fun n => hlater (n + 1)

end World

end Enlist
