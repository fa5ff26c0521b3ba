import Enlist.Proofs.Session.Reached

/-!
# What the state of a session tells

The state of a session is set where changes are recorded, put in by hand, discarded, committed or dropped,
and on some of these ways only. `Course` follows a session and keeps what the session itself forgets: the
changes that its latest commit has applied. So it can be said what each state tells of what is pending and
of what was committed, however the session was used.

## Key results

- `Course.Tells.carryOut`: a request that takes a change leaves the session accumulating
- `Course.Tells.use`: what the state tells holds on after each use
- `tells_useAll`: so it holds of every session that was new
-/

namespace Enlist.Session

open Edit Metadata Store Syntax

/-- Nothing was done with the session since it was made. -/
inductive IsNew [Recovery] : Session → Prop where
  | start (snapshot : Snapshot) (config : SessionConfig) : IsNew (start snapshot config)
  | openFile {t : FileTree} {path : String} {config : SessionConfig} {s : Session}
      (h : openFile t path config = .ok s) : IsNew s

/-- What is done with a session, also by hand. -/
inductive Use where
  | register (r : Request)
  /-- A symbol becomes an entry of a slot and is imported from the module of a suffix. -/
  | registerIn (slot symbol : String) (suffix : Option String)
  | override (changes : ChangeSet)
  | discard
  | commit (t : FileTree)
  | refresh (t : FileTree)

/-- The session after a use, which may fail. -/
def use [Recovery] (s : Session) : Use → Session
  | .register r => s.carryOut r
  | .registerIn slot symbol suffix => s.carryOut (s.slotRequest slot symbol suffix)
  | .override changes => s.override changes
  | .discard => s.discard
  | .commit t => (commitSteps.exec (s, t)).2.1
  | .refresh t => ((refreshSteps t).exec s).2

/-- The changes that the latest commit has applied, if one was done since the file was read, after one more
use of a session; they were `before` until then. -/
def lastApplied [Recovery] (s : Session) (before : Option ChangeSet) : Use → Option ChangeSet
  | .commit t => if (commitSteps.exec (s, t)).1.isOk then some s.pending else before
  | .refresh t => if ((refreshSteps t).exec s).1.isOk then none else before
  | _ => before

/-- A session on its way. -/
structure Course where
  session : Session
  /-- The changes that the latest commit has applied, if one was done since the file was read. -/
  applied : Option ChangeSet

namespace Course

def start (s : Session) : Course :=
  { session := s, applied := none }

def use [Recovery] (c : Course) (u : Use) : Course :=
  { session := c.session.use u, applied := c.session.lastApplied c.applied u }

def useAll [Recovery] (c : Course) (us : List Use) : Course :=
  us.foldl use c

@[simp] theorem useAll_nil [Recovery] (c : Course) : c.useAll [] = c := rfl

@[simp] theorem useAll_cons [Recovery] (c : Course) (u : Use) (us : List Use) :
    c.useAll (u :: us) = (c.use u).useAll us := rfl

/-- What the state of a session tells of what is pending and of what was committed. -/
structure Tells (c : Course) : Prop where
  /-- Nothing is pending, and no commit of the snapshot was done. -/
  parsed : c.session.state = .parsed → c.session.pending = [] ∧ c.applied = none
  accumulating : c.session.state = .accumulating → c.session.pending ≠ []
  /-- A commit was done, and either what it has applied is pending or nothing is. -/
  committed : c.session.state = .committed →
    ∃ changes, c.applied = some changes ∧ (c.session.pending = [] ∨ c.session.pending = changes)
  /-- The session remembers a commit exactly if one was done. -/
  remembers : c.session.lastCommitted.isSome = c.applied.isSome

variable {c : Course} {s : Session} {last : Option ChangeSet}

/-! ## One use -/

/-- A session without commits that has nothing pending. -/
private theorem tells_of_fresh (hstate : s.state = .parsed) (hpending : s.pending = [])
    (hlast : s.lastCommitted = none) : (start s).Tells where
  parsed := fun _ => ⟨hpending, rfl⟩
  accumulating := fun h => by
    rw [start, hstate] at h
    exact nomatch h
  committed := fun h => by
    rw [start, hstate] at h
    exact nomatch h
  remembers := congrArg Option.isSome hlast

/-- A session with pending changes that are not committed. -/
private theorem tells_of_accumulating (hstate : s.state = .accumulating) (hpending : s.pending ≠ [])
    (hlast : s.lastCommitted.isSome = last.isSome) : Tells ⟨s, last⟩ where
  parsed := fun h => by
    rw [hstate] at h
    exact nomatch h
  accumulating := fun _ => hpending
  committed := fun h => by
    rw [hstate] at h
    exact nomatch h
  remembers := hlast

/-- A session that has dropped what was pending. -/
private theorem tells_of_idle (hstate : s.state = s.idleState) (hpending : s.pending = [])
    (hlast : s.lastCommitted.isSome = last.isSome) : Tells ⟨s, last⟩ := by
  rw [idleState, hlast] at hstate
  cases last with
  | none =>
    refine ⟨fun _ => ⟨hpending, rfl⟩, fun h => ?_, fun h => ?_, hlast⟩ <;>
      exact nomatch h.symm.trans hstate
  | some changes =>
    refine ⟨fun h => ?_, fun h => ?_, fun _ => ⟨changes, rfl, .inl hpending⟩, hlast⟩ <;>
      exact nomatch h.symm.trans hstate

/-- Whatever is decided in a session, it is not taken for one without new changes when it has some. -/
private theorem Tells.perform (h : Tells ⟨s, last⟩) {d : Decision} (hd : s.Settles d) :
    Tells ⟨s.perform d, last⟩ := by
  cases hd with
  | present | pending => exact h
  | append =>
    refine tells_of_accumulating rfl ?_ h.remembers
    rw [pending_perform]
    exact List.append_ne_nil_of_right_ne_nil _ (List.cons_ne_nil _ _)
  | extend hparts =>
    -- The change that is extended is pending, and stays in its place
    refine tells_of_accumulating rfl ?_ h.remembers
    rw [pending_perform, hparts, Decision.perform_extend]
    exact List.append_ne_nil_of_right_ne_nil _ (List.cons_ne_nil _ _)

/-- A request that takes a change leaves the session accumulating, and any other one leaves it as it
is. -/
theorem Tells.carryOut (h : c.Tells) (r : Request) : Tells ⟨c.session.carryOut r, c.applied⟩ :=
  carryOut_keeps (P := fun s => Tells ⟨s, c.applied⟩) (fun _ _ hs hd => hs.perform hd) h r

/-- What the state tells holds on after each use of the session. -/
theorem Tells.use [Recovery] (h : c.Tells) (u : Use) : (c.use u).Tells := by
  cases u with
  | register r => exact h.carryOut r
  | registerIn slot symbol suffix => exact h.carryOut _
  | override changes =>
    cases changes with
    | nil => exact tells_of_idle rfl rfl h.remembers
    | cons change changes =>
      exact tells_of_accumulating rfl (List.cons_ne_nil change changes) h.remembers
  | discard => exact tells_of_idle rfl rfl h.remembers
  | commit t =>
    rw [Course.use, Session.use, lastApplied]
    rcases exec_commitSteps_cases c.session t with ⟨e, _, hexec⟩ | ⟨d, s', t', heffect, hexec⟩
    · rw [hexec]
      exact h
    · rw [hexec, heffect.session]
      -- What was applied is what is pending still
      refine ⟨fun hstate => (nomatch hstate), fun hstate => (nomatch hstate), fun _ => ?_, rfl⟩
      exact ⟨c.session.pending, rfl, .inr rfl⟩
  | refresh t =>
    rw [Course.use, Session.use, lastApplied, exec_refreshSteps]
    cases readSnapshot t c.session.path with
    | error e => exact h
    | ok snapshot => exact tells_of_fresh rfl rfl rfl

end Course

/-! ## Many uses -/

/-- A session that is new was started over some snapshot. -/
theorem exists_start_of_isNew [Recovery] {s : Session} (h : s.IsNew) :
    ∃ snapshot config, s = start snapshot config := by
  cases h with
  | start snapshot config => exact ⟨snapshot, config, rfl⟩
  | openFile hopen =>
    obtain ⟨snapshot, hs⟩ := exists_start_of_openFile hopen
    exact ⟨snapshot, _, hs⟩

/-- However a session that was new is used, its state tells what is pending and what was committed. -/
theorem tells_useAll [Recovery] {s : Session} (h : s.IsNew) (us : List Use) :
    ((Course.start s).useAll us).Tells := by
  have hrun : ∀ c : Course, c.Tells → (c.useAll us).Tells := by
    induction us with
    | nil => exact fun _ hc => hc
    | cons u us ih =>
      intro c hc
      rw [Course.useAll_cons]
      exact ih (c.use u) (hc.use u)
  obtain ⟨snapshot, config, rfl⟩ := exists_start_of_isNew h
  exact hrun _ (Course.tells_of_fresh rfl rfl rfl)

/-- A commit to a store without the file is refused, and the next one is done. Then an import is asked for
that the text has. So what was committed is pending still. -/
theorem tells_useAll_sample :
    let snapshot : Snapshot := .ofText "/m.ts" "import A from 'a';\n@M(\x7bxs: [A]\x7d)class C\x7b\x7d"
    let config : SessionConfig := { importBase := ".", selector := .named "M" }
    let t : FileTree :=
      { files := (∅ : Std.TreeMap String ByteArray).insert "/m.ts" snapshot.text.toUTF8, commits := 0 }
    let s := start snapshot config
    let c := (Course.start s).useAll [.register (.entry "xs" "B" none), .commit .empty, .commit t,
      .register (.imported ⟨"A", "a", true⟩)]
    s.IsNew ∧ c.session.state = .committed ∧ c.session.pending.length = 1 ∧
      c.applied = some c.session.pending := by
  intro snapshot config t s c
  have hnew : s.IsNew := .start snapshot config
  -- One evaluation for all that is told of the text, which is read in it once
  obtain ⟨happly, hread, hlength, hpresent⟩ :
      Edit.apply (s.carryOut (.entry "xs" "B" none)).snapshot.text
          (s.carryOut (.entry "xs" "B" none)).pending =
        .ok "import A from 'a';\n@M(\x7bxs: [A, B]\x7d)class C\x7b\x7d" ∧
      t.readText (s.carryOut (.entry "xs" "B" none)).path =
        .ok (s.carryOut (.entry "xs" "B" none)).snapshot.text ∧
      (s.carryOut (.entry "xs" "B" none)).pending.length = 1 ∧
      (s.carryOut (.entry "xs" "B" none)).decideImport ⟨"A", "a", true⟩ = .present := by
    decide +kernel
  generalize hs₁ : s.carryOut (.entry "xs" "B" none) = s₁ at happly hread hlength hpresent
  -- The first commit fails as the store is empty, the second succeeds
  have hrefused := exec_commitSteps_of_failure (.fileNotFound (t := .empty) happly rfl)
  obtain ⟨d, s', t', hexec, heffect⟩ := exists_commit_of_known happly hread (.inl rfl)
  have hafter : s'.carryOut (.imported ⟨"A", "a", true⟩) = s' := by
    have hdecided : s'.decideImport ⟨"A", "a", true⟩ = .present := by rw [heffect.session]; exact hpresent
    show s'.perform (s'.decideImport ⟨"A", "a", true⟩) = s'
    rw [hdecided]
    rfl
  -- What each of the four uses makes of the session
  have hfirst : (Course.start s).use (.register (.entry "xs" "B" none)) = ⟨s₁, none⟩ := hs₁ ▸ rfl
  have hsecond : Course.use ⟨s₁, none⟩ (.commit .empty) = ⟨s₁, none⟩ := by
    rw [Course.use, Session.use, lastApplied, hrefused]
    rfl
  have hthird : Course.use ⟨s₁, none⟩ (.commit t) = ⟨s', some s₁.pending⟩ := by
    rw [Course.use, Session.use, lastApplied, hexec]
    rfl
  have hfourth : Course.use ⟨s', some s₁.pending⟩ (.register (.imported ⟨"A", "a", true⟩)) =
      ⟨s', some s₁.pending⟩ := by
    simp only [Course.use, Session.use, lastApplied, hafter]
  have hc : c = ⟨s', some s₁.pending⟩ := by
    simp only [c, Course.useAll_cons, Course.useAll_nil, hfirst, hsecond, hthird, hfourth]
  have hstate : c.session.state = .committed := by rw [hc, heffect.session]
  have hpending : c.session.pending.length = 1 := by rw [hc, heffect.session]; exact hlength
  obtain ⟨changes, happlied, hnone | hsome⟩ := (tells_useAll hnew _).committed hstate
  · exact absurd (congrArg List.length hnone) (by rw [hpending]; decide)
  · exact ⟨hnew, hstate, hpending, hsome ▸ happlied⟩

end Enlist.Session
