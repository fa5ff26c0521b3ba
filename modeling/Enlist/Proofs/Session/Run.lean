import Enlist.Session.Register

/-!
# Runs of requests

A session carries out requests one after the other; a request that fails leaves it as it was.

## Key results

- `exists_carryOut_eq`: a request touches the pending changes and the state, and nothing else
- `carryOut_entry`: what a request for an entry alone comes to
- `carryOutAll_induct`: what each request that is carried out keeps up, a run keeps up
-/

namespace Enlist.Session

open Edit Metadata

/-! ## One request -/

/-- The session after a request. -/
def carryOut (s : Session) (r : Request) : Session :=
  ((registerSteps r).exec s).2

/-- The session does not fail to carry the request out. -/
def accepts (s : Session) (r : Request) : Bool :=
  ((registerSteps r).exec s).1.toOption.isSome

@[simp] theorem pending_perform (s : Session) (d : Decision) :
    (s.perform d).pending = d.perform s.pending := by
  cases d <;> rfl

@[simp] theorem snapshot_perform (s : Session) (d : Decision) :
    (s.perform d).snapshot = s.snapshot := by
  cases d <;> rfl

@[simp] theorem config_perform (s : Session) (d : Decision) : (s.perform d).config = s.config := by
  cases d <;> rfl

/-- After a decision the pending changes are some that were pending and the one that is recorded. -/
theorem mem_pending_perform {s : Session} {d : Decision} {c : Change}
    (hc : c ∈ (s.perform d).pending) : c ∈ s.pending ∨ d.change? = some c := by
  rw [pending_perform] at hc
  cases d with
  | present | pending => exact .inl hc
  | append c' => exact (List.mem_append.1 hc).imp_right fun h => congrArg some (List.mem_singleton.1 h).symm
  | extend i c' => exact (List.mem_or_eq_of_mem_set hc).imp_right fun h => congrArg some h.symm

/-- Recording changes at most the pending changes and the state. -/
private theorem exists_perform_eq (s : Session) (d : Decision) :
    ∃ pending state, s.perform d = { s with pending, state } := by
  cases d with
  | present | pending => exact ⟨s.pending, s.state, rfl⟩
  | append | extend => exact ⟨_, .accumulating, rfl⟩

/-- A request touches the pending changes and the state of a session, and nothing else. -/
theorem exists_carryOut_eq (s : Session) (r : Request) :
    ∃ pending state, s.carryOut r = { s with pending, state } := by
  rw [carryOut, exec_registerSteps]
  cases r with
  | entry slot symbol module =>
    dsimp only
    cases locateSlot s.snapshot s.config.selector slot with
    | error e => exact ⟨s.pending, s.state, rfl⟩
    | ok l =>
      simp only [registerEntry, importFor]
      -- The import is recorded first, and the entry in the session after it
      cases s.decideEntryImport symbol module with
      | none => exact exists_perform_eq s _
      | some d =>
        obtain ⟨pending, state, h⟩ := exists_perform_eq s d
        simp only [h]
        exact exists_perform_eq { s with pending, state } _
  | imported r => exact exists_perform_eq s _
  | route literal =>
    dsimp only
    cases locateRoutes s.snapshot s.config.selector with
    | error e => exact ⟨s.pending, s.state, rfl⟩
    | ok l => exact exists_perform_eq s _

@[simp] theorem snapshot_carryOut (s : Session) (r : Request) :
    (s.carryOut r).snapshot = s.snapshot := by
  obtain ⟨_, _, h⟩ := exists_carryOut_eq s r
  rw [h]

@[simp] theorem path_carryOut (s : Session) (r : Request) : (s.carryOut r).path = s.path :=
  congrArg Snapshot.path (snapshot_carryOut s r)

@[simp] theorem config_carryOut (s : Session) (r : Request) : (s.carryOut r).config = s.config := by
  obtain ⟨_, _, h⟩ := exists_carryOut_eq s r
  rw [h]

@[simp] theorem lastCommitted_carryOut (s : Session) (r : Request) :
    (s.carryOut r).lastCommitted = s.lastCommitted := by
  obtain ⟨_, _, h⟩ := exists_carryOut_eq s r
  rw [h]

/-- A request that is not carried out leaves the session as it was. -/
theorem carryOut_of_not_accepts {s : Session} {r : Request} (h : s.accepts r = false) :
    s.carryOut r = s := by
  rw [accepts, exec_registerSteps] at h
  rw [carryOut, exec_registerSteps]
  -- A request is refused where something cannot be located, and then nothing is recorded
  cases r with
  | entry slot symbol module =>
    dsimp only at h ⊢
    cases hl : locateSlot s.snapshot s.config.selector slot with
    | error e => rfl
    | ok l => simp [hl, Except.toOption] at h
  | imported r => simp [Except.toOption] at h
  | route literal =>
    dsimp only at h ⊢
    cases hl : locateRoutes s.snapshot s.config.selector with
    | error e => rfl
    | ok l => simp [hl, Except.toOption] at h

/-- What a request for an entry without an import comes to. -/
theorem carryOut_entry (s : Session) (slot symbol : String) :
    s.accepts (.entry slot symbol none) =
      (locateSlot s.snapshot s.config.selector slot).toOption.isSome ∧
    ∀ l, locateSlot s.snapshot s.config.selector slot = .ok l →
      s.carryOut (.entry slot symbol none) = s.perform (s.decideEntry l symbol) := by
  rw [accepts, carryOut, exec_registerSteps]
  dsimp only
  cases locateSlot s.snapshot s.config.selector slot with
  | error e => exact ⟨rfl, fun _ h => nomatch h⟩
  | ok l =>
    refine ⟨rfl, fun l' h => ?_⟩
    cases h
    rfl

/-- What a request for a route comes to, when the routes are located. -/
theorem pending_carryOut_route {s : Session} {l : SlotLocation}
    (hl : locateRoutes s.snapshot s.config.selector = .ok l) (literal : String) :
    (s.carryOut (.route literal)).pending =
      (s.decideRoute l (trimmedRoute literal)).perform s.pending := by
  rw [carryOut, exec_registerSteps]
  simp only [hl, settle, pending_perform]

/-! ## Many requests -/

/-- The session after requests, one after the other. -/
def carryOutAll (s : Session) (rs : List Request) : Session :=
  rs.foldl carryOut s

/-- A run reads the file only once. -/
theorem reads_carryOutAll (s : Session) (rs : List Request) :
    (s.carryOutAll rs).snapshot = s.snapshot ∧ (s.carryOutAll rs).config = s.config := by
  induction rs generalizing s with
  | nil => exact ⟨rfl, rfl⟩
  | cons r rs ih =>
    obtain ⟨hsnapshot, hconfig⟩ := ih (s.carryOut r)
    exact ⟨hsnapshot.trans (snapshot_carryOut s r), hconfig.trans (config_carryOut s r)⟩

/-- The calls of a run whose requests are carried out, each by the session that those before it
leave. -/
def accepted {α : Type} (request : α → Request) : Session → List α → List α
  | _, [] => []
  | s, a :: as =>
    if s.accepts (request a) then a :: accepted request (s.carryOut (request a)) as
    else accepted request (s.carryOut (request a)) as

/-- What holds of a session and of the calls that it has carried out, if one more keeps it up, holds
after a run. -/
theorem carryOutAll_induct {α : Type} {request : α → Request} {P : List α → Session → Prop}
    (hstep : ∀ done s a, P done s → s.accepts (request a) = true →
      P (done ++ [a]) (s.carryOut (request a)))
    {done : List α} {s : Session} (h : P done s) (calls : List α) :
    P (done ++ accepted request s calls) (s.carryOutAll (calls.map request)) := by
  -- Induction on the calls; `done` grows only by those that are carried out
  induction calls generalizing done s with
  | nil => simpa [accepted, carryOutAll] using h
  | cons a calls ih =>
    rw [accepted]
    cases ha : s.accepts (request a) with
    | true =>
      have hnext := ih (hstep done s a h ha)
      rwa [List.append_assoc] at hnext
    | false =>
      have hsame : s.carryOutAll ((a :: calls).map request) = s.carryOutAll (calls.map request) :=
        congrArg (fun s => carryOutAll s (calls.map request)) (carryOut_of_not_accepts ha)
      rw [hsame, if_neg (by simp), carryOut_of_not_accepts ha]
      exact ih h

end Enlist.Session
