import Enlist.Proofs.Session.Counterparts
import Enlist.Session.Cache

/-!
# Callers that share a session

Several callers ask one cache for the session of a file and register what they need, each in an order of
its own. However their calls fall between one another, the same requests fail and the same things are
registered. What depends on who comes first is how a thing is written: a name that one caller imports
with braces and another one without is bound as the first of them asks.

## Key results

- `registers_carryOutAll`: what is registered after a run does not depend on its order
- `exists_serve_eq`: calls through a cache are requests to one session
- `serve_in_any_order`: what callers register together, in any two orders of their calls
- `import_form_depends_on_order`: the texts of the changes may differ
-/

namespace Enlist

open Edit Metadata Store Syntax

/-- A request that is not refused asks for the registration, and the text does not have it. -/
def Request.asks (s : Snapshot) (sel : Selector) (q : Registration) (r : Request) : Bool :=
  (r.refusal? s sel).isNone && r.registrations.any fun a => !s.holds sel a && a.same q

namespace Session

/-! ## What a run registers -/

/-- What is registered after a request. -/
theorem registers_carryOut (s : Session) (r : Request) (q : Registration) :
    (s.carryOut r).pending.registers q =
      (s.pending.registers q || r.asks s.snapshot s.config.selector q) := by
  rw [carryOut, Request.asks]
  rcases exec_registerSteps_cases s r with ⟨e, hrefusal, hexec⟩ | ⟨hrefusal, s', cs, hexec, hanswered⟩
  · rw [hexec, hrefusal]
    simp
  · rw [hexec, hrefusal, hanswered.registers_eq]
    simp

/-- What is registered after a run does not depend on the order of its requests. -/
theorem registers_carryOutAll (s : Session) (rs : List Request) (q : Registration) :
    (s.carryOutAll rs).pending.registers q =
      (s.pending.registers q || rs.any (Request.asks s.snapshot s.config.selector q)) := by
  induction rs generalizing s with
  | nil => simp [carryOutAll]
  | cons r rs ih =>
    have hnext := ih (s.carryOut r)
    rw [registers_carryOut, snapshot_carryOut, config_carryOut, Bool.or_assoc] at hnext
    exact hnext

/-- What a new session has registered after a run. -/
theorem registers_carryOutAll_start_iff {snapshot : Snapshot} {config : SessionConfig}
    {rs : List Request} {q : Registration} :
    ((start snapshot config).carryOutAll rs).pending.registers q = true ↔
      ∃ r ∈ rs, r.refusal? snapshot config.selector = none ∧
        ∃ a ∈ r.registrations, snapshot.holds config.selector a = false ∧ a.same q = true := by
  have hregisters : ((start snapshot config).carryOutAll rs).pending.registers q =
      rs.any (Request.asks snapshot config.selector q) := registers_carryOutAll _ rs q
  rw [hregisters]
  simp [Request.asks]

/-- Each pending change of a run is for something. -/
theorem named_carryOutAll {s : Session} (h : ∀ c ∈ s.pending, c.origin.registrations ≠ [])
    (rs : List Request) : ∀ c ∈ (s.carryOutAll rs).pending, c.origin.registrations ≠ [] := by
  -- A step keeps what is pending, or puts in a change that names what it was made for
  have hstep : ∀ (s : Session) (d : Decision), (∀ c ∈ s.pending, c.origin.registrations ≠ []) →
      s.Settles d → ∀ c ∈ (s.perform d).pending, c.origin.registrations ≠ [] := by
    intro s d h hd c hc
    rcases mem_pending_perform hc with hc | hc
    · exact h c hc
    · cases hd with
      | present | pending => exact nomatch hc
      | append horigin =>
        obtain rfl := Option.some.inj hc
        rw [horigin]
        exact List.cons_ne_nil _ _
      | extend _ _ hbecomes =>
        obtain rfl := Option.some.inj hc
        rw [hbecomes, Origin.registrations, List.map_append]
        exact List.append_ne_nil_of_right_ne_nil _ (List.cons_ne_nil _ _)
  induction rs generalizing s with
  | nil => exact h
  | cons r rs ih => exact ih (carryOut_keeps hstep h r)

end Session

/-! ## Calls through a cache -/

namespace SessionCache

/-- A caller asks the session of a file for something. -/
def request [Recovery] (c : SessionCache) (t : FileTree) (path : String) (r : Request) :
    Except SessionError (List Change) × SessionCache :=
  match c.session t path with
  | .error e => (.error e, c)
  | .ok (c, s) =>
    let (answer, s) := (Session.registerSteps r).exec s
    (answer, c.set s)

/-- What callers are answered, one call after the other, and the cache after that. -/
def serve [Recovery] {κ : Type} (c : SessionCache) (t : FileTree) (path : String) :
    List (κ × Request) → List (κ × Except SessionError (List Change)) × SessionCache
  | [] => ([], c)
  | (k, r) :: calls =>
    let (answer, c) := c.request t path r
    let (answers, c) := c.serve t path calls
    ((k, answer) :: answers, c)

/-- What a call fails with. -/
def failure? {α : Type} : Except SessionError α → Option SessionError
  | .error e => some e
  | .ok _ => none

/-- What belongs to one of the callers. -/
def ofCaller {κ α : Type} [DecidableEq κ] (k : κ) (calls : List (κ × α)) : List α :=
  (calls.filter fun call => call.1 = k).map Prod.snd

variable {c : SessionCache} {s s' : Session} {path : String}

/-- A session that is put back is found again. -/
theorem get?_set (h : c.get? path = some s) (hpath : s'.path = s.path) :
    (c.set s').get? path = some s' := by
  have hkey : ((fun other : Session => other.path == Path.normalize path) ∘
      fun other => if other.path = s'.path then s' else other) =
        fun other => other.path == Path.normalize path := by
    funext other
    by_cases hother : other.path = s'.path <;> simp [hother]
  rw [get?] at h
  rw [get?, set, List.find?_map, hkey, h, Option.map_some, if_pos hpath.symm]

/-- A call for a file whose session is open is a request to that session. -/
theorem request_of_get? [Recovery] (h : c.get? path = some s) (t : FileTree) (r : Request) :
    c.request t path r = (((Session.registerSteps r).exec s).1, c.set (s.carryOut r)) := by
  rw [request, session, Work.outcome, exec_sessionSteps, h]
  rfl

/-- A request fails when it is refused. -/
theorem failure?_registerSteps (s : Session) (r : Request) :
    failure? ((Session.registerSteps r).exec s).1 = r.refusal? s.snapshot s.config.selector := by
  rcases Session.exec_registerSteps_cases s r with ⟨e, hrefusal, hexec⟩ | ⟨hrefusal, s', cs, hexec, _⟩
  · rw [hexec, hrefusal]
    rfl
  · rw [hexec, hrefusal]
    rfl

/-- Calls for a file whose session is open are requests to that session, one after the other. -/
theorem exists_serve_eq [Recovery] {κ : Type} (h : c.get? path = some s) (t : FileTree)
    (calls : List (κ × Request)) :
    (c.serve t path calls).2.get? path = some (s.carryOutAll (calls.map Prod.snd)) ∧
      (c.serve t path calls).1.map (Prod.map id failure?) =
        calls.map (Prod.map id (Request.refusal? s.snapshot s.config.selector)) := by
  -- Induction on the calls: each puts the session back where the next call finds it
  induction calls generalizing c s with
  | nil => exact ⟨h, rfl⟩
  | cons call calls ih =>
    obtain ⟨k, r⟩ := call
    obtain ⟨hsession, hfailures⟩ := ih (get?_set h (Session.path_carryOut s r))
    simp only [serve, request_of_get? h, List.map_cons]
    refine ⟨hsession, ?_⟩
    rw [hfailures, Session.snapshot_carryOut, Session.config_carryOut]
    exact congrArg (· :: _) (Prod.ext rfl (failure?_registerSteps s r))

section

variable {κ : Type} [DecidableEq κ]

/-- What is done to each call is done to those of one caller. -/
theorem ofCaller_map {α β : Type} (k : κ) (f : α → β) (calls : List (κ × α)) :
    ofCaller k (calls.map (Prod.map id f)) = (ofCaller k calls).map f := by
  rw [ofCaller, ofCaller, List.filter_map, List.map_map, List.map_map]
  rfl

/-- The same calls of each caller are the same calls in all. -/
theorem perm_of_ofCaller {calls calls' : List (κ × Request)}
    (h : ∀ k, ofCaller k calls = ofCaller k calls') : calls.Perm calls' := by
  -- A call stands as often among all calls as among those of its caller
  have hcount (calls : List (κ × Request)) (call : κ × Request) :
      calls.count call = (ofCaller call.1 calls).count call.2 := by
    rw [ofCaller, List.count_eq_countP, List.count_eq_countP, List.countP_map, List.countP_filter]
    congr 1
    funext other
    rw [Bool.eq_iff_iff]
    simp [Prod.ext_iff, and_comm]
  rw [List.perm_iff_count]
  intro call
  rw [hcount, hcount, h]

end

/-- Two sessions over one text have registered the same things. -/
structure SameWork (s s' : Session) : Prop where
  /-- The same names of modules, entries of slots and routes; blanks of entries and routes do not
  matter. -/
  registrations : (s.pending.registrations.map Registration.compacted).Perm
    (s'.pending.registrations.map Registration.compacted)
  once : (s.pending.registrations.map Registration.compacted).Nodup
  /-- The changes differ in their order, and each from its counterpart in how it is written. -/
  counterparts : ∃ cs, cs.Perm s'.pending ∧
    List.Forall₂ (Counterpart s.snapshot s.config.selector) s.pending cs

/-- Callers that share a new session, in any two orders of their calls: the same calls of each of them
fail, with the same errors, and the same things are registered. -/
theorem serve_in_any_order [Recovery] {κ : Type} [DecidableEq κ] {snapshot : Snapshot}
    {config : SessionConfig}
    (hnew : c.get? path = some (.start snapshot config)) (t : FileTree)
    {calls calls' : List (κ × Request)} (hcalls : ∀ k, ofCaller k calls = ofCaller k calls') :
    (∀ k, (ofCaller k (c.serve t path calls).1).map failure? =
      (ofCaller k (c.serve t path calls').1).map failure?) ∧
    ∃ s s', (c.serve t path calls).2.get? path = some s ∧
      (c.serve t path calls').2.get? path = some s' ∧ SameWork s s' := by
  obtain ⟨hsession, hfailures⟩ := exists_serve_eq hnew t calls
  obtain ⟨hsession', hfailures'⟩ := exists_serve_eq hnew t calls'
  refine ⟨fun k => ?_, _, _, hsession, hsession', ?_⟩
  · rw [← ofCaller_map, ← ofCaller_map, hfailures, hfailures', ofCaller_map, ofCaller_map, hcalls]
  -- Both pending lists are orderly and register the same, as the requests are the same but for
  -- their order
  · have horderly (rs : List Request) : Orderly snapshot config.selector
        ((Session.start snapshot config).carryOutAll rs).pending := by
      have h := Session.orderly_of_reached ((Session.Reached.start snapshot config).carryOutAll rs)
      rwa [(Session.reads_carryOutAll _ rs).1, (Session.reads_carryOutAll _ rs).2] at h
    have hsame (q : Registration) :
        ((Session.start snapshot config).carryOutAll (calls.map Prod.snd)).pending.registers q =
          ((Session.start snapshot config).carryOutAll (calls'.map Prod.snd)).pending.registers q := by
      rw [Session.registers_carryOutAll, Session.registers_carryOutAll,
        ((perm_of_ofCaller hcalls).map Prod.snd).any_eq]
    have hnamed (rs : List Request) :=
      Session.named_carryOutAll (s := Session.start snapshot config) (fun _ h => nomatch h) rs
    obtain ⟨honce, hperm⟩ := (horderly _).registrations_perm (horderly _) hsame
    refine ⟨hperm, honce, ?_⟩
    rw [(Session.reads_carryOutAll _ _).1, (Session.reads_carryOutAll _ _).2]
    exact (horderly _).exists_counterparts (horderly _) hsame (hnamed _) (hnamed _)

/-- Two callers ask for entries of the same slots, one of them also for a route that nobody can add.
Where the second caller comes first, the entries of the slot that is created stand the other way
round. -/
theorem serve_in_any_order_sample :
    let snapshot : Snapshot := .ofText "/m.ts" "@M(\x7bxs: []\x7d)class C\x7b\x7d"
    let config : SessionConfig := { importBase := ".", selector := .named "M" }
    let c : SessionCache := { config, sessions := [.start snapshot config] }
    let calls : List (Bool × Request) := [(true, .entry "zs" "P" none), (false, .entry "zs" "Q" none),
      (true, .entry "xs" "A" none), (false, .entry "xs" " A" none), (false, .route "r")]
    let calls' : List (Bool × Request) := [(false, .entry "zs" "Q" none), (false, .entry "xs" " A" none),
      (true, .entry "zs" "P" none), (false, .route "r"), (true, .entry "xs" "A" none)]
    ∃ s s', (c.serve .empty "/m.ts" calls).2.get? "/m.ts" = some s ∧
      (c.serve .empty "/m.ts" calls').2.get? "/m.ts" = some s' ∧ SameWork s s' ∧
      s.pending.map Change.text = [", zs: [P, Q]", "A"] ∧
      s'.pending.map Change.text = [", zs: [Q, P]", " A"] := by
  intro snapshot config c calls calls'
  have hpath : (Session.start snapshot config).path == Path.normalize "/m.ts" := by decide +kernel
  have hnew : c.get? "/m.ts" = some (.start snapshot config) := List.find?_cons_of_pos hpath
  have hcalls : ∀ k, ofCaller k calls = ofCaller k calls' := by decide +kernel
  have htexts : ((c.serve .empty "/m.ts" calls).2.get? "/m.ts").map
      (fun s => s.pending.map Change.text) = some [", zs: [P, Q]", "A"] := by decide +kernel
  have htexts' : ((c.serve .empty "/m.ts" calls').2.get? "/m.ts").map
      (fun s => s.pending.map Change.text) = some [", zs: [Q, P]", " A"] := by decide +kernel
  obtain ⟨_, s, s', hs, hs', hwork⟩ := serve_in_any_order hnew .empty hcalls
  rw [hs, Option.map_some, Option.some.injEq] at htexts
  rw [hs', Option.map_some, Option.some.injEq] at htexts'
  exact ⟨s, s', hs, hs', hwork, htexts, htexts'⟩

/-- Two callers import one name, one of them with braces and the other one without. The change that is
pending then is not the same in the two orders of their calls. -/
theorem import_form_depends_on_order :
    let snapshot : Snapshot := .ofText "/m.ts" "class C\x7b\x7d"
    let config : SessionConfig := { importBase := ".", selector := .named "M" }
    let c : SessionCache := { config, sessions := [.start snapshot config] }
    let calls : List (Bool × Request) :=
      [(true, .imported ⟨"A", "m", true⟩), (false, .imported ⟨"A", "m", false⟩)]
    let calls' : List (Bool × Request) :=
      [(false, .imported ⟨"A", "m", false⟩), (true, .imported ⟨"A", "m", true⟩)]
    (∀ k, ofCaller k calls = ofCaller k calls') ∧
      ∃ s s', (c.serve .empty "/m.ts" calls).2.get? "/m.ts" = some s ∧
        (c.serve .empty "/m.ts" calls').2.get? "/m.ts" = some s' ∧
        s.pending.map Change.text = ["import A from 'm';\n"] ∧
        s'.pending.map Change.text = ["import \x7b A \x7d from 'm';\n"] ∧
        ¬ s.pending.Perm s'.pending := by
  intro snapshot config c calls calls'
  have hcalls : ∀ k, ofCaller k calls = ofCaller k calls' := by decide +kernel
  have hpath : (Session.start snapshot config).path == Path.normalize "/m.ts" := by decide +kernel
  have hnew : c.get? "/m.ts" = some (.start snapshot config) := List.find?_cons_of_pos hpath
  have hs := (exists_serve_eq hnew .empty calls).1
  have hs' := (exists_serve_eq hnew .empty calls').1
  have htexts :
      ((Session.start snapshot config).carryOutAll (calls.map Prod.snd)).pending.map Change.text =
        ["import A from 'm';\n"] := by decide +kernel
  have htexts' :
      ((Session.start snapshot config).carryOutAll (calls'.map Prod.snd)).pending.map Change.text =
        ["import \x7b A \x7d from 'm';\n"] := by decide +kernel
  refine ⟨hcalls, _, _, hs, hs', htexts, htexts', fun hperm => ?_⟩
  -- Each of the two lists is one change, and these have other texts
  have htextsPerm := hperm.map Change.text
  rw [htexts, htexts', List.perm_singleton] at htextsPerm
  exact absurd htextsPerm (by decide)

end SessionCache

end Enlist
