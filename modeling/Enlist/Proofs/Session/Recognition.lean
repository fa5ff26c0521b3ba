import Enlist.Proofs.Session.Reached

/-!
# What a session recognises

A session recognises a registration when its text has it or a pending change is for it, and nothing else
decides whether a request takes a change: what is recognised takes none, and what is not is recognised
from then on. This holds of any pending changes, also of those that were put in by hand.

## Key results

- `answers_decideImport` / `answers_decideEntry` / `answers_decideRoute`: what is decided for a
  registration
- `exec_registerSteps_cases`: a request is refused, or answers its registrations one after the other
- `Answered.registers_eq`: what is registered after a request
- `register_again`: a request that is made again does nothing
-/

namespace Enlist

open Edit Imports Metadata Store Syntax

/-- What a request asks to be in the text, in the order in which that is decided. -/
def Request.registrations : Request → List Registration
  | .entry slot symbol none => [.entry slot symbol]
  | .entry slot symbol (some module) =>
    [.binding (Session.rootIdentifier symbol) module, .entry slot symbol]
  | .imported r => [.binding r.symbol r.module]
  | .route literal => [.route (Session.trimmedRoute literal)]

/-- What a request is refused with. That depends on the text and not on what is pending. -/
def Request.refusal? (s : Snapshot) (sel : Selector) : Request → Option SessionError
  | .entry slot _ _ =>
    match locateSlot s sel slot with
    | .ok _ => none
    | .error e => some (.resolve e)
  | .imported _ => none
  | .route _ =>
    match locateRoutes s sel with
    | .ok _ => none
    | .error e => some (.resolve e)

/-- A decision that takes no change leaves what is pending as it is. -/
theorem Decision.perform_of_change?_eq_none {d : Decision} (h : d.change? = none) (cs : ChangeSet) :
    d.perform cs = cs := by
  cases d with
  | present | pending => rfl
  | append | extend => exact nomatch h

/-- A decision that takes no change leaves the session as it is. -/
theorem Session.perform_of_change?_eq_none {s : Session} {d : Decision} (h : d.change? = none) :
    s.perform d = s := by
  cases d with
  | present | pending => rfl
  | append | extend => exact nomatch h

namespace Session

/-! ## One registration -/

/-- The text has what is registered, or a pending change is for it. -/
def recognises (s : Session) (r : Registration) : Bool :=
  s.snapshot.holds s.config.selector r || s.pending.registers r

/-- A decision answers a registration: it takes nothing when the session recognises it, and otherwise a
change that names it last. -/
structure Answers (s : Session) (r : Registration) (d : Decision) : Prop where
  settles : s.Settles d
  change?_eq_none_iff : d.change? = none ↔ s.recognises r = true
  names : ∀ c, d.change? = some c → c.origin.registrations.getLast? = some r

variable {s s' : Session} {r q : Registration} {d : Decision}

/-- What is decided for an import answers for the name it binds. -/
theorem answers_decideImport (s : Session) (r : ImportRequest) :
    s.Answers (.binding r.symbol r.module) (s.decideImport r) := by
  refine ⟨settles_decideImport s r, ?_, fun c hc => ?_⟩
  -- What is pending is asked first, then what the text has
  · rw [recognises, registers_binding, decideImport, ImportTable.ensure, Snapshot.holds,
      ImportRequest.origin]
    cases s.pending.containsOrigin (.importOf r.symbol r.module) with
    | true => simp [Decision.change?]
    | false => cases s.snapshot.imports.isImported r.symbol r.module <;> simp [Decision.change?]
  · rw [decideImport] at hc
    split at hc
    case isTrue => cases hc
    case isFalse =>
      rw [ImportTable.ensure] at hc
      cases himported : s.snapshot.imports.isImported r.symbol r.module with
      | true => simp [himported, Decision.change?] at hc
      | false =>
        simp only [himported, Bool.false_eq_true, if_false, Decision.change?, Option.some.injEq] at hc
        rw [← hc, origin_satisfy]
        rfl

/-- A located slot has the entries that the text has. -/
theorem contains_of_locateSlot {slot : String} {l : SlotLocation}
    (hl : locateSlot s.snapshot s.config.selector slot = .ok l) (e : String) :
    l.contains e = s.snapshot.holds s.config.selector (.entry slot e) := by
  obtain ⟨d, hd, ⟨habsent, rfl⟩ | ⟨array, harray, rfl⟩⟩ := locateSlot_cases hl
  · simp only [Snapshot.holds, hd, writtenEntries_of_isAbsent habsent]
    rfl
  · simp only [Snapshot.holds, hd, writtenEntries_of_slotArray? harray, contains_locateInArray]

/-- The slot that is located is the one that was asked for. -/
theorem slot_of_locateSlot {slot : String} {l : SlotLocation}
    (hl : locateSlot s.snapshot s.config.selector slot = .ok l) : l.slot = slot := by
  obtain ⟨_, _, ⟨_, rfl⟩ | ⟨_, _, rfl⟩⟩ := locateSlot_cases hl <;> rfl

/-- The change for an entry names the entry last, also where it creates the slot with others. -/
private theorem names_decideEntry {l : SlotLocation} {e : String} {c : Change}
    (hc : (s.decideEntry l e).change? = some c) :
    c.origin.registrations.getLast? = some (.entry l.slot e) := by
  -- A change is made only when the entry is neither there nor pending
  rw [decideEntry] at hc
  split at hc
  case isTrue => cases hc
  case isFalse =>
    split at hc
    case isTrue => cases hc
    case isFalse =>
      split at hc
      case isTrue =>
        rw [decideCreation] at hc
        split at hc <;>
        · obtain rfl := Option.some.inj hc
          simp [creationChange, Change.describedAs, Origin.registrations]
      case isFalse =>
        obtain rfl := Option.some.inj hc
        simp [entryChange, Change.describedAs, Origin.registrations]

/-- What is decided for an entry answers for that entry. -/
theorem answers_decideEntry {slot : String} {l : SlotLocation}
    (hl : locateSlot s.snapshot s.config.selector slot = .ok l) (e : String) :
    s.Answers (.entry slot e) (s.decideEntry l e) := by
  have hslot := slot_of_locateSlot hl
  refine ⟨settles_decideEntry hl e, ?_, fun c hc => hslot ▸ names_decideEntry hc⟩
  have hpending : s.isPendingEntry l.slot e = s.pending.registers (.entry slot e) := by
    -- The two checks of the session are the two halves of recognising the entry
    rw [hslot, registers_entry]
    rfl
  rw [recognises, decideEntry, contains_of_locateSlot hl, hpending]
  cases s.snapshot.holds s.config.selector (.entry slot e) with
  | true => simp [Decision.change?]
  | false =>
    cases s.pending.registers (.entry slot e) with
    | true => simp [Decision.change?]
    | false =>
      simp only [Bool.false_eq_true, if_false, Bool.or_self, iff_false, decideCreation]
      split
      · split <;> simp [Decision.change?]
      · simp [Decision.change?]

/-- What is decided for a route answers for that route. -/
theorem answers_decideRoute {l : SlotLocation}
    (hl : locateRoutes s.snapshot s.config.selector = .ok l) (literal : String) :
    s.Answers (.route literal) (s.decideRoute l literal) := by
  have hsettles := settles_decideRoute hl literal
  obtain ⟨array, harray, rfl⟩ := locateRoutes_eq_ok_iff.1 hl
  have hholds : s.snapshot.holds s.config.selector (.route literal) =
      (array.namedChildren.map (Syntax.Node.source s.snapshot.chars)).any
        (Text.sameUpToBlanks · literal) := by
    simp only [Snapshot.holds, harray]
  refine ⟨hsettles, ?_, fun c hc => ?_⟩
  -- A literal that is there or pending makes no change, and any other one makes one
  · rw [recognises, hholds, registers_route, decideRoute_eq]
    split
    case isTrue h => simp [h, Decision.change?]
    case isFalse h =>
      split
      case isTrue h' => simp [h', Decision.change?]
      case isFalse h' => simp [h, h', Decision.change?]
  · rw [decideRoute_eq] at hc
    split at hc
    case isTrue => cases hc
    case isFalse =>
      split at hc
      case isTrue => cases hc
      case isFalse =>
        obtain rfl := Option.some.inj hc
        rw [origin_routeAddition]
        rfl

/-- A change that is recorded behind the others is for what is registered alone. -/
theorem Answers.registrations_of_append {c : Change} (h : s.Answers r (.append c)) :
    c.origin.registrations = [r] := by
  have hnamed := h.names c rfl
  cases h.settles with
  | append horigin =>
    rw [horigin, List.getLast?_singleton] at hnamed
    rw [horigin, Option.some.inj hnamed]

/-- A change that is recorded in the place of another one creates the same slot, with one entry more. -/
theorem Answers.exists_of_extend {i : Nat} {c' : Change} (h : s.Answers r (.extend i c')) :
    ∃ front c back slot es e, s.pending = front ++ c :: back ∧ i = front.length ∧
      c.origin = .slotCreation slot es ∧ c'.origin = .slotCreation slot (es ++ [e]) ∧
      r = .entry slot e := by
  have hnamed := h.names c' rfl
  cases h.settles with
  | @extend front back c _ slot e es hparts hwas hbecomes =>
    rw [hbecomes, Origin.registrations, List.map_append, List.map_singleton, List.getLast?_concat] at hnamed
    exact ⟨front, c, back, slot, es, e, hparts, rfl, hwas, hbecomes, (Option.some.inj hnamed).symm⟩

/-- What is not recognised is registered in addition, and what is recognised changes nothing. -/
theorem Answers.registrations_perm (h : s.Answers r d) :
    (s.perform d).pending.registrations.Perm
      (if s.recognises r then s.pending.registrations else r :: s.pending.registrations) := by
  cases hr : s.recognises r with
  | true =>
    rw [perform_of_change?_eq_none (h.change?_eq_none_iff.2 hr)]
    exact .refl _
  | false =>
    have hsome : d.change? ≠ none := fun hnone => by
      rw [h.change?_eq_none_iff.1 hnone] at hr
      exact nomatch hr
    rw [pending_perform]
    -- What the change names last is all that it adds to what was registered
    cases d with
    | present => exact absurd rfl hsome
    | pending => exact absurd rfl hsome
    | append c => exact s.pending.registrations_push h.registrations_of_append
    | extend i c' =>
      obtain ⟨front, c, back, slot, es, e, hparts, rfl, hwas, hbecomes, rfl⟩ := h.exists_of_extend
      rw [hparts, Decision.perform_extend]
      exact ChangeSet.registrations_extend front back hwas hbecomes

/-- Afterwards what is registered is what was, and the registration itself unless the text has it. -/
theorem Answers.registers_eq (h : s.Answers r d) (q : Registration) :
    (s.perform d).pending.registers q =
      (s.pending.registers q || (!s.snapshot.holds s.config.selector r && r.same q)) := by
  rw [ChangeSet.registers_of_perm h.registrations_perm]
  cases hheld : s.snapshot.holds s.config.selector r with
  | true => simp [recognises, hheld, ChangeSet.registers]
  | false =>
    rw [recognises, hheld, Bool.false_or]
    cases hpending : s.pending.registers r with
    | false => simp [ChangeSet.registers, Bool.or_comm]
    | true =>
      -- What is registered already comes to the same, so it answers for `q` too
      cases hsame : r.same q with
      | false => simp [ChangeSet.registers]
      | true =>
        obtain ⟨a, ha, har⟩ := List.any_eq_true.1 hpending
        have hq : s.pending.registers q = true :=
          List.any_eq_true.2 ⟨a, ha, by rw [Registration.same_congr har, hsame]⟩
        simpa [ChangeSet.registers] using hq

/-! ## One request -/

/-- The registrations are answered one after the other, with the changes that are taken for them. -/
inductive Answered : Session → List Registration → Session → List Change → Prop where
  | nil (s : Session) : Answered s [] s []
  | cons {s s' : Session} {r : Registration} {rs : List Registration} {d : Decision}
      {cs : List Change} (first : s.Answers r d) (rest : Answered (s.perform d) rs s' cs) :
      Answered s (r :: rs) s' (d.change?.toList ++ cs)

/-- One decision answers one registration. -/
theorem Answered.single (h : s.Answers r d) : Answered s [r] (s.perform d) d.change?.toList := by
  have hanswered := Answered.cons h (.nil _)
  rwa [List.append_nil] at hanswered

/-- A request is refused and leaves the session as it is, or it answers its registrations one after the
other. -/
theorem exec_registerSteps_cases (s : Session) (q : Request) :
    (∃ e, q.refusal? s.snapshot s.config.selector = some e ∧
      (registerSteps q).exec s = (.error e, s)) ∨
    q.refusal? s.snapshot s.config.selector = none ∧
      ∃ s' cs, (registerSteps q).exec s = (.ok cs, s') ∧ Answered s q.registrations s' cs := by
  rw [exec_registerSteps, Request.refusal?.eq_def]
  cases q with
  | entry slot symbol module =>
    dsimp only
    cases hl : locateSlot s.snapshot s.config.selector slot with
    | error e => exact .inl ⟨.resolve e, rfl, rfl⟩
    | ok l =>
      refine .inr ⟨rfl, _, _, rfl, ?_⟩
      cases module with
      | none => exact .single (answers_decideEntry hl symbol)
      | some m =>
        -- The entry is decided in the session that has the import
        have hl' : locateSlot (s.perform (s.decideImport (entryImport symbol m))).snapshot
            (s.perform (s.decideImport (entryImport symbol m))).config.selector slot = .ok l := by
          simpa using hl
        exact .cons (answers_decideImport s (entryImport symbol m))
          (.single (answers_decideEntry hl' symbol))
  | imported r => exact .inr ⟨rfl, _, _, rfl, .single (answers_decideImport s r)⟩
  | route literal =>
    dsimp only
    cases hl : locateRoutes s.snapshot s.config.selector with
    | error e => exact .inl ⟨.resolve e, rfl, rfl⟩
    | ok l => exact .inr ⟨rfl, _, _, rfl, .single (answers_decideRoute hl (trimmedRoute literal))⟩

variable {rs : List Registration} {cs : List Change}

/-- A request changes neither the snapshot nor the configuration. -/
theorem Answered.keeps (h : Answered s rs s' cs) :
    s'.snapshot = s.snapshot ∧ s'.config = s.config := by
  induction h with
  | nil => exact ⟨rfl, rfl⟩
  | cons _ _ ih => exact ⟨ih.1.trans (snapshot_perform _ _), ih.2.trans (config_perform _ _)⟩

/-- What is registered after a request. -/
theorem Answered.registers_eq (h : Answered s rs s' cs) (q : Registration) :
    s'.pending.registers q =
      (s.pending.registers q ||
        rs.any fun r => !s.snapshot.holds s.config.selector r && r.same q) := by
  induction h with
  | nil => simp
  | cons first _ ih =>
    rw [ih, first.registers_eq, snapshot_perform, config_perform, List.any_cons, Bool.or_assoc]

/-- What was recognised before a request is recognised after it. -/
theorem Answered.recognises_mono (h : Answered s rs s' cs) (hq : s.recognises q = true) :
    s'.recognises q = true := by
  rw [recognises, Bool.or_eq_true] at hq
  rw [recognises, h.keeps.1, h.keeps.2, h.registers_eq]
  rcases hq with hq | hq <;> simp [hq]

/-- After a request all that it asks for is recognised. -/
theorem Answered.recognises_of_mem (h : Answered s rs s' cs) (hq : q ∈ rs) :
    s'.recognises q = true := by
  rw [recognises, h.keeps.1, h.keeps.2, h.registers_eq]
  cases hheld : s.snapshot.holds s.config.selector q with
  | true => rfl
  | false =>
    have hany : (rs.any fun r => !s.snapshot.holds s.config.selector r && r.same q) = true :=
      List.any_eq_true.2 ⟨q, hq, by simp [hheld]⟩
    simp [hany]

/-- A request for nothing but what is recognised does nothing. -/
theorem Answered.eq_of_recognises (h : Answered s rs s' cs)
    (hrs : ∀ r ∈ rs, s.recognises r = true) : s' = s ∧ cs = [] := by
  induction h with
  | nil => exact ⟨rfl, rfl⟩
  | cons first _ ih =>
    obtain ⟨hr, hrs⟩ := List.forall_mem_cons.1 hrs
    have hnone := first.change?_eq_none_iff.2 hr
    rw [perform_of_change?_eq_none hnone] at ih
    obtain ⟨rfl, rfl⟩ := ih hrs
    exact ⟨rfl, by rw [hnone]; rfl⟩

/-- What a session recognises it recognises after any request. -/
theorem recognises_carryOut (hq : s.recognises q = true) (r : Request) :
    (s.carryOut r).recognises q = true := by
  rw [carryOut]
  rcases exec_registerSteps_cases s r with ⟨e, _, hexec⟩ | ⟨_, s', cs, hexec, hanswered⟩
  · rw [hexec]
    exact hq
  · rw [hexec]
    exact hanswered.recognises_mono hq

/-! ## Moves that drop nothing -/

/-- The move drops what is pending. -/
def Move.drops : Move → Bool
  | .discard | .refresh _ => true
  | _ => false

/-- A move that drops nothing keeps the text and what is recognised. -/
theorem keeps_move [Recovery] (s : Session) {m : Move} (hm : m.drops = false) :
    (s.move m).snapshot = s.snapshot ∧ (s.move m).config = s.config ∧
      ∀ q, s.recognises q = true → (s.move m).recognises q = true := by
  -- Only what is dropped is forgotten, so requests and commits keep all
  cases m with
  | register r =>
    exact ⟨snapshot_carryOut s r, config_carryOut s r, fun q hq => recognises_carryOut hq r⟩
  | registerIn slot symbol suffix =>
    exact ⟨snapshot_carryOut s _, config_carryOut s _, fun q hq => recognises_carryOut hq _⟩
  | commit t =>
    obtain ⟨state, last, hmove⟩ := exists_move_commit_eq s t
    rw [hmove]
    exact ⟨rfl, rfl, fun q hq => hq⟩
  | discard => exact nomatch hm
  | refresh t => exact nomatch hm

/-- So does any number of them. -/
theorem keeps_moveAll [Recovery] (s : Session) {ms : List Move} (hms : ∀ m ∈ ms, m.drops = false) :
    (s.moveAll ms).snapshot = s.snapshot ∧ (s.moveAll ms).config = s.config ∧
      ∀ q, s.recognises q = true → (s.moveAll ms).recognises q = true := by
  induction ms generalizing s with
  | nil => exact ⟨rfl, rfl, fun q hq => hq⟩
  | cons m ms ih =>
    obtain ⟨hm, hms⟩ := List.forall_mem_cons.1 hms
    obtain ⟨hsnapshot, hconfig, hmono⟩ := s.keeps_move hm
    obtain ⟨hsnapshot', hconfig', hmono'⟩ := ih (s.move m) hms
    exact ⟨hsnapshot'.trans hsnapshot, hconfig'.trans hconfig, fun q hq => hmono' q (hmono q hq)⟩

/-- A request that was carried out is carried out again, at once or after further requests and commits,
and then does nothing: it takes no change and leaves the session as it is. The pending changes may be
any, also ones that no request makes. -/
theorem register_again [Recovery] {s s' : Session} {r : Request} {cs : List Change}
    (h : (registerSteps r).exec s = (.ok cs, s')) {ms : List Move}
    (hms : ∀ m ∈ ms, m.drops = false) :
    (registerSteps r).exec (s'.moveAll ms) = (.ok [], s'.moveAll ms) := by
  rcases exec_registerSteps_cases s r with ⟨e, _, hexec⟩ | ⟨hrefusal, s₁, cs₁, hexec, hanswered⟩
  · rw [h] at hexec
    exact nomatch (Prod.mk.inj hexec).1
  · obtain rfl : s' = s₁ := (Prod.mk.inj (h.symm.trans hexec)).2
    obtain ⟨hsnapshot, hconfig, hmono⟩ := s'.keeps_moveAll hms
    -- The text is the same, so the request is not refused now either
    rw [← hanswered.keeps.1, ← hanswered.keeps.2, ← hsnapshot, ← hconfig] at hrefusal
    rcases exec_registerSteps_cases (s'.moveAll ms) r with
      ⟨e, hrefused, _⟩ | ⟨_, s₂, cs₂, hexec₂, hagain⟩
    · rw [hrefusal] at hrefused
      exact nomatch hrefused
    · obtain ⟨rfl, rfl⟩ := hagain.eq_of_recognises fun q hq => hmono q (hanswered.recognises_of_mem hq)
      exact hexec₂

/-- A request that succeeds leaves the session that carries it out. -/
private theorem exec_registerSteps_of_ok {s : Session} {r : Request} {cs : List Change}
    (h : ((registerSteps r).exec s).1 = .ok cs) :
    (registerSteps r).exec s = (.ok cs, s.carryOut r) :=
  Prod.ext h rfl

/-- The pending changes were put in by hand: two of them create one slot, and one is for nothing. The
entry that is asked for joins the first creation, and is still recognised there after another entry and
a commit. -/
theorem register_again_sample :
    let snapshot : Snapshot := .ofText "/m.ts" "@M(\x7bxs: [A]\x7d)class C\x7b\x7d"
    let config : SessionConfig := { importBase := ".", selector := .named "M" }
    let pending : ChangeSet := [.insertAfter 11 ", zs: [P]" (.slotCreation "zs" ["P"]),
      .make 0 (.remove 40) "" .manual, .insertAfter 11 ", zs: [Q]" (.slotCreation "zs" ["Q"])]
    let s := (start snapshot config).override pending
    let r : Request := .entry "zs" "R()" (some "./r")
    let t : FileTree :=
      { files := (∅ : Std.TreeMap String ByteArray).insert "/m.ts" snapshot.text.toUTF8, commits := 0 }
    let later := (s.carryOut r).moveAll [.register (.entry "zs" "S" none), .commit t]
    (∃ cs, (registerSteps r).exec s = (.ok cs, s.carryOut r) ∧ cs.length = 2) ∧
      (registerSteps r).exec later = (.ok [], later) ∧
      later.pending.map (fun c => c.origin.entriesIn "zs") = [["P", "R()", "S"], [], ["Q"], []] := by
  intro snapshot config pending s r t later
  have hlength : ((registerSteps r).exec s).1.toOption.map List.length = some 2 := by decide +kernel
  have hlater : later.pending.map (fun c => c.origin.entriesIn "zs") =
      [["P", "R()", "S"], [], ["Q"], []] := by decide +kernel
  cases hcs : ((registerSteps r).exec s).1 with
  | error e =>
    rw [hcs] at hlength
    exact nomatch hlength
  | ok cs =>
    -- The request takes effect, and is made again behind two more moves
    rw [hcs] at hlength
    have h := exec_registerSteps_of_ok hcs
    have hms : ∀ m ∈ [Move.register (.entry "zs" "S" none), .commit t], m.drops = false := by
      simp [Move.drops]
    exact ⟨⟨cs, h, Option.some.inj hlength⟩, register_again h hms, hlater⟩

end Session

end Enlist
