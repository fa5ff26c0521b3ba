import Enlist.Proofs.Session.Recognition
import Enlist.Proofs.Syntax.Walk

/-!
# Entries that are taken for one another

A request for an entry of a slot or for a route takes no change when an entry like it is in the text or
pending. `Text.Respaced` says which entries are alike: those that come from one another by putting in
and leaving out blanks, wherever the blanks stand. So entries that differ in any other character are never
taken for one another, and entries that differ in blanks only are, also where a blank inside a string
literal or between two words makes other tokens of them.

## Key results

- `Text.respaced_iff`: what is left without the blanks decides
- `recognises_entry_iff` / `recognises_route_iff`: what a session recognises of a slot or of the routes
- `takes_nothing_iff`: when a request takes no change for an entry or a route
- `dropped_with_other_tokens`: a route is dropped for one whose path is another string
-/

namespace Enlist

open Edit Metadata Syntax

/-! ## Texts up to blanks -/

namespace Text

/-- One text comes from the other by putting in and leaving out blanks. -/
inductive Respaced : List Char → List Char → Prop where
  | nil : Respaced [] []
  | keep (c : Char) {as bs : List Char} (rest : Respaced as bs) : Respaced (c :: as) (c :: bs)
  | leaveOut {c : Char} {as bs : List Char} (blank : isBlank c = true) (rest : Respaced as bs) :
      Respaced (c :: as) bs
  | putIn {c : Char} {as bs : List Char} (blank : isBlank c = true) (rest : Respaced as bs) :
      Respaced as (c :: bs)

theorem compact_cons (c : Char) (cs : List Char) :
    compact (c :: cs) = if isBlank c = true then compact cs else c :: compact cs := by
  cases h : isBlank c <;> simp [compact, h]

/-- What consists of blanks differs from nothing by blanks only. -/
private theorem respaced_nil_left : ∀ {bs : List Char}, compact bs = [] → Respaced [] bs
  | [], _ => .nil
  | b :: bs, h => by
    rw [compact_cons] at h
    split at h
    case isTrue hb => exact .putIn hb (respaced_nil_left h)
    case isFalse => exact nomatch h

/-- A text whose first character is no blank has it in front of all others that are none. -/
private theorem respaced_cons_left {c : Char} {as : List Char} (hc : ¬isBlank c = true)
    (ih : ∀ {bs : List Char}, compact as = compact bs → Respaced as bs) :
    ∀ {bs : List Char}, c :: compact as = compact bs → Respaced (c :: as) bs
  | [], h => nomatch h
  | b :: bs, h => by
    rw [compact_cons] at h
    split at h
    case isTrue hb => exact .putIn hb (respaced_cons_left hc ih h)
    case isFalse =>
      obtain ⟨rfl, hrest⟩ := List.cons.inj h
      exact .keep c (ih hrest)

/-- Texts come from one another by putting in and leaving out blanks when they agree without them. -/
theorem respaced_iff {as bs : List Char} : Respaced as bs ↔ compact as = compact bs := by
  constructor
  · intro h
    induction h with
    | nil => rfl
    | keep c _ ih => rw [compact_cons, compact_cons, ih]
    | leaveOut hc _ ih => rw [compact_cons, if_pos hc, ih]
    | putIn hc _ ih => rw [compact_cons, if_pos hc, ih]
  -- The blanks of the first text are left out as they come, those of the other in front of each kept one
  · intro h
    induction as generalizing bs with
    | nil => exact respaced_nil_left h.symm
    | cons a as ih =>
      rw [compact_cons] at h
      split at h
      case isTrue ha => exact .leaveOut ha (ih h)
      case isFalse ha => exact respaced_cons_left ha ih h

private theorem compact_dropWhile (cs : List Char) : compact (cs.dropWhile isBlank) = compact cs := by
  induction cs with
  | nil => rfl
  | cons c cs ih =>
    rw [List.dropWhile_cons]
    split
    case isTrue hc => rw [ih, compact_cons, if_pos hc]
    case isFalse => rfl

private theorem compact_reverse (cs : List Char) : compact cs.reverse = (compact cs).reverse :=
  List.filter_reverse

@[simp] theorem compact_trim (cs : List Char) : compact (trim cs) = compact cs := by
  rw [trim, compact_reverse, compact_dropWhile, compact_reverse, compact_dropWhile, List.reverse_reverse]

/-- Texts are taken for the same exactly if they differ by blanks only. -/
theorem sameUpToBlanks_iff_respaced {a b : String} :
    sameUpToBlanks a b = true ↔ Respaced a.toList b.toList := by
  rw [sameUpToBlanks, beq_iff_eq, respaced_iff]

end Text

namespace Session

/-! ## What a session recognises -/

/-- The entries of a slot that the text has or that pending changes add. -/
def listedEntries (s : Session) (slot : String) : List String :=
  (match locateDeclaration s.snapshot s.config.selector with
    | .ok d => writtenEntries s.snapshot.chars d.metadata slot
    | .error _ => []) ++
  s.pending.flatMap fun c => c.origin.entriesIn slot

/-- The routes that the text has or that pending changes add. -/
def listedRoutes (s : Session) : List String :=
  (match routesOf? s.snapshot s.config.selector with
    | some array => array.namedChildren.map (Node.source s.snapshot.chars)
    | none => []) ++
  s.pending.filterMap fun c => c.origin.route?

/-- An entry is recognised exactly if one that is listed differs from it by blanks only. -/
theorem recognises_entry_iff {s : Session} {slot e : String} :
    s.recognises (.entry slot e) = true ↔
      ∃ e' ∈ s.listedEntries slot, Text.Respaced e'.toList e.toList := by
  have h : s.recognises (.entry slot e) = (s.listedEntries slot).any (Text.sameUpToBlanks · e) := by
    rw [recognises, registers_entry, listedEntries, List.any_append, List.any_flatMap, Snapshot.holds]
    cases locateDeclaration s.snapshot s.config.selector <;> rfl
  simp only [h, List.any_eq_true, Text.sameUpToBlanks_iff_respaced]

/-- A route is recognised exactly if one that is listed differs from it by blanks only. -/
theorem recognises_route_iff {s : Session} {literal : String} :
    s.recognises (.route literal) = true ↔
      ∃ r ∈ s.listedRoutes, Text.Respaced r.toList literal.toList := by
  have h : s.recognises (.route literal) = s.listedRoutes.any (Text.sameUpToBlanks · literal) := by
    rw [recognises, registers_route, listedRoutes, List.any_append, Snapshot.holds]
    cases routesOf? s.snapshot s.config.selector <;> rfl
  simp only [h, List.any_eq_true, Text.sameUpToBlanks_iff_respaced]

/-! ## What a request takes -/

variable {s : Session} {r : Registration} {d : Decision}

/-- The entries of a change are among its registrations. -/
theorem entriesIn_eq_filterMap (o : Origin) (slot : String) :
    o.entriesIn slot = o.registrations.filterMap (Registration.entryIn? slot) := by
  have h := filterMap_entryIn? [Change.make 0 .insertBefore "" o] slot
  rw [ChangeSet.registrations, List.flatMap_singleton, List.flatMap_singleton] at h
  exact h.symm

/-- A decision for an entry takes no change for its slot exactly when the entry is recognised. -/
theorem Answers.entriesIn_eq_nil_iff {slot e : String} (h : s.Answers (.entry slot e) d) :
    (∀ c ∈ d.change?.toList, c.origin.entriesIn slot = []) ↔ s.recognises (.entry slot e) = true := by
  rw [← h.change?_eq_none_iff]
  cases hd : d.change? with
  | none => simp
  | some c =>
    have hnamed := List.mem_of_getLast? (h.names c hd)
    have hentry : e ∈ c.origin.entriesIn slot := by
      rw [entriesIn_eq_filterMap]
      exact List.mem_filterMap.2 ⟨_, hnamed, by simp [Registration.entryIn?]⟩
    simpa using List.ne_nil_of_mem hentry

/-- A decision for a name that is imported takes no change for a slot. -/
theorem Answers.entriesIn_of_binding {symbol module : String} (h : s.Answers (.binding symbol module) d)
    (slot : String) : ∀ c ∈ d.change?.toList, c.origin.entriesIn slot = [] := by
  intro c hc
  have hnamed := h.names c (Option.mem_toList.1 hc)
  cases ho : c.origin with
  | slotEntry | slotCreation =>
    rw [ho] at hnamed
    simp [Origin.registrations] at hnamed
  | importOf | route | manual => rfl

/-- A name that is imported makes no difference for what is recognised of a slot. -/
theorem Answers.recognises_entry_of_binding {symbol module slot e : String}
    (h : s.Answers (.binding symbol module) d) :
    (s.perform d).recognises (.entry slot e) = s.recognises (.entry slot e) := by
  rw [recognises, recognises, h.registers_eq, snapshot_perform, config_perform]
  simp [Registration.same]

/-- Nothing is recorded for an entry exactly if it is recognised. -/
private theorem Answered.entriesIn_eq_nil_iff {s s' : Session} {slot e : String}
    {module : Option String}
    {cs : List Change} (h : Answered s (Request.entry slot e module).registrations s' cs) :
    (∀ c ∈ cs, c.origin.entriesIn slot = []) ↔ s.recognises (.entry slot e) = true := by
  cases module with
  | none =>
    obtain - | ⟨hentry, - | -⟩ := h
    rw [List.append_nil]
    exact hentry.entriesIn_eq_nil_iff
  | some m =>
    obtain - | ⟨himport, - | ⟨hentry, - | -⟩⟩ := h
    -- The entry is decided behind the import, which is for no slot
    rw [List.append_nil, List.forall_mem_append, hentry.entriesIn_eq_nil_iff,
      himport.recognises_entry_of_binding]
    exact and_iff_right (himport.entriesIn_of_binding slot)

/-- Nothing is recorded for a route exactly if it is recognised. -/
private theorem Answered.eq_nil_iff {s s' : Session} {literal : String} {cs : List Change}
    (h : Answered s (Request.route literal).registrations s' cs) :
    cs = [] ↔ s.recognises (.route (trimmedRoute literal)) = true := by
  obtain - | ⟨hroute, - | -⟩ := h
  rw [List.append_nil, ← hroute.change?_eq_none_iff, Option.toList_eq_nil_iff]

/-- In every session, whatever is pending, a request for an entry is carried out without a change for its
slot exactly when the slot is located and an entry that differs from it in blanks only is in the text
or pending, and a request for a route is carried out without a change exactly when the routes are
located and a route that differs from it in blanks only is in the text or pending. -/
theorem takes_nothing_iff (s : Session) :
    (∀ slot e module,
      (∃ cs, ((registerSteps (.entry slot e module)).exec s).1 = .ok cs ∧
          ∀ c ∈ cs, c.origin.entriesIn slot = []) ↔
        (Request.entry slot e module).refusal? s.snapshot s.config.selector = none ∧
          ∃ e' ∈ s.listedEntries slot, Text.Respaced e'.toList e.toList) ∧
    ∀ literal,
      ((registerSteps (.route literal)).exec s).1 = .ok [] ↔
        (Request.route literal).refusal? s.snapshot s.config.selector = none ∧
          ∃ r ∈ s.listedRoutes, Text.Respaced r.toList literal.toList := by
  refine ⟨fun slot e module => ?_, fun literal => ?_⟩
  · rcases exec_registerSteps_cases s (.entry slot e module) with
      ⟨error, hrefusal, hexec⟩ | ⟨hrefusal, s', cs, hexec, hanswered⟩
    · simp [hrefusal, hexec]
    · rw [← recognises_entry_iff, ← hanswered.entriesIn_eq_nil_iff, hexec]
      simp [hrefusal]
  · rcases exec_registerSteps_cases s (.route literal) with
      ⟨error, hrefusal, hexec⟩ | ⟨hrefusal, s', cs, hexec, hanswered⟩
    · simp [hrefusal, hexec]
    -- What is recorded is the literal without the blanks around it
    · have hliteral (r : String) :
          Text.Respaced r.toList literal.toList ↔
            Text.Respaced r.toList (trimmedRoute literal).toList := by
        rw [Text.respaced_iff, Text.respaced_iff, trimmedRoute, String.toList_ofList, Text.compact_trim]
      simp only [hliteral, ← recognises_route_iff, ← hanswered.eq_nil_iff, hexec, hrefusal,
        Except.ok.injEq, true_and]

/-! ## Tokens -/

/-- The tokens of an expression: the leaves of its tree, without comments. -/
def tokens (e : String) : List String :=
  let text := ("(" ++ e ++ ")").toList
  let nodes := ((SyntaxTree.statements? text).getD []).flatMap Node.nodes
  (nodes.filter fun n => n.children.isEmpty && !n.kind.isExtra).map (Node.source text)

/-- The tokens do not decide: a route is dropped though no route that the text has or that is pending
has its tokens. The string that is its path differs from the one in the text by a blank. -/
theorem dropped_with_other_tokens :
    ¬∀ (s : Session) (literal : String), ((registerSteps (.route literal)).exec s).1 = .ok [] →
      ∃ r ∈ s.listedRoutes, tokens r = tokens literal := by
  intro hall
  let text := "@M(\x7bimports:[RouterModule.forRoot([\x7bpath:'a b'\x7d])]\x7d)class C\x7b\x7d"
  let s := start (.ofText "/m.ts" text) { importBase := ".", selector := .named "M" }
  obtain ⟨hexec, htokens⟩ :
      ((registerSteps (.route "\x7bpath:'ab'\x7d")).exec s).1.toOption = some [] ∧
        ∀ r ∈ s.listedRoutes, tokens r ≠ tokens "\x7bpath:'ab'\x7d" := by
    decide +kernel
  -- The blank that is dropped stands inside of a string
  cases hcs : ((registerSteps (.route "\x7bpath:'ab'\x7d")).exec s).1 with
  | error e =>
    rw [hcs] at hexec
    exact nomatch hexec
  | ok cs =>
    rw [hcs] at hexec
    obtain rfl : cs = [] := Option.some.inj hexec
    obtain ⟨r, hr, hsame⟩ := hall s "\x7bpath:'ab'\x7d" hcs
    exact htokens r hr hsame

end Session

end Enlist
