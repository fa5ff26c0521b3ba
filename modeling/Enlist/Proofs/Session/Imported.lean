import Enlist.Proofs.Session.Recognition

/-!
# What a session tells to be imported

A session tells whether a symbol is imported from the module of a suffix, and on request it imports the
symbol from there. The question and the request look at the text and at the pending changes on ways of their
own, and they agree: a request is answered with nothing exactly where the question is answered with yes, and
it turns the answer for what it imports and for nothing else. The pending changes may be any.

## Key results

- `isImported_eq_recognises`: the question is whether the session recognises a binding
- `Answered.isImported_iff`: what is imported after a request
- `imported_answers_agree`: the question before and after a request
-/

namespace Enlist.Session

open Edit Imports Metadata Store

variable {s s' : Session} {rs : List Registration} {cs : List Change}

/-- A session takes for imported what it recognises as bound. -/
theorem isImported_eq_recognises (s : Session) (symbol : String) (suffix : Option String) :
    s.isImported symbol suffix = s.recognises (.binding symbol (s.modulePath suffix)) := by
  rw [isImported, recognises, registers_binding]
  rfl

/-- A request that is carried out answers what it asks for. -/
theorem answered_of_register {r : Request} (h : s.register r = .ok (s', cs)) :
    Answered s r.registrations s' cs := by
  have hexec := Work.exec_of_outcome h
  rcases exec_registerSteps_cases s r with ⟨e, _, hfails⟩ | ⟨_, s₁, cs₁, hdone, hanswered⟩
  · exact nomatch (Prod.mk.inj (hexec.symm.trans hfails)).1
  · obtain ⟨hcs, rfl⟩ := Prod.mk.inj (hexec.symm.trans hdone)
    rwa [Except.ok.inj hcs]

/-- After a request a binding is recognised that was so before, or that was asked for. -/
theorem Answered.recognises_binding (h : Answered s rs s' cs) (symbol module : String) :
    s'.recognises (.binding symbol module) = true ↔
      s.recognises (.binding symbol module) = true ∨ .binding symbol module ∈ rs := by
  constructor
  · intro hafter
    rw [recognises, h.keeps.1, h.keeps.2, h.registers_eq, ← Bool.or_assoc, ← recognises,
      Bool.or_eq_true] at hafter
    refine hafter.imp_right fun hasked => ?_
    obtain ⟨r, hr, hsame⟩ := List.any_eq_true.1 hasked
    -- Only the binding itself comes to the same
    cases r with
    | binding symbol' module' =>
      obtain ⟨-, rfl, rfl⟩ : _ ∧ symbol' = symbol ∧ module' = module := by
        simpa [Registration.same] using hsame
      exact hr
    | entry | route => simp [Registration.same] at hsame
  · rintro (hbefore | hasked)
    · exact h.recognises_mono hbefore
    · exact h.recognises_of_mem hasked

/-- A request changes no module path. -/
theorem Answered.modulePath_eq (h : Answered s rs s' cs) (suffix : Option String) :
    s'.modulePath suffix = s.modulePath suffix := by
  rw [modulePath, modulePath, h.keeps.2]

/-- After a request a symbol is imported that was so before, or that was asked for. -/
theorem Answered.isImported_iff (h : Answered s rs s' cs) (symbol : String) (suffix : Option String) :
    s'.isImported symbol suffix = true ↔
      s.isImported symbol suffix = true ∨ .binding symbol (s.modulePath suffix) ∈ rs := by
  rw [isImported_eq_recognises, isImported_eq_recognises, h.modulePath_eq, h.recognises_binding]

/-- A request that asks for one binding at most leaves all other answers as they were. -/
theorem Answered.isImported_of_ne (h : Answered s rs s' cs) {symbol other : String}
    {suffix suffix' : Option String}
    (hrs : ∀ a m, Registration.binding a m ∈ rs → (a, m) = (symbol, s.modulePath suffix))
    (hne : (other, s.modulePath suffix') ≠ (symbol, s.modulePath suffix)) :
    s'.isImported other suffix' = s.isImported other suffix' := by
  rw [Bool.eq_iff_iff, h.isImported_iff, or_iff_left fun hmem => hne (hrs _ _ hmem)]

/-- A request for an import is not refused, and records one change at most. -/
theorem register_imported (s : Session) (r : ImportRequest) :
    s.register (.imported r) = .ok (s.perform (s.decideImport r), (s.decideImport r).change?.toList) :=
  rfl

/-- Whatever is pending, a request to import a symbol from the module of a suffix, with or without braces,
records nothing exactly if the session tells that it is imported. Afterwards the session tells so, and of
all else what it told before. An entry of a slot that is registered with a suffix does the same for the
name that it starts with. -/
theorem imported_answers_agree (s : Session) (symbol : String) (suffix : Option String) :
    (∀ isDefault, ∃ s' c?,
      s.register (.imported ⟨symbol, s.modulePath suffix, isDefault⟩) = .ok (s', Option.toList c?) ∧
      (c? = none ↔ s.isImported symbol suffix = true) ∧
      s'.isImported symbol suffix = true ∧
      ∀ other suffix', (other, s.modulePath suffix') ≠ (symbol, s.modulePath suffix) →
        s'.isImported other suffix' = s.isImported other suffix') ∧
    ∀ slot s' cs, s.register (s.slotRequest slot symbol suffix) = .ok (s', cs) →
      s'.isImported (rootIdentifier symbol) suffix = true ∧
      ∀ other suffix', (other, s.modulePath suffix') ≠ (rootIdentifier symbol, s.modulePath suffix) →
        s'.isImported other suffix' = s.isImported other suffix' := by
  -- Both forms of an import answer for it, and so does an entry for its root
  refine ⟨fun isDefault => ?_, fun slot s' cs hregister => ?_⟩
  · have hregister := register_imported s ⟨symbol, s.modulePath suffix, isDefault⟩
    have hanswered := answered_of_register hregister
    refine ⟨_, _, hregister, ?_, (hanswered.isImported_iff symbol suffix).2 (.inr ?_),
      fun other suffix' => hanswered.isImported_of_ne ?_⟩
    · rw [isImported_eq_recognises]
      exact (answers_decideImport s _).change?_eq_none_iff
    · exact List.mem_singleton_self _
    · simp [Request.registrations]
  · have hanswered := answered_of_register hregister
    refine ⟨(hanswered.isImported_iff _ suffix).2 (.inr ?_),
      fun other suffix' => hanswered.isImported_of_ne ?_⟩
    · exact List.mem_cons_self
    · simp [slotRequest, Request.registrations]

/-- The empty braces of the text are taken by a change that was put in by hand, so the import of `A` is a
statement of its own; `B` is imported by that change. -/
theorem imported_answers_agree_sample :
    let snapshot : Snapshot := .ofText "/m.ts" "import \x7b\x7d from './a';\n@M(\x7bxs: []\x7d)class C\x7b\x7d"
    let config : SessionConfig := { importBase := "./b/..", selector := .named "M" }
    let s := (start snapshot config).override
      [.insertBefore 8 " B " (.importOf "B" "./a"), .make 0 (.remove 40) "" .manual]
    (s.isImported "A" (some "/a") = false ∧ s.isImported "B" (some "/a") = true) ∧
    (∃ s' c, s.register (.imported ⟨"A", "./a", true⟩) = .ok (s', [c]) ∧
      s'.isImported "A" (some "/a") = true ∧ s'.isImported "B" (some "/a") = true) ∧
    (∃ s', s.register (.imported ⟨"B", "./a", true⟩) = .ok (s', [])) ∧
    ∃ s' cs, s.register (s.slotRequest "xs" "D.of(x)" (some "/a")) = .ok (s', cs) ∧ cs.length = 2 ∧
      s'.isImported "D" (some "/a") = true ∧ s'.isImported "A" (some "/a") = false := by
  intro snapshot config s
  have hpath : s.modulePath (some "/a") = "./a" := by decide +kernel
  have hA : s.isImported "A" (some "/a") = false := by decide +kernel
  have hB : s.isImported "B" (some "/a") = true := by decide +kernel
  have hroot : rootIdentifier "D.of(x)" = "D" := by decide +kernel
  refine ⟨⟨hA, hB⟩, ?_, ?_, ?_⟩
  -- The first import is a new one, the second was recorded by hand, the third comes with an entry
  · obtain ⟨s', c?, hregister, hnone, hafter, hothers⟩ := (imported_answers_agree s "A" (some "/a")).1 true
    rw [hpath] at hregister
    cases c? with
    | none => exact absurd (hnone.1 rfl) (by simp [hA])
    | some c => exact ⟨s', c, hregister, hafter, (hothers "B" (some "/a") (by simp)).trans hB⟩
  · obtain ⟨s', c?, hregister, hnone, -⟩ := (imported_answers_agree s "B" (some "/a")).1 true
    rw [hpath, hnone.2 hB] at hregister
    exact ⟨s', hregister⟩
  · have hlength : (s.register (s.slotRequest "xs" "D.of(x)" (some "/a"))).toOption.map
        (fun r => r.2.length) = some 2 := by decide +kernel
    rcases hregister : s.register (s.slotRequest "xs" "D.of(x)" (some "/a")) with e | ⟨s', cs⟩
    · rw [hregister] at hlength
      exact nomatch hlength
    · rw [hregister] at hlength
      obtain ⟨hD, hothers⟩ := (imported_answers_agree s "D.of(x)" (some "/a")).2 "xs" s' cs hregister
      rw [hroot] at hD hothers
      exact ⟨s', cs, rfl, Option.some.inj hlength, hD, (hothers "A" (some "/a") (by simp)).trans hA⟩

end Enlist.Session
