import Enlist.Proofs.Session.Spacing

/-!
# Pending changes that grow

`Grown` says what calls for entries make of pending changes that are spaced: the entries of each slot
grow by those that are new, and the slots that are created by those that were not created before. The
changes stay spaced, whatever was pending before the calls.

## Key results

- `grownEntries_concat` / `grownSlots_concat`: what one more call adds
- `grown_carryOutAll`: the pending changes after calls for entries
-/

namespace Enlist

open Edit Imports Metadata Syntax
open Text (sameUpToBlanks)

/-! ## What calls add -/


/-- The entries of a slot after calls that are carried out, when `base` was pending before them. -/
def grownEntries (text : List Char) (metadata : Node) (base : ChangeSet)
    (asked : List (String × String)) (slot : String) : List String :=
  base.entriesIn slot ++
    novel (writtenEntries text metadata slot ++ base.entriesIn slot) (askedFor slot asked)

/-- The slots that are created after such calls. -/
def grownSlots (text : List Char) (metadata : Node) (base : ChangeSet)
    (asked : List (String × String)) : List String :=
  base.createdNames ++ (createdSlots text metadata asked).filter (· ∉ base.createdNames)

section

variable {text : List Char} {metadata : Node} {base : ChangeSet} {asked : List (String × String)}
  {slot slot' e : String}

/-- One more entry is new unless it is written, or was new before. -/
theorem grownEntries_concat :
    grownEntries text metadata base (asked ++ [(slot, e)]) slot =
      grownEntries text metadata base asked slot ++
        if (writtenEntries text metadata slot ++ grownEntries text metadata base asked slot).any
          (sameUpToBlanks · e) then [] else [e] := by
  rw [grownEntries, askedFor_concat, if_pos rfl, novel_concat]
  simp only [grownEntries, List.append_assoc]
  rfl

/-- An entry of another slot adds nothing to this one. -/
theorem grownEntries_concat_of_ne (h : slot ≠ slot') :
    grownEntries text metadata base (asked ++ [(slot, e)]) slot' =
      grownEntries text metadata base asked slot' := by
  simp only [grownEntries, askedFor_concat, if_neg h, List.append_nil]

/-- One more entry adds its slot if that is absent and not yet among the new ones. -/
theorem grownSlots_concat :
    grownSlots text metadata base (asked ++ [(slot, e)]) =
      grownSlots text metadata base asked ++
        if isAbsent text metadata slot = true ∧ slot ∉ grownSlots text metadata base asked then [slot]
        else [] := by
  simp only [grownSlots, createdSlots_concat, List.filter_append, List.append_assoc,
    List.mem_append, List.mem_filter, decide_eq_true_eq, not_or, not_and, not_not]
  congr 2
  by_cases habsent : isAbsent text metadata slot = true
  · by_cases hcreated : slot ∈ createdSlots text metadata asked
    · by_cases hbase : slot ∈ base.createdNames <;> simp [habsent, hcreated, hbase]
    · by_cases hbase : slot ∈ base.createdNames <;> simp [habsent, hcreated, hbase]
  · simp [habsent]

end

/-- The pending changes after calls that are carried out, when `base` was pending before them. The first
slot that is created has something in front of it as long as it has no further entry. -/
structure Grown (s : Snapshot) (sel : Selector) (d : Declaration) (led : String → Bool)
    (ledSlots : Bool) (base : ChangeSet) (asked : List (String × String)) (pending : ChangeSet) :
    Prop where
  spaced : Spaced s sel d led (ledSlots && pending.created.head? == base.created.head?) pending
  entries : ∀ slot, pending.entriesIn slot = grownEntries s.chars d.metadata base asked slot
  created : pending.createdNames = grownSlots s.chars d.metadata base asked

section

variable {s : Snapshot} {sel : Selector} {d : Declaration} {led : String → Bool} {ledSlots : Bool}
  {base pending : ChangeSet} {asked : List (String × String)} {array : Node} {slot e : String}

/-- Before anything is asked for, nothing has grown. -/
theorem Spaced.grown (h : Spaced s sel d led ledSlots base) :
    Grown s sel d led ledSlots base [] base :=
  ⟨by simpa using h, fun slot => by simp [grownEntries, askedFor, novel],
    by simp [grownSlots, createdSlots, askedSlots]⟩

/-- Calls take no entry out. -/
theorem Grown.entriesIn_ne_nil (h : Grown s sel d led ledSlots base asked pending)
    (hbase : base.entriesIn slot ≠ []) : pending.entriesIn slot ≠ [] := fun hnil => by
  rw [h.entries, grownEntries, List.append_eq_nil_iff] at hnil
  exact hbase hnil.1

/-- Calls take no slot out that is created. -/
theorem Grown.created_ne_nil (h : Grown s sel d led ledSlots base asked pending)
    (hbase : base.created ≠ []) : pending.created ≠ [] := fun hnil => by
  have hnames := h.created
  rw [ChangeSet.createdNames, hnil, List.map_nil, grownSlots] at hnames
  exact hbase (List.map_eq_nil_iff.1 (List.append_eq_nil_iff.1 hnames.symm).1)

/-- An import adds no entry. -/
theorem Grown.push_import (h : Grown s sel d led ledSlots base asked pending) (r : ImportRequest)
    (others : ChangeSet) :
    Grown s sel d led ledSlots base asked (pending.push (s.imports.satisfy r others)) := by
  have ho := origin_satisfy s.imports r others
  have hcreated : (pending.push (s.imports.satisfy r others)).created = pending.created := by
    simp [ChangeSet.push, ho, Origin.creations]
  refine ⟨?_, fun slot => ?_, ?_⟩
  · rw [hcreated]
    exact h.spaced.push_import r others
  · rw [← h.entries slot]
    simp [ChangeSet.push, ho, Origin.entriesIn]
  · rw [← h.created, ChangeSet.createdNames, hcreated]
    rfl

/-- The entries of other slots stay, and those of the slot get the new one. -/
private theorem entries_of_new {pending' : ChangeSet}
    (h : Grown s sel d led ledSlots base asked pending)
    (hnew : (writtenEntries s.chars d.metadata slot ++ pending.entriesIn slot).any
      (sameUpToBlanks · e) = false)
    (hentries : ∀ slot', pending'.entriesIn slot' =
      pending.entriesIn slot' ++ if slot = slot' then [e] else []) (slot' : String) :
    pending'.entriesIn slot' =
      grownEntries s.chars d.metadata base (asked ++ [(slot, e)]) slot' := by
  rw [hentries]
  by_cases heq : slot = slot'
  · subst heq
    rw [h.entries] at hnew
    rw [grownEntries_concat, hnew, h.entries, if_pos rfl]
    rfl
  · rw [grownEntries_concat_of_ne heq, h.entries, if_neg heq, List.append_nil]

variable {asked' : List (String × String)}

/-- An entry that is recognised leaves the pending changes as they are. -/
private theorem Grown.of_known (h : Grown s sel d led ledSlots base asked pending)
    (hd : locateDeclaration s sel = .ok d)
    (hknown : (writtenEntries s.chars d.metadata slot ++ pending.entriesIn slot).any
      (sameUpToBlanks · e) = true) :
    Grown s sel d led ledSlots base (asked ++ [(slot, e)]) pending := by
  refine ⟨h.spaced, fun slot' => ?_, ?_⟩
  · by_cases heq : slot = slot'
    · subst heq
      rw [h.entries] at hknown
      rw [grownEntries_concat, if_pos hknown, h.entries, List.append_nil]
    · rw [grownEntries_concat_of_ne heq, h.entries]
  · rw [grownSlots_concat, ← h.created, if_neg, List.append_nil]
    -- A slot that is not there and not created has no entry
    rintro ⟨habsent, hslot⟩
    rw [writtenEntries_of_isAbsent habsent,
      entriesIn_eq_nil hd (fun c hc => (h.spaced.made c hc).2) habsent hslot] at hknown
    cases hknown

/-- An entry of an array literal that is new gets a change of its own. -/
private theorem Grown.push_addition (h : Grown s sel d led ledSlots base asked pending)
    (hd : locateDeclaration s sel = .ok d) (hled : ∀ slot, led slot = true → base.entriesIn slot ≠ [])
    (harray : slotArray? s.chars d.metadata slot = some array)
    (hnew : (writtenEntries s.chars d.metadata slot ++ pending.entriesIn slot).any
      (sameUpToBlanks · e) = false) :
    Grown s sel d led ledSlots base (asked ++ [(slot, e)]) (pending.push (addition s.chars slot array
      (pending.countP fun c => c.origin.isEntryIn slot) e)) := by
  have hspaced := h.spaced.push_addition hd harray (fun hl => h.entriesIn_ne_nil (hled slot hl)) e
  generalize hi : (pending.countP fun c => c.origin.isEntryIn slot) = i at hspaced ⊢
  have ho : (addition s.chars slot array i e).origin = .slotEntry slot e := origin_addition i
  have hcreated : (pending.push (addition s.chars slot array i e)).created = pending.created := by
    simp [ChangeSet.push, ho, Origin.creations]
  refine ⟨by rwa [hcreated], entries_of_new h hnew fun slot' => ?_, ?_⟩
  · simp [ChangeSet.push, ho, Origin.entriesIn]
  · rw [ChangeSet.createdNames, hcreated, grownSlots_concat, not_isAbsent_of_slotArray? harray,
      ← h.created]
    simp [ChangeSet.createdNames]

/-- The first entry of a slot that is not there gets a change that creates the slot. -/
private theorem Grown.push_creation (h : Grown s sel d led ledSlots base asked pending)
    (hd : locateDeclaration s sel = .ok d) (hled : ledSlots = true → base.created ≠ [])
    (habsent : isAbsent s.chars d.metadata slot = true) (hslot : slot ∉ pending.createdNames)
    (hnew : (writtenEntries s.chars d.metadata slot ++ pending.entriesIn slot).any
      (sameUpToBlanks · e) = false) :
    Grown s sel d led ledSlots base (asked ++ [(slot, e)])
      (pending.push (creation s.chars d.metadata pending.creations slot [e])) := by
  have hspaced := h.spaced.push_creation hd habsent hslot
    (fun hl => h.created_ne_nil (hled (Bool.and_eq_true_iff.1 hl).1)) [e]
  generalize hi : pending.creations = i at hspaced ⊢
  have ho : (creation s.chars d.metadata i slot [e]).origin = .slotCreation slot [e] :=
    origin_creation i [e]
  -- The new slot is the last of those that are created
  have hcreated : (pending.push (creation s.chars d.metadata i slot [e])).created =
      pending.created ++ [(slot, [e])] := by
    simp [ChangeSet.push, ho, Origin.creations]
  refine ⟨?_, entries_of_new h hnew fun slot' => ?_, ?_⟩
  · -- The first slot stays the first, if there is one before
    have hhead : (ledSlots && (pending.push (creation s.chars d.metadata i slot [e])).created.head? ==
        base.created.head?) = (ledSlots && pending.created.head? == base.created.head?) := by
      cases hl : ledSlots with
      | false => rfl
      | true => rw [hcreated, List.head?_append_of_ne_nil _ (h.created_ne_nil (hled hl))]
    rwa [hhead]
  · simp [ChangeSet.push, ho, Origin.entriesIn]
  · rw [ChangeSet.createdNames, hcreated, grownSlots_concat, ← h.created, if_pos ⟨habsent, hslot⟩]
    simp [ChangeSet.createdNames]

/-- A slot is created with no more entries than are pending for it. -/
private theorem length_le_entriesIn {cs : ChangeSet} {es : List String}
    (h : (slot, es) ∈ cs.created) : es.length ≤ (cs.entriesIn slot).length := by
  obtain ⟨c, hc, ho⟩ := ChangeSet.mem_created.1 h
  obtain ⟨front, back, rfl⟩ := List.append_of_mem hc
  simp only [ChangeSet.entriesIn_append, ChangeSet.entriesIn_cons, ho, Origin.entriesIn, if_true,
    List.length_append]
  omega

/-- A further entry of a slot that is created goes into the change that creates it. -/
private theorem Grown.set_creation {front back : ChangeSet} {c : Change} {es : List String}
    (h : Grown s sel d led ledSlots base asked (front ++ c :: back))
    (hd : locateDeclaration s sel = .ok d) (hc : c.origin = .slotCreation slot es)
    (hnew : (writtenEntries s.chars d.metadata slot ++
      ChangeSet.entriesIn (front ++ c :: back) slot).any (sameUpToBlanks · e) = false) :
    Grown s sel d led ledSlots base (asked ++ [(slot, e)])
      (front ++ creation s.chars d.metadata (ChangeSet.creations front) slot (es ++ [e]) :: back) := by
  have hspaced := h.spaced.set_creation hd hc (es ++ [e])
  generalize ChangeSet.creations front = i at hspaced ⊢
  have ho : (creation s.chars d.metadata i slot (es ++ [e])).origin = .slotCreation slot (es ++ [e]) :=
    origin_creation i (es ++ [e])
  obtain ⟨hfront, hback⟩ := h.spaced.entriesIn_of_parts hd hc
  refine ⟨?_, entries_of_new h hnew fun slot' => ?_, ?_⟩
  · cases hcreated : ChangeSet.created front with
    | cons p ps => simpa [hcreated] using hspaced
    | nil =>
      -- The slot comes first, with more entries than it had before the calls
      have hne : base.created.head? ≠ some (slot, es ++ [e]) := fun hhead => by
        have hbase := length_le_entriesIn (List.mem_of_head? hhead)
        have hall := congrArg List.length (h.entries slot)
        simp [hc, Origin.entriesIn, hfront, hback, grownEntries] at hall
        rw [List.length_append, List.length_singleton] at hbase
        omega
      have hflag : (some (slot, es ++ [e]) == base.created.head?) = false := beq_false_of_ne hne.symm
      simpa [hcreated, ho, Origin.creations, hflag] using hspaced
  · by_cases heq : slot = slot'
    · subst heq
      simp [ho, hc, Origin.entriesIn, hfront, hback]
    · simp [ho, hc, Origin.entriesIn, heq]
  · have hslot : slot ∈ ChangeSet.createdNames (front ++ c :: back) :=
      ChangeSet.mem_createdNames.2 ⟨c, by simp, by simp [hc, Origin.creates]⟩
    rw [grownSlots_concat, ← h.created, if_neg fun hn => hn.2 hslot]
    simp [ChangeSet.createdNames, ho, hc, Origin.creations]

end

namespace Session

/-- A session recognises an entry that its slot has in the text or in a pending change. -/
theorem recognises_entry_eq {s : Session} {d : Declaration}
    (hd : locateDeclaration s.snapshot s.config.selector = .ok d) (slot e : String) :
    s.recognises (.entry slot e) =
      (writtenEntries s.snapshot.chars d.metadata slot ++ s.pending.entriesIn slot).any
        (sameUpToBlanks · e) := by
  rw [recognises, registers_entry, List.any_append, ChangeSet.entriesIn, List.any_flatMap]
  simp only [Snapshot.holds, hd]

variable {s : Session} {d : Declaration} {led : String → Bool} {ledSlots : Bool} {base : ChangeSet}
  {asked : List (String × String)}

/-- What an entry of a slot that is located adds to the pending changes. -/
private theorem grown_decideEntry {slot e : String} {l : SlotLocation}
    (h : Grown s.snapshot s.config.selector d led ledSlots base asked s.pending)
    (hd : locateDeclaration s.snapshot s.config.selector = .ok d)
    (hled : ∀ slot, led slot = true → base.entriesIn slot ≠ [])
    (hledSlots : ledSlots = true → base.created ≠ [])
    (hl : locateSlot s.snapshot s.config.selector slot = .ok l) :
    Grown s.snapshot s.config.selector d led ledSlots base (asked ++ [(slot, e)])
      ((s.decideEntry l e).perform s.pending) := by
  have hrecognises := recognises_entry_eq hd slot e
  rcases decideEntry_cases hd hl e with ⟨hknown, hnone⟩ | ⟨hnew, hcases⟩
  -- What is there already leaves the list as it is
  · have hsame : (s.decideEntry l e).perform s.pending = s.pending := by
      cases hdecided : s.decideEntry l e with
      | present | pending => rfl
      | append | extend =>
        rw [hdecided] at hnone
        cases hnone
    rw [hsame]
    exact h.of_known hd (hrecognises ▸ hknown)
  · rw [hrecognises] at hnew
    -- A new entry goes to its list, creates its slot or extends the creation of it
    rcases hcases with ⟨array, harray, heq⟩ | ⟨habsent, ⟨hslot, heq⟩ | hextend⟩
    · rw [heq]
      exact h.push_addition hd hled harray hnew
    · rw [heq]
      exact h.push_creation hd hledSlots habsent hslot hnew
    · obtain ⟨front, c, back, es, hparts, hc, heq⟩ := hextend
      rw [hparts] at h hnew
      rw [heq, hparts, Decision.perform_extend]
      exact h.set_creation hd hc hnew

/-- What an import adds to the pending changes. -/
private theorem grown_decideImport
    (h : Grown s.snapshot s.config.selector d led ledSlots base asked s.pending) (r : ImportRequest) :
    Grown s.snapshot s.config.selector d led ledSlots base asked
      ((s.decideImport r).perform s.pending) := by
  rcases s.decideImport_cases r with hnone | heq
  · cases hdecided : s.decideImport r with
    | present | pending => exact h
    | append | extend =>
      rw [hdecided] at hnone
      cases hnone
  · rw [heq]
    exact h.push_import r s.pending

/-- The request of a call for an entry of a slot, which is imported from the module if one is given. -/
def callRequest (call : String × String × Option String) : Request :=
  .entry call.1 call.2.1 call.2.2

/-- A call that is carried out keeps the pending changes grown. -/
private theorem grown_carryOut {call : String × String × Option String}
    (h : Grown s.snapshot s.config.selector d led ledSlots base asked s.pending)
    (hd : locateDeclaration s.snapshot s.config.selector = .ok d)
    (hled : ∀ slot, led slot = true → base.entriesIn slot ≠ [])
    (hledSlots : ledSlots = true → base.created ≠ [])
    (hok : s.accepts (callRequest call) = true) :
    Grown s.snapshot s.config.selector d led ledSlots base (asked ++ [(call.1, call.2.1)])
      (s.carryOut (callRequest call)).pending := by
  obtain ⟨slot, e, module⟩ := call
  rw [accepts, exec_registerSteps] at hok
  rw [carryOut, exec_registerSteps]
  simp only [callRequest] at hok ⊢
  cases hl : locateSlot s.snapshot s.config.selector slot with
  | error _ =>
    rw [hl] at hok
    cases hok
  | ok l =>
    simp only [registerEntry, importFor, decideEntryImport, pending_perform]
    -- The entry is decided in the session that has the import
    cases module with
    | none => exact grown_decideEntry h hd hled hledSlots hl
    | some m =>
      have himported : Grown s.snapshot s.config.selector d led ledSlots base asked
          (s.perform (s.decideImport (entryImport e m))).pending := by
        rw [pending_perform]
        exact grown_decideImport h _
      simpa using grown_decideEntry (s := s.perform (s.decideImport (entryImport e m)))
        (by simpa using himported) (by simpa using hd) hled hledSlots (by simpa using hl)

/-- The pending changes of a session after calls for entries, of which only those that are carried out
count. -/
theorem grown_carryOutAll (hd : locateDeclaration s.snapshot s.config.selector = .ok d)
    (h : Spaced s.snapshot s.config.selector d led ledSlots s.pending)
    (hled : ∀ slot, led slot = true → s.pending.entriesIn slot ≠ [])
    (hledSlots : ledSlots = true → s.pending.created ≠ [])
    (calls : List (String × String × Option String)) :
    let asked := (accepted callRequest s calls).map fun call => (call.1, call.2.1)
    let done := s.carryOutAll (calls.map callRequest)
    Grown s.snapshot s.config.selector d led ledSlots s.pending asked done.pending ∧
      done.snapshot = s.snapshot ∧ done.config = s.config := by
  -- One call keeps the invariant, and it holds before the first
  have hstep : ∀ (before : List (String × String × Option String)) (s' : Session)
      (call : String × String × Option String),
      (Grown s.snapshot s.config.selector d led ledSlots s.pending
        (before.map fun call => (call.1, call.2.1)) s'.pending ∧
        s'.snapshot = s.snapshot ∧ s'.config = s.config) →
      s'.accepts (callRequest call) = true →
      Grown s.snapshot s.config.selector d led ledSlots s.pending
        ((before ++ [call]).map fun call => (call.1, call.2.1)) (s'.carryOut (callRequest call)).pending ∧
        (s'.carryOut (callRequest call)).snapshot = s.snapshot ∧
        (s'.carryOut (callRequest call)).config = s.config := by
    rintro before s' call ⟨hgrown, hsnapshot, hconfig⟩ hok
    rw [← hsnapshot, ← hconfig] at hd hgrown ⊢
    refine ⟨?_, by simp, by simp⟩
    rw [List.map_append, List.map_singleton]
    exact grown_carryOut hgrown hd hled hledSlots hok
  have hstart : Grown s.snapshot s.config.selector d led ledSlots s.pending
      (([] : List (String × String × Option String)).map fun call => (call.1, call.2.1)) s.pending ∧
      s.snapshot = s.snapshot ∧ s.config = s.config := ⟨h.grown, rfl, rfl⟩
  exact carryOutAll_induct (P := fun calls s' =>
    Grown s.snapshot s.config.selector d led ledSlots s.pending
      (calls.map fun call => (call.1, call.2.1)) s'.pending ∧
      s'.snapshot = s.snapshot ∧ s'.config = s.config) hstep hstart calls

end Session

end Enlist
