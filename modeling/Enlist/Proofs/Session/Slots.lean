import Enlist.Proofs.Metadata.Items
import Enlist.Proofs.Session.Run
import Mathlib.Data.List.Induction

/-!
# What is pending for the slots

A run of requests for entries is known by the calls that are carried out, each a slot and a symbol.
`newEntries` says which entries a slot gets from them and `createdSlots` which slots are created;
neither knows of changes. `Pends` says that the pending changes are those: for an array literal one
change for each new entry, for a slot that is created one change with all its entries.

## Key results

- `novel_concat`: one more entry is new or not
- `newEntries_concat` / `createdSlots_concat`: what one more call adds
- `pends_carryOut`: a call keeps the pending changes those that are asked for
-/

namespace Enlist

open Edit Metadata Syntax
open Text (sameUpToBlanks)

/-! ## What the slots get -/

/-- The entries that agree neither with a known one nor with an earlier one, blanks aside. -/
def novel (known : List String) : List String → List String
  | [] => []
  | e :: es =>
    if known.any (sameUpToBlanks · e) then novel known es else e :: novel (known ++ [e]) es

/-- One more entry is new unless it agrees with a known one or with one that was new before. -/
theorem novel_concat (known es : List String) (e : String) :
    novel known (es ++ [e]) =
      novel known es ++ if (known ++ novel known es).any (sameUpToBlanks · e) then [] else [e] := by
  -- Induction on the entries; a new one is known to those that follow it
  induction es generalizing known with
  | nil => simp [novel]
  | cons d es ih =>
    rw [List.cons_append, novel, novel]
    split
    · exact ih known
    · rw [ih, List.cons_append]
      simp only [List.append_assoc, List.singleton_append]

/-- The symbols that are asked for a slot, in order. -/
def askedFor (slot : String) (asked : List (String × String)) : List String :=
  (asked.filter fun call => call.1 == slot).map Prod.snd

/-- The slots that something is asked for, in the order in which they first are. -/
def askedSlots (asked : List (String × String)) : List String :=
  (asked.map Prod.fst).eraseDups

/-- The entries of a slot in the text. -/
def writtenEntries (text : List Char) (metadata : Node) (slot : String) : List String :=
  match slotArray? text metadata slot with
  | some array => array.namedChildren.map (Node.source text)
  | none => []

/-- The entries that a slot gets: those asked for it, in order, without those that it has and without
those that were asked for before. -/
def newEntries (text : List Char) (metadata : Node) (asked : List (String × String))
    (slot : String) : List String :=
  novel (writtenEntries text metadata slot) (askedFor slot asked)

/-- The slots that are created: those asked for that the metadata has no member for. -/
def createdSlots (text : List Char) (metadata : Node) (asked : List (String × String)) :
    List String :=
  (askedSlots asked).filter (isAbsent text metadata)

variable {text : List Char} {metadata array : Node} {asked : List (String × String)}
  {slot slot' e : String}

/-- The entries of a slot with an array are the items of the array. -/
theorem writtenEntries_of_slotArray? (harray : slotArray? text metadata slot = some array) :
    writtenEntries text metadata slot = array.namedChildren.map (Node.source text) := by
  rw [writtenEntries, harray]

/-- A slot that is absent has no entries. -/
theorem writtenEntries_of_isAbsent (habsent : isAbsent text metadata slot = true) :
    writtenEntries text metadata slot = [] := by
  have harray : slotArray? text metadata slot = none := by
    rw [isAbsent, Option.isNone_iff_eq_none] at habsent
    rw [slotArray?, habsent, Option.bind_none]
  rw [writtenEntries, harray]

/-- A slot is asked for exactly if an entry of it is. -/
theorem mem_askedSlots : slot ∈ askedSlots asked ↔ askedFor slot asked ≠ [] := by
  simp [askedSlots, askedFor]

/-- One more call asks for its entry in its slot. -/
theorem askedFor_concat :
    askedFor slot' (asked ++ [(slot, e)]) =
      askedFor slot' asked ++ if slot = slot' then [e] else [] := by
  by_cases h : slot = slot' <;> simp [askedFor, h]

/-- One more call asks for its slot, unless that was asked for before. -/
theorem askedSlots_concat :
    askedSlots (asked ++ [(slot, e)]) =
      askedSlots asked ++ if slot ∈ askedSlots asked then [] else [slot] := by
  rw [askedSlots, List.map_append, List.eraseDups_append]
  -- A slot that was asked for before is dropped as a duplicate
  by_cases h : slot ∈ asked.map Prod.fst
  · have hmem : slot ∈ askedSlots asked := List.mem_eraseDups.2 h
    rw [if_pos hmem]
    simp [askedSlots, List.removeAll, h]
  · have hmem : slot ∉ askedSlots asked := fun hm => h (List.mem_eraseDups.1 hm)
    rw [if_neg hmem]
    simp [askedSlots, List.removeAll, List.eraseDups_cons, h]

/-- No slot is named twice among those asked for. -/
theorem nodup_askedSlots (asked : List (String × String)) : (askedSlots asked).Nodup := by
  induction asked using List.reverseRecOn with
  | nil => exact List.nodup_nil
  | append_singleton asked call ih =>
    rw [askedSlots_concat]
    -- A slot is new only when nothing was asked for in it before
    split
    case isTrue => simpa using ih
    case isFalse h =>
      rw [List.nodup_append]
      refine ⟨ih, by simp, fun a ha b hb => ?_⟩
      rw [List.mem_singleton.1 hb]
      exact fun heq => h (heq ▸ ha)

/-- One more entry is new unless it is written, or was new before. -/
theorem newEntries_concat :
    newEntries text metadata (asked ++ [(slot, e)]) slot =
      newEntries text metadata asked slot ++
        if (writtenEntries text metadata slot ++ newEntries text metadata asked slot).any
          (sameUpToBlanks · e) then [] else [e] := by
  rw [newEntries, askedFor_concat, if_pos rfl, novel_concat]
  rfl

/-- An entry of another slot is not new in this one. -/
theorem newEntries_concat_of_ne (h : slot ≠ slot') :
    newEntries text metadata (asked ++ [(slot, e)]) slot' =
      newEntries text metadata asked slot' := by
  rw [newEntries, askedFor_concat, if_neg h, List.append_nil]
  rfl

/-- What one more call adds to the slots that are created. -/
theorem createdSlots_concat :
    createdSlots text metadata (asked ++ [(slot, e)]) =
      createdSlots text metadata asked ++
        if isAbsent text metadata slot = true ∧ slot ∉ createdSlots text metadata asked then [slot]
        else [] := by
  rw [createdSlots, askedSlots_concat, List.filter_append]
  congr 1
  by_cases habsent : isAbsent text metadata slot = true
  · by_cases hmem : slot ∈ askedSlots asked <;> simp [createdSlots, hmem, habsent]
  · by_cases hmem : slot ∈ askedSlots asked <;> simp [hmem, habsent]

/-- No slot is created twice. -/
theorem nodup_createdSlots : (createdSlots text metadata asked).Nodup :=
  (nodup_askedSlots asked).filter _

/-- Nothing is new in a slot that is not there and that nothing was asked for. -/
theorem newEntries_of_not_mem (habsent : isAbsent text metadata slot = true)
    (h : slot ∉ createdSlots text metadata asked) : newEntries text metadata asked slot = [] := by
  have hasked : ¬ slot ∈ askedSlots asked := fun hm => h (List.mem_filter.2 ⟨hm, habsent⟩)
  rw [mem_askedSlots, not_not] at hasked
  rw [newEntries, hasked]
  rfl

/-! ## Pending changes -/

/-- The change that adds an entry to an array literal, when `i` others are added in front of it. -/
def addition (text : List Char) (slot : String) (array : Node) (i : Nat) (e : String) : Change :=
  ((locateInArray text slot array).point.entryChange slot e i (.slotEntry slot e)).describedAs
    s!"add {e} to {slot}"

/-- The change that creates a slot, when `i` others are created in front of it. -/
def creation (text : List Char) (metadata : Node) (i : Nat) (slot : String) (es : List String) :
    Change :=
  ((creationPoint text metadata).creationChange slot es i (.slotCreation slot es)).describedAs
    s!"create {slot} with [{InsertionPoint.joined es}]"

/-- The pending changes are those that the calls ask for. -/
structure Pends (text : List Char) (metadata : Node) (asked : List (String × String))
    (pending : ChangeSet) : Prop where
  /-- An array literal gets its new entries one by one. -/
  additions : ∀ slot array, slotArray? text metadata slot = some array →
    (pending.filter fun c => c.origin.isEntryIn slot) =
      (newEntries text metadata asked slot).mapIdx (addition text slot array)
  /-- A slot that is created gets its new entries at once. -/
  creations : (pending.filter fun c => c.origin.isCreation) =
    (createdSlots text metadata asked).mapIdx fun i slot =>
      creation text metadata i slot (newEntries text metadata asked slot)
  /-- Nothing else is pending. -/
  nothingElse : ∀ c ∈ pending, c.origin.isCreation = true ∨
    ∃ slot array, slotArray? text metadata slot = some array ∧ c.origin.isEntryIn slot = true

theorem origin_addition (i : Nat) : (addition text slot array i e).origin = .slotEntry slot e :=
  InsertionPoint.origin_entryChange _ slot e i _

theorem origin_creation (i : Nat) (es : List String) :
    (creation text metadata i slot es).origin = .slotCreation slot es :=
  InsertionPoint.origin_creationChange _ slot es i _

/-- A change that adds an entry puts in an item of the array literal. -/
theorem addition_inserts (text : List Char) (slot : String) (array : Node) (i : Nat) (e : String) :
    (addition text slot array i e).isInsertion = true ∧
      (addition text slot array i e).offset = itemsOffset array ∧
      (addition text slot array i e).text = itemLead text array i ++ e :=
  entryChange_locateInArray text slot array e i (.slotEntry slot e)

/-- A change that creates a slot puts in an item of the metadata. -/
theorem creation_inserts (text : List Char) (metadata : Node) (i : Nat) (slot : String)
    (es : List String) :
    (creation text metadata i slot es).isInsertion = true ∧
      (creation text metadata i slot es).offset = itemsOffset metadata ∧
      (creation text metadata i slot es).text = itemLead text metadata i ++ slotText slot es :=
  creationChange_creationPoint text metadata slot es i (.slotCreation slot es)

/-- An entry that is added goes between two characters. -/
theorem isBoundary_addition (hplaced : metadata.Placed text)
    (harray : slotArray? text metadata slot = some array) (i : Nat) (e : String) :
    Text.isBoundary text (addition text slot array i e).offset = true := by
  obtain ⟨harrayPlaced, hbrackets⟩ := placed_slotArray? hplaced harray
  rw [(addition_inserts text slot array i e).2.1]
  exact isBoundary_itemsOffset harrayPlaced hbrackets

/-- A slot that is created goes between two characters. -/
theorem isBoundary_creation (hplaced : metadata.Placed text) (hkind : metadata.kind = .object) (i : Nat)
    (slot : String) (es : List String) :
    Text.isBoundary text (creation text metadata i slot es).offset = true := by
  have hbrackets : metadata.kind.brackets? = some ('\x7b', '\x7d') := by rw [hkind]; rfl
  rw [(creation_inserts text metadata i slot es).2.1]
  exact isBoundary_itemsOffset hplaced hbrackets

/-- At first nothing is asked for, and nothing pending. -/
theorem pends_nil (text : List Char) (metadata : Node) : Pends text metadata [] [] :=
  ⟨fun _ _ _ => rfl, rfl, fun _ h => nomatch h⟩

variable {pending : ChangeSet}

/-- What gives nothing may be left out before. -/
theorem flatMap_filter {α β : Type} {p : α → Bool} {f : α → List β} {as : List α}
    (h : ∀ a ∈ as, p a = false → f a = []) : as.flatMap f = (as.filter p).flatMap f := by
  induction as with
  | nil => rfl
  | cons a as ih =>
    obtain ⟨ha, has⟩ := List.forall_mem_cons.1 h
    cases hp : p a with
    | true => rw [List.filter_cons_of_pos hp, List.flatMap_cons, List.flatMap_cons, ih has]
    | false =>
      rw [List.filter_cons_of_neg (by simp [hp]), List.flatMap_cons, ha hp, ih has]
      rfl

/-- Where the index does not matter, elements are mapped without it. -/
private theorem flatMap_mapIdx {α β γ : Type} {g : Nat → α → β} {f : β → List γ} {k : α → List γ}
    (h : ∀ i a, f (g i a) = k a) (as : List α) : (as.mapIdx g).flatMap f = as.flatMap k := by
  induction as generalizing g with
  | nil => rfl
  | cons a as ih =>
    rw [List.mapIdx_cons, List.flatMap_cons, List.flatMap_cons, h, ih fun i a => h (i + 1) a]

/-- One name occurs in a list of different names once or not at all. -/
private theorem flatMap_ite_eq {β : Type} {f : String → List β} {names : List String}
    (h : names.Nodup) (name : String) :
    (names.flatMap fun s => if s = name then f s else []) = if name ∈ names then f name else [] := by
  induction names with
  | nil => rfl
  | cons s names ih =>
    obtain ⟨hs, hnames⟩ := List.nodup_cons.1 h
    rw [List.flatMap_cons, ih hnames]
    by_cases heq : s = name
    · subst heq
      rw [if_pos rfl, if_neg hs, if_pos List.mem_cons_self, List.append_nil]
    · have hmem : name ∈ s :: names ↔ name ∈ names := by simp [Ne.symm heq]
      simp only [heq, if_false, List.nil_append, hmem]

/-- A pending creation is that of a slot that is created. -/
theorem Pends.mem_createdSlots (h : Pends text metadata asked pending) {c : Change} (hc : c ∈ pending)
    {es : List String} (ho : c.origin = .slotCreation slot es) :
    slot ∈ createdSlots text metadata asked := by
  have hmem : c ∈ pending.filter fun c => c.origin.isCreation := by
    simp only [List.mem_filter, ho, Origin.isCreation]
    exact ⟨hc, trivial⟩
  -- All creations are listed, each with the name of its slot
  rw [h.creations] at hmem
  obtain ⟨i, hi, rfl⟩ := List.exists_of_mem_mapIdx hmem
  rw [origin_creation] at ho
  injection ho with hslot _
  exact hslot ▸ List.getElem_mem hi

/-- The entries that are pending for an array literal are its new entries. -/
theorem Pends.entriesIn_of_array (h : Pends text metadata asked pending)
    (harray : slotArray? text metadata slot = some array) :
    (pending.flatMap fun c => c.origin.entriesIn slot) = newEntries text metadata asked slot := by
  have hrest : ∀ c ∈ pending, c.origin.isEntryIn slot = false → c.origin.entriesIn slot = [] := by
    intro c hc hentry
    cases ho : c.origin with
    | slotEntry s e => simpa [ho, Origin.isEntryIn, Origin.entriesIn] using hentry
    | slotCreation s es =>
      -- A slot that is there is not created
      have habsent := (List.mem_filter.1 (h.mem_createdSlots hc ho)).2
      simp [Origin.entriesIn, ne_of_slotArray? habsent harray]
    | _ => rfl
  rw [flatMap_filter hrest, h.additions slot array harray, flatMap_mapIdx (k := fun e => [e])]
  · simp
  · intro i e
    rw [origin_addition]
    simp [Origin.entriesIn]

/-- The entries that are pending for a slot that is not there are its new entries. -/
theorem Pends.entriesIn_of_absent (h : Pends text metadata asked pending)
    (habsent : isAbsent text metadata slot = true) :
    (pending.flatMap fun c => c.origin.entriesIn slot) = newEntries text metadata asked slot := by
  have hrest : ∀ c ∈ pending, c.origin.isCreation = false → c.origin.entriesIn slot = [] := by
    intro c hc hcreation
    cases ho : c.origin with
    | slotEntry s e =>
      -- Entries go one by one to slots that are there
      obtain hc | ⟨s', array, harray, hs⟩ := h.nothingElse c hc
      · rw [hc] at hcreation
        exact nomatch hcreation
      · rw [ho] at hs
        obtain rfl : s = s' := beq_iff_eq.1 hs
        simp [Origin.entriesIn, (ne_of_slotArray? habsent harray).symm]
    | slotCreation s es => simp [ho, Origin.isCreation] at hcreation
    | _ => rfl
  rw [flatMap_filter hrest, h.creations, flatMap_mapIdx (k := fun s =>
    if s = slot then newEntries text metadata asked s else []),
    flatMap_ite_eq nodup_createdSlots]
  · split
    · rfl
    case isFalse hmem => rw [newEntries_of_not_mem habsent hmem]
  · intro i s
    rw [origin_creation]
    rfl

/-! ## One more call -/

/-- An entry is pending when it agrees with one of the pending entries of its slot. -/
theorem isPendingEntry_eq (s : Session) (slot e : String) :
    s.isPendingEntry slot e =
      (s.pending.flatMap fun c => c.origin.entriesIn slot).any (sameUpToBlanks · e) := by
  rw [Session.isPendingEntry, List.any_flatMap]

/-- A call for an entry that the slot has or gets already asks for nothing. -/
private theorem Pends.of_known (h : Pends text metadata asked pending)
    (hknown : (writtenEntries text metadata slot ++ newEntries text metadata asked slot).any
      (sameUpToBlanks · e) = true)
    (hslot : isAbsent text metadata slot = true → slot ∈ createdSlots text metadata asked) :
    Pends text metadata (asked ++ [(slot, e)]) pending := by
  -- The entry is known, so the lists stay as they are, and the slot is created already
  have hnew : ∀ slot', newEntries text metadata (asked ++ [(slot, e)]) slot' =
      newEntries text metadata asked slot' := by
    intro slot'
    by_cases heq : slot = slot'
    · subst heq
      rw [newEntries_concat, if_pos hknown, List.append_nil]
    · exact newEntries_concat_of_ne heq
  have hcreated : createdSlots text metadata (asked ++ [(slot, e)]) =
      createdSlots text metadata asked := by
    rw [createdSlots_concat, if_neg fun hn => hn.2 (hslot hn.1), List.append_nil]
  refine ⟨fun slot' array' harray' => ?_, ?_, h.nothingElse⟩
  · rw [hnew]
    exact h.additions slot' array' harray'
  · rw [hcreated, h.creations]
    simp only [hnew]

/-- Changes for slots whose new entries stay are the same. -/
private theorem mapIdx_newEntries_congr {asked' : List (String × String)} {names : List String}
    (f : Nat → String → List String → Change)
    (h : ∀ slot ∈ names, newEntries text metadata asked' slot = newEntries text metadata asked slot) :
    (names.mapIdx fun i slot => f i slot (newEntries text metadata asked' slot)) =
      names.mapIdx fun i slot => f i slot (newEntries text metadata asked slot) := by
  rw [List.mapIdx_eq_mapIdx_iff]
  intro i hi
  rw [h _ (List.getElem_mem hi)]

/-- A call for a new entry of an array literal asks for one change more. -/
private theorem Pends.push_addition (h : Pends text metadata asked pending)
    (harray : slotArray? text metadata slot = some array)
    (hnew : (writtenEntries text metadata slot ++ newEntries text metadata asked slot).any
      (sameUpToBlanks · e) = false) :
    Pends text metadata (asked ++ [(slot, e)])
      (pending.push (addition text slot array (newEntries text metadata asked slot).length e)) := by
  have hthere := not_isAbsent_of_slotArray? harray
  have horigin : (addition text slot array (newEntries text metadata asked slot).length e).origin =
      .slotEntry slot e := origin_addition _
  refine ⟨fun slot' array' harray' => ?_, ?_, fun c hc => ?_⟩
  · rw [ChangeSet.push, List.filter_append, h.additions slot' array' harray']
    by_cases heq : slot = slot'
    · subst heq
      rw [harray, Option.some.injEq] at harray'
      subst harray'
      rw [newEntries_concat, hnew]
      simp [horigin, Origin.isEntryIn]
    · rw [newEntries_concat_of_ne heq]
      simp [horigin, Origin.isEntryIn, heq]
  · have hcreated : createdSlots text metadata (asked ++ [(slot, e)]) =
        createdSlots text metadata asked := by
      rw [createdSlots_concat, hthere]
      simp
    rw [ChangeSet.push, List.filter_append, h.creations, hcreated]
    -- The slot is there, so it is none of those that are created
    have hothers : ∀ s ∈ createdSlots text metadata asked,
        newEntries text metadata (asked ++ [(slot, e)]) s = newEntries text metadata asked s := by
      intro s hs
      have habsent := (List.mem_filter.1 hs).2
      exact newEntries_concat_of_ne (ne_of_slotArray? habsent harray).symm
    rw [mapIdx_newEntries_congr (creation text metadata) hothers]
    simp [horigin, Origin.isCreation]
  · rcases List.mem_append.1 hc with hc | hc
    · exact h.nothingElse c hc
    · rw [List.mem_singleton.1 hc]
      exact .inr ⟨slot, array, harray, by simp [horigin, Origin.isEntryIn]⟩

/-- An entry of an absent slot is not new in one with an array. -/
private theorem newEntries_of_slotArray? (habsent : isAbsent text metadata slot = true)
    (harray : slotArray? text metadata slot' = some array) :
    newEntries text metadata (asked ++ [(slot, e)]) slot' =
      newEntries text metadata asked slot' :=
  newEntries_concat_of_ne (ne_of_slotArray? habsent harray)

/-- The first call for a slot that is not there asks for one change more, which creates it. -/
private theorem Pends.push_creation (h : Pends text metadata asked pending)
    (habsent : isAbsent text metadata slot = true)
    (hmem : slot ∉ createdSlots text metadata asked) :
    Pends text metadata (asked ++ [(slot, e)])
      (pending.push (creation text metadata (createdSlots text metadata asked).length slot [e])) := by
  have horigin : (creation text metadata (createdSlots text metadata asked).length slot [e]).origin =
      .slotCreation slot [e] := origin_creation _ _
  have hnew : newEntries text metadata (asked ++ [(slot, e)]) slot = [e] := by
    rw [newEntries_concat, writtenEntries_of_isAbsent habsent, newEntries_of_not_mem habsent hmem]
    rfl
  refine ⟨fun slot' array' harray' => ?_, ?_, fun c hc => ?_⟩
  · rw [ChangeSet.push, List.filter_append, h.additions slot' array' harray',
      newEntries_of_slotArray? habsent harray']
    simp [horigin, Origin.isEntryIn]
  -- The slot comes last among those that are created, and with the only entry asked for it
  · have hcreated : createdSlots text metadata (asked ++ [(slot, e)]) =
        createdSlots text metadata asked ++ [slot] := by
      rw [createdSlots_concat, if_pos ⟨habsent, hmem⟩]
    have hothers : ∀ s ∈ createdSlots text metadata asked,
        newEntries text metadata (asked ++ [(slot, e)]) s = newEntries text metadata asked s :=
      fun s hs => newEntries_concat_of_ne fun heq => hmem (heq ▸ hs)
    rw [ChangeSet.push, List.filter_append, h.creations, hcreated, List.mapIdx_concat, hnew,
      mapIdx_newEntries_congr (creation text metadata) hothers]
    simp [horigin, Origin.isCreation]
  · rcases List.mem_append.1 hc with hc | hc
    · exact h.nothingElse c hc
    · rw [List.mem_singleton.1 hc]
      exact .inl (by rw [horigin]; rfl)

/-- A slot to be created has a pending change that creates it. -/
private theorem Pends.exists_creates (h : Pends text metadata asked pending)
    (hslot : slot ∈ createdSlots text metadata asked) :
    ∃ c ∈ pending, c.origin.creates slot = true := by
  obtain ⟨i, hi, hget⟩ := List.mem_iff_getElem.1 hslot
  have hmem : creation text metadata i slot (newEntries text metadata asked slot) ∈
      pending.filter fun c => c.origin.isCreation := by
    rw [h.creations, List.mem_mapIdx]
    exact ⟨i, hi, by rw [hget]⟩
  refine ⟨_, (List.mem_filter.1 hmem).1, ?_⟩
  rw [origin_creation]
  exact beq_self_eq_true slot

/-- The change that creates a slot stands among the others in the place that the slot has among those
that are created. -/
private theorem Pends.creation_split {front back : ChangeSet} {c : Change}
    (h : Pends text metadata asked (front ++ c :: back)) (hc : c.origin.creates slot = true) :
    ∃ before behind, createdSlots text metadata asked = before ++ slot :: behind ∧
      before.length = front.countP (fun c => c.origin.isCreation) ∧
      c.origin = .slotCreation slot (newEntries text metadata asked slot) ∧
      (before.mapIdx fun i s => creation text metadata i s (newEntries text metadata asked s)) =
        (front.filter fun c => c.origin.isCreation) ∧
      (behind.mapIdx fun i s =>
        creation text metadata (i + 1 + before.length) s (newEntries text metadata asked s)) =
        back.filter fun c => c.origin.isCreation := by
  have hcreation : c.origin.isCreation = true := by
    cases ho : c.origin <;> simp [ho, Origin.creates] at hc ⊢
    rfl
  have hsplit := h.creations
  rw [List.filter_append, List.filter_cons_of_pos (by exact hcreation)] at hsplit
  -- The creations in front of `c` and behind it cut the list of created slots at the same place
  obtain ⟨before, rest, hcreated, hbefore, hrest⟩ := List.mapIdx_eq_append_iff.1 hsplit.symm
  obtain ⟨s, behind, rfl, hs, hbehind⟩ := List.mapIdx_eq_cons_iff.1 hrest
  have ho : c.origin = .slotCreation s (newEntries text metadata asked s) := by
    rw [← hs, origin_creation]
  obtain rfl : s = slot := by
    rw [ho] at hc
    exact beq_iff_eq.1 hc
  refine ⟨before, behind, hcreated, ?_, ho, hbefore, hbehind⟩
  rw [List.countP_eq_length_filter, ← hbefore, List.length_mapIdx]

/-- A further call for a slot that is created puts a change with one more entry in the place of the one
that creates it. -/
private theorem Pends.set_creation {front back : ChangeSet} {c : Change}
    (h : Pends text metadata asked (front ++ c :: back)) (hc : c.origin.creates slot = true)
    (habsent : isAbsent text metadata slot = true)
    (hnew : (newEntries text metadata asked slot).any (sameUpToBlanks · e) = false) :
    Pends text metadata (asked ++ [(slot, e)])
      (front ++ creation text metadata (front.countP fun c => c.origin.isCreation) slot
        (newEntries text metadata asked slot ++ [e]) :: back) := by
  -- The creation of the slot stands between those of other slots
  obtain ⟨before, behind, hcreated, hlength, ho, hbefore, hbehind⟩ := h.creation_split hc
  have horigin : (creation text metadata (front.countP fun c => c.origin.isCreation) slot
      (newEntries text metadata asked slot ++ [e])).origin =
        .slotCreation slot (newEntries text metadata asked slot ++ [e]) := origin_creation _ _
  have hnew' : newEntries text metadata (asked ++ [(slot, e)]) slot =
      newEntries text metadata asked slot ++ [e] := by
    rw [newEntries_concat, writtenEntries_of_isAbsent habsent, List.nil_append, hnew]
    rfl
  refine ⟨fun slot' array' harray' => ?_, ?_, fun d hd => ?_⟩
  · rw [newEntries_of_slotArray? habsent harray', ← h.additions slot' array' harray']
    simp [horigin, ho, Origin.isEntryIn]
  -- The slots that are created stay the same, and only the entries of this one change
  · have hsame : createdSlots text metadata (asked ++ [(slot, e)]) = before ++ slot :: behind := by
      rw [createdSlots_concat, if_neg (by rw [hcreated]; simp), List.append_nil, hcreated]
    have hnodup : (before ++ slot :: behind).Nodup := hcreated ▸ nodup_createdSlots
    obtain ⟨_, hbehindNodup, hdisjoint⟩ := List.nodup_append.1 hnodup
    have hotherBefore : ∀ s ∈ before,
        newEntries text metadata (asked ++ [(slot, e)]) s = newEntries text metadata asked s :=
      fun s hs => newEntries_concat_of_ne fun heq => hdisjoint s hs slot List.mem_cons_self heq.symm
    have hotherBehind : ∀ s ∈ behind,
        newEntries text metadata (asked ++ [(slot, e)]) s = newEntries text metadata asked s :=
      fun s hs => newEntries_concat_of_ne fun heq => (List.nodup_cons.1 hbehindNodup).1 (heq ▸ hs)
    rw [hsame, List.mapIdx_append, List.mapIdx_cons, hnew',
      mapIdx_newEntries_congr (creation text metadata) hotherBefore, hbefore,
      mapIdx_newEntries_congr (fun i => creation text metadata (i + 1 + before.length)) hotherBehind,
      hbehind, Nat.zero_add, hlength, List.filter_append, List.filter_cons_of_pos]
    rw [horigin]
    rfl
  -- Any other change is one of those that were there
  · rcases List.mem_append.1 hd with hd | hd
    · exact h.nothingElse d (List.mem_append_left _ hd)
    · rcases List.mem_cons.1 hd with rfl | hd
      · exact .inl (by rw [horigin]; rfl)
      · exact h.nothingElse d (List.mem_append_right _ (.tail c hd))

/-- What a call for an entry of an array literal takes. -/
private theorem Pends.of_array {s : Session} (h : Pends text metadata asked s.pending)
    (harray : slotArray? text metadata slot = some array) :
    Pends text metadata (asked ++ [(slot, e)])
      ((s.decideEntry (locateInArray text slot array) e).perform s.pending) := by
  have hslot : (locateInArray text slot array).slot = slot := rfl
  have hcreates := createsSlot_locateInArray text slot array
  -- The number of pending entries of the slot is the number of its new entries
  have hchange : s.entryChange (locateInArray text slot array) e =
      addition text slot array (newEntries text metadata asked slot).length e := by
    rw [Session.entryChange, hslot, List.countP_eq_length_filter, h.additions slot array harray,
      List.length_mapIdx]
    rfl
  simp only [Session.decideEntry, hslot, contains_locateInArray,
    ← writtenEntries_of_slotArray? harray, isPendingEntry_eq, h.entriesIn_of_array harray, hcreates]
  by_cases hknown : (writtenEntries text metadata slot ++ newEntries text metadata asked slot).any
      (sameUpToBlanks · e) = true
  case pos =>
    have hsame := h.of_known hknown fun habsent => absurd rfl (ne_of_slotArray? habsent harray)
    rw [List.any_append, Bool.or_eq_true] at hknown
    split
    · exact hsame
    case isFalse hwritten =>
      rw [if_pos (hknown.resolve_left hwritten)]
      exact hsame
  case neg =>
    rw [Bool.not_eq_true] at hknown
    have hpush := h.push_addition harray hknown
    rw [List.any_append, Bool.or_eq_false_iff] at hknown
    simp only [hknown.1, hknown.2, Bool.false_eq_true, if_false, hchange]
    exact hpush

/-- What a call for an entry of a slot that is not there takes. -/
private theorem Pends.of_absent {s : Session} (h : Pends text metadata asked s.pending)
    (habsent : isAbsent text metadata slot = true) :
    Pends text metadata (asked ++ [(slot, e)])
      ((s.decideEntry { slot, existing := [], point := creationPoint text metadata } e).perform
        s.pending) := by
  have hcreates := createsSlot_creationPoint text metadata
  have hcontains : SlotLocation.contains
      { slot, existing := [], point := creationPoint text metadata } e = false := rfl
  have hcreation (es : List String) (before : List Change) :
      Session.creationChange { slot, existing := [], point := creationPoint text metadata } es before =
        creation text metadata (before.countP fun c => c.origin.isCreation) slot es := rfl
  simp only [Session.decideEntry, hcontains, isPendingEntry_eq, h.entriesIn_of_absent habsent, hcreates,
    Bool.false_eq_true, if_false, if_true]
  split
  case isTrue hknown =>
    -- An entry that is pending is one of a slot that is created
    refine h.of_known (by rw [writtenEntries_of_isAbsent habsent]; exact hknown) fun _ => ?_
    refine Decidable.byContradiction fun hmem => ?_
    rw [newEntries_of_not_mem habsent hmem] at hknown
    cases hknown
  case isFalse hnew =>
    simp only [Session.decideCreation]
    cases hfind : s.pending.findIdx? fun c => c.origin.creates slot with
    | none =>
      have hmem : slot ∉ createdSlots text metadata asked := by
        intro hmem
        obtain ⟨c, hc, hcreates⟩ := h.exists_creates hmem
        have hnot := List.findIdx?_eq_none_iff.1 hfind c hc
        rw [hcreates] at hnot
        cases hnot
      -- The lead depends on how many slots are created before this one
      have hlength : (s.pending.countP fun c => c.origin.isCreation) =
          (createdSlots text metadata asked).length := by
        rw [List.countP_eq_length_filter, h.creations, List.length_mapIdx]
      simp only [hcreation, hlength]
      exact h.push_creation habsent hmem
    | some i =>
      obtain ⟨hi, hc, _⟩ := List.findIdx?_eq_some_iff_getElem.1 hfind
      -- The pending creation of the slot is replaced in its place
      have hparts : s.pending = s.pending.take i ++ s.pending[i] :: s.pending.drop (i + 1) := by
        rw [← List.drop_eq_getElem_cons hi, List.take_append_drop]
      have hpends := hparts ▸ h
      obtain ⟨_, _, _, _, ho, _, _⟩ := hpends.creation_split hc
      have hothers : ((s.pending[i]?.map fun c => c.origin.entriesIn slot).getD []) =
          newEntries text metadata asked slot := by
        rw [List.getElem?_eq_getElem hi, Option.map_some, Option.getD_some, ho]
        simp [Origin.entriesIn]
      have hset := hpends.set_creation hc habsent (Bool.not_eq_true _ ▸ hnew)
      simp only [hcreation, hothers]
      rw [Decision.perform, ChangeSet.replace, List.set_eq_take_append_cons_drop, if_pos hi]
      exact hset

/-- A call that is carried out keeps the pending changes those that are asked for. -/
theorem pends_carryOut {s : Session} {d : Declaration}
    (hd : locateDeclaration s.snapshot s.config.selector = .ok d)
    (h : Pends s.snapshot.chars d.metadata asked s.pending)
    (hok : s.accepts (.entry slot e none) = true) :
    Pends s.snapshot.chars d.metadata (asked ++ [(slot, e)])
      (s.carryOut (.entry slot e none)).pending := by
  obtain ⟨haccepts, hcarry⟩ := s.carryOut_entry slot e
  rw [haccepts] at hok
  have hlocate := locateSlot_eq hd slot
  -- The slot is absent, or it is there with its array
  by_cases habsent : isAbsent s.snapshot.chars d.metadata slot = true
  case pos =>
    rw [if_pos habsent] at hlocate
    rw [hcarry _ hlocate, Session.pending_perform]
    exact h.of_absent habsent
  case neg =>
    rw [if_neg habsent] at hlocate
    cases harray : slotArray? s.snapshot.chars d.metadata slot with
    | none =>
      rw [hlocate, harray] at hok
      exact nomatch hok
    | some array =>
      rw [harray] at hlocate
      rw [hcarry _ hlocate, Session.pending_perform]
      exact h.of_array harray

end Enlist
