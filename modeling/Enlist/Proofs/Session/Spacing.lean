import Enlist.Proofs.Session.Lossless
import Enlist.Proofs.Session.Recognition

/-!
# What stands between new entries

What a change puts in front of its entry depends on how many changes for the same list were pending when
it was recorded, and is not looked at again. A `shelf` is what is pending for one list then: all changes
but the first have something in front of their entry, and the first has where it was not the first when
it was recorded.

`Spaced` says that the pending changes of each list are a shelf. Requests keep it up from any pending
changes on.

## Key results

- `decideEntry_cases`: all that a session can decide for an entry
- `shelf_concat` / `filter_shelf`: a shelf with one more change, and with fewer
-/

namespace Enlist

open Edit Imports Metadata Syntax
open Text (sameUpToBlanks)

/-! ## Changes by their slots -/

/-- The slot that is created, with its entries. -/
def Edit.Origin.creations : Origin → List (String × List String)
  | slotCreation slot entries => [(slot, entries)]
  | _ => []

namespace Edit.ChangeSet

/-- The entries that are added to a slot, in order. -/
def entriesIn (cs : ChangeSet) (slot : String) : List String :=
  cs.flatMap fun c => c.origin.entriesIn slot

/-- The slots that are created, with their entries, in order. -/
def created (cs : ChangeSet) : List (String × List String) :=
  cs.flatMap fun c => c.origin.creations

def createdNames (cs : ChangeSet) : List String :=
  cs.created.map Prod.fst

variable {cs : ChangeSet} {slot : String}

@[simp] theorem entriesIn_append (as bs : ChangeSet) (slot : String) :
    entriesIn (as ++ bs) slot = as.entriesIn slot ++ bs.entriesIn slot :=
  List.flatMap_append

@[simp] theorem entriesIn_cons (c : Change) (cs : ChangeSet) (slot : String) :
    entriesIn (c :: cs) slot = c.origin.entriesIn slot ++ cs.entriesIn slot :=
  List.flatMap_cons

@[simp] theorem entriesIn_nil (slot : String) : entriesIn [] slot = [] :=
  rfl

@[simp] theorem created_append (as bs : ChangeSet) : created (as ++ bs) = as.created ++ bs.created :=
  List.flatMap_append

@[simp] theorem created_cons (c : Change) (cs : ChangeSet) :
    created (c :: cs) = c.origin.creations ++ cs.created :=
  List.flatMap_cons

@[simp] theorem created_nil : created [] = [] :=
  rfl

@[simp] theorem createdNames_append (as bs : ChangeSet) :
    createdNames (as ++ bs) = as.createdNames ++ bs.createdNames := by
  simp [createdNames]

/-- Each change that creates a slot creates one. -/
theorem length_created (cs : ChangeSet) : cs.created.length = cs.creations := by
  induction cs with
  | nil => rfl
  | cons c cs ih =>
    rw [created_cons, List.length_append, ih]
    simp only [creations, List.countP_cons]
    cases c.origin <;> simp [Origin.creations, Origin.isCreation, Nat.add_comm]

/-- A slot is created by a pending change with these entries. -/
theorem mem_created {slot : String} {es : List String} :
    (slot, es) ∈ cs.created ↔ ∃ c ∈ cs, c.origin = .slotCreation slot es := by
  simp only [created, List.mem_flatMap]
  refine exists_congr fun c => and_congr_right fun _ => ?_
  cases c.origin <;> simp [Origin.creations, eq_comm]

/-- A slot is created by a pending change. -/
theorem mem_createdNames :
    slot ∈ cs.createdNames ↔ ∃ c ∈ cs, c.origin.creates slot = true := by
  simp only [createdNames, List.mem_map, Prod.exists, mem_created]
  constructor
  · rintro ⟨_, es, ⟨c, hc, ho⟩, rfl⟩
    exact ⟨c, hc, by simp [ho, Origin.creates]⟩
  · rintro ⟨c, hc, hcreates⟩
    cases ho : c.origin with
    | slotCreation s es =>
      rw [ho] at hcreates
      exact ⟨s, es, ⟨c, hc, ho⟩, beq_iff_eq.1 hcreates⟩
    | _ => simp [ho, Origin.creates] at hcreates

end Edit.ChangeSet

/-! ## Shelves -/

section

variable {α : Type} {change : Bool → α → Change} {led : Bool} {as : List α}

/-- Changes for the items of one list: `change led a` puts in the item `a`, with something in front of it
if `led` holds. All changes but the first have something in front of their item. -/
def shelf (change : Bool → α → Change) (led : Bool) : List α → List Change
  | [] => []
  | a :: as => change led a :: as.map (change true)

/-- The first of some changes is left out, and another is not. -/
def firstDropped (keep : Change → Bool) : List Change → Bool
  | [] => false
  | c :: cs => !keep c && cs.any keep

/-- One more item has a separator if anything stands in front of it. -/
theorem shelf_concat (h : led = true → as ≠ []) (a : α) :
    shelf change led (as ++ [a]) = shelf change led as ++ [change (!as.isEmpty) a] := by
  cases as with
  | nil =>
    have hled : led = false := eq_false_of_ne_true fun hl => h hl rfl
    simp [shelf, hled]
  | cons b as => simp [shelf]

/-- Each item is put in by one change. -/
theorem length_shelf (as : List α) : (shelf change led as).length = as.length := by
  cases as <;> simp [shelf]

/-- A shelf with an item in the place of another. -/
theorem shelf_set (front back : List α) (a : α) :
    shelf change led (front ++ a :: back) =
      shelf change led front ++ change (led || !front.isEmpty) a :: back.map (change true) := by
  cases front with
  | nil => simp [shelf]
  | cons b front => simp [shelf]

/-- What is left of a shelf is a shelf. Its first change has something in front of it when the first
change of the whole shelf is left out. -/
theorem filter_shelf {name : Change → List α} (hname : ∀ b a, name (change b a) = [a])
    (keep : Change → Bool) (as : List α) :
    (shelf change false as).filter keep =
      shelf change (firstDropped keep (shelf change false as))
        (((shelf change false as).filter keep).flatMap name) := by
  have hmap (l : List α) : (l.map (change true)).flatMap name = l := by
    simp [List.flatMap_map, hname]
  cases as with
  | nil => rfl
  | cons a as =>
    rw [shelf, firstDropped]
    cases hkeep : keep (change false a) with
    | true =>
      rw [List.filter_cons_of_pos hkeep, List.flatMap_cons, hname, List.filter_map, hmap]
      rfl
    | false =>
      rw [List.filter_cons_of_neg (by simp [hkeep]), List.filter_map, hmap]
      -- Where none of the others is kept either, nothing is left
      cases hrest : as.filter (keep ∘ change true) with
      | nil => rfl
      | cons b bs =>
        have hb : b ∈ as.filter (keep ∘ change true) := by simp [hrest]
        obtain ⟨hmem, hkept⟩ := List.mem_filter.1 hb
        have hany : (as.map (change true)).any keep = true :=
          List.any_eq_true.2 ⟨_, List.mem_map_of_mem hmem, hkept⟩
        rw [hany]
        rfl

end

/-- The change that adds an entry to an array literal, in front of which something stands if `led`
holds. -/
def entryAdded (text : List Char) (slot : String) (array : Node) (led : Bool) (e : String) : Change :=
  addition text slot array led.toNat e

/-- The change that creates a slot, in front of which something stands if `led` holds. -/
def slotAdded (text : List Char) (metadata : Node) (led : Bool) (p : String × List String) : Change :=
  creation text metadata led.toNat p.1 p.2

section

variable {text : List Char} {metadata array : Node} {slot : String}

/-- It only matters whether an entry is the first. -/
theorem addition_eq (i : Nat) (e : String) :
    addition text slot array i e = entryAdded text slot array (i != 0) e := by
  simp only [entryAdded, addition, locateInArray]
  cases array.namedChildren.getLast? with
  | some last => rfl
  | none => cases i <;> rfl

/-- It only matters whether a slot is the first. -/
theorem creation_eq (i : Nat) (es : List String) :
    creation text metadata i slot es = slotAdded text metadata (i != 0) (slot, es) := by
  simp only [slotAdded, creation, creationPoint]
  cases metadata.namedChildren.getLast? with
  | some last => cases i <;> simp [InsertionPoint.creationChange, InsertionPoint.creation,
      InsertionPoint.creationLead]
  | none => cases i <;> rfl

end

/-! ## What can be decided -/

namespace Session

variable {s : Session} {d : Declaration} {slot e : String} {l : SlotLocation}

/-- What a decision for an entry of an array literal takes. -/
private theorem decideEntry_of_array {array : Node}
    (hl : locateSlot s.snapshot s.config.selector slot = .ok l)
    (heq : l = locateInArray s.snapshot.chars slot array)
    (hnew : s.recognises (.entry slot e) = false) :
    s.decideEntry l e = .append (addition s.snapshot.chars slot array
      (s.pending.countP fun c => c.origin.isEntryIn slot) e) := by
  rw [recognises, Bool.or_eq_false_iff, ← contains_of_locateSlot hl] at hnew
  have hpending : s.isPendingEntry l.slot e = s.pending.registers (.entry slot e) := by
    rw [slot_of_locateSlot hl, registers_entry]
    rfl
  have hcreates : l.point.createsSlot = false := by rw [heq, createsSlot_locateInArray]
  rw [decideEntry, hnew.1, hpending, hnew.2, hcreates, heq]
  rfl

/-- What a decision for an entry of a slot that is not there takes. -/
private theorem decideEntry_of_absent (hd : locateDeclaration s.snapshot s.config.selector = .ok d)
    (habsent : isAbsent s.snapshot.chars d.metadata slot = true)
    (hl : locateSlot s.snapshot s.config.selector slot = .ok l)
    (hnew : s.recognises (.entry slot e) = false) :
    (slot ∉ s.pending.createdNames ∧ s.decideEntry l e =
        .append (creation s.snapshot.chars d.metadata s.pending.creations slot [e])) ∨
      ∃ front c back es, s.pending = front ++ c :: back ∧ c.origin = .slotCreation slot es ∧
        s.decideEntry l e = .extend front.length
          (creation s.snapshot.chars d.metadata (ChangeSet.creations front) slot (es ++ [e])) := by
  -- A new entry is answered with a change
  have hanswers := answers_decideEntry hl e
  have hsome : (s.decideEntry l e).change? ≠ none := fun hnone => by
    rw [hanswers.change?_eq_none_iff.1 hnone] at hnew
    cases hnew
  generalize s.decideEntry l e = D at hanswers hsome
  cases hanswers.settles with
  | present => exact absurd rfl hsome
  | pending => exact absurd rfl hsome
  | @append c r horigin _ _ hmade hcreated =>
    have hnamed := hanswers.names c rfl
    rw [horigin, List.getLast?_singleton, Option.some.injEq] at hnamed
    subst hnamed
    left
    cases ho : c.origin with
    | slotEntry slot' e' =>
      -- Entries go one by one to slots that are there
      rw [ho, Origin.registrations, List.singleton_inj, Registration.entry.injEq] at horigin
      obtain ⟨rfl, rfl⟩ := horigin
      obtain ⟨d', array, hd', harray⟩ := hmade.of_slotEntry ho
      rw [hd] at hd'
      cases hd'
      exact absurd rfl (ne_of_slotArray? habsent harray)
    -- The creation of a slot that was not created before, or its name would be among those that
    -- were
    | slotCreation slot' es =>
      obtain ⟨d', hd', _, hc⟩ := hmade.of_slotCreation ho
      rw [hd] at hd'
      cases hd'
      rw [ho, Origin.registrations, List.map_eq_singleton_iff] at horigin
      obtain ⟨e', rfl, hentry⟩ := horigin
      cases hentry
      refine ⟨fun hmem => ?_, by rw [hc]⟩
      obtain ⟨c', hc', hcreates⟩ := ChangeSet.mem_createdNames.1 hmem
      rw [hcreated slot (by simp [ho, Origin.creates]) c' hc'] at hcreates
      cases hcreates
    | _ => simp [ho, Origin.registrations] at horigin
  -- The creation that is pending, with the entry added to it
  | @extend front back c c' slot' e' es hparts hwas hbecomes _ _ hmade =>
    right
    have hnamed := hanswers.names c' rfl
    rw [hbecomes, Origin.registrations, List.map_append, List.map_singleton, List.getLast?_concat,
      Option.some.injEq] at hnamed
    cases hnamed
    obtain ⟨d', hd', _, hc⟩ := hmade.of_slotCreation hbecomes
    rw [hd] at hd'
    cases hd'
    exact ⟨front, c, back, es, hparts, hwas, by rw [hc]⟩

/-- All that a session can decide for an entry: nothing, when it recognises the entry; one more change
for the array literal of the slot; or, for a slot that is not there, a change that creates it with the
entry, or one with the entry in the place of the one that creates it. -/
theorem decideEntry_cases (hd : locateDeclaration s.snapshot s.config.selector = .ok d)
    (hl : locateSlot s.snapshot s.config.selector slot = .ok l) (e : String) :
    (s.recognises (.entry slot e) = true ∧ (s.decideEntry l e).change? = none) ∨
      s.recognises (.entry slot e) = false ∧
        ((∃ array, slotArray? s.snapshot.chars d.metadata slot = some array ∧
            s.decideEntry l e = .append (addition s.snapshot.chars slot array
              (s.pending.countP fun c => c.origin.isEntryIn slot) e)) ∨
          isAbsent s.snapshot.chars d.metadata slot = true ∧
            ((slot ∉ s.pending.createdNames ∧ s.decideEntry l e =
                .append (creation s.snapshot.chars d.metadata s.pending.creations slot [e])) ∨
              ∃ front c back es, s.pending = front ++ c :: back ∧ c.origin = .slotCreation slot es ∧
                s.decideEntry l e = .extend front.length (creation s.snapshot.chars d.metadata
                  (ChangeSet.creations front) slot (es ++ [e])))) := by
  cases hrec : s.recognises (.entry slot e) with
  | true => exact .inl ⟨rfl, (answers_decideEntry hl e).change?_eq_none_iff.2 hrec⟩
  | false =>
    refine .inr ⟨rfl, ?_⟩
    obtain ⟨d', hd', ⟨habsent, _⟩ | ⟨array, harray, heq⟩⟩ := locateSlot_cases hl <;>
    · rw [hd] at hd'
      cases hd'
      first
      | exact .inr ⟨habsent, decideEntry_of_absent hd habsent hl hrec⟩
      | exact .inl ⟨array, harray, decideEntry_of_array hl heq hrec⟩

/-- All that a session can decide for a name that is imported. -/
theorem decideImport_cases (s : Session) (r : ImportRequest) :
    (s.decideImport r).change? = none ∨
      s.decideImport r = .append (s.snapshot.imports.satisfy r s.pending) := by
  rw [decideImport]
  split
  case isTrue => exact .inl rfl
  case isFalse =>
    rw [ImportTable.ensure]
    cases s.snapshot.imports.isImported r.symbol r.module with
    | true => exact .inl rfl
    | false => exact .inr rfl

end Session

/-! ## Pending changes that are shelves -/

section

/-- The changes for each array literal, and those that create slots, are shelves. -/
structure Spaced (s : Snapshot) (sel : Selector) (d : Declaration) (led : String → Bool)
    (ledSlots : Bool) (pending : ChangeSet) : Prop where
  made : ∀ c ∈ pending, c.origin.route? = none ∧ ∃ created, Made s sel created c
  /-- No slot is created twice. -/
  once : pending.createdNames.Nodup
  entries : ∀ slot array, slotArray? s.chars d.metadata slot = some array →
    (pending.filter fun c => c.origin.isEntryIn slot) =
      shelf (entryAdded s.chars slot array) (led slot) (pending.entriesIn slot)
  creations : (pending.filter fun c => c.origin.isCreation) =
    shelf (slotAdded s.chars d.metadata) ledSlots pending.created

variable {s : Snapshot} {sel : Selector} {d : Declaration} {led : String → Bool} {ledSlots : Bool}
  {pending front back : ChangeSet} {c : Change} {array : Node} {slot e : String} {es : List String}

theorem spaced_nil (s : Snapshot) (sel : Selector) (d : Declaration) :
    Spaced s sel d (fun _ => false) false [] :=
  ⟨by simp, List.nodup_nil, fun _ _ _ => rfl, rfl⟩

/-- Changes that do not create a slot add nothing to it, unless it is there. -/
theorem entriesIn_eq_nil (hd : locateDeclaration s sel = .ok d)
    (hmade : ∀ c ∈ pending, ∃ created, Made s sel created c)
    (habsent : isAbsent s.chars d.metadata slot = true) (hslot : slot ∉ pending.createdNames) :
    pending.entriesIn slot = [] := by
  rw [ChangeSet.entriesIn, List.flatMap_eq_nil_iff]
  intro c hc
  obtain ⟨_, hc'⟩ := hmade c hc
  -- An entry would need an array, and a creation would make the slot one that is created
  cases ho : c.origin with
  | slotEntry slot' e =>
    obtain ⟨d', array, hd', harray⟩ := hc'.of_slotEntry ho
    rw [hd] at hd'
    cases hd'
    simp [Origin.entriesIn, (ne_of_slotArray? habsent harray).symm]
  | slotCreation slot' es =>
    have hne : slot' ≠ slot := by
      rintro rfl
      exact hslot (ChangeSet.mem_createdNames.2 ⟨c, hc, by simp [ho, Origin.creates]⟩)
    simp [Origin.entriesIn, hne]
  | _ => rfl

/-- A slot that is created is not there. -/
theorem Spaced.isAbsent_of_created (h : Spaced s sel d led ledSlots pending)
    (hd : locateDeclaration s sel = .ok d)
    (hslot : slot ∈ pending.createdNames) : isAbsent s.chars d.metadata slot = true := by
  obtain ⟨c, hc, hcreates⟩ := ChangeSet.mem_createdNames.1 hslot
  obtain ⟨_, _, hmade⟩ := h.made c hc
  -- Only the creation of the slot puts it among the created ones
  cases ho : c.origin with
  | slotCreation slot' es =>
    obtain ⟨d', hd', habsent, _⟩ := hmade.of_slotCreation ho
    rw [hd] at hd'
    cases hd'
    rw [ho] at hcreates
    obtain rfl : slot' = slot := beq_iff_eq.1 hcreates
    exact habsent
  | _ => simp [ho, Origin.creates] at hcreates

/-- The entries of a slot that is created are those of the change that creates it. -/
theorem Spaced.entriesIn_of_parts (h : Spaced s sel d led ledSlots (front ++ c :: back))
    (hd : locateDeclaration s sel = .ok d) (hc : c.origin = .slotCreation slot es) :
    ChangeSet.entriesIn front slot = [] ∧ ChangeSet.entriesIn back slot = [] := by
  have hmem : slot ∈ ChangeSet.createdNames (front ++ c :: back) :=
    ChangeSet.mem_createdNames.2 ⟨c, by simp, by simp [hc, Origin.creates]⟩
  have habsent := h.isAbsent_of_created hd hmem
  -- The names of created slots are distinct, so this one is not among the others
  have honce := h.once
  simp only [ChangeSet.createdNames, ChangeSet.created_append, ChangeSet.created_cons, hc,
    Origin.creations, List.map_append, List.map_cons, List.nil_append, List.cons_append,
    List.nodup_append, List.nodup_cons] at honce
  obtain ⟨_, ⟨hback, _⟩, hapart⟩ := honce
  have hfront : slot ∉ ChangeSet.createdNames front :=
    fun hm => hapart slot hm slot List.mem_cons_self rfl
  exact ⟨entriesIn_eq_nil hd (fun c' hc' => (h.made c' (by simp [hc'])).2) habsent hfront,
    entriesIn_eq_nil hd (fun c' hc' => (h.made c' (by simp [hc'])).2) habsent hback⟩

/-- The entries of a slot to be created are those that it is created with. -/
theorem Spaced.entriesIn_of_created (h : Spaced s sel d led ledSlots pending)
    (hd : locateDeclaration s sel = .ok d) (hslot : (slot, es) ∈ pending.created) :
    pending.entriesIn slot = es := by
  obtain ⟨c, hc, ho⟩ := ChangeSet.mem_created.1 hslot
  obtain ⟨front, back, rfl⟩ := List.append_of_mem hc
  obtain ⟨hfront, hback⟩ := h.entriesIn_of_parts hd ho
  simp [ho, hfront, hback, Origin.entriesIn]

/-- A change for an import is on no shelf. -/
theorem Spaced.push_import (h : Spaced s sel d led ledSlots pending) (r : ImportRequest)
    (others : ChangeSet) : Spaced s sel d led ledSlots (pending.push (s.imports.satisfy r others)) := by
  have ho := origin_satisfy s.imports r others
  refine ⟨fun c hc => ?_, ?_, fun slot array harray => ?_, ?_⟩
  · rcases List.mem_append.1 hc with hc | hc
    · exact h.made c hc
    · rw [List.mem_singleton.1 hc]
      exact ⟨by rw [ho]; rfl, 0, .imported r others⟩
  · simpa [ChangeSet.push, ChangeSet.createdNames, ho, Origin.creations] using h.once
  · simpa [ChangeSet.push, ho, Origin.isEntryIn, Origin.entriesIn] using h.entries slot array harray
  · simpa [ChangeSet.push, ho, Origin.isCreation, Origin.creations] using h.creations

/-- One more change for an array literal goes on its shelf. -/
theorem Spaced.push_addition (h : Spaced s sel d led ledSlots pending)
    (hd : locateDeclaration s sel = .ok d) (harray : slotArray? s.chars d.metadata slot = some array)
    (hled : led slot = true → pending.entriesIn slot ≠ []) (e : String) :
    Spaced s sel d led ledSlots (pending.push (addition s.chars slot array
      (pending.countP fun c => c.origin.isEntryIn slot) e)) := by
  -- As many entries are pending as the list has additions
  have hcount : (pending.countP fun c => c.origin.isEntryIn slot) = (pending.entriesIn slot).length := by
    rw [List.countP_eq_length_filter, h.entries slot array harray, length_shelf]
  generalize (pending.countP fun c => c.origin.isEntryIn slot) = i at hcount ⊢
  have ho : (addition s.chars slot array i e).origin = .slotEntry slot e := origin_addition i
  refine ⟨fun c hc => ?_, ?_, fun slot' array' harray' => ?_, ?_⟩
  -- The new change is made for the slot, and all others were there
  · rcases List.mem_append.1 hc with hc | hc
    · exact h.made c hc
    · rw [List.mem_singleton.1 hc]
      exact ⟨by rw [ho]; rfl, 0, .entry hd harray _ e⟩
  · simpa [ChangeSet.push, ChangeSet.createdNames, ho, Origin.creations] using h.once
  -- Only the list of this slot grows, by one more addition
  · by_cases heq : slot = slot'
    · subst heq
      rw [harray] at harray'
      cases harray'
      simp only [ChangeSet.push, List.filter_append, h.entries slot array harray,
        ChangeSet.entriesIn_append, ChangeSet.entriesIn_cons, ChangeSet.entriesIn_nil, ho,
        Origin.entriesIn, if_true, List.append_nil, shelf_concat hled]
      congr 1
      rw [List.filter_cons_of_pos (by simp [ho, Origin.isEntryIn]), hcount, addition_eq]
      cases pending.entriesIn slot <;> rfl
    · simpa [ChangeSet.push, ho, Origin.isEntryIn, Origin.entriesIn, heq] using
        h.entries slot' array' harray'
  · simpa [ChangeSet.push, ho, Origin.isCreation, Origin.creations] using h.creations

/-- One more slot that is created goes on the shelf of new slots. -/
theorem Spaced.push_creation (h : Spaced s sel d led ledSlots pending)
    (hd : locateDeclaration s sel = .ok d) (habsent : isAbsent s.chars d.metadata slot = true)
    (hnew : slot ∉ pending.createdNames) (hled : ledSlots = true → pending.created ≠ [])
    (es : List String) :
    Spaced s sel d led ledSlots
      (pending.push (creation s.chars d.metadata pending.creations slot es)) := by
  -- As many creations are pending as there are slots that are created
  have hcount := pending.length_created
  generalize pending.creations = i at hcount ⊢
  have ho : (creation s.chars d.metadata i slot es).origin = .slotCreation slot es :=
    origin_creation i es
  refine ⟨fun c hc => ?_, ?_, fun slot' array' harray' => ?_, ?_⟩
  · rcases List.mem_append.1 hc with hc | hc
    · exact h.made c hc
    · rw [List.mem_singleton.1 hc]
      exact ⟨by rw [ho]; rfl, _, .creation hd habsent es⟩
  -- The slot is new among those that are created
  · simp only [ChangeSet.push, ChangeSet.createdNames_append, List.nodup_append]
    refine ⟨h.once, by simp [ChangeSet.createdNames, ho, Origin.creations], fun a ha b hb => ?_⟩
    obtain rfl : b = slot := by simpa [ChangeSet.createdNames, ho, Origin.creations] using hb
    exact fun heq => hnew (heq ▸ ha)
  · have hne := ne_of_slotArray? habsent harray'
    simpa [ChangeSet.push, ho, Origin.isEntryIn, Origin.entriesIn, hne] using
      h.entries slot' array' harray'
  -- The creations grow by one more
  · simp only [ChangeSet.push, List.filter_append, h.creations, ChangeSet.created_append,
      ChangeSet.created_cons, ChangeSet.created_nil, ho, Origin.creations, List.append_nil,
      shelf_concat hled]
    congr 1
    rw [List.filter_cons_of_pos (by simp [ho, Origin.isCreation]), creation_eq, ← hcount]
    cases pending.created <;> rfl

/-- A change that creates a slot with one more entry stands on the shelf where the one did that it takes
the place of; as the first it has nothing in front of it. -/
theorem Spaced.set_creation (h : Spaced s sel d led ledSlots (front ++ c :: back))
    (hd : locateDeclaration s sel = .ok d) (hc : c.origin = .slotCreation slot es) (es' : List String) :
    Spaced s sel d led (ledSlots && !(ChangeSet.created front).isEmpty)
      (front ++ creation s.chars d.metadata (ChangeSet.creations front) slot es' :: back) := by
  have hcount := ChangeSet.length_created front
  have hlength : (front.filter fun c => c.origin.isCreation).length =
      (ChangeSet.created front).length := by
    rw [hcount, ChangeSet.creations, List.countP_eq_length_filter]
  generalize ChangeSet.creations front = i at hcount ⊢
  have ho : (creation s.chars d.metadata i slot es').origin = .slotCreation slot es' :=
    origin_creation i es'
  have hslot : slot ∈ ChangeSet.createdNames (front ++ c :: back) :=
    ChangeSet.mem_createdNames.2 ⟨c, by simp, by simp [hc, Origin.creates]⟩
  have habsent := h.isAbsent_of_created hd hslot
  refine ⟨fun c' hc' => ?_, ?_, fun slot' array' harray' => ?_, ?_⟩
  · simp only [List.mem_append, List.mem_cons] at hc'
    rcases hc' with hc' | rfl | hc'
    · exact h.made c' (by simp [hc'])
    · exact ⟨by rw [ho]; rfl, _, .creation hd habsent es'⟩
    · exact h.made c' (by simp [hc'])
  · simpa [ChangeSet.createdNames, ho, hc, Origin.creations] using h.once
  · have hne := ne_of_slotArray? habsent harray'
    simpa [ho, hc, Origin.isEntryIn, Origin.entriesIn, hne] using h.entries slot' array' harray'
  · have hsplit := h.creations
    rw [List.filter_append, List.filter_cons_of_pos (by simp [hc, Origin.isCreation]),
      ChangeSet.created_append, ChangeSet.created_cons, hc, Origin.creations, List.singleton_append,
      shelf_set] at hsplit
    -- What stands in front of the change and what stands behind it stay as they are
    obtain ⟨hfront, hrest⟩ := List.append_inj hsplit (by rw [length_shelf, hlength])
    obtain ⟨-, hback⟩ := List.cons.inj hrest
    rw [List.filter_append, List.filter_cons_of_pos (by simp [ho, Origin.isCreation]), hfront, hback,
      ChangeSet.created_append, ChangeSet.created_cons, ho, Origin.creations, List.singleton_append,
      shelf_set, creation_eq, ← hcount]
    cases ChangeSet.created front with
    | nil => simp [shelf]
    | cons p ps => simp

end

end Enlist
