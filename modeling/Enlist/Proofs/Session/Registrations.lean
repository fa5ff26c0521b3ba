import Enlist.Proofs.Imports.Places
import Enlist.Proofs.Metadata.Routes
import Enlist.Proofs.Session.Slots

/-!
# What a request registers

A request registers a name that is imported, an entry of a slot, or a route. `Registration` is what is
registered, whatever change it takes: `Snapshot.holds` says that the text has it, and
`ChangeSet.registers` that a pending change is for it.

`Session.Settles` says all that a decision can be, so that whatever every such decision keeps up, every
request keeps up.

## Key results

- `registers_binding` / `registers_entry` / `registers_route`: the checks of what is pending
- `settles_decideImport` / `settles_decideEntry` / `settles_decideRoute`: what is decided
- `carryOut_keeps`: what every decision keeps up, a request keeps up
-/

namespace Enlist

open Edit Imports Metadata Syntax
open Text (sameUpToBlanks)

/-! ## Registrations -/

/-- A text without its blanks. -/
def Text.compacted (text : String) : String :=
  String.ofList (compact text.toList)

/-- Texts are taken for the same exactly if they are without their blanks. -/
theorem Text.sameUpToBlanks_iff {a b : String} :
    sameUpToBlanks a b = true ↔ Text.compacted a = Text.compacted b := by
  rw [sameUpToBlanks, beq_iff_eq, Text.compacted, Text.compacted, String.ofList_inj]

/-- What a request asks to be in a text. -/
inductive Registration where
  | binding (symbol module : String)
  | entry (slot entry : String)
  | route (literal : String)
  deriving DecidableEq, Repr

namespace Registration

/-- Two registrations come to the same. Blanks of entries and routes do not matter. -/
def same : Registration → Registration → Bool
  | binding a m, binding b n => a == b && m == n
  | entry s a, entry t b => s == t && sameUpToBlanks a b
  | route a, route b => sameUpToBlanks a b
  | _, _ => false

theorem same_comm (a b : Registration) : a.same b = b.same a := by
  cases a <;> cases b <;> simp [same, sameUpToBlanks, Bool.beq_comm]

/-- The registration without the blanks that do not matter. -/
def compacted : Registration → Registration
  | binding symbol module => binding symbol module
  | entry slot e => entry slot (Text.compacted e)
  | route literal => route (Text.compacted literal)

/-- Two registrations come to the same when they agree without their blanks. -/
theorem same_iff {a b : Registration} : a.same b = true ↔ a.compacted = b.compacted := by
  cases a <;> cases b <;> simp [same, compacted, Text.sameUpToBlanks_iff]

@[simp] theorem same_self (a : Registration) : a.same a = true :=
  same_iff.2 rfl

/-- Registrations that come to the same agree on what else comes to the same. -/
theorem same_congr {a b : Registration} (h : a.same b = true) (c : Registration) :
    a.same c = b.same c := by
  rw [Bool.eq_iff_iff, same_iff, same_iff, same_iff.1 h]

/-- The entry of the slot of the name that is registered. -/
def entryIn? (slot : String) : Registration → Option String
  | entry s e => if s = slot then some e else none
  | _ => none

def route? : Registration → Option String
  | route literal => some literal
  | _ => none

end Registration

/-- What a change is for. -/
def Edit.Origin.registrations : Origin → List Registration
  | importOf symbol module => [.binding symbol module]
  | slotEntry slot entry => [.entry slot entry]
  | slotCreation slot entries => entries.map (.entry slot)
  | route literal => [.route literal]
  | manual => []

namespace Edit.ChangeSet

/-- What the changes are for, in order. -/
def registrations (cs : ChangeSet) : List Registration :=
  cs.flatMap fun c => c.origin.registrations

/-- One of the changes is for the registration. -/
def registers (cs : ChangeSet) (r : Registration) : Bool :=
  cs.registrations.any (·.same r)

end Edit.ChangeSet

namespace Edit.ChangeSet

variable {r : Registration} {slot e : String} {es : List String}

/-- A change for one registration registers it in addition. -/
theorem registrations_push (cs : ChangeSet) {c : Change} (h : c.origin.registrations = [r]) :
    (cs.push c).registrations.Perm (r :: cs.registrations) := by
  rw [push, registrations, List.flatMap_append, List.flatMap_singleton, h]
  exact List.perm_append_singleton r cs.registrations

/-- A change that creates a slot with one entry more registers that in addition. -/
theorem registrations_extend (front back : ChangeSet) {c c' : Change}
    (was : c.origin = .slotCreation slot es) (becomes : c'.origin = .slotCreation slot (es ++ [e])) :
    (registrations (front ++ c' :: back)).Perm
      (.entry slot e :: registrations (front ++ c :: back)) := by
  simp only [registrations, List.flatMap_append, List.flatMap_cons, was, becomes,
    Origin.registrations, List.map_append, List.map_singleton, List.append_assoc,
    List.singleton_append]
  simp only [← List.append_assoc]
  exact List.perm_middle

/-- What is registered does not depend on the order. -/
theorem registers_of_perm {cs : ChangeSet} {rs : List Registration} (h : cs.registrations.Perm rs)
    (r : Registration) : cs.registers r = rs.any (·.same r) :=
  h.any_eq

end Edit.ChangeSet

/-- The text has what is registered. -/
def Snapshot.holds (s : Snapshot) (sel : Selector) : Registration → Bool
  | .binding symbol module => s.imports.isImported symbol module
  | .entry slot entry =>
    match locateDeclaration s sel with
    | .ok d => (writtenEntries s.chars d.metadata slot).any (sameUpToBlanks · entry)
    | .error _ => false
  | .route literal =>
    match routesOf? s sel with
    | some array => (array.namedChildren.map (Node.source s.chars)).any (sameUpToBlanks · literal)
    | none => false

/-! ## What is pending -/

/-- The entries of a slot among all registrations come from the changes one by one. -/
theorem filterMap_entryIn? (cs : ChangeSet) (slot : String) :
    cs.registrations.filterMap (Registration.entryIn? slot) =
      cs.flatMap fun c => c.origin.entriesIn slot := by
  rw [ChangeSet.registrations, List.filterMap_flatMap]
  congr 1
  funext c
  cases c.origin with
  | slotEntry s e => by_cases hs : s = slot <;> simp [Origin.registrations, Origin.entriesIn,
      Registration.entryIn?, hs]
  | slotCreation s es => by_cases hs : s = slot <;> simp [Origin.registrations, Origin.entriesIn,
      Registration.entryIn?, hs, List.filterMap_map, Function.comp_def]
  | _ => rfl

/-- The routes among all registrations come from the changes one by one. -/
theorem filterMap_route? (cs : ChangeSet) :
    cs.registrations.filterMap Registration.route? = cs.filterMap fun c => c.origin.route? := by
  rw [ChangeSet.registrations, List.filterMap_flatMap, List.filterMap_eq_flatMap_toList]
  congr 1
  funext c
  cases c.origin with
  | slotCreation s es => simp [Origin.registrations, Origin.route?, Registration.route?,
      List.filterMap_map, Function.comp_def]
  | _ => rfl

/-- A name is registered exactly if an import of it is pending. -/
theorem registers_binding (cs : ChangeSet) (symbol module : String) :
    cs.registers (.binding symbol module) = cs.containsOrigin (.importOf symbol module) := by
  rw [ChangeSet.registers, ChangeSet.registrations, List.any_flatMap, ChangeSet.containsOrigin]
  congr 1
  funext c
  rw [Bool.eq_iff_iff]
  cases c.origin <;> simp [Origin.registrations, Registration.same, Function.comp_def]

/-- An entry is registered exactly if one that is pending differs from it by blanks only. -/
theorem registers_entry (cs : ChangeSet) (slot e : String) :
    cs.registers (.entry slot e) =
      cs.any fun c => (c.origin.entriesIn slot).any (sameUpToBlanks · e) := by
  -- Change by change: only entries of the slot and creations of it have entries there
  rw [ChangeSet.registers, ChangeSet.registrations, List.any_flatMap]
  congr 1
  funext c
  cases c.origin with
  | slotEntry s e' =>
    by_cases hs : s = slot <;>
      simp [Origin.registrations, Origin.entriesIn, Registration.same, hs]
  | slotCreation s es =>
    by_cases hs : s = slot <;>
      simp [Origin.registrations, Origin.entriesIn, Registration.same, hs, Function.comp_def]
  | _ => simp [Origin.registrations, Origin.entriesIn, Registration.same]

/-- A route is registered exactly if one that is pending differs from it by blanks only. -/
theorem registers_route (cs : ChangeSet) (literal : String) :
    cs.registers (.route literal) =
      (cs.filterMap fun c => c.origin.route?).any (sameUpToBlanks · literal) := by
  rw [ChangeSet.registers, ChangeSet.registrations, List.any_flatMap, List.any_filterMap]
  congr 1
  funext c
  cases c.origin <;> simp [Origin.registrations, Origin.route?, Registration.same]

/-! ## The changes that are made -/

/-- The change that adds a route, when `i` others are added before it. -/
def routeAddition (text : List Char) (array : Node) (i : Nat) (literal : String) : Change :=
  ((locateInRoutes text array).point.entryChange "routes" literal i (.route literal)).describedAs
    "add route declaration"

/-- A change that adds a route puts in an item of the array literal of the routes. -/
theorem routeAddition_inserts (text : List Char) (array : Node) (i : Nat) (literal : String) :
    (routeAddition text array i literal).isInsertion = true ∧
      (routeAddition text array i literal).offset = routesOffset text array ∧
      (routeAddition text array i literal).text = routeItem text array i literal :=
  entryChange_locateInRoutes text array literal i (.route literal)

theorem origin_routeAddition (text : List Char) (array : Node) (i : Nat) (literal : String) :
    (routeAddition text array i literal).origin = .route literal :=
  InsertionPoint.origin_entryChange _ "routes" literal i _

theorem origin_satisfy (t : ImportTable) (r : ImportRequest) (pending : ChangeSet) :
    (t.satisfy r pending).origin = .importOf r.symbol r.module :=
  (ImportTable.satisfy_inserts t r pending).2.2

/-- A change that a request can have made of a snapshot, when `created` slots are created before it. -/
inductive Made (s : Snapshot) (sel : Selector) (created : Nat) : Change → Prop where
  | imported (r : ImportRequest) (pending : ChangeSet) : Made s sel created (s.imports.satisfy r pending)
  | entry {d : Declaration} {slot : String} {array : Node} (hd : locateDeclaration s sel = .ok d)
      (harray : slotArray? s.chars d.metadata slot = some array) (i : Nat) (e : String) :
      Made s sel created (addition s.chars slot array i e)
  | creation {d : Declaration} {slot : String} (hd : locateDeclaration s sel = .ok d)
      (habsent : isAbsent s.chars d.metadata slot = true) (es : List String) :
      Made s sel created (creation s.chars d.metadata created slot es)
  | route {array : Node} (harray : routesOf? s sel = some array) (i : Nat) (literal : String) :
      Made s sel created (routeAddition s.chars array i literal)

section

variable {s : Snapshot} {sel : Selector} {created : Nat} {c : Change} {slot e : String}
  {es : List String}

/-- What a change that is made for an entry, alone or with others, says of the slot. -/
private theorem Made.of_origin (h : Made s sel created c) :
    match c.origin with
    | .slotEntry slot _ =>
      ∃ d array, locateDeclaration s sel = .ok d ∧ slotArray? s.chars d.metadata slot = some array
    | .slotCreation slot es =>
      ∃ d, locateDeclaration s sel = .ok d ∧ isAbsent s.chars d.metadata slot = true ∧
        c = Enlist.creation s.chars d.metadata created slot es
    | _ => True := by
  -- Each kind of change says of its origin where it was made
  cases h with
  | imported r pending =>
    rw [origin_satisfy]
    trivial
  | entry hd harray i e =>
    rw [origin_addition]
    exact ⟨_, _, hd, harray⟩
  | creation hd habsent es =>
    rw [origin_creation]
    exact ⟨_, hd, habsent, rfl⟩
  | route harray i literal =>
    rw [origin_routeAddition]
    trivial

/-- A change for an entry alone adds it to an array literal. -/
theorem Made.of_slotEntry (h : Made s sel created c) (ho : c.origin = .slotEntry slot e) :
    ∃ d array, locateDeclaration s sel = .ok d ∧ slotArray? s.chars d.metadata slot = some array := by
  have hmade := h.of_origin
  rwa [ho] at hmade

/-- A change that creates a slot does so because the slot is not there. -/
theorem Made.of_slotCreation (h : Made s sel created c) (ho : c.origin = .slotCreation slot es) :
    ∃ d, locateDeclaration s sel = .ok d ∧ isAbsent s.chars d.metadata slot = true ∧
      c = Enlist.creation s.chars d.metadata created slot es := by
  have hmade := h.of_origin
  rwa [ho] at hmade

end

/-- The number of changes that create a slot. -/
abbrev Edit.ChangeSet.creations (cs : ChangeSet) : Nat :=
  cs.countP fun c => c.origin.isCreation

/-! ## Decisions -/

/-- A pending change that is extended is replaced in its place. -/
theorem Decision.perform_extend (front back : ChangeSet) (c c' : Change) :
    (Decision.extend front.length c').perform (front ++ c :: back) = front ++ c' :: back := by
  rw [perform, ChangeSet.replace, List.set_append_right _ _ (Nat.le_refl _), Nat.sub_self,
    List.set_cons_zero]

namespace Session

/-- All that a session can decide: nothing, a change for something that neither the text has nor a
pending change is for, or one more entry for a slot that a pending change creates. -/
inductive Settles (s : Session) : Decision → Prop where
  | present : Settles s .present
  | pending : Settles s .pending
  | append {c : Change} {r : Registration} (origin : c.origin.registrations = [r])
      (unheld : s.snapshot.holds s.config.selector r = false)
      (unregistered : s.pending.registers r = false)
      (made : Made s.snapshot s.config.selector s.pending.creations c)
      (created : ∀ slot, c.origin.creates slot = true →
        ∀ d ∈ s.pending, d.origin.creates slot = false) : Settles s (.append c)
  | extend {front back : ChangeSet} {c c' : Change} {slot e : String} {es : List String}
      (parts : s.pending = front ++ c :: back) (was : c.origin = .slotCreation slot es)
      (becomes : c'.origin = .slotCreation slot (es ++ [e]))
      (unheld : s.snapshot.holds s.config.selector (.entry slot e) = false)
      (unregistered : s.pending.registers (.entry slot e) = false)
      (made : Made s.snapshot s.config.selector front.creations c') :
      Settles s (.extend front.length c')

variable {s : Session}

/-- What is decided for an import settles it. -/
theorem settles_decideImport (s : Session) (r : ImportRequest) : s.Settles (s.decideImport r) := by
  rw [decideImport]
  -- The checks of the session are the conditions on a change that is put in
  split
  case isTrue => exact .pending
  case isFalse hpending =>
    rw [ImportTable.ensure]
    cases hheld : s.snapshot.imports.isImported r.symbol r.module with
    | true => exact .present
    | false =>
      refine .append (r := .binding r.symbol r.module) (by rw [origin_satisfy]; rfl) hheld ?_
        (.imported r s.pending) (fun slot hcreates => ?_)
      · rw [registers_binding]
        exact eq_false_of_ne_true hpending
      · rw [origin_satisfy] at hcreates
        cases hcreates

/-- What is decided for an entry of an array literal. -/
private theorem settles_of_array {slot : String} {d : Declaration} {array : Node}
    (hd : locateDeclaration s.snapshot s.config.selector = .ok d)
    (harray : slotArray? s.snapshot.chars d.metadata slot = some array) (e : String) :
    s.Settles (s.decideEntry (locateInArray s.snapshot.chars slot array) e) := by
  have hcreates := createsSlot_locateInArray s.snapshot.chars slot array
  have hchange : s.entryChange (locateInArray s.snapshot.chars slot array) e =
      addition s.snapshot.chars slot array (s.pending.countP fun c => c.origin.isEntryIn slot) e := rfl
  rw [decideEntry, contains_locateInArray, hcreates, hchange]
  -- Present, pending, or put in with the checks as its conditions
  split
  case isTrue => exact .present
  case isFalse hheld =>
    split
    case isTrue => exact .pending
    case isFalse hpending =>
      refine .append (r := .entry slot e) (by rw [origin_addition]; rfl) ?_ ?_ (.entry hd harray _ e)
        (fun slot' hcreates => ?_)
      · simp only [Snapshot.holds, hd, writtenEntries_of_slotArray? harray]
        exact eq_false_of_ne_true hheld
      · rw [registers_entry]
        exact eq_false_of_ne_true hpending
      · rw [origin_addition] at hcreates
        cases hcreates

/-- What is decided for an entry of a slot that is not there. -/
private theorem settles_of_absent {slot : String} {d : Declaration}
    (hd : locateDeclaration s.snapshot s.config.selector = .ok d)
    (habsent : isAbsent s.snapshot.chars d.metadata slot = true) (e : String) :
    s.Settles (s.decideEntry
      { slot, existing := [], point := creationPoint s.snapshot.chars d.metadata } e) := by
  have hcreates := createsSlot_creationPoint s.snapshot.chars d.metadata
  have hcontains : SlotLocation.contains
      { slot, existing := [], point := creationPoint s.snapshot.chars d.metadata } e = false := rfl
  have hcreation (es : List String) (before : List Change) :
      creationChange { slot, existing := [], point := creationPoint s.snapshot.chars d.metadata } es
          before =
        creation s.snapshot.chars d.metadata (before.countP fun c => c.origin.isCreation) slot es := rfl
  have hunheld : s.snapshot.holds s.config.selector (.entry slot e) = false := by
    simp only [Snapshot.holds, hd, writtenEntries_of_isAbsent habsent]
    rfl
  simp only [decideEntry, hcontains, hcreates, Bool.false_eq_true, if_false, if_true]
  -- Pending already, or put in: as a new creation, or into the one that is pending
  split
  case isTrue => exact .pending
  case isFalse hpending =>
    have hunregistered : s.pending.registers (.entry slot e) = false := by
      rw [registers_entry]
      exact eq_false_of_ne_true hpending
    simp only [decideCreation, hcreation]
    cases hfind : s.pending.findIdx? fun c => c.origin.creates slot with
    | none =>
      have hnone := List.findIdx?_eq_none_iff.1 hfind
      refine .append (r := .entry slot e) (by rw [origin_creation]; rfl) hunheld hunregistered
        (.creation hd habsent [e]) (fun slot' hcreates => ?_)
      rw [origin_creation] at hcreates
      obtain rfl : slot = slot' := beq_iff_eq.1 hcreates
      exact hnone
    | some i =>
      obtain ⟨hi, hc, _⟩ := List.findIdx?_eq_some_iff_getElem.1 hfind
      -- The creation that is extended, with what is pending in front of it and behind
      have hparts : s.pending = s.pending.take i ++ s.pending[i] :: s.pending.drop (i + 1) := by
        rw [← List.drop_eq_getElem_cons hi, List.take_append_drop]
      -- It creates this slot, with the entries that it has so far
      obtain ⟨es, ho⟩ : ∃ es, s.pending[i].origin = .slotCreation slot es := by
        cases ho : s.pending[i].origin with
        | slotCreation slot' es =>
          rw [ho] at hc
          exact ⟨es, by rw [beq_iff_eq.1 hc]⟩
        | _ =>
          rw [ho] at hc
          cases hc
      have hothers : ((s.pending[i]?.map fun c => c.origin.entriesIn slot).getD []) = es := by
        rw [List.getElem?_eq_getElem hi, Option.map_some, Option.getD_some, ho]
        simp [Origin.entriesIn]
      have hlength : (s.pending.take i).length = i := List.length_take_of_le (Nat.le_of_lt hi)
      simp only [hothers]
      have hsettles := Settles.extend hparts ho (origin_creation _ _) hunheld hunregistered
        (.creation hd habsent (es ++ [e]))
      rwa [hlength] at hsettles

/-- What is decided for an entry settles it. -/
theorem settles_decideEntry {slot : String} {l : SlotLocation}
    (hl : locateSlot s.snapshot s.config.selector slot = .ok l) (e : String) :
    s.Settles (s.decideEntry l e) := by
  obtain ⟨d, hd, ⟨habsent, rfl⟩ | ⟨array, harray, rfl⟩⟩ := locateSlot_cases hl
  · exact settles_of_absent hd habsent e
  · exact settles_of_array hd harray e

/-- What is decided for a route. -/
theorem decideRoute_eq (s : Session) (text : List Char) (array : Node) (literal : String) :
    s.decideRoute (locateInRoutes text array) literal =
      if (array.namedChildren.map (Node.source text)).any (sameUpToBlanks · literal) then .present
      else if (s.pending.filterMap fun c => c.origin.route?).any (sameUpToBlanks · literal) then .pending
      else .append (routeAddition text array
        (s.pending.filterMap fun c => c.origin.route?).length literal) := by
  rw [decideRoute, contains_locateInRoutes]
  rfl

/-- What is decided for a route settles it. -/
theorem settles_decideRoute {l : SlotLocation}
    (hl : locateRoutes s.snapshot s.config.selector = .ok l) (literal : String) :
    s.Settles (s.decideRoute l literal) := by
  obtain ⟨array, harray, rfl⟩ := locateRoutes_eq_ok_iff.1 hl
  rw [decideRoute_eq]
  -- Present, pending, or put in with the checks as its conditions
  split
  case isTrue => exact .present
  case isFalse hheld =>
    split
    case isTrue => exact .pending
    case isFalse hpending =>
      refine .append (r := .route literal) (by rw [origin_routeAddition]; rfl) ?_ ?_
        (.route harray _ literal) (fun slot hcreates => ?_)
      · simp only [Snapshot.holds, harray]
        exact eq_false_of_ne_true hheld
      · rw [registers_route]
        exact eq_false_of_ne_true hpending
      · rw [origin_routeAddition] at hcreates
        exact nomatch hcreates

/-- What every decision keeps up, a request keeps up. -/
theorem carryOut_keeps {P : Session → Prop} (hstep : ∀ s d, P s → s.Settles d → P (s.perform d))
    (h : P s) (r : Request) : P (s.carryOut r) := by
  rw [carryOut, exec_registerSteps]
  cases r with
  | entry slot symbol module =>
    dsimp only
    cases hl : locateSlot s.snapshot s.config.selector slot with
    | error e => exact h
    | ok l =>
      simp only [registerEntry, importFor]
      -- The entry is decided in the session that has the import
      cases module with
      | none => exact hstep s _ h (settles_decideEntry hl symbol)
      | some m =>
        have himported := hstep s _ h (settles_decideImport s (entryImport symbol m))
        have hl' : locateSlot (s.perform (s.decideImport (entryImport symbol m))).snapshot
            (s.perform (s.decideImport (entryImport symbol m))).config.selector slot = .ok l := by
          simpa using hl
        exact hstep _ _ himported (settles_decideEntry hl' symbol)
  | imported r => exact hstep s _ h (settles_decideImport s r)
  | route literal =>
    dsimp only
    cases hl : locateRoutes s.snapshot s.config.selector with
    | error e => exact h
    | ok l => exact hstep s _ h (settles_decideRoute hl _)

end Session

end Enlist
