import Enlist.Proofs.Session.Kept
import Enlist.Proofs.Session.Spacing

/-!
# Entries of different slots

Two requests for entries of different slots, one of which is an array in the text, can be made in either
order. What each of them records is the same. What is pending afterwards may differ in one thing: two
changes that stand next to each other are the other way round (`Swapped`). They go to different places of
the text, if that is laid out as one without errors is, so a commit does not show it; and nothing that is
decided later depends on which of them comes first, so it stays that way, whatever is done with the
session.

## Key results

- `Swapped.exists_parts`: a slot that is created by one list is created by the other at a like place
- `Swapped.apply_eq`: both lists give the same text, if the two changes go to different places
- `Made.offset_ne`: which they do
- `Exchanged.move`: every move keeps up that two sessions differ in nothing else
- `entries_in_either_order`: so two requests may be exchanged
-/

namespace Enlist

open Edit Imports Metadata Store Syntax

/-- The change adds an entry to the slot of the name, or creates it. -/
def Edit.Origin.isFor (slot : String) (o : Origin) : Bool :=
  o.isEntryIn slot || o.creates slot

/-- At most, a change that adds an entry to the one slot and one for the other slot behind it are the
other way round in the second list. -/
inductive Swapped (slot slot' : String) : ChangeSet → ChangeSet → Prop where
  | same (cs : ChangeSet) : Swapped slot slot' cs cs
  | swap {a b : Change} (ha : a.origin.isEntryIn slot = true) (hb : b.origin.isFor slot' = true)
      (cs : ChangeSet) : Swapped slot slot' (a :: b :: cs) (b :: a :: cs)
  | cons (c : Change) {cs cs' : ChangeSet} (h : Swapped slot slot' cs cs') :
      Swapped slot slot' (c :: cs) (c :: cs')

/-- A change that adds an entry creates no slot. -/
theorem isCreation_of_isEntryIn {o : Origin} {slot : String} (h : o.isEntryIn slot = true) :
    o.isCreation = false := by
  cases o with
  | slotCreation => exact nomatch h
  | _ => rfl

/-- A change that creates no slot does not create this one. -/
theorem creates_of_isCreation {o : Origin} (h : o.isCreation = false) (slot : String) :
    o.creates slot = false := by
  cases o with
  | slotCreation => exact nomatch h
  | _ => rfl

/-- A change that creates a slot and is for some slot creates that one. -/
private theorem eq_of_isFor_of_creates {o : Origin} {slot slot' : String} (h : o.isFor slot' = true)
    (hcreates : o.creates slot = true) : slot = slot' := by
  cases o with
  | slotCreation name entries =>
    simp only [Origin.isFor, Origin.isEntryIn, Origin.creates, Bool.false_or, beq_iff_eq] at h hcreates
    rw [← hcreates, h]
  | _ => cases hcreates

namespace Swapped

variable {slot slot' : String} {cs cs' : ChangeSet}

/-- Swapped changes are the same in another order. -/
theorem perm (h : Swapped slot slot' cs cs') : cs.Perm cs' := by
  induction h with
  | same cs => exact .refl cs
  | swap _ _ cs => exact .swap _ _ cs
  | cons c _ ih => exact ih.cons c

theorem append_left (h : Swapped slot slot' cs cs') (front : ChangeSet) :
    Swapped slot slot' (front ++ cs) (front ++ cs') := by
  induction front with
  | nil => exact h
  | cons c front ih => exact .cons c ih

theorem push (h : Swapped slot slot' cs cs') (c : Change) :
    Swapped slot slot' (cs.push c) (cs'.push c) := by
  induction h with
  | same cs => exact .same _
  | swap ha hb cs => exact .swap ha hb (cs.push c)
  | cons c' _ ih => exact .cons c' ih

/-- The change that creates a slot stands in both lists, behind equally many others that create slots,
and may be replaced in both. -/
theorem exists_parts (h : Swapped slot slot' cs cs') {name : String} {front back : ChangeSet}
    {c : Change} (hparts : cs = front ++ c :: back) (hc : c.origin.creates name = true)
    (hfront : ∀ x ∈ front, x.origin.creates name = false) :
    ∃ front' back', cs' = front' ++ c :: back' ∧ (∀ x ∈ front', x.origin.creates name = false) ∧
      ChangeSet.creations front' = ChangeSet.creations front ∧
      ∀ c', c'.origin.creates name = true →
        Swapped slot slot' (front ++ c' :: back) (front' ++ c' :: back') := by
  -- Along the exchange: the change is in front of the two, one of them, or behind them
  induction h generalizing front with
  | same cs => exact ⟨front, back, hparts, hfront, rfl, fun c' _ => .same _⟩
  | @swap a b ha hb cs =>
    have hentry := isCreation_of_isEntryIn ha
    cases front with
    | nil =>
      -- The first change adds an entry
      simp only [List.nil_append, List.cons.injEq] at hparts
      rw [← hparts.1, creates_of_isCreation hentry] at hc
      exact nomatch hc
    | cons x rest =>
      simp only [List.cons_append, List.cons.injEq] at hparts
      obtain ⟨rfl, hparts⟩ := hparts
      cases rest with
      | nil =>
        simp only [List.nil_append, List.cons.injEq] at hparts
        obtain ⟨rfl, rfl⟩ := hparts
        -- The creation is the second of the two, and comes to stand in front of the entry
        refine ⟨[], a :: cs, rfl, fun _ hx => (nomatch hx), ?_, fun c' hc' => ?_⟩
        · simp [ChangeSet.creations, hentry]
        · have hfor : c'.origin.isFor slot' = true := by
            rw [← eq_of_isFor_of_creates hb hc, Origin.isFor, hc', Bool.or_true]
          exact .swap ha hfor cs
      | cons y rest =>
        simp only [List.cons_append, List.cons.injEq] at hparts
        obtain ⟨rfl, rfl⟩ := hparts
        have hperm := List.Perm.swap a b rest
        exact ⟨b :: a :: rest, back, rfl, fun z hz => hfront z (hperm.mem_iff.1 hz),
          hperm.countP_eq _, fun c' _ => .swap ha hb _⟩
  | @cons x cs cs' hrest ih =>
    cases front with
    | nil =>
      simp only [List.nil_append, List.cons.injEq] at hparts
      obtain ⟨rfl, rfl⟩ := hparts
      exact ⟨[], cs', rfl, hfront, rfl, fun c' _ => .cons c' hrest⟩
    | cons y front =>
      simp only [List.cons_append, List.cons.injEq] at hparts
      obtain ⟨rfl, hparts⟩ := hparts
      obtain ⟨hx, hfront⟩ := List.forall_mem_cons.1 hfront
      obtain ⟨front', back', hparts', hfront', hcount, hreplace⟩ := ih hparts hfront
      refine ⟨x :: front', back', congrArg _ hparts', List.forall_mem_cons.2 ⟨hx, hfront'⟩, ?_,
        fun c' hc' => .cons x (hreplace c' hc')⟩
      simp only [ChangeSet.creations, List.countP_cons] at hcount ⊢
      rw [hcount]

/-- At each byte the changes are the same and in the same order, if the two go to different ones. -/
private theorem filter_offset (h : Swapped slot slot' cs cs')
    (hplaces : ∀ a ∈ cs, ∀ b ∈ cs, a.origin.isEntryIn slot = true → b.origin.isFor slot' = true →
      a.offset ≠ b.offset) (p : Nat) :
    (cs.filter fun c => c.offset == p) = cs'.filter fun c => c.offset == p := by
  induction h with
  | same cs => rfl
  | @swap a b ha hb cs =>
    have hne := hplaces a (by simp) b (by simp) ha hb
    -- The two go to different bytes, so at most one of them is kept by the filter
    by_cases hp : a.offset = p
    · have hb : (b.offset == p) = false := by simpa [← hp] using hne.symm
      simp [List.filter_cons, hb]
    · have ha : (a.offset == p) = false := by simpa using hp
      simp [List.filter_cons, ha]
  | cons c _ ih =>
    have hrest := ih fun a ha b hb => hplaces a (.tail c ha) b (.tail c hb)
    rw [List.filter_cons, List.filter_cons, hrest]

/-- Both lists give the same text, if the two changes go to different places. -/
theorem apply_eq (h : Swapped slot slot' cs cs') {text : String}
    (hins : ∀ c ∈ cs, c.isInsertion = true ∧ Text.isBoundary text.toList c.offset = true)
    (hplaces : ∀ a ∈ cs, ∀ b ∈ cs, a.origin.isEntryIn slot = true → b.origin.isFor slot' = true →
      a.offset ≠ b.offset) : Edit.apply text cs = Edit.apply text cs' :=
  apply_eq_of_insertions hins (fun c hc => hins c (h.perm.mem_iff.2 hc)) (h.filter_offset hplaces)

end Swapped

/-! ## Places -/

section

variable {s : Snapshot} {sel : Selector} {n n' : Nat} {a b : Change} {slot slot' : String}

/-- A change for an entry alone goes to the place of new items of the array. -/
private theorem Made.offset_of_isEntryIn (h : Made s sel n a)
    (hentry : a.origin.isEntryIn slot = true) :
    ∃ d array, locateDeclaration s sel = .ok d ∧
      slotArray? s.chars d.metadata slot = some array ∧ a.offset = itemsOffset array := by
  -- Of the changes that are made, only an addition is an entry of a list
  cases h with
  | @entry d name array hd harray i e =>
    rw [origin_addition, Origin.isEntryIn, beq_iff_eq] at hentry
    exact ⟨d, array, hd, hentry ▸ harray, (addition_inserts s.chars name array i e).2.1⟩
  | imported r pending =>
    rw [origin_satisfy] at hentry
    cases hentry
  | creation hd habsent es =>
    rw [origin_creation] at hentry
    cases hentry
  | route _ i literal =>
    rw [origin_routeAddition] at hentry
    cases hentry

/-- A change that creates a slot goes to the place of new members of the metadata. -/
private theorem Made.offset_of_creates (h : Made s sel n a) (hcreates : a.origin.creates slot = true) :
    ∃ d, locateDeclaration s sel = .ok d ∧ a.offset = itemsOffset d.metadata := by
  cases ho : a.origin with
  | slotCreation name es =>
    obtain ⟨d, hd, _, ha⟩ := h.of_slotCreation ho
    rw [ha]
    exact ⟨d, hd, (creation_inserts s.chars d.metadata n name es).2.1⟩
  | _ =>
    rw [ho] at hcreates
    cases hcreates

/-- An entry of an array goes to another place than what is made for another slot. -/
theorem Made.offset_ne (hroot : s.root.Placed s.chars) (ha : Made s sel n a) (hb : Made s sel n' b)
    (hentry : a.origin.isEntryIn slot = true) (hfor : b.origin.isFor slot' = true)
    (hne : slot ≠ slot') : a.offset ≠ b.offset := by
  obtain ⟨d, array, hd, harray, hoffset⟩ := ha.offset_of_isEntryIn hentry
  obtain ⟨hplaced, _⟩ := placed_metadata hroot hd
  rw [hoffset]
  -- The other change is an entry of another list, or creates its slot in front of all lists
  rcases Bool.or_eq_true_iff.1 hfor with hentry' | hcreates
  · obtain ⟨d', array', hd', harray', hoffset'⟩ := hb.offset_of_isEntryIn hentry'
    obtain rfl : d = d' := Except.ok.inj (hd.symm.trans hd')
    rw [hoffset']
    exact itemsOffset_ne hplaced harray harray' hne
  · obtain ⟨d', hd', hoffset'⟩ := hb.offset_of_creates hcreates
    obtain rfl : d = d' := Except.ok.inj (hd.symm.trans hd')
    rw [hoffset']
    exact Nat.ne_of_lt (itemsOffset_lt_metadata hplaced harray)

end

namespace Session

variable {s s' : Session} {l : SlotLocation} {e slot slot' : String}

/-! ## What is decided for an entry -/

/-- What is decided for an entry of an array: nothing, or a change for it alone. -/
private theorem decideEntry_array_cases (hcreates : l.point.createsSlot = false) (e : String) :
    (s.decideEntry l e).change? = none ∨
      ∃ a, s.decideEntry l e = .append a ∧ a.origin = .slotEntry l.slot e := by
  rw [decideEntry, hcreates]
  split
  · exact .inl rfl
  · split
    · exact .inl rfl
    · exact .inr ⟨_, rfl, InsertionPoint.origin_entryChange _ l.slot e _ _⟩

/-- An entry of an array is decided by what is pending for the slot, and not by its place. -/
private theorem decideEntry_congr (hcreates : l.point.createsSlot = false)
    (hknown : s.isPendingEntry l.slot e = s'.isPendingEntry l.slot e)
    (hcount : (s.pending.countP fun c => c.origin.isEntryIn l.slot) =
      s'.pending.countP fun c => c.origin.isEntryIn l.slot) :
    s.decideEntry l e = s'.decideEntry l e := by
  simp only [decideEntry, entryChange, hcreates, hknown, hcount, Bool.false_eq_true, if_false]

/-- A slot is created by no change, or there is a first one that creates it. -/
private theorem creates_cases (cs : ChangeSet) (slot : String) :
    (∀ c ∈ cs, c.origin.creates slot = false) ∨
      ∃ front c back, cs = front ++ c :: back ∧ c.origin.creates slot = true ∧
        ∀ x ∈ front, x.origin.creates slot = false := by
  cases hfind : cs.find? fun c => c.origin.creates slot with
  | none => exact .inl fun c hc => eq_false_of_ne_true (List.find?_eq_none.1 hfind c hc)
  | some c =>
    obtain ⟨hc, front, back, hparts, hfront⟩ := List.find?_eq_some_iff_append.1 hfind
    exact .inr ⟨front, c, back, hparts, hc, fun x hx => by simpa using hfront x hx⟩

/-- A slot that no pending change creates is created by a new one. -/
private theorem decideCreation_of_none (h : ∀ c ∈ s.pending, c.origin.creates l.slot = false) :
    s.decideCreation l e = .append (creationChange l [e] s.pending) := by
  rw [decideCreation, List.findIdx?_eq_none_iff.2 h]

/-- A slot that a pending change creates is created by that one with one entry more. -/
private theorem decideCreation_of_parts {front back : ChangeSet} {c : Change}
    (hparts : s.pending = front ++ c :: back) (hc : c.origin.creates l.slot = true)
    (hfront : ∀ x ∈ front, x.origin.creates l.slot = false) :
    s.decideCreation l e =
      .extend front.length (creationChange l (c.origin.entriesIn l.slot ++ [e]) front) := by
  have hfind : s.pending.findIdx? (fun c => c.origin.creates l.slot) = some front.length := by
    rw [hparts, List.findIdx?_append, List.findIdx?_eq_none_iff.2 hfront, List.findIdx?_cons, hc]
    simp
  have hget : s.pending[front.length]? = some c := by
    rw [hparts, List.getElem?_append_right (Nat.le_refl _), Nat.sub_self, List.getElem?_cons_zero]
  have htake : s.pending.take front.length = front := by rw [hparts, List.take_left]
  rw [decideCreation, hfind]
  simp only [hget, htake, Option.map_some, Option.getD_some]

/-- It only matters how many slots are created before. -/
private theorem creationChange_congr {before before' : ChangeSet} (es : List String)
    (h : before.creations = before'.creations) :
    creationChange l es before = creationChange l es before' := by
  simp only [ChangeSet.creations] at h
  rw [creationChange, creationChange, h]

private theorem origin_creationChange (es : List String) (before : ChangeSet) :
    (creationChange l es before).origin = .slotCreation l.slot es :=
  InsertionPoint.origin_creationChange _ l.slot es _ _

/-- A change that creates no slot does not matter behind the others. -/
private theorem decideCreation_push {a : Change} (h : s'.pending = s.pending ++ [a])
    (ha : a.origin.isCreation = false) : s'.decideCreation l e = s.decideCreation l e := by
  -- An entry behind does not move a creation, nor is it counted as one
  rcases creates_cases s.pending l.slot with hnone | ⟨front, c, back, hparts, hc, hfront⟩
  · have hnone' : ∀ c ∈ s'.pending, c.origin.creates l.slot = false := by
      rw [h]
      intro c hc
      rcases List.mem_append.1 hc with hc | hc
      · exact hnone c hc
      · obtain rfl := List.mem_singleton.1 hc
        exact creates_of_isCreation ha l.slot
    have hcount : ChangeSet.creations s'.pending = s.pending.creations := by
      simp [ChangeSet.creations, h, ha]
    rw [decideCreation_of_none hnone, decideCreation_of_none hnone', creationChange_congr [e] hcount]
  · have hparts' : s'.pending = front ++ c :: (back ++ [a]) := by
      rw [h, hparts, List.append_assoc, List.cons_append]
    rw [decideCreation_of_parts hparts hc hfront, decideCreation_of_parts hparts' hc hfront]

/-! ## Two orders of what is pending -/

/-- Two sessions over one text differ at most in the order of two pending changes that stand next to
each other. -/
structure Exchanged (slot slot' : String) (s s' : Session) : Prop where
  snapshot : s.snapshot = s'.snapshot
  config : s.config = s'.config
  lastCommitted : s.lastCommitted = s'.lastCommitted
  pending : Swapped slot slot' s.pending s'.pending

@[simp] theorem lastCommitted_perform (s : Session) (d : Decision) :
    (s.perform d).lastCommitted = s.lastCommitted := by
  cases d <;> rfl

namespace Exchanged

private theorem perform (h : Exchanged slot slot' s s') {d d' : Decision}
    (hpending : Swapped slot slot' (d.perform s.pending) (d'.perform s'.pending)) :
    Exchanged slot slot' (s.perform d) (s'.perform d') where
  snapshot := by rw [snapshot_perform, snapshot_perform, h.snapshot]
  config := by rw [config_perform, config_perform, h.config]
  lastCommitted := by rw [lastCommitted_perform, lastCommitted_perform, h.lastCommitted]
  pending := by rwa [pending_perform, pending_perform]

/-- Nothing is done to either session, or one change goes behind the others in both. -/
private theorem perform_same (h : Exchanged slot slot' s s') {d : Decision}
    (hd : d.change? = none ∨ ∃ c, d = .append c) :
    Exchanged slot slot' (s.perform d) (s'.perform d) := by
  rcases hd with hnone | ⟨c, rfl⟩
  · rw [perform_of_change?_eq_none hnone, perform_of_change?_eq_none hnone]
    exact h
  · exact h.perform (h.pending.push c)

/-- Sessions that are exchanged stay so when both import. -/
private theorem decideImport (h : Exchanged slot slot' s s') (r : ImportRequest) :
    Exchanged slot slot' (s.perform (s.decideImport r)) (s'.perform (s'.decideImport r)) := by
  have hperm := h.pending.perm
  have hfilled (offset : Nat) :
      ImportTable.isFilled offset s.pending = ImportTable.isFilled offset s'.pending := hperm.any_eq
  have hsame : s.decideImport r = s'.decideImport r := by
    have hknown : s.pending.containsOrigin r.origin = s'.pending.containsOrigin r.origin := hperm.any_eq
    simp only [Session.decideImport, ImportTable.ensure, ImportTable.satisfy, ImportTable.join?,
      hknown, hfilled, h.snapshot]
  rw [hsame]
  exact h.perform_same ((decideImport_cases s' r).imp_right fun happend => ⟨_, happend⟩)

/-- Sessions that are exchanged stay so when a slot is created in both. -/
private theorem decideCreation (h : Exchanged slot slot' s s') (l : SlotLocation) (e : String) :
    Exchanged slot slot' (s.perform (s.decideCreation l e)) (s'.perform (s'.decideCreation l e)) := by
  rcases creates_cases s.pending l.slot with hnone | ⟨front, c, back, hparts, hc, hfront⟩
  · have hnone' : ∀ c ∈ s'.pending, c.origin.creates l.slot = false := fun c hc =>
      hnone c (h.pending.perm.mem_iff.2 hc)
    have hcount : s.pending.creations = s'.pending.creations := h.pending.perm.countP_eq _
    rw [decideCreation_of_none hnone, decideCreation_of_none hnone', creationChange_congr [e] hcount]
    exact h.perform_same (.inr ⟨_, rfl⟩)
  · -- The slot is created in both sessions, at places that differ by the exchange at most
    obtain ⟨front', back', hparts', hfront', hcount, hreplace⟩ :=
      h.pending.exists_parts hparts hc hfront
    rw [decideCreation_of_parts hparts hc hfront, decideCreation_of_parts hparts' hc hfront',
      creationChange_congr _ hcount]
    refine h.perform ?_
    rw [hparts, hparts', Decision.perform_extend, Decision.perform_extend]
    exact hreplace _ (by rw [origin_creationChange, Origin.creates, beq_self_eq_true])

/-- Sessions that are exchanged stay so when both get an entry. -/
private theorem decideEntry (h : Exchanged slot slot' s s') (l : SlotLocation) (e : String) :
    Exchanged slot slot' (s.perform (s.decideEntry l e)) (s'.perform (s'.decideEntry l e)) := by
  have hperm := h.pending.perm
  have hknown : s.isPendingEntry l.slot e = s'.isPendingEntry l.slot e := hperm.any_eq
  -- A list takes the entry as another item; a slot that is absent is created or extended
  cases hcreates : l.point.createsSlot with
  | false =>
    rw [decideEntry_congr hcreates hknown (hperm.countP_eq _)]
    exact h.perform_same <|
      (decideEntry_array_cases hcreates e).imp_right fun ⟨a, happend, _⟩ => ⟨a, happend⟩
  | true =>
    simp only [Session.decideEntry, hcreates, if_true, hknown]
    split
    · exact h
    · split
      · exact h
      · exact h.decideCreation l e

/-- Sessions that are exchanged stay so when both get a route. -/
private theorem decideRoute (h : Exchanged slot slot' s s') (l : SlotLocation) (literal : String) :
    Exchanged slot slot' (s.perform (s.decideRoute l literal))
      (s'.perform (s'.decideRoute l literal)) := by
  have hroutes := h.pending.perm.filterMap fun c => c.origin.route?
  -- What is pending for the routes is the same in both orders
  have hsame : s.decideRoute l literal = s'.decideRoute l literal := by
    simp only [Session.decideRoute, hroutes.any_eq, hroutes.length_eq]
  rw [hsame]
  refine h.perform_same ?_
  rw [Session.decideRoute]
  split
  · exact .inl rfl
  · split
    · exact .inl rfl
    · exact .inr ⟨_, rfl⟩

/-- A request does the same to both. -/
theorem carryOut (h : Exchanged slot slot' s s') (r : Request) :
    Exchanged slot slot' (s.carryOut r) (s'.carryOut r) := by
  rw [Session.carryOut, Session.carryOut, exec_registerSteps, exec_registerSteps, h.snapshot, h.config]
  -- Both sessions locate the same, as they read the same snapshot
  cases r with
  | entry name symbol module =>
    dsimp only
    cases locateSlot s'.snapshot s'.config.selector name with
    | error e => exact h
    | ok l =>
      cases module with
      | none => exact h.decideEntry l symbol
      | some m => exact (h.decideImport (entryImport symbol m)).decideEntry l symbol
  | imported r => exact h.decideImport r
  | route literal =>
    dsimp only
    cases locateRoutes s'.snapshot s'.config.selector with
    | error e => exact h
    | ok l => exact h.decideRoute l _

/-- The order of changes does not matter: it is the same in both sessions, or their text is laid out. -/
def Settled (s s' : Session) : Prop :=
  Alike s s' ∨ s.snapshot.root.Placed s.snapshot.chars

/-- Both sessions prepare the same commit. -/
theorem prepare_eq [Recovery] (h : Exchanged slot slot' s s') (hs : s.Reached) (hsettled : Settled s s')
    (hne : slot ≠ slot') (t : FileTree) : s.prepare t = s'.prepare t := by
  have happly : Edit.apply s.snapshot.text s.pending = Edit.apply s.snapshot.text s'.pending := by
    -- The changes are the same, or they are laid out and go to the bytes they went to before
    rcases hsettled with halike | hroot
    · rw [halike.pending]
    · refine h.pending.apply_eq (fun c hc => inserts_of_reached hs hroot hc)
        fun a ha b hb hentry hfor => ?_
      obtain ⟨_, hmade⟩ := (orderly_of_reached hs).made.mem ha
      obtain ⟨_, hmade'⟩ := (orderly_of_reached hs).made.mem hb
      exact hmade.offset_ne hroot hmade' hentry hfor hne
  have hlength : s.pending.length = s'.pending.length := h.pending.perm.length_eq
  have hpath : s.path = s'.path := congrArg Snapshot.path h.snapshot
  have hknows (d : Digest) : s.knows d = s'.knows d := by
    rw [knows, knows, h.snapshot, h.lastCommitted]
  rw [h.snapshot] at happly
  simp only [prepare, happly, hlength, hpath, hknows, h.snapshot]

/-- A commit of either session is answered in the same way and leaves the same store. -/
theorem commit [Recovery] (h : Exchanged slot slot' s s') (hs : s.Reached) (hsettled : Settled s s')
    (hne : slot ≠ slot') (t : FileTree) :
    (commitSteps.exec (s, t)).1 = (commitSteps.exec (s', t)).1 ∧
      (commitSteps.exec (s, t)).2.2 = (commitSteps.exec (s', t)).2.2 ∧
      Exchanged slot slot' (commitSteps.exec (s, t)).2.1 (commitSteps.exec (s', t)).2.1 := by
  rw [exec_commitSteps, exec_commitSteps, h.prepare_eq hs hsettled hne]
  cases s'.prepare t with
  | error e => exact ⟨rfl, rfl, h⟩
  | ok p =>
    simp only [exec_finishSteps]
    rcases (FileTree.commitSteps p.update).exec t with ⟨_ | _, t'⟩
    · exact ⟨rfl, rfl, h⟩
    · exact ⟨rfl, rfl, h.snapshot, h.config, rfl, h.pending⟩

/-- Every move does the same to both, and the order of changes does not come to matter: only a refresh
changes the text, and it leaves no changes. -/
theorem move [Recovery] (h : Exchanged slot slot' s s') (hs : s.Reached) (hsettled : Settled s s')
    (hne : slot ≠ slot') (m : Move) :
    Exchanged slot slot' (s.move m) (s'.move m) ∧ Settled (s.move m) (s'.move m) := by
  cases m with
  | register r =>
    refine ⟨h.carryOut r, hsettled.imp (fun halike => halike.carryOut r) fun hroot => ?_⟩
    rwa [Session.move, snapshot_carryOut]
  | registerIn name symbol suffix =>
    have hrequest : s.slotRequest name symbol suffix = s'.slotRequest name symbol suffix := by
      simp only [slotRequest, modulePath, h.config]
    rw [Session.move, Session.move, hrequest]
    refine ⟨h.carryOut _, hsettled.imp (fun halike => halike.carryOut _) fun hroot => ?_⟩
    rwa [snapshot_carryOut]
  | discard =>
    exact ⟨⟨h.snapshot, h.config, h.lastCommitted, .same _⟩, .inl ⟨h.snapshot, h.config, rfl⟩⟩
  | commit t =>
    -- A commit leaves what is pending
    have halike := alike_commit (s, t)
    have halike' := alike_commit (s', t)
    refine ⟨(h.commit hs hsettled hne t).2.2, hsettled.imp (fun hsame => ?_) fun hroot => ?_⟩
    · exact halike.trans (hsame.trans halike'.symm)
    · show (turn (s, t) .commit).1.snapshot.root.Placed (turn (s, t) .commit).1.snapshot.chars
      rwa [halike.snapshot]
  | refresh t =>
    have hpath : s.path = s'.path := congrArg Snapshot.path h.snapshot
    rw [Session.move, Session.move, exec_refreshSteps, exec_refreshSteps, hpath]
    cases readSnapshot t s'.path with
    | error e => exact ⟨h, hsettled⟩
    | ok snapshot => exact ⟨⟨rfl, h.config, rfl, .same _⟩, .inl ⟨rfl, h.config, rfl⟩⟩

/-- Sessions that are exchanged stay so over any moves. -/
theorem moveAll [Recovery] (h : Exchanged slot slot' s s') (hs : s.Reached) (hsettled : Settled s s')
    (hne : slot ≠ slot') (ms : List Move) :
    Exchanged slot slot' (s.moveAll ms) (s'.moveAll ms) ∧ Settled (s.moveAll ms) (s'.moveAll ms) := by
  induction ms generalizing s s' with
  | nil => exact ⟨h, hsettled⟩
  | cons m ms ih =>
    obtain ⟨hnext, hnextSettled⟩ := h.move hs hsettled hne m
    exact ih hnext (hs.move m) hnextSettled

end Exchanged

/-! ## Two requests -/

/-- The text has an array literal for the slot. -/
def HasArray (s : Session) (slot : String) : Prop :=
  ∃ d array, locateDeclaration s.snapshot s.config.selector = .ok d ∧
    slotArray? s.snapshot.chars d.metadata slot = some array

/-- Two requests may be made in either order: each is answered as if the other had not been made, and
whatever is done with the session afterwards, a commit has the same result and leaves the same store. -/
structure InEitherOrder [Recovery] (s : Session) (r r' : Request) : Prop where
  first : ((registerSteps r).exec (s.carryOut r')).1 = ((registerSteps r).exec s).1
  second : ((registerSteps r').exec (s.carryOut r)).1 = ((registerSteps r').exec s).1
  committed : ∀ (ms : List Move) (t : FileTree),
    (commitSteps.exec (((s.carryOut r).carryOut r').moveAll ms, t)).1 =
      (commitSteps.exec (((s.carryOut r').carryOut r).moveAll ms, t)).1
  stored : ∀ (ms : List Move) (t : FileTree),
    (commitSteps.exec (((s.carryOut r).carryOut r').moveAll ms, t)).2.2 =
      (commitSteps.exec (((s.carryOut r').carryOut r).moveAll ms, t)).2.2

theorem InEitherOrder.symm [Recovery] {r r' : Request} (h : s.InEitherOrder r r') :
    s.InEitherOrder r' r :=
  ⟨h.second, h.first, fun ms t => (h.committed ms t).symm, fun ms t => (h.stored ms t).symm⟩

/-- What is decided for an entry: nothing, one more change for it alone, or one more entry for a change
that creates the slot. -/
private theorem Answers.entry_cases {d : Decision} (h : s.Answers (.entry slot e) d) :
    d.change? = none ∨
      (∃ c, d = .append c ∧ (c.origin = .slotEntry slot e ∨ c.origin = .slotCreation slot [e])) ∨
      ∃ front c c' back es, s.pending = front ++ c :: back ∧ c.origin = .slotCreation slot es ∧
        c'.origin = .slotCreation slot (es ++ [e]) ∧ d = .extend front.length c' := by
  -- An entry is there, is pending, is put behind all, or extends the creation of its slot
  cases d with
  | present => exact .inl rfl
  | pending => exact .inl rfl
  | append c =>
    have horigin := h.registrations_of_append
    refine .inr (.inl ⟨c, rfl, ?_⟩)
    cases ho : c.origin <;> simp_all [Origin.registrations]
  | extend i c' =>
    obtain ⟨front, c, back, _, es, _, hparts, rfl, hwas, hbecomes, heq⟩ := h.exists_of_extend
    cases heq
    exact .inr (.inr ⟨front, c, c', back, es, hparts, hwas, hbecomes, rfl⟩)

/-- What is decided for an entry of another slot touches no entry of a slot. -/
private theorem Answers.keeps_entries {e' : String} {d : Decision} (h : s.Answers (.entry slot' e') d)
    (hne : slot ≠ slot') :
    (s.perform d).isPendingEntry slot e = s.isPendingEntry slot e ∧
      ((s.perform d).pending.countP fun c => c.origin.isEntryIn slot) =
        s.pending.countP fun c => c.origin.isEntryIn slot := by
  rcases h.entry_cases with hnone | ⟨c, rfl, ho⟩ | ⟨front, c, c', back, es, hparts, hwas, hbecomes, rfl⟩
  · rw [perform_of_change?_eq_none hnone]
    exact ⟨rfl, rfl⟩
  · rcases ho with ho | ho <;>
      simp [isPendingEntry, Decision.perform, ChangeSet.push, ho, Origin.entriesIn, Origin.isEntryIn,
        hne.symm]
  · simp [isPendingEntry, hparts, Decision.perform_extend, hwas, hbecomes, Origin.entriesIn,
      Origin.isEntryIn, hne.symm]

section

variable {e' : String} {l' : SlotLocation}

/-- What is decided for an entry of another slot does not depend on one of an array. -/
private theorem decideEntry_perform_array {d : Decision} (hd : s.Answers (.entry slot e) d)
    (harray : d.change? = none ∨ ∃ a, d = .append a ∧ a.origin = .slotEntry slot e)
    (hne : l'.slot ≠ slot) : (s.perform d).decideEntry l' e' = s.decideEntry l' e' := by
  rcases harray with hnone | ⟨a, rfl, ho⟩
  · rw [perform_of_change?_eq_none hnone]
  · obtain ⟨hknown, hcount⟩ := hd.keeps_entries (e := e') hne
    cases hcreates : l'.point.createsSlot with
    | false => exact decideEntry_congr hcreates hknown hcount
    | true =>
      have hcreation : (s.perform (.append a)).decideCreation l' e' = s.decideCreation l' e' :=
        decideCreation_push rfl (by rw [ho]; rfl)
      simp only [decideEntry, hcreates, if_true, hknown, hcreation]

/-- An entry of an array and one of another slot are pending in either order, or the other slot is created
with its entry. -/
private theorem swapped_perform {d d' : Decision} (hd' : s.Answers (.entry slot' e') d')
    (harray : d.change? = none ∨ ∃ a, d = .append a ∧ a.origin = .slotEntry slot e) :
    Swapped slot slot' (d'.perform (d.perform s.pending)) (d.perform (d'.perform s.pending)) := by
  -- The entry of a list goes behind all, so the other one does with it what it would have done
  rcases harray with hnone | ⟨a, rfl, ha⟩
  · rw [Decision.perform_of_change?_eq_none hnone, Decision.perform_of_change?_eq_none hnone]
    exact .same _
  · have hentry : a.origin.isEntryIn slot = true := by rw [ha, Origin.isEntryIn, beq_self_eq_true]
    rcases hd'.entry_cases with hnone | ⟨b, rfl, hb⟩ | ⟨front, c, c', back, es, hparts, _, _, rfl⟩
    · rw [Decision.perform_of_change?_eq_none hnone, Decision.perform_of_change?_eq_none hnone]
      exact .same _
    · have hfor : b.origin.isFor slot' = true := by
        rcases hb with hb | hb <;> simp [hb, Origin.isFor, Origin.isEntryIn, Origin.creates]
      simp only [Decision.perform, ChangeSet.push, List.append_assoc, List.singleton_append]
      exact (Swapped.swap hentry hfor []).append_left s.pending
    -- A creation is extended in its place, and the entry stays behind it
    · have hparts' : (Decision.append a).perform s.pending = front ++ c :: (back ++ [a]) := by
        rw [hparts, Decision.perform, ChangeSet.push, List.append_assoc, List.cons_append]
      rw [hparts', Decision.perform_extend, hparts, Decision.perform_extend, Decision.perform,
        ChangeSet.push, List.append_assoc, List.cons_append]
      exact .same _

/-- An entry of a slot that is located gets what is decided for it. -/
private theorem exec_entry (hl : locateSlot s.snapshot s.config.selector slot = .ok l) (e : String) :
    (registerSteps (.entry slot e none)).exec s =
      (.ok (s.decideEntry l e).change?.toList, s.perform (s.decideEntry l e)) := by
  rw [exec_registerSteps]
  simp only [hl]
  rfl

/-- An entry of a slot that is not located is refused. -/
private theorem exec_entry_of_error {err : ResolveError}
    (hl : locateSlot s.snapshot s.config.selector slot = .error err) (e : String) :
    (registerSteps (.entry slot e none)).exec s = (.error (.resolve err), s) := by
  rw [exec_registerSteps]
  simp only [hl]

/-- Requests that are answered as if the other had not been made may be made in either order when they
leave sessions that differ only in the order of two changes. -/
private theorem InEitherOrder.of_exchanged [Recovery] {r r' : Request} (hs : s.Reached)
    (hroot : s.snapshot.root.Placed s.snapshot.chars) (hne : slot ≠ slot')
    (hfirst : ((registerSteps r).exec (s.carryOut r')).1 = ((registerSteps r).exec s).1)
    (hsecond : ((registerSteps r').exec (s.carryOut r)).1 = ((registerSteps r').exec s).1)
    (h : Exchanged slot slot' ((s.carryOut r).carryOut r') ((s.carryOut r').carryOut r)) :
    s.InEitherOrder r r' := by
  have hreached : ((s.carryOut r).carryOut r').Reached := (hs.move (.register r)).move (.register r')
  have hsettled : Exchanged.Settled ((s.carryOut r).carryOut r') ((s.carryOut r').carryOut r) :=
    .inr (by rwa [snapshot_carryOut, snapshot_carryOut])
  have hcommit (ms : List Move) (t : FileTree) := by
    obtain ⟨hafter, hafterSettled⟩ := h.moveAll hreached hsettled hne ms
    exact hafter.commit (hreached.moveAll ms) hafterSettled hne t
  exact ⟨hfirst, hsecond, fun ms t => (hcommit ms t).1, fun ms t => (hcommit ms t).2.1⟩

/-- A request for a slot that is not located fails, whatever was requested before. -/
private theorem inEitherOrder_of_error [Recovery] {err : ResolveError} (hs : s.Reached)
    (hroot : s.snapshot.root.Placed s.snapshot.chars) (hne : slot ≠ slot')
    (hl' : locateSlot s.snapshot s.config.selector slot' = .error err) (r : Request) (e' : String) :
    s.InEitherOrder r (.entry slot' e' none) := by
  have hfails := exec_entry_of_error hl' e'
  have hfails' : (registerSteps (.entry slot' e' none)).exec (s.carryOut r) =
      (.error (.resolve err), s.carryOut r) :=
    exec_entry_of_error (by rw [snapshot_carryOut, config_carryOut, hl']) e'
  have hother : s.carryOut (.entry slot' e' none) = s := congrArg Prod.snd hfails
  have hother' : (s.carryOut r).carryOut (.entry slot' e' none) = s.carryOut r :=
    (congrArg Prod.snd hfails' :)
  refine .of_exchanged hs hroot hne (by rw [hother]) (by rw [hfails', hfails]) ?_
  rw [hother, hother']
  exact ⟨rfl, rfl, rfl, .same _⟩

/-- What is decided for an entry of an array and for one of another slot is the same in either order. -/
private theorem inEitherOrder_of_located [Recovery] (hs : s.Reached)
    (hroot : s.snapshot.root.Placed s.snapshot.chars) (hne : slot ≠ slot')
    (hl : locateSlot s.snapshot s.config.selector slot = .ok l) (hcreates : l.point.createsSlot = false)
    (hl' : locateSlot s.snapshot s.config.selector slot' = .ok l') (e e' : String) :
    s.InEitherOrder (.entry slot e none) (.entry slot' e' none) := by
  have hslot : l.slot = slot := slot_of_locateSlot hl
  have hslot' : l'.slot = slot' := slot_of_locateSlot hl'
  have hd' := answers_decideEntry hl' e'
  have hcases := hslot ▸ decideEntry_array_cases (s := s) hcreates e
  have hagain : (s.perform (s.decideEntry l' e')).decideEntry l e = s.decideEntry l e := by
    obtain ⟨hknown, hcount⟩ := hd'.keeps_entries (e := e) hne
    exact decideEntry_congr hcreates (hslot ▸ hknown) (hslot ▸ hcount)
  have hagain' : (s.perform (s.decideEntry l e)).decideEntry l' e' = s.decideEntry l' e' :=
    decideEntry_perform_array (answers_decideEntry hl e) hcases (hslot' ▸ hne.symm)
  -- Each request is carried out first, and after the other
  have hfirst := exec_entry hl e
  have hfirst' := exec_entry hl' e'
  have hthen := exec_entry (s := s.perform (s.decideEntry l' e')) (by simpa using hl) e
  have hthen' := exec_entry (s := s.perform (s.decideEntry l e)) (by simpa using hl') e'
  rw [hagain] at hthen
  rw [hagain'] at hthen'
  have hone : s.carryOut (.entry slot e none) = s.perform (s.decideEntry l e) :=
    congrArg Prod.snd hfirst
  have hother : s.carryOut (.entry slot' e' none) = s.perform (s.decideEntry l' e') :=
    congrArg Prod.snd hfirst'
  refine .of_exchanged hs hroot hne (by rw [hother, hthen, hfirst]) (by rw [hone, hthen', hfirst']) ?_
  rw [hone, hother, carryOut, carryOut, hthen, hthen']
  refine ⟨by simp, by simp, by simp, ?_⟩
  simp only [pending_perform]
  exact swapped_perform hd' hcases

/-- Entries of two slots may come in either order if one of the slots has an array. -/
private theorem inEitherOrder_of_hasArray [Recovery] (hs : s.Reached)
    (hroot : s.snapshot.root.Placed s.snapshot.chars) (harray : s.HasArray slot)
    (hne : slot ≠ slot') (e e' : String) :
    s.InEitherOrder (.entry slot e none) (.entry slot' e' none) := by
  obtain ⟨d, array, hd, harray⟩ := harray
  have hl : locateSlot s.snapshot s.config.selector slot =
      .ok (locateInArray s.snapshot.chars slot array) := by
    rw [locateSlot_eq hd, not_isAbsent_of_slotArray? harray, harray]
    rfl
  cases hl' : locateSlot s.snapshot s.config.selector slot' with
  | error err => exact inEitherOrder_of_error hs hroot hne hl' _ e'
  | ok l' => exact 
      inEitherOrder_of_located hs hroot hne hl (createsSlot_locateInArray _ slot array) hl' e e'

/-- In a session that is reached, two requests for entries of different slots may be made in either order
when one of the slots is an array in the text, and the text is laid out as one without errors is. -/
theorem entries_in_either_order [Recovery] (hs : s.Reached)
    (hroot : s.snapshot.root.Placed s.snapshot.chars) (hne : slot ≠ slot')
    (harray : s.HasArray slot ∨ s.HasArray slot') (e e' : String) :
    s.InEitherOrder (.entry slot e none) (.entry slot' e' none) := by
  rcases harray with harray | harray
  · exact inEitherOrder_of_hasArray hs hroot harray hne e e'
  · exact (inEitherOrder_of_hasArray hs hroot harray hne.symm e' e).symm

/-- One of the slots is created. The changes are pending in the order of the requests. -/
theorem entries_in_either_order_sample :
    let snapshot : Snapshot := .ofText "/m.ts" "@M(\x7bxs: [A]\x7d)class C\x7b\x7d"
    let config : SessionConfig := { importBase := ".", selector := .named "M" }
    let s := (start snapshot config).moveAll [.register (.entry "ys" "Q" none)]
    let r : Request := .entry "zs" "P" none
    let r' : Request := .entry "xs" "B" none
    s.Reached ∧ s.HasArray "xs" ∧ s.InEitherOrder r r' ∧
      ((s.carryOut r).carryOut r').pending.map Change.text = [", ys: [Q]", ", zs: [P]", ", B"] ∧
      ((s.carryOut r').carryOut r).pending.map Change.text = [", ys: [Q]", ", B", ", zs: [P]"] := by
  intro snapshot config s r r'
  have h : s.Reached := (Reached.start snapshot config).moveAll _
  have hsnapshot : s.snapshot = snapshot := snapshot_carryOut _ _
  have hconfig : s.config = config := config_carryOut _ _
  have hsome : ((locateDeclaration snapshot config.selector).toOption.bind fun d =>
      slotArray? snapshot.chars d.metadata "xs").isSome = true := by decide +kernel
  -- The slot is located once, and has its array
  have harray : s.HasArray "xs" := by
    obtain ⟨array, harray⟩ := Option.isSome_iff_exists.1 hsome
    obtain ⟨d, hd, harray⟩ := Option.bind_eq_some_iff.1 harray
    refine ⟨d, array, ?_, by rwa [hsnapshot]⟩
    rw [hsnapshot, hconfig]
    cases hlocated : locateDeclaration snapshot config.selector with
    | error e => simp [hlocated, Except.toOption] at hd
    | ok d' => simpa [hlocated, Except.toOption] using hd
  have hroot : s.snapshot.root.Placed s.snapshot.chars :=
    Snapshot.placed_root (by rw [hsnapshot]; decide +kernel)
  exact ⟨h, harray, entries_in_either_order h hroot (by decide) (.inr harray) "P" "B",
    by decide +kernel, by decide +kernel⟩

end

end Session

end Enlist
