import Enlist.Proofs.Session.Entries
import Enlist.Proofs.Session.Growth
import Mathlib.Data.List.Flatten
import Enlist.Proofs.Syntax.Recovered

/-!
# Pending changes that are thinned out

A caller may put a part of the pending changes in their place and go on. `Grown` says what further calls
make of pending changes that are spaced: the entries of each slot grow by those that are new, and the
slots that are created by those that were not created before.

What is written then is a list with one separator between neighbours. Only where the first change for an
empty list is left out and a later one kept, the first item has a separator in front of it.

## Key results

- `Spaced.filter`: some of the pending changes of a session
- `Spaced.splicedBytes_eq`: what spaced changes write
- `commit_thinned`: a commit after some changes were left out
-/

namespace Enlist

open Edit Imports Metadata Store Syntax Text

/-! ## Leaving changes out -/

section

variable {s : Snapshot} {sel : Selector} {d : Declaration} {pending : ChangeSet} {array : Node}
  {slot : String}

/-- The entries of an array literal are those of the changes that add entries to its slot. -/
theorem entriesIn_eq_filter (hd : locateDeclaration s sel = .ok d)
    (hmade : ∀ c ∈ pending, ∃ created, Made s sel created c)
    (harray : slotArray? s.chars d.metadata slot = some array) :
    pending.entriesIn slot =
      (pending.filter fun c => c.origin.isEntryIn slot).flatMap fun c => c.origin.entriesIn slot := by
  refine flatMap_filter fun c hc hother => ?_
  obtain ⟨_, hc'⟩ := hmade c hc
  cases ho : c.origin with
  | slotEntry slot' e => simpa [ho, Origin.isEntryIn, Origin.entriesIn] using hother
  | slotCreation slot' es =>
    obtain ⟨d', hd', habsent, _⟩ := hc'.of_slotCreation ho
    rw [hd] at hd'
    cases hd'
    simp [Origin.entriesIn, ne_of_slotArray? habsent harray]
  | _ => rfl

theorem created_eq_filter (pending : ChangeSet) :
    pending.created =
      (pending.filter fun c => c.origin.isCreation).flatMap fun c => c.origin.creations := by
  refine flatMap_filter fun c _ hother => ?_
  cases ho : c.origin with
  | slotCreation => simp [ho, Origin.isCreation] at hother
  | _ => rfl

/-- The first change for the array literal of a slot is left out, and another is not. -/
def entriesLed (keep : Change → Bool) (pending : ChangeSet) (slot : String) : Bool :=
  firstDropped keep (pending.filter fun c => c.origin.isEntryIn slot)

/-- The first change that creates a slot is left out, and another is not. -/
def slotsLed (keep : Change → Bool) (pending : ChangeSet) : Bool :=
  firstDropped keep (pending.filter fun c => c.origin.isCreation)

/-- If the first change was left out for another one, one is kept. -/
private theorem exists_of_firstDropped {keep : Change → Bool} {cs : List Change}
    (h : firstDropped keep cs = true) : ∃ c ∈ cs, keep c = true := by
  cases cs with
  | nil => cases h
  | cons c cs =>
    obtain ⟨c', hc', hkeep⟩ := List.any_eq_true.1 (Bool.and_eq_true_iff.1 h).2
    exact ⟨c', List.mem_cons_of_mem c hc', hkeep⟩

/-- If the first entry of a slot was left out for another one, an entry is kept. -/
theorem entriesIn_ne_nil_of_led {keep : Change → Bool} (h : entriesLed keep pending slot = true) :
    ChangeSet.entriesIn (pending.filter keep) slot ≠ [] := by
  obtain ⟨c, hc, hkeep⟩ := exists_of_firstDropped h
  obtain ⟨hc, hentry⟩ := List.mem_filter.1 hc
  cases ho : c.origin with
  | slotEntry slot' e =>
    have hmem : e ∈ c.origin.entriesIn slot := by
      simpa [ho, Origin.isEntryIn, Origin.entriesIn] using hentry
    exact List.ne_nil_of_mem (List.mem_flatMap.2 ⟨c, List.mem_filter.2 ⟨hc, hkeep⟩, hmem⟩)
  | _ => simp [ho, Origin.isEntryIn] at hentry

theorem created_ne_nil_of_led {keep : Change → Bool} (h : slotsLed keep pending = true) :
    ChangeSet.created (pending.filter keep) ≠ [] := by
  obtain ⟨c, hc, hkeep⟩ := exists_of_firstDropped h
  obtain ⟨hc, hcreation⟩ := List.mem_filter.1 hc
  cases ho : c.origin with
  | slotCreation slot' es =>
    exact List.ne_nil_of_mem (ChangeSet.mem_created.2 ⟨c, List.mem_filter.2 ⟨hc, hkeep⟩, ho⟩)
  | _ => simp [ho, Origin.isCreation] at hcreation

/-- Some of the changes that were recorded one after the other. What stands in front of the first entry
of a list depends on whether the first change for the list is left out. -/
theorem Spaced.filter (h : Spaced s sel d (fun _ => false) false pending)
    (hd : locateDeclaration s sel = .ok d) (keep : Change → Bool) :
    Spaced s sel d (entriesLed keep pending) (slotsLed keep pending) (pending.filter keep) := by
  have hmade (c : Change) (hc : c ∈ pending.filter keep) := h.made c (List.mem_filter.1 hc).1
  -- It does not matter whether changes are left out first or those for a list looked up
  have hcomm (p : Change → Bool) : (pending.filter keep).filter p = (pending.filter p).filter keep := by
    simp only [List.filter_filter, Bool.and_comm]
  refine ⟨hmade, ?_, fun slot array harray => ?_, ?_⟩
  · refine h.once.sublist ?_
    exact (List.filter_sublist.flatMap _).map _
  · have hname (led : Bool) (e : String) :
        (entryAdded s.chars slot array led e).origin.entriesIn slot = [e] := by
      simp [entryAdded, origin_addition, Origin.entriesIn]
    rw [entriesLed, entriesIn_eq_filter hd (fun c hc => (hmade c hc).2) harray, hcomm,
      h.entries slot array harray]
    exact filter_shelf hname keep _
  · have hname (led : Bool) (p : String × List String) :
        (slotAdded s.chars d.metadata led p).origin.creations = [p] := by
      simp [slotAdded, origin_creation, Origin.creations]
    rw [slotsLed, created_eq_filter, hcomm, h.creations]
    exact filter_shelf hname keep _

end

/-! ## What is written -/

/-- The change is for an import. -/
def Edit.Origin.isImport : Origin → Bool
  | importOf _ _ => true
  | _ => false

/-- The entry that is added to an array literal, with its slot. -/
def Edit.Origin.addition? : Origin → Option (String × String)
  | slotEntry slot e => some (slot, e)
  | _ => none

/-- The slots with array literals that entries are added to. -/
def Edit.ChangeSet.entrySlots (cs : ChangeSet) : List String :=
  askedSlots (cs.filterMap fun c => c.origin.addition?)

/-- What stands in front of new items of a list besides what new items have in front of them. -/
def surplus (list : Node) (led : Bool) : String :=
  if led && list.namedChildren.isEmpty then ", " else ""

/-- New items of a list, behind its last item or inside of its empty brackets. If `led` holds, the first
of them has something in front of it in an empty list too. -/
def itemsLed (text : List Char) (list : Node) (led : Bool) (items : List String) : Insertion :=
  { offset := itemsOffset list
    text := surplus list led ++ (itemsInserted text list items).text }

/-- What changes for entries put into the array literals of their slots and into the metadata. -/
def listInsertions (text : List Char) (metadata : Node) (led : String → Bool) (ledSlots : Bool)
    (pending : ChangeSet) : List Insertion :=
  (pending.entrySlots.filterMap fun slot => (slotArray? text metadata slot).map fun array =>
      itemsLed text array (led slot) (pending.entriesIn slot)) ++
    [itemsLed text metadata ledSlots
      (pending.createdNames.map fun slot => slotText slot (pending.entriesIn slot))]

section

variable {text : List Char} {list : Node}

/-- All items but the first are led alike. -/
private theorem itemLead_succ (i : Nat) : itemLead text list (i + 1) = itemLead text list 1 := by
  simp only [itemLead]
  cases list.namedChildren.getLast? <;> rfl

/-- What leads a first item that counts as a later one is a separator too many. -/
private theorem itemLead_toNat (led : Bool) :
    itemLead text list led.toNat = surplus list led ++ itemLead text list 0 := by
  -- A list that is led has one separator more than it needs, unless items are there already
  cases led with
  | false => simp [surplus]
  | true =>
    simp only [itemLead, surplus, Bool.true_and]
    cases hlast : list.namedChildren.getLast? with
    | some last =>
      have hsome : list.namedChildren.isEmpty = false := by
        cases hchildren : list.namedChildren with
        | nil => simp [hchildren] at hlast
        | cons => rfl
      simp [hsome]
    | none => simp [List.getLast?_eq_none_iff.1 hlast]

/-- The changes of a shelf put in items of the list. -/
theorem flatMap_shelf {α : Type} {change : Bool → α → Change} {item : α → String}
    (htext : ∀ led a, (change led a).text = itemLead text list led.toNat ++ item a) {led : Bool}
    {as : List α} (hled : led = true → as ≠ []) :
    ((shelf change led as).flatMap fun c => textBytes c.text) =
      textBytes (itemsLed text list led (as.map item)).text := by
  rw [itemsLed, textBytes_append, ← flatten_items]
  cases as with
  | nil =>
    have hnone : led = false := eq_false_of_ne_true fun h => hled h rfl
    rw [hnone]
    rfl
  | cons a as =>
    -- Behind the first, every change has a separator in front of it
    have hothers : ((as.map (change true)).flatMap fun c => textBytes c.text) =
        ((as.map item).mapIdx fun i item => textBytes (itemLead text list (i + 1) ++ item)).flatten := by
      simp only [List.flatMap_map, htext, Bool.toNat_true, itemLead_succ]
      clear hled
      induction as with
      | nil => rfl
      | cons b as ih => rw [List.flatMap_cons, List.map_cons, List.mapIdx_cons, List.flatten_cons, ih]
    rw [shelf, List.flatMap_cons, hothers, htext, itemLead_toNat, List.map_cons, List.mapIdx_cons,
      List.flatten_cons]
    simp only [textBytes_append, List.append_assoc]

end

section

variable {s : Snapshot} {sel : Selector} {d : Declaration} {led : String → Bool} {ledSlots : Bool}
  {pending : ChangeSet} {array : Node} {slot : String} {c : Change} (hroot : s.root.Placed s.chars)

include hroot

/-- What a pending change that is spaced does, and where: it is for an import, which goes outside of the
metadata, it adds an entry to an array literal, or it creates a slot. -/
theorem Spaced.cases (h : Spaced s sel d led ledSlots pending) (hd : locateDeclaration s sel = .ok d)
    (hc : c ∈ pending) :
    (c.origin.isImport = true ∧ Outside d.metadata c.offset) ∨
      (∃ slot e array, c.origin = .slotEntry slot e ∧
        slotArray? s.chars d.metadata slot = some array ∧ c.offset = itemsOffset array) ∨
      ∃ slot es, c.origin = .slotCreation slot es ∧ c.offset = itemsOffset d.metadata := by
  obtain ⟨hroute, _, hmade⟩ := h.made c hc
  -- A change of a run like this one is made for an import, an entry or a slot
  cases hmade with
  | imported r others =>
    have houtside := ImportTable.inserted_outside hroot (metadata_mem_nodes hd) (metadata_ne_root hd)
      (.inr (placed_metadata hroot hd).2) r (s.imports.isFree r.module others)
    rw [← (ImportTable.satisfy_inserts s.imports r others).2.1] at houtside
    exact .inl ⟨by rw [origin_satisfy]; rfl, houtside⟩
  | entry hd' harray i e =>
    rw [hd] at hd'
    cases hd'
    exact .inr (.inl ⟨_, e, _, origin_addition i, harray, (addition_inserts _ _ _ i e).2.1⟩)
  | creation hd' _ es =>
    rw [hd] at hd'
    cases hd'
    exact .inr (.inr ⟨_, es, origin_creation _ es, (creation_inserts _ _ _ _ es).2.1⟩)
  | route harray i literal =>
    rw [origin_routeAddition] at hroute
    cases hroute

/-- At the place of an array literal stand the changes that add entries to its slot. -/
private theorem Spaced.filter_array (h : Spaced s sel d led ledSlots pending)
    (hd : locateDeclaration s sel = .ok d) (harray : slotArray? s.chars d.metadata slot = some array) :
    (pending.filter fun c => c.offset == itemsOffset array) =
      pending.filter fun c => c.origin.isEntryIn slot := by
  obtain ⟨hplaced, _⟩ := placed_metadata hroot hd
  have hstart := start_lt_itemsOffset hplaced harray
  have hlt := itemsOffset_lt_metadata hplaced harray
  have hbounds := metadata_bounds hroot hd
  -- At the offset of the array there are the entries of this slot and nothing else
  refine List.filter_congr fun c hc => ?_
  rw [Bool.eq_iff_iff, beq_iff_eq]
  rcases h.cases hroot hd hc with ⟨himport, houtside⟩ | ⟨slot', e, array', ho, harray', hoffset⟩ |
    ⟨slot', es, ho, hoffset⟩
  · have hne : c.offset ≠ itemsOffset array := by
      rw [Outside] at houtside
      omega
    cases ho : c.origin <;> simp_all [Origin.isImport, Origin.isEntryIn]
  · rw [hoffset, ho]
    by_cases heq : slot' = slot
    · subst heq
      rw [harray, Option.some.injEq] at harray'
      simp [harray', Origin.isEntryIn]
    · simp [itemsOffset_ne hplaced harray' harray heq, Origin.isEntryIn, heq]
  · rw [hoffset, ho]
    simp [Origin.isEntryIn]
    omega

/-- At the place of new slots stand the changes that create slots. -/
private theorem Spaced.filter_metadata (h : Spaced s sel d led ledSlots pending)
    (hd : locateDeclaration s sel = .ok d) :
    (pending.filter fun c => c.offset == itemsOffset d.metadata) =
      pending.filter fun c => c.origin.isCreation := by
  -- At the end of the object there are the creations and nothing else
  obtain ⟨hplaced, _⟩ := placed_metadata hroot hd
  have hbounds := metadata_bounds hroot hd
  refine List.filter_congr fun c hc => ?_
  rw [Bool.eq_iff_iff, beq_iff_eq]
  rcases h.cases hroot hd hc with ⟨himport, houtside⟩ | ⟨slot', e, array', ho, harray', hoffset⟩ |
    ⟨slot', es, ho, hoffset⟩
  · have hne : c.offset ≠ itemsOffset d.metadata := by
      rw [Outside] at houtside
      omega
    cases ho : c.origin <;> simp_all [Origin.isImport, Origin.isCreation]
  · have := itemsOffset_lt_metadata hplaced harray'
    rw [hoffset, ho]
    simp [Origin.isCreation]
    omega
  · simp [hoffset, ho, Origin.isCreation]

omit hroot in
/-- A slot has pending entries exactly if a change adds one. -/
theorem mem_entrySlots {slot : String} :
    slot ∈ pending.entrySlots ↔ ∃ c ∈ pending, ∃ e, c.origin = .slotEntry slot e := by
  simp only [ChangeSet.entrySlots, askedSlots, List.mem_eraseDups, List.mem_map, List.mem_filterMap]
  constructor
  · rintro ⟨⟨_, e⟩, ⟨c, hc, ho⟩, rfl⟩
    refine ⟨c, hc, e, ?_⟩
    cases horigin : c.origin <;> simp_all [Origin.addition?]
  · rintro ⟨c, hc, e, ho⟩
    exact ⟨(slot, e), ⟨c, hc, by rw [ho]; rfl⟩, rfl⟩

/-- Each list gets one insertion. -/
theorem distinct_listInsertions (hd : locateDeclaration s sel = .ok d) (pending : ChangeSet) :
    Distinct (listInsertions s.chars d.metadata led ledSlots pending) :=
  distinct_lists (placed_metadata hroot hd).1 (nodup_askedSlots _) (fun _ _ => rfl) rfl

/-- Imports go outside of the metadata, and what is put into lists inside of it. -/
theorem Spaced.outside_of_isImport (h : Spaced s sel d led ledSlots pending)
    (hd : locateDeclaration s sel = .ok d) (hc : c ∈ pending) (himport : c.origin.isImport = true) :
    Outside d.metadata c.offset := by
  rcases h.cases hroot hd hc with ⟨_, houtside⟩ | ⟨slot, e, array, ho, _⟩ | ⟨slot, es, ho, _⟩
  · exact houtside
  · rw [ho] at himport
    cases himport
  · rw [ho] at himport
    cases himport

/-- What goes into lists goes inside of the metadata. -/
private theorem not_outside_of_mem_listInsertions (hd : locateDeclaration s sel = .ok d) {i : Insertion}
    (hi : i ∈ listInsertions s.chars d.metadata led ledSlots pending) :
    ¬Outside d.metadata i.offset := by
  obtain ⟨hplaced, _⟩ := placed_metadata hroot hd
  have hbounds := metadata_bounds hroot hd
  rw [Outside]
  -- The lists stand inside of the object: the arrays in it, and the properties
  rcases List.mem_append.1 hi with hi | hi
  · obtain ⟨slot, _, hi⟩ := List.mem_filterMap.1 hi
    obtain ⟨array, harray, rfl⟩ := Option.map_eq_some_iff.1 hi
    have hstart := start_lt_itemsOffset hplaced harray
    have hlt := itemsOffset_lt_metadata hplaced harray
    simp only [itemsLed]
    omega
  · rw [List.mem_singleton.1 hi]
    simp only [itemsLed]
    omega

/-- Spaced changes put their entries into the lists, and the imports elsewhere. -/
theorem Spaced.splicedBytes_eq (h : Spaced s sel d led ledSlots pending)
    (hd : locateDeclaration s sel = .ok d)
    (hled : ∀ slot, led slot = true → pending.entriesIn slot ≠ [])
    (hledSlots : ledSlots = true → pending.created ≠ []) :
    splicedBytes s.chars pending =
      bytesWith (utf8Bytes s.chars) ((pending.filter fun c => c.origin.isImport).map Change.insertion ++
        listInsertions s.chars d.metadata led ledSlots pending) := by
  refine splicedBytes_eq_bytesWith_others (fun c hc => ?_) (distinct_listInsertions hroot hd pending)
    (fun i hi => ?_) (fun c hc himport i hi heq => ?_) (fun c hc hother => ?_)
  · obtain ⟨_, _, hmade⟩ := h.made c hc
    exact hmade.isInsertion
  -- At the place of each list its shelf puts in what is listed
  · rcases List.mem_append.1 hi with hi | hi
    · obtain ⟨slot, _, hi⟩ := List.mem_filterMap.1 hi
      obtain ⟨array, harray, rfl⟩ := Option.map_eq_some_iff.1 hi
      have htext (led : Bool) (e : String) : (entryAdded s.chars slot array led e).text =
          itemLead s.chars array led.toNat ++ id e := (addition_inserts _ _ _ led.toNat e).2.2
      rw [insertedAt]
      show (pending.filter fun c => c.offset == itemsOffset array).flatMap _ = _
      rw [h.filter_array hroot hd harray, h.entries slot array harray, flatMap_shelf htext (hled slot),
        List.map_id]
    · rw [List.mem_singleton.1 hi, insertedAt]
      show (pending.filter fun c => c.offset == itemsOffset d.metadata).flatMap _ = _
      have hnames : pending.createdNames.map (fun slot => slotText slot (pending.entriesIn slot)) =
          pending.created.map fun p => slotText p.1 p.2 := by
        rw [ChangeSet.createdNames, List.map_map]
        refine List.map_congr_left fun p hp => ?_
        rw [Function.comp_apply, h.entriesIn_of_created hd hp]
      have htext (led : Bool) (p : String × List String) : (slotAdded s.chars d.metadata led p).text =
          itemLead s.chars d.metadata led.toNat ++ slotText p.1 p.2 := (creation_inserts _ _ _ _ _).2.2
      rw [h.filter_metadata hroot hd, h.creations, hnames, flatMap_shelf htext hledSlots]
  · exact not_outside_of_mem_listInsertions hroot hd hi (heq ▸ h.outside_of_isImport hroot hd hc himport)
  -- A change that is no import goes to the place of its list
  · rcases h.cases hroot hd hc with ⟨himport, _⟩ | ⟨slot, e, array, ho, harray, hoffset⟩ |
      ⟨slot, es, _, hoffset⟩
    · rw [himport] at hother
      cases hother
    · refine ⟨itemsLed s.chars array (led slot) (pending.entriesIn slot), ?_, hoffset.symm⟩
      refine List.mem_append_left _ (List.mem_filterMap.2 ⟨slot, mem_entrySlots.2 ⟨c, hc, e, ho⟩, ?_⟩)
      rw [harray, Option.map_some]
    · exact ⟨_, List.mem_append_right _ (List.mem_singleton.2 rfl), hoffset.symm⟩

end

/-! ## The commit -/

namespace Session

@[simp] theorem snapshot_override (s : Session) (changes : ChangeSet) :
    (s.override changes).snapshot = s.snapshot := rfl

@[simp] theorem pending_override (s : Session) (changes : ChangeSet) :
    (s.override changes).pending = changes := rfl

/-- A session that is new carries out calls for entries, and a part of its pending changes is put in their
place. After further calls it commits them to a store that holds the text of its snapshot. In each list
come the entries that are there, those kept and those that are new since, in the order in which they are
pending, with one separator between neighbours. In an empty list the first has nothing in front of it,
unless the first change for the list was left out and another kept. -/
theorem commit_thinned {snapshot : Snapshot} (hroot : snapshot.root.Placed snapshot.chars)
    {config : SessionConfig} {d : Declaration}
    (hd : locateDeclaration snapshot config.selector = .ok d)
    (before after : List (String × String × Option String)) (keep : Change → Bool)
    {t : FileTree} {stored : String} (hread : t.readText snapshot.path = .ok stored)
    (hsame : Digest.ofText stored = snapshot.digest) :
    let first := (start snapshot config).carryOutAll (before.map callRequest)
    let kept : ChangeSet := first.pending.filter keep
    let done := (first.override kept).carryOutAll (after.map callRequest)
    let asked := (accepted callRequest (first.override kept) after).map fun call => (call.1, call.2.1)
    let imports := (done.pending.filter fun c => c.origin.isImport).map Change.insertion
    let lists := listInsertions snapshot.chars d.metadata (entriesLed keep first.pending)
      (slotsLed keep first.pending && done.pending.created.head? == kept.created.head?) done.pending
    (∀ slot, done.pending.entriesIn slot = kept.entriesIn slot ++
      novel (writtenEntries snapshot.chars d.metadata slot ++ kept.entriesIn slot)
        (askedFor slot asked)) ∧
    done.pending.createdNames = kept.createdNames ++
      (createdSlots snapshot.chars d.metadata asked).filter (· ∉ kept.createdNames) ∧
    Distinct lists ∧ (∀ i ∈ imports, Outside d.metadata i.offset) ∧
    ∃ c s' t', commitSteps.exec (done, t) = (.ok c, s', t') ∧
      textBytes c.text = bytesWith (textBytes snapshot.text) (imports ++ lists) ∧
      ∀ path, t'.files[path]? =
        if path = Path.normalize snapshot.path then some c.text.toUTF8 else t.files[path]? := by
  intro first kept done asked imports lists
  obtain ⟨hfirst, hsnapshot, hconfig⟩ := grown_carryOutAll (s := start snapshot config) hd
    (spaced_nil snapshot config.selector d) (by simp) (by simp) before
  have hkept : Spaced snapshot config.selector d (entriesLed keep first.pending)
      (slotsLed keep first.pending) kept := hfirst.spaced.filter hd keep
  -- The session with the part that is kept reads the same text
  have hreads : (first.override kept).snapshot = snapshot := hsnapshot
  have hselector : (first.override kept).config.selector = config.selector :=
    congrArg SessionConfig.selector hconfig
  obtain ⟨hdone, hsnapshot', _⟩ := grown_carryOutAll (s := first.override kept)
    (by rw [hreads, hselector]; exact hd) (by rw [hreads, hselector]; exact hkept)
    (fun _ h => entriesIn_ne_nil_of_led h) created_ne_nil_of_led after
  rw [hreads, hselector] at hdone
  have hspaced : Spaced snapshot config.selector d (entriesLed keep first.pending)
    (slotsLed keep first.pending && done.pending.created.head? == kept.created.head?) done.pending :=
    hdone.spaced
  have hsnapshot' : done.snapshot = snapshot := hsnapshot'.trans hreads
  refine ⟨hdone.entries, hdone.created, distinct_listInsertions hroot hd _, fun i hi => ?_, ?_⟩
  · obtain ⟨c, hc, rfl⟩ := List.mem_map.1 hi
    obtain ⟨hc, himport⟩ := List.mem_filter.1 hc
    exact hspaced.outside_of_isImport hroot hd hc himport
  · have hins : ∀ c ∈ done.pending, c.isInsertion = true ∧ isBoundary snapshot.chars c.offset = true :=
      fun c hc => (hspaced.made c hc).2.elim fun _ hmade => hmade.inserts hroot
    have hpath : done.path = snapshot.path := congrArg Snapshot.path hsnapshot'
    obtain ⟨c, s', t', hexec, hbytes, hfiles⟩ := exists_commit_of_insertions
      (by rw [hsnapshot']; exact hins) (hpath ▸ hread) (.inl (by rw [hsame, hsnapshot']))
    refine ⟨c, s', t', hexec, ?_, fun path => by rw [hfiles, hpath]⟩
    rw [hbytes, hsnapshot', textBytes_eq, ← splicedBytes_of_insertions fun c hc => (hins c hc).1]
    exact hspaced.splicedBytes_eq hroot hd (fun _ hl => hdone.entriesIn_ne_nil (entriesIn_ne_nil_of_led hl))
      fun hl => hdone.created_ne_nil (created_ne_nil_of_led (Bool.and_eq_true_iff.1 hl).1)

/-- The first entry of an empty array literal and a slot that is created are left out. -/
theorem commit_thinned_sample :
    let snapshot : Snapshot := .ofText "/m.ts" "@M(\x7bxs: [A], ys: []\x7d)class C\x7b\x7d"
    let config : SessionConfig := { importBase := ".", selector := .named "M" }
    let before := [("xs", "B", none), ("ys", "P", none), ("ys", "Q", none), ("zs", "R", some "./r"),
      ("ws", "T", none)]
    let after := [("ys", "S", none), ("xs", "B", none), ("zs", "V", none)]
    let dropped := [Origin.slotEntry "ys" "P", .slotCreation "zs" ["R"]]
    let first := (start snapshot config).carryOutAll (before.map callRequest)
    let kept : ChangeSet := first.pending.filter fun c => !dropped.contains c.origin
    let done := (first.override kept).carryOutAll (after.map callRequest)
    let t : FileTree :=
      { files := (∅ : Std.TreeMap String ByteArray).insert "/m.ts" snapshot.text.toUTF8, commits := 0 }
    ∃ c s' t', commitSteps.exec (done, t) = (.ok c, s', t') ∧
      c.text = "import \x7b R \x7d from './r';\n" ++
        "@M(\x7bxs: [A, B], ys: [, Q, S], ws: [T], zs: [V]\x7d)class C\x7b\x7d" := by
  intro snapshot config before after dropped first kept done t
  -- Evaluated up to the bytes that the theorem speaks of, which the commit then writes
  have hwritten : ((locateDeclaration snapshot config.selector).toOption.all fun d =>
      bytesWith (textBytes snapshot.text)
          ((done.pending.filter fun c => c.origin.isImport).map Change.insertion ++
            listInsertions snapshot.chars d.metadata
              (entriesLed (fun c => !dropped.contains c.origin) first.pending)
              (slotsLed (fun c => !dropped.contains c.origin) first.pending &&
                done.pending.created.head? == kept.created.head?) done.pending) ==
        textBytes ("import \x7b R \x7d from './r';\n" ++
          "@M(\x7bxs: [A, B], ys: [, Q, S], ws: [T], zs: [V]\x7d)class C\x7b\x7d")) = true ∧
      (locateDeclaration snapshot config.selector).isOk = true ∧
      t.readText snapshot.path = .ok snapshot.text := by decide +kernel
  obtain ⟨hwritten, hlocated, hread⟩ := hwritten
  cases hd : locateDeclaration snapshot config.selector with
  | error e =>
    rw [hd] at hlocated
    cases hlocated
  | ok d =>
    rw [hd] at hwritten
    obtain ⟨_, _, _, _, c, s', t', hexec, hbytes, _⟩ :=
      commit_thinned (Snapshot.placed_root (by decide +kernel)) hd before after
      (fun c => !dropped.contains c.origin) hread rfl
    exact ⟨c, s', t', hexec, textBytes_inj (hbytes.trans (beq_iff_eq.1 hwritten))⟩

/-- What a session commits to a store that holds the text of its snapshot. -/
private theorem exists_commit_writes {s : Session} {snapshot : Snapshot} {t : FileTree} {out : String}
    (hsnapshot : s.snapshot = snapshot) (happly : Edit.apply snapshot.text s.pending = .ok out)
    (hread : t.readText snapshot.path = .ok snapshot.text) :
    ∃ c s' t', commitSteps.exec (s, t) = (.ok c, s', t') ∧ c.text = out := by
  subst hsnapshot
  obtain ⟨c, s', t', hexec, heffect⟩ := exists_commit_of_known happly hread (.inl rfl)
  exact ⟨c, s', t', hexec, Except.ok.inj (heffect.text.symm.trans happly)⟩

/-- The separator of a change stays when the change in front of it is left out. In a tree that is
recovered from a text without the closing bracket, the first entry goes in front of the opening one. -/
theorem separator_stays_in_front :
    let config : SessionConfig := { importBase := ".", selector := .named "M" }
    let store (text : String) : FileTree :=
      { files := (∅ : Std.TreeMap String ByteArray).insert "/m.ts" text.toUTF8, commits := 0 }
    (let snapshot : Snapshot := .ofText "/m.ts" "@M(\x7bxs: []\x7d)class C\x7b\x7d"
      let first := (start snapshot config).carryOutAll
        ([("xs", "A", none), ("xs", "B", none)].map callRequest)
      let kept : ChangeSet := first.pending.filter fun c => c.origin == .slotEntry "xs" "B"
      kept.entriesIn "xs" = ["B"] ∧
        ∃ c s' t', commitSteps.exec (first.override kept, store snapshot.text) = (.ok c, s', t') ∧
          c.text = "@M(\x7bxs: [, B]\x7d)class C\x7b\x7d" ∧
          c.text ≠ "@M(\x7bxs: [B]\x7d)class C\x7b\x7d") ∧
      let whole := "@M(\x7bxs: [] \x7d)class C\x7b\x7d".toList
      let text := "@M(\x7bxs: [ \x7d)class C\x7b\x7d"
      let read := SyntaxTree.ofStatements (utf8Length whole) ((SyntaxTree.statements? whole).getD [])
      let root := Node.moved (fun offset => if offset ≤ 9 then offset else offset - 1) read
      let _ : Recovery := .only text.toList root
      let snapshot : Snapshot := .ofText "/m.ts" text
      snapshot.hasSyntaxErrors = true ∧ snapshot.root = root ∧
        ∃ c s' t', commitSteps.exec ((start snapshot config).carryOut (.entry "xs" "A" none),
            store snapshot.text) = (.ok c, s', t') ∧
          c.text = "@M(\x7bxs: A[ \x7d)class C\x7b\x7d" := by
  intro config store
  constructor
  · intro snapshot first kept
    -- Without the first entry, the second keeps its separator
    have hrun : kept.entriesIn "xs" = ["B"] ∧
        Edit.apply snapshot.text kept = .ok "@M(\x7bxs: [, B]\x7d)class C\x7b\x7d" ∧
        (store snapshot.text).readText snapshot.path = .ok snapshot.text := by decide +kernel
    obtain ⟨hentries, happly, hread⟩ := hrun
    have hsnapshot : (first.override kept).snapshot = snapshot :=
      (snapshot_override first kept).trans (reads_carryOutAll _ _).1
    obtain ⟨c, s', t', hexec, htext⟩ := exists_commit_writes hsnapshot happly hread
    exact ⟨hentries, c, s', t', hexec, htext, by rw [htext]; decide⟩
  · intro whole text read root _ snapshot
    -- The array is recovered without its bracket: it ends where the opening one does
    have hroot : root.InText text.toList := by decide +kernel
    have hnone : SyntaxTree.statements? text.toList = none := by decide +kernel
    have htree : snapshot.tree = ⟨root, true⟩ := ofText_only hroot hnone
    obtain ⟨happly, hread⟩ :
        Edit.apply snapshot.text ((start snapshot config).carryOut (.entry "xs" "A" none)).pending =
            .ok "@M(\x7bxs: A[ \x7d)class C\x7b\x7d" ∧
          (store snapshot.text).readText snapshot.path = .ok snapshot.text := by decide +kernel
    have hsnapshot : ((start snapshot config).carryOut (.entry "xs" "A" none)).snapshot = snapshot :=
      snapshot_carryOut _ _
    obtain ⟨c, s', t', hexec, htext⟩ := exists_commit_writes hsnapshot happly hread
    exact ⟨congrArg SyntaxTree.hasErrors htree, congrArg SyntaxTree.root htree, c, s', t', hexec, htext⟩

end Session

end Enlist
