import Enlist.Proofs.Session.Commit
import Enlist.Proofs.Session.Slots

/-!
# What a run of calls writes

A session that has carried out calls for entries writes the text of its snapshot with the new entries
in the array literals of their slots and with the slots that are created behind the other members of
the metadata.

## Key results

- `Pends.splicedBytes_eq`: the pending changes put in what `slotInsertions` lists
- `commit_entries`: a commit of a run of calls writes the snapshot with `slotInsertions`
-/

namespace Enlist

open Edit Metadata Store Syntax Text

/-- What calls for entries put into a text: the new entries of each slot that is there into its array
literal, and the slots that are created into the metadata. -/
def slotInsertions (text : List Char) (metadata : Node) (asked : List (String × String)) :
    List Insertion :=
  ((askedSlots asked).filterMap fun slot => (slotArray? text metadata slot).map fun array =>
      itemsInserted text array (newEntries text metadata asked slot)) ++
    [itemsInserted text metadata ((createdSlots text metadata asked).map fun slot =>
      slotText slot (newEntries text metadata asked slot))]

variable {text : List Char} {metadata array : Node} {asked : List (String × String)}
  {slot e : String} {pending : ChangeSet}

/-- Insertions into the array literals of different slots and into the metadata differ in their
places. -/
theorem distinct_lists (hplaced : metadata.Placed text) {slots : List String} (hslots : slots.Nodup)
    {insertion : String → Node → Insertion} {created : Insertion}
    (hoffset : ∀ slot array, (insertion slot array).offset = itemsOffset array)
    (hcreated : created.offset = itemsOffset metadata) :
    Distinct ((slots.filterMap fun slot => (slotArray? text metadata slot).map (insertion slot)) ++
      [created]) := by
  refine List.pairwise_append.2 ⟨?_, List.pairwise_singleton _ _, ?_⟩
  · rw [List.pairwise_filterMap]
    -- Each slot is listed once, and different slots have different arrays
    refine hslots.imp fun {slot slot'} hne a ha b hb => ?_
    obtain ⟨array, harray, rfl⟩ := Option.map_eq_some_iff.1 ha
    obtain ⟨array', harray', rfl⟩ := Option.map_eq_some_iff.1 hb
    rw [hoffset, hoffset]
    exact itemsOffset_ne hplaced harray harray' hne
  · intro a ha b hb
    obtain ⟨slot, _, ha⟩ := List.mem_filterMap.1 ha
    obtain ⟨array, harray, rfl⟩ := Option.map_eq_some_iff.1 ha
    rw [List.mem_singleton.1 hb, hoffset, hcreated]
    exact Nat.ne_of_lt (itemsOffset_lt_metadata hplaced harray)

/-- The places at which something is put in differ. -/
theorem distinct_slotInsertions (hplaced : metadata.Placed text)
    (asked : List (String × String)) : Distinct (slotInsertions text metadata asked) :=
  distinct_lists hplaced (nodup_askedSlots asked) (fun _ _ => rfl) rfl

/-! ## The pending changes -/

/-- A pending change adds a new entry to an array literal, or creates a slot. -/
theorem Pends.cases (h : Pends text metadata asked pending) {c : Change} (hc : c ∈ pending) :
    (∃ slot array i e, slotArray? text metadata slot = some array ∧
      e ∈ newEntries text metadata asked slot ∧ c = addition text slot array i e) ∨
    ∃ slot i, slot ∈ createdSlots text metadata asked ∧
      c = creation text metadata i slot (newEntries text metadata asked slot) := by
  rcases h.nothingElse c hc with hcreation | ⟨slot, array, harray, hentry⟩
  · have hmem : c ∈ pending.filter fun c => c.origin.isCreation := List.mem_filter.2 ⟨hc, hcreation⟩
    rw [h.creations] at hmem
    obtain ⟨i, hi, rfl⟩ := List.exists_of_mem_mapIdx hmem
    exact .inr ⟨_, i, List.getElem_mem hi, rfl⟩
  · have hmem : c ∈ pending.filter fun c => c.origin.isEntryIn slot := List.mem_filter.2 ⟨hc, hentry⟩
    rw [h.additions slot array harray] at hmem
    obtain ⟨i, hi, rfl⟩ := List.exists_of_mem_mapIdx hmem
    exact .inl ⟨slot, array, i, _, harray, List.getElem_mem hi, rfl⟩

/-- A new entry is of a slot that was asked for. -/
private theorem mem_askedSlots_of_mem_newEntries (h : e ∈ newEntries text metadata asked slot) :
    slot ∈ askedSlots asked := by
  rw [mem_askedSlots]
  intro hnone
  rw [newEntries, hnone] at h
  exact absurd h List.not_mem_nil

/-- The pending changes insert between two characters. -/
theorem Pends.inserts (h : Pends text metadata asked pending) (hplaced : metadata.Placed text)
    (hkind : metadata.kind = .object) {c : Change} (hc : c ∈ pending) :
    c.isInsertion = true ∧ isBoundary text c.offset = true := by
  rcases h.cases hc with ⟨slot, array, i, e, harray, _, rfl⟩ | ⟨slot, i, _, rfl⟩
  · exact ⟨(addition_inserts text slot array i e).1, isBoundary_addition hplaced harray i e⟩
  · exact ⟨(creation_inserts text metadata i slot _).1, isBoundary_creation hplaced hkind i slot _⟩

/-- At the place of an array literal stand the changes that add entries to its slot. -/
private theorem Pends.filter_array (h : Pends text metadata asked pending)
    (hplaced : metadata.Placed text) (harray : slotArray? text metadata slot = some array) :
    (pending.filter fun c => c.offset == itemsOffset array) =
      pending.filter fun c => c.origin.isEntryIn slot := by
  refine List.filter_congr fun c hc => ?_
  rw [Bool.eq_iff_iff, beq_iff_eq]
  -- A change is an entry of this list or of another one, or it creates a slot
  rcases h.cases hc with ⟨slot', array', i, e, harray', _, rfl⟩ | ⟨slot', i, _, rfl⟩
  · rw [(addition_inserts text slot' array' i e).2.1, origin_addition]
    by_cases heq : slot' = slot
    · subst heq
      rw [harray, Option.some.injEq] at harray'
      simp [harray', Origin.isEntryIn]
    · simp [itemsOffset_ne hplaced harray' harray heq, Origin.isEntryIn, heq]
  · rw [(creation_inserts text metadata i slot' _).2.1, origin_creation]
    have := itemsOffset_lt_metadata hplaced harray
    simp [Origin.isEntryIn]
    omega

/-- At the place of new slots stand the changes that create slots. -/
private theorem Pends.filter_metadata (h : Pends text metadata asked pending)
    (hplaced : metadata.Placed text) :
    (pending.filter fun c => c.offset == itemsOffset metadata) =
      pending.filter fun c => c.origin.isCreation := by
  refine List.filter_congr fun c hc => ?_
  rw [Bool.eq_iff_iff, beq_iff_eq]
  rcases h.cases hc with ⟨slot, array, i, e, harray, _, rfl⟩ | ⟨slot, i, _, rfl⟩
  · rw [(addition_inserts text slot array i e).2.1, origin_addition]
    have := itemsOffset_lt_metadata hplaced harray
    simp [Origin.isCreation]
    omega
  · rw [(creation_inserts text metadata i slot _).2.1, origin_creation]
    simp [Origin.isCreation]

/-- The bytes of changes for items are those of the items, each at its place. -/
private theorem flatMap_mapIdx_items {α β : Type} {g : Nat → α → β} {f : β → List UInt8}
    {k : Nat → String → List UInt8} (item : α → String) (h : ∀ i a, f (g i a) = k i (item a))
    (as : List α) : (as.mapIdx g).flatMap f = ((as.map item).mapIdx k).flatten := by
  induction as generalizing g k with
  | nil => rfl
  | cons a as ih =>
    rw [List.map_cons, List.mapIdx_cons, List.mapIdx_cons, List.flatMap_cons, List.flatten_cons, h,
      ih fun i a => h (i + 1) a]

/-- The pending changes put in what `slotInsertions` lists. -/
theorem Pends.splicedBytes_eq (h : Pends text metadata asked pending)
    (hplaced : metadata.Placed text) (hkind : metadata.kind = .object) :
    splicedBytes text pending = bytesWith (utf8Bytes text) (slotInsertions text metadata asked) := by
  refine splicedBytes_eq_bytesWith (fun c hc => (h.inserts hplaced hkind hc).1)
    (distinct_slotInsertions hplaced asked) (fun i hi => ?_) (fun c hc => ?_)
  -- What is put in at the place of an array, and at the place of new slots
  · rcases List.mem_append.1 hi with hi | hi
    · obtain ⟨slot, _, hi⟩ := List.mem_filterMap.1 hi
      obtain ⟨array, harray, rfl⟩ := Option.map_eq_some_iff.1 hi
      rw [insertedAt]
      show (pending.filter fun c => c.offset == itemsOffset array).flatMap _ = _
      rw [h.filter_array hplaced harray, h.additions slot array harray, ← flatten_items,
        flatMap_mapIdx_items id, List.map_id]
      intro i e
      rw [(addition_inserts text slot array i e).2.2]
      rfl
    · rw [List.mem_singleton.1 hi, insertedAt]
      show (pending.filter fun c => c.offset == itemsOffset metadata).flatMap _ = _
      rw [h.filter_metadata hplaced, h.creations, ← flatten_items]
      refine flatMap_mapIdx_items _ (fun i slot => ?_) _
      rw [(creation_inserts text metadata i slot _).2.2]
  · rcases h.cases hc with ⟨slot, array, i, e, harray, he, rfl⟩ | ⟨slot, i, hslot, rfl⟩
    · refine ⟨itemsInserted text array (newEntries text metadata asked slot), ?_,
        (addition_inserts text slot array i e).2.1.symm⟩
      refine List.mem_append_left _ (List.mem_filterMap.2 ⟨slot, ?_, ?_⟩)
      · exact mem_askedSlots_of_mem_newEntries he
      · rw [harray, Option.map_some]
    · exact ⟨_, List.mem_append_right _ (List.mem_singleton.2 rfl),
        (creation_inserts text metadata i slot _).2.1.symm⟩

/-! ## The commit -/

/-- The request of a call for an entry without an import. -/
def entryRequest (call : String × String) : Request :=
  .entry call.1 call.2 none

/-- After calls for entries, the pending changes of a session that is new are those asked for. -/
theorem pends_carryOutAll {snapshot : Snapshot} {config : SessionConfig} {d : Declaration}
    (hd : locateDeclaration snapshot config.selector = .ok d) (calls : List (String × String)) :
    let s := Session.start snapshot config
    let done := s.carryOutAll (calls.map entryRequest)
    Pends snapshot.chars d.metadata (Session.accepted entryRequest s calls) done.pending ∧
      done.snapshot = snapshot ∧ done.config = config ∧ done.lastCommitted = none := by
  -- One call keeps the invariant, and it holds of the session that is new
  have hstep : ∀ (asked : List (String × String)) (s : Session) (call : String × String),
      (Pends snapshot.chars d.metadata asked s.pending ∧ s.snapshot = snapshot ∧ s.config = config ∧
        s.lastCommitted = none) →
      s.accepts (entryRequest call) = true →
      Pends snapshot.chars d.metadata (asked ++ [call]) (s.carryOut (entryRequest call)).pending ∧
        (s.carryOut (entryRequest call)).snapshot = snapshot ∧
        (s.carryOut (entryRequest call)).config = config ∧
        (s.carryOut (entryRequest call)).lastCommitted = none := by
    rintro asked s ⟨slot, e⟩ ⟨hpends, rfl, rfl, hlast⟩ hok
    exact ⟨pends_carryOut hd hpends hok, by simp, by simp, by simpa using hlast⟩
  have hstart : Pends snapshot.chars d.metadata [] (Session.start snapshot config).pending ∧
      (Session.start snapshot config).snapshot = snapshot ∧
      (Session.start snapshot config).config = config ∧
      (Session.start snapshot config).lastCommitted = none :=
    ⟨pends_nil snapshot.chars d.metadata, rfl, rfl, rfl⟩
  exact Session.carryOutAll_induct (P := fun asked s =>
    Pends snapshot.chars d.metadata asked s.pending ∧ s.snapshot = snapshot ∧ s.config = config ∧
      s.lastCommitted = none) hstep hstart calls

/-- A session that is new and carries out calls for entries commits them to a store that holds the text
of its snapshot: it writes that text with the new entries of each slot and with the slots that are
created, at different places, and nothing else. An empty list is filled right in front of its closing
bracket. -/
theorem commit_entries {snapshot : Snapshot} (hroot : snapshot.root.Placed snapshot.chars)
    {config : SessionConfig} {d : Declaration}
    (hd : locateDeclaration snapshot config.selector = .ok d) (calls : List (String × String))
    {t : FileTree} {stored : String} (hread : t.readText snapshot.path = .ok stored)
    (hsame : Digest.ofText stored = snapshot.digest) :
    let s := (Session.start snapshot config).carryOutAll (calls.map entryRequest)
    let asked := Session.accepted entryRequest (Session.start snapshot config) calls
    let insertions := slotInsertions snapshot.chars d.metadata asked
    Distinct insertions ∧
    (∀ slot array, slotArray? snapshot.chars d.metadata slot = some array →
      ∃ rest, dropBytes snapshot.chars (array.span.stop - 1) = ']' :: rest) ∧
    (∃ rest, dropBytes snapshot.chars (d.metadata.span.stop - 1) = '}' :: rest) ∧
    ∃ c s' t', Session.commitSteps.exec (s, t) = (.ok c, s', t') ∧
      textBytes c.text = bytesWith (textBytes snapshot.text) insertions ∧
      ∀ path, t'.files[path]? =
        if path = Path.normalize snapshot.path then some c.text.toUTF8 else t.files[path]? := by
  intro s asked insertions
  obtain ⟨hplaced, hkind⟩ := placed_metadata hroot hd
  have hbrackets : d.metadata.kind.brackets? = some ('\x7b', '\x7d') := by rw [hkind]; rfl
  refine ⟨distinct_slotInsertions hplaced asked, fun slot array harray => ?_,
    (closing_bracket hplaced hbrackets).2.2, ?_⟩
  · obtain ⟨harrayPlaced, hbrackets⟩ := placed_slotArray? hplaced harray
    exact (closing_bracket harrayPlaced hbrackets).2.2
  · obtain ⟨hpends, hsnapshot, _, _⟩ := pends_carryOutAll hd calls
    have hpath : s.path = snapshot.path := congrArg Snapshot.path hsnapshot
    have hspliceable : Spliceable s.snapshot.text.toList s.pending := by
      rw [hsnapshot]
      exact spliceable_of_insertions fun c hc => hpends.inserts hplaced hkind hc
    obtain ⟨out, hout, hbytes⟩ := exists_apply_eq_ok hspliceable
    -- The store holds what was read, so the commit cannot be refused
    obtain ⟨c, s', t', hexec, heffect⟩ := Session.exists_commit_of_known hout (hpath ▸ hread)
      (.inl (by rw [hsame, hsnapshot]))
    refine ⟨c, s', t', hexec, ?_, fun path => ?_⟩
    · have hc : c.text = out := Except.ok.inj (heffect.text.symm.trans hout)
      rw [hc, hbytes, hsnapshot, textBytes_eq]
      exact hpends.splicedBytes_eq hplaced hkind
    · rw [heffect.files, hpath]

/-- An array literal with an element, an empty one, and a slot that is not there. -/
theorem commit_entries_sample :
    let snapshot : Snapshot := .ofText "/m.ts" "@M(\x7bxs: [A], ys: []\x7d)class C\x7b\x7d"
    let config : SessionConfig := { importBase := ".", selector := .named "M" }
    let calls := [("xs", "B"), ("zs", "P"), ("ys", "E"), ("zs", "Q")]
    let s := (Session.start snapshot config).carryOutAll (calls.map entryRequest)
    let t : FileTree :=
      { files := (∅ : Std.TreeMap String ByteArray).insert "/m.ts" snapshot.text.toUTF8, commits := 0 }
    ∃ c s' t', Session.commitSteps.exec (s, t) = (.ok c, s', t') ∧
      c.text = "@M(\x7bxs: [A, B], ys: [E], zs: [P, Q]\x7d)class C\x7b\x7d" := by
  intro snapshot config calls s t
  -- Evaluated up to the bytes that the theorem speaks of, which the commit then writes
  have hwritten : (match locateDeclaration snapshot config.selector with
      | .ok d => bytesWith (textBytes snapshot.text) (slotInsertions snapshot.chars d.metadata
          (Session.accepted entryRequest (Session.start snapshot config) calls)) ==
        textBytes "@M(\x7bxs: [A, B], ys: [E], zs: [P, Q]\x7d)class C\x7b\x7d"
      | .error _ => false) = true := by decide +kernel
  have hread : t.readText snapshot.path = .ok snapshot.text := by decide +kernel
  have hroot : snapshot.root.Placed snapshot.chars := Snapshot.placed_root (by decide +kernel)
  cases hd : locateDeclaration snapshot config.selector with
  | error e =>
    rw [hd] at hwritten
    exact nomatch hwritten
  | ok d =>
    rw [hd] at hwritten
    obtain ⟨_, _, _, c, s', t', hexec, hbytes, _⟩ := commit_entries hroot hd calls hread rfl
    exact ⟨c, s', t', hexec, textBytes_inj (hbytes.trans (beq_iff_eq.1 hwritten))⟩

end Enlist
