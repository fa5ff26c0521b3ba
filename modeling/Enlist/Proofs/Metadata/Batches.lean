import Enlist.Metadata.InsertionPoint
import Enlist.Proofs.Edit.Insertion

/-!
# Several entries at once

Entries are added at an insertion point by one change for all of them, or by one change for each. The one
change puts a comma and a space between them, whatever the point has between an entry and its neighbour.
So the two give the same text where there is one entry only, or where the point has that separator too.

## Key results

- `text_entryChange` / `text_creationChange`: what one entry looks like, and several at once
- `join_entryChanges`: what they look like one by one
- `creationChange_agrees_iff`: when the two ways give the same text
- `creationChange_leaves_lines`: they do not where entries stand on lines of their own
-/

namespace Enlist.Metadata

open Edit Text

namespace InsertionPoint

/-- One change for each entry, when `pending` others are to be added before them. -/
def entryChanges (p : InsertionPoint) (slot : String) (entries : List String) (pending : Nat)
    (origin : Origin) : List Change :=
  entries.mapIdx fun k e => p.entryChange slot e (pending + k) origin

/-- What stands between two entries that are added one by one. -/
def between : InsertionPoint → String
  | append _ separator | prepend _ separator => separator
  | fill _ | create _ _ _ => ", "

/-- What stands in front of entries that are added, when `pending` others are to be added before them. -/
def lead (p : InsertionPoint) (pending : Nat) : String :=
  match p with
  | append _ separator => separator
  | fill _ => if pending = 0 then "" else ", "
  | prepend _ _ | create _ _ _ => ""

/-- What stands behind entries that are added. -/
def trail : InsertionPoint → String
  | prepend _ separator => separator
  | append _ _ | fill _ | create _ _ _ => ""

/-- The text with entries at a point and with some separator between them. -/
def withEntries (p : InsertionPoint) (text : String) (separator : String) (entries : List String)
    (pending : Nat) : String :=
  String.ofList (takeBytes text.toList p.offset) ++
    (p.lead pending ++ separator.intercalate entries ++ p.trail) ++
    String.ofList (dropBytes text.toList p.offset)

variable {p : InsertionPoint}

/-- A change for an entry takes nothing out, and goes to the place of the point. -/
theorem entryChange_inserts (p : InsertionPoint) (slot e : String) (pending : Nat) (origin : Origin) :
    let c := p.entryChange slot e pending origin
    c.isInsertion = true ∧ c.offset = p.offset := by
  cases p with
  | create offset lead isAfter => cases isAfter <;> exact ⟨rfl, rfl⟩
  | _ => exact ⟨rfl, rfl⟩

/-- The text for an entry is the entry between what leads it and what trails it. -/
theorem text_entryChange (hp : p.createsSlot = false) (slot e : String) (pending : Nat)
    (origin : Origin) : (p.entryChange slot e pending origin).text = p.lead pending ++ e ++ p.trail := by
  cases p with
  | append offset separator => exact (String.append_empty).symm
  | fill offset => exact (String.append_empty).symm
  | prepend offset separator => exact congrArg (· ++ separator) (String.empty_append).symm
  | create offset lead isAfter => exact nomatch hp

/-- Several entries at once are one entry that has commas and spaces in it. -/
theorem creationChange_eq (hp : p.createsSlot = false) (slot : String) (entries : List String)
    (pending : Nat) (origin : Origin) :
    p.creationChange slot entries pending origin =
      p.entryChange slot (", ".intercalate entries) pending origin := by
  cases p with
  | create offset lead isAfter => exact nomatch hp
  | _ => rfl

theorem entryChanges_cons (p : InsertionPoint) (slot e : String) (es : List String) (pending : Nat)
    (origin : Origin) :
    p.entryChanges slot (e :: es) pending origin =
      p.entryChange slot e pending origin :: p.entryChanges slot es (pending + 1) origin := by
  simp only [entryChanges, List.mapIdx_cons, Nat.add_zero, Nat.add_assoc, Nat.add_comm 1]

/-- What is between two entries stands behind the first or in front of the second. -/
theorem trail_append_lead (hp : p.createsSlot = false) (pending : Nat) :
    p.trail ++ p.lead (pending + 1) = p.between := by
  cases p with
  | append offset separator => exact String.empty_append
  | fill offset => rfl
  | prepend offset separator => exact String.append_empty
  | create offset lead isAfter => exact nomatch hp

/-- Entries that are added one by one have the separator of the point between them. -/
theorem join_entryChanges (hp : p.createsSlot = false) (slot e : String) (es : List String)
    (pending : Nat) (origin : Origin) :
    String.join ((p.entryChanges slot (e :: es) pending origin).map Change.text) =
      p.lead pending ++ p.between.intercalate (e :: es) ++ p.trail := by
  induction es generalizing e pending with
  | nil =>
    rw [entryChanges_cons, List.map_cons, String.join_cons, text_entryChange hp,
      String.intercalate_singleton]
    exact String.append_empty
  | cons f es ih =>
    rw [entryChanges_cons, List.map_cons, String.join_cons, ih, text_entryChange hp,
      String.intercalate_cons_cons, ← trail_append_lead hp pending]
    simp only [String.append_assoc]

end InsertionPoint

/-! ## Separators between entries -/

/-- A text of entries is as long as its entries and what stands between them. -/
private theorem length_intercalate (e : String) (es : List String) :
    ∃ n, ∀ separator : String,
      (separator.intercalate (e :: es)).length = n + es.length * separator.length := by
  induction es generalizing e with
  | nil => exact ⟨e.length, fun separator => by simp⟩
  | cons f es ih =>
    obtain ⟨n, hn⟩ := ih f
    refine ⟨e.length + n, fun separator => ?_⟩
    rw [String.intercalate_cons_cons, String.length_append, String.length_append, hn, List.length_cons,
      Nat.add_mul]
    omega

/-- Entries with different separators between them are different texts, unless there is one only. -/
theorem intercalate_eq_iff {separator separator' : String} {entries : List String}
    (hne : entries ≠ []) :
    separator.intercalate entries = separator'.intercalate entries ↔
      entries.length = 1 ∨ separator = separator' := by
  match entries, hne with
  | [e], _ => simp
  | e :: f :: es, _ =>
    constructor
    · intro h
      obtain ⟨n, hn⟩ := length_intercalate e (f :: es)
      have hlength := congrArg String.length h
      rw [hn, hn, Nat.add_left_cancel_iff, List.length_cons] at hlength
      have hsame : separator.length = separator'.length :=
        Nat.eq_of_mul_eq_mul_left (Nat.succ_pos es.length) hlength
      rw [String.intercalate_cons_cons, String.intercalate_cons_cons, String.append_assoc,
        String.append_assoc, String.append_right_inj] at h
      -- Both separators are the front of one text
      have hchars := congrArg String.toList h
      rw [String.toList_append, String.toList_append] at hchars
      exact .inr (String.toList_inj.1 (List.append_inj_left hchars
        (by rwa [String.length_toList, String.length_toList])))
    · rintro (hone | rfl)
      · exact absurd (Nat.succ.inj hone) (Nat.succ_ne_zero es.length)
      · rfl

/-! ## One change or many -/

/-- At a point of a text that does not create a slot, one change for all entries puts commas and spaces
between them, and one change for each has the separator of the point between them. The two texts are the
same exactly where there is one entry, or where the separator of the point is a comma and a space. -/
theorem creationChange_agrees_iff {text : String} {p : InsertionPoint} {entries : List String}
    (hp : p.createsSlot = false) (hoffset : isBoundary text.toList p.offset = true)
    (hne : entries ≠ []) (slot : String) (pending : Nat) (origin : Origin) :
    let atOnce := apply text [p.creationChange slot entries pending origin]
    let oneByOne := apply text (p.entryChanges slot entries pending origin)
    atOnce = .ok (p.withEntries text ", " entries pending) ∧
      oneByOne = .ok (p.withEntries text p.between entries pending) ∧
      (atOnce = oneByOne ↔ entries.length = 1 ∨ p.between = ", ") := by
  intro atOnce oneByOne
  -- All entries as the one entry that they make when they are joined
  have hatOnce : atOnce = .ok (p.withEntries text ", " entries pending) := by
    have hplace := p.entryChange_inserts slot (", ".intercalate entries) pending origin
    show apply text [p.creationChange slot entries pending origin] = _
    rw [InsertionPoint.creationChange_eq hp,
      apply_of_one_place hoffset (List.forall_mem_singleton.2 hplace), List.map_singleton,
      InsertionPoint.text_entryChange hp, String.join_cons, String.join_nil, String.append_empty,
      InsertionPoint.withEntries]
  have honeByOne : oneByOne = .ok (p.withEntries text p.between entries pending) := by
    -- One by one they all go to the same byte
    have hplace : ∀ c ∈ p.entryChanges slot entries pending origin,
        c.isInsertion = true ∧ c.offset = p.offset := by
      intro c hc
      obtain ⟨k, hk, rfl⟩ := List.mem_mapIdx.1 hc
      exact p.entryChange_inserts slot _ _ origin
    obtain ⟨e, es, rfl⟩ := List.exists_cons_of_ne_nil hne
    show apply text (p.entryChanges slot (e :: es) pending origin) = _
    rw [apply_of_one_place hoffset hplace, InsertionPoint.join_entryChanges hp,
      InsertionPoint.withEntries]
  refine ⟨hatOnce, honeByOne, ?_⟩
  -- What stands around the entries is the same in both texts, and cancels
  rw [hatOnce, honeByOne, Except.ok.injEq, InsertionPoint.withEntries, InsertionPoint.withEntries,
    String.append_left_inj, String.append_right_inj, String.append_left_inj, String.append_right_inj,
    intercalate_eq_iff hne]
  exact or_congr_right eq_comm

/-- Behind an element on the line of the others, both ways give one text. -/
theorem creationChange_agrees_iff_sample :
    let text := "[é, A]"
    let p : InsertionPoint := .append 6 ", "
    let entries := ["B", "C.of(1, 2)"]
    p.createsSlot = false ∧ isBoundary text.toList p.offset = true ∧ entries ≠ [] ∧
      apply text [p.creationChange "xs" entries 1 .manual] =
        apply text (p.entryChanges "xs" entries 1 .manual) ∧
      apply text [p.creationChange "xs" entries 1 .manual] = .ok "[é, A, B, C.of(1, 2)]" := by
  intro text p entries
  obtain ⟨hp, hoffset, hne, happly⟩ : p.createsSlot = false ∧ isBoundary text.toList p.offset = true ∧
      entries ≠ [] ∧
      apply text [p.creationChange "xs" entries 1 .manual] = .ok "[é, A, B, C.of(1, 2)]" := by
    decide +kernel
  have hagrees := (creationChange_agrees_iff hp hoffset hne "xs" 1 .manual).2.2
  exact ⟨hp, hoffset, hne, hagrees.2 (.inr rfl), happly⟩

/-- Entries that are added at once are not always those that are added one by one. The elements stand on
lines of their own here; only the first of the new ones does when they are added at once. -/
theorem creationChange_leaves_lines :
    ¬∀ (text : String) (p : InsertionPoint) (slot : String) (entries : List String) (pending : Nat)
      (origin : Origin), p.createsSlot = false → isBoundary text.toList p.offset = true → entries ≠ [] →
      apply text [p.creationChange slot entries pending origin] =
        apply text (p.entryChanges slot entries pending origin) := by
  -- The entries are on lines of their own, and the second one does not get its own at once
  intro hall
  let text := "@M(\x7bxs: [\n  A\n]\x7d)class C\x7b\x7d"
  let p : InsertionPoint := .append 13 ",\n  "
  have hsame := hall text p "xs" ["B", "C"] 0 .manual rfl (by decide +kernel) (by decide)
  have hatOnce : apply text [p.creationChange "xs" ["B", "C"] 0 .manual] =
      .ok "@M(\x7bxs: [\n  A,\n  B, C\n]\x7d)class C\x7b\x7d" := by
    decide +kernel
  have honeByOne : apply text (p.entryChanges "xs" ["B", "C"] 0 .manual) =
      .ok "@M(\x7bxs: [\n  A,\n  B,\n  C\n]\x7d)class C\x7b\x7d" := by
    decide +kernel
  rw [hatOnce, honeByOne] at hsame
  exact absurd (Except.ok.inj hsame) (by decide)

end Enlist.Metadata
