import Enlist.Proofs.Edit.Insertion
import Enlist.Proofs.Metadata.Places

/-!
# New items

`itemsInserted` says what new items of a list in brackets look like in the text. The changes that add
entries to an array literal, and those that create slots in the metadata, are made one at a time; they
put in the same text, whatever number of them there is.

## Key results

- `flatten_items` / `join_items`: items that are put in one by one give the text of all of them
- `entryChange_locateInArray` / `creationChange_creationPoint`: the changes put in items, one by one
-/

namespace Enlist.Metadata

open Edit Syntax Text

/-- New items of a list in brackets: behind the last item of the list, each behind a separator, or, in
an empty list, in front of the closing bracket, with commas between them. -/
def itemsInserted (text : List Char) (list : Node) (items : List String) : Insertion :=
  { offset := itemsOffset list
    text :=
      match list.namedChildren.getLast? with
      | some last => String.join (items.map fun item => separatorOf text last ++ item)
      | none => ", ".intercalate items }

/-- What stands in front of a new item that comes behind `i` others. -/
def itemLead (text : List Char) (list : Node) (i : Nat) : String :=
  match list.namedChildren.getLast? with
  | some last => separatorOf text last
  | none => if i = 0 then "" else ", "

/-- A slot with entries, as it is written. -/
def slotText (slot : String) (entries : List String) : String :=
  slot ++ ": [" ++ ", ".intercalate entries ++ "]"

/-- Texts with something between them are the first text and the others, each behind it. -/
private theorem intercalate_cons (between first : String) (others : List String) :
    between.intercalate (first :: others) =
      first ++ String.join (others.map fun text => between ++ text) := by
  induction others generalizing first with
  | nil => simp
  | cons second others ih =>
    rw [String.intercalate_cons_cons, ih, List.map_cons, String.join_cons, String.append_assoc,
      String.append_assoc]

/-- Items with the same lead are joined with that lead in front of each. -/
private theorem flatten_mapIdx_lead (lead : String) (items : List String) :
    (items.mapIdx fun _ item => textBytes (lead ++ item)).flatten =
      textBytes (String.join (items.map fun item => lead ++ item)) := by
  induction items with
  | nil => rfl
  | cons item items ih =>
    rw [List.mapIdx_cons, List.flatten_cons, ih, List.map_cons, String.join_cons, ← textBytes_append]

/-- Items that are put in one by one give the text of all of them. -/
theorem flatten_items (text : List Char) (list : Node) (items : List String) :
    (items.mapIdx fun i item => textBytes (itemLead text list i ++ item)).flatten =
      textBytes (itemsInserted text list items).text := by
  simp only [itemsInserted, itemLead]
  cases list.namedChildren.getLast? with
  | some last => exact flatten_mapIdx_lead (separatorOf text last) items
  | none =>
    cases items with
    | nil => rfl
    | cons item items =>
      -- In an empty list every item but the first has a comma in front of it
      have hlead (i : Nat) : (if i + 1 = 0 then "" else ", ") = ", " := if_neg (Nat.succ_ne_zero i)
      simp only [List.mapIdx_cons, hlead, List.flatten_cons, flatten_mapIdx_lead, if_true]
      rw [intercalate_cons, ← textBytes_append, String.empty_append]

/-- Items are separated by something. -/
private theorem separatorOf_ne_empty (text : List Char) (n : Node) : separatorOf text n ≠ "" := by
  intro h
  have hchars := congrArg String.toList h
  rw [separatorOf, String.toList_ofList, separatorAt] at hchars
  split at hchars <;> exact nomatch hchars

/-- Only the first new item of an empty list has nothing in front of it. -/
theorem itemLead_eq_empty_iff (text : List Char) (list : Node) (i : Nat) :
    itemLead text list i = "" ↔ list.namedChildren = [] ∧ i = 0 := by
  rw [itemLead, ← List.getLast?_eq_none_iff]
  cases list.namedChildren.getLast? with
  | some last => simp [separatorOf_ne_empty text last]
  | none =>
    by_cases hi : i = 0
    · simp [hi]
    · simp only [hi, if_false, and_false, iff_false]
      decide

/-- An entry of an array literal is known up to blanks. -/
theorem contains_locateInArray (text : List Char) (slot : String) (array : Node) (e : String) :
    (locateInArray text slot array).contains e =
      (array.namedChildren.map (Node.source text)).any (sameUpToBlanks · e) := by
  have hsame (n : Node) : String.ofList (compact (n.textIn text)) =
      String.ofList (compact e.toList) ↔ sameUpToBlanks (n.source text) e = true := by
    rw [String.ofList_inj, sameUpToBlanks, Node.source, String.toList_ofList, beq_iff_eq]
  rw [Bool.eq_iff_iff]
  simp only [SlotLocation.contains, locateInArray, List.contains_iff_mem, List.mem_map,
    List.any_map, List.any_eq_true, Function.comp_apply, hsame]

/-- The change that adds an entry to an array literal puts in an item. -/
theorem entryChange_locateInArray (text : List Char) (slot : String) (array : Node) (e : String)
    (i : Nat) (origin : Origin) :
    let c := (locateInArray text slot array).point.entryChange slot e i origin
    c.isInsertion = true ∧ c.offset = itemsOffset array ∧ c.text = itemLead text array i ++ e := by
  simp only [locateInArray, itemsOffset, itemLead]
  cases array.namedChildren.getLast? with
  | some last => exact ⟨rfl, rfl, rfl⟩
  | none => exact ⟨rfl, rfl, rfl⟩

/-- What creates a slot is its text behind a lead. -/
private theorem creationText_eq (lead slot : String) (es : List String) :
    InsertionPoint.creationText lead slot es = lead ++ slotText slot es := by
  show lead ++ slot ++ ": [" ++ ", ".intercalate es ++ "]" = _
  rw [slotText]
  simp only [String.append_assoc]

/-- The change that creates a slot puts in an item of the metadata. -/
theorem creationChange_creationPoint (text : List Char) (metadata : Node) (slot : String)
    (es : List String) (i : Nat) (origin : Origin) :
    let c := (creationPoint text metadata).creationChange slot es i origin
    c.isInsertion = true ∧ c.offset = itemsOffset metadata ∧
      c.text = itemLead text metadata i ++ slotText slot es := by
  simp only [creationPoint, itemsOffset, itemLead]
  cases metadata.namedChildren.getLast? with
  | some last =>
    refine ⟨rfl, rfl, ?_⟩
    show InsertionPoint.creationText (InsertionPoint.creationLead (separatorOf text last) i) slot es = _
    -- A separator is taken as it is, however many slots are created before
    rw [InsertionPoint.creationLead, if_neg fun h => separatorOf_ne_empty text last h.1]
    exact creationText_eq _ slot es
  | none =>
    refine ⟨rfl, rfl, ?_⟩
    show InsertionPoint.creationText (InsertionPoint.creationLead "" i) slot es = _
    rw [creationText_eq]
    congr 1
    by_cases hi : i = 0
    · rw [if_pos hi, InsertionPoint.creationLead, if_neg fun h => Nat.not_lt.2 (Nat.le_of_eq hi) h.2]
    · rw [if_neg hi, InsertionPoint.creationLead, if_pos ⟨rfl, Nat.pos_of_ne_zero hi⟩]

end Enlist.Metadata
