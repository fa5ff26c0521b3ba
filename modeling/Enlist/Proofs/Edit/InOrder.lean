import Enlist.Proofs.Edit.Splice
import Mathlib.Data.List.Sort
import Mathlib.Logic.Equiv.Fin.Rotate

/-!
# Changes in their order

`apply` puts changes into the order of their offsets and goes over them once. The numbers that it gives
them are there for its errors: the text that comes out is that of a pass without numbers
(`spliceInOrder`) over the changes in their order (`inOrder`).

A list may be given in another order (`Rearranges`). As long as the changes at one offset come one
after the other as they did, nothing of this is seen in the text.

## Key results

- `apply_eq_ok_iff`: when changes are applied, and what comes out, without numbers
- `inOrder_of_pairwise`: changes that are given in the order of their offsets are in their order
- `Rearranges.inOrder_eq`: a list that is given in another order has the same changes in their order
- `apply_rearranged`: it is applied to the same text, or to none
-/

namespace Enlist.Edit

open Text

/-- The changes of a list in the order in which they are spliced. -/
def inOrder (changes : List Change) : List Change :=
  (byOffset (number 0 changes)).map Numbered.change

/-- The pass over changes in their order, from byte `cursor` of a text on. There is no result when a
change starts before the cursor. -/
def spliceInOrder (cursor : Nat) (rest : List Char) : List Change → Option (List Char)
  | [] => some rest
  | c :: cs =>
    if c.offset < cursor then none
    else
      (spliceInOrder c.stop (dropBytes rest (c.stop - cursor)) cs).map fun spliced =>
        takeBytes rest (c.offset - cursor) ++ c.text.toList ++ spliced

/-- Putting changes in order loses none and adds none. -/
theorem mem_inOrder {c : Change} {changes : List Change} : c ∈ inOrder changes ↔ c ∈ changes := by
  have hperm := (byOffset_perm (number 0 changes)).map Numbered.change
  rw [map_change_number] at hperm
  exact hperm.mem_iff

/-- What the pass with numbers gives does not depend on them. -/
theorem toOption_splice (claimant : Option Numbered) (cursor : Nat) (rest : List Char)
    (ns : List Numbered) :
    (splice claimant cursor rest ns).toOption =
      spliceInOrder cursor rest (ns.map Numbered.change) := by
  induction ns generalizing claimant cursor rest with
  | nil => rfl
  | cons n ns ih =>
    simp only [List.map_cons, spliceInOrder, splice]
    split
    · rfl
    · -- The claimant may be another one from here on, and the text is not seen to depend on it
      rw [← ih (if n.change.offset < n.change.stop then some n else claimant)]
      cases splice (if n.change.offset < n.change.stop then some n else claimant) n.change.stop
        (dropBytes rest (n.change.stop - cursor)) ns <;> rfl

/-- Changes are applied exactly when each fits the text and the pass over them in their order
succeeds. -/
theorem apply_eq_ok_iff {text out : String} {changes : List Change} :
    apply text changes = .ok out ↔
      (∀ c ∈ changes, c.Fits text.toList) ∧
        spliceInOrder 0 text.toList (inOrder changes) = some out.toList := by
  rw [apply, applyToChars, inOrder, ← toOption_splice none, ← findSome?_error?_eq_none_iff]
  cases (number 0 changes).findSome? (Numbered.error? text.toList) with
  | some e => simp [Except.map]
  | none =>
    cases splice none 0 text.toList (byOffset (number 0 changes)) with
    | error e => simp [Except.map, Except.toOption]
    | ok spliced =>
      simp only [Except.map, Except.toOption, Except.ok.injEq, Option.some.injEq, true_and]
      rw [← String.toList_inj, String.toList_ofList]

/-! ## Changes that are given in order -/

/-- Changes that are sorted by their offsets stay in their order. -/
private theorem byOffset_of_pairwise {k : Nat} {cs : List Change}
    (h : cs.Pairwise fun a b => a.offset ≤ b.offset) : byOffset (number k cs) = number k cs := by
  induction cs generalizing k with
  | nil => rfl
  | cons c cs ih =>
    obtain ⟨hc, hcs⟩ := List.pairwise_cons.1 h
    rw [number, byOffset, ih hcs]
    -- The first change is put in front of the next, which has no smaller offset
    cases cs with
    | nil => rfl
    | cons d ds => rw [number, insertByOffset, if_pos (hc d List.mem_cons_self)]

/-- Changes that are given in the order of their offsets are in their order. -/
theorem inOrder_of_pairwise {changes : List Change}
    (h : changes.Pairwise fun a b => a.offset ≤ b.offset) : inOrder changes = changes := by
  rw [inOrder, byOffset_of_pairwise h, map_change_number]

/-! ## Lists that are given in another order -/

/-- The changes of a list at other places: the change at place `i` is at `place i`. Of two changes at
one offset the one that came first still does. -/
structure Rearranges (changes others : List Change)
    (place : Fin changes.length ≃ Fin others.length) : Prop where
  change_eq : ∀ i, others[place i] = changes[i]
  keeps_ties : ∀ i j, i < j → changes[i].offset = changes[j].offset → place i < place j

namespace Rearranges

variable {changes others : List Change} {place : Fin changes.length ≃ Fin others.length}

/-- A change at its new place. -/
private def moved (place : Fin changes.length ≃ Fin others.length) (n : Numbered) : Numbered :=
  if h : n.index < changes.length then ⟨place ⟨n.index, h⟩, n.change⟩ else n

/-- A change is moved to its place. -/
private theorem moved_mk (i : Fin changes.length) (c : Change) :
    moved place ⟨i, c⟩ = ⟨place i, c⟩ := by
  rw [moved, dif_pos i.isLt]

/-- A change that is moved is the same change. -/
private theorem change_moved (n : Numbered) : (moved place n).change = n.change := by
  rw [moved]
  split <;> rfl

/-- The numbered changes of a list are its changes with their places. -/
private theorem mem_byOffset_iff {cs : List Change} {n : Numbered} :
    n ∈ byOffset (number 0 cs) ↔ ∃ i : Fin cs.length, n = ⟨i, cs[i]⟩ := by
  rw [mem_byOffset, mem_number, Nat.sub_zero, List.getElem?_eq_some_iff]
  constructor
  · rintro ⟨_, hi, hget⟩
    exact ⟨⟨n.index, hi⟩, by rw [Fin.getElem_fin, hget]⟩
  · rintro ⟨i, rfl⟩
    exact ⟨Nat.zero_le _, i.isLt, rfl⟩

/-- At their new places the changes are those of the other list. -/
private theorem mem_map_moved_iff (h : Rearranges changes others place) {n : Numbered} :
    n ∈ (byOffset (number 0 changes)).map (moved place) ↔ n ∈ byOffset (number 0 others) := by
  rw [List.mem_map, mem_byOffset_iff]
  constructor
  · rintro ⟨m, hm, rfl⟩
    obtain ⟨i, rfl⟩ := mem_byOffset_iff.1 hm
    exact ⟨place i, by rw [moved_mk, h.change_eq]⟩
  · rintro ⟨j, rfl⟩
    obtain ⟨i, rfl⟩ := place.surjective j
    exact ⟨_, mem_byOffset_iff.2 ⟨i, rfl⟩, by rw [moved_mk, h.change_eq]⟩

/-- At their new places the changes are in the same order. -/
private theorem pairwise_map_moved (h : Rearranges changes others place) :
    ((byOffset (number 0 changes)).map (moved place)).Pairwise Numbered.Before := by
  rw [List.pairwise_map]
  refine (pairwise_byOffset 0 changes).imp_of_mem fun {a b} ha hb hab => ?_
  obtain ⟨i, rfl⟩ := mem_byOffset_iff.1 ha
  obtain ⟨j, rfl⟩ := mem_byOffset_iff.1 hb
  rw [moved_mk, moved_mk]
  rcases hab with hlt | ⟨heq, hlt⟩
  · exact .inl hlt
  · exact .inr ⟨heq, h.keeps_ties i j hlt heq⟩

/-- A list that is given in another order has the same changes in their order. -/
theorem inOrder_eq (h : Rearranges changes others place) : inOrder changes = inOrder others := by
  -- A list in the order `Before` is determined by what is in it
  have hmoved := h.pairwise_map_moved.eq_of_mem_iff (pairwise_byOffset 0 others)
    fun n => h.mem_map_moved_iff
  rw [inOrder, inOrder, ← hmoved, List.map_map]
  exact List.map_congr_left fun n _ => (change_moved n).symm

end Rearranges

/-- Two lists of the same changes, of which those at one offset come in the same order, are both applied
to a text and give the same text, or neither is applied to it. -/
theorem apply_rearranged {changes others : List Change}
    {place : Fin changes.length ≃ Fin others.length} (h : Rearranges changes others place)
    (text : String) : (apply text changes).toOption = (apply text others).toOption := by
  have hsame (out : String) : apply text changes = .ok out ↔ apply text others = .ok out := by
    rw [apply_eq_ok_iff, apply_eq_ok_iff, h.inOrder_eq]
    have hmem (c : Change) : c ∈ changes ↔ c ∈ others := by
      rw [← mem_inOrder, h.inOrder_eq, mem_inOrder]
    simp only [hmem]
  have hok (r : Except ApplyError String) (out : String) : r.toOption = some out ↔ r = .ok out := by
    cases r <;> simp [Except.toOption]
  exact Option.ext fun out => by rw [hok, hok, hsame]

/-- The last change is given first. The two insertions at one offset come as they did. -/
theorem apply_rearranged_sample :
    let text := "aébc"
    let x : Change := .insertAfter 3 "x" .manual
    let y : Change := .insertBefore 3 "y" .manual
    let replacement : Change := .make 1 (.replace 3) "E" .manual
    let removal : Change := .make 0 (.remove 1) "" .manual
    let changes := [x, replacement, y, removal]
    let others := [removal, x, replacement, y]
    Rearranges changes others (finRotate 4) ∧
      (apply text changes).toOption = (apply text others).toOption ∧
      apply text changes = .ok "Exybc" := by
  intro text x y replacement removal changes others
  have h : Rearranges changes others (finRotate 4) := ⟨by decide, by decide⟩
  exact ⟨h, apply_rearranged h text, by decide +kernel⟩

end Enlist.Edit
