import Enlist.Edit.Change
import Enlist.Text.Utf8

/-!
# Splicing changes into a text

`apply` checks every change by itself, puts the changes into the order of their offsets, and then
splices them into the text in one pass. Changes at one offset keep the order in which they were given;
between changes at different offsets the order does not matter. Two changes conflict when one starts
before the end of another that comes before it in this order.

* `mem_byOffset`   ordering neither loses nor adds a change
-/

namespace Enlist.Edit

/-- Why changes cannot be applied. A change is named by its place in the list. -/
inductive ApplyError where
  /-- The change `second` starts inside the bytes whose place `first` takes. -/
  | overlap (first second firstStart firstStop secondStart secondStop : Nat)
  /-- An offset lies behind the end of the text, which is at `length`. -/
  | outOfBounds (index offset length : Nat)
  /-- An offset lies inside a character, or a range ends before it starts. -/
  | notBoundary (index offset : Nat)
  deriving DecidableEq, Repr

namespace ApplyError

def message : ApplyError → String
  | overlap first second firstStart firstStop secondStart secondStop =>
    s!"overlapping edits: change #{first} ({firstStart}..{firstStop}) " ++
      s!"and change #{second} ({secondStart}..{secondStop})"
  | outOfBounds index offset length =>
    s!"change #{index} addresses {offset} but the text has {length} bytes"
  | notBoundary index offset => s!"change #{index} has an invalid boundary at {offset}"

end ApplyError

/-- A change and its place in the list that was given. -/
structure Numbered where
  index : Nat
  change : Change
  deriving DecidableEq, Repr

/-- The changes with their places, from the place `i` on. -/
def number (i : Nat) : List Change → List Numbered
  | [] => []
  | c :: cs => ⟨i, c⟩ :: number (i + 1) cs

/-- What is wrong with one offset of a change. -/
def offsetError? (text : List Char) (index offset : Nat) : Option ApplyError :=
  let length := Text.utf8Length text
  if length < offset then some (.outOfBounds index offset length)
  else if Text.isBoundary text offset then none
  else some (.notBoundary index offset)

/-- What is wrong with a change by itself: first its offset is looked at, then its end, and last the
order of the two. -/
def Numbered.error? (text : List Char) (n : Numbered) : Option ApplyError :=
  offsetError? text n.index n.change.offset <|>
    offsetError? text n.index n.change.stop <|>
    if n.change.stop < n.change.offset then some (.notBoundary n.index n.change.stop) else none

/-- Puts a change into a list in the order of offsets, in front of those at the same offset. -/
def insertByOffset (n : Numbered) : List Numbered → List Numbered
  | [] => [n]
  | m :: ms => if n.change.offset ≤ m.change.offset then n :: m :: ms else m :: insertByOffset n ms

/-- The changes in the order of their offsets; those at one offset stay in the order given. -/
def byOffset : List Numbered → List Numbered
  | [] => []
  | n :: ns => insertByOffset n (byOffset ns)

/-- Putting a change in its place among others adds that one and loses none. -/
theorem mem_insertByOffset {n m : Numbered} {ms : List Numbered} :
    m ∈ insertByOffset n ms ↔ m = n ∨ m ∈ ms := by
  induction ms with
  | nil => simp [insertByOffset]
  | cons k ks ih =>
    simp only [insertByOffset]
    split
    · simp
    · simp [ih, or_left_comm]

/-- Sorting loses no change and adds none. -/
theorem mem_byOffset {m : Numbered} {ns : List Numbered} : m ∈ byOffset ns ↔ m ∈ ns := by
  induction ns with
  | nil => simp [byOffset]
  | cons n ns ih => simp [byOffset, mem_insertByOffset, ih]

/-- The error of a change that starts before the end of `first`. -/
def overlapOf (first second : Numbered) : ApplyError :=
  .overlap first.index second.index first.change.offset first.change.stop second.change.offset
    second.change.stop

/-- Splices changes in the order of their offsets into `rest`, the text from byte `cursor` on. The
last change that took the place of some bytes is `claimant`. -/
def splice (claimant : Option Numbered) (cursor : Nat) (rest : List Char) :
    List Numbered → Except ApplyError (List Char)
  | [] => .ok rest
  | n :: ns =>
    if n.change.offset < cursor then .error (overlapOf (claimant.getD n) n)
    else
      let kept := Text.takeBytes rest (n.change.offset - cursor)
      let after := Text.dropBytes rest (n.change.stop - cursor)
      let claimant := if n.change.offset < n.change.stop then some n else claimant
      match splice claimant n.change.stop after ns with
      | .ok spliced => .ok (kept ++ n.change.text.toList ++ spliced)
      | .error e => .error e

/-- Applies changes to the characters of a text. -/
def applyToChars (text : List Char) (changes : List Change) : Except ApplyError (List Char) :=
  let numbered := number 0 changes
  match numbered.findSome? (Numbered.error? text) with
  | some e => .error e
  | none => splice none 0 text (byOffset numbered)

/-- Applies changes to a text. Every offset counts bytes of the text as it is given. -/
def apply (text : String) (changes : List Change) : Except ApplyError String :=
  (applyToChars text.toList changes).map String.ofList

end Enlist.Edit
