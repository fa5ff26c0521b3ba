import Enlist.Edit.Change

/-!
# Insertion points

An `InsertionPoint` says where a new entry of a slot goes and what stands between it and its
neighbours. It gives the changes that add entries there.

* `origin_entryChange` / `origin_creationChange`   a change is for what it is said to be for
-/

namespace Enlist.Metadata

open Edit

/-- Where and how new entries go. -/
inductive InsertionPoint where
  /-- Behind the last element of an array, with `separator` in front of the entry. -/
  | append (offset : Nat) (separator : String)
  /-- In front of the closing bracket of an empty array. -/
  | fill (offset : Nat)
  /-- In front of an element that stays behind them, with `separator` behind the entry. -/
  | prepend (offset : Nat) (separator : String)
  /-- The slot is not there: it is created with `lead` in front of it. It goes behind the last member
  of the metadata when `isAfter` holds, and in front of the closing brace otherwise. -/
  | create (offset : Nat) (lead : String) (isAfter : Bool)
  deriving DecidableEq, Repr

namespace InsertionPoint

def offset : InsertionPoint → Nat
  | append offset _ | fill offset | prepend offset _ | create offset _ _ => offset

def createsSlot : InsertionPoint → Bool
  | create _ _ _ => true
  | _ => false

def joined (entries : List String) : String :=
  ", ".intercalate entries

/-- The text that creates a slot. -/
def creationText (lead slot : String) (entries : List String) : String :=
  s!"{lead}{slot}: [{joined entries}]"

/-- What stands in front of a slot that is created when `pending` others were created before it. In
metadata without members only the first has nothing in front of it. -/
def creationLead (lead : String) (pending : Nat) : String :=
  if lead = "" ∧ 0 < pending then ", " else lead

/-- The change that creates a slot at an offset, when `pending` others were created before it. -/
def creation (offset : Nat) (lead : String) (isAfter : Bool) (slot : String) (entries : List String)
    (pending : Nat) (origin : Origin) : Change :=
  let text := creationText (creationLead lead pending) slot entries
  if isAfter then .insertAfter offset text origin else .insertBefore offset text origin

/-- The change that adds one entry, when `pending` others are to be added before it. -/
def entryChange (p : InsertionPoint) (slot entry : String) (pending : Nat) (origin : Origin) :
    Change :=
  match p with
  | append offset separator => .insertAfter offset s!"{separator}{entry}" origin
  | fill offset =>
    let lead := if pending = 0 then "" else ", "
    .insertBefore offset s!"{lead}{entry}" origin
  | prepend offset separator => .insertBefore offset s!"{entry}{separator}" origin
  | create offset lead isAfter => creation offset lead isAfter slot [entry] pending origin

/-- The change that adds several entries at once; a slot that is not there is created with them. -/
def creationChange (p : InsertionPoint) (slot : String) (entries : List String) (pending : Nat)
    (origin : Origin) : Change :=
  match p with
  | create offset lead isAfter => creation offset lead isAfter slot entries pending origin
  | _ => p.entryChange slot (joined entries) pending origin

@[simp] theorem origin_entryChange (p : InsertionPoint) (slot entry : String) (pending : Nat)
    (origin : Origin) : (p.entryChange slot entry pending origin).origin = origin := by
  cases p with
  | create offset lead isAfter => cases isAfter <;> rfl
  | _ => rfl

@[simp] theorem origin_creationChange (p : InsertionPoint) (slot : String) (entries : List String)
    (pending : Nat) (origin : Origin) :
    (p.creationChange slot entries pending origin).origin = origin := by
  cases p with
  | create offset lead isAfter => cases isAfter <;> rfl
  | _ => rfl

end InsertionPoint

end Enlist.Metadata
