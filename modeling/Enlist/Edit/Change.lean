import Enlist.Text.Quoted

/-!
# Changes

A `Change` is one edit of a text: it names a byte offset of the text as it was read, what happens
there, the registration that asked for it, and a description for people. Changes are collected and
then spliced into the text together, so no offset is ever moved by another change.

Registrations are recognised by the `Origin` of a change, never by its text.
-/

namespace Enlist.Edit

/-- What a change does at its offset. -/
inductive Action where
  /-- Insert text that belongs to what follows. -/
  | insertBefore
  /-- Insert text that belongs to what ends at the offset. -/
  | insertAfter
  /-- Put text in the place of the bytes up to `stop`. -/
  | replace (stop : Nat)
  /-- Take out the bytes up to `stop`. -/
  | remove (stop : Nat)
  deriving DecidableEq, Repr

/-- The registration that a change serves. -/
inductive Origin where
  | importOf (symbol module : String)
  | slotEntry (slot entry : String)
  | slotCreation (slot : String) (entries : List String)
  | route (literal : String)
  /-- The change was made by hand. -/
  | manual
  deriving DecidableEq, Repr

namespace Origin

/-- The entries that are added to a slot. -/
def entriesIn (slot : String) : Origin → List String
  | slotEntry s entry => if s = slot then [entry] else []
  | slotCreation s entries => if s = slot then entries else []
  | _ => []

def isCreation : Origin → Bool
  | slotCreation _ _ => true
  | _ => false

/-- The slot of the name is created. -/
def creates (slot : String) : Origin → Bool
  | slotCreation s _ => s == slot
  | _ => false

/-- An entry is added to the slot of the name, which is there. -/
def isEntryIn (slot : String) : Origin → Bool
  | slotEntry s _ => s == slot
  | _ => false

def route? : Origin → Option String
  | route literal => some literal
  | _ => none

end Origin

/-- One edit of a text. -/
structure Change where
  offset : Nat
  action : Action
  text : String
  origin : Origin
  /-- What the change does, for people. -/
  description : String
  deriving DecidableEq, Repr

namespace Change

/-- What an action at an offset does, in words. -/
def render (offset : Nat) (action : Action) (text : String) : String :=
  match action with
  | .insertBefore => s!"insert {Text.quoted text} before {offset}"
  | .insertAfter => s!"insert {Text.quoted text} after {offset}"
  | .replace stop => s!"replace {offset}..{stop} with {Text.quoted text}"
  | .remove stop => s!"remove {offset}..{stop}"

/-- The text that an action puts in: a removal puts in nothing. -/
def payload (action : Action) (text : String) : String :=
  match action with
  | .remove _ => ""
  | _ => text

/-- A change that is described by what it does. -/
def make (offset : Nat) (action : Action) (text : String) (origin : Origin) : Change :=
  let text := payload action text
  { offset, action, text, origin, description := render offset action text }

def insertBefore (offset : Nat) (text : String) (origin : Origin) : Change :=
  make offset .insertBefore text origin

def insertAfter (offset : Nat) (text : String) (origin : Origin) : Change :=
  make offset .insertAfter text origin

/-- The change under another description. -/
def describedAs (c : Change) (description : String) : Change :=
  { c with description }

/-- The same action at the same offset with another text. -/
def withText (c : Change) (text : String) (origin : Origin) : Change :=
  make c.offset c.action text origin

/-- The end of the bytes that the change takes the place of. An insertion takes no byte's place. -/
def stop (c : Change) : Nat :=
  match c.action with
  | .insertBefore | .insertAfter => c.offset
  | .replace stop | .remove stop => stop

/-- The change inserts and takes nothing out. -/
def isInsertion (c : Change) : Bool :=
  match c.action with
  | .insertBefore | .insertAfter => true
  | _ => false

def isRemoval (c : Change) : Bool :=
  match c.action with
  | .remove _ => true
  | _ => false

/-- What the change does, in words, whatever its description. -/
def display (c : Change) : String :=
  render c.offset c.action c.text

end Change

/-- Changes in the order in which they were asked for. -/
abbrev ChangeSet := List Change

namespace ChangeSet

def push (cs : ChangeSet) (c : Change) : ChangeSet :=
  cs ++ [c]

/-- Puts a change in the place of the one at an index, if there is one. -/
def replace (cs : ChangeSet) (i : Nat) (c : Change) : ChangeSet :=
  cs.set i c

def containsOrigin (cs : ChangeSet) (o : Origin) : Bool :=
  cs.any fun c => c.origin == o

end ChangeSet

end Enlist.Edit
