import Enlist.Event
import Enlist.Metadata.Declaration
import Enlist.Metadata.InsertionPoint
import Enlist.Syntax.Lookup
import Enlist.Text.Indent

/-!
# Slots

A slot is a member of the metadata whose value is an array literal. `locateSlot` finds the entries of
a slot and the point where new ones go. A slot that is not there is located too: its insertion point
creates it.
-/

namespace Enlist.Metadata

open Syntax

structure SlotLocation where
  slot : String
  /-- The entries that are there, without their blanks. -/
  existing : List String
  point : InsertionPoint
  deriving DecidableEq, Repr

/-- The symbol is an entry already; blanks do not matter. -/
def SlotLocation.contains (l : SlotLocation) (symbol : String) : Bool :=
  l.existing.contains (String.ofList (Text.compact symbol.toList))

/-- The name of a member of an object. Members that are not a key with a value, or a name that is
both, have none. -/
def propertyName? (text : List Char) (member : Node) : Option String :=
  match member.kind with
  | .pair => (member.child? .key).map fun key =>
    if key.kind = .string then key.stringValue text else key.source text
  | .shorthandProperty => some (member.source text)
  | _ => none

/-- The members of an object with a name. -/
def membersNamed (text : List Char) (object : Node) (name : String) : Lookup Node :=
  .ofList (object.namedChildren.filter fun m => propertyName? text m == some name)

/-- What stands between a node and a new neighbour. -/
def separatorOf (text : List Char) (n : Node) : String :=
  String.ofList (Text.separatorAt text n.span.start)

/-- The entries of an array literal, and the point behind the last of them. -/
def locateInArray (text : List Char) (slot : String) (array : Node) : SlotLocation :=
  let elements := array.namedChildren
  { slot
    existing := elements.map fun e => String.ofList (Text.compact (e.textIn text))
    point := match elements.getLast? with
      | some last => .append last.span.stop (separatorOf text last)
      | none => .fill (array.span.stop - 1) }

/-- The point where a slot is created: behind the last member of the metadata, or in front of its
closing brace. -/
def creationPoint (text : List Char) (metadata : Node) : InsertionPoint :=
  match metadata.namedChildren.getLast? with
  | some last => .create last.span.stop (separatorOf text last) true
  | none => .create (metadata.span.stop - 1) "" false

/-- A slot of the target declaration. Of several members with its name the first counts. -/
def locateSlot (s : Snapshot) (sel : Selector) (slot : String) : Except ResolveError SlotLocation := do
  let d ← locateDeclaration s sel
  match (membersNamed s.chars d.metadata slot).first? with
  | none => .ok { slot, existing := [], point := creationPoint s.chars d.metadata }
  | some member =>
    match member.childOfKind? .value .array with
    | some array => .ok (locateInArray s.chars slot array)
    | none => .error (.slotNotArray slot)

def slotEvents (s : Snapshot) (sel : Selector) (slot : String) : List Event :=
  match locateDeclaration s sel with
  | .error _ => []
  | .ok d =>
    let n := (membersNamed s.chars d.metadata slot).count
    if n ≤ 1 then []
    else
      [⟨.warn, "slot declared more than once, using the first",
        [("slot", slot), ("count", toString n)]⟩]

def isPresent (s : Snapshot) (sel : Selector) (slot symbol : String) : Except ResolveError Bool :=
  (locateSlot s sel slot).map fun l => l.contains symbol

end Enlist.Metadata
