import Enlist.Imports.Ensure
import Enlist.Session.Basic

/-!
# Decisions

Before anything is recorded, a session decides what a registration takes: nothing, because the text
has it or a change for it is pending; a new change; or another text for a change that is pending. A
pending change is recognised by its origin.

A slot that is not there is created by one change, however many entries it gets, so each further entry
puts a new text in the place of that change.
-/

namespace Enlist

open Edit Metadata Imports

/-- What a registration takes. -/
inductive Decision where
  /-- Nothing: the text has it. -/
  | present
  /-- Nothing: a change for it is pending. -/
  | pending
  | append (c : Change)
  /-- A change in the place of the pending one at `index`. -/
  | extend (index : Nat) (c : Change)
  deriving DecidableEq, Repr

namespace Decision

/-- The change that is recorded, if one is. -/
def change? : Decision → Option Change
  | present | pending => none
  | append c | extend _ c => some c

def perform (changes : ChangeSet) : Decision → ChangeSet
  | present | pending => changes
  | append c => changes.push c
  | extend i c => changes.replace i c

end Decision

namespace Session

def decideImport (s : Session) (r : ImportRequest) : Decision :=
  if s.pending.containsOrigin r.origin then .pending
  else
    match s.snapshot.imports.ensure r s.pending with
    | none => .present
    | some c => .append c

/-- The change that adds an entry to a slot that is there. -/
def entryChange (s : Session) (l : SlotLocation) (entry : String) : Change :=
  let ahead := s.pending.countP fun c => c.origin.isEntryIn l.slot
  (l.point.entryChange l.slot entry ahead (.slotEntry l.slot entry)).describedAs
    s!"add {entry} to {l.slot}"

/-- The change that creates a slot, when the changes `before` are spliced in before it. -/
def creationChange (l : SlotLocation) (entries : List String) (before : List Change) : Change :=
  let ahead := before.countP fun c => c.origin.isCreation
  (l.point.creationChange l.slot entries ahead (.slotCreation l.slot entries)).describedAs
    s!"create {l.slot} with [{InsertionPoint.joined entries}]"

/-- What an entry of a slot takes that has to be created: it is created with the entry, or the pending
creation gets the entry too. -/
def decideCreation (s : Session) (l : SlotLocation) (entry : String) : Decision :=
  match s.pending.findIdx? fun c => c.origin.creates l.slot with
  | none => .append (creationChange l [entry] s.pending)
  | some i =>
    let others := (s.pending[i]?.map fun c => c.origin.entriesIn l.slot).getD []
    .extend i (creationChange l (others ++ [entry]) (s.pending.take i))

/-- A pending change adds the entry to the slot; blanks do not matter. -/
def isPendingEntry (s : Session) (slot entry : String) : Bool :=
  s.pending.any fun c => (c.origin.entriesIn slot).any (Text.sameUpToBlanks · entry)

def decideEntry (s : Session) (l : SlotLocation) (entry : String) : Decision :=
  if l.contains entry then .present
  else if s.isPendingEntry l.slot entry then .pending
  else if l.point.createsSlot then s.decideCreation l entry
  else .append (s.entryChange l entry)

def decideRoute (s : Session) (l : SlotLocation) (literal : String) : Decision :=
  let routes := s.pending.filterMap fun c => c.origin.route?
  if l.contains literal then .present
  else if routes.any (Text.sameUpToBlanks · literal) then .pending
  else
    .append <| (l.point.entryChange "routes" literal routes.length (.route literal)).describedAs
      "add route declaration"

end Session

end Enlist
