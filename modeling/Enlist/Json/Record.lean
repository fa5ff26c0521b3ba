import Enlist.Json.Written

/-!
# Records

A record has named fields. It is written as an object with some of the fields, or as an array with the
values of the first fields. `fields?` gives the values of the fields in their order; the functions
after it read the values that may be missing.
-/

namespace Enlist.Json.Written

/-- The members of an object when all of them have names. -/
def namedMembers? (members : List (Option String × Written)) : Option (List (String × Written)) :=
  members.mapM fun m => m.1.map fun name => (name, m.2)

/-- The value of a field that goes by any of some names; the field may not be given twice. -/
def field? (members : List (String × Written)) (names : List String) : Option (Option Written) :=
  match members.filter fun m => names.contains m.1 with
  | [] => some none
  | [m] => some (some m.2)
  | _ => none

/-- The values of fields that are given from the first on; there may be no more values than fields. -/
def positional? (count : Nat) (values : List Written) : Option (List (Option Written)) :=
  if values.length ≤ count then
    some (values.map some ++ List.replicate (count - values.length) none)
  else none

/-- The values of the fields of a record, in the order of `fields`. A field is given by all names that
it goes by. -/
def fields? (fields : List (List String)) : Written → Option (List (Option Written))
  | .object members => do
    let members ← namedMembers? members
    fields.mapM (field? members)
  | .array values => positional? fields.length values
  | _ => none

/-- Reads a text that may be missing or null. -/
def optionalText? : Option Written → Option (Option String)
  | none | some .null => some none
  | some (.string text) => text.map some
  | _ => none

/-- Reads a natural number below a limit that may be missing or null. -/
def optionalNatural? (limit : Nat) : Option Written → Option (Option Nat)
  | none | some .null => some none
  | some (.number n) => (n.natural?.filter fun k => decide (k < limit)).map some
  | _ => none

/-- Reads a text that may be missing, but is not null. -/
def textOr? (default : String) : Option Written → Option String
  | none => some default
  | some (.string text) => text
  | _ => none

end Enlist.Json.Written
