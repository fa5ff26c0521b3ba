import Enlist.Json.Members
import Enlist.Json.Written

/-!
# JSON values

A `Value` is what a written value means: an object has each name once, and its members in the order of
their names. A written value that holds a string without a text, a number too great for a double, or
more levels than allowed means nothing.
-/

namespace Enlist.Json

inductive Value where
  | null
  | bool (b : Bool)
  | number (n : Numeral)
  | string (text : String)
  | array (elements : List Value)
  | object (members : List (String × Value))

namespace Value

/-- What a written value means that has at most `levels` arrays and objects around one another. -/
def ofWritten? (levels : Nat) : Written → Option Value
  | .null => some .null
  | .bool b => some (.bool b)
  | .number n => if n.isFinite then some (.number n) else none
  | .string text => text.map .string
  | .array elements =>
    match levels with
    | 0 => none
    | below + 1 => (elements.mapM (ofWritten? below)).map .array
  | .object members =>
    match levels with
    | 0 => none
    | below + 1 =>
      let read := members.mapM fun (name?, v) => do
        let name ← name?
        let value ← ofWritten? below v
        return (name, value)
      read.map fun ms => .object (Members.ofList ms)

end Value

end Enlist.Json
