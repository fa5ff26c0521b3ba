import Enlist.Json.Token

/-!
# JSON values as they are written

`Written` keeps what a text says: the members of an object in their order, also those with a name that
was given before. `Written.ofText?` reads a whole text. Its reader goes through the tokens once and
keeps the values that are open around the current one on a stack, so no depth is too great for it.
-/

namespace Enlist.Json

/-- A value as it is written. The text of a string is missing when an escape in it names half a
surrogate pair that stands alone. -/
inductive Written where
  | null
  | bool (b : Bool)
  | number (n : Numeral)
  | string (text : Option String)
  | array (elements : List Written)
  | object (members : List (Option String × Written))

/-- A value that is not closed yet, with what was read of it, from the last to the first. -/
inductive Frame where
  | array (back : List Written)
  | object (back : List (Option String × Written))
  /-- An object and the name of the member that is being read. -/
  | member (back : List (Option String × Written)) (name : Option String)

/-- What may come next, given the open values from the innermost to the outermost. -/
inductive Reader where
  | value (stack : List Frame)
  /-- The first element of an array, or its end. -/
  | element (stack : List Frame)
  /-- The first member of an object, or its end. -/
  | firstName (stack : List Frame)
  /-- A member of an object. -/
  | name (back : List (Option String × Written)) (stack : List Frame)
  | colon (back : List (Option String × Written)) (name : Option String) (stack : List Frame)
  /-- A comma or the end of the array. -/
  | arrayRest (back : List Written) (stack : List Frame)
  /-- A comma or the end of the object. -/
  | objectRest (back : List (Option String × Written)) (stack : List Frame)
  /-- Nothing: the text is a whole value. -/
  | done (value : Written)

namespace Reader

/-- Goes on behind a value. -/
def close (v : Written) : List Frame → Reader
  | [] => done v
  | .array back :: stack => arrayRest (v :: back) stack
  | .object back :: stack => objectRest back stack
  | .member back n :: stack => objectRest ((n, v) :: back) stack

def begin? (stack : List Frame) : Token → Option Reader
  | .openBrace => some (firstName stack)
  | .openBracket => some (element stack)
  | .null => some (close .null stack)
  | .bool b => some (close (.bool b) stack)
  | .number n => some (close (.number n) stack)
  | .string text => some (close (.string text) stack)
  | _ => none

def step : Reader → Token → Option Reader
  | value stack, t => begin? stack t
  | element stack, .closeBracket => some (close (.array []) stack)
  | element stack, t => begin? (.array [] :: stack) t
  | firstName stack, .closeBrace => some (close (.object []) stack)
  | firstName stack, .string n => some (colon [] n stack)
  | name back stack, .string n => some (colon back n stack)
  | colon back n stack, .colon => some (value (.member back n :: stack))
  | arrayRest back stack, .comma => some (value (.array back :: stack))
  | arrayRest back stack, .closeBracket => some (close (.array back.reverse) stack)
  | objectRest back stack, .comma => some (name back stack)
  | objectRest back stack, .closeBrace => some (close (.object back.reverse) stack)
  | _, _ => none

end Reader

namespace Written

/-- The value that tokens spell. -/
def ofTokens? (ts : List Token) : Option Written :=
  match ts.foldlM Reader.step (.value []) with
  | some (.done v) => some v
  | _ => none

def ofText? (text : List Char) : Option Written :=
  (Token.ofText? text).bind ofTokens?

end Written

end Enlist.Json
