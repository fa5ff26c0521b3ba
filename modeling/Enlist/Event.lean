/-!
# Events

What happens in a session is told by events: a level, a message that is the same for every event of
its kind, and named values.
-/

namespace Enlist

inductive Level where
  | debug | info | warn
  deriving DecidableEq, Repr

/-- Something that happened. -/
structure Event where
  level : Level
  message : String
  fields : List (String × String)
  deriving DecidableEq, Repr

end Enlist
