/-!
# Version

The version under which the library is known.
-/

namespace Enlist

/-- The version of the library, which all of its parts share. -/
def version : String := "0.1.0"

end Enlist
