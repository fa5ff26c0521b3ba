import Enlist.Text.Blank
import Enlist.Text.Utf8

/-!
# Lines of their own

An item of a list stands on a line of its own when only blanks precede it on its line. A new item next
to it gets a line of its own too, with the same line break and the same indentation; otherwise it
stands behind a comma and a space.
-/

namespace Enlist.Text

/-- The line break and the indentation behind which a text ends, when it ends with a line of blanks
that is not its first line. -/
def ownLine? (before : List Char) : Option (List Char × List Char) :=
  let back := before.reverse
  let indent := (back.takeWhile (· != '\n')).reverse
  match back.dropWhile (· != '\n') with
  | [] => none
  | _ :: front =>
    if indent.all isBlank then some (if front.head? = some '\r' then ['\r', '\n'] else ['\n'], indent)
    else none

/-- What stands between the item of a list that starts at an offset and a new item next to it. -/
def separatorAt (text : List Char) (offset : Nat) : List Char :=
  match ownLine? (takeBytes text offset) with
  | some (lineBreak, indent) => ',' :: (lineBreak ++ indent)
  | none => [',', ' ']

end Enlist.Text
