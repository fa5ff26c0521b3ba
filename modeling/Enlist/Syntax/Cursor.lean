import Enlist.Syntax.Lexeme
import Enlist.Syntax.Node

/-!
# Reading tokens

A `Cursor` is a place in a text: the characters that are left, the byte offset reached, and whether a
line ended before the next token. A line that ends inside a comment with a closing mark does not
count. A `Frame` holds the nodes read so far in one construct, the latest first. `Cursor.shift` reads
one token, together with the blanks and comments behind it.
-/

namespace Enlist.Syntax

/-- A place in a text, always in front of a token or at the end. -/
structure Cursor where
  /-- The characters that are left. -/
  rest : List Char
  /-- The byte offset of `rest`. -/
  offset : Nat
  /-- A line ended between the token before and `rest`. -/
  newLine : Bool

/-- The nodes read so far in one construct, the latest first. -/
abbrev Frame := List Node

/-- What stands between two tokens, read up to some place. -/
inductive Gap where
  /-- Outside of comments. -/
  | between
  /-- In a comment that ends with its line, opened at `start`. -/
  | inLine (start : Nat)
  /-- In a comment that has a closing mark, opened at `start`. -/
  | inBlock (start : Nat)

/-- The comment that covers the bytes from `start` to `stop`. -/
def commentNode (start stop : Nat) : Node :=
  .mk .comment none ⟨start, stop⟩ []

/-- Skips blanks and collects comments up to the next token; there is no result when a comment is not
closed. -/
def skipGap : Gap → Bool → Nat → List Char → Frame → Option (Frame × Cursor)
  | .between, newLine, i, '/' :: '/' :: cs, f => skipGap (.inLine i) newLine (i + 2) cs f
  | .between, newLine, i, '/' :: '*' :: cs, f => skipGap (.inBlock i) newLine (i + 2) cs f
  | .between, newLine, i, c :: cs, f =>
    if isGap c then skipGap .between (newLine || isLineBreak c) (i + c.utf8Size) cs f
    else some (f, ⟨c :: cs, i, newLine⟩)
  | .between, newLine, i, [], f => some (f, ⟨[], i, newLine⟩)
  | .inLine start, newLine, i, c :: cs, f =>
    if isLineBreak c then skipGap .between true (i + c.utf8Size) cs (commentNode start i :: f)
    else skipGap (.inLine start) newLine (i + c.utf8Size) cs f
  | .inLine start, newLine, i, [], f => some (commentNode start i :: f, ⟨[], i, newLine⟩)
  | .inBlock start, newLine, i, '*' :: '/' :: cs, f =>
    skipGap .between newLine (i + 2) cs (commentNode start (i + 2) :: f)
  | .inBlock start, newLine, i, c :: cs, f =>
    skipGap (.inBlock start) newLine (i + c.utf8Size) cs f
  | .inBlock _, _, _, [], _ => none

namespace Cursor

/-- The start of a text, behind the blanks and comments that it begins with. -/
def ofText (text : List Char) : Option (Frame × Cursor) :=
  skipGap .between false 0 text []

/-- Reads one token of class `l` as a leaf of kind `k`, and then blanks and comments. -/
def shift (k : Kind) (l : Lexeme) (f : Frame) (c : Cursor) : Option (Frame × Cursor) :=
  match l.length? c.rest with
  | some (n + 1) =>
    let stop := c.offset + Text.utf8Length (c.rest.take (n + 1))
    skipGap .between false stop (c.rest.drop (n + 1)) (.mk k none ⟨c.offset, stop⟩ [] :: f)
  | _ => none

end Cursor

end Enlist.Syntax
