import Enlist.Text.Split

/-!
# Paths

A path is normalised before a file is looked up: it becomes absolute, has `/` between its segments,
and keeps no empty segment, no `.` and no `..`. A `..` takes back the segment in front of it, and does
nothing at the root.

* `stack_append`   reading two paths one after the other is reading them with `/` between
-/

namespace Enlist.Store.Path

/-- Both slashes part the segments of a path. -/
def isSeparator (c : Char) : Bool :=
  c == '/' || c == '\\'

def segments (path : List Char) : List (List Char) :=
  Text.splitOn isSeparator path

/-- Enters a segment from a directory, which is given by its segments, the innermost first. -/
def enter (dir : List (List Char)) (segment : List Char) : List (List Char) :=
  if segment = [] ∨ segment = ['.'] then dir
  else if segment = ['.', '.'] then dir.tail
  else segment :: dir

/-- The directory that is reached from another one by some segments. -/
def stack (dir : List (List Char)) (segments : List (List Char)) : List (List Char) :=
  segments.foldl enter dir

def render (dir : List (List Char)) : List Char :=
  '/' :: Text.join '/' dir.reverse

def normalizeChars (path : List Char) : List Char :=
  render (stack [] (segments path))

def normalize (path : String) : String :=
  String.ofList (normalizeChars path.toList)

/-- What stands in front of the last `/` of a path; nothing where there is none. -/
def parent (path : String) : String :=
  let back := path.toList.reverse.dropWhile (· != '/')
  String.ofList back.tail.reverse

theorem stack_append (dir : List (List Char)) (as bs : List (List Char)) :
    stack dir (as ++ bs) = stack (stack dir as) bs := by
  simp [stack]

end Enlist.Store.Path
