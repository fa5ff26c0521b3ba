import Enlist.Text.Split

/-!
# Module paths

The module that a symbol is imported from is a base followed by a suffix. Segments `.` and `..` in it
are resolved. A path that is relative stays so, and `..` beyond its start is kept; in an absolute path
it is dropped.
-/

namespace Enlist.ModulePath

/-- The segment that leads to the directory around. -/
def up : List Char := ['.', '.']

/-- Enters a segment from a directory, which is given by its segments, the innermost first. -/
def enter (absolute : Bool) (dir : List (List Char)) (segment : List Char) : List (List Char) :=
  if segment = [] ∨ segment = ['.'] then dir
  else if segment = up then
    match dir with
    | inner :: outer => if inner ≠ up then outer else if absolute then dir else up :: dir
    | [] => if absolute then [] else [up]
  else segment :: dir

def isAbsolute (path : List Char) : Bool :=
  path.head? == some '/'

/-- The path starts at a directory near the file that it stands in. -/
def isRelative (path : List Char) : Bool :=
  path == ['.'] || ['.', '/'].isPrefixOf path || up.isPrefixOf path

/-- The segments of a path, resolved. -/
def resolve (path : List Char) : List (List Char) :=
  ((Text.splitOn (· == '/') path).foldl (enter (isAbsolute path)) []).reverse

def normalizeChars (path : List Char) : List Char :=
  let joined := Text.join '/' (resolve path)
  if isAbsolute path then '/' :: joined
  else if isRelative path then
    if joined = [] then ['.'] else if up.isPrefixOf joined then joined else '.' :: '/' :: joined
  else joined

/-- Joins a base and a suffix. -/
def join (base suffix : String) : String :=
  String.ofList (normalizeChars (base.toList ++ suffix.toList))

end Enlist.ModulePath
