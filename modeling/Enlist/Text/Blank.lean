/-!
# Blank characters

The characters with the Unicode property `White_Space`, and the two ways in which texts are compared
and cut with them: `compact` drops every blank, `trim` the blanks at both ends.

* `isBlank_of_isWhitespace`   every ASCII white space character is blank
* `compact_compact`           dropping blanks twice is dropping them once
-/

namespace Enlist.Text

/-- The character has the Unicode property `White_Space`. -/
def isBlank (c : Char) : Bool :=
  let n := c.toNat
  (0x9 ≤ n && n ≤ 0xd) || n == 0x20 || n == 0x85 || n == 0xa0 || n == 0x1680 ||
    (0x2000 ≤ n && n ≤ 0x200a) || n == 0x2028 || n == 0x2029 || n == 0x202f || n == 0x205f ||
    n == 0x3000

/-- The text without its blanks. Two entries of a list are the same entry when they agree on it. -/
def compact (cs : List Char) : List Char :=
  cs.filter fun c => !isBlank c

/-- The texts differ in blanks only. -/
def sameUpToBlanks (a b : String) : Bool :=
  compact a.toList == compact b.toList

/-- The text without the blanks at its two ends. -/
def trim (cs : List Char) : List Char :=
  ((cs.dropWhile isBlank).reverse.dropWhile isBlank).reverse

/-- What is white space in the narrow sense is blank. -/
theorem isBlank_of_isWhitespace {c : Char} (h : c.isWhitespace = true) : isBlank c = true := by
  simp only [Char.isWhitespace, Bool.or_eq_true, decide_eq_true_eq] at h
  rcases h with ((rfl | rfl) | rfl) | rfl <;> decide

@[simp] theorem compact_compact (cs : List Char) : compact (compact cs) = compact cs := by
  simp [compact, List.filter_filter]

@[simp] theorem compact_append (as bs : List Char) :
    compact (as ++ bs) = compact as ++ compact bs := by
  simp [compact]

end Enlist.Text
