/-!
# UTF-8 offsets in a list of characters

Offsets into a text count the bytes of its UTF-8 form, while the text itself is read as a list of
characters. `utf8Length` is the byte length of a list, `takeBytes` and `dropBytes` cut it at a byte
offset, and `IsBoundary` says which offsets fall between two characters.

* `takeBytes_append_dropBytes`   cutting loses nothing
* `utf8Length_takeBytes`         at a boundary the front has the length asked for
-/

namespace Enlist.Text

/-- The number of bytes of the UTF-8 form of a list of characters. -/
def utf8Length : List Char → Nat
  | [] => 0
  | c :: cs => c.utf8Size + utf8Length cs

/-- The characters that start before byte `n`. -/
def takeBytes : List Char → Nat → List Char
  | [], _ => []
  | c :: cs, n => if n = 0 then [] else c :: takeBytes cs (n - c.utf8Size)

/-- The characters that start at byte `n` or later. -/
def dropBytes : List Char → Nat → List Char
  | [], _ => []
  | c :: cs, n => if n = 0 then c :: cs else dropBytes cs (n - c.utf8Size)

/-- Byte `n` is the start of a character of the list, or its end. -/
def isBoundary : List Char → Nat → Bool
  | [], n => n == 0
  | c :: cs, n => n == 0 || (c.utf8Size ≤ n && isBoundary cs (n - c.utf8Size))

/-- The characters between two byte offsets. -/
def slice (cs : List Char) (start stop : Nat) : List Char :=
  takeBytes (dropBytes cs start) (stop - start)

theorem isBoundary_zero (cs : List Char) : isBoundary cs 0 = true := by
  cases cs <;> simp [isBoundary]

/-- A text is cut in two without loss, wherever it is cut. -/
theorem takeBytes_append_dropBytes (cs : List Char) (n : Nat) :
    takeBytes cs n ++ dropBytes cs n = cs := by
  induction cs generalizing n with
  | nil => rfl
  | cons c cs ih =>
    by_cases h : n = 0
    · simp [takeBytes, dropBytes, h]
    · simp [takeBytes, dropBytes, h, ih]

@[simp] theorem utf8Length_append (as bs : List Char) :
    utf8Length (as ++ bs) = utf8Length as + utf8Length bs := by
  induction as with
  | nil => simp [utf8Length]
  | cons c cs ih => simp [utf8Length, ih, Nat.add_assoc]

/-- What is cut off between two characters has the length that was asked for. -/
theorem utf8Length_takeBytes {cs : List Char} {n : Nat} (h : isBoundary cs n = true) :
    utf8Length (takeBytes cs n) = n := by
  induction cs generalizing n with
  | nil => simp_all [isBoundary, takeBytes, utf8Length]
  | cons c cs ih =>
    by_cases hn : n = 0
    · simp [takeBytes, utf8Length, hn]
    · simp only [isBoundary, Bool.or_eq_true, beq_iff_eq, hn, false_or, Bool.and_eq_true,
        decide_eq_true_eq] at h
      simp only [takeBytes, hn, if_false, utf8Length, ih h.2]
      omega

end Enlist.Text
