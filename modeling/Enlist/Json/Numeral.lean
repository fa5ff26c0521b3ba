/-!
# Numbers as they are written

A JSON number has an integer part without a leading zero, possibly digits behind a point, and possibly
an exponent. `Numeral` keeps how it is written, because a whole number may be asked for that is written
with digits alone.

* `natural?_eq_some_iff`   which numerals are natural numbers
-/

namespace Enlist.Json

structure Numeral where
  negative : Bool
  /-- All digits in front of the exponent, those behind the point included. -/
  digits : Nat
  /-- How many of the digits stand behind the point. -/
  places : Nat
  exponent : Option Int
  deriving DecidableEq, Repr

namespace Numeral

/-- The number, if it is written as a natural number with digits alone. -/
def natural? (n : Numeral) : Option Nat :=
  if n.negative = false ∧ n.places = 0 ∧ n.exponent = none then some n.digits else none

/-- The power of ten that the digits are multiplied with. -/
def scale (n : Numeral) : Int :=
  n.exponent.getD 0 - n.places

/-- The smallest number that rounds to infinity as a double, half a unit above the largest double. -/
def doubleLimit : Nat :=
  Nat.pow 2 1024 - Nat.pow 2 970

/-- The number has a finite double next to it. The limit has 309 digits, so the number of digits
decides, but for numbers with as many. -/
def isFinite (n : Numeral) : Bool :=
  let size : Int := (Nat.toDigits 10 n.digits).length + n.scale
  n.digits == 0 || size < 309 || size == 309 &&
    n.digits * Nat.pow 10 n.scale.toNat < doubleLimit * Nat.pow 10 (-n.scale).toNat

/-- The number that some digits stand for, behind the digits of `high`. -/
def ofDigits (high : Nat) (cs : List Char) : Nat :=
  cs.foldl (fun n c => 10 * n + (c.toNat - 48)) high

/-- The digits at the front of a text, at least one, and what follows them. -/
def readDigits (cs : List Char) : Option (List Char × List Char) :=
  match cs.takeWhile Char.isDigit with
  | [] => none
  | digits => some (digits, cs.dropWhile Char.isDigit)

/-- The integer part at the front of a text: a zero stands alone. -/
def readWhole (cs : List Char) : Option (List Char × List Char) :=
  match readDigits cs with
  | some ('0' :: _ :: _, _) => none
  | read => read

/-- The digits behind a point at the front of a text, if there is one. -/
def readPlaces : List Char → Option (List Char × List Char)
  | '.' :: cs => readDigits cs
  | cs => some ([], cs)

/-- The exponent at the front of a text, if there is one. -/
def readExponent : List Char → Option (Option Int × List Char)
  | c :: cs =>
    if c = 'e' ∨ c = 'E' then
      match cs with
      | '-' :: cs => (readDigits cs).map fun (ds, rest) => (some (-(ofDigits 0 ds : Int)), rest)
      | '+' :: cs => (readDigits cs).map fun (ds, rest) => (some (ofDigits 0 ds : Int), rest)
      | cs => (readDigits cs).map fun (ds, rest) => (some (ofDigits 0 ds : Int), rest)
    else some (none, c :: cs)
  | [] => some (none, [])

def readSign : List Char → Bool × List Char
  | '-' :: cs => (true, cs)
  | cs => (false, cs)

/-- The number at the front of a text, and what follows it. -/
def read (cs : List Char) : Option (Numeral × List Char) := do
  let (negative, cs) := readSign cs
  let (whole, cs) ← readWhole cs
  let (places, cs) ← readPlaces cs
  let (exponent, rest) ← readExponent cs
  return ({ negative, digits := ofDigits 0 (whole ++ places), places := places.length, exponent }, rest)

/-- A numeral is a natural number only if it is written as one: without a sign, a point and an exponent.
-/
theorem natural?_eq_some_iff {n : Numeral} {k : Nat} :
    n.natural? = some k ↔ n = { negative := false, digits := k, places := 0, exponent := none } := by
  obtain ⟨negative, digits, places, exponent⟩ := n
  simp only [natural?, Option.ite_none_right_eq_some, Option.some.injEq, mk.injEq]
  constructor
  · rintro ⟨⟨h₁, h₂, h₃⟩, h₄⟩
    exact ⟨h₁, h₄, h₂, h₃⟩
  · rintro ⟨h₁, h₄, h₂, h₃⟩
    exact ⟨⟨h₁, h₂, h₃⟩, h₄⟩

end Numeral

end Enlist.Json
