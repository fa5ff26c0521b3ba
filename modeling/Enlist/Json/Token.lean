import Enlist.Json.Numeral

/-!
# Tokens of a JSON text

A string may name by escapes any UTF-16 units, also halves of surrogate pairs that stand alone. It is
read as a list of units and characters first; only a string without such halves is a text.

* `text?_map_toNat`   a string without escapes stands for its characters
-/

namespace Enlist.Json

namespace Units

/-- A unit that begins a surrogate pair. -/
def isHigh (n : Nat) : Bool :=
  0xd800 ≤ n && n < 0xdc00

/-- A unit that ends a surrogate pair. -/
def isLow (n : Nat) : Bool :=
  0xdc00 ≤ n && n < 0xe000

/-- The character that a surrogate pair stands for. -/
def pair (high low : Nat) : Char :=
  Char.ofNat (0x10000 + (high - 0xd800) * 0x400 + (low - 0xdc00))

/-- The characters that units and code points stand for, unless half a pair stands alone. -/
def text? : List Nat → Option (List Char)
  | [] => some []
  | [n] => if isHigh n || isLow n then none else some [Char.ofNat n]
  | n :: m :: ns =>
    if isHigh n && isLow m then (text? ns).map (pair n m :: ·)
    else if isHigh n || isLow n then none
    else (text? (m :: ns)).map (Char.ofNat n :: ·)

/-- No character has the number of the first half of a surrogate pair. -/
theorem isHigh_toNat (c : Char) : isHigh c.toNat = false := by
  have h := c.valid
  simp only [UInt32.isValidChar, Nat.isValidChar] at h
  simp only [isHigh, Char.toNat, Bool.and_eq_false_iff, decide_eq_false_iff_not]
  omega

/-- No character has the number of the second half of a surrogate pair. -/
theorem isLow_toNat (c : Char) : isLow c.toNat = false := by
  have h := c.valid
  simp only [UInt32.isValidChar, Nat.isValidChar] at h
  simp only [isLow, Char.toNat, Bool.and_eq_false_iff, decide_eq_false_iff_not]
  omega

/-- The numbers of the characters of a text are read back as that text. -/
theorem text?_map_toNat (cs : List Char) : text? (cs.map Char.toNat) = some cs := by
  induction cs with
  | nil => rfl
  | cons c cs ih =>
    cases cs with
    | nil => simp [text?, isHigh_toNat, isLow_toNat, Char.ofNat_toNat]
    | cons d ds =>
      simp only [List.map_cons] at ih
      simp [text?, isHigh_toNat, isLow_toNat, ih, Char.ofNat_toNat]

end Units

inductive Token where
  | openBrace | closeBrace | openBracket | closeBracket | comma | colon
  | null
  | bool (b : Bool)
  | number (n : Numeral)
  /-- A string; it has no text when an escape names half a surrogate pair that stands alone. -/
  | string (text : Option String)
  deriving DecidableEq, Repr

namespace Token

/-- The characters that may stand between tokens. -/
def isSpace (c : Char) : Bool :=
  c == ' ' || c == '\n' || c == '\r' || c == '\t'

def hexDigit? (c : Char) : Option Nat :=
  if c.isDigit then some (c.toNat - 48)
  else if 'a' ≤ c ∧ c ≤ 'f' then some (c.toNat - 87)
  else if 'A' ≤ c ∧ c ≤ 'F' then some (c.toNat - 55)
  else none

/-- The unit that four hexadecimal digits name. -/
def hexUnit? (a b c d : Char) : Option Nat := do
  return 4096 * (← hexDigit? a) + 256 * (← hexDigit? b) + 16 * (← hexDigit? c) + (← hexDigit? d)

/-- The character that a letter behind a backslash stands for. -/
def escaped? : Char → Option Char
  | '"' => some '"'
  | '\\' => some '\\'
  | '/' => some '/'
  | 'b' => some '\x08'
  | 'f' => some '\x0c'
  | 'n' => some '\n'
  | 'r' => some '\r'
  | 't' => some '\t'
  | _ => none

/-- The units of a string up to its closing quote, in front of those in `back`, which are kept from
the last to the first; and what follows the quote. -/
def readUnits (back : List Nat) : List Char → Option (List Nat × List Char)
  | [] => none
  | '"' :: cs => some (back.reverse, cs)
  | '\\' :: 'u' :: a :: b :: c :: d :: cs =>
    match hexUnit? a b c d with
    | some n => readUnits (n :: back) cs
    | none => none
  | '\\' :: e :: cs =>
    match escaped? e with
    | some c => readUnits (c.toNat :: back) cs
    | none => none
  | c :: cs => if c.toNat < 0x20 then none else readUnits (c.toNat :: back) cs

/-- The string whose opening quote was read. -/
def readString (cs : List Char) : Option (Token × List Char) :=
  (readUnits [] cs).map fun (units, rest) =>
    (.string ((Units.text? units).map String.ofList), rest)

/-- The token at the front of a text, and what follows it. -/
def read : List Char → Option (Token × List Char)
  | '\x7b' :: cs => some (.openBrace, cs)
  | '\x7d' :: cs => some (.closeBrace, cs)
  | '[' :: cs => some (.openBracket, cs)
  | ']' :: cs => some (.closeBracket, cs)
  | ',' :: cs => some (.comma, cs)
  | ':' :: cs => some (.colon, cs)
  | '"' :: cs => readString cs
  | 'n' :: 'u' :: 'l' :: 'l' :: cs => some (.null, cs)
  | 't' :: 'r' :: 'u' :: 'e' :: cs => some (.bool true, cs)
  | 'f' :: 'a' :: 'l' :: 's' :: 'e' :: cs => some (.bool false, cs)
  | cs => (Numeral.read cs).map fun (n, rest) => (.number n, rest)

/-- The tokens of a text, behind those in `back`, at most as many as `limit`. -/
def readAll (back : List Token) : Nat → List Char → Option (List Token)
  | 0, cs => if cs.all isSpace then some back.reverse else none
  | limit + 1, cs =>
    match cs.dropWhile isSpace with
    | [] => some back.reverse
    | rest =>
      match read rest with
      | some (t, rest) => readAll (t :: back) limit rest
      | none => none

/-- The tokens of a text; every token has a character at least. -/
def ofText? (text : List Char) : Option (List Token) :=
  readAll [] text.length text

end Token

end Enlist.Json
