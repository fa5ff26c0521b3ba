import Enlist.Syntax.Kind

/-!
# Lexemes of TypeScript

A `Lexeme` is a class of tokens: one punctuation mark, one keyword, names, numbers, and so on.
`Lexeme.length? l cs` is the number of characters of the token of class `l` at the front of `cs`.
Blanks and comments between tokens are no lexemes; `isGap` is the class of the blanks.
-/

namespace Enlist.Syntax

/-- A blank between tokens. -/
def isGap (c : Char) : Bool :=
  let n := c.toNat
  (0x9 ≤ n && n ≤ 0xd) || n == 0x20 || n == 0xa0 || n == 0x1680 || (0x2000 ≤ n && n ≤ 0x200b) ||
    n == 0x2028 || n == 0x2029 || n == 0x202f || n == 0x205f || n == 0x2060 || n == 0x3000 ||
    n == 0xfeff

def isLineBreak (c : Char) : Bool :=
  c == '\n' || c == '\r' || c == '\u2028' || c == '\u2029'

/-- A character that is neither a control character, a blank nor ASCII punctuation may stand in a
name. -/
def isWordChar (c : Char) : Bool :=
  let n := c.toNat
  if n < 0x80 then c.isAlphanum || c == '_' || c == '$' || n == 0x7f else !isGap c

/-- A name does not begin with a digit. -/
def isWordStart (c : Char) : Bool :=
  isWordChar c && !c.isDigit

def isHexDigit (c : Char) : Bool :=
  c.isDigit || ('a' ≤ c && c ≤ 'f') || ('A' ≤ c && c ≤ 'F')

/-- The length of the part of a Unicode escape that follows its `u`: four digits, or digits in
braces. -/
def unicodeEscapeLength? : List Char → Option Nat
  | '{' :: cs =>
    let digits := cs.takeWhile isHexDigit
    match digits, cs.drop digits.length with
    | _ :: _, '}' :: _ => some (digits.length + 2)
    | _, _ => none
  | a :: b :: c :: d :: _ =>
    if isHexDigit a && isHexDigit b && isHexDigit c && isHexDigit d then some 4 else none
  | _ => none

/-- The length of the part of an escape in a name that follows its backslash. -/
def wordEscapeLength? : List Char → Option Nat
  | 'u' :: cs => (unicodeEscapeLength? cs).map (· + 1)
  | _ => none

/-- The length of the rest of a name, of which `skip` characters belong to an escape. -/
def wordTail : List Char → Nat → Nat
  | [], _ => 0
  | _ :: cs, skip + 1 => wordTail cs skip + 1
  | c :: cs, 0 =>
    if isWordChar c then wordTail cs 0 + 1
    else if c == '\\' then
      match wordEscapeLength? cs with
      | some n => wordTail cs n + 1
      | none => 0
    else 0

/-- The length of a name, keywords included. -/
def wordLength? : List Char → Option Nat
  | c :: cs =>
    if isWordStart c || (c == '\\' && (wordEscapeLength? cs).isSome) then some (wordTail (c :: cs) 0)
    else none
  | [] => none

/-- The length of the part of an escape in a string that follows its backslash. -/
def stringEscapeLength? : List Char → Option Nat
  | 'x' :: a :: b :: _ => if isHexDigit a && isHexDigit b then some 3 else none
  | ['x', _] | ['x'] | [] => none
  | 'u' :: cs => (unicodeEscapeLength? cs).map (· + 1)
  | '\r' :: '\n' :: _ => some 2
  | _ :: _ => some 1

/-- The length of the rest of a string up to and with its closing quote; `skip` characters belong to
an escape. A line break ends no string unless it is escaped. -/
def stringTail? (quote : Char) : List Char → Nat → Option Nat
  | [], _ => none
  | _ :: cs, skip + 1 => (stringTail? quote cs skip).map (· + 1)
  | c :: cs, 0 =>
    if c == quote then some 1
    else if c == '\\' then
      match stringEscapeLength? cs with
      | some n => (stringTail? quote cs n).map (· + 1)
      | none => none
    else if c == '\n' || c == '\r' then none
    else (stringTail? quote cs 0).map (· + 1)

/-- The length of the rest of a piece of template text; the piece ends at the closing backquote, or,
when it `continues`, behind the `$` and brace that open a substitution. -/
def templateTail? (continues : Bool) : List Char → Option Nat
  | [] => none
  | '\x60' :: _ => if continues then none else some 1
  | '$' :: '\x7b' :: _ => if continues then some 2 else none
  | '\\' :: _ :: cs => (templateTail? continues cs).map (· + 2)
  | _ :: cs => (templateTail? continues cs).map (· + 1)

/-- The length of the rest of a regular expression up to and with its closing slash; a slash inside
a class does not close it. -/
def regexTail? : Bool → List Char → Option Nat
  | _, [] => none
  | inClass, '\\' :: c :: cs => if c == '\n' then none else (regexTail? inClass cs).map (· + 2)
  | inClass, c :: cs =>
    if c == '\n' then none
    else if c == '/' && !inClass then some 1
    else if c == '[' then (regexTail? true cs).map (· + 1)
    else if c == ']' then (regexTail? false cs).map (· + 1)
    else (regexTail? inClass cs).map (· + 1)

/-- The number of characters in front that pass a test. -/
def countWhile (p : Char → Bool) (cs : List Char) : Nat :=
  (cs.takeWhile p).length

/-- The number of characters that digits go on with behind a digit. A mark may stand between two of
them. -/
def moreDigits (digit : Char → Bool) : List Char → Nat
  | c :: cs =>
    if digit c || (c == '_' && cs.head?.any digit) then moreDigits digit cs + 1 else 0
  | [] => 0

/-- The length of the digits in front, if there are any. -/
def digitsLength? (digit : Char → Bool) : List Char → Option Nat
  | c :: cs => if digit c then some (moreDigits digit cs + 1) else none
  | [] => none

/-- The length of an exponent, zero where there is none. -/
def exponentLength : List Char → Nat
  | e :: cs =>
    if e == 'e' || e == 'E' then
      let sign := match cs with
        | '+' :: _ | '-' :: _ => 1
        | _ => 0
      match digitsLength? Char.isDigit (cs.drop sign) with
      | some n => sign + n + 1
      | none => 0
    else 0
  | [] => 0

/-- The digits of a number that begins with `0` and the letter. -/
def digitOfBase? (letter : Char) : Option (Char → Bool) :=
  if letter == 'x' || letter == 'X' then some isHexDigit
  else if letter == 'b' || letter == 'B' then some fun c => c == '0' || c == '1'
  else if letter == 'o' || letter == 'O' then some fun c => '0' ≤ c && c ≤ '7'
  else none

/-- The length of the mark of big numbers, zero where there is none. -/
def bigLength (cs : List Char) : Nat :=
  if cs.head? == some 'n' then 1 else 0

/-- The length of a number with a base, letter and digits behind the `0`. -/
def basedLength? : List Char → Option Nat
  | letter :: cs =>
    (digitOfBase? letter).bind fun digit =>
      (digitsLength? digit cs).map fun n => n + 2 + bigLength (cs.drop n)
  | [] => none

/-- A whole part, `0` aside, begins with another digit or with `0` and another one. -/
def isWholePart : List Char → Bool
  | ['0'] => true
  | '0' :: d :: _ => d != '0' && d.isDigit
  | _ => true

/-- The length of a decimal number that begins with a digit. Where the digits are no whole part, no
fraction and no exponent follows them. -/
def decimalLength? (cs : List Char) : Option Nat :=
  (digitsLength? Char.isDigit cs).map fun n =>
    let rest := cs.drop n
    if isWholePart (cs.take n) then
      match rest with
      | '.' :: rest =>
        let fraction := (digitsLength? Char.isDigit rest).getD 0
        n + 1 + fraction + exponentLength (rest.drop fraction)
      | rest => n + bigLength rest + exponentLength rest
    else n + bigLength rest

def numberLength? : List Char → Option Nat
  | '0' :: cs => (basedLength? cs).or (decimalLength? ('0' :: cs))
  | '.' :: cs => (digitsLength? Char.isDigit cs).map fun n => n + 1 + exponentLength (cs.drop n)
  | cs => decimalLength? cs

/-- The words that are no names. -/
def reservedWords : List (List Char) :=
  ["break", "case", "catch", "class", "const", "continue", "debugger", "default", "delete", "do",
    "else", "enum", "export", "extends", "false", "finally", "for", "function", "if", "import",
    "in", "instanceof", "new", "null", "return", "super", "switch", "this", "throw", "true", "try",
    "typeof", "var", "void", "while", "with"].map String.toList

inductive Lexeme where
  /-- The punctuation mark `text`, unless one of the characters `stops` follows it. -/
  | symbol (text stops : List Char)
  /-- The keyword `text`. -/
  | keyword (text : List Char)
  /-- Any name, keywords included. -/
  | word
  /-- A name that is no reserved word and is not among `except`. -/
  | name (except : List (List Char))
  | privateName
  | number
  | string
  | regex
  /-- A piece of template text. It opens with a backquote or, behind a substitution, with a closing
  brace, and ends with a backquote or with the opening of a substitution. -/
  | template (opens continues : Bool)
  /-- A first line that names an interpreter. -/
  | hashBang
  deriving Repr

/-- The number of characters of the token at the front, if it is of the class. -/
def Lexeme.length? : Lexeme → List Char → Option Nat
  | symbol text stops, cs =>
    if text.isPrefixOf cs then
      match cs.drop text.length with
      | c :: _ => if stops.contains c then none else some text.length
      | [] => some text.length
    else none
  | keyword text, cs =>
    if text.isPrefixOf cs && wordTail (cs.drop text.length) 0 == 0 then some text.length else none
  | word, cs => wordLength? cs
  | name except, cs =>
    match wordLength? cs with
    | some n =>
      let w := cs.take n
      if reservedWords.contains w || except.contains w then none else some n
    | none => none
  | privateName, cs =>
    match cs with
    | '#' :: cs => (wordLength? cs).map (· + 1)
    | _ => none
  | number, cs => numberLength? cs
  | string, cs =>
    match cs with
    | q :: cs => if q == '\'' || q == '"' then (stringTail? q cs 0).map (· + 1) else none
    | [] => none
  | regex, cs =>
    match cs with
    | '/' :: c :: cs =>
      if c == '/' || c == '*' then none
      else (regexTail? false (c :: cs)).map fun n =>
        n + 1 + countWhile (fun f => 'a' ≤ f && f ≤ 'z') ((c :: cs).drop n)
    | _ => none
  | template opens continues, cs =>
    match cs with
    | c :: cs =>
      if c == (if opens then '\x60' else '\x7d') then (templateTail? continues cs).map (· + 1)
      else none
    | [] => none
  | hashBang, cs =>
    match cs with
    | '#' :: '!' :: cs => some (countWhile (fun c => c != '\n') cs + 2)
    | _ => none

end Enlist.Syntax
