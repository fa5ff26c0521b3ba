import Enlist.Text.Quoted

/-!
# Reading quoted text

Every character of a quoted text is written in its own way, whatever follows it: `readChar` reads the one
at the front back. The quote that ends a quoted text begins no written character, so the end of a quoted
text is found too, also where the text holds quotes and backslashes.

## Key results

- `numberOf_hexDigits`: a number is read from its hexadecimal digits
- `readChar_encodeChar`: a written character is read back
- `quoted_append_inj`: two quoted texts, and what follows them
-/

namespace Enlist.Text

namespace Quoted

/-! ## Numbers -/

/-- The value of a hexadecimal digit in lower case. -/
def digitValue (c : Char) : Nat :=
  if c.isDigit then c.toNat - '0'.toNat else c.toNat - 'a'.toNat + 10

/-- The number that some hexadecimal digits stand for. -/
def numberOf (cs : List Char) : Nat :=
  cs.foldl (fun n c => 16 * n + digitValue c) 0

/-- A hexadecimal digit is read back as its value. -/
theorem digitValue_digitChar : ∀ d < 16, digitValue d.digitChar = d := by
  decide

/-- The last digit is the remainder. -/
theorem hexDigits_append_digit {n d : Nat} (hn : 0 < n) (hd : d < 16) :
    hexDigits (16 * n + d) = hexDigits n ++ [d.digitChar] := by
  rw [hexDigits, hexDigits, ← Nat.toDigits_append_toDigits (by decide) hn hd, Nat.toDigits_of_lt_base hd]

/-- A number is read from its digits. -/
theorem numberOf_hexDigits (n : Nat) : numberOf (hexDigits n) = n := by
  induction n using Nat.base_induction 16 (by decide) with
  | single d hd => simp [hexDigits, Nat.toDigits_of_lt_base hd, numberOf, digitValue_digitChar d hd]
  | digit n d hd hn ih =>
    rw [numberOf] at ih
    rw [hexDigits_append_digit hn hd, numberOf, List.foldl_append, ih]
    simp [digitValue_digitChar d hd]

/-- The brace behind the digits of a number is none of them. -/
theorem ne_brace_of_mem_hexDigits {n : Nat} : ∀ c ∈ hexDigits n, c ≠ '\x7d' := by
  induction n using Nat.base_induction 16 (by decide) with
  | single d hd => simp [hexDigits, Nat.toDigits_of_lt_base hd]
  | digit n d hd hn ih =>
    rw [hexDigits_append_digit hn hd]
    simp only [List.forall_mem_append, List.forall_mem_singleton]
    exact ⟨ih, by simp⟩

/-! ## Characters -/

/-- Reads the character that is written behind a backslash. -/
def readEscaped : List Char → Option (Char × List Char)
  | '0' :: cs => some ('\x00', cs)
  | 't' :: cs => some ('\t', cs)
  | 'r' :: cs => some ('\r', cs)
  | 'n' :: cs => some ('\n', cs)
  | '"' :: cs => some ('"', cs)
  | '\\' :: cs => some ('\\', cs)
  | 'u' :: '\x7b' :: cs =>
    match cs.dropWhile (· != '\x7d') with
    | _ :: rest => some (.ofNat (numberOf (cs.takeWhile (· != '\x7d'))), rest)
    | [] => none
  | _ => none

/-- Reads the character that is written at the front of a text. A quote ends the text. -/
def readChar : List Char → Option (Char × List Char)
  | [] => none
  | c :: cs => if c = '"' then none else if c = '\\' then readEscaped cs else some (c, cs)

/-- A character that is written by its number is read back. -/
theorem readEscaped_number (n : Nat) (rest : List Char) :
    readEscaped ('u' :: '\x7b' :: (hexDigits n ++ '\x7d' :: rest)) = some (.ofNat n, rest) := by
  have hdigits : ∀ c ∈ hexDigits n, (c != '\x7d') = true := fun c hc =>
    bne_iff_ne.2 (ne_brace_of_mem_hexDigits c hc)
  have hdrop : (hexDigits n ++ '\x7d' :: rest).dropWhile (· != '\x7d') = '\x7d' :: rest := by
    rw [List.dropWhile_append_of_pos hdigits, List.dropWhile_cons_of_neg (by decide)]
  have htake : (hexDigits n ++ '\x7d' :: rest).takeWhile (· != '\x7d') = hexDigits n := by
    rw [List.takeWhile_append_of_pos hdigits, List.takeWhile_cons_of_neg (by decide), List.append_nil]
  rw [readEscaped]
  simp only [hdrop, htake, numberOf_hexDigits]

/-- The characters that a sign of their own stands for behind a backslash. -/
def signed : List Char := ['\x00', '\t', '\r', '\n', '"', '\\']

/-- A character with a sign of its own is read back from that sign. -/
theorem readChar_signed (rest : List Char) :
    ∀ c ∈ signed, readChar (encodeChar c ++ rest) = some (c, rest) := by
  simp only [signed, List.forall_mem_cons]
  exact ⟨rfl, rfl, rfl, rfl, rfl, rfl, nofun⟩

/-- Any other character stands for itself if it is visible, and is written by its number if it is not.
-/
theorem encodeChar_of_not_signed {c : Char} (h : c ∉ signed) : encodeChar c =
    if isVisible c then [c] else '\\' :: 'u' :: '\x7b' :: (hexDigits c.toNat ++ ['\x7d']) := by
  simp only [signed, List.mem_cons, List.not_mem_nil, or_false, not_or] at h
  simp [encodeChar, h]

/-- A written character is read back, whatever follows it. -/
theorem readChar_encodeChar (c : Char) (rest : List Char) :
    readChar (encodeChar c ++ rest) = some (c, rest) := by
  by_cases hsigned : c ∈ signed
  · exact readChar_signed rest c hsigned
  · rw [encodeChar_of_not_signed hsigned]
    split
    case isTrue =>
      -- A character that stands for itself is none of the two that are signs
      have hquote : c ≠ '"' := fun h => hsigned (h ▸ by decide)
      have hbackslash : c ≠ '\\' := fun h => hsigned (h ▸ by decide)
      rw [List.singleton_append, readChar, if_neg hquote, if_neg hbackslash]
    case isFalse =>
      -- Any other one is written by its number
      have hnumber := readEscaped_number c.toNat rest
      rw [Char.ofNat_toNat] at hnumber
      simpa [readChar] using hnumber

/-! ## Texts -/

theorem encode_cons (c : Char) (cs : List Char) : encode (c :: cs) = encodeChar c ++ encode cs :=
  List.flatMap_cons

/-- Where two texts are written alike up to a quote that ends each, they are the same. -/
theorem encode_append_inj {cs ds us vs : List Char}
    (h : encode cs ++ '"' :: us = encode ds ++ '"' :: vs) : cs = ds ∧ us = vs := by
  -- Both sides are read character by character, until the one text ends and with it the other
  have hquote (us : List Char) : readChar ('"' :: us) = none := rfl
  have hcons (c : Char) (cs us : List Char) :
      readChar (encode (c :: cs) ++ '"' :: us) = some (c, encode cs ++ '"' :: us) := by
    rw [encode_cons, List.append_assoc, readChar_encodeChar]
  have hread := congrArg readChar h
  induction cs generalizing ds with
  | nil =>
    cases ds with
    | nil => exact ⟨rfl, (List.cons.inj h).2⟩
    | cons d ds => exact nomatch (hquote us).symm.trans (hread.trans (hcons d ds vs))
  | cons c cs ih =>
    cases ds with
    | nil => exact nomatch (hcons c cs us).symm.trans (hread.trans (hquote vs))
    | cons d ds =>
      rw [hcons, hcons, Option.some.injEq, Prod.mk.injEq] at hread
      obtain ⟨rfl, htail⟩ := hread
      obtain ⟨rfl, hrest⟩ := ih htail (congrArg readChar htail)
      exact ⟨rfl, hrest⟩

end Quoted

/-- Quoted texts are told apart, and their ends are found, whatever follows them. -/
theorem quoted_append_inj {s t : String} {us vs : List Char}
    (h : (quoted s).toList ++ us = (quoted t).toList ++ vs) : s = t ∧ us = vs := by
  simp only [quoted, String.toList_ofList, List.cons_append, List.append_assoc, List.nil_append,
    List.cons.injEq, true_and] at h
  obtain ⟨hchars, hrest⟩ := Quoted.encode_append_inj h
  exact ⟨String.toList_inj.1 hchars, hrest⟩

/-- Texts are told apart by how they are quoted. -/
theorem quoted_inj {s t : String} (h : quoted s = quoted t) : s = t :=
  (quoted_append_inj (congrArg (·.toList ++ []) h)).1

end Enlist.Text
