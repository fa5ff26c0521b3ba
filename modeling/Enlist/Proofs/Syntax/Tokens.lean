import Enlist.Syntax.Cursor

/-!
# Tokens in front of other text

What a name, a keyword or a string is does not depend on what follows it, as long as that does not go on
with the token.

## Key results

- `skipGap_cons`: what is between two tokens ends where the next one begins
- `IsName.wordLength?_append`: a name ends in front of what cannot stand in one
- `IsName.length?_keyword`: a keyword in front of a name is the whole name
- `IsPlain.length?_string`: a string without quotes, backslashes and line breaks
-/

namespace Enlist.Syntax

variable {s t rest : List Char} {c : Char} {n : Nat}

/-- Outside of comments, blanks are skipped one by one, up to the next token. -/
theorem skipGap_cons (hslash : c ≠ '/') (nl : Bool) (i : Nat) (cs : List Char) (f : Frame) :
    skipGap .between nl i (c :: cs) f =
      if isGap c then skipGap .between (nl || isLineBreak c) (i + c.utf8Size) cs f
      else some (f, ⟨c :: cs, i, nl⟩) := by
  rw [skipGap.eq_def]
  split
  case h_1 h | h_2 h => exact absurd (List.cons.inj h).1 hslash
  case h_3 h =>
    obtain ⟨rfl, rfl⟩ := List.cons.inj h
    rfl
  case h_4 h => exact nomatch h
  all_goals contradiction

/-- A mark is one character long. -/
theorem length?_mark (c : Char) (rest : List Char) :
    (Lexeme.symbol [c] []).length? (c :: rest) = some 1 := by
  cases rest <;> simp [Lexeme.length?]

/-! ## Escapes -/

/-- An escape with braces ends behind the closing one. -/
private theorem unicodeEscapeLength?_braces {digits : List Char} (hne : digits ≠ [])
    (hall : ∀ x ∈ digits, isHexDigit x = true) (rest : List Char) :
    unicodeEscapeLength? ('{' :: (digits ++ '}' :: rest)) = some (digits.length + 2) := by
  have htake : (digits ++ '}' :: rest).takeWhile isHexDigit = digits := by
    rw [List.takeWhile_append_of_pos hall, List.takeWhile_cons_of_neg (by decide), List.append_nil]
  obtain ⟨d, ds, rfl⟩ := List.exists_cons_of_ne_nil hne
  simp only [unicodeEscapeLength?, htake, List.drop_left]

/-- An escape is read within the characters that it needs. -/
private theorem unicodeEscapeLength?_append (h : unicodeEscapeLength? s = some n) (t : List Char) :
    n ≤ s.length ∧ unicodeEscapeLength? (s ++ t) = some n := by
  rw [unicodeEscapeLength?.eq_def] at h
  split at h
  case h_1 cs =>
    simp only at h
    split at h
    case h_2 => exact nomatch h
    case h_1 d ds rest hdigits hdrop =>
      -- The digits end at the closing brace, whatever follows it
      have hne : cs.takeWhile isHexDigit ≠ [] := by simp [hdigits]
      have hcs : cs.takeWhile isHexDigit ++ '}' :: rest = cs := by
        rw [← hdrop]
        exact List.prefix_iff_eq_append.1 (List.takeWhile_prefix isHexDigit)
      have hread := unicodeEscapeLength?_braces hne (List.all_eq_true.1 List.all_takeWhile) (rest ++ t)
      have happend : cs.takeWhile isHexDigit ++ '}' :: (rest ++ t) = cs ++ t := by
        rw [← List.cons_append, ← List.append_assoc, hcs]
      rw [happend, h] at hread
      refine ⟨?_, hread⟩
      have hlength := congrArg List.length hcs
      simp only [List.length_append, List.length_cons, ← Option.some.inj h] at hlength ⊢
      omega
  case h_2 a b c d cs hbrace =>
    split at h
    case isFalse => exact nomatch h
    case isTrue hhex =>
      cases h
      refine ⟨by simp, ?_⟩
      rw [unicodeEscapeLength?.eq_def]
      -- The four digits are there in the longer text too, and are not a brace
      split
      case h_1 heq => exact absurd (List.cons.inj heq).1 hbrace
      case h_2 heq =>
        cases heq
        exact if_pos hhex
      case h_3 hfour => exact absurd rfl (hfour a b c d _)
  case h_3 => exact nomatch h

private theorem wordEscapeLength?_append (h : wordEscapeLength? s = some n) (t : List Char) :
    n ≤ s.length ∧ wordEscapeLength? (s ++ t) = some n := by
  rw [wordEscapeLength?.eq_def] at h
  split at h
  case h_1 cs =>
    obtain ⟨k, hk, rfl⟩ := Option.map_eq_some_iff.1 h
    obtain ⟨hle, hread⟩ := unicodeEscapeLength?_append hk t
    exact ⟨Nat.succ_le_succ hle, by rw [List.cons_append, wordEscapeLength?, hread]; rfl⟩
  case h_2 => exact nomatch h

/-! ## Names -/

/-- The character ends a name that it follows. -/
structure EndsName (c : Char) : Prop where
  notWord : isWordChar c = false
  notEscape : c ≠ '\\'

/-- The characters are a name that is no reserved word. -/
def IsName (s : List Char) : Prop :=
  (Lexeme.name []).length? s = some s.length

instance (s : List Char) : Decidable (IsName s) :=
  inferInstanceAs (Decidable (_ = _))

/-- The rest of a name goes on with what follows it. -/
private theorem wordTail_append {skip : Nat} (hskip : skip ≤ s.length)
    (h : wordTail s skip = s.length) (t : List Char) :
    wordTail (s ++ t) skip = s.length + wordTail t 0 := by
  -- Induction on the name; an escape ends inside of it, so nothing of it is skipped in `t`
  induction s generalizing skip with
  | nil =>
    obtain rfl : skip = 0 := Nat.le_zero.1 hskip
    simp
  | cons c s ih =>
    cases skip with
    | succ skip =>
      simp only [List.cons_append, wordTail, List.length_cons] at h hskip ⊢
      rw [ih (by omega) (by omega)]
      omega
    | zero =>
      simp only [List.cons_append, wordTail, List.length_cons] at h ⊢
      split at h
      case isTrue hword =>
        rw [if_pos hword, ih (Nat.zero_le _) (by omega)]
        omega
      case isFalse hword =>
        rw [if_neg hword]
        split at h
        case isFalse => omega
        case isTrue hescape =>
          rw [if_pos hescape]
          split at h
          case h_2 => omega
          case h_1 n hn =>
            obtain ⟨hle, hread⟩ := wordEscapeLength?_append hn t
            simp only [hread]
            rw [ih hle (by omega)]
            omega

/-- Where a name ends nothing of it is left. -/
theorem wordTail_of_endsName (h : EndsName c) (rest : List Char) : wordTail (c :: rest) 0 = 0 := by
  simp [wordTail, h.notWord, h.notEscape]

/-- A word ends in front of what cannot stand in one. -/
theorem wordLength?_append (hs : wordLength? s = some s.length) (hc : EndsName c)
    (rest : List Char) : wordLength? (s ++ c :: rest) = some s.length := by
  cases s with
  | nil => exact nomatch hs
  | cons a s =>
    simp only [wordLength?] at hs
    split at hs
    case isFalse => exact nomatch hs
    case isTrue hstart =>
      -- The name stops at the character that ends it, as it stopped at the end of the text
      have htail := wordTail_append (Nat.zero_le _) (Option.some.inj hs) (c :: rest)
      rw [wordTail_of_endsName hc, Nat.add_zero] at htail
      have hstart' : (isWordStart a || (a == '\\' && (wordEscapeLength? (s ++ c :: rest)).isSome)) = true := by
        simp only [Bool.or_eq_true, Bool.and_eq_true] at hstart ⊢
        refine hstart.imp_right (And.imp_right fun hsome => ?_)
        obtain ⟨n, hn⟩ := Option.isSome_iff_exists.1 hsome
        rw [(wordEscapeLength?_append hn _).2]
        rfl
      rw [List.cons_append, wordLength?, if_pos hstart', ← List.cons_append, htail]

/-- A text that is one word is all part of it. -/
private theorem wordTail_of_wordLength? (hs : wordLength? s = some s.length) :
    wordTail s 0 = s.length := by
  cases s with
  | nil => rfl
  | cons a s =>
    simp only [wordLength?] at hs
    split at hs
    · exact Option.some.inj hs
    · exact nomatch hs

/-- A name is one word. -/
theorem IsName.wordLength? (h : IsName s) : wordLength? s = some s.length := by
  simp only [IsName, Lexeme.length?] at h
  split at h
  case h_2 => exact nomatch h
  case h_1 n hn =>
    split at h
    · exact nomatch h
    · rw [hn, h]

/-- What may stand in a name is no blank. -/
private theorem isGap_of_isWordChar (h : isWordChar c = true) : isGap c = false := by
  rw [isWordChar] at h
  split at h
  case isFalse => simpa using h
  case isTrue hascii =>
    rw [Bool.eq_false_iff]
    intro hgap
    -- The gaps of one byte are six, and none of them is part of a word
    have hblank : c.toNat ∈ [9, 10, 11, 12, 13, 32] := by
      simp only [isGap, Bool.or_eq_true, Bool.and_eq_true, decide_eq_true_eq, beq_iff_eq] at hgap
      simp only [List.mem_cons, List.not_mem_nil, or_false]
      omega
    have hc : c = Char.ofNat c.toNat := (Char.ofNat_toNat c).symm
    simp only [List.mem_cons, List.not_mem_nil, or_false] at hblank
    rcases hblank with hn | hn | hn | hn | hn | hn <;> rw [hn] at hc <;> subst hc <;> exact nomatch h

/-- A name begins with a character that begins a token. -/
theorem IsName.exists_cons (h : IsName s) : ∃ a t, s = a :: t ∧ isGap a = false ∧ a ≠ '/' := by
  have hword := h.wordLength?
  cases s with
  | nil => exact nomatch hword
  | cons a t =>
    refine ⟨a, t, rfl, ?_⟩
    simp only [Syntax.wordLength?] at hword
    split at hword
    case isFalse => exact nomatch hword
    case isTrue hstart =>
      simp only [Bool.or_eq_true, Bool.and_eq_true, beq_iff_eq] at hstart
      -- A word begins with a word character or with an escape
      rcases hstart with hstart | ⟨rfl, _⟩
      · rw [isWordStart, Bool.and_eq_true] at hstart
        refine ⟨isGap_of_isWordChar hstart.1, ?_⟩
        rintro rfl
        exact nomatch hstart.1
      · exact ⟨rfl, by decide⟩

/-- A name ends in front of what cannot stand in one. -/
theorem IsName.wordLength?_append (h : IsName s) (hc : EndsName c) (rest : List Char) :
    Syntax.wordLength? (s ++ c :: rest) = some s.length :=
  Syntax.wordLength?_append h.wordLength? hc rest

/-- Characters of words go on in a word. -/
private theorem wordTail_of_wordChars {k : List Char} (hk : ∀ x ∈ k, isWordChar x = true)
    (s : List Char) : wordTail (k ++ s) 0 = k.length + wordTail s 0 := by
  induction k with
  | nil => simp
  | cons a k ih =>
    obtain ⟨ha, hk⟩ := List.forall_mem_cons.1 hk
    rw [List.cons_append, wordTail, if_pos ha, ih hk, List.length_cons]
    omega

/-- A keyword in front of a name is the whole name. -/
theorem IsName.length?_keyword {k : List Char} (h : IsName s) (hk : k.all isWordChar = true)
    (hc : EndsName c) (rest : List Char) :
    (Lexeme.keyword k).length? (s ++ c :: rest) = if k = s then some s.length else none := by
  -- What the keyword leaves of the name is made of word characters
  have hname : wordTail s 0 = s.length := wordTail_of_wordLength? h.wordLength?
  by_cases hprefix : k <+: s
  · obtain ⟨t, rfl⟩ := hprefix
    have ht : wordTail t 0 = t.length := by
      have := wordTail_of_wordChars (List.all_eq_true.1 hk) t
      simp only [List.length_append] at hname
      omega
    have htail : wordTail (t ++ c :: rest) 0 = t.length := by
      rw [wordTail_append (Nat.zero_le _) ht, wordTail_of_endsName hc, Nat.add_zero]
    have hstarts : k.isPrefixOf (k ++ (t ++ c :: rest)) = true :=
      List.isPrefixOf_iff_prefix.2 (List.prefix_append _ _)
    rw [Lexeme.length?, List.append_assoc, hstarts, List.drop_left, htail]
    cases t with
    | nil => simp
    | cons a t => simp
  · -- A keyword that goes on behind the name would have the character that ends it
    have hnot : k.isPrefixOf (s ++ c :: rest) = false := by
      rw [Bool.eq_false_iff, ne_eq, List.isPrefixOf_iff_prefix]
      intro hlonger
      rcases List.prefix_or_prefix_of_prefix hlonger (List.prefix_append s _) with hk' | ⟨t, rfl⟩
      · exact hprefix hk'
      · cases t with
        | nil => exact hprefix (by simp)
        | cons a t =>
          rw [List.prefix_append_right_inj, List.cons_prefix_cons] at hlonger
          have hword := List.all_eq_true.1 hk a (by simp)
          rw [hlonger.1, hc.notWord] at hword
          exact nomatch hword
    have hne : k ≠ s := fun heq => hprefix (heq ▸ List.prefix_rfl)
    rw [Lexeme.length?, hnot, if_neg hne]
    rfl

/-! ## Strings -/

/-- The characters stand for themselves in a string with single quotes. -/
def IsPlain (s : List Char) : Prop :=
  ∀ c ∈ s, c ≠ '\'' ∧ c ≠ '\\' ∧ c ≠ '\n' ∧ c ≠ '\r'

instance (s : List Char) : Decidable (IsPlain s) :=
  List.decidableBAll _ s

/-- A plain text ends at the quote behind it. -/
private theorem IsPlain.stringTail? (h : IsPlain s) (rest : List Char) :
    stringTail? '\'' (s ++ '\'' :: rest) 0 = some (s.length + 1) := by
  induction s with
  | nil => simp [Syntax.stringTail?]
  | cons c s ih =>
    obtain ⟨⟨hquote, hescape, hlf, hcr⟩, hs⟩ := List.forall_mem_cons.1 h
    simp [Syntax.stringTail?, hquote, hescape, hlf, hcr, ih hs]

/-- A string ends with the quote behind characters that stand for themselves. -/
theorem IsPlain.length?_string (h : IsPlain s) (rest : List Char) :
    Lexeme.string.length? ('\'' :: (s ++ '\'' :: rest)) = some (s.length + 2) := by
  simp [Lexeme.length?, h.stringTail? rest]

end Enlist.Syntax
