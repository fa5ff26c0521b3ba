import Enlist.Text.Indent

/-!
# Lines of their own

What stands on a line of its own is told by the text in front of it alone: that ends with a line break
and with blanks that do not break the line. The text in front of a new item ends in the same way when the
item comes behind the separator, whatever stands in front of the separator.

## Key results

- `ownLine?_eq_some_iff` / `ownLine?_eq_none_iff`: which texts end with a line of blanks
- `OpensLine.exists_of_blanks`: a line break with blanks behind it up to the end is enough
- `separatorAt_of_opensLine` / `separatorAt_eq_comma`: the separator in the two cases
- `OpensLine.behind_separator`: what comes behind a separator stands on a line of its own
-/

namespace Enlist.Text

/-- What follows the text stands on a line of its own, behind a line break and an indentation. A line feed
with a carriage return in front of it is one line break. -/
structure OpensLine (before lineBreak indent : List Char) : Prop where
  split : ∃ front, before = front ++ (lineBreak ++ indent) ∧
    (lineBreak = ['\r', '\n'] ∨ lineBreak = ['\n'] ∧ front.getLast? ≠ some '\r')
  blank : ∀ c ∈ indent, isBlank c = true
  oneLine : '\n' ∉ indent

/-! ## The last line of a text -/

/-- A text with a line break has a last line. -/
private theorem exists_last_line {before : List Char} (h : '\n' ∈ before) :
    ∃ front rest, before = front ++ '\n' :: rest ∧ '\n' ∉ rest := by
  obtain ⟨rest, front, hsplit, hrest⟩ := List.eq_append_cons_of_mem (List.mem_reverse.2 h)
  refine ⟨front.reverse, rest.reverse, ?_, by simpa using hrest⟩
  rw [← List.reverse_reverse before, hsplit]
  simp

/-- A text of one line only has no line break to go by. -/
theorem ownLine?_of_not_mem {before : List Char} (h : '\n' ∉ before) : ownLine? before = none := by
  have hline : ∀ c ∈ before.reverse, (c != '\n') = true := fun c hc =>
    bne_iff_ne.2 fun heq => h (heq ▸ List.mem_reverse.1 hc)
  have hdrop : before.reverse.dropWhile (· != '\n') = [] := by
    rw [← List.append_nil before.reverse, List.dropWhile_append_of_pos hline, List.dropWhile_nil]
  rw [ownLine?]
  simp only [hdrop]

/-- The last line of a text is what counts. -/
theorem ownLine?_append (front : List Char) {rest : List Char} (h : '\n' ∉ rest) :
    ownLine? (front ++ '\n' :: rest) =
      if rest.all isBlank then
        some (if front.getLast? = some '\r' then ['\r', '\n'] else ['\n'], rest)
      else none := by
  have hback : (front ++ '\n' :: rest).reverse = rest.reverse ++ '\n' :: front.reverse := by simp
  have hrest : ∀ c ∈ rest.reverse, (c != '\n') = true := fun c hc =>
    bne_iff_ne.2 fun heq => h (heq ▸ List.mem_reverse.1 hc)
  rw [ownLine?]
  simp only [hback, List.takeWhile_append_of_pos hrest, List.dropWhile_append_of_pos hrest,
    bne_self_eq_false, Bool.false_eq_true, not_false_eq_true, List.takeWhile_cons_of_neg,
    List.dropWhile_cons_of_neg, List.append_nil, List.reverse_reverse, List.head?_reverse]

/-- The line break and the indentation that are found are those at the end of the text. -/
theorem ownLine?_eq_some_iff {before lineBreak indent : List Char} :
    ownLine? before = some (lineBreak, indent) ↔ OpensLine before lineBreak indent := by
  constructor
  · intro h
    by_cases hmem : '\n' ∈ before
    case neg => exact nomatch (ownLine?_of_not_mem hmem).symm.trans h
    -- Only the last line in front of the place counts
    obtain ⟨front, rest, rfl, hrest⟩ := exists_last_line hmem
    rw [ownLine?_append front hrest, Option.ite_none_right_eq_some, Option.some.injEq,
      Prod.mk.injEq] at h
    obtain ⟨hblank, hbreak, rfl⟩ := h
    refine ⟨?_, List.all_eq_true.1 hblank, hrest⟩
    by_cases hreturn : front.getLast? = some '\r'
    · rw [if_pos hreturn] at hbreak
      obtain ⟨front, rfl⟩ := List.getLast?_eq_some_iff.1 hreturn
      exact ⟨front, by simp [← hbreak], .inl hbreak.symm⟩
    · rw [if_neg hreturn] at hbreak
      exact ⟨front, by simp [← hbreak], .inr ⟨hbreak.symm, hreturn⟩⟩
  · rintro ⟨⟨front, rfl, hbreak⟩, hblank, hindent⟩
    -- Read back, with a carriage return in front of the line break or without
    have hall : indent.all isBlank = true := List.all_eq_true.2 hblank
    rcases hbreak with rfl | ⟨rfl, hreturn⟩
    · have hsplit : front ++ (['\r', '\n'] ++ indent) = front ++ ['\r'] ++ '\n' :: indent := by simp
      rw [hsplit, ownLine?_append _ hindent, if_pos hall, if_pos (by simp)]
    · rw [List.singleton_append, ownLine?_append _ hindent, if_pos hall, if_neg hreturn]

/-- A text that has a line break with nothing but blanks behind it opens a line, also where there are
further line breaks among the blanks. -/
theorem OpensLine.exists_of_blanks (front : List Char) {rest : List Char}
    (h : ∀ c ∈ rest, isBlank c = true) :
    ∃ lineBreak indent, OpensLine (front ++ '\n' :: rest) lineBreak indent := by
  have hmem : '\n' ∈ front ++ '\n' :: rest := List.mem_append_right front List.mem_cons_self
  obtain ⟨front', indent, hsplit, hindent⟩ := exists_last_line hmem
  -- The last line is no longer than the blanks
  have hsuffix : indent <:+ rest := by
    have hlong : '\n' :: indent <:+ front ++ '\n' :: rest := ⟨front', hsplit.symm⟩
    rcases List.suffix_or_suffix_of_suffix hlong (List.suffix_append front ('\n' :: rest)) with hs | hs
    · rcases List.suffix_cons_iff.1 hs with heq | hs
      · exact (List.cons.inj heq).2 ▸ List.suffix_rfl
      · exact (List.suffix_cons '\n' indent).trans hs
    · rcases List.suffix_cons_iff.1 hs with heq | hs
      · exact (List.cons.inj heq).2 ▸ List.suffix_rfl
      · exact absurd (hs.mem List.mem_cons_self) hindent
  have hblank : indent.all isBlank = true :=
    List.all_eq_true.2 fun c hc => h c (hsuffix.mem hc)
  rw [hsplit]
  exact ⟨_, indent, ownLine?_eq_some_iff.1 ((ownLine?_append front' hindent).trans (if_pos hblank))⟩

/-- Nothing is found exactly when something other than a blank stands behind every line break. -/
theorem ownLine?_eq_none_iff {before : List Char} :
    ownLine? before = none ↔
      ∀ front rest, before = front ++ '\n' :: rest → ∃ c ∈ rest, isBlank c = false := by
  constructor
  · rintro hnone front rest rfl
    -- If there are blanks alone behind the last line break, the line is its own
    cases hall : rest.all isBlank with
    | true =>
      obtain ⟨lineBreak, indent, hopens⟩ := OpensLine.exists_of_blanks front (List.all_eq_true.1 hall)
      exact nomatch hnone.symm.trans (ownLine?_eq_some_iff.2 hopens)
    | false =>
      obtain ⟨c, hc, hblank⟩ := List.all_eq_false.1 hall
      exact ⟨c, hc, eq_false_of_ne_true hblank⟩
  · intro h
    by_cases hmem : '\n' ∈ before
    · obtain ⟨front, rest, rfl, hrest⟩ := exists_last_line hmem
      obtain ⟨c, hc, hblank⟩ := h front rest rfl
      rw [ownLine?_append front hrest, if_neg]
      exact fun hall => Bool.false_ne_true (hblank.symm.trans (List.all_eq_true.1 hall c hc))
    · exact ownLine?_of_not_mem hmem

/-! ## Separators -/

/-- Where something stands first in its line, the separator goes on in a line like that. -/
theorem separatorAt_of_opensLine {text : List Char} {offset : Nat} {lineBreak indent : List Char}
    (h : OpensLine (takeBytes text offset) lineBreak indent) :
    separatorAt text offset = ',' :: (lineBreak ++ indent) := by
  rw [separatorAt, ownLine?_eq_some_iff.2 h]

/-- Where something stands behind other text in its line, the separator stays in that line. -/
theorem separatorAt_eq_comma {text : List Char} {offset : Nat}
    (h : ∀ front rest, takeBytes text offset = front ++ '\n' :: rest → ∃ c ∈ rest, isBlank c = false) :
    separatorAt text offset = [',', ' '] := by
  rw [separatorAt, ownLine?_eq_none_iff.2 h]

/-- A line break is blank. -/
theorem OpensLine.blank_lineBreak {before lineBreak indent : List Char}
    (h : OpensLine before lineBreak indent) : ∀ c ∈ lineBreak, isBlank c = true := by
  obtain ⟨_, _, rfl | ⟨rfl, _⟩⟩ := h.split <;> exact List.all_eq_true.1 rfl

/-- What comes behind the separator stands on a line of its own, like the item that the separator is made
for. -/
theorem OpensLine.behind_separator {before lineBreak indent : List Char}
    (h : OpensLine before lineBreak indent) (front : List Char) :
    OpensLine (front ++ ',' :: (lineBreak ++ indent)) lineBreak indent := by
  obtain ⟨_, _, hbreak⟩ := h.split
  -- The comma is no carriage return
  refine ⟨⟨front ++ [','], by simp, ?_⟩, h.blank, h.oneLine⟩
  exact hbreak.imp_right fun hbreak => ⟨hbreak.1, by simp⟩

end Enlist.Text
