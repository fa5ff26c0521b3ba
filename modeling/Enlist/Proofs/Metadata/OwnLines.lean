import Enlist.Metadata.InsertionPoint
import Enlist.Proofs.Edit.Insertion
import Enlist.Proofs.Text.Indent

/-!
# Entries on lines of their own

An entry that is added next to an element stands on a line of its own when the element does, with the same
line break and the same indentation. Otherwise it stands on the line of the element, behind a comma and a
space.

## Key results

- `apply_appended` / `apply_prepended`: what the change for one entry makes of a text
- `separatorAt_keeps_lines`: the separator, and the lines on which new entries stand
-/

namespace Enlist.Metadata

open Edit Text

variable {text : String}

/-- An entry that goes behind the byte at an offset stands there behind its separator. -/
theorem apply_appended {offset : Nat} (h : isBoundary text.toList offset = true)
    (separator : List Char) (slot entry : String) (pending : Nat) (origin : Origin) :
    apply text [(InsertionPoint.append offset (String.ofList separator)).entryChange slot entry pending
        origin] =
      .ok (String.ofList (takeBytes text.toList offset ++ separator ++ entry.toList ++
        dropBytes text.toList offset)) := by
  have htext : ((InsertionPoint.append offset (String.ofList separator)).entryChange slot entry pending
      origin).text = String.ofList separator ++ entry := rfl
  rw [apply_insertion rfl h, htext, String.toList_append, String.toList_ofList]
  simp only [List.append_assoc]
  rfl

/-- An entry that goes in front of the byte at an offset stands there in front of its separator. -/
theorem apply_prepended {offset : Nat} (h : isBoundary text.toList offset = true)
    (separator : List Char) (slot entry : String) (pending : Nat) (origin : Origin) :
    apply text [(InsertionPoint.prepend offset (String.ofList separator)).entryChange slot entry pending
        origin] =
      .ok (String.ofList (takeBytes text.toList offset ++ entry.toList ++ separator ++
        dropBytes text.toList offset)) := by
  have htext : ((InsertionPoint.prepend offset (String.ofList separator)).entryChange slot entry pending
      origin).text = entry ++ String.ofList separator := rfl
  rw [apply_insertion rfl h, htext, String.toList_append, String.toList_ofList]
  simp only [List.append_assoc]
  rfl

/-- The element at a byte stands on a line of its own, and so do entries that are added next to it. -/
structure KeepsLine (text : String) (start : Nat) (lineBreak indent : List Char) : Prop where
  opens : OpensLine (takeBytes text.toList start) lineBreak indent
  separator_eq : separatorAt text.toList start = ',' :: (lineBreak ++ indent)
  /-- An entry behind the element, which ends at the byte `stop`. -/
  appended : ∀ stop, isBoundary text.toList stop = true → ∀ slot entry pending origin,
    let separator := separatorAt text.toList start
    let front := takeBytes text.toList stop ++ separator
    apply text [(InsertionPoint.append stop (String.ofList separator)).entryChange slot entry pending
        origin] = .ok (String.ofList (front ++ entry.toList ++ dropBytes text.toList stop)) ∧
      OpensLine front lineBreak indent
  /-- An entry in front of the element. It takes the line of the element, which goes to the next. -/
  prepended : ∀ slot entry pending origin,
    let separator := separatorAt text.toList start
    let front := takeBytes text.toList start ++ entry.toList ++ separator
    apply text [(InsertionPoint.prepend start (String.ofList separator)).entryChange slot entry pending
        origin] = .ok (String.ofList (front ++ dropBytes text.toList start)) ∧
      OpensLine front lineBreak indent

/-- What stands first in its line keeps the break and the indent of that line. -/
theorem KeepsLine.of_opensLine {start : Nat} {lineBreak indent : List Char}
    (hstart : isBoundary text.toList start = true)
    (h : OpensLine (takeBytes text.toList start) lineBreak indent) :
    KeepsLine text start lineBreak indent := by
  have hseparator := separatorAt_of_opensLine h
  refine ⟨h, hseparator, fun stop hstop slot entry pending origin => ?_,
    fun slot entry pending origin => ?_⟩
  · refine ⟨apply_appended hstop _ slot entry pending origin, ?_⟩
    rw [hseparator]
    exact h.behind_separator _
  · refine ⟨apply_prepended hstart _ slot entry pending origin, ?_⟩
    rw [hseparator]
    exact h.behind_separator _

/-- The separator at a boundary of a text is a comma with blanks behind it. The blanks are a space unless
the text in front of the boundary has a line break with nothing but blanks behind it; then they are the
line break and the indentation at its end, and entries that are added with the separator start lines of
their own. -/
theorem separatorAt_keeps_lines {start : Nat} (h : isBoundary text.toList start = true) :
    let before := takeBytes text.toList start
    let separator := separatorAt text.toList start
    (∃ behind, text.toList = before ++ behind ∧ utf8Length before = start) ∧
      (∃ blanks, separator = ',' :: blanks ∧ ∀ c ∈ blanks, isBlank c = true) ∧
      ((∀ front rest, before = front ++ '\n' :: rest → ∃ c ∈ rest, isBlank c = false) →
        separator = [',', ' ']) ∧
      ∀ front rest, before = front ++ '\n' :: rest → (∀ c ∈ rest, isBlank c = true) →
        ∃ lineBreak indent, KeepsLine text start lineBreak indent := by
  intro before separator
  refine ⟨⟨dropBytes text.toList start, (takeBytes_append_dropBytes _ _).symm, utf8Length_takeBytes h⟩,
    ?_, separatorAt_eq_comma, fun front rest hsplit hrest => ?_⟩
  -- With blanks alone in front of it on its line, the separator is that line break and those blanks
  · cases hline : ownLine? before with
    | none =>
      exact ⟨[' '], separatorAt_eq_comma (ownLine?_eq_none_iff.1 hline), List.all_eq_true.1 rfl⟩
    | some line =>
      have hopens : OpensLine before line.1 line.2 := ownLine?_eq_some_iff.1 hline
      exact ⟨line.1 ++ line.2, separatorAt_of_opensLine hopens,
        List.forall_mem_append.2 ⟨hopens.blank_lineBreak, hopens.blank⟩⟩
  · obtain ⟨lineBreak, indent, hopens⟩ := OpensLine.exists_of_blanks front hrest
    rw [← hsplit] at hopens
    exact ⟨lineBreak, indent, .of_opensLine h hopens⟩

/-- The second element stands on a line of its own behind a carriage return and a line feed, indented by
a tab and a no-break space; it is reached by counting bytes. -/
theorem separatorAt_keeps_lines_sample :
    let text := "[\n é,\r\n\t\u00a0B\r\n]"
    isBoundary text.toList 11 = true ∧
      takeBytes text.toList 11 = "[\n é,\r".toList ++ '\n' :: ['\t', '\u00a0'] ∧
      (∃ lineBreak indent, KeepsLine text 11 lineBreak indent) ∧
      separatorAt text.toList 11 = ",\r\n\t\u00a0".toList := by
  intro text
  obtain ⟨hboundary, hsplit, hblank, hseparator⟩ : isBoundary text.toList 11 = true ∧
      takeBytes text.toList 11 = "[\n é,\r".toList ++ '\n' :: ['\t', '\u00a0'] ∧
      ['\t', '\u00a0'].all isBlank = true ∧
      separatorAt text.toList 11 = ",\r\n\t\u00a0".toList := by
    decide +kernel
  have hkeeps := (separatorAt_keeps_lines hboundary).2.2.2 _ _ hsplit (List.all_eq_true.1 hblank)
  exact ⟨hboundary, hsplit, hkeeps, hseparator⟩

end Enlist.Metadata
