import Enlist.Edit.Change
import Enlist.Proofs.Text.Quoted

/-!
# Changes in words

What a change does is told in one of four forms. This file says that the words tell all of it: where the
change is, what happens there, and which text is put in. The first word and the word behind the quoted text
tell the forms apart, a quoted text is read up to its end whatever it holds, and a number ends where its
digits do.

## Key results

- `digits_append_inj`: two numbers, and what follows them
- `render_inj`: what is rendered alike is the same
- `make_told_by_display`: changes that are displayed alike do the same
-/

namespace Enlist.Edit

open Text

/-! ## Numbers -/

/-- Numbers are told apart, and their ends are found, where no digit follows them. -/
theorem digits_append_inj {m n : Nat} {us vs : List Char} (hus : us.takeWhile Char.isDigit = [])
    (hvs : vs.takeWhile Char.isDigit = []) (h : Nat.toDigits 10 m ++ us = Nat.toDigits 10 n ++ vs) :
    m = n ∧ us = vs := by
  have hdigits (n : Nat) : ∀ c ∈ Nat.toDigits 10 n, c.isDigit = true := fun c hc =>
    Nat.isDigit_of_mem_toDigits (by decide) (by decide) hc
  -- Each number is the longest front of its side that is made of digits
  have hnumber : Nat.toDigits 10 m = Nat.toDigits 10 n := by
    have htake := congrArg (List.takeWhile Char.isDigit) h
    rwa [List.takeWhile_append_of_pos (hdigits m), List.takeWhile_append_of_pos (hdigits n), hus, hvs,
      List.append_nil, List.append_nil] at htake
  -- A number is read back from its digits
  have heq : m = n := by
    calc
      m = Nat.ofDigitChars 10 (Nat.toDigits 10 m) 0 := Nat.ofDigitChars_ten_toDigits.symm
      _ = Nat.ofDigitChars 10 (Nat.toDigits 10 n) 0 := by rw [hnumber]
      _ = n := Nat.ofDigitChars_ten_toDigits
  subst heq
  exact ⟨rfl, List.append_cancel_left h⟩

/-- Two ranges, and what follows them. -/
private theorem range_append_inj {m n m' n' : Nat} {us vs : List Char}
    (hus : us.takeWhile Char.isDigit = []) (hvs : vs.takeWhile Char.isDigit = [])
    (h : Nat.toDigits 10 m ++ ("..".toList ++ (Nat.toDigits 10 n ++ us)) =
      Nat.toDigits 10 m' ++ ("..".toList ++ (Nat.toDigits 10 n' ++ vs))) :
    m = m' ∧ n = n' ∧ us = vs := by
  obtain ⟨hstart, hrest⟩ := digits_append_inj rfl rfl h
  exact ⟨hstart, digits_append_inj hus hvs (List.append_cancel_left hrest)⟩

namespace Change

/-! ## The four forms -/

/-- The characters of what is rendered. -/
theorem toList_render (offset : Nat) (action : Action) (text : String) :
    (render offset action text).toList =
      match action with
      | .insertBefore => "insert ".toList ++ ((quoted text).toList ++
          (" before ".toList ++ Nat.toDigits 10 offset))
      | .insertAfter => "insert ".toList ++ ((quoted text).toList ++
          (" after ".toList ++ Nat.toDigits 10 offset))
      | .replace stop => "replace ".toList ++ (Nat.toDigits 10 offset ++ ("..".toList ++
          (Nat.toDigits 10 stop ++ (" with ".toList ++ (quoted text).toList))))
      | .remove stop => "remove ".toList ++ (Nat.toDigits 10 offset ++ ("..".toList ++
          (Nat.toDigits 10 stop ++ []))) := by
  have hshow (s : String) : toString s = s := rfl
  cases action <;> simp [render, hshow]

/-- Two insertions that are told with the same words. -/
private theorem insertion_inj {text text' word : String} {offset offset' : Nat}
    (h : "insert ".toList ++ ((quoted text).toList ++ (word.toList ++ Nat.toDigits 10 offset)) =
      "insert ".toList ++ ((quoted text').toList ++ (word.toList ++ Nat.toDigits 10 offset'))) :
    offset = offset' ∧ text = text' := by
  obtain ⟨htext, hrest⟩ := quoted_append_inj (List.append_cancel_left h)
  have hdigits := congrArg (· ++ []) (List.append_cancel_left hrest)
  exact ⟨(digits_append_inj rfl rfl hdigits).1, htext⟩

/-- What is rendered alike is at the same place, does the same there, and puts the same text in. -/
theorem render_inj {offset offset' : Nat} {action action' : Action} {text text' : String}
    (h : render offset action text = render offset' action' text') :
    offset = offset' ∧ action = action' ∧ payload action text = payload action' text' := by
  have hchars := congrArg String.toList h
  rw [toList_render, toList_render] at hchars
  -- Forms with different first words differ in one of the first three letters
  cases action with
  | insertBefore =>
    cases action' with
    | insertBefore =>
      obtain ⟨rfl, rfl⟩ := insertion_inj hchars
      exact ⟨rfl, rfl, rfl⟩
    | insertAfter =>
      have hword := (quoted_append_inj (List.append_cancel_left hchars)).2
      simp at hword
    | replace | remove => simp at hchars
  | insertAfter =>
    cases action' with
    | insertBefore =>
      have hword := (quoted_append_inj (List.append_cancel_left hchars)).2
      simp at hword
    | insertAfter =>
      obtain ⟨rfl, rfl⟩ := insertion_inj hchars
      exact ⟨rfl, rfl, rfl⟩
    | replace | remove => simp at hchars
  | replace stop =>
    cases action' with
    | insertBefore | insertAfter | remove => simp at hchars
    | replace stop' =>
      obtain ⟨rfl, rfl, hrest⟩ := range_append_inj rfl rfl (List.append_cancel_left hchars)
      obtain rfl := quoted_inj (String.toList_inj.1 (List.append_cancel_left hrest))
      exact ⟨rfl, rfl, rfl⟩
  | remove stop =>
    cases action' with
    | insertBefore | insertAfter | replace => simp at hchars
    | remove stop' =>
      obtain ⟨rfl, rfl, _⟩ := range_append_inj rfl rfl (List.append_cancel_left hchars)
      exact ⟨rfl, rfl, rfl⟩

/-! ## Changes -/

/-- The text of a change that is made is what its action puts in. -/
theorem payload_make (offset : Nat) (action : Action) (text : String) (origin : Origin) :
    payload (make offset action text origin).action (make offset action text origin).text =
      (make offset action text origin).text := by
  cases action <;> rfl

/-- Where a change ends follows from its action and where it begins. -/
theorem stop_congr {c c' : Change} (haction : c.action = c'.action) (hoffset : c.offset = c'.offset) :
    c.stop = c'.stop := by
  rw [stop, stop, haction, hoffset]

/-- A change that is made is described by its display, and the display of two such changes is the same
exactly where they do the same at the same place and put the same text in. -/
theorem make_told_by_display (offset offset' : Nat) (action action' : Action) (text text' : String)
    (origin origin' : Origin) :
    let c := make offset action text origin
    let c' := make offset' action' text' origin'
    (c.description = c.display ∧ c'.description = c'.display) ∧
      (c.display = c'.display ↔
        c.action = c'.action ∧ c.offset = c'.offset ∧ c.stop = c'.stop ∧ c.text = c'.text) := by
  refine ⟨⟨rfl, rfl⟩, fun h => ?_, fun ⟨haction, hoffset, _, htext⟩ => ?_⟩
  · obtain ⟨hoffset, haction, htext⟩ := render_inj h
    rw [payload_make, payload_make] at htext
    exact ⟨haction, hoffset, stop_congr haction hoffset, htext⟩
  · rw [display, display, haction, hoffset, htext]

/-- The text of a change may look like the end of its description. -/
example : (make 3 .insertAfter "x\" before 3" .manual).description = "insert \"x\\\" before 3\" after 3" := by
  decide +kernel

end Change

end Enlist.Edit
