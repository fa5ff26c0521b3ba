/-!
# Splitting and joining

`splitOn` cuts a list of characters at every character that passes a test, and `join` puts pieces
together again with one character between them.

* `join_splitOn`   joining with the only character that was cut at gives the list back
* `splitOn_join`   cutting at the characters that pieces were joined with gives the pieces back
* `splitOn_append_cons`   a cut in a text parts its pieces into those in front and those behind
-/

namespace Enlist.Text

/-- The pieces between the characters that pass the test. There is always at least one piece. -/
def splitOn (p : Char → Bool) : List Char → List (List Char)
  | [] => [[]]
  | c :: cs =>
    if p c then [] :: splitOn p cs
    else
      match splitOn p cs with
      | piece :: pieces => (c :: piece) :: pieces
      | [] => [[c]]

/-- The pieces with a character between each two of them. -/
def join (c : Char) : List (List Char) → List Char
  | [] => []
  | [piece] => piece
  | piece :: pieces => piece ++ c :: join c pieces

/-- The text up to the first character that passes the test. -/
def beforeFirst (p : Char → Bool) (cs : List Char) : List Char :=
  cs.takeWhile fun c => !p c

theorem splitOn_ne_nil (p : Char → Bool) (cs : List Char) : splitOn p cs ≠ [] := by
  cases cs with
  | nil => simp [splitOn]
  | cons c cs =>
    simp only [splitOn]
    split
    · simp
    · split <;> simp

/-- Pieces of a text, joined by what separated them, are the text. -/
theorem join_splitOn (c : Char) (cs : List Char) : join c (splitOn (· == c) cs) = cs := by
  induction cs with
  | nil => rfl
  | cons d ds ih =>
    obtain ⟨piece, pieces, h⟩ := List.exists_cons_of_ne_nil (splitOn_ne_nil (· == c) ds)
    rw [h] at ih
    by_cases hd : d = c
    · simp [splitOn, hd, h, join, ih]
    -- The character goes on the first piece
    · simp only [splitOn, beq_iff_eq, hd, if_false, h]
      cases pieces with
      | nil => simpa [join] using ih
      | cons p ps => simpa [join] using ih

variable {p : Char → Bool}

/-- No character that passes the test is left in a piece. -/
theorem eq_false_of_mem_splitOn {cs piece : List Char} (h : piece ∈ splitOn p cs) :
    ∀ c ∈ piece, p c = false := by
  induction cs generalizing piece with
  | nil =>
    rw [splitOn, List.mem_singleton] at h
    simp [h]
  | cons d ds ih =>
    rw [splitOn] at h
    split at h
    case isTrue =>
      -- A piece begins where the list is split, and so does not have the character that splits it
      rcases List.mem_cons.1 h with rfl | h
      · exact fun _ hc => nomatch hc
      · exact ih h
    case isFalse hd =>
      obtain ⟨first, pieces, hparts⟩ := List.exists_cons_of_ne_nil (splitOn_ne_nil p ds)
      simp only [hparts] at h ih
      rcases List.mem_cons.1 h with rfl | h
      · exact List.forall_mem_cons.2 ⟨eq_false_of_ne_true hd, ih List.mem_cons_self⟩
      · exact ih (List.mem_cons_of_mem first h)

/-- A piece has no character that the text has not. -/
theorem mem_of_mem_splitOn {cs piece : List Char} (h : piece ∈ splitOn p cs) : ∀ c ∈ piece, c ∈ cs := by
  induction cs generalizing piece with
  | nil =>
    rw [splitOn, List.mem_singleton] at h
    simp [h]
  | cons d ds ih =>
    obtain ⟨first, pieces, hparts⟩ := List.exists_cons_of_ne_nil (splitOn_ne_nil p ds)
    rw [splitOn, hparts] at h
    rw [hparts] at ih
    -- A new piece begins at `d`, or `d` is put on the first piece
    split at h
    case isTrue =>
      rcases List.mem_cons.1 h with rfl | h
      · exact fun _ hc => nomatch hc
      · exact fun c hc => List.mem_cons_of_mem d (ih h c hc)
    case isFalse =>
      rcases List.mem_cons.1 h with rfl | h
      · intro c hc
        rcases List.mem_cons.1 hc with rfl | hc
        · exact List.mem_cons_self
        · exact List.mem_cons_of_mem d (ih List.mem_cons_self c hc)
      · exact fun c hc => List.mem_cons_of_mem d (ih (List.mem_cons_of_mem first h) c hc)

/-- The pieces of a text depend on what the test says of its characters alone. -/
theorem splitOn_congr {q : Char → Bool} {cs : List Char} (h : ∀ c ∈ cs, p c = q c) :
    splitOn p cs = splitOn q cs := by
  induction cs with
  | nil => rfl
  | cons c cs ih =>
    obtain ⟨hc, hcs⟩ := List.forall_mem_cons.1 h
    rw [splitOn, splitOn, hc, ih hcs]

/-- The pieces of a text with a cut in it are those in front of the cut and those behind it. -/
theorem splitOn_append_cons {c : Char} (hc : p c = true) (as bs : List Char) :
    splitOn p (as ++ c :: bs) = splitOn p as ++ splitOn p bs := by
  induction as with
  | nil => simp [splitOn, hc]
  | cons d ds ih =>
    obtain ⟨piece, pieces, hparts⟩ := List.exists_cons_of_ne_nil (splitOn_ne_nil p ds)
    rw [hparts] at ih
    by_cases hd : p d = true <;> simp [splitOn, hd, hparts, ih]

/-- A text without separators is one piece. -/
theorem splitOn_eq_singleton {piece : List Char} (h : ∀ d ∈ piece, p d = false) :
    splitOn p piece = [piece] := by
  induction piece with
  | nil => rfl
  | cons d ds ih =>
    obtain ⟨hd, hds⟩ := List.forall_mem_cons.1 h
    simp [splitOn, hd, ih hds]

/-- A text up to the first character that passes the test is a piece. -/
theorem splitOn_append {c : Char} (hc : p c = true) {piece : List Char}
    (h : ∀ d ∈ piece, p d = false) (cs : List Char) :
    splitOn p (piece ++ c :: cs) = piece :: splitOn p cs := by
  rw [splitOn_append_cons hc, splitOn_eq_singleton h, List.singleton_append]

theorem join_cons {c : Char} (piece : List Char) {pieces : List (List Char)} (h : pieces ≠ []) :
    join c (piece :: pieces) = piece ++ c :: join c pieces := by
  cases pieces with
  | nil => exact absurd rfl h
  | cons second pieces => rfl

/-- A character of joined pieces is a separator, or in one of the pieces. -/
theorem mem_join {c d : Char} {pieces : List (List Char)} (h : d ∈ join c pieces) :
    d = c ∨ ∃ piece ∈ pieces, d ∈ piece := by
  induction pieces with
  | nil => exact nomatch h
  | cons piece pieces ih =>
    by_cases hnil : pieces = []
    · subst hnil
      exact .inr ⟨piece, List.mem_cons_self, h⟩
    · rw [join_cons piece hnil] at h
      rcases List.mem_append.1 h with h | h
      · exact .inr ⟨piece, List.mem_cons_self, h⟩
      · rcases List.mem_cons.1 h with rfl | h
        · exact .inl rfl
        · rcases ih h with rfl | ⟨other, hother, hd⟩
          · exact .inl rfl
          · exact .inr ⟨other, List.mem_cons_of_mem piece hother, hd⟩

/-- Pieces without separators are found again after they were joined. -/
theorem splitOn_join {c : Char} (hc : p c = true) {pieces : List (List Char)} (hne : pieces ≠ [])
    (h : ∀ piece ∈ pieces, ∀ d ∈ piece, p d = false) : splitOn p (join c pieces) = pieces := by
  induction pieces with
  | nil => exact absurd rfl hne
  | cons piece pieces ih =>
    obtain ⟨hpiece, hpieces⟩ := List.forall_mem_cons.1 h
    cases pieces with
    | nil => exact splitOn_eq_singleton hpiece
    | cons second pieces =>
      rw [join, splitOn_append hc hpiece, ih (List.cons_ne_nil second pieces) hpieces]
      exact List.cons_ne_nil second pieces

end Enlist.Text
