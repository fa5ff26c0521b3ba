import Enlist.Proofs.Edit.Insertion
import Mathlib.Algebra.GroupWithZero.Nat

/-!
# Pieces of an edited text

An edit that takes nothing out leaves the text cut into pieces with the texts of the changes between
them. Leaving those out gives the text back, so the edited text is longer by what was put in.

## Key results

- `exists_pieces_of_insertions`: what changes that insert between two characters give, cut into pieces
- `Pieces.length_eq`: the length of the edited text
- `Pieces.exists_front`: what changes at the beginning of a text are put in front of
-/

namespace Enlist.Edit

open Text

/-- A piece of an edited text. -/
inductive Piece where
  /-- Characters of the text as it was. -/
  | kept (cs : List Char)
  /-- The text of a change. -/
  | put (c : Change)
  deriving DecidableEq, Repr

namespace Piece

def chars : Piece → List Char
  | kept cs => cs
  | put c => c.text.toList

/-- What is left of the piece when the texts of changes are left out. -/
def keptChars : Piece → List Char
  | kept cs => cs
  | put _ => []

def change? : Piece → Option Change
  | kept _ => none
  | put c => some c

end Piece

/-- The edited text `out` is made of the pieces: without the texts of the changes they give the text
back, every change is put in once, and it stands behind as many bytes of the text as its offset says. -/
structure Pieces (text out : List Char) (changes : List Change) (pieces : List Piece) : Prop where
  edited : pieces.flatMap Piece.chars = out
  kept : pieces.flatMap Piece.keptChars = text
  changes : (pieces.filterMap Piece.change?).Perm changes
  placed : ∀ front c back, pieces = front ++ .put c :: back →
    utf8Length (front.flatMap Piece.keptChars) = c.offset

/-- The pass over insertions in the order of their offsets gives pieces, from the cursor on. -/
private theorem exists_pieces_of_splice {text : List Char} {ns : List Numbered}
    {claimant : Option Numbered} {cursor : Nat} {out : List Char}
    (hcursor : isBoundary text cursor = true)
    (hins : ∀ n ∈ ns, n.change.isInsertion = true ∧ isBoundary text n.change.offset = true)
    (h : splice claimant cursor (dropBytes text cursor) ns = .ok out) :
    ∃ pieces : List Piece, pieces.flatMap Piece.chars = out ∧
      pieces.flatMap Piece.keptChars = dropBytes text cursor ∧
      pieces.filterMap Piece.change? = ns.map Numbered.change ∧
      ∀ front c back, pieces = front ++ .put c :: back →
        cursor + utf8Length (front.flatMap Piece.keptChars) = c.offset := by
  -- Induction on the changes; each moves the cursor to its offset, which is a boundary again
  induction ns generalizing claimant cursor out with
  | nil =>
    cases h
    refine ⟨[.kept (dropBytes text cursor)], by simp [Piece.chars], by simp [Piece.keptChars], rfl,
      fun front c back heq => ?_⟩
    have hmem : Piece.put c ∈ [Piece.kept (dropBytes text cursor)] := by rw [heq]; simp
    cases List.mem_singleton.1 hmem
  | cons n ns ih =>
    obtain ⟨⟨hn, hboundary⟩, hns⟩ := List.forall_mem_cons.1 hins
    simp only [splice, Change.stop_of_isInsertion hn] at h
    split at h
    case isTrue => cases h
    case isFalse hlt =>
      have hle : cursor ≤ n.change.offset := Nat.not_lt.1 hlt
      have hrest := dropBytes_dropBytes hcursor hboundary hle
      rw [hrest] at h
      split at h
      case h_2 => cases h
      case h_1 spliced hspliced =>
        cases h
        obtain ⟨pieces, hedited, hkept, hchanges, hplaced⟩ := ih hboundary hns hspliced
        refine ⟨.kept (takeBytes (dropBytes text cursor) (n.change.offset - cursor)) ::
          .put n.change :: pieces, ?_, ?_, ?_, fun front c back heq => ?_⟩
        · simp [Piece.chars, hedited]
        · rw [List.flatMap_cons, List.flatMap_cons, hkept, ← hrest]
          exact takeBytes_append_dropBytes _ _
        · simp only [List.filterMap_cons, Piece.change?, hchanges, List.map_cons]
        -- A change among the pieces is the first one, or one of those that follow it
        · have hlength : utf8Length (takeBytes (dropBytes text cursor) (n.change.offset - cursor)) =
              n.change.offset - cursor :=
            utf8Length_takeBytes (isBoundary_dropBytes hcursor hboundary hle)
          cases front with
          | nil => cases (List.cons.inj heq).1
          | cons first front =>
            obtain ⟨rfl, hbehind⟩ := List.cons.inj heq
            cases front with
            | nil =>
              obtain rfl := Piece.put.inj (List.cons.inj hbehind).1
              simp only [List.flatMap_cons, List.flatMap_nil, Piece.keptChars, List.append_nil, hlength]
              omega
            | cons second front =>
              obtain ⟨rfl, hlater⟩ := List.cons.inj hbehind
              have := hplaced front c back hlater
              simp only [List.flatMap_cons, Piece.keptChars, List.nil_append, utf8Length_append, hlength]
              omega

/-- Changes that insert between two characters can be applied, and cut the text into pieces. -/
theorem exists_pieces_of_insertions {text : String} {changes : List Change}
    (h : ∀ c ∈ changes, c.isInsertion = true ∧ isBoundary text.toList c.offset = true) :
    ∃ out pieces, apply text changes = .ok out ∧ Pieces text.toList out.toList changes pieces := by
  obtain ⟨out, hout, _⟩ := exists_apply_eq_ok (spliceable_of_insertions h)
  -- The text that is given is made of the characters that are
  have hchars : applyToChars text.toList changes = .ok out.toList := by
    cases happly : applyToChars text.toList changes with
    | error e =>
      rw [apply, happly] at hout
      cases hout
    | ok cs =>
      rw [apply, happly] at hout
      rw [← Except.ok.inj hout, String.toList_ofList]
  simp only [applyToChars] at hchars
  split at hchars
  case h_1 => cases hchars
  case h_2 =>
    rw [← dropBytes_zero text.toList] at hchars
    obtain ⟨pieces, hedited, hkept, hchanges, hplaced⟩ := exists_pieces_of_splice
      (isBoundary_zero text.toList) (by simpa using forall_mem_byOffset.2 h) hchars
    refine ⟨out, pieces, hout, hedited, by rw [hkept, dropBytes_zero], ?_, fun front c back heq => ?_⟩
    -- The changes in their order are the given ones, rearranged
    · have hperm := (byOffset_perm (number 0 changes)).map Numbered.change
      rw [map_change_number] at hperm
      exact hchanges ▸ hperm
    · have := hplaced front c back heq
      omega

/-- An edited text is longer than the text by the texts of its changes. -/
theorem Pieces.length_eq {text out : String} {changes : List Change} {pieces : List Piece}
    (h : Pieces text.toList out.toList changes pieces) :
    out.utf8ByteSize = text.utf8ByteSize + (changes.map fun c => c.text.utf8ByteSize).sum := by
  -- Piece by piece: its characters are kept, or they are those of a change
  have hsum : ∀ pieces : List Piece, utf8Length (pieces.flatMap Piece.chars) =
      utf8Length (pieces.flatMap Piece.keptChars) +
        ((pieces.filterMap Piece.change?).map fun c => c.text.utf8ByteSize).sum := by
    intro pieces
    induction pieces with
    | nil => rfl
    | cons p pieces ih =>
      simp only [List.flatMap_cons, List.filterMap_cons, utf8Length_append, ih]
      cases p with
      | kept cs =>
        simp only [Piece.chars, Piece.keptChars, Piece.change?]
        omega
      | put c =>
        simp only [Piece.chars, Piece.keptChars, Piece.change?, utf8Length, List.map_cons,
          List.sum_cons, utf8ByteSize_eq]
        omega
  rw [utf8ByteSize_eq, utf8ByteSize_eq, ← h.edited, ← h.kept, hsum pieces,
    (h.changes.map fun c => c.text.utf8ByteSize).sum_nat]

/-! ## Characters that stay together -/

variable {front rest out : List Char} {pieces : List Piece}

/-- Pieces keep the first characters of a text together when no change goes between them. -/
private theorem exists_tail_of_kept (hkept : pieces.flatMap Piece.keptChars = front ++ rest)
    (hbehind : ∀ before c back, pieces = before ++ .put c :: back →
      utf8Length front ≤ utf8Length (before.flatMap Piece.keptChars)) :
    ∃ tail, pieces.flatMap Piece.chars = front ++ tail := by
  -- Induction on the pieces; a piece that is kept is a part of the front or reaches beyond it
  induction pieces generalizing front with
  | nil =>
    obtain ⟨rfl, rfl⟩ := List.append_eq_nil_iff.1 hkept.symm
    exact ⟨[], rfl⟩
  | cons p pieces ih =>
    cases p with
    | put c =>
      cases front with
      | nil => exact ⟨_, rfl⟩
      | cons a front =>
        exact absurd (Nat.le_zero.1 (hbehind [] c pieces rfl)) (utf8Length_pos_of_cons a front)
    | kept cs =>
      have hcs : cs ++ pieces.flatMap Piece.keptChars = front ++ rest := hkept
      have hchars : (Piece.kept cs :: pieces).flatMap Piece.chars =
          cs ++ pieces.flatMap Piece.chars := rfl
      rcases List.append_eq_append_iff.1 hcs with ⟨later, rfl, hlater⟩ | ⟨more, rfl, _⟩
      · obtain ⟨tail, htail⟩ := ih hlater fun before c back heq => by
          have hle := hbehind (.kept cs :: before) c back (by rw [heq]; rfl)
          simp only [List.flatMap_cons, utf8Length_append, Piece.keptChars] at hle
          omega
        exact ⟨tail, by rw [hchars, htail, List.append_assoc]⟩
      · exact ⟨more ++ pieces.flatMap Piece.chars, by rw [hchars, List.append_assoc]⟩

/-- The changes that pieces begin with go in front of the text. -/
private theorem exists_first_of_kept (hne : front ≠ [])
    (hkept : pieces.flatMap Piece.keptChars = front ++ rest)
    (hplaced : ∀ before c back, pieces = before ++ .put c :: back →
      utf8Length (before.flatMap Piece.keptChars) = c.offset)
    (hchanges : ∀ c ∈ pieces.filterMap Piece.change?, c.offset = 0 ∨ utf8Length front ≤ c.offset) :
    ∃ (first : List Change) (tail : List Char),
      pieces.flatMap Piece.chars = first.flatMap (fun c => c.text.toList) ++ (front ++ tail) ∧
        ∀ c, c ∈ first ↔ c ∈ pieces.filterMap Piece.change? ∧ c.offset = 0 := by
  -- Until a character is kept, all changes go to the beginning
  induction pieces with
  | nil => exact absurd (List.append_eq_nil_iff.1 hkept.symm).1 hne
  | cons p pieces ih =>
    cases p with
    | put c =>
      have hc : c.offset = 0 := (hplaced [] c pieces rfl).symm
      obtain ⟨first, tail, hchars, hfirst⟩ := ih hkept
        (fun before c' back heq => hplaced (.put c :: before) c' back (by rw [heq]; rfl))
        fun c' hc' => hchanges c' (List.mem_cons_of_mem c hc')
      refine ⟨c :: first, tail, ?_, fun c' => ?_⟩
      · rw [List.flatMap_cons, List.flatMap_cons, hchars, List.append_assoc]
        rfl
      · have hmem : (Piece.put c :: pieces).filterMap Piece.change? =
            c :: pieces.filterMap Piece.change? := rfl
        rw [hmem, List.mem_cons, List.mem_cons, hfirst, or_and_right]
        exact or_congr_left ⟨fun heq => ⟨heq, heq ▸ hc⟩, And.left⟩
    | kept cs =>
      cases cs with
      | nil =>
        exact ih hkept
          (fun before c' back heq => hplaced (.kept [] :: before) c' back (by rw [heq]; rfl)) hchanges
      | cons a cs =>
        -- From here on every change goes behind a character, and so behind the front
        have hlater : ∀ before c back, Piece.kept (a :: cs) :: pieces = before ++ .put c :: back →
            c.offset ≠ 0 := by
          intro before c back heq
          cases before with
          | nil => cases heq
          | cons first before =>
            have hoffset := hplaced _ c back heq
            obtain ⟨rfl, _⟩ := List.cons.inj heq
            have := Char.utf8Size_pos a
            simp only [List.flatMap_cons, Piece.keptChars, utf8Length_append, utf8Length] at hoffset
            omega
        have hmem : ∀ c ∈ (Piece.kept (a :: cs) :: pieces).filterMap Piece.change?, c.offset ≠ 0 := by
          intro c hc
          obtain ⟨p, hp, hput⟩ := List.mem_filterMap.1 hc
          obtain ⟨before, back, heq⟩ := List.append_of_mem hp
          cases p with
          | kept => cases hput
          | put c' =>
            obtain rfl := Option.some.inj hput
            exact hlater before c' back heq
        obtain ⟨tail, htail⟩ := exists_tail_of_kept hkept fun before c back heq => by
          have hc : c ∈ (Piece.kept (a :: cs) :: pieces).filterMap Piece.change? := by
            rw [heq]
            simp [Piece.change?]
          rw [hplaced before c back heq]
          exact (hchanges c hc).resolve_left (hmem c hc)
        exact ⟨[], tail, htail, fun c =>
          iff_of_false List.not_mem_nil fun hc => absurd hc.2 (hmem c hc.1)⟩

/-- When each change goes in front of the first characters of a text or behind them, these stand
together behind the texts of the changes that go in front. -/
theorem Pieces.exists_front {changes : List Change} (h : Pieces (front ++ rest) out changes pieces)
    (hne : front ≠ []) (hchanges : ∀ c ∈ changes, c.offset = 0 ∨ utf8Length front ≤ c.offset) :
    ∃ (first : List Change) (tail : List Char),
      out = first.flatMap (fun c => c.text.toList) ++ (front ++ tail) ∧
        ∀ c, c ∈ first ↔ c ∈ changes ∧ c.offset = 0 := by
  obtain ⟨first, tail, hchars, hfirst⟩ := exists_first_of_kept hne h.kept h.placed fun c hc =>
    hchanges c (h.changes.mem_iff.1 hc)
  exact ⟨first, tail, h.edited ▸ hchars, fun c => by rw [hfirst, h.changes.mem_iff]⟩

end Enlist.Edit
