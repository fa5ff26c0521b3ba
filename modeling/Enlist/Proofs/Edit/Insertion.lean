import Enlist.Proofs.Edit.Splice

/-!
# Insertions

An edit that takes nothing out is a list of insertions at bytes of the text. At each byte the changes
put in what the insertion there says, however many changes that takes.

## Key results

- `spliceable_of_insertions`: changes that insert between two characters can be spliced
- `splicedBytes_of_insertions`: what they give
- `splicedBytes_eq_bytesWith`: what they give, when they put in what is listed at each byte
- `splicedBytes_eq_bytesWith_others`: what they give, when some others are put in elsewhere
- `apply_eq_of_insertions`: when insertions give the same text
- `bytesWith_of_one_place`: insertions at one byte
- `apply_insertion`: one change that takes nothing out
- `apply_of_one_place`: changes that take nothing out, all at one byte
-/

namespace Enlist.Edit

open Text

/-- A text that is put in at a byte of another text, in front of it. -/
structure Insertion where
  offset : Nat
  text : String
  deriving DecidableEq, Repr

/-- The bytes of a text with insertions, those at one byte in the order of the list. -/
def bytesWith (text : List UInt8) (insertions : List Insertion) : List UInt8 :=
  weave text
    (fun p => (insertions.filter fun i => i.offset == p).flatMap fun i => textBytes i.text)
    fun _ => false

/-- No two insertions are at one byte. -/
abbrev Distinct (insertions : List Insertion) : Prop :=
  insertions.Pairwise fun a b => a.offset ≠ b.offset

/-- What a change that takes nothing out puts in. -/
def Change.insertion (c : Change) : Insertion :=
  { offset := c.offset, text := c.text }

/-- A change that takes nothing out ends where it begins. -/
theorem Change.stop_of_isInsertion {c : Change} (h : c.isInsertion = true) : c.stop = c.offset := by
  rw [Change.isInsertion] at h
  rw [Change.stop]
  cases hc : c.action <;> simp [hc] at h ⊢

/-- Insertions between two characters can be spliced, whatever their order. -/
theorem spliceable_of_insertions {text : List Char} {changes : List Change}
    (h : ∀ c ∈ changes, c.isInsertion = true ∧ isBoundary text c.offset = true) :
    Spliceable text changes := by
  refine ⟨fun c hc => ?_, fun i j a b ha _ hab => ?_⟩
  · obtain ⟨hins, hboundary⟩ := h c hc
    have hstop := Change.stop_of_isInsertion hins
    rw [← hstop] at hboundary
    exact ⟨Nat.le_of_eq hstop.symm, le_of_isBoundary hboundary, hstop ▸ hboundary, hboundary⟩
  · rw [Change.stop_of_isInsertion (h a (List.mem_of_getElem? ha)).1]
    omega

/-- Changes that take nothing out cover no byte. -/
theorem coveredAt_of_insertions {changes : List Change} (h : ∀ c ∈ changes, c.isInsertion = true)
    (p : Nat) : coveredAt changes p = false := by
  rw [coveredAt, List.any_eq_false]
  intro c hc
  have hstop := Change.stop_of_isInsertion (h c hc)
  simp only [Change.covers, Bool.and_eq_true, decide_eq_true_eq]
  omega

/-- Changes that take nothing out put in their texts, those at one byte in the order of the list. -/
theorem splicedBytes_of_insertions {text : List Char} {changes : List Change}
    (h : ∀ c ∈ changes, c.isInsertion = true) :
    splicedBytes text changes = bytesWith (utf8Bytes text) (changes.map Change.insertion) := by
  refine weave_congr (fun p _ => ?_) fun p _ => coveredAt_of_insertions h p
  rw [insertedAt, List.filter_map, List.flatMap_map]
  rfl

/-- Of insertions at different bytes there is one at each of these. -/
private theorem filter_offset {insertions : List Insertion} (h : Distinct insertions)
    {i : Insertion} (hi : i ∈ insertions) :
    (insertions.filter fun j => j.offset == i.offset) = [i] := by
  induction insertions with
  | nil => exact nomatch hi
  | cons a insertions ih =>
    obtain ⟨ha, hrest⟩ := List.pairwise_cons.1 h
    rcases List.mem_cons.1 hi with rfl | hi
    -- The first is the one at the byte, so none of the others is
    · have hnone : (insertions.filter fun j => j.offset == i.offset) = [] := by
        rw [List.filter_eq_nil_iff]
        intro j hj heq
        exact ha j hj (beq_iff_eq.1 heq).symm
      rw [List.filter_cons_of_pos (by simp), hnone]
    · have hne : a.offset ≠ i.offset := ha i hi
      rw [List.filter_cons_of_neg (by simpa using hne), ih hrest hi]

/-- Changes that insert at each listed byte what is listed for it, and elsewhere are some others, give the
text with the others and with the insertions listed. -/
theorem splicedBytes_eq_bytesWith_others {text : List Char} {changes : List Change}
    {insertions : List Insertion} {other : Change → Bool}
    (hins : ∀ c ∈ changes, c.isInsertion = true) (hdistinct : Distinct insertions)
    (hlisted : ∀ i ∈ insertions, insertedAt changes i.offset = textBytes i.text)
    (hapart : ∀ c ∈ changes, other c = true → ∀ i ∈ insertions, i.offset ≠ c.offset)
    (helse : ∀ c ∈ changes, other c = false → ∃ i ∈ insertions, i.offset = c.offset) :
    splicedBytes text changes =
      bytesWith (utf8Bytes text) ((changes.filter other).map Change.insertion ++ insertions) := by
  -- Byte by byte: what is listed there is put in, or nothing is listed and only others are put in
  refine weave_congr (fun p _ => ?_) fun p _ => coveredAt_of_insertions hins p
  rw [List.filter_append, List.flatMap_append]
  by_cases hp : ∃ i ∈ insertions, i.offset = p
  case pos =>
    obtain ⟨i, hi, rfl⟩ := hp
    have hnone : ((changes.filter other).map Change.insertion).filter
        (fun j => j.offset == i.offset) = [] := by
      rw [List.filter_eq_nil_iff]
      intro j hj heq
      obtain ⟨c, hc, rfl⟩ := List.mem_map.1 hj
      obtain ⟨hc, hother⟩ := List.mem_filter.1 hc
      exact hapart c hc hother i hi (beq_iff_eq.1 heq).symm
    rw [hlisted i hi, hnone, filter_offset hdistinct hi]
    simp
  case neg =>
    have hnone : (insertions.filter fun i => i.offset == p) = [] := by
      rw [List.filter_eq_nil_iff]
      exact fun i hi heq => hp ⟨i, hi, beq_iff_eq.1 heq⟩
    have hothers : ((changes.filter other).filter fun c => c.offset == p) =
        changes.filter fun c => c.offset == p := by
      rw [List.filter_filter]
      refine List.filter_congr fun c hc => ?_
      cases hother : other c with
      | true => simp
      | false =>
        obtain ⟨i, hi, hoffset⟩ := helse c hc hother
        have hne : c.offset ≠ p := fun heq => hp ⟨i, hi, hoffset.trans heq⟩
        simp [hne]
    rw [insertedAt, hnone, List.filter_map, List.flatMap_map, ← hothers, List.flatMap_nil,
      List.append_nil]
    rfl

/-- Changes that insert at each byte what is listed for it, and nothing elsewhere, give the text with
the insertions listed. -/
theorem splicedBytes_eq_bytesWith {text : List Char} {changes : List Change}
    {insertions : List Insertion} (hins : ∀ c ∈ changes, c.isInsertion = true)
    (hdistinct : Distinct insertions)
    (hlisted : ∀ i ∈ insertions, insertedAt changes i.offset = textBytes i.text)
    (helse : ∀ c ∈ changes, ∃ i ∈ insertions, i.offset = c.offset) :
    splicedBytes text changes = bytesWith (utf8Bytes text) insertions := by
  rw [splicedBytes_eq_bytesWith_others hins hdistinct hlisted
    (fun _ _ (h : false = true) => nomatch h) fun c hc _ => helse c hc, List.filter_false, List.map_nil,
    List.nil_append]

/-- Insertions give the same text when at each byte they are the same, in the same order. -/
theorem apply_eq_of_insertions {text : String} {changes others : List Change}
    (h : ∀ c ∈ changes, c.isInsertion = true ∧ isBoundary text.toList c.offset = true)
    (h' : ∀ c ∈ others, c.isInsertion = true ∧ isBoundary text.toList c.offset = true)
    (hsame : ∀ p, (changes.filter fun c => c.offset == p) = others.filter fun c => c.offset == p) :
    apply text changes = apply text others := by
  obtain ⟨out, hout, hbytes⟩ := exists_apply_eq_ok (spliceable_of_insertions h)
  obtain ⟨out', hout', hbytes'⟩ := exists_apply_eq_ok (spliceable_of_insertions h')
  have hwoven : splicedBytes text.toList changes = splicedBytes text.toList others := by
    refine weave_congr (fun p _ => ?_) fun p _ => ?_
    · rw [insertedAt, insertedAt, hsame]
    · rw [coveredAt_of_insertions (fun c hc => (h c hc).1),
        coveredAt_of_insertions fun c hc => (h' c hc).1]
  rw [hout, hout', textBytes_inj (hbytes.trans (hwoven.trans hbytes'.symm))]

/-- Insertions at one place stand there one behind the other. -/
theorem bytesWith_of_one_place {front back : List UInt8} {insertions : List Insertion}
    (h : ∀ i ∈ insertions, i.offset = front.length) :
    bytesWith (front ++ back) insertions =
      front ++ (insertions.flatMap fun i => textBytes i.text) ++ back := by
  have hhere : (insertions.filter fun i => i.offset == front.length) = insertions :=
    List.filter_eq_self.2 fun i hi => beq_iff_eq.2 (h i hi)
  have helse : ∀ p, p ≠ front.length → (insertions.filter fun i => i.offset == p) = [] := by
    intro p hp
    rw [List.filter_eq_nil_iff]
    exact fun i hi heq => hp ((beq_iff_eq.1 heq).symm.trans (h i hi))
  have hle : front.length < (front ++ back).length + 1 := by
    rw [List.length_append]
    omega
  -- The text is kept in front of the place, and again from it on
  rw [bytesWith, weave_eq_stretch, ← stretch_append (Nat.zero_le front.length) (Nat.le_of_lt hle),
    stretch_kept, stretch_succ hle, stretch_kept, woven, hhere]
  · cases back with
    | nil => simp
    | cons b back => simp [List.take_of_length_le (Nat.le_succ back.length)]
  · intro p hp _
    rw [helse p (by omega)]
    exact ⟨rfl, rfl⟩
  · intro p _ hp
    rw [helse p (by omega)]
    exact ⟨rfl, rfl⟩

/-- One change that takes nothing out stands between the characters in front of its byte and the others. -/
theorem apply_insertion {text : String} {c : Change} (hins : c.isInsertion = true)
    (hboundary : isBoundary text.toList c.offset = true) :
    apply text [c] = .ok (String.ofList
      (takeBytes text.toList c.offset ++ c.text.toList ++ dropBytes text.toList c.offset)) := by
  have hfits : Spliceable text.toList [c] :=
    spliceable_of_insertions (List.forall_mem_singleton.2 ⟨hins, hboundary⟩)
  have hnone := findSome?_error?_eq_none_iff.2 hfits.fits
  rw [apply, applyToChars]
  simp only [hnone]
  simp only [number, byOffset, insertByOffset, splice, Nat.not_lt_zero, if_false, Nat.sub_zero,
    Change.stop_of_isInsertion hins]
  rfl

/-- Changes at one byte that take nothing out stand there in the order of the list. -/
theorem apply_of_one_place {text : String} {offset : Nat} {changes : List Change}
    (hboundary : isBoundary text.toList offset = true)
    (h : ∀ c ∈ changes, c.isInsertion = true ∧ c.offset = offset) :
    apply text changes = .ok (String.ofList (takeBytes text.toList offset) ++
      String.join (changes.map Change.text) ++ String.ofList (dropBytes text.toList offset)) := by
  have hfits : ∀ c ∈ changes, c.isInsertion = true ∧ isBoundary text.toList c.offset = true :=
    fun c hc => ⟨(h c hc).1, (h c hc).2 ▸ hboundary⟩
  obtain ⟨out, hout, hbytes⟩ := exists_apply_eq_ok (spliceable_of_insertions hfits)
  -- All texts go to the byte at which the two parts of the text meet
  have hplace : ∀ i ∈ changes.map Change.insertion,
      i.offset = (utf8Bytes (takeBytes text.toList offset)).length := by
    intro i hi
    obtain ⟨c, hc, rfl⟩ := List.mem_map.1 hi
    rw [length_utf8Bytes, utf8Length_takeBytes hboundary]
    exact (h c hc).2
  have hsplit : utf8Bytes text.toList =
      utf8Bytes (takeBytes text.toList offset) ++ utf8Bytes (dropBytes text.toList offset) := by
    rw [← utf8Bytes_append, takeBytes_append_dropBytes]
  rw [hout]
  -- Texts with the same bytes are the same
  congr 1
  apply textBytes_inj
  rw [hbytes, splicedBytes_of_insertions fun c hc => (h c hc).1, hsplit, bytesWith_of_one_place hplace,
    textBytes_append, textBytes_append, textBytes_ofList, textBytes_ofList, textBytes_join,
    List.flatMap_map, List.flatMap_map]
  rfl

end Enlist.Edit
