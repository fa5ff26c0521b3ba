import Enlist.Proofs.Edit.InOrder

/-!
# Changes from the last to the first

All offsets of a list of changes are offsets of one text, and one pass puts all changes into it. The
changes can also be made one after the other, each in the text that the one before it has given. Made
from the last to the first in their order they need no other offsets, as each leaves the text in front
of it as it was.

## Key results

- `Laid.exists_cut`: the place at which a text is cut between the changes in front and those behind
- `spliceInOrder_append`: the pass over a text that is cut is the pass in front of the cut and the pass
  behind it
- `Laid.apply_append`: changes are made behind a cut first, and then those in front of it
- `apply_backwards`: for every cut, and for the changes one by one
-/

namespace Enlist.Edit

open Text

/-! ## Fitting a front of a text -/

/-- A change fits where it begins and ends between two characters, not the other way round. -/
theorem Change.fits_iff {c : Change} {text : List Char} :
    c.Fits text ↔
      c.offset ≤ c.stop ∧ isBoundary text c.offset = true ∧ isBoundary text c.stop = true := by
  constructor
  · intro h
    exact ⟨h.ordered, h.start_boundary, h.stop_boundary⟩
  · rintro ⟨hle, hstart, hstop⟩
    exact ⟨hle, le_of_isBoundary hstop, hstart, hstop⟩

/-- Whether a change fits a text does not depend on what stands behind it. -/
theorem Change.fits_append_iff {c : Change} {first : List Char} (h : c.stop ≤ utf8Length first)
    (rest : List Char) : c.Fits (first ++ rest) ↔ c.Fits first := by
  rw [fits_iff, fits_iff]
  refine and_congr_right fun hle => ?_
  rw [isBoundary_append_of_le (Nat.le_trans hle h), isBoundary_append_of_le h]

/-- Changes that stand in their order and can be spliced into a text: each fits it and ends where the
next one starts or earlier. -/
structure Laid (text : List Char) (cs : List Change) : Prop where
  fits : ∀ c ∈ cs, c.Fits text
  apart : cs.Pairwise fun a b => a.stop ≤ b.offset

namespace Laid

variable {text : List Char} {front back : List Change}

theorem left (h : Laid text (front ++ back)) : Laid text front :=
  ⟨fun c hc => h.fits c (List.mem_append_left back hc), (List.pairwise_append.1 h.apart).1⟩

theorem right (h : Laid text (front ++ back)) : Laid text back :=
  ⟨fun c hc => h.fits c (List.mem_append_right front hc), (List.pairwise_append.1 h.apart).2.1⟩

/-- Changes that are laid out are in order as they are. -/
theorem inOrder_eq {cs : List Change} (h : Laid text cs) : inOrder cs = cs :=
  inOrder_of_pairwise <| h.apart.imp_of_mem fun ha _ hab =>
    Nat.le_trans (h.fits _ ha).ordered hab

/-- Between the changes in front and those behind the text can be cut. -/
theorem exists_cut (h : Laid text (front ++ back)) :
    ∃ first rest, text = first ++ rest ∧ (∀ c ∈ front, c.stop ≤ utf8Length first) ∧
      ∀ c ∈ back, utf8Length first ≤ c.offset := by
  cases back with
  | nil =>
    exact ⟨text, [], (List.append_nil text).symm, fun c hc => (h.left.fits c hc).inside, by simp⟩
  | cons b back =>
    -- The cut is where the first change behind starts
    have hb := h.right.fits b List.mem_cons_self
    obtain ⟨_, hbehind, hfront⟩ := List.pairwise_append.1 h.apart
    obtain ⟨first, rest, htext, hfirst⟩ := isBoundary_iff.1 hb.start_boundary
    refine ⟨first, rest, htext, fun c hc => hfirst ▸ hfront c hc b List.mem_cons_self,
      fun c hc => ?_⟩
    rcases List.mem_cons.1 hc with rfl | hc
    · exact Nat.le_of_eq hfirst
    · exact hfirst ▸ Nat.le_trans hb.ordered ((List.pairwise_cons.1 hbehind).1 c hc)

end Laid

/-! ## The pass over a text that is cut -/

/-- A pass keeps what stands in front of all changes. -/
theorem spliceInOrder_of_behind {cursor : Nat} {first rest : List Char} {cs : List Change}
    (h : ∀ c ∈ cs, cursor + utf8Length first ≤ c.offset ∧ c.offset ≤ c.stop) :
    spliceInOrder cursor (first ++ rest) cs =
      (spliceInOrder (cursor + utf8Length first) rest cs).map (first ++ ·) := by
  cases cs with
  | nil => rfl
  | cons c cs =>
    obtain ⟨hstart, hstop⟩ := h c List.mem_cons_self
    -- Both offsets of the first change lie behind `first`
    obtain ⟨i, hi⟩ := Nat.exists_eq_add_of_le hstart
    obtain ⟨j, hj⟩ := Nat.exists_eq_add_of_le (Nat.le_trans hstart hstop)
    have htake : c.offset - cursor = utf8Length first + i := by omega
    have hdrop : c.stop - cursor = utf8Length first + j := by omega
    have htake' : c.offset - (cursor + utf8Length first) = i := by omega
    have hdrop' : c.stop - (cursor + utf8Length first) = j := by omega
    rw [spliceInOrder, spliceInOrder, if_neg (by omega), if_neg (by omega), htake, hdrop, htake',
      hdrop', takeBytes_append_add, dropBytes_append_add, Option.map_map]
    simp only [Function.comp_def, List.append_assoc]

/-- The pass over a text that is cut is the pass in front of the cut and the pass behind it. -/
theorem spliceInOrder_append {cursor : Nat} {first : List Char} {front back : List Change}
    (hcursor : isBoundary first cursor = true) (hfront : ∀ c ∈ front, c.Fits first)
    (hback : ∀ c ∈ back, utf8Length first ≤ c.offset ∧ c.offset ≤ c.stop) (rest : List Char) :
    spliceInOrder cursor (dropBytes (first ++ rest) cursor) (front ++ back) =
      (spliceInOrder cursor (dropBytes first cursor) front).bind fun before =>
        (spliceInOrder (utf8Length first) rest back).map (before ++ ·) := by
  -- Induction on the changes in front: the cursor stays in `first`, at a boundary
  induction front generalizing cursor with
  | nil =>
    have hlength := add_utf8Length_dropBytes hcursor
    rw [dropBytes_append_of_le (le_of_isBoundary hcursor), List.nil_append,
      spliceInOrder_of_behind (hlength ▸ hback), hlength]
    rfl
  | cons c front ih =>
    have hc := hfront c List.mem_cons_self
    have hwhole := (Change.fits_append_iff hc.inside rest).2 hc
    rw [List.cons_append, spliceInOrder, spliceInOrder]
    split
    · rfl
    case isFalse hlt =>
      have hle : cursor ≤ c.stop := Nat.le_trans (Nat.not_lt.1 hlt) hc.ordered
      have hwholeCursor : isBoundary (first ++ rest) cursor = true := by
        rwa [isBoundary_append_of_le (le_of_isBoundary hcursor)]
      -- What is kept in front of the change lies in `first`, so `rest` is not touched
      have hkept : c.offset - cursor ≤ utf8Length (dropBytes first cursor) := by
        have := add_utf8Length_dropBytes hcursor
        have := hc.ordered
        have := hc.inside
        omega
      rw [dropBytes_dropBytes hwholeCursor hwhole.stop_boundary hle,
        dropBytes_dropBytes hcursor hc.stop_boundary hle,
        ih hc.stop_boundary fun d hd => hfront d (.tail c hd),
        dropBytes_append_of_le (le_of_isBoundary hcursor), takeBytes_append_of_le hkept]
      cases spliceInOrder c.stop (dropBytes first c.stop) front with
      | none => rfl
      | some before => simp [Function.comp_def]

/-! ## One after the other -/

namespace Laid

/-- Changes that are laid out are applied by one pass over the text. -/
theorem apply_eq_ok_iff {text out : String} {cs : List Change} (h : Laid text.toList cs) :
    apply text cs = .ok out ↔ spliceInOrder 0 text.toList cs = some out.toList := by
  rw [Edit.apply_eq_ok_iff, h.inOrder_eq]
  exact and_iff_right h.fits

/-- The changes behind a cut can be made first, and those in front of it then in the text that they
give. -/
theorem apply_append {text out : String} {front back : List Change}
    (h : Laid text.toList (front ++ back)) (happly : apply text (front ++ back) = .ok out) :
    ∃ between, apply text back = .ok between ∧ Laid between.toList front ∧
      apply between front = .ok out := by
  obtain ⟨first, rest, htext, hfront, hback⟩ := h.exists_cut
  have hbehind : ∀ c ∈ back, utf8Length first ≤ c.offset ∧ c.offset ≤ c.stop := fun c hc =>
    ⟨hback c hc, (h.right.fits c hc).ordered⟩
  have hfits : ∀ c ∈ front, c.Fits first := fun c hc =>
    (Change.fits_append_iff (hfront c hc) rest).1 (htext ▸ h.left.fits c hc)
  have hpass := spliceInOrder_append (isBoundary_zero first) hfits hbehind rest
  rw [← htext, dropBytes_zero, dropBytes_zero, h.apply_eq_ok_iff.1 happly] at hpass
  obtain ⟨before, hbefore, hafter⟩ := Option.bind_eq_some_iff.1 hpass.symm
  obtain ⟨after, hafter, hout⟩ := Option.map_eq_some_iff.1 hafter
  -- The changes behind the cut leave what is in front of it as it was
  let between := String.ofList (first ++ after)
  have hchars : between.toList = first ++ after := String.toList_ofList
  have hlaid : Laid between.toList front :=
    ⟨fun c hc => hchars ▸ (Change.fits_append_iff (hfront c hc) after).2 (hfits c hc), h.left.apart⟩
  refine ⟨between, h.right.apply_eq_ok_iff.2 ?_, hlaid, hlaid.apply_eq_ok_iff.2 ?_⟩
  · rw [htext, spliceInOrder_of_behind (by simpa using hbehind), Nat.zero_add, hafter, hchars]
    rfl
  · have hagain := spliceInOrder_append (isBoundary_zero first) hfits (List.forall_mem_nil _) after
    rw [dropBytes_zero, dropBytes_zero, List.append_nil, hbefore] at hagain
    rw [hchars, hagain, ← hout]
    rfl

/-- Made one by one, each in the text that the one behind it has given, the changes give what the single
pass gives. -/
theorem foldrM_eq {text out : String} {cs : List Change} (h : Laid text.toList cs)
    (happly : apply text cs = .ok out) :
    cs.foldrM (fun c between => apply between [c]) text = .ok out := by
  induction cs generalizing out with
  | nil =>
    have hsame := h.apply_eq_ok_iff.1 happly
    rw [spliceInOrder, Option.some.injEq, String.toList_inj] at hsame
    exact congrArg Except.ok hsame
  | cons c cs ih =>
    -- The cut is behind the first change, which is made last
    have hcut : Laid text.toList ([c] ++ cs) := h
    obtain ⟨between, hback, _, hfront⟩ := hcut.apply_append happly
    rw [List.foldrM_cons, ih hcut.right hback]
    exact hfront

end Laid

/-- Changes that are applied stand apart in their order. -/
theorem laid_inOrder {text out : String} {changes : List Change} (h : apply text changes = .ok out) :
    Laid text.toList (inOrder changes) := by
  have hs := spliceable_of_apply_eq_ok h
  refine ⟨fun c hc => hs.fits c (mem_inOrder.1 hc), ?_⟩
  rw [inOrder, List.pairwise_map]
  exact pairwise_byOffset_iff.2 hs.apart

/-- When changes are applied, and their order is cut into a front and a back: the back is applied to the
text, the front to what that gives, and the outcome is that of front and back together. So it is that of
the changes made one by one, from the last to the first. -/
theorem apply_backwards {text out : String} {changes : List Change}
    (h : apply text changes = .ok out) :
    (∀ front back, inOrder changes = front ++ back →
      apply text (front ++ back) = .ok out ∧
        ∃ between, apply text back = .ok between ∧ apply between front = .ok out) ∧
    (inOrder changes).foldrM (fun c between => apply between [c]) text = .ok out := by
  have hlaid := laid_inOrder h
  have hpass := (apply_eq_ok_iff.1 h).2
  have happly := hlaid.apply_eq_ok_iff.2 hpass
  refine ⟨fun front back hcut => ?_, hlaid.foldrM_eq happly⟩
  rw [hcut] at hlaid happly
  obtain ⟨between, hback, _, hfront⟩ := hlaid.apply_append happly
  exact ⟨happly, between, hback, hfront⟩

/-- The cut is at an offset at which both sides put something in. -/
theorem apply_backwards_sample :
    let text := "aébc"
    let x : Change := .insertAfter 3 "x" .manual
    let y : Change := .insertBefore 3 "y" .manual
    let replacement : Change := .make 1 (.replace 3) "E" .manual
    let removal : Change := .make 0 (.remove 1) "" .manual
    let changes := [x, replacement, y, removal]
    inOrder changes = [removal, replacement, x] ++ [y] ∧ apply text changes = .ok "Exybc" ∧
      apply text [y] = .ok "aéybc" ∧ apply "aéybc" [removal, replacement, x] = .ok "Exybc" := by
  intro text x y replacement removal changes
  have happly : apply text changes = .ok "Exybc" := by decide +kernel
  have hcut : inOrder changes = [removal, replacement, x] ++ [y] := by decide +kernel
  have hback : apply text [y] = .ok "aéybc" := by decide +kernel
  obtain ⟨_, between, hbetween, hfront⟩ := (apply_backwards happly).1 _ _ hcut
  obtain rfl := Except.ok.inj (hback.symm.trans hbetween)
  exact ⟨hcut, happly, hback, hfront⟩

end Enlist.Edit
