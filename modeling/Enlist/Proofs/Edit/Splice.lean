import Enlist.Proofs.Edit.Order
import Enlist.Proofs.Text.Bytes
import Enlist.Proofs.Text.Weave
import Mathlib.Data.Option.Basic

/-!
# What splicing gives

`apply` compares each change with one cursor that moves along the text. This file says what it gives
without a cursor: which lists of changes can be spliced (`Spliceable`), and what the bytes of the
result are (`Text.weave`).

The same pass is written once more over the text as a whole, with every slice cut by its two offsets
(`spliceCut`): a slice that no text can be cut into would leave it without a result.

## Key results

- `exists_apply_eq_ok`: changes that are `Spliceable` are applied, and the result is the weave
- `spliceable_of_apply_eq_ok`: changes that are applied are `Spliceable`
- `applyCut_eq`: every slice of the pass can be cut
- `apply_spec`: the three together
-/

namespace Enlist.Edit

open Text

/-! ## Changes that fit a text -/

/-- A change fits a text by itself: it ends where it starts or later, inside the text, and both of its
ends lie between two characters. -/
structure Change.Fits (text : List Char) (c : Change) : Prop where
  ordered : c.offset ≤ c.stop
  inside : c.stop ≤ utf8Length text
  start_boundary : isBoundary text c.offset = true
  stop_boundary : isBoundary text c.stop = true

/-- The changes can be spliced into the text together: each fits it, and a change that comes before
another, by its offset or at the same offset by its place in the list, ends where that one starts or
earlier. -/
structure Spliceable (text : List Char) (changes : List Change) : Prop where
  fits : ∀ c ∈ changes, c.Fits text
  apart : ∀ (i j : Nat) (a b : Change), changes[i]? = some a → changes[j]? = some b →
    (a.offset < b.offset ∨ a.offset = b.offset ∧ i < j) → a.stop ≤ b.offset

/-- The change takes the place of byte `p`. -/
def Change.covers (p : Nat) (c : Change) : Bool :=
  c.offset ≤ p && p < c.stop

/-- The bytes that the changes put in at an offset, in the order of the list. -/
def insertedAt (changes : List Change) (p : Nat) : List UInt8 :=
  (changes.filter fun c => c.offset == p).flatMap fun c => textBytes c.text

def coveredAt (changes : List Change) (p : Nat) : Bool :=
  changes.any fun c => c.covers p

/-- The bytes of a text with the changes spliced in, byte by byte. -/
def splicedBytes (text : List Char) (changes : List Change) : List UInt8 :=
  weave (utf8Bytes text) (insertedAt changes) (coveredAt changes)

/-- An offset is accepted exactly between two characters. -/
theorem offsetError?_eq_none_iff {text : List Char} {index offset : Nat} :
    offsetError? text index offset = none ↔ isBoundary text offset = true := by
  simp only [offsetError?]
  constructor
  · intro h
    split at h
    · exact nomatch h
    · split at h
      · assumption
      · exact nomatch h
  · intro h
    rw [if_neg (Nat.not_lt.2 (le_of_isBoundary h)), if_pos h]

/-- A change is accepted exactly if it fits. -/
theorem error?_eq_none_iff {text : List Char} {n : Numbered} :
    n.error? text = none ↔ n.change.Fits text := by
  simp only [Numbered.error?, Option.orElse_eq_none, offsetError?_eq_none_iff]
  constructor
  · rintro ⟨hstart, hstop, hle⟩
    split at hle
    · exact nomatch hle
    · exact ⟨by omega, le_of_isBoundary hstop, hstart, hstop⟩
  · intro h
    refine ⟨h.start_boundary, h.stop_boundary, ?_⟩
    rw [if_neg (Nat.not_lt.2 h.ordered)]

/-- No error is found in the changes one by one exactly when each fits the text. -/
theorem findSome?_error?_eq_none_iff {text : List Char} {changes : List Change} :
    (number 0 changes).findSome? (Numbered.error? text) = none ↔ ∀ c ∈ changes, c.Fits text := by
  rw [List.findSome?_eq_none_iff, ← forall_mem_byOffset]
  constructor
  · intro h n hn
    exact error?_eq_none_iff.1 (h n (mem_byOffset.1 hn))
  · intro h n hn
    exact error?_eq_none_iff.2 (h n (mem_byOffset.2 hn))

/-! ## The pass over the ordered changes -/

/-- The changes end before the next one starts, each in front of all that follow it. -/
abbrev Apart (ns : List Numbered) : Prop :=
  ns.Pairwise fun a b => a.change.stop ≤ b.change.offset

theorem insertedAt_cons (c : Change) (cs : List Change) (p : Nat) :
    insertedAt (c :: cs) p =
      (if c.offset = p then textBytes c.text else []) ++ insertedAt cs p := by
  by_cases h : c.offset = p <;> simp [insertedAt, h]

theorem coveredAt_cons (c : Change) (cs : List Change) (p : Nat) :
    coveredAt (c :: cs) p = (c.covers p || coveredAt cs p) := by
  simp [coveredAt]

/-- In front of all changes nothing is put in and nothing is taken out. -/
private theorem untouched_before {cs : List Change} {p : Nat} (h : ∀ c ∈ cs, p < c.offset) :
    insertedAt cs p = [] ∧ coveredAt cs p = false := by
  induction cs with
  | nil => exact ⟨rfl, rfl⟩
  | cons c cs ih =>
    have hc : p < c.offset := h c List.mem_cons_self
    obtain ⟨hi, hg⟩ := ih fun d hd => h d (.tail c hd)
    have hne : ¬ c.offset = p := by omega
    have hcov : c.covers p = false := by simp [Change.covers]; omega
    exact ⟨by rw [insertedAt_cons, if_neg hne, hi]; rfl, by rw [coveredAt_cons, hcov, hg]; rfl⟩

/-- Behind the first change the weave is that of the others. -/
private theorem stretch_cons_of_stop_le {bytes : List UInt8} {c : Change} {cs : List Change}
    {lo hi : Nat} (hlo : c.stop ≤ lo) (hne : c.offset < lo) :
    stretch bytes (insertedAt (c :: cs)) (coveredAt (c :: cs)) lo hi =
      stretch bytes (insertedAt cs) (coveredAt cs) lo hi := by
  apply stretch_congr
  intro p hp _
  have hoffset : ¬ c.offset = p := by omega
  have hcov : c.covers p = false := by simp [Change.covers]; omega
  rw [woven, woven, insertedAt_cons, coveredAt_cons, if_neg hoffset, hcov, Bool.false_or,
    List.nil_append]

/-- From the offset of the first change on, the weave is its text, and then the weave of the others
from its end on. -/
private theorem stretch_cons {bytes : List UInt8} {c : Change} {cs : List Change} {hi : Nat}
    (hle : c.offset ≤ c.stop) (hhi : c.stop < hi) (hcs : ∀ d ∈ cs, c.stop ≤ d.offset) :
    stretch bytes (insertedAt (c :: cs)) (coveredAt (c :: cs)) c.offset hi =
      textBytes c.text ++ stretch bytes (insertedAt cs) (coveredAt cs) c.stop hi := by
  have hfirst : woven bytes (insertedAt (c :: cs)) (coveredAt (c :: cs)) c.offset =
      textBytes c.text ++ (insertedAt cs c.offset ++
        if c.covers c.offset || coveredAt cs c.offset then [] else bytes[c.offset]?.toList) := by
    rw [woven, insertedAt_cons, coveredAt_cons, if_pos rfl, List.append_assoc]
  rw [stretch_succ (by omega : c.offset < hi), hfirst, List.append_assoc]
  congr 1
  by_cases hins : c.offset = c.stop
  case pos =>
    -- An insertion takes no byte's place, so others may follow at the same offset
    have hcov : c.covers c.offset = false := by simp [Change.covers]; omega
    rw [hcov, Bool.false_or, stretch_cons_of_stop_le (by omega) (by omega), ← hins,
      stretch_succ (by omega : c.offset < hi)]
    rfl
  case neg =>
    -- The bytes up to `c.stop` are gone, and the others put nothing in there
    have hcov : c.covers c.offset = true := by simp [Change.covers]; omega
    have hbefore : ∀ p < c.stop, insertedAt cs p = [] := fun p hp =>
      (untouched_before fun d hd => Nat.lt_of_lt_of_le hp (hcs d hd)).1
    have hgone : stretch bytes (insertedAt (c :: cs)) (coveredAt (c :: cs)) (c.offset + 1) c.stop = [] := by
      apply stretch_gone
      intro p hp hps
      have hne : ¬ c.offset = p := by omega
      have hcovp : c.covers p = true := by simp [Change.covers]; omega
      refine ⟨?_, by rw [coveredAt_cons, hcovp]; rfl⟩
      rw [insertedAt_cons, if_neg hne, hbefore p hps]
      rfl
    rw [hbefore c.offset (by omega), hcov, Bool.true_or, if_pos rfl,
      ← stretch_append (by omega : c.offset + 1 ≤ c.stop) (by omega : c.stop ≤ hi), hgone,
      stretch_cons_of_stop_le (Nat.le_refl _) (by omega)]
    rfl

/-- The pass succeeds on changes that fit and stand apart, and gives the weave from the cursor on. -/
theorem exists_splice_eq_ok {text : List Char} {ns : List Numbered} (claimant : Option Numbered)
    {cursor : Nat} (hcursor : isBoundary text cursor = true)
    (hfits : ∀ n ∈ ns, n.change.Fits text) (hlo : ∀ n ∈ ns, cursor ≤ n.change.offset)
    (hapart : Apart ns) :
    ∃ out, splice claimant cursor (dropBytes text cursor) ns = .ok out ∧
      utf8Bytes out = stretch (utf8Bytes text) (insertedAt (ns.map Numbered.change))
        (coveredAt (ns.map Numbered.change)) cursor (utf8Length text + 1) := by
  -- Induction on the changes: the cursor is a boundary, and none of the changes left starts before it
  induction ns generalizing claimant cursor with
  | nil =>
    refine ⟨dropBytes text cursor, rfl, ?_⟩
    have hkept : ∀ p, insertedAt [] p = [] ∧ coveredAt [] p = false := fun _ => ⟨rfl, rfl⟩
    rw [List.map_nil, stretch_kept fun p _ _ => hkept p, utf8Bytes_dropBytes hcursor,
      List.take_of_length_le]
    rw [List.length_drop, length_utf8Bytes]
    omega
  | cons n ns ih =>
    obtain ⟨hn, hapart⟩ := List.pairwise_cons.1 hapart
    have hfit := hfits n List.mem_cons_self
    have hle : cursor ≤ n.change.offset := hlo n List.mem_cons_self
    have hstop : cursor ≤ n.change.stop := Nat.le_trans hle hfit.ordered
    obtain ⟨out, hout, hbytes⟩ := ih
      (if n.change.offset < n.change.stop then some n else claimant) hfit.stop_boundary
      (fun m hm => hfits m (.tail n hm)) hn hapart
    refine ⟨takeBytes (dropBytes text cursor) (n.change.offset - cursor) ++
      n.change.text.toList ++ out, ?_, ?_⟩
    · simp only [splice, if_neg (Nat.not_lt.2 hle),
        dropBytes_dropBytes hcursor hfit.stop_boundary hstop, hout]
    -- Up to the first change the text is kept
    · have hkept : stretch (utf8Bytes text) (insertedAt ((n :: ns).map Numbered.change))
          (coveredAt ((n :: ns).map Numbered.change)) cursor n.change.offset =
          utf8Bytes (takeBytes (dropBytes text cursor) (n.change.offset - cursor)) := by
        rw [utf8Bytes_takeBytes (isBoundary_dropBytes hcursor hfit.start_boundary hle),
          utf8Bytes_dropBytes hcursor]
        apply stretch_kept
        intro p _ hp
        apply untouched_before
        intro c hc
        rw [List.map_cons, List.mem_cons] at hc
        rcases hc with rfl | hc
        · exact hp
        · obtain ⟨m, hm, rfl⟩ := List.mem_map.1 hc
          have := hn m hm
          have := hfit.ordered
          omega
      have hstop := hfit.inside
      rw [← stretch_append hle (by have := hfit.ordered; omega), hkept, List.map_cons,
        stretch_cons hfit.ordered (by omega), utf8Bytes_append, utf8Bytes_append, hbytes,
        textBytes_eq, List.append_assoc]
      intro d hd
      obtain ⟨m, hm, rfl⟩ := List.mem_map.1 hd
      exact hn m hm

/-- Where the pass succeeds, no change starts before the cursor, and the changes stand apart. -/
theorem apart_of_splice_eq_ok {ns : List Numbered} {claimant : Option Numbered} {cursor : Nat}
    {rest out : List Char} (hle : ∀ n ∈ ns, n.change.offset ≤ n.change.stop)
    (h : splice claimant cursor rest ns = .ok out) :
    (∀ n ∈ ns, cursor ≤ n.change.offset) ∧ Apart ns := by
  induction ns generalizing claimant cursor rest out with
  | nil => exact ⟨by simp, List.Pairwise.nil⟩
  | cons n ns ih =>
    simp only [splice] at h
    split at h
    · exact nomatch h
    case isFalse hlt =>
      split at h
      case h_2 => exact nomatch h
      case h_1 spliced hspliced =>
        -- The pass goes on behind `n`, so all that follow start behind it
        obtain ⟨hlo, hapart⟩ := ih (fun m hm => hle m (.tail n hm)) hspliced
        have hn := hle n List.mem_cons_self
        refine ⟨fun m hm => ?_, List.pairwise_cons.2 ⟨hlo, hapart⟩⟩
        rcases List.mem_cons.1 hm with rfl | hm
        · omega
        · have := hlo m hm
          omega

/-- What is applied to the characters of a text is applied to the text. -/
theorem apply_of_applyToChars {text : String} {changes : List Change} {out : List Char}
    (h : applyToChars text.toList changes = .ok out) : apply text changes = .ok (String.ofList out) := by
  rw [apply, h]
  rfl

/-- Changes that can be spliced are applied, and the result is the weave. -/
theorem exists_apply_eq_ok {text : String} {changes : List Change}
    (h : Spliceable text.toList changes) :
    ∃ out, apply text changes = .ok out ∧ textBytes out = splicedBytes text.toList changes := by
  have hfits : ∀ n ∈ byOffset (number 0 changes), n.change.Fits text.toList :=
    forall_mem_byOffset.2 h.fits
  obtain ⟨out, hout, hbytes⟩ := exists_splice_eq_ok none (isBoundary_zero text.toList) hfits
    (fun n _ => Nat.zero_le n.change.offset) (pairwise_byOffset_iff.2 h.apart)
  rw [dropBytes_zero] at hout
  refine ⟨String.ofList out, ?_, ?_⟩
  · simp only [apply, applyToChars, findSome?_error?_eq_none_iff.2 h.fits, hout]
    rfl
  · rw [textBytes_ofList, hbytes, splicedBytes, weave_eq_stretch, length_utf8Bytes]
    apply stretch_congr
    intro p _ _
    -- Putting the changes in order leaves them the same at each byte
    have hperm := ((byOffset_perm (number 0 changes)).map Numbered.change)
    rw [map_change_number] at hperm
    have hins : insertedAt ((byOffset (number 0 changes)).map Numbered.change) p =
        insertedAt changes p := by
      rw [insertedAt, insertedAt, ← filter_byOffset p 0 changes, List.filter_map]
      rfl
    have hcov : coveredAt ((byOffset (number 0 changes)).map Numbered.change) p =
        coveredAt changes p := hperm.any_eq
    rw [woven, woven, hins, hcov]

/-- Changes that are applied could be spliced. -/
theorem spliceable_of_apply_eq_ok {text out : String} {changes : List Change}
    (h : apply text changes = .ok out) : Spliceable text.toList changes := by
  simp only [apply, applyToChars] at h
  split at h
  · exact nomatch h
  -- No change is refused by itself, so the pass is made, and it only goes on behind what it has
  -- passed
  case h_2 hnone =>
    have hfits := findSome?_error?_eq_none_iff.1 hnone
    cases hs : splice none 0 text.toList (byOffset (number 0 changes)) with
    | error e => rw [hs] at h; exact nomatch h
    | ok spliced =>
      have hle : ∀ n ∈ byOffset (number 0 changes), n.change.offset ≤ n.change.stop :=
        forall_mem_byOffset.2 fun c hc => (hfits c hc).ordered
      exact ⟨hfits, pairwise_byOffset_iff.1 (apart_of_splice_eq_ok hle hs).2⟩

/-! ## Every slice can be cut -/

/-- The pass over the ordered changes, with every slice cut from the text as it was given by its two
offsets. There is no result when a slice cannot be cut. -/
def spliceCut (text : List Char) (claimant : Option Numbered) (cursor : Nat) :
    List Numbered → Option (Except ApplyError (List Char))
  | [] => (cut? text cursor (utf8Length text)).map .ok
  | n :: ns =>
    if n.change.offset < cursor then some (.error (overlapOf (claimant.getD n) n))
    else
      match cut? text cursor n.change.offset with
      | none => none
      | some kept =>
        let reached := max n.change.offset n.change.stop
        let claimant := if n.change.offset < n.change.stop then some n else claimant
        (spliceCut text claimant reached ns).map fun r =>
          r.map fun spliced => kept ++ n.change.text.toList ++ spliced

/-- `apply` with every slice cut by its two offsets. -/
def applyCut (text : List Char) (changes : List Change) : Option (Except ApplyError (List Char)) :=
  let numbered := number 0 changes
  match numbered.findSome? (Numbered.error? text) with
  | some e => some (.error e)
  | none => spliceCut text none 0 (byOffset numbered)

/-- Over changes that fit, the pass can cut every slice that it needs, whether it ends with a text or
with a conflict. -/
private theorem spliceCut_eq {text : List Char} {ns : List Numbered} (claimant : Option Numbered)
    {cursor : Nat} (hcursor : isBoundary text cursor = true)
    (hfits : ∀ n ∈ ns, n.change.Fits text) :
    spliceCut text claimant cursor ns = some (splice claimant cursor (dropBytes text cursor) ns) := by
  -- Induction on the changes; that the cursor is a boundary is what carries it
  induction ns generalizing claimant cursor with
  | nil => rw [spliceCut, cut?_utf8Length hcursor]; rfl
  | cons n ns ih =>
    have hfit := hfits n List.mem_cons_self
    simp only [spliceCut, splice]
    split
    · rfl
    case isFalse hlt =>
      have hle : cursor ≤ n.change.offset := Nat.not_lt.1 hlt
      have hreached : max n.change.offset n.change.stop = n.change.stop :=
        Nat.max_eq_right hfit.ordered
      rw [cut?_eq_some hcursor hfit.start_boundary hle, hreached]
      simp only [ih _ hfit.stop_boundary fun m hm => hfits m (.tail n hm),
        dropBytes_dropBytes hcursor hfit.stop_boundary (Nat.le_trans hle hfit.ordered)]
      cases splice (if n.change.offset < n.change.stop then some n else claimant) n.change.stop
        (dropBytes text n.change.stop) ns <;> rfl

/-- No cut of a pass over the text fails. -/
theorem applyCut_eq (text : List Char) (changes : List Change) :
    applyCut text changes = some (applyToChars text changes) := by
  simp only [applyCut, applyToChars]
  cases h : (number 0 changes).findSome? (Numbered.error? text) with
  | some e => rfl
  | none =>
    have hfits := forall_mem_byOffset.2 (findSome?_error?_eq_none_iff.1 h)
    rw [spliceCut_eq none (isBoundary_zero text) hfits, dropBytes_zero]

/-! ## The whole -/

/-- Changes are applied exactly when they can be spliced, and the result is then the text with each
change's text put in at its offset and without the bytes that the changes take the place of. Whatever
comes out, every slice on the way can be cut. -/
theorem apply_spec (text : String) (changes : List Change) :
    (match apply text changes with
      | .ok out =>
        Spliceable text.toList changes ∧ textBytes out = splicedBytes text.toList changes
      | .error _ => ¬ Spliceable text.toList changes) ∧
    applyCut text.toList changes = some (applyToChars text.toList changes) := by
  refine ⟨?_, applyCut_eq text.toList changes⟩
  cases h : apply text changes with
  | ok out =>
    have hs := spliceable_of_apply_eq_ok h
    obtain ⟨out', hout', hbytes⟩ := exists_apply_eq_ok hs
    rw [h, Except.ok.injEq] at hout'
    exact ⟨hs, hout' ▸ hbytes⟩
  | error e =>
    intro hs
    obtain ⟨out, hout, _⟩ := exists_apply_eq_ok hs
    rw [h] at hout
    exact nomatch hout

end Enlist.Edit
