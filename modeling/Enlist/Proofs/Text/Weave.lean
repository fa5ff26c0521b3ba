import Mathlib.Data.List.Range

/-!
# Weaving texts into bytes

`weave` says byte by byte what an edited text is: in front of every byte, and behind the last, stands
what is put in there, and every byte is kept unless it is gone. Nothing is said of an order in which
the edit goes about it.

## Key results

- `stretch_append`: the weave up to a place and on from it is the weave
- `stretch_kept`: where nothing is put in and nothing gone, the bytes are kept
- `stretch_gone`: where nothing is put in and everything gone, nothing is left
- `weave_congr`: a weave depends on what is put in and gone at each place only
-/

namespace Enlist.Text

/-- What stands at place `p`: what is put in there, and the byte unless it is gone. -/
def woven (bytes : List UInt8) (inserted : Nat → List UInt8) (gone : Nat → Bool) (p : Nat) :
    List UInt8 :=
  inserted p ++ if gone p then [] else bytes[p]?.toList

/-- The bytes with `inserted p` in front of the byte at each place `p`, the place behind the last
included, and without the bytes at the places that are `gone`. -/
def weave (bytes : List UInt8) (inserted : Nat → List UInt8) (gone : Nat → Bool) : List UInt8 :=
  (List.range (bytes.length + 1)).flatMap (woven bytes inserted gone)

/-- The part of a weave from the place `lo` on up to the place `hi`. -/
def stretch (bytes : List UInt8) (inserted : Nat → List UInt8) (gone : Nat → Bool) (lo hi : Nat) :
    List UInt8 :=
  (List.range' lo (hi - lo)).flatMap (woven bytes inserted gone)

variable {bytes : List UInt8} {inserted inserted' : Nat → List UInt8} {gone gone' : Nat → Bool}

/-- A whole weave is the stretch from the first byte to behind the last one. -/
theorem weave_eq_stretch :
    weave bytes inserted gone = stretch bytes inserted gone 0 (bytes.length + 1) := by
  rw [weave, stretch, List.range_eq_range', Nat.sub_zero]

theorem stretch_append {lo mid hi : Nat} (h₁ : lo ≤ mid) (h₂ : mid ≤ hi) :
    stretch bytes inserted gone lo mid ++ stretch bytes inserted gone mid hi =
      stretch bytes inserted gone lo hi := by
  -- `range'` counts in steps, so the start of the second part has to be put into that form
  have hmid : mid = lo + 1 * (mid - lo) := by omega
  have hhi : hi - lo = mid - lo + (hi - mid) := by omega
  rw [stretch, stretch, stretch, hhi, ← List.range'_append, List.flatMap_append, ← hmid]

/-- A stretch begins with what stands at its first byte. -/
theorem stretch_succ {lo hi : Nat} (h : lo < hi) :
    stretch bytes inserted gone lo hi =
      woven bytes inserted gone lo ++ stretch bytes inserted gone (lo + 1) hi := by
  have hlen : hi - lo = hi - (lo + 1) + 1 := by omega
  rw [stretch, stretch, hlen, List.range'_succ, List.flatMap_cons]

/-- A stretch depends on what stands at its bytes only. -/
theorem stretch_congr {lo hi : Nat}
    (h : ∀ p, lo ≤ p → p < hi → woven bytes inserted gone p = woven bytes inserted' gone' p) :
    stretch bytes inserted gone lo hi = stretch bytes inserted' gone' lo hi := by
  rw [stretch, stretch]
  apply List.flatMap_congr
  intro p hp
  rw [List.mem_range'_1] at hp
  exact h p hp.1 (by omega)

/-- A weave depends only on what is put in and what is gone at each place up to the end. -/
theorem weave_congr (hi : ∀ p ≤ bytes.length, inserted p = inserted' p)
    (hg : ∀ p ≤ bytes.length, gone p = gone' p) :
    weave bytes inserted gone = weave bytes inserted' gone' := by
  rw [weave_eq_stretch, weave_eq_stretch]
  apply stretch_congr
  intro p _ hp
  rw [woven, woven, hi p (by omega), hg p (by omega)]

/-- Where nothing is put in and nothing is gone, the bytes are kept. -/
theorem stretch_kept {lo hi : Nat}
    (h : ∀ p, lo ≤ p → p < hi → inserted p = [] ∧ gone p = false) :
    stretch bytes inserted gone lo hi = (bytes.drop lo).take (hi - lo) := by
  -- Induction on the number of places; `lo` moves on with each of them
  induction hn : hi - lo generalizing lo with
  | zero => simp [stretch, hn]
  | succ n ih =>
    have hlo : lo < hi := by omega
    obtain ⟨hins, hgone⟩ := h lo (Nat.le_refl lo) hlo
    rw [stretch_succ hlo, ih (fun p hp => h p (by omega)) (by omega), woven, hins, hgone]
    cases hb : bytes[lo]? with
    | none =>
      rw [List.getElem?_eq_none_iff] at hb
      simp [List.drop_eq_nil_of_le hb, List.drop_eq_nil_of_le (Nat.le_succ_of_le hb)]
    | some b =>
      obtain ⟨hlt, rfl⟩ := List.getElem?_eq_some_iff.1 hb
      rw [List.drop_eq_getElem_cons hlt, List.take_succ_cons]
      rfl

/-- Where everything is left out and nothing goes in, nothing is left. -/
theorem stretch_gone {lo hi : Nat}
    (h : ∀ p, lo ≤ p → p < hi → inserted p = [] ∧ gone p = true) :
    stretch bytes inserted gone lo hi = [] := by
  rw [stretch, List.flatMap_eq_nil_iff]
  intro p hp
  rw [List.mem_range'_1] at hp
  obtain ⟨hins, hgone⟩ := h p hp.1 (by omega)
  rw [woven, hins, hgone]
  rfl

end Enlist.Text
