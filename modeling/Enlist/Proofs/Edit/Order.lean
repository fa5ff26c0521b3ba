import Enlist.Edit.Splice
import Mathlib.Data.List.Basic

/-!
# The order of changes

Changes are spliced in the order of their offsets, and those at one offset in the order in which they
were given. `Numbered.Before` is that order, and `byOffset` puts the numbered changes of a list into
it.

## Key results

- `mem_number`: the numbered changes of a list are its changes with their places
- `byOffset_perm`: ordering changes neither loses nor adds one
- `pairwise_byOffset`: the changes stand in the order `Before`
- `forall_mem_byOffset`: what holds of the changes one by one
- `pairwise_byOffset_iff`: what holds of any two changes in this order
- `filter_byOffset`: the changes at one offset stay in the order given
-/

namespace Enlist.Edit

/-- One change is spliced before another: its offset is smaller, or it was given first. -/
def Numbered.Before (a b : Numbered) : Prop :=
  a.change.offset < b.change.offset ∨ a.change.offset = b.change.offset ∧ a.index < b.index

theorem Numbered.Before.asymm {a b : Numbered} (h : a.Before b) : ¬ b.Before a := by
  simp only [Numbered.Before] at *
  omega

instance : Std.Asymm Numbered.Before := ⟨fun _ _ h => h.asymm⟩

/-- A change that comes before another one does not begin behind it. -/
theorem Numbered.Before.offset_le {a b : Numbered} (h : a.Before b) :
    a.change.offset ≤ b.change.offset := by
  simp only [Numbered.Before] at h
  omega

/-! ## Numbering -/

/-- The numbered changes of a list are its changes with their places. -/
theorem mem_number {k : Nat} {cs : List Change} {n : Numbered} :
    n ∈ number k cs ↔ k ≤ n.index ∧ cs[n.index - k]? = some n.change := by
  induction cs generalizing k with
  | nil => simp [number]
  | cons c cs ih =>
    simp only [number, List.mem_cons, ih]
    constructor
    · rintro (rfl | ⟨hle, hget⟩)
      · simp
      · have hsub : n.index - k = n.index - (k + 1) + 1 := by omega
        exact ⟨by omega, by rw [hsub, List.getElem?_cons_succ, hget]⟩
    · rintro ⟨hle, hget⟩
      -- The change is the first one or one of the others, which are counted from the next place on
      by_cases hk : n.index = k
      · left
        rw [hk, Nat.sub_self, List.getElem?_cons_zero, Option.some.injEq] at hget
        cases n
        simp_all
      · right
        have hsub : n.index - k = n.index - (k + 1) + 1 := by omega
        rw [hsub, List.getElem?_cons_succ] at hget
        exact ⟨by omega, hget⟩

/-- Changes that are numbered are the changes as they were. -/
theorem map_change_number (k : Nat) (cs : List Change) :
    (number k cs).map Numbered.change = cs := by
  induction cs generalizing k with
  | nil => rfl
  | cons c cs ih => simp [number, ih]

/-! ## Ordering -/

/-- Putting a change in its place only reorders. -/
theorem insertByOffset_perm (n : Numbered) (ms : List Numbered) :
    (insertByOffset n ms).Perm (n :: ms) := by
  induction ms with
  | nil => exact List.Perm.refl _
  | cons m ms ih =>
    simp only [insertByOffset]
    split
    · exact List.Perm.refl _
    · exact (ih.cons m).trans (List.Perm.swap n m ms)

/-- Ordering changes neither loses nor adds one. -/
theorem byOffset_perm (ns : List Numbered) : (byOffset ns).Perm ns := by
  induction ns with
  | nil => exact List.Perm.refl _
  | cons n ns ih => exact (insertByOffset_perm n _).trans (ih.cons n)

/-- A change that was recorded first is put in front of those at its byte, so the order stays right. -/
private theorem pairwise_insertByOffset {n : Numbered} {ms : List Numbered}
    (hn : ∀ m ∈ ms, n.index < m.index) (hms : ms.Pairwise Numbered.Before) :
    (insertByOffset n ms).Pairwise Numbered.Before := by
  induction ms with
  | nil => simp [insertByOffset]
  | cons m ms ih =>
    obtain ⟨hm, hms⟩ := List.pairwise_cons.1 hms
    have hnm : n.index < m.index := hn m List.mem_cons_self
    simp only [insertByOffset]
    split
    case isTrue hle =>
      -- `n` was given before all of `ms`, so it is in front of `m` and with it of all behind `m`
      refine List.pairwise_cons.2 ⟨fun k hk => ?_, List.pairwise_cons.2 ⟨hm, hms⟩⟩
      have hindex := hn k hk
      rcases List.mem_cons.1 hk with rfl | hk
      · simp only [Numbered.Before]; omega
      · have := (hm k hk).offset_le
        simp only [Numbered.Before]; omega
    case isFalse hlt =>
      refine List.pairwise_cons.2 ⟨fun k hk => ?_, ih (fun k hk => hn k (.tail m hk)) hms⟩
      rcases mem_insertByOffset.1 hk with rfl | hk
      · simp only [Numbered.Before]; omega
      · exact hm k hk

/-- Sorted changes are in order: by their bytes, and at one byte as they were recorded. -/
theorem pairwise_byOffset (k : Nat) (cs : List Change) :
    (byOffset (number k cs)).Pairwise Numbered.Before := by
  induction cs generalizing k with
  | nil => exact List.Pairwise.nil
  | cons c cs ih =>
    refine pairwise_insertByOffset (fun m hm => ?_) (ih (k + 1))
    have hle := (mem_number.1 (mem_byOffset.1 hm)).1
    exact hle

/-- What holds of the changes of a list holds of them in the order in which they are spliced. -/
theorem forall_mem_byOffset {p : Change → Prop} {cs : List Change} :
    (∀ n ∈ byOffset (number 0 cs), p n.change) ↔ ∀ c ∈ cs, p c := by
  constructor
  · intro h c hc
    obtain ⟨n, hn, rfl⟩ := List.mem_map.1 ((map_change_number 0 cs).symm ▸ hc)
    exact h n (mem_byOffset.2 hn)
  · intro h n hn
    have hmem := List.mem_map_of_mem (f := Numbered.change) (mem_byOffset.1 hn)
    rw [map_change_number] at hmem
    exact h _ hmem

/-- A list that stands in the order `Before` has a property for any two of its members in their
places exactly when it has it for any two that are in this order. -/
theorem pairwise_iff_of_before {r : Numbered → Numbered → Prop} {ns : List Numbered}
    (hns : ns.Pairwise Numbered.Before) :
    ns.Pairwise r ↔ ∀ a ∈ ns, ∀ b ∈ ns, a.Before b → r a b := by
  constructor
  · intro hr
    -- Induction on the list: `Before` is asymmetric, so the first of two in order stands first
    induction ns with
    | nil => simp
    | cons n ns ih =>
      obtain ⟨hn, hns⟩ := List.pairwise_cons.1 hns
      obtain ⟨hrn, hr⟩ := List.pairwise_cons.1 hr
      intro a ha b hb hab
      rcases List.mem_cons.1 ha with rfl | ha'
      · rcases List.mem_cons.1 hb with rfl | hb'
        · exact absurd hab hab.asymm
        · exact hrn b hb'
      · rcases List.mem_cons.1 hb with rfl | hb'
        · exact absurd (hn a ha') hab.asymm
        · exact ih hns hr a ha' b hb' hab
  · intro h
    exact hns.imp_of_mem fun ha hb hab => h _ ha _ hb hab

/-- Any two changes in the order in which they are spliced are two places, one before the other. -/
theorem pairwise_byOffset_iff {r : Change → Change → Prop} {cs : List Change} :
    (byOffset (number 0 cs)).Pairwise (fun a b => r a.change b.change) ↔
      ∀ (i j : Nat) (a b : Change), cs[i]? = some a → cs[j]? = some b →
        (a.offset < b.offset ∨ a.offset = b.offset ∧ i < j) → r a b := by
  rw [pairwise_iff_of_before (pairwise_byOffset 0 cs)]
  constructor
  · intro h i j a b hi hj hij
    exact h ⟨i, a⟩ (mem_byOffset.2 (mem_number.2 ⟨Nat.zero_le i, hi⟩))
      ⟨j, b⟩ (mem_byOffset.2 (mem_number.2 ⟨Nat.zero_le j, hj⟩)) hij
  · intro h a ha b hb hab
    exact h a.index b.index a.change b.change (mem_number.1 (mem_byOffset.1 ha)).2
      (mem_number.1 (mem_byOffset.1 hb)).2 hab

/-! ## Changes at one offset -/

/-- A change is put in front of the others at its byte, which keep their order. -/
private theorem filter_insertByOffset (p : Nat) (n : Numbered) (ms : List Numbered)
    (hms : ms.Pairwise fun a b => a.change.offset ≤ b.change.offset) :
    (insertByOffset n ms).filter (fun m => m.change.offset == p) =
      (n :: ms).filter fun m => m.change.offset == p := by
  induction ms with
  | nil => rfl
  | cons m ms ih =>
    simp only [insertByOffset]
    split
    · rfl
    case isFalse hlt =>
      rw [List.filter_cons, ih (List.pairwise_cons.1 hms).2]
      -- `n` and `m` have different offsets, so only one of them can be kept
      simp only [List.filter_cons]
      by_cases hm : m.change.offset = p
      · have hn : ¬ n.change.offset = p := by omega
        simp [hm, hn]
      · simp [hm]

/-- The changes at one offset are spliced in the order in which they were given. -/
theorem filter_byOffset (p k : Nat) (cs : List Change) :
    ((byOffset (number k cs)).filter fun n => n.change.offset == p).map Numbered.change =
      cs.filter fun c => c.offset == p := by
  induction cs generalizing k with
  | nil => rfl
  | cons c cs ih =>
    have hle : (byOffset (number (k + 1) cs)).Pairwise fun a b => a.change.offset ≤ b.change.offset :=
      (pairwise_byOffset (k + 1) cs).imp Numbered.Before.offset_le
    rw [number, byOffset, filter_insertByOffset p _ _ hle, List.filter_cons, List.filter_cons]
    simp only
    split
    · rw [List.map_cons, ih]
    · exact ih (k + 1)

end Enlist.Edit
