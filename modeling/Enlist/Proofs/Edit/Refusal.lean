import Enlist.Proofs.Edit.Splice

/-!
# Why changes are refused

Changes that cannot be applied are refused with one error. It names the first change of the list that
does not fit the text by itself; only when each of them fits, it names two that are in conflict. These
are neighbours in the order in which changes are spliced: `splice` remembers the last change that took
some bytes, and a change can start in front of the cursor only when that is the one right before it.

## Key results

- `error?_eq_some_iff`: the error of a change by itself
- `exists_neighbours_of_splice`: the two changes that the pass over the ordered changes names
- `Conflict.unique` / `Refusal.unique`: there is one error at most
- `apply_eq_error_iff`: changes are refused with the error that `Refusal` speaks of
-/

namespace Enlist.Edit

open Text

/-! ## Changes that do not fit -/

/-- What is wrong with the change at place `i` by itself. Its offset is looked at first, then its end,
and last the order of the two; of both it matters first that they lie in the text, and then that they lie
between two characters. -/
inductive Fault (text : List Char) (i : Nat) (c : Change) : ApplyError → Prop where
  | startBehind (h : utf8Length text < c.offset) :
      Fault text i c (.outOfBounds i c.offset (utf8Length text))
  | startInside (hle : c.offset ≤ utf8Length text) (h : isBoundary text c.offset = false) :
      Fault text i c (.notBoundary i c.offset)
  | stopBehind (hstart : isBoundary text c.offset = true) (h : utf8Length text < c.stop) :
      Fault text i c (.outOfBounds i c.stop (utf8Length text))
  | stopInside (hstart : isBoundary text c.offset = true) (hle : c.stop ≤ utf8Length text)
      (h : isBoundary text c.stop = false) : Fault text i c (.notBoundary i c.stop)
  | reversed (hstart : isBoundary text c.offset = true) (hstop : isBoundary text c.stop = true)
      (h : c.stop < c.offset) : Fault text i c (.notBoundary i c.stop)

/-- An offset is refused behind the end of the text, or inside a character, in this order. -/
private theorem offsetError?_eq_some_iff {text : List Char} {index offset : Nat} {e : ApplyError} :
    offsetError? text index offset = some e ↔
      utf8Length text < offset ∧ e = .outOfBounds index offset (utf8Length text) ∨
      offset ≤ utf8Length text ∧ isBoundary text offset = false ∧ e = .notBoundary index offset := by
  simp only [offsetError?]
  by_cases hlt : utf8Length text < offset
  · simp [hlt, Nat.not_le.2 hlt, @eq_comm _ e]
  · cases isBoundary text offset <;> simp [hlt, Nat.not_lt.1 hlt, @eq_comm _ e]

/-- The error of a change by itself. -/
theorem error?_eq_some_iff {text : List Char} {n : Numbered} {e : ApplyError} :
    n.error? text = some e ↔ Fault text n.index n.change e := by
  simp only [Numbered.error?, Option.orElse_eq_some, offsetError?_eq_some_iff,
    offsetError?_eq_none_iff]
  -- Each check speaks only when all in front of it were passed
  constructor
  · rintro ((⟨h, rfl⟩ | ⟨hle, h, rfl⟩) |
      ⟨hstart, (⟨h, rfl⟩ | ⟨hle, h, rfl⟩) | ⟨hstop, hrest⟩⟩)
    · exact .startBehind h
    · exact .startInside hle h
    · exact .stopBehind hstart h
    · exact .stopInside hstart hle h
    · split at hrest
      case isTrue h => exact Option.some.inj hrest ▸ .reversed hstart hstop h
      case isFalse => cases hrest
  · intro h
    cases h with
    | startBehind h => exact .inl (.inl ⟨h, rfl⟩)
    | startInside hle h => exact .inl (.inr ⟨hle, h, rfl⟩)
    | stopBehind hstart h => exact .inr ⟨hstart, .inl (.inl ⟨h, rfl⟩)⟩
    | stopInside hstart hle h => exact .inr ⟨hstart, .inl (.inr ⟨hle, h, rfl⟩)⟩
    | reversed hstart hstop h => exact .inr ⟨hstart, .inr ⟨hstop, if_pos h⟩⟩

/-- A change with a fault does not fit. -/
theorem Fault.not_fits {text : List Char} {i : Nat} {c : Change} {e : ApplyError}
    (h : Fault text i c e) : ¬ c.Fits text := by
  intro hfits
  have hnone := error?_eq_none_iff (n := ⟨i, c⟩).2 hfits
  rw [error?_eq_some_iff.2 h] at hnone
  cases hnone

/-- In a list that stands in some order, what comes before a member is in front of it. -/
private theorem mem_front_of_pairwise {r : Numbered → Numbered → Prop} [Std.Asymm r]
    {front back : List Numbered} {n m : Numbered} (h : (front ++ n :: back).Pairwise r)
    (hm : m ∈ front ++ n :: back) (hmn : r m n) : m ∈ front := by
  obtain ⟨_, hbehind, _⟩ := List.pairwise_append.1 h
  rcases List.mem_append.1 hm with hm | hm
  · exact hm
  · rcases List.mem_cons.1 hm with rfl | hm
    · exact absurd hmn (Std.Asymm.asymm _ _ hmn)
    · exact absurd hmn (Std.Asymm.asymm _ _ ((List.pairwise_cons.1 hbehind).1 m hm))

private instance : Std.Asymm fun a b : Numbered => a.index < b.index :=
  ⟨fun _ _ => Nat.lt_asymm⟩

/-- The places of a list are counted up. -/
private theorem pairwise_number (k : Nat) (cs : List Change) :
    (number k cs).Pairwise fun a b => a.index < b.index := by
  induction cs generalizing k with
  | nil => exact List.Pairwise.nil
  | cons c cs ih => exact List.pairwise_cons.2 ⟨fun n hn => (mem_number.1 hn).1, ih (k + 1)⟩

/-- What is found in the changes one by one is the error of the first that does not fit. -/
private theorem exists_fault_of_findSome? {text : List Char} {changes : List Change} {e : ApplyError}
    (h : (number 0 changes).findSome? (Numbered.error? text) = some e) :
    ∃ n ∈ number 0 changes, (∀ m ∈ number 0 changes, m.index < n.index → m.change.Fits text) ∧
      Fault text n.index n.change e := by
  obtain ⟨front, n, back, hnumber, hn, hfront⟩ := List.findSome?_eq_some_iff.1 h
  have hcounted := pairwise_number 0 changes
  rw [hnumber] at hcounted ⊢
  refine ⟨n, List.mem_append_right front List.mem_cons_self, fun m hm hlt => ?_,
    error?_eq_some_iff.1 hn⟩
  exact error?_eq_none_iff.1 (hfront m (mem_front_of_pairwise hcounted hm hlt))

/-! ## Changes in conflict -/

/-- Two changes are in conflict: the second starts inside the bytes whose place the first takes. In the
order of the changes the first stands right before the second, and the second is the earliest one that
starts before the end of one in front of it. -/
structure Conflict (changes : List Change) (first second : Numbered) : Prop where
  first_mem : first ∈ number 0 changes
  second_mem : second ∈ number 0 changes
  index_ne : first.index ≠ second.index
  before : first.Before second
  next : ∀ n ∈ number 0 changes, first.Before n → ¬ n.Before second
  start_le : first.change.offset ≤ second.change.offset
  lt_stop : second.change.offset < first.change.stop
  earliest : ∀ a ∈ number 0 changes, ∀ b ∈ number 0 changes, a.Before b → b.Before second →
    a.change.stop ≤ b.change.offset

/-- The changes of a list are known by their places. -/
private theorem eq_of_index_eq {changes : List Change} {a b : Numbered} (ha : a ∈ number 0 changes)
    (hb : b ∈ number 0 changes) (h : a.index = b.index) : a = b := by
  have hget := (mem_number.1 ha).2
  rw [h, (mem_number.1 hb).2, Option.some.injEq] at hget
  cases a
  cases b
  simp_all

/-- Of two different changes one comes before the other. -/
private theorem before_trichotomy {changes : List Change} {a b : Numbered}
    (ha : a ∈ number 0 changes) (hb : b ∈ number 0 changes) : a.Before b ∨ a = b ∨ b.Before a := by
  by_cases h : a.index = b.index
  · exact .inr (.inl (eq_of_index_eq ha hb h))
  · simp only [Numbered.Before]
    omega

/-- No other two changes are in conflict as these are. -/
theorem Conflict.unique {changes : List Change} {first second first' second' : Numbered}
    (h : Conflict changes first second) (h' : Conflict changes first' second') :
    first = first' ∧ second = second' := by
  -- Of two second changes the later one would not be the earliest
  have hsecond : second = second' := by
    rcases before_trichotomy h.second_mem h'.second_mem with hlt | heq | hlt
    · exact absurd h.lt_stop
        (Nat.not_lt.2 (h'.earliest first h.first_mem second h.second_mem h.before hlt))
    · exact heq
    · exact absurd h'.lt_stop
        (Nat.not_lt.2 (h.earliest first' h'.first_mem second' h'.second_mem h'.before hlt))
  subst hsecond
  refine ⟨?_, rfl⟩
  -- Of two first changes the later one would stand between the earlier one and the second
  rcases before_trichotomy h.first_mem h'.first_mem with hlt | heq | hlt
  · exact absurd h'.before (h.next first' h'.first_mem hlt)
  · exact heq
  · exact absurd h.before (h'.next first h.first_mem hlt)

/-- Where the pass over ordered changes ends in an error behind the change `n`, the error names two
neighbours, of which the second is the first to start before the end of one in front of it. -/
theorem exists_neighbours_of_splice {n : Numbered} {ns : List Numbered}
    {claimant : Option Numbered} {rest : List Char} {e : ApplyError}
    (hclaimant : n.change.offset < n.change.stop → claimant = some n)
    (hle : ∀ m ∈ ns, m.change.offset ≤ m.change.stop)
    (hordered : (n :: ns).Pairwise fun a b => a.change.offset ≤ b.change.offset)
    (h : splice claimant n.change.stop rest ns = .error e) :
    ∃ front first second back, n :: ns = front ++ first :: second :: back ∧
      Apart (front ++ [first]) ∧ second.change.offset < first.change.stop ∧
      e = overlapOf first second := by
  -- Induction on the changes: the cursor is the end of the change in front of them, and that is the
  -- claimant unless it took no bytes
  induction ns generalizing n claimant rest with
  | nil => cases h
  | cons m ns ih =>
    obtain ⟨hn, hns⟩ := List.pairwise_cons.1 hordered
    have hnm := hn m List.mem_cons_self
    simp only [splice] at h
    split at h
    case isTrue hlt =>
      rw [hclaimant (Nat.lt_of_le_of_lt hnm hlt)] at h
      exact ⟨[], n, m, ns, rfl, List.pairwise_singleton _ _, hlt, (Except.error.inj h).symm⟩
    case isFalse hlt =>
      split at h
      case h_1 => cases h
      case h_2 herror =>
        cases h
        obtain ⟨front, first, second, back, hsplit, hapart, hinside, he⟩ :=
          ih (fun hbytes => if_pos hbytes) (fun k hk => hle k (.tail m hk)) hns herror
        refine ⟨n :: front, first, second, back, by rw [hsplit, List.cons_append],
          List.pairwise_cons.2 ⟨fun k hk => ?_, hapart⟩, hinside, he⟩
        -- All changes that follow start behind the end of `n`, as the next one does
        have hmem : k ∈ m :: ns := by
          rw [hsplit, List.append_cons]
          exact List.mem_append_left _ hk
        have hmk : m.change.offset ≤ k.change.offset := by
          rcases List.mem_cons.1 hmem with rfl | hk
          · exact Nat.le_refl _
          · exact (List.pairwise_cons.1 hns).1 k hk
        exact Nat.le_trans (Nat.not_lt.1 hlt) hmk

/-- Neighbours in the order of the changes, of which the second is the first to start before the end of
one in front of it, are in conflict. -/
private theorem conflict_of_neighbours {changes : List Change} {front back : List Numbered}
    {first second : Numbered} (hsplit : byOffset (number 0 changes) = front ++ first :: second :: back)
    (hapart : Apart (front ++ [first])) (hlt : second.change.offset < first.change.stop) :
    Conflict changes first second := by
  have hordered := pairwise_byOffset 0 changes
  have hmem (n : Numbered) : n ∈ number 0 changes ↔ n ∈ (front ++ [first]) ++ second :: back := by
    rw [← mem_byOffset, hsplit, List.append_assoc, List.singleton_append]
  rw [hsplit, List.append_cons] at hordered
  obtain ⟨hfront, _, hcross⟩ := List.pairwise_append.1 hordered
  have hfirst : first ∈ front ++ [first] := List.mem_append_right front List.mem_cons_self
  have hbefore : first.Before second := hcross first hfirst second List.mem_cons_self
  -- What goes in front of the second change was passed before the conflict
  have hinFront {n : Numbered} (hn : n ∈ number 0 changes) (h : n.Before second) :
      n ∈ front ++ [first] :=
    mem_front_of_pairwise hordered ((hmem n).1 hn) h
  have hfirstMem := (hmem first).2 (List.mem_append_left _ hfirst)
  have hsecondMem := (hmem second).2 (List.mem_append_right _ List.mem_cons_self)
  refine ⟨hfirstMem, hsecondMem, fun hindex => ?_, hbefore, fun n hn hfn hns => ?_, hbefore.offset_le,
    hlt, fun a ha b hb hab hbs => ?_⟩
  · have heq := eq_of_index_eq hfirstMem hsecondMem hindex
    rw [heq] at hbefore
    exact hbefore.asymm hbefore
  · -- Between the two there is no place: what is in front of the second is `first` or in front of it
    rcases List.mem_append.1 (hinFront hn hns) with hn | hn
    · exact hfn.asymm ((List.pairwise_append.1 hfront).2.2 n hn first List.mem_cons_self)
    · rw [List.mem_singleton.1 hn] at hfn
      exact hfn.asymm hfn
  · -- Both stand in front of the second, and there the changes are apart
    have has : a.Before second := by
      simp only [Numbered.Before] at hab hbs ⊢
      omega
    exact (pairwise_iff_of_before hfront).1 hapart a (hinFront ha has) b (hinFront hb hbs) hab

/-! ## The error -/

/-- The error with which changes are refused: that of the first change which does not fit the text, or,
when each fits, that of two changes in conflict. -/
inductive Refusal (text : List Char) (changes : List Change) : ApplyError → Prop where
  | fault {n : Numbered} {e : ApplyError} (hn : n ∈ number 0 changes)
      (hfirst : ∀ m ∈ number 0 changes, m.index < n.index → m.change.Fits text)
      (h : Fault text n.index n.change e) : Refusal text changes e
  | conflict {first second : Numbered} (hfits : ∀ c ∈ changes, c.Fits text)
      (h : Conflict changes first second) :
      Refusal text changes (.overlap first.index second.index first.change.offset first.change.stop
        second.change.offset second.change.stop)

namespace Refusal

variable {text : List Char} {changes : List Change} {e e' : ApplyError}

/-- Numbering adds no change. -/
private theorem mem_of_mem_number {n : Numbered} (h : n ∈ number 0 changes) : n.change ∈ changes :=
  List.mem_of_getElem? (mem_number.1 h).2

/-- There is one error at most. -/
theorem unique (h : Refusal text changes e) (h' : Refusal text changes e') : e = e' := by
  cases h with
  | fault hn hfirst hfault =>
    cases h' with
    | fault hn' hfirst' hfault' =>
      rename_i n n'
      -- Of two faults the one with the smaller index is reported
      rcases Nat.lt_trichotomy n.index n'.index with hlt | heq | hlt
      · exact absurd (hfirst' n hn hlt) hfault.not_fits
      · obtain rfl := eq_of_index_eq hn hn' heq
        exact Option.some.inj ((error?_eq_some_iff.2 hfault).symm.trans (error?_eq_some_iff.2 hfault'))
      · exact absurd (hfirst n' hn' hlt) hfault'.not_fits
    | conflict hfits _ => exact absurd (hfits _ (mem_of_mem_number hn)) hfault.not_fits
  | conflict hfits hconflict =>
    cases h' with
    | fault hn' _ hfault' => exact absurd (hfits _ (mem_of_mem_number hn')) hfault'.not_fits
    | conflict _ hconflict' =>
      obtain ⟨rfl, rfl⟩ := hconflict.unique hconflict'
      rfl

/-- Changes with an error cannot be spliced. -/
theorem not_spliceable (h : Refusal text changes e) : ¬ Spliceable text changes := by
  intro hs
  cases h with
  | fault hn _ hfault => exact hfault.not_fits (hs.fits _ (mem_of_mem_number hn))
  | conflict _ hconflict =>
    refine absurd hconflict.lt_stop (Nat.not_lt.2 ?_)
    exact hs.apart _ _ _ _ (mem_number.1 hconflict.first_mem).2 (mem_number.1 hconflict.second_mem).2
      hconflict.before

end Refusal

/-- Changes that are not applied are refused for a reason. -/
private theorem refusal_of_apply {text : String} {changes : List Change} {e : ApplyError}
    (h : apply text changes = .error e) : Refusal text.toList changes e := by
  -- A text is refused exactly when its characters are
  have hchars : applyToChars text.toList changes = .error e := by
    rw [apply] at h
    cases hchars : applyToChars text.toList changes with
    | ok out =>
      rw [hchars] at h
      cases h
    | error e' =>
      rw [hchars] at h
      exact congrArg Except.error (Except.error.inj h)
  simp only [applyToChars] at hchars
  split at hchars
  case h_1 e' hfind =>
    obtain ⟨n, hn, hfirst, hfault⟩ := exists_fault_of_findSome? hfind
    exact Except.error.inj hchars ▸ .fault hn hfirst hfault
  case h_2 hnone =>
    have hfits := findSome?_error?_eq_none_iff.1 hnone
    have hle : ∀ n ∈ byOffset (number 0 changes), n.change.offset ≤ n.change.stop :=
      forall_mem_byOffset.2 fun c hc => (hfits c hc).ordered
    have hordered := (pairwise_byOffset 0 changes).imp Numbered.Before.offset_le
    cases hns : byOffset (number 0 changes) with
    | nil => rw [hns] at hchars; cases hchars
    | cons n ns =>
      rw [hns] at hchars hle hordered
      -- The first change starts behind the cursor, which is at the beginning
      simp only [splice, Nat.not_lt_zero, if_false] at hchars
      split at hchars
      case h_1 => cases hchars
      case h_2 e' herror =>
        obtain ⟨front, first, second, back, hsplit, hapart, hlt, rfl⟩ :=
          exists_neighbours_of_splice (fun hbytes => if_pos hbytes)
            (fun m hm => hle m (.tail n hm)) hordered herror
        rw [← Except.error.inj hchars]
        exact .conflict hfits (conflict_of_neighbours (hns.trans hsplit) hapart hlt)

/-- Changes are refused with the error that `Refusal` speaks of, and with no other. -/
theorem apply_eq_error_iff {text : String} {changes : List Change} {e : ApplyError} :
    apply text changes = .error e ↔ Refusal text.toList changes e := by
  constructor
  · exact refusal_of_apply
  · intro h
    cases happly : apply text changes with
    | ok out => exact absurd (spliceable_of_apply_eq_ok happly) h.not_spliceable
    | error e' => exact congrArg Except.error ((refusal_of_apply happly).unique h)

end Enlist.Edit
