import Enlist.Json.Value
import Enlist.Proofs.Json.Members
import Mathlib.Data.List.Forall2
import Mathlib.Logic.Relation

/-!
# The order of members

A written value keeps the order in which the members of its objects stand. `Written.Reordered` says that
two values differ in nothing but that order, at any depth. What a value means does not depend on it where
no object repeats a name.

A value is changed in one place at a time: `Within` is a change of one part of a value, and a reader that
does not see a change of a part does not see it in the whole.

## Key results

- `Written.Swapped.noRepeats`: a value without repeated names has none in another order
- `Value.ofWritten?_swapped`: the order of members has no meaning
-/

namespace Enlist.Json

section
variable {α β γ δ : Type}

/-! ## Lists that are read part by part -/

/-- Steps that keep a relation may be done one after the other. -/
theorem rel_bind {R : α → β → Prop} {S : γ → δ → Prop} {x : Option α} {y : Option β}
    {f : α → Option γ} {g : β → Option δ} (h : Option.Rel R x y)
    (hfg : ∀ a b, R a b → Option.Rel S (f a) (g b)) : Option.Rel S (x >>= f) (y >>= g) := by
  cases h with
  | some hab => exact hfg _ _ hab
  | none => exact .none

/-- A step that does not tell related values apart gives the same for both. -/
theorem bind_eq_of_rel {R : α → β → Prop} {x : Option α} {y : Option β} {f : α → Option γ}
    {g : β → Option γ} (h : Option.Rel R x y) (hfg : ∀ a b, R a b → f a = g b) :
    (x >>= f) = (y >>= g) := by
  cases h with
  | some hab => exact hfg _ _ hab
  | none => rfl

/-- A function that does not tell related values apart gives the same for both. -/
theorem map_eq_of_rel {R : α → β → Prop} {x : Option α} {y : Option β} {f : α → γ} {g : β → γ}
    (h : Option.Rel R x y) (hfg : ∀ a b, R a b → f a = g b) : x.map f = y.map g := by
  cases h with
  | some hab => exact congrArg some (hfg _ _ hab)
  | none => rfl

theorem rel_trans {R : α → α → Prop} (hR : ∀ a b c, R a b → R b c → R a c) {x y z : Option α}
    (h : Option.Rel R x y) (h' : Option.Rel R y z) : Option.Rel R x z := by
  cases h with
  | none => exact h'
  | some hab => cases h' with
    | some hbc => exact .some (hR _ _ _ hab hbc)

/-- A reflexive relation is so for values that may be missing. -/
theorem rel_refl {R : α → α → Prop} (hR : ∀ a, R a a) (x : Option α) : Option.Rel R x x := by
  cases x with
  | none => exact .none
  | some a => exact .some (hR a)

/-- Parts that are read one by one may be read in any order. -/
theorem mapM_perm (f : α → Option β) {l l' : List α} (h : l.Perm l') :
    Option.Rel List.Perm (l.mapM f) (l'.mapM f) := by
  induction h with
  | nil => exact .some .nil
  | cons a _ ih =>
    simp only [List.mapM_cons]
    refine rel_bind (rel_refl (fun _ => rfl) (f a)) ?_
    rintro b _ rfl
    exact rel_bind ih fun r r' hr => .some (hr.cons b)
  | swap a b l =>
    simp only [List.mapM_cons]
    -- Of two neighbours, either may be the one that has no value
    cases f a with
    | none => cases f b <;> exact .none
    | some c => cases f b with
      | none => exact .none
      | some d => cases l.mapM f with
        | none => exact .none
        | some r => exact .some (.swap ..)
  | trans _ _ ih ih' => exact rel_trans (fun _ _ _ => .trans) ih ih'

/-- What is read from related lists is related. -/
theorem mapM_rel {R : β → γ → Prop} {f : α → Option β} {g : δ → Option γ} {l : List α}
    {l' : List δ} (h : List.Forall₂ (fun a b => Option.Rel R (f a) (g b)) l l') :
    Option.Rel (List.Forall₂ R) (l.mapM f) (l'.mapM g) := by
  induction h with
  | nil => exact .some .nil
  | cons hab _ ih =>
    simp only [List.mapM_cons]
    exact rel_bind hab fun b c hbc => rel_bind ih fun r r' hr => .some (.cons hbc hr)

/-- Lists whose elements read the same are read the same. -/
theorem mapM_eq {f : α → Option β} {g : δ → Option β} {l : List α} {l' : List δ}
    (h : List.Forall₂ (fun a b => f a = g b) l l') : l.mapM f = l'.mapM g := by
  induction h with
  | nil => rfl
  | cons hab _ ih => rw [List.mapM_cons, List.mapM_cons, hab, ih]

/-- Lists that differ in one place are related if what stands there is. -/
theorem forall₂_around {R : α → α → Prop} (hR : ∀ a, R a a) {a b : α} (h : R a b)
    (before after : List α) : List.Forall₂ R (before ++ a :: after) (before ++ b :: after) :=
  have hsame (l : List α) : List.Forall₂ R l l := List.forall₂_same.2 fun a _ => hR a
  List.rel_append (hsame before) (.cons h (hsame after))

/-- Lists that differ in one place are read the same if what stands there is. -/
theorem mapM_around {f : α → Option β} {a b : α} (h : f a = f b) (before after : List α) :
    (before ++ a :: after).mapM f = (before ++ b :: after).mapM f :=
  mapM_eq (forall₂_around (R := fun a b => f a = f b) (fun _ => rfl) h before after)

/-- The names of what is read are those of the parts that are read. -/
theorem map_fst_of_mapM {name? : α → Option String} {f : α → Option (String × β)}
    (hf : ∀ a b, f a = some b → name? a = some b.1) {l : List α} {r : List (String × β)}
    (h : l.mapM f = some r) : r.map Prod.fst = l.filterMap name? := by
  induction l generalizing r with
  | nil =>
    obtain rfl := Option.some.inj h
    rfl
  | cons a l ih =>
    rw [List.mapM_cons] at h
    obtain ⟨b, hb, h⟩ := Option.bind_eq_some_iff.1 h
    obtain ⟨r', hr', h⟩ := Option.bind_eq_some_iff.1 h
    obtain rfl := Option.some.inj h
    rw [List.map_cons, ih hr', List.filterMap_cons_some (hf a b hb)]

/-- Parts with different names give things with different names, in any order. -/
theorem mapM_perm_nodup (name? : α → Option String) {f : α → Option (String × β)}
    (hf : ∀ a b, f a = some b → name? a = some b.1) {l l' : List α} (h : l.Perm l')
    (hnames : (l.filterMap name?).Nodup) :
    Option.Rel (fun r r' => r.Perm r' ∧ (r.map Prod.fst).Nodup) (l.mapM f) (l'.mapM f) := by
  have hrel := mapM_perm f h
  have hread (r : List (String × β)) (hr : l.mapM f = some r) : (r.map Prod.fst).Nodup :=
    map_fst_of_mapM hf hr ▸ hnames
  generalize l.mapM f = x at hrel hread ⊢
  generalize l'.mapM f = y at hrel ⊢
  cases hrel with
  | none => exact .none
  | some hperm => exact .some ⟨hperm, hread _ rfl⟩

/-- Parts with different names may be read and gathered in any order. -/
theorem ofList_mapM_perm (name? : α → Option String) {f : α → Option (String × β)}
    (hf : ∀ a b, f a = some b → name? a = some b.1) {l l' : List α} (h : l.Perm l')
    (hnames : (l.filterMap name?).Nodup) :
    (l.mapM f).map Members.ofList = (l'.mapM f).map Members.ofList :=
  map_eq_of_rel (mapM_perm_nodup name? hf h hnames) fun _ _ hr => Members.ofList_eq_of_perm hr.1 hr.2

end

namespace Written

/-! ## Values in another order -/

/-- In no object of the value a name is given twice. -/
inductive NoRepeats : Written → Prop
  | null : NoRepeats .null
  | bool (b : Bool) : NoRepeats (.bool b)
  | number (n : Numeral) : NoRepeats (.number n)
  | string (text : Option String) : NoRepeats (.string text)
  | array {vs : List Written} (h : ∀ v ∈ vs, NoRepeats v) : NoRepeats (.array vs)
  | object {ms : List (Option String × Written)} (hnames : (ms.filterMap Prod.fst).Nodup)
    (h : ∀ m ∈ ms, NoRepeats m.2) : NoRepeats (.object ms)

/-- The members of one object, which is the value or stands in it, are in another order. -/
inductive Swapped : Written → Written → Prop
  | here {ms ns : List (Option String × Written)} (h : ms.Perm ns) :
    Swapped (.object ms) (.object ns)
  | element {v w : Written} (before after : List Written) (h : Swapped v w) :
    Swapped (.array (before ++ v :: after)) (.array (before ++ w :: after))
  | member {v w : Written} (before after : List (Option String × Written)) (name : Option String)
    (h : Swapped v w) :
    Swapped (.object (before ++ (name, v) :: after)) (.object (before ++ (name, w) :: after))

/-- Two values differ in nothing but the order in which the members of objects stand. -/
def Reordered : Written → Written → Prop :=
  Relation.ReflTransGen Swapped

attribute [simp] NoRepeats.null NoRepeats.bool NoRepeats.number NoRepeats.string

/-- An array repeats no name if none of its elements does. -/
@[simp] theorem noRepeats_array {vs : List Written} :
    NoRepeats (.array vs) ↔ ∀ v ∈ vs, v.NoRepeats :=
  ⟨fun | .array h => h, .array⟩

/-- An object repeats no name if its names differ and none of its members repeats one. -/
@[simp] theorem noRepeats_object {ms : List (Option String × Written)} :
    NoRepeats (.object ms) ↔ (ms.filterMap Prod.fst).Nodup ∧ ∀ m ∈ ms, m.2.NoRepeats :=
  ⟨fun | .object hnames h => ⟨hnames, h⟩, fun ⟨hnames, h⟩ => .object hnames h⟩

/-- Swapping two members repeats no name. -/
theorem Swapped.noRepeats {v w : Written} (h : Swapped v w) (hv : v.NoRepeats) : w.NoRepeats := by
  -- A swap is made in one object; around it the names of members stay as they are
  induction h with
  | here h =>
    obtain ⟨hnames, hv⟩ := noRepeats_object.1 hv
    exact .object ((h.filterMap _).nodup_iff.1 hnames) fun m hm => hv m (h.mem_iff.2 hm)
  | element before after _ ih =>
    obtain ⟨hbefore, hv⟩ := List.forall_mem_append.1 (noRepeats_array.1 hv)
    obtain ⟨hv, hafter⟩ := List.forall_mem_cons.1 hv
    exact .array (List.forall_mem_append.2 ⟨hbefore, List.forall_mem_cons.2 ⟨ih hv, hafter⟩⟩)
  | member before after name _ ih =>
    obtain ⟨hnames, hv⟩ := noRepeats_object.1 hv
    obtain ⟨hbefore, hv⟩ := List.forall_mem_append.1 hv
    obtain ⟨hv, hafter⟩ := List.forall_mem_cons.1 hv
    refine .object ?_ (List.forall_mem_append.2 ⟨hbefore, List.forall_mem_cons.2 ⟨ih hv, hafter⟩⟩)
    simpa only [List.filterMap_append, List.filterMap_cons] using hnames

/-! ## Changes of a part -/

/-- One element or the value of one member is changed as `R` says, and nothing else. -/
inductive Within (R : Written → Written → Prop) : Written → Written → Prop
  | element {v w : Written} (before after : List Written) (h : R v w) :
    Within R (.array (before ++ v :: after)) (.array (before ++ w :: after))
  | member {v w : Written} (before after : List (Option String × Written)) (name : Option String)
    (h : R v w) :
    Within R (.object (before ++ (name, v) :: after)) (.object (before ++ (name, w) :: after))

/-- The members of an object whose names are different stand in another order. -/
inductive Permuted : Written → Written → Prop
  | mk {ms ns : List (Option String × Written)} (h : ms.Perm ns)
    (hnames : (ms.filterMap Prod.fst).Nodup) : Permuted (.object ms) (.object ns)

/-- A value without repeated names is put in another order in one place. -/
structure Shuffled (v w : Written) : Prop where
  noRepeats : v.NoRepeats
  swapped : Swapped v w

/-- What is shuffled is so at the top, or in one of its parts. -/
theorem Shuffled.permuted_or_within {v w : Written} (h : Shuffled v w) :
    Permuted v w ∨ Within Shuffled v w := by
  obtain ⟨hv, hswapped⟩ := h
  cases hswapped with
  | here h => exact .inl (.mk h (noRepeats_object.1 hv).1)
  | element before after h =>
    exact .inr (.element before after ⟨noRepeats_array.1 hv _ List.mem_append_cons_self, h⟩)
  | member before after name h =>
    have hpart := (noRepeats_object.1 hv).2 _ List.mem_append_cons_self
    exact .inr (.member before after name ⟨hpart, h⟩)

end Written

/-! ## Meaning -/

namespace Value

/-- What a member means. -/
def memberOf? (levels : Nat) (m : Option String × Written) : Option (String × Value) := do
  let name ← m.1
  let value ← ofWritten? levels m.2
  return (name, value)

/-- An object is read by reading its members one by one. -/
theorem ofWritten?_object (below : Nat) (ms : List (Option String × Written)) :
    ofWritten? (below + 1) (.object ms) =
      ((ms.mapM (memberOf? below)).map Members.ofList).map .object := by
  rw [ofWritten?, Option.map_map]
  rfl

/-- A member that is read keeps its name. -/
theorem fst_of_memberOf? {levels : Nat} {m : Option String × Written} {r : String × Value}
    (h : memberOf? levels m = some r) : m.1 = some r.1 := by
  obtain ⟨name, hname, h⟩ := Option.bind_eq_some_iff.1 h
  obtain ⟨value, -, h⟩ := Option.bind_eq_some_iff.1 h
  obtain rfl := Option.some.inj h
  exact hname

/-- A member is read as its value is. -/
theorem memberOf?_congr {levels : Nat} {v w : Written} (name : Option String)
    (h : ofWritten? levels v = ofWritten? levels w) :
    memberOf? levels (name, v) = memberOf? levels (name, w) := by
  rw [memberOf?, memberOf?, h]

/-- The order of members has no meaning where no name is given twice. -/
theorem ofWritten?_shuffled {levels : Nat} {v w : Written} (h : v.Shuffled w) :
    ofWritten? levels v = ofWritten? levels w := by
  -- Induction on the levels, as the values inside are one level further down
  induction levels generalizing v w with
  | zero => obtain ⟨_, _⟩ | ⟨_, _, _⟩ := h.permuted_or_within <;> rfl
  | succ below ih =>
    obtain ⟨hperm, hnames⟩ | hwithin := h.permuted_or_within
    · rw [ofWritten?_object, ofWritten?_object,
        ofList_mapM_perm Prod.fst (fun _ _ => fst_of_memberOf?) hperm hnames]
    · cases hwithin with
      | element before after hpart =>
        rw [ofWritten?, ofWritten?, mapM_around (ih hpart) before after]
      | member before after name hpart =>
        rw [ofWritten?_object, ofWritten?_object,
          mapM_around (memberOf?_congr name (ih hpart)) before after]

end Value

end Enlist.Json
