import Enlist.Json.Record
import Enlist.Proofs.Json.Order

/-!
# Records that are changed in one place

How a record is read does not depend on the order of its members, nor on members with names that are no
fields of it. Where the value of one field is changed, the fields that are read are the same but for that
value.

## Key results

- `Written.fields?_permuted`: the fields of a record whose members stand in another order
- `Written.fields?_gains`: the fields of a record with one more member
- `Written.sameFields_within`: the fields of a record in which one value is changed
-/

namespace Enlist.Json.Written

variable {R : Written → Written → Prop} {v w : Written}

/-! ## Values with parts -/

/-- Arrays and objects. -/
inductive HasParts : Written → Prop
  | array (vs : List Written) : HasParts (.array vs)
  | object (ms : List (Option String × Written)) : HasParts (.object ms)

/-- What is changed has parts before and after. -/
def BetweenParts (R : Written → Written → Prop) : Prop :=
  ∀ v w, R v w → v.HasParts ∧ w.HasParts

/-- What differs inside of a part is still of the same form. -/
theorem betweenParts_within : BetweenParts (Within R) := by
  rintro _ _ (_ | _)
  · exact ⟨.array _, .array _⟩
  · exact ⟨.object _, .object _⟩

/-- What is shuffled is still of the same form. -/
theorem betweenParts_shuffled : BetweenParts Shuffled := by
  intro v w h
  obtain ⟨_, _⟩ | hwithin := h.permuted_or_within
  · exact ⟨.object _, .object _⟩
  · exact betweenParts_within v w hwithin

/-- A reader of a value that may be missing does not see what is changed. -/
def Unseen {α : Type} (R : Written → Written → Prop) (read : Option Written → Option α) : Prop :=
  ∀ v w, R v w → read (some v) = read (some w)

/-- A reader that does not see a difference reads the same, also where there is nothing. -/
theorem Unseen.eq_of_rel {α : Type} {read : Option Written → Option α} (h : Unseen R read)
    {a b : Option Written} (hab : Option.Rel (Relation.ReflGen R) a b) : read a = read b := by
  cases hab with
  | none => rfl
  | some hvw => cases hvw with
    | refl => rfl
    | single hvw => exact h _ _ hvw

/-- What is neither read from arrays nor from objects does not see a change of one. -/
theorem BetweenParts.unseen {α : Type} (hR : BetweenParts R) {read : Option Written → Option α}
    (hread : ∀ v : Written, v.HasParts → read (some v) = none) : Unseen R read := by
  intro v w h
  rw [hread v (hR v w h).1, hread w (hR v w h).2]

/-- Reading a text does not look inside of arrays and objects. -/
theorem BetweenParts.unseen_optionalText? (hR : BetweenParts R) : Unseen R optionalText? :=
  hR.unseen fun _ h => by cases h <;> rfl

/-- Reading a number does not look inside of arrays and objects. -/
theorem BetweenParts.unseen_optionalNatural? (hR : BetweenParts R) (limit : Nat) :
    Unseen R (optionalNatural? limit) :=
  hR.unseen fun _ h => by cases h <;> rfl

/-- Reading a text with a default does not look inside of arrays and objects. -/
theorem BetweenParts.unseen_textOr? (hR : BetweenParts R) (default : String) :
    Unseen R (textOr? default) :=
  hR.unseen fun _ h => by cases h <;> rfl

/-! ## Named members -/

/-- An object gets one more member, whose name is none of those that are known. -/
inductive Gains (known : List String) : Written → Written → Prop
  | mk (before after : List (Option String × Written)) {name : String} (h : name ∉ known)
    (v : Written) :
    Gains known (.object (before ++ after)) (.object (before ++ (some name, v) :: after))

/-- Two members with one name, whose values are the same or changed as `R` says. -/
def SameName (R : Written → Written → Prop) (m n : String × Written) : Prop :=
  m.1 = n.1 ∧ Relation.ReflGen R m.2 n.2

/-- The members of an object whose names are different, in another order. -/
theorem namedMembers?_perm {ms ns : List (Option String × Written)} (h : ms.Perm ns)
    (hnames : (ms.filterMap Prod.fst).Nodup) :
    Option.Rel (fun r r' => r.Perm r' ∧ (r.map Prod.fst).Nodup) (namedMembers? ms)
      (namedMembers? ns) := by
  refine mapM_perm_nodup Prod.fst (fun m r hr => ?_) h hnames
  obtain ⟨name, hname, rfl⟩ := Option.map_eq_some_iff.1 hr
  exact hname

/-- The members of an object in which the value of one member is changed. -/
theorem namedMembers?_within (h : R v w) (before after : List (Option String × Written))
    (name : Option String) :
    Option.Rel (List.Forall₂ (SameName R)) (namedMembers? (before ++ (name, v) :: after))
      (namedMembers? (before ++ (name, w) :: after)) := by
  let Read (m n : Option String × Written) : Prop :=
    Option.Rel (SameName R) (m.1.map fun name => (name, m.2)) (n.1.map fun name => (name, n.2))
  have hsame (m : Option String × Written) : Read m m := rel_refl (fun _ => ⟨rfl, .refl⟩) _
  have hchanged : Read (name, v) (name, w) := by
    cases name with
    | none => exact .none
    | some name => exact .some ⟨rfl, .single h⟩
  exact mapM_rel (forall₂_around (R := Read) hsame hchanged before after)

/-- The members of an object that gets one more. -/
theorem namedMembers?_gains (before after : List (Option String × Written)) (name : String)
    (v : Written) :
    Option.Rel (fun ms ns => ∃ b a, ms = b ++ a ∧ ns = b ++ (name, v) :: a)
      (namedMembers? (before ++ after)) (namedMembers? (before ++ (some name, v) :: after)) := by
  rw [namedMembers?, namedMembers?, List.mapM_append, List.mapM_append, List.mapM_cons]
  refine rel_bind (rel_refl (fun _ => rfl) _) ?_
  rintro b _ rfl
  simp only [Option.map_some, Option.bind_eq_bind, Option.bind_some, Option.bind_assoc]
  refine rel_bind (rel_refl (fun _ => rfl) _) ?_
  rintro a _ rfl
  exact .some ⟨b, a, rfl, rfl⟩

/-! ## Values by name -/

/-- Reads and gathers the values of named members. -/
def readNamed? {α : Type} (read : Written → Option α) (ms : List (String × Written)) :
    Option (List (String × α)) :=
  let values := ms.mapM fun (name, v) => (read v).map fun a => (name, a)
  values.map Members.ofList

/-- The order of members with different names does not matter to a table of them. -/
theorem readNamed?_perm {α : Type} (read : Written → Option α) {ms ns : List (String × Written)}
    (h : ms.Perm ns) (hnames : (ms.map Prod.fst).Nodup) : readNamed? read ms = readNamed? read ns := by
  refine ofList_mapM_perm (some ∘ Prod.fst) (fun m r hr => ?_) h ?_
  · obtain ⟨a, -, rfl⟩ := Option.map_eq_some_iff.1 hr
    rfl
  · rwa [List.filterMap_eq_map]

/-- A table is read from its members without what their reader does not see. -/
theorem readNamed?_rel {α : Type} {read : Written → Option α}
    (hread : ∀ v w, R v w → read v = read w) {ms ns : List (String × Written)}
    (h : List.Forall₂ (SameName R) ms ns) : readNamed? read ms = readNamed? read ns := by
  refine congrArg (Option.map Members.ofList) (mapM_eq (h.imp ?_))
  rintro ⟨name, v⟩ ⟨_, w⟩ ⟨rfl, hvw⟩
  cases hvw with
  | refl => rfl
  | single hvw => simp only [hread v w hvw]

/-! ## Fields -/

/-- The values of the fields are the same or changed as `R` says. -/
def SameFields (R : Written → Written → Prop) (fields : List (List String)) (v w : Written) : Prop :=
  Option.Rel (List.Forall₂ (Option.Rel (Relation.ReflGen R))) (v.fields? fields) (w.fields? fields)

/-- Objects that give the same for all fields have the same fields. -/
theorem sameFields_of_eq {fields : List (List String)} (h : v.fields? fields = w.fields? fields) :
    SameFields R fields v w := by
  rw [SameFields, h]
  exact rel_refl (fun _ => List.forall₂_same.2 fun _ _ => rel_refl (fun _ => .refl) _) _

/-- The order of members does not matter to what a field gives. -/
theorem field?_perm {ms ns : List (String × Written)} (h : ms.Perm ns) (names : List String) :
    field? ms names = field? ns names := by
  have hfilter := h.filter fun m => names.contains m.1
  rw [field?, field?]
  generalize ms.filter _ = a at hfilter ⊢
  generalize ns.filter _ = b at hfilter ⊢
  match a, b with
  | [], b =>
    obtain rfl := hfilter.nil_eq
    rfl
  | [m], b =>
    obtain rfl := List.singleton_perm.1 hfilter
    rfl
  -- A field that is given more than once is refused, and so it is in any order
  | _ :: _ :: _, [] => exact nomatch hfilter.length_eq
  | _ :: _ :: _, [_] => exact nomatch hfilter.length_eq
  | _ :: _ :: _, _ :: _ :: _ => rfl

/-- Fields of related members are related. -/
theorem field?_rel {ms ns : List (String × Written)} (h : List.Forall₂ (SameName R) ms ns)
    (names : List String) :
    Option.Rel (Option.Rel (Relation.ReflGen R)) (field? ms names) (field? ns names) := by
  have hfilter : List.Forall₂ (SameName R) (ms.filter fun m => names.contains m.1)
      (ns.filter fun m => names.contains m.1) :=
    List.rel_filter (fun m n hmn => by simp only [hmn.1]) h
  rw [field?, field?]
  generalize ms.filter _ = a at hfilter ⊢
  generalize ns.filter _ = b at hfilter ⊢
  obtain _ | ⟨hm, _ | ⟨_, _⟩⟩ := hfilter
  · exact .some .none
  · exact .some (.some hm.2)
  · exact .none

/-- A member of another name does not matter to a field. -/
theorem field?_gains {name : String} {names : List String} (h : name ∉ names)
    (before after : List (String × Written)) (v : Written) :
    field? (before ++ after) names = field? (before ++ (name, v) :: after) names := by
  rw [field?, field?, List.filter_append, List.filter_append, List.filter_cons_of_neg (by simpa using h)]

/-- The order of its members does not matter in a record. -/
theorem fields?_permuted (h : Permuted v w) (fields : List (List String)) :
    v.fields? fields = w.fields? fields := by
  obtain ⟨hperm, -⟩ := h
  rw [fields?, fields?]
  exact bind_eq_of_rel (mapM_perm _ hperm) fun ms ns hms =>
    mapM_eq (List.forall₂_same.2 fun names _ => field?_perm hms names)

/-- A member that is no field does not matter in a record. -/
theorem fields?_gains {known : List String} (h : Gains known v w) (fields : List (List String))
    (hfields : fields.flatten = known) : v.fields? fields = w.fields? fields := by
  obtain ⟨before, after, hname, v⟩ := h
  rw [fields?, fields?]
  refine bind_eq_of_rel (namedMembers?_gains before after _ v) ?_
  rintro _ _ ⟨b, a, rfl, rfl⟩
  refine mapM_eq (List.forall₂_same.2 fun names hnames => field?_gains ?_ b a v)
  exact fun hmem => hname (hfields ▸ List.mem_flatten_of_mem hnames hmem)

/-- A change of one part of a record changes at most the value of a field. -/
theorem sameFields_within (h : Within R v w) (fields : List (List String)) :
    SameFields R fields v w := by
  cases h with
  | element before after h =>
    -- The record has as many values as before, so it is refused in both forms or in none
    have hchanged {v : Written} : (before ++ v :: after).length = before.length + after.length + 1 := by
      simp [Nat.add_assoc]
    rw [SameFields, fields?, fields?, positional?, positional?, hchanged, hchanged]
    split
    · have hvalues : List.Forall₂ (Relation.ReflGen R) (before ++ _ :: after) (before ++ _ :: after) :=
        forall₂_around (fun _ => .refl) (.single h) before after
      have hmap := List.rel_map (fun _ _ => Option.Rel.some) hvalues
      exact .some (List.rel_append hmap (List.forall₂_same.2 fun _ _ => rel_refl (fun _ => .refl) _))
    · exact .none
  | member before after name h =>
    rw [SameFields, fields?, fields?]
    exact rel_bind (namedMembers?_within h before after name) fun ms ns hms =>
      mapM_rel (List.forall₂_same.2 fun names _ => field?_rel hms names)

/-- Shuffled objects have shuffled fields. -/
theorem sameFields_shuffled (h : Shuffled v w) (fields : List (List String)) :
    SameFields Shuffled fields v w := by
  obtain hpermuted | hwithin := h.permuted_or_within
  · exact sameFields_of_eq (fields?_permuted hpermuted fields)
  · exact sameFields_within hwithin fields

end Enlist.Json.Written
