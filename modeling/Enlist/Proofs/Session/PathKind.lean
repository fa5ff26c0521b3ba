import Enlist.Proofs.Session.ModulePath
import Mathlib.Data.List.Infix

/-!
# Kinds of module paths

A module path is absolute, or it is local, which is relative to the file that it stands in, or it is bare and
names a package. Whoever reads it goes by how it begins. Resolving keeps the kind, but a bare path whose
segments lead out of where it starts becomes a local one: the `..` that are left over are kept, as in any path
that is not absolute.

When a path is joined it is taken for a relative one as soon as it begins with two dots, also where a longer
name begins with them. `LedByDots` tells such paths from local ones.

## Key results

- `isLocal_iff`: a path is local when its first segment is `.` or `..`
- `isRelative_iff_isLocal`: what is taken for a relative path
- `mem_foldl_enter_iff`: a segment that leads up is left exactly where segments lead out
- `isLocal_joined_iff`: what is left is local exactly where the path leads out
- `join_keeps_kind`: what kind of path comes of joining
-/

namespace Enlist.ModulePath

/-- The path is relative to the file that it stands in: it is `.` or `..`, or goes on behind one of them. -/
def IsLocal (path : List Char) : Prop :=
  path = ['.'] ∨ path = up ∨ ['.', '/'] <+: path ∨ up ++ ['/'] <+: path

/-- The first segment is a longer name that begins with two dots. -/
def LedByDots (segments : List (List Char)) : Prop :=
  ∃ name rest, segments = name :: rest ∧ up <+: name ∧ name ≠ up

/-- Segments have led up more often than into directories, somewhere on the way. -/
def GoesAbove (segments : List (List Char)) : Prop :=
  ∃ front, front <+: segments ∧ front.countP (· != up) < front.count up

/-- The path leads out of where it starts. -/
def LeadsOut (path : List Char) : Prop :=
  GoesAbove (steps path)

instance (path : List Char) : Decidable (IsLocal path) :=
  inferInstanceAs (Decidable (_ ∨ _))

instance : DecidablePred LedByDots
  | [] => isFalse fun ⟨_, _, h, _⟩ => nomatch h
  | name :: rest => decidable_of_iff (up <+: name ∧ name ≠ up)
      ⟨fun h => ⟨name, rest, rfl, h⟩, fun ⟨_, _, h, hdots⟩ => (List.cons.inj h).1 ▸ hdots⟩

instance (segments : List (List Char)) : Decidable (GoesAbove segments) :=
  decidable_of_iff (∃ front ∈ segments.inits, front.countP (· != up) < front.count up)
    (by simp [GoesAbove, List.mem_inits])

instance (path : List Char) : Decidable (LeadsOut path) :=
  inferInstanceAs (Decidable (GoesAbove (steps path)))

variable {segment : List Char} {dir segments : List (List Char)} {path : List Char}

/-! ## How a path begins -/

/-- A segment is the first one when the path is that segment or goes on behind it with a slash. -/
theorem exists_splitOn_iff (h : '/' ∉ segment) :
    (∃ rest, Text.splitOn (· == '/') path = segment :: rest) ↔
      path = segment ∨ segment ++ ['/'] <+: path := by
  have hwhole := not_slash_of_whole h
  -- The first segment ends with the path, or a slash stands behind it
  constructor
  · rintro ⟨rest, hrest⟩
    have hpath := Text.join_splitOn '/' path
    rw [hrest] at hpath
    by_cases hnil : rest = []
    · subst hnil
      exact .inl hpath.symm
    · rw [Text.join_cons segment hnil] at hpath
      exact .inr ⟨Text.join '/' rest, by rw [← hpath]; simp⟩
  · rintro (rfl | ⟨rest, rfl⟩)
    · exact ⟨[], Text.splitOn_eq_singleton hwhole⟩
    · refine ⟨Text.splitOn (· == '/') rest, ?_⟩
      rw [List.append_assoc, List.singleton_append, Text.splitOn_append (by simp) hwhole]

/-- A path is local exactly if its first segment is a dot or two dots. -/
theorem isLocal_iff :
    IsLocal path ↔ (∃ rest, Text.splitOn (· == '/') path = ['.'] :: rest) ∨
      ∃ rest, Text.splitOn (· == '/') path = up :: rest := by
  rw [exists_splitOn_iff (by decide), exists_splitOn_iff (by decide), or_or_or_comm, or_assoc, IsLocal]
  rfl

/-- Whether a path begins with two dots is seen on its first segment. -/
theorem prefix_iff_of_splitOn {rest : List (List Char)}
    (h : Text.splitOn (· == '/') path = segment :: rest) : up <+: path ↔ up <+: segment := by
  have hwhole := not_slash_of_mem_splitOn (h ▸ List.mem_cons_self : segment ∈ Text.splitOn _ path)
  rcases (exists_splitOn_iff hwhole).1 ⟨rest, h⟩ with rfl | hfirst
  · rfl
  · refine ⟨fun hup => ?_, fun hup => (hup.trans (List.prefix_append segment ['/'])).trans hfirst⟩
    -- The slash behind the first segment is not one of the two dots
    have hslash : '/' ∉ up := by decide
    rcases List.prefix_or_prefix_of_prefix hup hfirst with hup | hlong
    · rcases List.prefix_concat_iff.1 hup with heq | hup
      · exact absurd (heq ▸ List.mem_append_right segment List.mem_cons_self) hslash
      · exact hup
    · exact absurd (hlong.subset (List.mem_append_right segment List.mem_cons_self)) hslash

/-- A path that begins with two dots is local, or a longer name begins with them. -/
theorem isLocal_or_ledByDots (h : up <+: path) :
    IsLocal path ∨ LedByDots (Text.splitOn (· == '/') path) := by
  obtain ⟨first, rest, hfirst⟩ := List.exists_cons_of_ne_nil (Text.splitOn_ne_nil (· == '/') path)
  have hdots := (prefix_iff_of_splitOn hfirst).1 h
  by_cases hup : first = up
  · exact .inl (isLocal_iff.2 (.inr ⟨rest, hup ▸ hfirst⟩))
  · exact .inr ⟨first, rest, hfirst, hdots, hup⟩

/-- A local path is taken for relative. -/
theorem isRelative_of_isLocal (h : IsLocal path) : isRelative path = true := by
  rw [isRelative_iff]
  rcases h with hhere | rfl | hhere | hup
  · exact .inl hhere
  · exact .inr (.inr (List.prefix_refl up))
  · exact .inr (.inl hhere)
  · exact .inr (.inr ((List.prefix_append up ['/']).trans hup))

/-- What is taken for a relative path is local, or looks so because of its first two dots. -/
theorem isRelative_iff_isLocal :
    isRelative path = true ↔ IsLocal path ∨ LedByDots (Text.splitOn (· == '/') path) := by
  constructor
  · intro h
    rcases isRelative_iff.1 h with hhere | hhere | hup
    · exact .inl (.inl hhere)
    · exact .inl (.inr (.inr (.inl hhere)))
    · exact isLocal_or_ledByDots hup
  · rintro (hlocal | ⟨first, rest, hfirst, hdots, _⟩)
    · exact isRelative_of_isLocal hlocal
    · exact isRelative_iff.2 (.inr (.inr ((prefix_iff_of_splitOn hfirst).2 hdots)))

/-- An absolute path is not local. -/
theorem not_isLocal_of_isAbsolute (h : isAbsolute path = true) : ¬ IsLocal path := by
  rintro (rfl | rfl | ⟨rest, rfl⟩ | ⟨rest, rfl⟩) <;> exact nomatch h

/-! ## What leads out -/

/-- One segment more goes above if the others did, or if it leads up once too often. -/
theorem goesAbove_concat :
    GoesAbove (segments ++ [segment]) ↔
      GoesAbove segments ∨
        segments.countP (· != up) + [segment].countP (· != up) < segments.count up + [segment].count up := by
  simp only [GoesAbove, List.prefix_concat_iff, or_and_right, exists_or, exists_eq_left,
    List.countP_append, List.count_append]
  exact or_comm

/-- A name is one segment more that leads into a directory. -/
theorem countP_cons_name (h : segment ≠ up) (segments : List (List Char)) :
    (segment :: segments).countP (· != up) = segments.countP (· != up) + 1 :=
  List.countP_cons_of_pos (bne_iff_ne.2 h)

/-- A name does not lead up. -/
theorem count_cons_name (h : segment ≠ up) (segments : List (List Char)) :
    (segment :: segments).count up = segments.count up :=
  List.count_cons_of_ne h

/-- A `..` does not lead into a directory. -/
theorem countP_cons_up (segments : List (List Char)) :
    (up :: segments).countP (· != up) = segments.countP (· != up) :=
  List.countP_cons_of_neg (by decide)

/-- Of the segments that lead up, each has taken a name back or is left. -/
def Balanced (segments dir : List (List Char)) : Prop :=
  dir.countP (· != up) + segments.count up = dir.count up + segments.countP (· != up)

/-- One segment more keeps the balance. -/
theorem Entered.balanced (h : Entered false dir segment dir') (hdir : Balanced segments dir) :
    Balanced (segments ++ [segment]) dir' := by
  rw [Balanced] at hdir ⊢
  rw [List.count_append, List.countP_append]
  -- A name counts as one, a step back over a name as one step up for one name
  cases h with
  | name names =>
    simp only [countP_cons_name names.ne_up, count_cons_name names.ne_up, List.countP_nil, List.count_nil]
    omega
  | back names =>
    rw [countP_cons_name names.ne_up, count_cons_name names.ne_up] at hdir
    simp only [countP_cons_up, List.count_cons_self, List.countP_nil, List.count_nil]
    omega
  | above n =>
    simp only [List.replicate_succ, countP_cons_up, List.count_cons_self, List.countP_nil, List.count_nil]
    omega

/-- A `..` is left if one was, or if it finds no name to take back. -/
theorem Entered.mem_up_iff (h : Entered false dir segment dir') :
    up ∈ dir' ↔ up ∈ dir ∨ segment = up ∧ dir.countP (· != up) = 0 := by
  cases h with
  | name names => simp [names.ne_up, names.ne_up.symm]
  | back names => simp [names.ne_up, names.ne_up.symm]
  | above n => simp

/-- As long as no segment that leads up is left, one more is left if there is no name to take back. -/
theorem Balanced.count_lt_iff (h : Balanced segments dir) (hup : up ∉ dir) (segment : List Char) :
    segments.countP (· != up) + [segment].countP (· != up) < segments.count up + [segment].count up ↔
      segment = up ∧ dir.countP (· != up) = 0 := by
  have hnone : dir.count up = 0 := List.count_eq_zero.2 hup
  rw [Balanced, hnone] at h
  by_cases hsegment : segment = up
  · subst hsegment
    rw [countP_cons_up, List.count_cons_self, List.countP_nil, List.count_nil, and_iff_right rfl]
    omega
  · refine iff_of_false ?_ fun h => hsegment h.1
    rw [countP_cons_name hsegment, count_cons_name hsegment, List.countP_nil, List.count_nil]
    omega

/-- A segment that leads up is left exactly where the segments lead out. -/
theorem mem_foldl_enter_iff (hs : ∀ s ∈ segments, IsStep s) :
    up ∈ segments.foldl (enter false) [] ↔ GoesAbove segments := by
  -- Whether the way goes above is seen on the counts, so the induction carries their balance
  suffices h : Balanced segments (segments.foldl (enter false) []) ∧
      (up ∈ segments.foldl (enter false) [] ↔ GoesAbove segments) from h.2
  refine entered_induct (P := fun front dir => Balanced front dir ∧ (up ∈ dir ↔ GoesAbove front)) hs
    ⟨rfl, by simp [GoesAbove]⟩ fun {front dir s dir'} hdir h => ⟨h.balanced hdir.1, ?_⟩
  rw [h.mem_up_iff, goesAbove_concat, hdir.2]
  exact or_congr_right' fun hinside => (hdir.1.count_lt_iff (mt hdir.2.1 hinside) s).symm

/-- What leads up is at the front of what is left. -/
theorem Settled.exists_reverse_iff {absolute : Bool} (h : Settled absolute dir) :
    (∃ rest, dir.reverse = up :: rest) ↔ up ∈ dir := by
  constructor
  · rintro ⟨rest, hrest⟩
    exact List.mem_reverse.1 (hrest ▸ List.mem_cons_self)
  · intro hup
    -- The steps up are at the bottom of the stack, so they come first when it is turned over
    induction h with
    | root => exact nomatch hup
    | start n =>
      cases n with
      | zero => exact nomatch hup
      | succ n => exact ⟨List.replicate n up, List.reverse_replicate⟩
    | name names _ ih =>
      obtain ⟨rest, hrest⟩ := ih ((List.mem_cons.1 hup).resolve_left names.ne_up.symm)
      exact ⟨rest ++ [_], by rw [List.reverse_cons, hrest, List.cons_append]⟩

/-- What is left of a path that is not absolute begins with a segment that leads up exactly where the path
leads out. -/
theorem exists_resolve_iff (h : isAbsolute path = false) :
    (∃ rest, resolve path = up :: rest) ↔ LeadsOut path := by
  have hleft := (settled_resolve path).exists_reverse_iff
  rw [List.reverse_reverse] at hleft
  rw [hleft, resolve_eq, List.reverse_reverse, h, mem_foldl_enter_iff fun _ => isStep_of_mem_steps]
  rfl

/-- What is left of a path is local exactly if the path leads out. -/
theorem isLocal_joined_iff (h : isAbsolute path = false) : IsLocal (joined path) ↔ LeadsOut path := by
  rw [isLocal_iff, ← exists_resolve_iff h]
  by_cases hnil : resolve path = []
  · rw [joined_eq_nil_iff.2 hnil, hnil]
    simp [Text.splitOn, up]
  · rw [splitOn_joined hnil]
    refine or_iff_right ?_
    rintro ⟨rest, hrest⟩
    exact (isStep_of_mem_resolve (hrest ▸ List.mem_cons_self)).ne_here rfl

/-! ## The kind of a joined path -/

namespace Written

variable {out : List Char}

/-- A local path is written out as one, unless a name with two dots in front is left first. -/
theorem isLocal (h : Written path out) (hlocal : IsLocal path) (hdots : ¬ LedByDots (resolve path)) :
    IsLocal out := by
  cases h with
  | absolute h => exact absurd hlocal (not_isLocal_of_isAbsolute h)
  | here => exact .inl rfl
  | above _ _ leads =>
    have hsomething : resolve path ≠ [] := fun hnil => by
      rw [joined_eq_nil_iff.2 hnil] at leads
      exact absurd leads (by decide)
    -- The two dots in front of what is left are a segment, or begin the first name that is left
    have hfirst := isLocal_or_ledByDots leads
    rw [splitOn_joined hsomething] at hfirst
    exact hfirst.resolve_right hdots
  | near => exact .inr (.inr (.inl (List.prefix_append ['.', '/'] _)))
  | bare _ hbare =>
    rw [isRelative_of_isLocal hlocal] at hbare
    exact nomatch hbare

/-- A path that is neither absolute nor local becomes local exactly if it leads out. -/
theorem isLocal_iff_leadsOut (h : Written path out) (habsolute : isAbsolute path = false)
    (hlocal : ¬ IsLocal path) (hdots : ¬ LedByDots (Text.splitOn (· == '/') path)) :
    IsLocal out ↔ LeadsOut path := by
  have hrelative : ¬ isRelative path = true := fun hrelative =>
    (isRelative_iff_isLocal.1 hrelative).elim hlocal hdots
  cases h with
  | absolute h =>
    rw [h] at habsolute
    exact nomatch habsolute
  | here _ relative | above _ relative | near _ relative => exact absurd relative hrelative
  | bare => exact isLocal_joined_iff habsolute

end Written

/-- A path that is joined is absolute exactly if the base with the suffix behind it is, and local if that is.
If that is bare, what comes of it is bare, unless its segments lead out of where it starts: then it is local.
Of names that begin with two dots nothing is said where one of them stands first in a bare path, or in what
is left of a local one. -/
theorem join_keeps_kind (base suffix : String) :
    let path := (base ++ suffix).toList
    let out := (join base suffix).toList
    (out.head? = some '/' ↔ path.head? = some '/') ∧
    (IsLocal path → ¬ LedByDots (resolve path) → IsLocal out) ∧
    (¬ IsLocal path → path.head? ≠ some '/' → ¬ LedByDots (Text.splitOn (· == '/') path) →
      (IsLocal out ↔ LeadsOut path)) := by
  intro path out
  have hwritten : Written path out := by
    rw [show out = normalizeChars path from toList_join base suffix]
    exact written_normalizeChars path
  refine ⟨?_, hwritten.isLocal, fun hlocal habsolute hdots => ?_⟩
  · rw [← beq_iff_eq (a := out.head?), ← beq_iff_eq (a := path.head?), ← Bool.eq_iff_iff]
    exact hwritten.isAbsolute_eq
  · exact hwritten.isLocal_iff_leadsOut (beq_eq_false_iff_ne.2 habsolute) hlocal hdots

/-- A relative path that leads above the directory of its file stays local. A segment that leads up inside
of a package keeps the path bare, and further ones do not. -/
theorem join_keeps_kind_sample :
    (IsLocal "./a/../../b".toList ∧ join "./a" "/../../b" = "../b" ∧
      IsLocal (join "./a" "/../../b").toList) ∧
    (¬ LeadsOut "@my/lib/../x".toList ∧ join "@my/lib" "/../x" = "@my/x" ∧
      ¬ IsLocal (join "@my/lib" "/../x").toList) ∧
    (LeadsOut "@my/lib/../../../x".toList ∧ join "@my/lib" "/../../../x" = "../x" ∧
      IsLocal (join "@my/lib" "/../../../x").toList) := by
  have hinside : ¬ LeadsOut "@my/lib/../x".toList := by decide
  have houtside : LeadsOut "@my/lib/../../../x".toList := by decide
  refine ⟨⟨by decide, by decide, ?_⟩, ⟨hinside, by decide, ?_⟩, houtside, by decide, ?_⟩
  · exact (join_keeps_kind "./a" "/../../b").2.1 (by decide) (by decide)
  · exact mt ((join_keeps_kind "@my/lib" "/../x").2.2 (by decide) (by decide) (by decide)).1 hinside
  · exact ((join_keeps_kind "@my/lib" "/../../../x").2.2 (by decide) (by decide) (by decide)).2 houtside

/-- The segments behind the name of a package lead out of it, and a relative path comes of that. -/
theorem join_leads_out_of_package :
    let path := "@my/lib" ++ "/../../../x"
    ¬ IsLocal path.toList ∧ path.toList.head? ≠ some '/' ∧
      join "@my/lib" "/../../../x" = "../x" ∧ IsLocal (join "@my/lib" "/../../../x").toList := by
  decide

end Enlist.ModulePath
