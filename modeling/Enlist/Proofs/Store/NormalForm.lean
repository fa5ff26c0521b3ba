import Enlist.Proofs.Store.Path

/-!
# The laws of normal paths

The segments of a path lead from the root to a directory, and the normal form of the path is that directory
written out. So the normal form has the laws of a place: it is found again from itself, a path goes on from
it as from the path that it was made of, and two paths have one normal form exactly if they lead to one
place. `Leads` says where segments lead without the function that enters them.

## Key results

- `leads_iff`: entering segments one after the other leads where they lead
- `render_inj`: directories that are written out alike are the same
- `normalize_eq_iff`: one normal form is one place
- `normalize_append`: going on from a normal path
- `normalize_laws`: what a normal form looks like, and its laws
-/

namespace Enlist.Store.Path

/-- Segments lead from a directory to another one. Directories are given by their names, the innermost
first. -/
inductive Leads : List (List Char) → List (List Char) → List (List Char) → Prop where
  | done (dir : List (List Char)) : Leads dir [] dir
  /-- Neither an empty segment nor `.` leads anywhere. -/
  | stay {dir segments dir' : List (List Char)} {segment : List Char}
      (nowhere : segment = [] ∨ segment = ['.']) (rest : Leads dir segments dir') :
      Leads dir (segment :: segments) dir'
  | up {inner : List Char} {outer segments dir' : List (List Char)} (rest : Leads outer segments dir') :
      Leads (inner :: outer) (['.', '.'] :: segments) dir'
  /-- Nothing is above the root. -/
  | root {segments dir' : List (List Char)} (rest : Leads [] segments dir') :
      Leads [] (['.', '.'] :: segments) dir'
  | down {dir segments dir' : List (List Char)} {name : List Char}
      (names : name ≠ [] ∧ name ≠ ['.'] ∧ name ≠ ['.', '.']) (rest : Leads (name :: dir) segments dir') :
      Leads dir (name :: segments) dir'

variable {dir dir' : List (List Char)}

theorem stack_cons (dir : List (List Char)) (segment : List Char) (segments : List (List Char)) :
    stack dir (segment :: segments) = stack (enter dir segment) segments := rfl

/-- The last segment of a path is followed last. -/
theorem stack_concat (dir segments : List (List Char)) (segment : List Char) :
    stack dir (segments ++ [segment]) = enter (stack dir segments) segment :=
  stack_append dir segments [segment]

/-- Following segments leads to where they lead. -/
theorem leads_stack (dir segments : List (List Char)) : Leads dir segments (stack dir segments) := by
  induction segments generalizing dir with
  | nil => exact .done dir
  | cons segment segments ih =>
    -- The walk goes on by what the segment is: nowhere, up or down
    rw [stack_cons, enter]
    split
    case isTrue hnowhere => exact .stay hnowhere (ih dir)
    case isFalse hsomewhere =>
      rw [not_or] at hsomewhere
      split
      case isTrue hup =>
        subst hup
        cases dir with
        | nil => exact .root (ih [])
        | cons inner outer => exact .up (ih outer)
      case isFalse hup => exact .down ⟨hsomewhere.1, hsomewhere.2, hup⟩ (ih _)

/-- Entering segments one after the other leads where they lead. -/
theorem leads_iff {segments : List (List Char)} :
    Leads dir segments dir' ↔ stack dir segments = dir' := by
  constructor
  -- Each way to go is what the stack does with the segment
  · intro h
    induction h with
    | done dir => rfl
    | stay nowhere _ ih => rwa [stack_cons, enter, if_pos nowhere]
    | up _ ih => exact ih
    | root _ ih => exact ih
    | down names _ ih =>
      rwa [stack_cons, enter, if_neg (not_or.2 ⟨names.1, names.2.1⟩), if_neg names.2.2]
  · rintro rfl
    exact leads_stack dir segments

/-- Directories are told apart by how they are written. -/
theorem render_inj (hdir : ∀ s ∈ dir, Plain s) (hdir' : ∀ s ∈ dir', Plain s) :
    render dir = render dir' ↔ dir = dir' := by
  refine ⟨fun h => ?_, congrArg render⟩
  rw [← stack_segments_render hdir, h, stack_segments_render hdir']

/-- A directory is written without backslashes. -/
theorem not_mem_render (hdir : ∀ s ∈ dir, Plain s) : '\\' ∉ render dir := by
  rw [render, List.mem_cons, not_or]
  refine ⟨by decide, fun hmem => ?_⟩
  rcases Text.mem_join hmem with hslash | ⟨s, hs, hc⟩
  · exact absurd hslash (by decide)
  · exact absurd ((hdir s (List.mem_reverse.1 hs)).whole _ hc) (by decide)

/-- The normal form of a path is the directory that its segments lead to from the root. -/
theorem toList_normalize (path : String) :
    (normalize path).toList = render (stack [] (segments path.toList)) :=
  String.toList_ofList

/-- Two paths have the same normal form exactly if their segments are left with the same stack. -/
theorem normalize_eq_iff {a b : String} :
    normalize a = normalize b ↔ stack [] (segments a.toList) = stack [] (segments b.toList) := by
  rw [← String.toList_inj, toList_normalize, toList_normalize,
    render_inj (plain_of_path a.toList) (plain_of_path b.toList)]

/-- Where a path leads that goes on behind a slash. -/
theorem stack_segments_append (path path' : List Char) :
    stack [] (segments (path ++ '/' :: path')) = stack (stack [] (segments path)) (segments path') := by
  rw [segments, Text.splitOn_append_cons rfl, stack_append]
  rfl

/-- Two paths behind directories name the same place exactly if they lead to it from there. -/
theorem normalize_append_eq_iff {a a' b b' : String} :
    normalize (a ++ "/" ++ b) = normalize (a' ++ "/" ++ b') ↔
      stack (stack [] (segments a.toList)) (segments b.toList) =
        stack (stack [] (segments a'.toList)) (segments b'.toList) := by
  have hsplit (front back : String) : (front ++ "/" ++ back).toList = front.toList ++ '/' :: back.toList := by
    simp [String.toList_append]
  rw [normalize_eq_iff, hsplit, hsplit, stack_segments_append, stack_segments_append]

/-- What goes on behind a path goes on behind its normal form alike. -/
theorem normalize_append (a b : String) :
    normalize (normalize a ++ "/" ++ b) = normalize (a ++ "/" ++ b) := by
  rw [normalize_append_eq_iff, toList_normalize, stack_segments_render (plain_of_path a.toList)]

/-- The normal form of a path is the directory that its segments lead to, written out: plain names with `/`
in front of them, or `/` alone, and no backslash. It is its own normal form; whatever goes on behind the
path goes on behind its normal form alike; and two paths have the same normal form exactly if their segments
lead to the same place. -/
theorem normalize_laws (a b : String) :
    (∃ dir, Leads [] (segments a.toList) dir ∧ (∀ name ∈ dir, Plain name) ∧
      (normalize a).toList = '/' :: Text.join '/' dir.reverse ∧ '\\' ∉ (normalize a).toList) ∧
    normalize (normalize a) = normalize a ∧
    normalize (normalize a ++ "/" ++ b) = normalize (a ++ "/" ++ b) ∧
    (normalize a = normalize b ↔
      ∃ dir, Leads [] (segments a.toList) dir ∧ Leads [] (segments b.toList) dir) := by
  have hplain := plain_of_path a.toList
  refine ⟨⟨_, leads_stack [] _, hplain, toList_normalize a, ?_⟩, normalize_normalize a,
    normalize_append a b, normalize_eq_iff.trans ⟨fun h => ?_, ?_⟩⟩
  · rw [toList_normalize]
    exact not_mem_render hplain
  · exact ⟨_, leads_stack [] _, leads_iff.2 h.symm⟩
  · rintro ⟨dir, ha, hb⟩
    rw [leads_iff.1 ha, leads_iff.1 hb]

end Enlist.Store.Path
