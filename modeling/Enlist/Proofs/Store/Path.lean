import Enlist.Store.Path

/-!
# Normal paths

Normalising a path leaves plain segments only, and plain segments stay as they are when the path is
normalised again. So a normal path names one file, and different normal paths name different files.

## Key results

- `plain_stack`: only plain segments are left
- `normalize_normalize`: a path that was normalised is normal
-/

namespace Enlist.Store.Path

/-- A segment that stays in a path which is normalised. -/
structure Plain (segment : List Char) : Prop where
  ne_nil : segment ≠ []
  ne_here : segment ≠ ['.']
  ne_up : segment ≠ ['.', '.']
  whole : ∀ c ∈ segment, isSeparator c = false

variable {dir segments : List (List Char)} {segment : List Char}

/-- Entering a segment leaves plain segments only. -/
theorem plain_enter (hdir : ∀ s ∈ dir, Plain s) (hwhole : ∀ c ∈ segment, isSeparator c = false) :
    ∀ s ∈ enter dir segment, Plain s := by
  rw [enter]
  split
  case isTrue => exact hdir
  case isFalse hhere =>
    rw [not_or] at hhere
    split
    case isTrue => exact fun s hs => hdir s (List.mem_of_mem_tail hs)
    case isFalse hup => exact List.forall_mem_cons.2 ⟨⟨hhere.1, hhere.2, hup, hwhole⟩, hdir⟩

/-- Following segments leads to plain segments only. -/
theorem plain_stack (hdir : ∀ s ∈ dir, Plain s)
    (hwhole : ∀ segment ∈ segments, ∀ c ∈ segment, isSeparator c = false) :
    ∀ s ∈ stack dir segments, Plain s := by
  induction segments generalizing dir with
  | nil => exact hdir
  | cons segment segments ih =>
    obtain ⟨hsegment, hsegments⟩ := List.forall_mem_cons.1 hwhole
    exact ih (plain_enter hdir hsegment) hsegments

/-- A plain segment leads one level down. -/
theorem enter_of_plain (h : Plain segment) : enter dir segment = segment :: dir := by
  rw [enter, if_neg (not_or.2 ⟨h.ne_nil, h.ne_here⟩), if_neg h.ne_up]

/-- Plain segments are entered one after the other. -/
theorem stack_of_plain (h : ∀ s ∈ segments, Plain s) : stack dir segments = segments.reverse ++ dir := by
  induction segments generalizing dir with
  | nil => rfl
  | cons segment segments ih =>
    obtain ⟨hsegment, hsegments⟩ := List.forall_mem_cons.1 h
    rw [stack, List.foldl_cons, enter_of_plain hsegment, ← stack, ih hsegments, List.reverse_cons,
      List.append_assoc, List.singleton_append]

/-- A directory that is written out and read again is the same. -/
theorem stack_segments_render (h : ∀ s ∈ dir, Plain s) :
    stack [] (Path.segments (render dir)) = dir := by
  have hroot : Path.segments (render dir) =
      [] :: Text.splitOn isSeparator (Text.join '/' dir.reverse) := rfl
  have henter : stack [] (Path.segments (render dir)) =
      stack [] (Text.splitOn isSeparator (Text.join '/' dir.reverse)) := by
    rw [hroot]
    rfl
  rw [henter]
  by_cases hdir : dir = []
  · subst hdir
    rfl
  -- What is rendered is split at its slashes again, and no segment is resolved away
  · have hplain : ∀ s ∈ dir.reverse, Plain s := fun s hs => h s (List.mem_reverse.1 hs)
    have hne : dir.reverse ≠ [] := fun hnil => hdir (List.reverse_eq_nil_iff.1 hnil)
    rw [Text.splitOn_join (c := '/') rfl hne fun s hs => (hplain s hs).whole, stack_of_plain hplain,
      List.reverse_reverse, List.append_nil]

/-- A path leads from the root to plain names. -/
theorem plain_of_path (path : List Char) : ∀ s ∈ stack [] (Path.segments path), Plain s :=
  plain_stack (fun _ hs => nomatch hs) fun _ hs => Text.eq_false_of_mem_splitOn hs

/-- A path that was normalised is normal. -/
theorem normalize_normalize (path : String) : normalize (normalize path) = normalize path := by
  rw [normalize, normalize, String.toList_ofList, normalizeChars, normalizeChars,
    stack_segments_render (plain_of_path path.toList)]

end Enlist.Store.Path
