import Enlist.Proofs.Store.NormalForm
import Enlist.Session.ModulePath
import Mathlib.Data.List.Induction

/-!
# Module paths that are resolved

A module path is resolved without knowing the directory that it starts from, so a `..` that finds no name to
take back is kept. The paths of a store are resolved from the root, where such a `..` does nothing. The two
agree on what a path names: `Settled` describes what is left of the segments while they are entered, and
reading what is left from any directory leads where the segments lead.

## Key results

- `Settled.entered` / `entered_induct`: what entering one segment does, and what holds of all of them
- `stack_resolve`: reading what is left from any directory leads where the path leads
- `normalizeChars_eq_iff`: how what is left is written out
- `Written.steps_eq`: the path that is written out has the segments that are left, and no others
- `join_laws`: joining again changes nothing, and the joined path names what the plain one names
-/

namespace Enlist.ModulePath

open Store

/-- A segment that leads somewhere, into a directory or up. -/
structure IsStep (segment : List Char) : Prop where
  ne_nil : segment ≠ []
  ne_here : segment ≠ ['.']
  whole : '/' ∉ segment

/-- A segment that leads into a directory. -/
structure IsName (segment : List Char) : Prop extends IsStep segment where
  ne_up : segment ≠ up

/-- The segments of a path that lead somewhere. -/
def steps (path : List Char) : List (List Char) :=
  (Text.splitOn (· == '/') path).filter fun s => s ≠ [] ∧ s ≠ ['.']

/-- What is left of segments while they are entered, the innermost first: names, and under them nothing in
an absolute path and segments that lead up in any other. -/
inductive Settled : Bool → List (List Char) → Prop where
  | root : Settled true []
  | start (n : Nat) : Settled false (List.replicate n up)
  | name {absolute : Bool} {segment : List Char} {dir : List (List Char)} (names : IsName segment)
      (rest : Settled absolute dir) : Settled absolute (segment :: dir)

/-- What becomes of that when one segment more is entered. -/
inductive Entered : Bool → List (List Char) → List Char → List (List Char) → Prop where
  | name {absolute : Bool} {dir : List (List Char)} {segment : List Char} (names : IsName segment) :
      Entered absolute dir segment (segment :: dir)
  /-- A name is taken back. -/
  | back {absolute : Bool} {dir : List (List Char)} {segment : List Char} (names : IsName segment)
      (rest : Settled absolute dir) : Entered absolute (segment :: dir) up dir
  | root : Entered true [] up []
  /-- There is no name to take back. -/
  | above (n : Nat) : Entered false (List.replicate n up) up (List.replicate (n + 1) up)

variable {absolute : Bool} {segment : List Char} {dir dir' segments : List (List Char)}
  {path : List Char}

/-- The segment `..` leads somewhere. -/
theorem isStep_up : IsStep up where
  ne_nil := by decide
  ne_here := by decide
  whole := by decide

/-! ## Steps of a path -/

/-- A segment has no slash in it. -/
theorem not_slash_of_mem_splitOn (h : segment ∈ Text.splitOn (· == '/') path) : '/' ∉ segment :=
  fun hslash => absurd (Text.eq_false_of_mem_splitOn h '/' hslash) (by simp)

/-- The steps of a path lead somewhere. -/
theorem isStep_of_mem_steps (h : segment ∈ steps path) : IsStep segment := by
  obtain ⟨hmem, hstep⟩ := List.mem_filter.1 h
  obtain ⟨hnil, hhere⟩ := of_decide_eq_true hstep
  exact ⟨hnil, hhere, not_slash_of_mem_splitOn hmem⟩

@[simp] theorem steps_nil : steps [] = [] := rfl

/-- The steps of a path are those in front of a slash and those behind it. -/
theorem steps_append_slash (front back : List Char) :
    steps (front ++ '/' :: back) = steps front ++ steps back := by
  rw [steps, Text.splitOn_append_cons (by simp), List.filter_append]
  rfl

/-- A slash in front adds no step. -/
@[simp] theorem steps_slash (path : List Char) : steps ('/' :: path) = steps path :=
  steps_append_slash [] path

/-- A leading `./` adds no step. -/
@[simp] theorem steps_here_slash (path : List Char) : steps ('.' :: '/' :: path) = steps path :=
  steps_append_slash ['.'] path

/-- A segment without slashes is not cut. -/
theorem not_slash_of_whole (h : '/' ∉ segment) : ∀ c ∈ segment, (c == '/') = false := fun c hc => by
  simpa using fun hslash : c = '/' => h (hslash ▸ hc)

/-- Steps that are joined are cut again, unless there are none. -/
theorem splitOn_join_steps (h : ∀ s ∈ segments, IsStep s) (hnil : segments ≠ []) :
    Text.splitOn (· == '/') (Text.join '/' segments) = segments :=
  Text.splitOn_join (by simp) hnil fun s hs => not_slash_of_whole (h s hs).whole

/-- Steps that are joined are the steps of the path. -/
theorem steps_join (h : ∀ s ∈ segments, IsStep s) : steps (Text.join '/' segments) = segments := by
  by_cases hnil : segments = []
  · subst hnil
    rfl
  · rw [steps, splitOn_join_steps h hnil, List.filter_eq_self]
    exact fun s hs => decide_eq_true ⟨(h s hs).ne_nil, (h s hs).ne_here⟩

/-- Segments that lead nowhere do not count where entering them changes nothing. -/
private theorem foldl_splitOn {f : List (List Char) → List Char → List (List Char)}
    (h : ∀ dir s, s = [] ∨ s = ['.'] → f dir s = dir) (dir : List (List Char)) (path : List Char) :
    (Text.splitOn (· == '/') path).foldl f dir = (steps path).foldl f dir := by
  rw [steps, List.foldl_filter]
  congr
  funext dir s
  by_cases hs : s = [] ∨ s = ['.']
  · rw [h dir s hs, ite_self]
  · rw [if_pos (decide_eq_true (not_or.1 hs))]

/-- What is left of a path comes from entering its steps. -/
theorem resolve_eq (path : List Char) :
    resolve path = ((steps path).foldl (enter (isAbsolute path)) []).reverse := by
  rw [resolve, foldl_splitOn]
  exact fun dir s hs => if_pos hs

/-- A path leads where its steps lead. -/
theorem stack_splitOn (dir : List (List Char)) (path : List Char) :
    Path.stack dir (Text.splitOn (· == '/') path) = Path.stack dir (steps path) :=
  foldl_splitOn (fun _ _ hs => if_pos hs) dir path

/-! ## What is left -/

/-- A name goes onto what is left. -/
theorem enter_name (h : IsName segment) : enter absolute dir segment = segment :: dir := by
  rw [enter.eq_def, if_neg (not_or.2 ⟨h.ne_nil, h.ne_here⟩), if_neg h.ne_up]

/-- A `..` takes the name in front of it back. -/
theorem enter_up (h : IsName segment) : enter absolute (segment :: dir) up = dir := by
  rw [enter.eq_def, if_neg (by decide), if_pos rfl]
  exact if_pos h.ne_up

/-- A `..` that finds no name is left itself. -/
theorem enter_up_start (n : Nat) :
    enter false (List.replicate n up) up = List.replicate (n + 1) up := by
  cases n <;> rfl

/-- One step more does one of the things that a step can do. -/
theorem Settled.entered (h : Settled absolute dir) (hs : IsStep segment) :
    Entered absolute dir segment (enter absolute dir segment) := by
  -- A step up goes back over a name, stays at a root, or is kept where there is no name
  by_cases hup : segment = up
  · subst hup
    cases h with
    | root => exact .root
    | start n =>
      rw [enter_up_start]
      exact .above n
    | name names rest =>
      rw [enter_up names]
      exact .back names rest
  · rw [enter_name ⟨hs, hup⟩]
    exact .name ⟨hs, hup⟩

/-- What is left after one step more is settled. -/
theorem Entered.settled (h : Entered absolute dir segment dir') (hdir : Settled absolute dir) :
    Settled absolute dir' := by
  cases h with
  | name names => exact .name names hdir
  | back _ rest => exact rest
  | root => exact .root
  | above n => exact .start (n + 1)

theorem settled_nil (absolute : Bool) : Settled absolute [] := by
  cases absolute with
  | true => exact .root
  | false => exact .start 0

/-- What entering one segment more keeps up holds of all segments that are entered. -/
theorem entered_induct {P : List (List Char) → List (List Char) → Prop}
    (hs : ∀ s ∈ segments, IsStep s) (nil : P [] [])
    (concat : ∀ {front dir segment dir'}, P front dir → Entered absolute dir segment dir' →
      P (front ++ [segment]) dir') :
    P segments (segments.foldl (enter absolute) []) := by
  -- How a segment is entered depends on what is left, so that is carried along
  suffices h : Settled absolute (segments.foldl (enter absolute) []) ∧
      P segments (segments.foldl (enter absolute) []) from h.2
  induction segments using List.reverseRecOn with
  | nil => exact ⟨settled_nil absolute, nil⟩
  | append_singleton front segment ih =>
    obtain ⟨hfront, hsegment⟩ := List.forall_mem_append.1 hs
    obtain ⟨hsettled, hP⟩ := ih hfront
    have hentered := hsettled.entered (hsegment segment List.mem_cons_self)
    rw [List.foldl_append]
    exact ⟨hentered.settled hsettled, concat hP hentered⟩

/-- What is left of some steps is settled. -/
theorem settled_foldl (hs : ∀ s ∈ segments, IsStep s) :
    Settled absolute (segments.foldl (enter absolute) []) :=
  entered_induct (P := fun _ dir => Settled absolute dir) hs (settled_nil absolute) fun hdir h =>
    h.settled hdir

/-- What is left of a path is settled. -/
theorem settled_resolve (path : List Char) : Settled (isAbsolute path) (resolve path).reverse := by
  rw [resolve_eq, List.reverse_reverse]
  exact settled_foldl fun _ => isStep_of_mem_steps

/-- All that is left leads somewhere. -/
theorem Settled.isStep (h : Settled absolute dir) : ∀ s ∈ dir, IsStep s := by
  induction h with
  | root => exact fun _ hs => nomatch hs
  | start n => exact fun s hs => List.eq_of_mem_replicate hs ▸ isStep_up
  | name names _ ih => exact List.forall_mem_cons.2 ⟨names.toIsStep, ih⟩

/-- All that is left of a path leads somewhere. -/
theorem isStep_of_mem_resolve (h : segment ∈ resolve path) : IsStep segment :=
  (settled_resolve path).isStep segment (List.mem_reverse.2 h)

/-- What is left leaves itself when it is entered. -/
theorem Settled.foldl_reverse (h : Settled absolute dir) :
    dir.reverse.foldl (enter absolute) [] = dir := by
  induction h with
  | root => rfl
  | start n =>
    -- At the start, each of the steps up is kept
    induction n with
    | zero => rfl
    | succ n ih =>
      rw [List.reverse_replicate] at ih ⊢
      rw [List.replicate_succ', List.foldl_append, ih]
      exact (enter_up_start n).trans List.replicate_succ'
  | name names _ ih =>
    rw [List.reverse_cons, List.foldl_append, ih]
    exact enter_name names

/-- Nothing new is left. -/
theorem foldl_enter_subset (hs : ∀ s ∈ segments, IsStep s) :
    segments.foldl (enter absolute) [] ⊆ segments := by
  refine entered_induct (P := fun front dir => dir ⊆ front) hs (List.Subset.refl [])
    fun {front dir s dir'} hdir h => ?_
  -- What is kept is a part of what was there, and only the new segment is added
  have hkept := List.subset_append_of_subset_left [s] hdir
  have hnew : s ∈ front ++ [s] := List.mem_append_right front List.mem_cons_self
  cases h with
  | name => exact List.cons_subset.2 ⟨hnew, hkept⟩
  | back => exact List.Subset.trans (List.subset_cons_self _ _) hkept
  | root => exact List.nil_subset _
  | above n =>
    rw [List.replicate_succ]
    exact List.cons_subset.2 ⟨hnew, hkept⟩

/-- All that is left of a path is a step of it. -/
theorem mem_steps_of_mem_resolve (h : segment ∈ resolve path) : segment ∈ steps path := by
  rw [resolve_eq, List.mem_reverse] at h
  exact foldl_enter_subset (fun _ => isStep_of_mem_steps) h

/-! ## Reading from a directory -/

/-- A name leads one level down in a store. -/
theorem enter_of_isName (h : IsName segment) (dir : List (List Char)) :
    Path.enter dir segment = segment :: dir := by
  rw [Path.enter, if_neg (not_or.2 ⟨h.ne_nil, h.ne_here⟩)]
  exact if_neg h.ne_up

/-- Wherever one starts, what is left after one segment more leads where that segment leads. -/
theorem Entered.stack_eq (h : Entered false dir segment dir') (home : List (List Char)) :
    Path.stack home dir'.reverse = Path.enter (Path.stack home dir.reverse) segment := by
  cases h with
  | name => rw [List.reverse_cons, Path.stack_concat]
  | back names =>
    -- A name that is taken back is entered and left
    rw [List.reverse_cons, Path.stack_concat, enter_of_isName names]
    rfl
  | above n => rw [List.reverse_replicate, List.reverse_replicate, List.replicate_succ', Path.stack_concat]

/-- What is left of a path that is not absolute leads where the path leads, from any directory. -/
theorem stack_resolve (h : isAbsolute path = false) (home : List (List Char)) :
    Path.stack home (resolve path) = Path.stack home (steps path) := by
  rw [resolve_eq, h]
  refine entered_induct (P := fun front dir => Path.stack home dir.reverse = Path.stack home front)
    (fun _ => isStep_of_mem_steps) rfl fun hdir h => ?_
  rw [h.stack_eq, hdir, Path.stack_concat]

/-- In an absolute path the two ways to enter a segment are one. -/
theorem Entered.eq_enter (h : Entered true dir segment dir') : dir' = Path.enter dir segment := by
  cases h with
  | name names => rw [enter_of_isName names]
  | back | root => rfl

/-- From the root, steps leave what they leave in a store. -/
theorem foldl_enter_eq (hs : ∀ s ∈ segments, IsStep s) :
    segments.foldl (enter true) [] = Path.stack [] segments := by
  refine entered_induct (P := fun front dir => dir = Path.stack [] front) hs rfl fun hdir h => ?_
  rw [h.eq_enter, hdir, Path.stack_concat]

/-! ## The path that is written out -/

/-- What is left of the segments of a path, with slashes between them. -/
def joined (path : List Char) : List Char :=
  Text.join '/' (resolve path)

/-- How a path is written out when it was resolved. -/
inductive Written (path : List Char) : List Char → Prop where
  | absolute (h : isAbsolute path = true) : Written path ('/' :: joined path)
  | here (h : isAbsolute path = false) (relative : isRelative path = true) (nothing : joined path = []) :
      Written path ['.']
  | above (h : isAbsolute path = false) (relative : isRelative path = true) (leads : up <+: joined path) :
      Written path (joined path)
  | near (h : isAbsolute path = false) (relative : isRelative path = true) (something : joined path ≠ [])
      (stays : ¬ up <+: joined path) : Written path ('.' :: '/' :: joined path)
  | bare (h : isAbsolute path = false) (bare : isRelative path = false) : Written path (joined path)

/-- The steps of what is left are what is left. -/
theorem steps_joined (path : List Char) : steps (joined path) = resolve path :=
  steps_join fun _ => isStep_of_mem_resolve

/-- What is left is cut into its segments again. -/
theorem splitOn_joined (h : resolve path ≠ []) : Text.splitOn (· == '/') (joined path) = resolve path :=
  splitOn_join_steps (fun _ => isStep_of_mem_resolve) h

/-- What is left is empty only if no segment is. -/
theorem joined_eq_nil_iff : joined path = [] ↔ resolve path = [] := by
  constructor
  · intro h
    rw [← steps_joined, h, steps_nil]
  · intro h
    rw [joined, h]
    rfl

/-- What is left begins with a step. -/
theorem isStep_of_splitOn_joined {rest : List (List Char)} (h : joined path ≠ [])
    (hsplit : Text.splitOn (· == '/') (joined path) = segment :: rest) : IsStep segment := by
  rw [splitOn_joined (mt joined_eq_nil_iff.2 h)] at hsplit
  exact isStep_of_mem_resolve (hsplit ▸ List.mem_cons_self)

/-- What is left does not begin with a slash. -/
theorem isAbsolute_joined (path : List Char) : isAbsolute (joined path) = false := by
  rcases hjoined : joined path with _ | ⟨c, cs⟩
  · rfl
  · simp only [isAbsolute, List.head?_cons, Option.some.injEq, beq_eq_false_iff_ne, ne_eq]
    rintro rfl
    have hsplit : Text.splitOn (· == '/') (joined path) = [] :: Text.splitOn (· == '/') cs := by
      rw [hjoined]
      rfl
    exact (isStep_of_splitOn_joined (by simp [hjoined]) hsplit).ne_nil rfl

/-- A path is taken for relative if it is a dot, or begins with `./` or with two dots. -/
theorem isRelative_iff : isRelative path = true ↔ path = ['.'] ∨ ['.', '/'] <+: path ∨ up <+: path := by
  simp [isRelative, or_assoc]

/-- What is left is taken for a relative path only if it leads up, or looks so. -/
theorem prefix_of_isRelative_joined (h : isRelative (joined path) = true) : up <+: joined path := by
  rcases isRelative_iff.1 h with hhere | ⟨rest, hrest⟩ | hup
  · have hsplit : Text.splitOn (· == '/') (joined path) = ['.'] :: [] := by
      rw [hhere]
      rfl
    exact absurd rfl (isStep_of_splitOn_joined (by simp [hhere]) hsplit).ne_here
  · have hsplit : Text.splitOn (· == '/') (joined path) = ['.'] :: Text.splitOn (· == '/') rest := by
      rw [← hrest]
      rfl
    exact absurd rfl (isStep_of_splitOn_joined (by simp [← hrest]) hsplit).ne_here
  · exact hup

/-- A path is resolved to what is written out for it, and to nothing else. -/
theorem normalizeChars_eq_iff {out : List Char} : normalizeChars path = out ↔ Written path out := by
  have hunfold : normalizeChars path =
      -- The branches of the code and the forms of what is written are the same five
      if isAbsolute path then '/' :: joined path
      else if isRelative path then
        if joined path = [] then ['.'] else if up.isPrefixOf (joined path) then joined path
        else '.' :: '/' :: joined path
      else joined path := rfl
  rw [hunfold]
  constructor
  · rintro rfl
    split
    case isTrue habsolute => exact .absolute habsolute
    case isFalse habsolute =>
      rw [Bool.not_eq_true] at habsolute
      split
      case isTrue hrelative =>
        split
        case isTrue hnothing => exact .here habsolute hrelative hnothing
        case isFalse hsomething =>
          split
          case isTrue hup => exact .above habsolute hrelative (List.isPrefixOf_iff_prefix.1 hup)
          case isFalse hup =>
            exact .near habsolute hrelative hsomething fun h => hup (List.isPrefixOf_iff_prefix.2 h)
      case isFalse hbare => exact .bare habsolute (eq_false_of_ne_true hbare)
  · intro h
    cases h with
    | absolute h => exact if_pos h
    | here h relative nothing => simp [h, relative, nothing]
    | above h relative leads =>
      have hnil : joined path ≠ [] := fun hnil => by
        rw [hnil] at leads
        exact absurd leads (by decide)
      simp [h, relative, hnil, List.isPrefixOf_iff_prefix.2 leads]
    | near h relative something stays =>
      simp [h, relative, something, mt List.isPrefixOf_iff_prefix.1 stays]
    | bare h bare => simp [h, bare]

namespace Written

variable {out : List Char}

/-- The path that is written out leads where what is left leads. -/
theorem steps_eq (h : Written path out) : steps out = resolve path := by
  cases h with
  | absolute => rw [steps_slash, steps_joined]
  | here _ _ nothing =>
    rw [joined_eq_nil_iff.1 nothing]
    rfl
  | above | bare => exact steps_joined path
  | near => rw [steps_here_slash, steps_joined]

/-- What is written out is absolute exactly if the path is. -/
theorem isAbsolute_eq (h : Written path out) : isAbsolute out = isAbsolute path := by
  cases h with
  | absolute h | here h | near h => exact h.symm
  | above h | bare h => rw [isAbsolute_joined, h]

/-- What is written out leaves what the path leaves. -/
theorem resolve_eq (h : Written path out) : resolve out = resolve path := by
  have hleft := (settled_resolve path).foldl_reverse
  rw [List.reverse_reverse] at hleft
  rw [ModulePath.resolve_eq, h.isAbsolute_eq, h.steps_eq, hleft, List.reverse_reverse]

/-- What is left is written the same again. -/
theorem joined_eq (h : Written path out) : joined out = joined path :=
  congrArg (Text.join '/') h.resolve_eq

/-- What was written out is written out as it is. -/
theorem again (h : Written path out) : Written out out := by
  have hjoined := h.joined_eq
  cases h with
  | absolute =>
    have hagain : Written ('/' :: joined path) ('/' :: joined ('/' :: joined path)) := .absolute rfl
    rwa [hjoined] at hagain
  | here => exact .here rfl rfl rfl
  | near _ _ something stays =>
    have hagain : Written ('.' :: '/' :: joined path) ('.' :: '/' :: joined ('.' :: '/' :: joined path)) :=
      .near rfl rfl (hjoined.symm ▸ something) (hjoined.symm ▸ stays)
    rwa [hjoined] at hagain
  | above _ _ leads =>
    have hagain : Written (joined path) (joined (joined path)) :=
      .above (isAbsolute_joined path) (isRelative_iff.2 (.inr (.inr leads))) (hjoined.symm ▸ leads)
    rwa [hjoined] at hagain
  | bare =>
    have hagain : Written (joined path) (joined (joined path)) := by
      cases hrelative : isRelative (joined path) with
      | true =>
        -- What leads out of where it starts is taken for a relative path from now on
        refine .above (isAbsolute_joined path) hrelative ?_
        rw [hjoined]
        exact prefix_of_isRelative_joined hrelative
      | false => exact .bare (isAbsolute_joined path) hrelative
    rwa [hjoined] at hagain

end Written

/-- A resolved path is written out in one of the forms. -/
theorem written_normalizeChars (path : List Char) : Written path (normalizeChars path) :=
  normalizeChars_eq_iff.1 rfl

/-- A path that was resolved is resolved to itself. -/
theorem normalizeChars_normalizeChars (path : List Char) :
    normalizeChars (normalizeChars path) = normalizeChars path :=
  normalizeChars_eq_iff.2 (written_normalizeChars path).again

/-! ## What a module path names -/

/-- Without backslashes, the segments of a module path are those of a path of a store. -/
theorem segments_eq (h : '\\' ∉ path) : Path.segments path = Text.splitOn (· == '/') path := by
  refine Text.splitOn_congr fun c hc => ?_
  have hne : c ≠ '\\' := fun hback => h (hback ▸ hc)
  simp [Path.isSeparator, hne]

/-- A path has no new characters when it is resolved, but for dots and slashes. -/
theorem Written.mem {out : List Char} (h : Written path out) {c : Char} (hc : c ∈ out) :
    c = '/' ∨ c = '.' ∨ c ∈ path := by
  -- What is joined has slashes between segments of the path
  have hjoined (hc : c ∈ joined path) : c = '/' ∨ c = '.' ∨ c ∈ path := by
    rcases Text.mem_join hc with hslash | ⟨s, hs, hc⟩
    · exact .inl hslash
    · exact .inr (.inr (Text.mem_of_mem_splitOn (List.mem_filter.1 (mem_steps_of_mem_resolve hs)).1 c hc))
  cases h with
  | absolute => exact (List.mem_cons.1 hc).elim .inl hjoined
  | here => exact .inr (.inl (List.mem_singleton.1 hc))
  | above | bare => exact hjoined hc
  | near =>
    rcases List.mem_cons.1 hc with hdot | hc
    · exact .inr (.inl hdot)
    · exact (List.mem_cons.1 hc).elim .inl hjoined

/-- A path without backslashes is written out without any. -/
theorem Written.not_mem {out : List Char} (h : Written path out) (hpath : '\\' ∉ path) :
    '\\' ∉ out := by
  intro hc
  rcases h.mem hc with hslash | hdot | hc
  · exact absurd hslash (by decide)
  · exact absurd hdot (by decide)
  · exact hpath hc

/-- An absolute module path is written out as the path of a store. -/
theorem normalizeChars_of_isAbsolute (habsolute : isAbsolute path = true) (hpath : '\\' ∉ path) :
    normalizeChars path = Path.normalizeChars path := by
  have hresolve : resolve path = (Path.stack [] (Path.segments path)).reverse := by
    rw [resolve_eq, habsolute, foldl_enter_eq fun _ => isStep_of_mem_steps, segments_eq hpath,
      stack_splitOn]
  rw [normalizeChars_eq_iff.2 (.absolute habsolute), joined, hresolve]
  rfl

/-- A module path that is not absolute leads from any directory where it led before it was resolved. -/
theorem stack_normalizeChars (hrelative : isAbsolute path = false) (hpath : '\\' ∉ path)
    (home : List (List Char)) :
    Path.stack home (Path.segments (normalizeChars path)) = Path.stack home (Path.segments path) := by
  have hout := written_normalizeChars path
  rw [segments_eq (hout.not_mem hpath), segments_eq hpath, stack_splitOn, stack_splitOn, hout.steps_eq,
    stack_resolve hrelative]

/-- Joining resolves the base with the suffix behind it. -/
theorem toList_join (base suffix : String) :
    (join base suffix).toList = normalizeChars (base ++ suffix).toList := by
  rw [join, String.toList_ofList, String.toList_append]

/-- Joining a base and a suffix and joining that with nothing is the same. Where neither has a backslash,
the joined path names what the base with the suffix behind it names: in a store if it is absolute, and from
every directory of one if not. -/
theorem join_laws (base suffix : String) :
    join (join base suffix) "" = join base suffix ∧
    ('\\' ∉ (base ++ suffix).toList →
      if (base ++ suffix).toList.head? = some '/' then
        join base suffix = Path.normalize (base ++ suffix)
      else
        ∀ dir : String, Path.normalize (dir ++ "/" ++ join base suffix) =
          Path.normalize (dir ++ "/" ++ (base ++ suffix))) := by
  constructor
  -- The result is resolved already
  · rw [← String.toList_inj, toList_join, String.append_empty, toList_join, normalizeChars_normalizeChars]
  · intro hpath
    split
    case isTrue habsolute =>
      rw [← String.toList_inj, toList_join, normalizeChars_of_isAbsolute (beq_iff_eq.2 habsolute) hpath,
        Path.normalize, String.toList_ofList]
    case isFalse hrelative =>
      intro dir
      rw [Path.normalize_append_eq_iff, toList_join,
        stack_normalizeChars (beq_eq_false_iff_ne.2 hrelative) hpath]

/-- A name is taken back, and two segments that lead up are left; in an absolute path they are not. -/
theorem join_laws_sample :
    (join "@my/.." "/../../b/./..//c.d" = "../../c.d" ∧ join "../../c.d" "" = "../../c.d" ∧
      Path.normalize ("src\\x/y" ++ "/" ++ "../../c.d") =
        Path.normalize ("src\\x/y" ++ "/" ++ ("@my/.." ++ "/../../b/./..//c.d"))) ∧
    (join "/a" "/../../b" = "/b" ∧ join "/a" "/../../b" = Path.normalize ("/a" ++ "/../../b")) := by
  have hjoin : join "@my/.." "/../../b/./..//c.d" = "../../c.d" := by decide
  obtain ⟨hagain, hnames⟩ := join_laws "@my/.." "/../../b/./..//c.d"
  have hplace := hnames (by decide)
  rw [if_neg (by decide), hjoin] at hplace
  rw [hjoin] at hagain
  have hroot := (join_laws "/a" "/../../b").2 (by decide)
  rw [if_pos (by decide)] at hroot
  exact ⟨⟨hjoin, hagain, hplace _⟩, by decide, hroot⟩

end Enlist.ModulePath
