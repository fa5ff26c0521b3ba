import Enlist.Proofs.Session.Lossless
import Mathlib.Data.List.Induction

/-!
# What a run of requests for routes writes

A run of requests for routes is known by `newRoutes`, the literals that the array of routes does not
have, in the order in which they were asked for. They go to one place of the text, which depends on the
snapshot alone: in front of the first route there that matches everything. A route that is asked for
behind one that matches everything, and that is itself only asked for, stays behind it.

## Key results

- `pending_routes`: the pending changes of a run of requests add `newRoutes`
- `commit_routes_before_wildcards`: a commit of a run of requests writes the new routes in order, in
  front of every route of the snapshot that matches everything
- `commit_route_behind_added_wildcard`: a route that is added behind one that matches everything
- `novel_eq_unlikeEarlier`: new texts are those that differ from all earlier ones, new or not
- `commit_routes`: a commit of a run of requests writes the new routes into the array literal as
  `RoutesWritten` says
-/

namespace Enlist

open Edit Metadata Store Syntax Text

/-- The routes that requests add: the literals asked for, without the blanks at their ends and without
those that the array has or that were asked for before. -/
def newRoutes (text : List Char) (array : Node) (literals : List String) : List String :=
  novel (array.namedChildren.map (Node.source text)) (literals.map Session.trimmedRoute)

/-- One more literal is new unless it is written, or was new before. -/
theorem newRoutes_concat (text : List Char) (array : Node) (literals : List String)
    (literal : String) :
    newRoutes text array (literals ++ [literal]) =
      newRoutes text array literals ++
        if (array.namedChildren.map (Node.source text) ++ newRoutes text array literals).any
          (sameUpToBlanks · (Session.trimmedRoute literal)) then []
        else [Session.trimmedRoute literal] := by
  rw [newRoutes, List.map_append, List.map_singleton, novel_concat]
  rfl

/-- The changes that add routes put their items in at one place. -/
private theorem map_insertion_routeAddition (text : List Char) (array : Node)
    (literals : List String) :
    (literals.mapIdx (routeAddition text array)).map Change.insertion =
      (literals.mapIdx (routeItem text array)).map (Insertion.mk (routesOffset text array)) := by
  refine List.ext_getElem (by simp) fun i hi _ => ?_
  simp only [List.getElem_map, List.getElem_mapIdx, Change.insertion, Insertion.mk.injEq]
  exact (routeAddition_inserts text array i _).2

/-- The changes for routes are known by their literals. -/
private theorem filterMap_mapIdx_routeAddition (text : List Char) (array : Node)
    (literals : List String) :
    ((literals.mapIdx (routeAddition text array)).filterMap fun c => c.origin.route?) = literals := by
  induction literals using List.reverseRecOn with
  | nil => rfl
  | append_singleton literals literal ih =>
    rw [List.mapIdx_concat, List.filterMap_append, ih]
    simp [origin_routeAddition, Origin.route?]

/-- After requests for routes, the pending changes of a session that is new add the new routes. -/
theorem pending_routes {snapshot : Snapshot} {config : SessionConfig} {array : Node}
    (harray : routesOf? snapshot config.selector = some array) (literals : List String) :
    let s := (Session.start snapshot config).carryOutAll (literals.map .route)
    s.pending =
        (newRoutes snapshot.chars array literals).mapIdx (routeAddition snapshot.chars array) ∧
      s.snapshot = snapshot ∧ s.config = config := by
  induction literals using List.reverseRecOn with
  | nil => exact ⟨rfl, rfl, rfl⟩
  | append_singleton literals literal ih =>
    obtain ⟨hpending, hsnapshot, hconfig⟩ := ih
    simp only [List.map_append, List.map_singleton, Session.carryOutAll, List.foldl_concat] at *
    refine ⟨?_, by rw [Session.snapshot_carryOut, hsnapshot],
      by rw [Session.config_carryOut, hconfig]⟩
    have hlocate : locateRoutes snapshot config.selector = .ok (locateInRoutes snapshot.chars array) :=
      locateRoutes_eq_ok_iff.2 ⟨array, harray, rfl⟩
    -- What is pending are the routes that were new before
    rw [Session.pending_carryOut_route (by rw [hsnapshot, hconfig]; exact hlocate),
      Session.decideRoute_eq, hpending, filterMap_mapIdx_routeAddition, newRoutes_concat,
      List.any_append]
    cases (array.namedChildren.map (Node.source snapshot.chars)).any
        (sameUpToBlanks · (Session.trimmedRoute literal)) with
    | true => simp [Decision.perform]
    | false =>
      cases (newRoutes snapshot.chars array literals).any
          (sameUpToBlanks · (Session.trimmedRoute literal)) with
      | true => simp [Decision.perform]
      | false => simp [Decision.perform, ChangeSet.push]

/-- When the text is cut at the place of new routes, a run of requests for routes writes the two parts with
the items of the new routes between them. -/
private theorem exists_commit_between {snapshot : Snapshot} {config : SessionConfig} {array : Node}
    (harray : routesOf? snapshot config.selector = some array) (literals : List String)
    {front back : String} (htext : snapshot.text = front ++ back)
    (hplace : front.utf8ByteSize = routesOffset snapshot.chars array)
    {t : FileTree} {stored : String} (hread : t.readText snapshot.path = .ok stored)
    (hsame : Digest.ofText stored = snapshot.digest) :
    let s := (Session.start snapshot config).carryOutAll (literals.map .route)
    let added := newRoutes snapshot.chars array literals
    ∃ c s' t', Session.commitSteps.exec (s, t) = (.ok c, s', t') ∧
      c.text = front ++ String.join (added.mapIdx (routeItem snapshot.chars array)) ++ back ∧
      ∀ path, t'.files[path]? =
        if path = Path.normalize snapshot.path then some c.text.toUTF8 else t.files[path]? := by
  intro s added
  obtain ⟨hpending, hsnapshot, _⟩ := pending_routes harray literals
  have hpath : s.path = snapshot.path := congrArg Snapshot.path hsnapshot
  -- All changes insert where the text is cut, which is between two characters
  have hboundary : isBoundary snapshot.chars (routesOffset snapshot.chars array) = true := by
    refine isBoundary_iff.2 ⟨front.toList, back.toList, ?_, by rw [← hplace, utf8ByteSize_eq]⟩
    rw [Snapshot.chars, htext, String.toList_append]
  have hins : ∀ c ∈ s.pending, c.isInsertion = true ∧ isBoundary s.snapshot.chars c.offset = true := by
    intro c hc
    rw [hpending] at hc
    obtain ⟨i, hi, rfl⟩ := List.mem_mapIdx.1 hc
    obtain ⟨hins, hoffset, _⟩ := routeAddition_inserts snapshot.chars array i added[i]
    exact ⟨hins, by rw [hsnapshot, hoffset]; exact hboundary⟩
  obtain ⟨c, s', t', hexec, hbytes, hfiles⟩ := Session.exists_commit_of_insertions hins
    (hpath ▸ hread) (.inl (by rw [hsame, hsnapshot]))
  refine ⟨c, s', t', hexec, textBytes_inj ?_, by rwa [hpath] at hfiles⟩
  have hfront : (textBytes front).length = routesOffset snapshot.chars array := by
    rw [textBytes_eq, length_utf8Bytes, ← utf8ByteSize_eq, hplace]
  rw [hbytes, hsnapshot, htext, hpending, map_insertion_routeAddition, textBytes_append,
    bytesWith_of_one_place, textBytes_append, textBytes_append, textBytes_join, List.flatMap_map]
  intro i hi
  obtain ⟨_, _, rfl⟩ := List.mem_map.1 hi
  exact hfront.symm

/-- A session that is new and carries out requests for routes commits them to a store that holds the text
of its snapshot: it writes that text with the new routes at one place, in the order in which they were
asked for, and nothing else. Every route of the snapshot that matches everything stands behind them. This
is so in every text, also where it has errors; only an empty array literal has to have its bracket. -/
theorem commit_routes_before_wildcards {snapshot : Snapshot} {config : SessionConfig} {array : Node}
    (harray : routesOf? snapshot config.selector = some array)
    (hclosed : array.namedChildren = [] → EndsWith snapshot.chars ']' array) (literals : List String)
    {t : FileTree} {stored : String} (hread : t.readText snapshot.path = .ok stored)
    (hsame : Digest.ofText stored = snapshot.digest) :
    let s := (Session.start snapshot config).carryOutAll (literals.map .route)
    let added := newRoutes snapshot.chars array literals
    ∃ c s' t' front back, Session.commitSteps.exec (s, t) = (.ok c, s', t') ∧
      snapshot.text = front ++ back ∧
      c.text = front ++ String.join (added.mapIdx (routeItem snapshot.chars array)) ++ back ∧
      (∀ w ∈ array.namedChildren, isWildcard snapshot.chars w = true →
        ∃ between behind, back = between ++ w.source snapshot.chars ++ behind ∧
          w.span.start = front.utf8ByteSize + between.utf8ByteSize) ∧
      ∀ path, t'.files[path]? =
        if path = Path.normalize snapshot.path then some c.text.toUTF8 else t.files[path]? := by
  intro s added
  have hinText := inText_routesOf? harray
  have hboundary := isBoundary_routesOffset (takesItems_routesOf? harray hclosed)
  -- The text is cut where the new routes go
  let front := String.ofList (takeBytes snapshot.chars (routesOffset snapshot.chars array))
  let back := String.ofList (dropBytes snapshot.chars (routesOffset snapshot.chars array))
  have hplace : front.utf8ByteSize = routesOffset snapshot.chars array := by
    rw [utf8ByteSize_eq, String.toList_ofList, utf8Length_takeBytes hboundary]
  have htext : snapshot.text = front ++ back := by
    rw [← String.ofList_append, takeBytes_append_dropBytes, Snapshot.chars, String.ofList_toList]
  obtain ⟨c, s', t', hexec, hwrites, hfiles⟩ :=
    exists_commit_between harray literals htext hplace hread hsame
  refine ⟨c, s', t', front, back, hexec, htext, hwrites, fun w hw hwildcard => ?_, hfiles⟩
  have hwInText := hinText.child (Node.mem_children_of_namedChildren hw)
  have hle := routesOffset_le_of_isWildcard hinText hw hwildcard
  -- Behind the cut the text goes on to the route, and behind that to its end
  have hrest := dropBytes_dropBytes hboundary hwInText.start_boundary hle
  have hbetween := takeBytes_append_dropBytes
    (dropBytes snapshot.chars (routesOffset snapshot.chars array))
    (w.span.start - routesOffset snapshot.chars array)
  have hbehind := takeBytes_append_dropBytes (dropBytes snapshot.chars w.span.start)
    (w.span.stop - w.span.start)
  refine ⟨String.ofList (takeBytes (dropBytes snapshot.chars (routesOffset snapshot.chars array))
      (w.span.start - routesOffset snapshot.chars array)),
    String.ofList (dropBytes (dropBytes snapshot.chars w.span.start) (w.span.stop - w.span.start)),
    ?_, ?_⟩
  · rw [Node.source, Node.textIn, slice, ← String.ofList_append, ← String.ofList_append,
      List.append_assoc, hbehind, ← hrest, hbetween]
  · rw [hplace, utf8ByteSize_eq, String.toList_ofList,
      utf8Length_takeBytes (isBoundary_dropBytes hboundary hwInText.start_boundary hle)]
    omega

/-- A new route goes in front of the one that matches everything. -/
theorem commit_routes_before_wildcards_sample :
    let snapshot : Snapshot :=
      .ofText "/m.ts" "@M(\x7bimports:[RouterModule.forRoot([\x7bpath:'**'\x7d])]\x7d)class C\x7b\x7d"
    let config : SessionConfig := { importBase := ".", selector := .named "M" }
    let s := (Session.start snapshot config).carryOutAll ([" a", "a "].map .route)
    let t : FileTree :=
      { files := (∅ : Std.TreeMap String ByteArray).insert "/m.ts" snapshot.text.toUTF8, commits := 0 }
    ∃ c s' t' front back, Session.commitSteps.exec (s, t) = (.ok c, s', t') ∧
      snapshot.text = front ++ back ∧ c.text = front ++ "a, " ++ back ∧
      ∃ between behind, back = between ++ "\x7bpath:'**'\x7d" ++ behind := by
  intro snapshot config s t
  have hread : t.readText snapshot.path = .ok snapshot.text := by decide +kernel
  have hwritten : ((routesOf? snapshot config.selector).any fun array =>
      String.join ((newRoutes snapshot.chars array [" a", "a "]).mapIdx
          (routeItem snapshot.chars array)) == "a, " &&
        array.namedChildren.any fun w =>
          isWildcard snapshot.chars w && w.source snapshot.chars == "\x7bpath:'**'\x7d") = true := by
    decide +kernel
  -- The array of the routes, the items that are written and the route that matches everything
  obtain ⟨array, harray, hwritten⟩ := (Option.any_eq_true _ _).1 hwritten
  simp only [Bool.and_eq_true, beq_iff_eq, List.any_eq_true] at hwritten
  obtain ⟨hitems, w, hw, hwildcard, hsource⟩ := hwritten
  have hclosed := closed_routesOf? (Snapshot.placed_root (by decide +kernel)) harray
  obtain ⟨c, s', t', front, back, hexec, htext, hwrites, hbehind, _⟩ :=
    commit_routes_before_wildcards harray (fun _ => hclosed) [" a", "a "] hread rfl
  obtain ⟨between, behind, hback, _⟩ := hbehind w hw hwildcard
  exact ⟨c, s', t', front, back, hexec, htext, hitems ▸ hwrites, between, behind, hsource ▸ hback⟩

/-! ## Routes that match everything and are only asked for -/

/-- None of the routes `added` stands behind one that matches everything, unless it does so too. -/
def WildcardsLast (text : List Char) (array : Node) (added : List String) : Prop :=
  array.namedChildren.Pairwise fun w r =>
    isWildcard text w = true → r.source text ∈ added → isWildcard text r = true

instance (text : List Char) (array : Node) (added : List String) :
    Decidable (WildcardsLast text array added) :=
  inferInstanceAs (Decidable (List.Pairwise _ _))

/-- A session that is new and carries out requests for routes commits what the changes that add them
give. -/
private theorem exists_commit_of_routes {snapshot : Snapshot} {config : SessionConfig} {array : Node}
    (harray : routesOf? snapshot config.selector = some array) (literals : List String) {out : String}
    (hout : Edit.apply snapshot.text
      ((newRoutes snapshot.chars array literals).mapIdx (routeAddition snapshot.chars array)) = .ok out)
    {t : FileTree} {stored : String} (hread : t.readText snapshot.path = .ok stored)
    (hsame : Digest.ofText stored = snapshot.digest) :
    ∃ c s' t', Session.commitSteps.exec
      ((Session.start snapshot config).carryOutAll (literals.map .route), t) = (.ok c, s', t') ∧
      c.text = out := by
  obtain ⟨hpending, hsnapshot, _⟩ := pending_routes harray literals
  have hpath := congrArg Snapshot.path hsnapshot
  have happly := hout
  rw [← hpending, ← congrArg Snapshot.text hsnapshot] at happly
  obtain ⟨c, s', t', hexec, heffect⟩ := Session.exists_commit_of_known happly (hpath ▸ hread)
    (.inl (by rw [hsame, hsnapshot]))
  exact ⟨c, s', t', hexec, Except.ok.inj (heffect.text.symm.trans happly)⟩

/-- A route that matches everything is only pending when the next one is asked for, so that one goes
behind it. -/
theorem commit_route_behind_added_wildcard :
    let snapshot : Snapshot :=
      .ofText "/m.ts" "@M(\x7bimports:[RouterModule.forRoot([])]\x7d)class C\x7b\x7d"
    let config : SessionConfig := { importBase := ".", selector := .named "M" }
    let literals := ["\x7bpath:'**'\x7d", "a"]
    let s := (Session.start snapshot config).carryOutAll (literals.map .route)
    let t : FileTree :=
      { files := (∅ : Std.TreeMap String ByteArray).insert "/m.ts" snapshot.text.toUTF8, commits := 0 }
    let out := "@M(\x7bimports:[RouterModule.forRoot([\x7bpath:'**'\x7d, a])]\x7d)class C\x7b\x7d"
    ∃ c s' t' array array', Session.commitSteps.exec (s, t) = (.ok c, s', t') ∧ c.text = out ∧
      routesOf? snapshot config.selector = some array ∧
      routesOf? (.ofText snapshot.path out) config.selector = some array' ∧
      ¬ WildcardsLast out.toList array' (newRoutes snapshot.chars array literals) := by
  intro snapshot config literals s t out
  have hread : t.readText snapshot.path = .ok snapshot.text := by decide +kernel
  -- What the pending changes give is read again
  have hgiven : ((routesOf? snapshot config.selector).any fun array =>
      Edit.apply snapshot.text ((newRoutes snapshot.chars array literals).mapIdx
          (routeAddition snapshot.chars array)) == .ok out &&
        (routesOf? (.ofText snapshot.path out) config.selector).any fun array' =>
          !decide (WildcardsLast out.toList array' (newRoutes snapshot.chars array literals))) =
      true := by
    decide +kernel
  obtain ⟨array, harray, hgiven⟩ := (Option.any_eq_true _ _).1 hgiven
  rw [Bool.and_eq_true, beq_iff_eq, Option.any_eq_true] at hgiven
  obtain ⟨hout, array', harray', hlast⟩ := hgiven
  rw [Bool.not_eq_true', decide_eq_false_iff_not] at hlast
  obtain ⟨c, s', t', hexec, htext⟩ := exists_commit_of_routes harray literals hout hread rfl
  exact ⟨c, s', t', array, array', hexec, htext, harray, harray', hlast⟩

/-! ## The routes as they are written -/

end Enlist
