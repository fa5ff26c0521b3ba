import Enlist.Proofs.Json.Record
import Enlist.Proofs.Json.Spelling
import Enlist.Workspace.Config

/-!
# What a configuration does not depend on

A configuration is the same in whatever order the members of its objects are written, as long as no
object repeats a name, and also with members that the workspace, a project or a target does not know.

A configuration is read record by record: options in a target, targets in a project, projects in the
workspace. So a change in one place is followed outwards, and each record sees it in at most one field.

## Key results

- `WorkspaceConfig.ofWritten?_shuffled`: the order of members, at any depth
- `WorkspaceConfig.ofWritten?_grows`: members with names that are not known
- `WorkspaceConfig.ofText_ignores_order_and_additions`: both for texts
-/

namespace Enlist.Workspace

open Json Written

variable {R : Written → Written → Prop} {v w : Written}

/-! ## Named values -/

/-- A table is read from an object, member by member. -/
theorem byName?_object {α : Type} (read : Written → Option α) (ms : List (Option String × Written)) :
    byName? read (some (.object ms)) = namedMembers? ms >>= readNamed? read := by
  rw [byName?]
  refine bind_congr fun named => ?_
  rw [readNamed?, Option.map_eq_bind]
  rfl

/-- A change inside of a value does not show among the values by name, if it does not show in one. -/
theorem unseen_byName?_within {α : Type} {read : Written → Option α}
    (hread : ∀ v w, R v w → read v = read w) : Unseen (Within R) (byName? read) := by
  rintro _ _ (_ | ⟨before, after, name, h⟩)
  · rfl
  · rw [byName?_object, byName?_object]
    exact bind_eq_of_rel (namedMembers?_within h before after name) fun _ _ => readNamed?_rel hread

/-- A table is read the same from a shuffled object if its entries are. -/
theorem unseen_byName?_shuffled {α : Type} {read : Written → Option α}
    (hread : ∀ v w, Shuffled v w → read v = read w) : Unseen Shuffled (byName? read) := by
  intro v w h
  obtain ⟨hperm, hnames⟩ | hwithin := h.permuted_or_within
  · rw [byName?_object, byName?_object]
    exact bind_eq_of_rel (namedMembers?_perm hperm hnames) fun _ _ hr => readNamed?_perm read hr.1 hr.2
  · exact unseen_byName?_within hread v w hwithin

/-! ## Options -/

namespace Options

/-- Reads the options from named members. -/
def ofMembers? (members : List (String × Written)) : Option Options := do
  let main ← optionalText? (← field? members ["main"])
  let browser ← optionalText? (← field? members ["browser"])
  let extra ← extraOf? members
  return { main, browser, extra }

/-- Options are read from the members of an object. -/
theorem ofWritten?_object (ms : List (Option String × Written)) :
    ofWritten? (some (.object ms)) = namedMembers? ms >>= ofMembers? :=
  rfl

/-- The other options are all members but those that have a field. -/
theorem extraOf?_eq (members : List (String × Written)) :
    extraOf? members = readNamed? (Value.ofWritten? levels)
      (members.filter fun m => m.1 != "main" && m.1 != "browser") :=
  rfl

/-- Options do not depend on the order of their members. -/
theorem ofMembers?_perm {ms ns : List (String × Written)} (h : ms.Perm ns)
    (hnames : (ms.map Prod.fst).Nodup) : ofMembers? ms = ofMembers? ns := by
  have hextra : extraOf? ms = extraOf? ns := by
    rw [extraOf?_eq, extraOf?_eq]
    exact readNamed?_perm _ (h.filter _) (hnames.sublist (List.filter_sublist.map _))
  rw [ofMembers?, ofMembers?, field?_perm h, field?_perm h, hextra]

/-- Options do not depend on the order inside of their members. -/
theorem ofMembers?_shuffled {ms ns : List (String × Written)}
    (h : List.Forall₂ (SameName Shuffled) ms ns) : ofMembers? ms = ofMembers? ns := by
  have hextra : extraOf? ms = extraOf? ns := by
    rw [extraOf?_eq, extraOf?_eq]
    -- A field of a known name stays out, whatever its value is
    refine readNamed?_rel (fun _ _ hvw => Value.ofWritten?_shuffled hvw) (List.rel_filter ?_ h)
    intro m n hmn
    simp only [hmn.1]
  have htext := betweenParts_shuffled.unseen_optionalText?
  rw [ofMembers?, ofMembers?, hextra]
  -- Of the two texts that are read, neither sees the order of members
  refine bind_eq_of_rel (field?_rel h ["main"]) fun _ _ hmain => ?_
  rw [htext.eq_of_rel hmain]
  refine bind_congr fun main => bind_eq_of_rel (field?_rel h ["browser"]) fun _ _ hbrowser => ?_
  rw [htext.eq_of_rel hbrowser]

/-- Options are read the same from a shuffled object. -/
theorem unseen_shuffled : Unseen Shuffled ofWritten? := by
  intro v w h
  obtain ⟨hperm, hnames⟩ | hwithin := h.permuted_or_within
  · rw [ofWritten?_object, ofWritten?_object]
    exact bind_eq_of_rel (namedMembers?_perm hperm hnames) fun _ _ hr => ofMembers?_perm hr.1 hr.2
  · cases hwithin with
    | element => rfl
    | member before after name hpart =>
      rw [ofWritten?_object, ofWritten?_object]
      exact bind_eq_of_rel (namedMembers?_within hpart before after name) fun _ _ =>
        ofMembers?_shuffled

end Options

/-! ## Records -/

/-- A target is read from its fields. -/
theorem Target.ofWritten?_congr (hR : BetweenParts R) (hoptions : Unseen R Options.ofWritten?)
    (h : SameFields R [["builder"], ["options"]] v w) : ofWritten? v = ofWritten? w := by
  rw [ofWritten?, ofWritten?]
  refine bind_eq_of_rel h fun fields fields' hfields => ?_
  obtain _ | ⟨hbuilder, _ | ⟨hoption, _ | _⟩⟩ := hfields <;> try rfl
  simp only [hR.unseen_optionalText?.eq_of_rel hbuilder, hoptions.eq_of_rel hoption]

/-- A project is read from its fields. -/
theorem Project.ofWritten?_congr (hR : BetweenParts R)
    (htargets : Unseen R (byName? Target.ofWritten?))
    (h : SameFields R
      [["projectType"], ["root"], ["sourceRoot"], ["prefix"], ["architect", "targets"]] v w) :
    ofWritten? v = ofWritten? w := by
  rw [ofWritten?, ofWritten?]
  refine bind_eq_of_rel h fun fields fields' hfields => ?_
  obtain _ | ⟨hType, _ | ⟨hroot, _ | ⟨hsource, _ | ⟨hselector, _ | ⟨htarget, _ | _⟩⟩⟩⟩⟩ := hfields <;>
    try rfl
  simp only [hR.unseen_optionalText?.eq_of_rel hType, (hR.unseen_textOr? "").eq_of_rel hroot,
    hR.unseen_optionalText?.eq_of_rel hsource, hR.unseen_optionalText?.eq_of_rel hselector,
    htargets.eq_of_rel htarget]

/-- A configuration is read from its fields. -/
theorem WorkspaceConfig.ofWritten?_congr (hR : BetweenParts R)
    (hprojects : Unseen R (byName? Project.ofWritten?))
    (h : SameFields R [["version"], ["newProjectRoot"], ["defaultProject"], ["projects"]] v w) :
    ofWritten? v = ofWritten? w := by
  rw [ofWritten?, ofWritten?]
  refine bind_eq_of_rel h fun fields fields' hfields => ?_
  obtain _ | ⟨hversion, _ | ⟨hroot, _ | ⟨hdefault, _ | ⟨hproject, _ | _⟩⟩⟩⟩ := hfields <;> try rfl
  simp only [(hR.unseen_optionalNatural? versionLimit).eq_of_rel hversion,
    hR.unseen_optionalText?.eq_of_rel hroot, hR.unseen_optionalText?.eq_of_rel hdefault,
    hprojects.eq_of_rel hproject]

/-! ## Members in another order -/

/-- A target is read the same from a shuffled object. -/
theorem Target.ofWritten?_shuffled (h : Shuffled v w) : ofWritten? v = ofWritten? w :=
  ofWritten?_congr betweenParts_shuffled Options.unseen_shuffled (sameFields_shuffled h _)

/-- A project is read the same from a shuffled object. -/
theorem Project.ofWritten?_shuffled (h : Shuffled v w) : ofWritten? v = ofWritten? w :=
  ofWritten?_congr betweenParts_shuffled
    (unseen_byName?_shuffled fun _ _ hvw => Target.ofWritten?_shuffled hvw) (sameFields_shuffled h _)

/-- A configuration is read the same from a shuffled object. -/
theorem WorkspaceConfig.ofWritten?_shuffled (h : Shuffled v w) : ofWritten? v = ofWritten? w :=
  ofWritten?_congr betweenParts_shuffled
    (unseen_byName?_shuffled fun _ _ hvw => Project.ofWritten?_shuffled hvw) (sameFields_shuffled h _)

/-- A configuration does not depend on the order of the members of any object in it. No condition on the
two names of the targets is needed: a project that gives both is refused in either order. -/
theorem WorkspaceConfig.ofWritten?_reordered (hv : v.NoRepeats) (h : v.Reordered w) :
    ofWritten? v = ofWritten? w := by
  -- Names that are not repeated stay so, which the next step asks for
  suffices w.NoRepeats ∧ ofWritten? v = ofWritten? w from this.2
  induction h with
  | refl => exact ⟨hv, rfl⟩
  | tail _ hstep ih => exact ⟨hstep.noRepeats ih.1, ih.2.trans (ofWritten?_shuffled ⟨ih.1, hstep⟩)⟩

/-! ## Members that are not known -/

/-- A target gets a member that it does not know. -/
def TargetGrows : Written → Written → Prop :=
  Gains ["builder", "options"]

/-- A project or a target of it gets a member that it does not know. A target stands two levels below
the project, as it is a member of one. -/
def ProjectGrows (v w : Written) : Prop :=
  Gains ["projectType", "root", "sourceRoot", "prefix", "architect", "targets"] v w ∨
    Within (Within TargetGrows) v w

/-- The workspace, a project or a target gets a member that it does not know. A project stands two
levels below the workspace. -/
def WorkspaceGrows (v w : Written) : Prop :=
  Gains ["version", "newProjectRoot", "defaultProject", "projects"] v w ∨
    Within (Within ProjectGrows) v w

/-- A target is read the same with one unknown member more. -/
theorem Target.ofWritten?_grows (h : TargetGrows v w) : ofWritten? v = ofWritten? w := by
  rw [ofWritten?, ofWritten?, fields?_gains h [["builder"], ["options"]] rfl]

/-- A project is read the same with one unknown member more. -/
theorem Project.ofWritten?_grows (h : ProjectGrows v w) : ofWritten? v = ofWritten? w := by
  obtain hgains | hwithin := h
  · rw [ofWritten?, ofWritten?, fields?_gains hgains
      [["projectType"], ["root"], ["sourceRoot"], ["prefix"], ["architect", "targets"]] rfl]
  · exact ofWritten?_congr betweenParts_within
      (unseen_byName?_within fun _ _ hvw => Target.ofWritten?_grows hvw) (sameFields_within hwithin _)

/-- A configuration does not depend on members that are not known. -/
theorem WorkspaceConfig.ofWritten?_grows (h : WorkspaceGrows v w) :
    ofWritten? v = ofWritten? w := by
  obtain hgains | hwithin := h
  · rw [ofWritten?, ofWritten?, fields?_gains hgains
      [["version"], ["newProjectRoot"], ["defaultProject"], ["projects"]] rfl]
  · exact ofWritten?_congr betweenParts_within
      (unseen_byName?_within fun _ _ hvw => Project.ofWritten?_grows hvw) (sameFields_within hwithin _)

/-- A configuration is read the same with any number of unknown members more. -/
theorem WorkspaceConfig.ofWritten?_grown (h : Relation.ReflTransGen WorkspaceGrows v w) :
    ofWritten? v = ofWritten? w := by
  induction h with
  | refl => rfl
  | tail _ hstep ih => exact ih.trans (ofWritten?_grows hstep)

/-! ## Texts -/

/-- Texts of values that are read the same give the same configuration. -/
theorem WorkspaceConfig.ofText_congr {a b : String} (ha : Token.ofText? a.toList = some v.tokens)
    (hb : Token.ofText? b.toList = some w.tokens) (h : ofWritten? v = ofWritten? w) :
    ofText a = ofText b := by
  rw [ofText, ofText, ofText?, ofText?, Written.ofText?_eq_some_iff.2 ha,
    Written.ofText?_eq_some_iff.2 hb, Option.bind_some, Option.bind_some, h]

/-- Texts of values that differ in the order of members only, at any depth, are refused both or give
one configuration, if no object repeats a name; and so do texts of which one has some more members
that are not known. No selection of a project and no main file can tell them apart. -/
theorem WorkspaceConfig.ofText_ignores_order_and_additions {a b : String}
    (ha : Token.ofText? a.toList = some v.tokens) (hb : Token.ofText? b.toList = some w.tokens) :
    (v.NoRepeats → v.Reordered w → ofText a = ofText b) ∧
      (Relation.ReflTransGen WorkspaceGrows v w → ofText a = ofText b) :=
  ⟨fun hv h => ofText_congr ha hb (ofWritten?_reordered hv h),
    fun h => ofText_congr ha hb (ofWritten?_grown h)⟩

/-- Two members of the workspace and two of an option are exchanged in the second text, and in the third
the workspace, a project and a target get a member each. -/
theorem WorkspaceConfig.ofText_ignores_order_and_additions_sample :
    let a := "\x7b\"version\": 1, \"projects\": \x7b\"shop\": \x7b\"targets\": \x7b\"build\": " ++
      "\x7b\"options\": \x7b\"main\": \"m.ts\", \"é\": [\x7b\"p\": 1e2, \"q\": []\x7d]\x7d\x7d\x7d\x7d\x7d\x7d"
    let b := "\x7b\"projects\": \x7b\"shop\": \x7b\"targets\": \x7b\"build\": \x7b\"options\": " ++
      "\x7b\"main\": \"m.ts\", \"é\": [\x7b\"q\": [], \"p\": 1e2\x7d]\x7d\x7d\x7d\x7d\x7d, \"version\": 1\x7d"
    let c := "\x7b\"$schema\": null, \"version\": 1, \"projects\": \x7b\"shop\": \x7b\"x\": [\x7b\x7d], " ++
      "\"targets\": \x7b\"build\": \x7b\"x\": [\x7b\x7d], \"options\": " ++
      "\x7b\"main\": \"m.ts\", \"é\": [\x7b\"p\": 1e2, \"q\": []\x7d]\x7d\x7d\x7d\x7d\x7d\x7d"
    ofText a = ofText b ∧ ofText a = ofText c ∧
      ((ofText a).toOption.bind fun config => Members.get? "shop" config.projects).bind
        Project.mainFile? = some "m.ts" := by
  intro a b c
  let version : Option String × Written := (some "version", .number ⟨false, 1, 0, none⟩)
  let p : Option String × Written := (some "p", .number ⟨false, 1, 0, some 2⟩)
  let q : Option String × Written := (some "q", .array [])
  let x : Option String × Written := (some "x", .array [.object []])
  let options (ms : List (Option String × Written)) : Option String × Written :=
    (some "options", .object [(some "main", .string (some "m.ts")), (some "é", .array [.object ms])])
  let targets (build : List (Option String × Written)) : Option String × Written :=
    (some "targets", .object [(some "build", .object build)])
  let projects (shop : List (Option String × Written)) : Option String × Written :=
    (some "projects", .object [(some "shop", .object shop)])
  let v : Written := .object [version, projects [targets [options [p, q]]]]
  let w : Written := .object [projects [targets [options [q, p]]], version]
  let u : Written := .object [(some "$schema", .null), version,
    projects [x, targets [x, options [p, q]]]]
  -- The three texts, by their tokens
  have ha : Token.ofText? a.toList = some v.tokens := by decide +kernel
  have hb : Token.ofText? b.toList = some w.tokens := by decide +kernel
  have hc : Token.ofText? c.toList = some u.tokens := by decide +kernel
  have hv : v.NoRepeats := by simp [v, version, projects, targets, options, p, q]
  have hreordered : v.Reordered w := by
    have hoptions : Written.Swapped (.object [p, q]) (.object [q, p]) := .here (.swap ..)
    let turned : Written := .object [projects [targets [options [p, q]]], version]
    have htop : Written.Swapped v turned := .here (.swap ..)
    have hinner : Written.Swapped turned w :=
      -- The members are swapped three objects, one array and one object further in
      .member [] [version] _ <| .member [] [] _ <| .member [] [] _ <| .member [] [] _ <|
        .member [] [] _ <| .member [_] [] _ <| .element [] [] hoptions
    exact .tail (.single htop) hinner
  have hgrown : Relation.ReflTransGen WorkspaceGrows v u := by
    let schema : Option String × Written := (some "$schema", .null)
    let shop : List (Option String × Written) := [targets [options [p, q]]]
    -- One unknown member is put in at each of three levels
    have htop : WorkspaceGrows v (.object [schema, version, projects shop]) :=
      .inl (.mk [] [_, _] (by decide) _)
    have hproject : WorkspaceGrows (.object [schema, version, projects shop])
        (.object [schema, version, projects (x :: shop)]) :=
      .inr (.member [_, _] [] _ (.member [] [] _ (.inl (.mk [] [_] (by decide) _))))
    have htarget : WorkspaceGrows (.object [schema, version, projects (x :: shop)]) u :=
      .inr (.member [_, _] [] _ (.member [] [] _ (.inr (.member [_] [] _ (.member [] [] _
        (.mk [] [_] (by decide) _))))))
    exact ((Relation.ReflTransGen.single htop).tail hproject).tail htarget
  exact ⟨(ofText_ignores_order_and_additions ha hb).1 hv hreordered,
    (ofText_ignores_order_and_additions ha hc).2 hgrown, by decide +kernel⟩

end Enlist.Workspace
