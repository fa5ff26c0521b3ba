import Enlist.Proofs.Session.Lossless
import Mathlib.Data.List.Induction

/-!
# What a run of requests for imports writes

A run of requests for imports is known by `newImports`: the first request for each name and module that
the text does not bind. `importInsertions` says what they become; whether empty braces take a name in
depends on the requests before it alone. Neither knows of changes, and `Pending` says that the pending
changes are those.

## Key results

- `newImports_concat` / `importInsertions_concat`: what one more request adds
- `isFree_of_pending`: empty braces are free as long as no name was asked for them
- `commit_imports`: a commit of a run of requests writes the snapshot with `importInsertions`
-/

namespace Enlist

open Edit Store Syntax Text

namespace Imports

/-! ## What is asked for -/

/-- The first request for each name and module that the text does not bind. -/
def newImports (t : ImportTable) (rs : List ImportRequest) : List ImportRequest :=
  (rs.eraseDupsBy fun r earlier => earlier.origin == r.origin).filter fun r =>
    !t.isImported r.symbol r.module

/-- The request takes a name into the braces for the module, if they are empty. -/
def ImportRequest.fills (module : String) (r : ImportRequest) : Bool :=
  !r.isDefault && r.module == module

/-- What requests become that come behind the requests `before`: only the first that fills empty braces
goes into them. -/
def importInsertions (t : ImportTable) (before : List ImportRequest) :
    List ImportRequest → List Insertion
  | [] => []
  | r :: rs =>
    t.inserted r (!before.any (ImportRequest.fills r.module)) :: importInsertions t (before ++ [r]) rs

variable {t : ImportTable} {rs before : List ImportRequest} {r : ImportRequest}

/-- One more element is kept unless one like it was kept before. -/
private theorem eraseDupsBy_concat {α : Type} (same : α → α → Bool) (as : List α) (a : α) :
    (as ++ [a]).eraseDupsBy same =
      as.eraseDupsBy same ++ if (as.eraseDupsBy same).any (same a) then [] else [a] := by
  -- The loop on a list with one more element, whatever it has kept so far
  have hloop : ∀ as kept : List α, List.eraseDupsBy.loop same (as ++ [a]) kept =
      List.eraseDupsBy.loop same as kept ++
        if (List.eraseDupsBy.loop same as kept).any (same a) then [] else [a] := by
    intro as
    induction as with
    | nil =>
      intro kept
      cases h : kept.any (same a) <;> simp [List.eraseDupsBy.loop, h]
    | cons b as ih =>
      intro kept
      cases h : kept.any (same b) <;> simp only [List.cons_append, List.eraseDupsBy.loop, h, ih]
  exact hloop as []

/-- One more request is new unless the text binds the name or it was asked for before. -/
theorem newImports_concat (t : ImportTable) (rs : List ImportRequest) (r : ImportRequest) :
    newImports t (rs ++ [r]) =
      newImports t rs ++
        if t.isImported r.symbol r.module || (newImports t rs).any fun q => q.origin == r.origin then []
        else [r] := by
  rw [newImports, eraseDupsBy_concat, List.filter_append]
  congr 1
  cases himported : t.isImported r.symbol r.module with
  | true => split <;> simp [himported]
  | false =>
    -- A request for the same name and module is not bound either, so it was kept
    have hany : ((rs.eraseDupsBy fun r earlier => earlier.origin == r.origin).any fun q =>
        q.origin == r.origin) = (newImports t rs).any fun q => q.origin == r.origin := by
      rw [newImports, List.any_filter]
      congr 1
      funext q
      cases hq : q.origin == r.origin with
      | false => rw [Bool.and_false]
      | true =>
        simp only [ImportRequest.origin, beq_iff_eq, Origin.importOf.injEq] at hq
        rw [hq.1, hq.2, himported]
        rfl
    rw [hany, Bool.false_or]
    split <;> simp [himported]

/-- One more import goes in behind the others. -/
theorem importInsertions_concat (t : ImportTable) (before rs : List ImportRequest)
    (r : ImportRequest) :
    importInsertions t before (rs ++ [r]) =
      importInsertions t before rs ++
        [t.inserted r (!(before ++ rs).any (ImportRequest.fills r.module))] := by
  induction rs generalizing before with
  | nil => simp [importInsertions]
  | cons q rs ih => simp [importInsertions, ih]

/-! ## Empty braces -/

variable {text : List Char} {d : ImportDecl} {module : String} {o : Nat}

/-- A statement of its own goes nowhere into braces. -/
private theorem statementInserted_ne (h : t.Placed text) (hd : d ∈ t.decls)
    (ho : d.joinOffset? = some o) (r : ImportRequest) : (t.statementInserted r).offset ≠ o := by
  rw [ImportTable.statementInserted]
  cases hlast : t.decls.getLast? with
  | none =>
    rw [List.getLast?_eq_none_iff] at hlast
    rw [hlast] at hd
    cases hd
  | some last => exact (h.join_ne_module d hd last (List.mem_of_mem_getLast? hlast) o ho).symm

/-- A request goes into the empty braces for a module exactly when it fills them while they are free. -/
private theorem inserted_offset_eq_iff (h : t.Placed text) (hd : t.openClause? module = some d)
    (ho : d.joinOffset? = some o) (hnamed : d.named = []) (r : ImportRequest) (free : Bool) :
    (t.inserted r free).offset = o ↔ (r.fills module && free) = true := by
  obtain ⟨hmem, hmodule, _⟩ := ImportTable.mem_of_openClause? hd
  have hstatement := statementInserted_ne h hmem ho r
  cases hdefault : r.isDefault with
  | true => simp [ImportTable.inserted, ImportRequest.fills, hdefault, hstatement]
  | false =>
    cases hjoin : t.joinInserted? r free with
    | none =>
      -- The braces are taken, or they are no braces for the module of the request
      have hnot : (r.fills module && free) = false := by
        rw [Bool.eq_false_iff]
        intro hfills
        simp only [ImportRequest.fills, Bool.and_eq_true, beq_iff_eq] at hfills
        obtain ⟨braces, hbraces, _⟩ := Option.map_eq_some_iff.1 ho
        simp [ImportTable.joinInserted?, hfills.1.2, hd, hbraces, hnamed, hfills.2] at hjoin
      simp [ImportTable.inserted, hdefault, hjoin, hstatement, hnot]
    | some i =>
      obtain ⟨d', hd', ho'⟩ := ImportTable.offset_of_joinInserted? hjoin
      obtain ⟨hmem', hmodule', _⟩ := ImportTable.mem_of_openClause? hd'
      have hinserted : t.inserted r free = i := by simp [ImportTable.inserted, hdefault, hjoin]
      rw [hinserted]
      constructor
      · rintro rfl
        -- Only the braces of the same statement have this place
        obtain rfl := h.join_inj d hmem d' hmem' _ ho ho'
        have hfree : free = true := by
          obtain ⟨braces, hbraces, _⟩ := Option.map_eq_some_iff.1 ho
          cases free with
          | true => rfl
          | false => simp [ImportTable.joinInserted?, hd', hbraces, hnamed] at hjoin
        rw [ImportRequest.fills, hdefault, hfree, ← hmodule, hmodule']
        simp
      · intro hfills
        simp only [ImportRequest.fills, Bool.and_eq_true, beq_iff_eq] at hfills
        rw [hfills.1.2, hd, Option.some.injEq] at hd'
        rw [hd', ho', Option.some.injEq] at ho
        exact ho

/-- Something goes into empty braces exactly when a request fills them. -/
private theorem any_importInsertions (h : t.Placed text) (hd : t.openClause? module = some d)
    (ho : d.joinOffset? = some o) (hnamed : d.named = []) (before rs : List ImportRequest) :
    (importInsertions t before rs).any (fun i => i.offset == o) =
      (!before.any (ImportRequest.fills module) && rs.any (ImportRequest.fills module)) := by
  -- Induction on the requests; those in front of them tell whether the braces are still free
  induction rs generalizing before with
  | nil => simp [importInsertions]
  | cons r rs ih =>
    have hoffset : ((t.inserted r (!before.any (ImportRequest.fills r.module))).offset == o) =
        (r.fills module && !before.any (ImportRequest.fills r.module)) := by
      rw [Bool.eq_iff_iff, beq_iff_eq]
      exact inserted_offset_eq_iff h hd ho hnamed r _
    rw [importInsertions, List.any_cons, hoffset, ih, List.any_append, List.any_cons]
    cases hfills : r.fills module with
    | false => simp [hfills]
    | true =>
      have hmodule : r.module = module := by
        simp only [ImportRequest.fills, Bool.and_eq_true, beq_iff_eq] at hfills
        exact hfills.2
      simp [hfills, hmodule]

/-! ## Pending changes -/

/-- The pending changes are those that the requests become. -/
structure Pending (t : ImportTable) (asked : List ImportRequest) (pending : ChangeSet) : Prop where
  insertions : pending.map Change.insertion = importInsertions t [] asked
  origins : pending.map Change.origin = asked.map ImportRequest.origin

variable {asked : List ImportRequest} {pending : ChangeSet}

/-- An import is pending exactly if it was asked for. -/
private theorem Pending.containsOrigin_eq (h : Pending t asked pending) (r : ImportRequest) :
    pending.containsOrigin r.origin = asked.any fun q => q.origin == r.origin := by
  have hany : pending.containsOrigin r.origin = (pending.map Change.origin).any (· == r.origin) := by
    rw [ChangeSet.containsOrigin, List.any_map]
    rfl
  rw [hany, h.origins, List.any_map]
  rfl

/-- A clause is filled exactly if an import has joined it. -/
private theorem Pending.isFilled_eq (h : Pending t asked pending) (o : Nat) :
    ImportTable.isFilled o pending = (importInsertions t [] asked).any fun i => i.offset == o := by
  rw [← h.insertions, List.any_map, ImportTable.isFilled]
  -- Every pending change is for an import
  rw [Bool.eq_iff_iff, List.any_eq_true, List.any_eq_true]
  refine exists_congr fun c => and_congr_right fun hc => ?_
  have horigin : c.origin ∈ asked.map ImportRequest.origin := h.origins ▸ List.mem_map_of_mem hc
  obtain ⟨q, _, hq⟩ := List.mem_map.1 horigin
  rw [← hq, ImportRequest.origin, Bool.and_true]
  rfl

/-- What a request becomes depends on pending changes as far as empty braces are filled. -/
private theorem Pending.inserted_eq (h : Pending t asked pending) (hplaced : t.Placed text)
    (r : ImportRequest) :
    t.inserted r (t.isFree r.module pending) =
      t.inserted r (!asked.any (ImportRequest.fills r.module)) := by
  rw [ImportTable.inserted, ImportTable.inserted]
  congr 2
  rw [ImportTable.joinInserted?, ImportTable.joinInserted?, ImportTable.isFree]
  -- Only empty braces are not always joined: they are free until a request has filled them
  cases hd : t.openClause? r.module with
  | none => rfl
  | some d =>
    cases hbraces : d.braces with
    | none => simp [hbraces]
    | some braces =>
      cases hlast : d.named.getLast? with
      | some last => simp [hbraces, hlast]
      | none =>
        have ho : d.joinOffset? = some (braces.stop - 1) := by
          rw [ImportDecl.joinOffset?, hbraces, hlast]
          rfl
        have hfilled := any_importInsertions hplaced hd ho (List.getLast?_eq_none_iff.1 hlast) [] asked
        rw [← h.isFilled_eq] at hfilled
        simp [hbraces, hlast, hfilled]

/-- One more request. -/
private theorem Pending.carryOut {snapshot : Snapshot} {s : Session}
    (h : Pending snapshot.imports asked s.pending) (hs : s.snapshot = snapshot)
    (hroot : snapshot.root.Placed snapshot.chars) (r : ImportRequest) :
    Pending snapshot.imports
      (asked ++ if snapshot.imports.isImported r.symbol r.module ||
          asked.any fun q => q.origin == r.origin then [] else [r])
      (s.carryOut (.imported r)).pending := by
  subst hs
  -- The session decides by what is pending, and that stands for what was asked for
  have hcarry : (s.carryOut (.imported r)).pending = (s.decideImport r).perform s.pending := by
    rw [← Session.pending_perform]
    rfl
  rw [hcarry, Session.decideImport, h.containsOrigin_eq, ImportTable.ensure]
  cases asked.any fun q => q.origin == r.origin with
  | true => simpa [Decision.perform] using h
  | false =>
    cases s.snapshot.imports.isImported r.symbol r.module with
    | true => simpa [Decision.perform] using h
    | false =>
      obtain ⟨_, hinserted, horigin⟩ := ImportTable.satisfy_inserts s.snapshot.imports r s.pending
      rw [h.inserted_eq (placed_imports hroot) r] at hinserted
      refine ⟨?_, ?_⟩
      · simp [Decision.perform, ChangeSet.push, h.insertions, importInsertions_concat, hinserted]
      · simp [Decision.perform, ChangeSet.push, h.origins, horigin]

/-- After requests for imports, the pending changes of a session that is new are those they become. -/
theorem pending_carryOutAll {snapshot : Snapshot} (hroot : snapshot.root.Placed snapshot.chars)
    (config : SessionConfig) (requests : List ImportRequest) :
    let s := (Session.start snapshot config).carryOutAll (requests.map .imported)
    Pending snapshot.imports (newImports snapshot.imports requests) s.pending ∧
      s.snapshot = snapshot := by
  induction requests using List.reverseRecOn with
  | nil => exact ⟨⟨rfl, rfl⟩, rfl⟩
  | append_singleton requests r ih =>
    obtain ⟨hpending, hsnapshot⟩ := ih
    have hnext := hpending.carryOut hsnapshot hroot r
    rw [← newImports_concat] at hnext
    simp only [List.map_append, List.map_singleton, Session.carryOutAll, List.foldl_concat] at *
    exact ⟨hnext, by rw [Session.snapshot_carryOut, hsnapshot]⟩

end Imports

/-! ## The commit -/

open Imports in
/-- A session that is new and carries out requests for imports commits them to a store that holds the
text of its snapshot: it writes that text with `importInsertions` of the first request for each name and
module that the text does not bind, and nothing else. Empty braces are filled right in front of the
closing one, and the place behind a directive `'use strict'` is where its literal ends. -/
theorem commit_imports [Recovery] {snapshot : Snapshot}
    (hroot : snapshot.root.Placed snapshot.chars) (config : SessionConfig)
    (requests : List ImportRequest) {t : FileTree} {stored : String}
    (hread : t.readText snapshot.path = .ok stored)
    (hsame : Digest.ofText stored = snapshot.digest) :
    let s := (Session.start snapshot config).carryOutAll (requests.map .imported)
    (∀ d ∈ snapshot.imports.decls, ∀ braces, d.braces = some braces →
      ∃ rest, dropBytes snapshot.chars (braces.stop - 1) = '}' :: rest) ∧
    (∀ stop, snapshot.imports.useStrictEnd = some stop ↔
      OpensWithUseStrict snapshot.chars snapshot.root stop) ∧
    ∃ c s' t', Session.commitSteps.exec (s, t) = (.ok c, s', t') ∧
      textBytes c.text = bytesWith (textBytes snapshot.text)
        (importInsertions snapshot.imports [] (newImports snapshot.imports requests)) ∧
      ∀ path, t'.files[path]? =
        if path = Path.normalize snapshot.path then some c.text.toUTF8 else t.files[path]? := by
  intro s
  obtain ⟨hpending, hsnapshot⟩ := pending_carryOutAll hroot config requests
  have hreached : s.Reached := (Session.Reached.start snapshot config).carryOutAll _
  have hpath : s.path = snapshot.path := congrArg Snapshot.path hsnapshot
  have hplaced : s.snapshot.root.Placed s.snapshot.chars := by rwa [hsnapshot]
  refine ⟨(placed_imports hroot).closing, useStrictEnd_eq_some_iff snapshot, ?_⟩
  obtain ⟨c, s', t', hexec, hbytes, hfiles⟩ := Session.exists_commit_of_reached hreached hplaced
    (hpath ▸ hread) (.inl (by rw [hsame, hsnapshot]))
  refine ⟨c, s', t', hexec, ?_, by rwa [hpath] at hfiles⟩
  rw [hbytes, hsnapshot, hpending.insertions]

/-- The store in which the text of the snapshot is the only file. -/
private def onlyFile (snapshot : Snapshot) : FileTree :=
  { files := (∅ : Std.TreeMap String ByteArray).insert snapshot.path snapshot.text.toUTF8, commits := 0 }

open Imports in
/-- Empty braces take in one name, and the next one becomes a statement of its own; a name that is asked
for twice is imported as it was first. Where there is no import statement, new ones go behind a directive
`'use strict'`, with braces and without. -/
theorem commit_imports_sample :
    let config : SessionConfig := { importBase := ".", selector := .named "M" }
    let braces : Snapshot := .ofText "/m.ts" "import \x7b\x7d from 'm';\nimport \x7bA\x7d from 'n';"
    let requests : List ImportRequest :=
      [⟨"X", "m", false⟩, ⟨"Y", "m", false⟩, ⟨"X", "m", true⟩, ⟨"A", "n", false⟩, ⟨"B", "n", false⟩]
    let strict : Snapshot := .ofText "/s.ts" "// é\n'use strict';\nclass C \x7b\x7d"
    let others : List ImportRequest := [⟨"D", "d", true⟩, ⟨"X", "m", false⟩, ⟨"D", "d", false⟩]
    let commit (snapshot : Snapshot) (requests : List ImportRequest) :=
      Session.commitSteps.exec
        ((Session.start snapshot config).carryOutAll (requests.map .imported), onlyFile snapshot)
    (∃ c s' t', commit braces requests = (.ok c, s', t') ∧ c.text =
      "import \x7b X \x7d from 'm';\nimport \x7bA, B\x7d from 'n';\nimport \x7b Y \x7d from 'm';") ∧
    OpensWithUseStrict strict.chars strict.root 18 ∧
    ∃ c s' t', commit strict others = (.ok c, s', t') ∧ c.text =
      "// é\n'use strict';\nimport D from 'd';\nimport \x7b X \x7d from 'm';\nclass C \x7b\x7d" := by
  intro config braces requests strict others commit
  have hreads : (onlyFile braces).readText braces.path = .ok braces.text ∧
      (onlyFile strict).readText strict.path = .ok strict.text := by
    decide +kernel
  have hwritten : bytesWith (textBytes braces.text)
      (importInsertions braces.imports [] (newImports braces.imports requests)) = textBytes
        "import \x7b X \x7d from 'm';\nimport \x7bA, B\x7d from 'n';\nimport \x7b Y \x7d from 'm';" := by
    decide +kernel
  have hothers : bytesWith (textBytes strict.text)
      (importInsertions strict.imports [] (newImports strict.imports others)) = textBytes
        "// é\n'use strict';\nimport D from 'd';\nimport \x7b X \x7d from 'm';\nclass C \x7b\x7d" := by
    decide +kernel
  obtain ⟨_, _, c, s', t', hexec, hbytes, _⟩ :=
    commit_imports (Snapshot.placed_root (by decide +kernel)) config requests hreads.1 rfl
  -- The place behind the directive is what the theorem says, read from its other side
  obtain ⟨_, hstrict, c', s₁, t₁, hexec', hbytes', _⟩ :=
    commit_imports (Snapshot.placed_root (by decide +kernel)) config others hreads.2 rfl
  exact ⟨⟨c, s', t', hexec, textBytes_inj (hbytes.trans hwritten)⟩,
    (hstrict 18).1 (by decide +kernel), c', s₁, t₁, hexec', textBytes_inj (hbytes'.trans hothers)⟩

end Enlist
