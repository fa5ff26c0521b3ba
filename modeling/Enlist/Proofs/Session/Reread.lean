import Enlist.Proofs.Session.HashBang
import Enlist.Proofs.Syntax.Recovered

/-!
# Sessions that read again what they wrote

A session that has committed reads its file again, and is asked for the same things once more. It
records nothing as far as it finds what it has written. In a text with syntax errors it finds what the
tree shows that was recovered from it, and such a text is written wherever an import goes in front of
the line that names an interpreter: an import that the recovered tree does not show is written twice.

## Key results

- `pending_carryOutAll_eq_nil_iff`: when a new session records nothing
- `CommitEffect.exec_refreshSteps`: what a session is that reads again what it wrote
- `refresh_of_namesInterpreter`: what is recorded again behind a line that names an interpreter
-/

namespace Enlist

open Edit Imports Metadata Store Syntax Text

/-- What is known of a snapshot whose characters and tree are given: no more is read to carry out a
request. -/
structure Snapshot.Reads (s : Snapshot) (file : String) (text : List Char) (read : SyntaxTree) :
    Prop where
  path : s.path = file
  chars : s.chars = text
  tree : s.tree = read
  imports : s.imports = .ofTree text read.root

/-- A snapshot of given characters reads the tree of these characters. -/
theorem Snapshot.reads_ofText [Recovery] (file : String) (text : List Char) :
    (Snapshot.ofText file (String.ofList text)).Reads file text (.ofText text) := by
  constructor <;> simp only [Snapshot.ofText, Snapshot.chars, String.toList_ofList]

namespace Session

variable {snapshot : Snapshot} {config : SessionConfig} {t : FileTree}

/-! ## Sessions that record nothing -/

/-- A new session records nothing exactly if its text has all that the requests are for which are not
refused. -/
theorem pending_carryOutAll_eq_nil_iff {rs : List Request} :
    ((start snapshot config).carryOutAll rs).pending = [] ↔
      ∀ r ∈ rs, r.refusal? snapshot config.selector = none →
        ∀ a ∈ r.registrations, snapshot.holds config.selector a = true := by
  constructor
  · intro hnil r hr hok a ha
    by_contra hunheld
    have hregistered : ((start snapshot config).carryOutAll rs).pending.registers a = true :=
      registers_carryOutAll_start_iff.2
        ⟨r, hr, hok, a, ha, by simpa using hunheld, Registration.same_self a⟩
    rw [hnil] at hregistered
    cases hregistered
  · intro hheld
    -- A pending change would be for something that one of the requests asks for
    by_contra hne
    obtain ⟨c, hc⟩ := List.exists_mem_of_ne_nil _ hne
    have hnamed := named_carryOutAll (s := start snapshot config) (fun _ h => nomatch h) rs c hc
    obtain ⟨a, ha⟩ := List.exists_mem_of_ne_nil _ hnamed
    have hregistered : ((start snapshot config).carryOutAll rs).pending.registers a = true :=
      List.any_eq_true.2 ⟨a, List.mem_flatMap.2 ⟨c, hc, ha⟩, Registration.same_self a⟩
    obtain ⟨r, hr, hok, b, hb, hunheld, _⟩ := registers_carryOutAll_start_iff.1 hregistered
    rw [hheld r hr hok b hb] at hunheld
    cases hunheld

/-- A new session that does not refuse a request records its import exactly if the text does not have
it. -/
theorem containsOrigin_carryOutAll_iff {rs : List Request} {q : Request} (hq : q ∈ rs)
    (hok : q.refusal? snapshot config.selector = none) {r : ImportRequest} (hr : r ∈ q.imports) :
    ((start snapshot config).carryOutAll rs).pending.containsOrigin (.importOf r.symbol r.module) = true ↔
      snapshot.imports.isImported r.symbol r.module = false := by
  rw [← registers_binding, registers_carryOutAll_start_iff]
  -- What is registered under the name of an import is an import
  constructor
  · rintro ⟨_, _, _, a, _, hunheld, hsame⟩
    cases a with
    | binding symbol module =>
      simp only [Registration.same, Bool.and_eq_true, beq_iff_eq] at hsame
      obtain ⟨rfl, rfl⟩ := hsame
      exact hunheld
    | entry | route => cases hsame
  · intro hunheld
    exact ⟨q, hq, hok, _, binding_mem_registrations_iff.2 ⟨r, hr, rfl, rfl⟩, hunheld,
      Registration.same_self _⟩

/-- What a new session records for an entry of a slot that is there, when its text has neither the entry
nor its import. -/
theorem pending_carryOut_entry {slot symbol module : String} {l : SlotLocation}
    (hl : locateSlot snapshot config.selector slot = .ok l) (hslot : l.point.createsSlot = false)
    (hentry : l.contains symbol = false)
    (himport : snapshot.imports.isImported (rootIdentifier symbol) module = false) :
    ((start snapshot config).carryOut (.entry slot symbol (some module))).pending =
      [snapshot.imports.satisfy (entryImport symbol module) [],
        (l.point.entryChange l.slot symbol 0 (.slotEntry l.slot symbol)).describedAs
          s!"add {symbol} to {l.slot}"] := by
  have hl' : locateSlot (start snapshot config).snapshot (start snapshot config).config.selector slot =
      .ok l := hl
  have himported : (start snapshot config).decideImport (entryImport symbol module) =
      .append (snapshot.imports.satisfy (entryImport symbol module) []) := by
    simp [decideImport, ChangeSet.containsOrigin, start, ImportTable.ensure, himport, entryImport]
  rw [carryOut, exec_registerSteps]
  simp only [hl', registerEntry, importFor, decideEntryImport, Option.map_some, himported]
  -- The import that is pending now is no entry
  have horigin := origin_satisfy snapshot.imports (entryImport symbol module) []
  have hentered : ((start snapshot config).perform
      (.append (snapshot.imports.satisfy (entryImport symbol module) []))).decideEntry l symbol =
        .append ((l.point.entryChange l.slot symbol 0 (.slotEntry l.slot symbol)).describedAs
          s!"add {symbol} to {l.slot}") := by
    simp [decideEntry, hentry, isPendingEntry, hslot, entryChange, horigin, Decision.perform, start,
      perform, ChangeSet.push, Origin.entriesIn, Origin.isEntryIn]
  rw [hentered]
  rfl

/-- A new session that finds the slot of an entry and not its import records the import. -/
theorem exists_importOf_of_not_imported (config : SessionConfig) {slot symbol module : String}
    {l : SlotLocation} (hl : locateSlot snapshot config.selector slot = .ok l)
    (himport : snapshot.imports.isImported (rootIdentifier symbol) module = false) :
    ∃ change ∈ ((start snapshot config).carryOut (.entry slot symbol (some module))).pending,
      change.origin = .importOf (rootIdentifier symbol) module := by
  have hok : Request.refusal? snapshot config.selector (.entry slot symbol (some module)) = none := by
    rw [Request.refusal?, hl]
  have hmem : .entry slot symbol (some module) ∈ [Request.entry slot symbol (some module)] :=
    List.mem_cons_self
  have hasked : entryImport symbol module ∈ (Request.entry slot symbol (some module)).imports :=
    List.mem_cons_self
  have hrecorded := (containsOrigin_carryOutAll_iff hmem hok hasked).2 himport
  obtain ⟨change, hmem, horigin⟩ := List.any_eq_true.1 hrecorded
  exact ⟨change, hmem, beq_iff_eq.1 horigin⟩

/-- Where a slot is located, a declaration is. -/
theorem isSome_locateDeclaration {s : Snapshot} {sel : Selector} {slot : String} {l : SlotLocation}
    (h : locateSlot s sel slot = .ok l) : (locateDeclaration s sel).toOption.isSome = true := by
  cases hd : locateDeclaration s sel with
  | ok d => rfl
  | error e =>
    rw [locateSlot, hd] at h
    cases h

/-- An entry of a slot that is located is not refused. -/
theorem accepts_entry {s : Session} {slot symbol : String} {module : Option String} {l : SlotLocation}
    (h : locateSlot s.snapshot s.config.selector slot = .ok l) :
    s.accepts (.entry slot symbol module) = true := by
  rw [accepts, exec_registerSteps]
  simp only [h]
  rfl

/-! ## Reading again what was written -/

/-- A session that is refreshed after it has committed is one over the text that was written. -/
theorem CommitEffect.exec_refreshSteps [Recovery] {s s' : Session} {t t' : FileTree} {c : Committed}
    (h : CommitEffect s t c s' t') :
    (refreshSteps t').exec s' = (.ok (), start (.ofText s'.path c.text) s'.config) := by
  rw [Session.exec_refreshSteps, readSnapshot, h.readText]

/-- A new session that commits a run and is refreshed is a new one over the text that was written. -/
theorem exec_refreshSteps_of_run [Recovery] {qs : List Request} {c : Committed}
    {w : Session × FileTree}
    (h : CommitEffect ((start snapshot config).carryOutAll qs) t c w.1 w.2) :
    (refreshSteps w.2).exec w.1 = (.ok (), start (.ofText snapshot.path c.text) config) := by
  obtain ⟨hsnapshot, hconfig⟩ := reads_carryOutAll (start snapshot config) qs
  have hsession : w.1.path = snapshot.path ∧ w.1.config = config := by
    rw [h.session]
    exact ⟨congrArg Snapshot.path hsnapshot, hconfig⟩
  rw [h.exec_refreshSteps, hsession.1, hsession.2]

/-- When a session over a text that names an interpreter has committed a run that imports, it reads a
text with syntax errors again, and knows of it what the tree shows that is recovered from it. Asked for
the same once more, in any order, it records nothing exactly if that tree has all that the requests are
for which are not refused now. Each import of such a request is recorded again exactly if it is not
among those of the tree. -/
theorem refresh_of_namesInterpreter [Recovery] {qs : List Request} (h : snapshot.NamesInterpreter)
    (config : SessionConfig) (hqs : ∀ q ∈ qs, ∀ r ∈ q.imports, r.Writable)
    (himports : ∃ q ∈ qs, q.AsksImport snapshot config.selector)
    (hread : t.readText snapshot.path = .ok snapshot.text) :
    ∃ c w, commitSteps.exec ((start snapshot config).carryOutAll qs, t) = (.ok c, w) ∧
      let after := Snapshot.ofText snapshot.path c.text
      (refreshSteps w.2).exec w.1 = (.ok (), start after config) ∧
      after.hasSyntaxErrors = true ∧ after.root = Recovery.recover c.text.toList ∧
      ∀ rs : List Request, rs.Perm qs →
        (((start after config).carryOutAll rs).pending = [] ↔
          ∀ q ∈ qs, q.refusal? after config.selector = none →
            ∀ a ∈ q.registrations, after.holds config.selector a = true) ∧
        ∀ q ∈ qs, q.refusal? after config.selector = none → ∀ r ∈ q.imports,
          (((start after config).carryOutAll rs).pending.containsOrigin
              (.importOf r.symbol r.module) = true ↔
            after.imports.isImported r.symbol r.module = false) := by
  obtain ⟨c, w, hexec, heffect, happly⟩ := exists_commit_of_run h.parsed config qs hread
  have herrors := hasSyntaxErrors_of_run h hqs happly himports
  refine ⟨c, w, hexec, exec_refreshSteps_of_run heffect, herrors, SyntaxTree.root_of_hasErrors herrors,
    fun rs hperm => ⟨?_, ?_⟩⟩
  · rw [pending_carryOutAll_eq_nil_iff]
    exact forall_congr' fun q => by rw [hperm.mem_iff]
  · exact fun q hq hok r hr => containsOrigin_carryOutAll_iff (hperm.mem_iff.2 hq) hok hr

/-- Two entries, one of them in a slot that is created. A parser that skips no more than the line shows
all that was written, so nothing is recorded again. -/
theorem refresh_of_namesInterpreter_sample :
    let front := "import \x7b B \x7d from './b';\nimport \x7b D \x7d from './b';\n"
    let back := "#!/bin/node\n@M(\x7bxs: [A, B], ys: [D]\x7d)class C\x7b\x7d"
    let read := (SyntaxTree.statements? front.toList).getD []
    let moved := Node.movedAll (front.utf8ByteSize + ·) ((SyntaxTree.statements? back.toList).getD [])
    let root := Node.resumed (front ++ back).utf8ByteSize read (moved.take 1) (moved.drop 1)
    let _ : Recovery := .only (front ++ back).toList root
    let snapshot : Snapshot := .ofText "/m.ts" "#!/bin/node\n@M(\x7bxs: [A]\x7d)class C\x7b\x7d"
    let config : SessionConfig := { importBase := ".", selector := .named "M" }
    let q : Request := .entry "xs" "B" (some "./b")
    let r : Request := .entry "ys" "D" (some "./b")
    let t : FileTree :=
      { files := (∅ : Std.TreeMap String ByteArray).insert "/m.ts" snapshot.text.toUTF8, commits := 0 }
    ∃ c w s, commitSteps.exec ((start snapshot config).carryOutAll [q, r], t) = (.ok c, w) ∧
      (refreshSteps w.2).exec w.1 = (.ok (), s) ∧ s.snapshot.hasSyntaxErrors = true ∧
      s.snapshot.root = root ∧ (s.carryOutAll [r, q]).pending = [] := by
  intro front back read moved root _ snapshot config q r t
  obtain ⟨hparsed, hline, hnone, hok⟩ : snapshot.hasSyntaxErrors = false ∧
      ['#', '!'] <+: snapshot.chars ∧ snapshot.imports.decls = [] ∧
      q.refusal? snapshot config.selector = none := by decide +kernel
  -- Both requests import, and what they import can be written and read again
  have hqs : ∀ p ∈ [q, r], ∀ i ∈ p.imports, i.Writable := by
    have hb : (entryImport "B" "./b").Writable := ⟨rfl, by decide +kernel, by decide +kernel⟩
    have hd : (entryImport "D" "./b").Writable := ⟨rfl, by decide +kernel, by decide +kernel⟩
    simp [q, r, Request.imports, hb, hd]
  have himports : ∃ p ∈ [q, r], p.AsksImport snapshot config.selector :=
    ⟨q, List.mem_cons_self, hok, List.cons_ne_nil _ _⟩
  have hread : t.readText snapshot.path = .ok snapshot.text := readText_stored snapshot.text
  obtain ⟨c, w, hexec, hrefresh, herrors, hroot, hreplay⟩ :=
    refresh_of_namesInterpreter ⟨hparsed, hline, hnone⟩ config hqs himports hread
  -- The text that is written, for which the tree is given
  have happly : Edit.apply snapshot.text ((start snapshot config).carryOutAll [q, r]).pending =
      .ok (front ++ back) := by decide +kernel
  have hwritten : c.text = front ++ back :=
    Except.ok.inj ((apply_of_commit hexec).symm.trans happly)
  rw [hwritten] at hrefresh herrors hroot hreplay
  have hrecovered : Recovery.recover (front ++ back).toList = root := if_pos ⟨rfl, by decide +kernel⟩
  refine ⟨c, w, _, hexec, hrefresh, herrors, hroot.trans hrecovered, ?_⟩
  refine (hreplay _ (.swap q r [])).1.2 ?_
  -- That tree has all that the two requests are for
  decide +kernel

/-! ### A line that is long -/

/-- A line that names an interpreter and many options. -/
def longLine : List Char :=
  "#!/usr/bin/env -S node".toList ++ (List.replicate 100 " --no-warnings".toList).flatten

def longLineFile : List Char :=
  longLine ++ "\n@M(\x7bxs: []\x7d)\nclass C \x7b\x7d\n".toList

def longLineFront : List Char :=
  "import \x7b A \x7d from './a';\n".toList

def longLineBack : List Char :=
  longLine ++ "\n@M(\x7bxs: [A]\x7d)\nclass C \x7b\x7d\n".toList

/-- A parser that skips the line skips the statement in front of it too. -/
def longLineTree : Node :=
  let moved := Node.movedAll (utf8Length longLineFront + ·)
    ((SyntaxTree.statements? longLineBack).getD [])
  Node.resumed (utf8Length (longLineFront ++ longLineBack)) []
    ((SyntaxTree.statements? longLineFront).getD [] ++ moved.take 1) (moved.drop 1)

/-- The parser that does so. -/
@[reducible] def longLineRecovery : Recovery :=
  .only (longLineFront ++ longLineBack) longLineTree

/-- In the file as it was, the slot is empty. -/
private theorem locateSlot_longLineFile {s : Snapshot}
    (h : s.Reads "/m.ts" longLineFile (@SyntaxTree.ofText longLineRecovery longLineFile)) :
    locateSlot s (.named "M") "xs" = .ok ⟨"xs", [], .fill 1432⟩ := by
  rewrite [locateSlot, locateDeclaration, Selector.names, Snapshot.root, h.path, h.chars, h.tree,
    h.imports]
  decide +kernel

/-- In the file as it was, nothing is imported. -/
private theorem not_imported_longLineFile {s : Snapshot}
    (h : s.Reads "/m.ts" longLineFile (@SyntaxTree.ofText longLineRecovery longLineFile)) :
    s.imports.isImported (rootIdentifier "A") "./a" = false := by
  rewrite [h.imports]
  decide +kernel

/-- The statement goes in front of the line, and the entry into the slot. -/
private theorem written_longLineFile {s : Snapshot}
    (h : s.Reads "/m.ts" longLineFile (@SyntaxTree.ofText longLineRecovery longLineFile))
    (hselector : config.selector = .named "M") :
    Edit.apply s.text ((start s config).carryOut (.entry "xs" "A" (some "./a"))).pending =
      .ok (String.ofList (longLineFront ++ longLineBack)) := by
  have hslot := locateSlot_longLineFile h
  rw [← hselector] at hslot
  refine apply_of_applyToChars ?_
  rewrite [pending_carryOut_entry hslot rfl (by decide +kernel) (not_imported_longLineFile h)]
  show applyToChars s.chars _ = _
  rewrite [h.chars, h.imports]
  decide +kernel

/-- The nodes of that tree are in what was written: they are those of its two parts. -/
private theorem inText_longLineTree : longLineTree.InText (longLineFront ++ longLineBack) := by
  have hfront : (SyntaxTree.statements? longLineFront).getD [] ≠ [] := by decide +kernel
  have hback : (SyntaxTree.statements? longLineBack).isSome = true := by decide +kernel
  rw [longLineTree]
  cases hms : SyntaxTree.statements? longLineFront with
  | none => exact absurd (by rw [hms, Option.getD_none]) hfront
  | some ms =>
    obtain ⟨ns, hns⟩ := Option.isSome_iff_exists.1 hback
    obtain ⟨hrow, hall⟩ := statements_append hms hns
    rw [hms] at hfront
    rw [hns]
    refine inText_resumed (List.append_ne_nil_of_left_ne_nil hfront _) ?_ ?_
    · rwa [List.nil_append, List.append_assoc, List.take_append_drop]
    · rwa [List.nil_append, List.append_assoc, List.take_append_drop]

/-- The tree of what was written is the one that is recovered. -/
private theorem ofText_longLine :
    @SyntaxTree.ofText longLineRecovery (longLineFront ++ longLineBack) = ⟨longLineTree, true⟩ :=
  ofText_only inText_longLineTree (by decide +kernel)

/-- In the file as it is read again, the slot has the entry. -/
private theorem locateSlot_longLine {s : Snapshot}
    (h : s.Reads "/m.ts" (longLineFront ++ longLineBack) ⟨longLineTree, true⟩) :
    locateSlot s (.named "M") "xs" = .ok ⟨"xs", ["A"], .append 1458 ", "⟩ := by
  rewrite [locateSlot, locateDeclaration, Selector.names, Snapshot.root, h.path, h.chars, h.tree,
    h.imports]
  decide +kernel

/-- In the file as it is read again, nothing is imported. -/
private theorem not_imported_longLine {s : Snapshot}
    (h : s.Reads "/m.ts" (longLineFront ++ longLineBack) ⟨longLineTree, true⟩) :
    s.imports.isImported (rootIdentifier "A") "./a" = false := by
  rewrite [h.imports]
  decide +kernel

/-- The same entry is asked for again, and its import is recorded a second time. -/
theorem import_recorded_after_refresh :
    let _ : Recovery := longLineRecovery
    let snapshot : Snapshot := .ofText "/m.ts" (String.ofList longLineFile)
    let config : SessionConfig := { importBase := ".", selector := .named "M" }
    let q : Request := .entry "xs" "A" (some "./a")
    let t : FileTree :=
      { files := (∅ : Std.TreeMap String ByteArray).insert "/m.ts" snapshot.text.toUTF8, commits := 0 }
    snapshot.hasSyntaxErrors = false ∧
      (locateDeclaration snapshot config.selector).toOption.isSome = true ∧
      (start snapshot config).accepts q = true ∧
      IsName "xs".toList ∧ IsName "A".toList ∧ IsPlain "./a".toList ∧
      ∃ c w s, commitSteps.exec ((start snapshot config).carryOut q, t) = (.ok c, w) ∧
        (refreshSteps w.2).exec w.1 = (.ok (), s) ∧ s.snapshot.root = longLineTree ∧
        ∃ change ∈ (s.carryOut q).pending, change.origin = .importOf "A" "./a" := by
  intro _ snapshot config q t
  have hreads : snapshot.Reads "/m.ts" longLineFile (SyntaxTree.ofText longLineFile) :=
    Snapshot.reads_ofText "/m.ts" longLineFile
  -- The long text is not evaluated but where it is read, by its characters
  clear_value snapshot
  have hparsed : snapshot.hasSyntaxErrors = false := by
    rewrite [Snapshot.hasSyntaxErrors, hreads.tree]
    decide +kernel
  have hslot : locateSlot snapshot config.selector "xs" = .ok ⟨"xs", [], .fill 1432⟩ :=
    locateSlot_longLineFile hreads
  have happly : Edit.apply snapshot.text ((start snapshot config).carryOut q).pending =
      .ok (String.ofList (longLineFront ++ longLineBack)) := written_longLineFile hreads rfl
  have haccepts : (start snapshot config).accepts q = true := accepts_entry hslot
  have hone (s : Session) : s.carryOutAll [q] = s.carryOut q := rfl
  have hread : t.readText snapshot.path = .ok snapshot.text := by
    rewrite [hreads.path]
    exact readText_stored snapshot.text
  -- The commit writes what the edit gives
  obtain ⟨c, w, hexec, heffect, hout⟩ := exists_commit_of_run hparsed config [q] hread
  have hrefresh := exec_refreshSteps_of_run heffect
  rewrite [hone] at hexec hout
  have htext : c.text = String.ofList (longLineFront ++ longLineBack) :=
    Except.ok.inj (hout.symm.trans happly)
  rewrite [htext, hreads.path] at hrefresh
  -- The text that is read again, with the tree that is recovered from it
  have hagain := Snapshot.reads_ofText "/m.ts" (longLineFront ++ longLineBack)
  rewrite [ofText_longLine] at hagain
  generalize Snapshot.ofText "/m.ts" (String.ofList (longLineFront ++ longLineBack)) = after
    at hrefresh hagain
  have hroot : after.root = longLineTree := by rw [Snapshot.root, hagain.tree]
  obtain ⟨change, hmem, horigin⟩ := exists_importOf_of_not_imported config
    (locateSlot_longLine hagain) (not_imported_longLine hagain)
  have hname : rootIdentifier "A" = "A" := by decide +kernel
  rw [hname] at horigin
  exact ⟨hparsed, isSome_locateDeclaration hslot, haccepts, by decide +kernel, by decide +kernel,
    by decide +kernel, c, w, start after config, hexec, hrefresh, hroot, change, hmem, horigin⟩

end Session

end Enlist
