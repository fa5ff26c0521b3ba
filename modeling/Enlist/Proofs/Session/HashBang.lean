import Enlist.Proofs.Imports.Written
import Enlist.Proofs.Session.Callers
import Enlist.Proofs.Session.Kept

/-!
# Files that name an interpreter

The first line of a file may name an interpreter behind `#!`, and only the first line may. The import
statement that a file without one gets goes in front of all else, unless a directive opens the file. So
a session over a file that names an interpreter and imports nothing writes a text that cannot be read
again, as soon as one of its requests is for an import.

## Key results

- `satisfy_of_namesInterpreter` / `Made.two_le_offset`: an import goes in front of the line, and
  everything else behind it
- `exists_pending_import_iff`: which runs import
- `exists_statements_of_run`: what a run writes in front of the line
- `commit_of_namesInterpreter`: the text that a session commits has syntax errors
-/

namespace Enlist

open Edit Imports Metadata Store Syntax Text

/-- The imports that a request asks for. -/
def Request.imports : Request → List ImportRequest
  | .entry _ symbol module => (module.map (Session.entryImport symbol)).toList
  | .imported r => [r]
  | .route _ => []

/-- A request is not refused and asks for an import. -/
def Request.AsksImport (s : Snapshot) (sel : Selector) (q : Request) : Prop :=
  q.refusal? s sel = none ∧ q.imports ≠ []

/-- The text has no errors, begins with a line that names an interpreter, and has no import
statement. -/
structure Snapshot.NamesInterpreter (s : Snapshot) : Prop where
  parsed : s.hasSyntaxErrors = false
  line : ['#', '!'] <+: s.chars
  noImports : s.imports.decls = []

variable {s : Snapshot} {sel : Selector} {c : Change}

/-! ## Where the changes go -/

/-- An import goes in front of the line that names the interpreter. -/
theorem satisfy_of_namesInterpreter (h : s.NamesInterpreter) (r : ImportRequest) (pending : ChangeSet) :
    (s.imports.satisfy r pending).offset = 0 ∧
      (s.imports.satisfy r pending).text = r.statement ++ ";\n" := by
  obtain ⟨cs, hcs⟩ := h.line
  -- The first line is no directive, and no other statement imports anything
  have hdirective : s.imports.useStrictEnd = none := by
    have hchars : s.text.toList = '#' :: '!' :: cs := hcs.symm
    obtain ⟨_, htree⟩ := s.tree_eq
    have hparsed := h.parsed
    rw [Snapshot.hasSyntaxErrors, htree, hchars] at hparsed
    rw [s.imports_eq, htree, hchars]
    exact useStrictEnd?_of_hashBang hparsed
  have hinserted : s.imports.inserted r (s.imports.isFree r.module pending) =
      ⟨0, r.statement ++ ";\n"⟩ := by
    simp [ImportTable.inserted, ImportTable.joinInserted?, ImportTable.openClause?,
      ImportTable.statementInserted, h.noImports, hdirective]
  have hinsertion := (ImportTable.satisfy_inserts s.imports r pending).2.1.trans hinserted
  exact ⟨congrArg Insertion.offset hinsertion, congrArg Insertion.text hinsertion⟩

/-- A list in brackets does not begin with `#`, so what goes inside of it goes behind `#!`. -/
private theorem two_le_of_start_lt {text : List Char} {list : Node} {o c : Char} {offset : Nat}
    (hline : ['#', '!'] <+: text) (hlist : list.Placed text)
    (hk : list.kind.brackets? = some (o, c)) (hlt : list.span.start < offset) : 2 ≤ offset := by
  obtain ⟨cs, rfl⟩ := hline
  obtain ⟨rest, hopen⟩ := opening_bracket hlist hk
  have hstart : list.span.start ≠ 0 := by
    intro hzero
    rw [hzero, dropBytes_zero] at hopen
    obtain rfl : '#' = o := (List.cons.inj hopen).1
    generalize list.kind = k at hk
    cases k <;> cases hk
  omega

/-- A change that puts in no import goes behind `#!`. -/
theorem Made.two_le_offset {n : Nat} (h : Made s sel n c) (hroot : s.root.Placed s.chars)
    (hline : ['#', '!'] <+: s.chars) (hother : ∀ symbol module, c.origin ≠ .importOf symbol module) :
    2 ≤ c.offset := by
  cases h with
  | imported r pending => exact absurd (origin_satisfy s.imports r pending) (hother _ _)
  | entry hd harray i e =>
    -- The other changes go into brackets, which do not begin in front of the first two bytes
    obtain ⟨hplaced, hk⟩ := placed_slotArray? (placed_metadata hroot hd).1 harray
    rw [(addition_inserts _ _ _ i e).2.1]
    exact two_le_of_start_lt hline hplaced hk (itemsOffset_bounds hplaced hk).1
  | creation hd habsent es =>
    obtain ⟨hplaced, hkind⟩ := placed_metadata hroot hd
    have hk : _ = some ('\x7b', '\x7d') := congrArg Kind.brackets? hkind
    rw [(creation_inserts _ _ n _ es).2.1]
    exact two_le_of_start_lt hline hplaced hk (itemsOffset_bounds hplaced hk).1
  | route harray i literal =>
    obtain ⟨hplaced, hk⟩ := placed_routesOf? hroot harray
    rw [(routeAddition_inserts _ _ i literal).2.1]
    exact two_le_of_start_lt hline hplaced hk (start_lt_routesOffset hplaced hk)

/-- If the change puts in an import, it is for one whose statement can be read again. -/
def Snapshot.ImportsLegibly (s : Snapshot) (c : Change) : Prop :=
  (∃ r pending, r.Writable ∧ c = s.imports.satisfy r pending) ∨
    ∀ symbol module, c.origin ≠ .importOf symbol module

/-- Imports go in front of the line that names the interpreter, and all else behind `#!`. -/
private theorem offset_cases (h : s.NamesInterpreter) (hmade : ∃ n, Made s sel n c)
    (hc : s.ImportsLegibly c) :
    (c.offset = 0 ∧ (∃ symbol module, c.origin = .importOf symbol module) ∧
        ∃ r : ImportRequest, r.Writable ∧ c.text = r.statement ++ ";\n") ∨
      (2 ≤ c.offset ∧ ∀ symbol module, c.origin ≠ .importOf symbol module) := by
  rcases hc with ⟨r, pending, hr, rfl⟩ | hother
  · obtain ⟨hoffset, htext⟩ := satisfy_of_namesInterpreter h r pending
    exact .inl ⟨hoffset, ⟨_, _, origin_satisfy s.imports r pending⟩, r, hr, htext⟩
  · obtain ⟨n, hn⟩ := hmade
    exact .inr ⟨hn.two_le_offset (Snapshot.placed_root h.parsed) h.line hother, hother⟩

/-- The texts of imports that go in front of `rest` are statements in front of it. -/
private theorem exists_writtenImports {first : List Change}
    (h : ∀ c ∈ first, ∃ r : ImportRequest, r.Writable ∧ c.text = r.statement ++ ";\n")
    (rest : List Char) :
    ∃ rs : List ImportRequest, rs.length = first.length ∧ (∀ r ∈ rs, r.Writable) ∧
      first.flatMap (fun c => c.text.toList) ++ rest = writtenImports rs rest := by
  induction first with
  | nil => exact ⟨[], rfl, fun _ hr => (nomatch hr), rfl⟩
  | cons c first ih =>
    obtain ⟨⟨r, hr, htext⟩, hfirst⟩ := List.forall_mem_cons.1 h
    obtain ⟨rs, hlength, hrs, heq⟩ := ih hfirst
    refine ⟨r :: rs, by rw [List.length_cons, hlength, List.length_cons],
      List.forall_mem_cons.2 ⟨hr, hrs⟩, ?_⟩
    rw [List.flatMap_cons, List.append_assoc, heq, htext, ImportRequest.toList_statement hr.braces]
    rfl

/-- Changes of a text that names an interpreter put the statements of their imports in front of the
line. -/
private theorem exists_statements_of_pieces {changes : ChangeSet} {out : List Char}
    {pieces : List Piece} (h : s.NamesInterpreter) (hpieces : Pieces s.chars out changes pieces)
    (hmade : ∀ c ∈ changes, ∃ n, Made s sel n c) (hlegible : ∀ c ∈ changes, s.ImportsLegibly c) :
    ∃ rs tail, (∀ r ∈ rs, r.Writable) ∧ out = writtenImports rs ('#' :: '!' :: tail) ∧
      (rs ≠ [] ↔ ∃ c ∈ changes, ∃ symbol module, c.origin = .importOf symbol module) := by
  have hcases := fun c hc => offset_cases h (hmade c hc) (hlegible c hc)
  obtain ⟨cs, hcs⟩ := h.line
  rw [← hcs] at hpieces
  -- What goes to byte 0 comes first, and all else goes behind the two signs
  obtain ⟨first, tail, rfl, hfirst⟩ := hpieces.exists_front (List.cons_ne_nil _ _) fun c hc =>
    (hcases c hc).imp And.left And.left
  have hmem : ∀ c, c ∈ first ↔ c ∈ changes ∧ ∃ symbol module, c.origin = .importOf symbol module := by
    intro c
    rw [hfirst]
    refine and_congr_right fun hc => ?_
    rcases hcases c hc with ⟨hoffset, horigin, _⟩ | ⟨hoffset, hother⟩
    · exact iff_of_true hoffset horigin
    · exact iff_of_false (by omega) fun ⟨symbol, module, ho⟩ => hother symbol module ho
  -- At byte 0 there are statements of imports only
  have htexts : ∀ c ∈ first, ∃ r : ImportRequest, r.Writable ∧ c.text = r.statement ++ ";\n" := by
    intro c hc
    obtain ⟨hc, hoffset⟩ := (hfirst c).1 hc
    rcases hcases c hc with ⟨_, _, htext⟩ | ⟨hle, _⟩
    · exact htext
    · omega
  obtain ⟨rs, hlength, hrs, heq⟩ := exists_writtenImports htexts ('#' :: '!' :: tail)
  have hne : first ≠ [] ↔ ∃ c, c ∈ first :=
    ⟨List.exists_mem_of_ne_nil first, fun ⟨_, hc⟩ => List.ne_nil_of_mem hc⟩
  refine ⟨rs, tail, hrs, heq, ?_⟩
  rw [← List.length_pos_iff, hlength, List.length_pos_iff, hne]
  exact exists_congr hmem

namespace Session

/-! ## The imports of a run -/

section

variable {s : Session}

/-- All pending imports can be read again. -/
def ImportsLegibly (s : Session) : Prop :=
  ∀ c ∈ s.pending, s.snapshot.ImportsLegibly c

/-- Imports can be read again if the one that is recorded can. -/
private theorem ImportsLegibly.perform {d : Decision} (h : s.ImportsLegibly)
    (hd : ∀ c, d.change? = some c → s.snapshot.ImportsLegibly c) : (s.perform d).ImportsLegibly := by
  intro c hc
  rw [snapshot_perform]
  rcases mem_pending_perform hc with hc | hc
  · exact h c hc
  · exact hd c hc

/-- What is recorded for an import that can be written can be read again. -/
private theorem importsLegibly_of_decideImport {r : ImportRequest} {c : Change} (hr : r.Writable)
    (hc : (s.decideImport r).change? = some c) : s.snapshot.ImportsLegibly c := by
  -- A change is decided upon only where nothing is imported and nothing is pending
  rw [decideImport, ImportTable.ensure] at hc
  split at hc
  case isTrue => cases hc
  case isFalse =>
    split at hc
    case h_1 => cases hc
    case h_2 c' hensure =>
      obtain rfl := Option.some.inj hc
      split at hensure
      case isTrue => cases hensure
      case isFalse => exact .inl ⟨r, s.pending, hr, (Option.some.inj hensure).symm⟩

/-- A change for something else than an import puts in no import. -/
private theorem Answers.importsLegibly {q : Registration} {d : Decision} (h : s.Answers q d)
    (hq : ∀ symbol module, q ≠ .binding symbol module) {c : Change} (hc : d.change? = some c) :
    s.snapshot.ImportsLegibly c := by
  refine .inr fun symbol module horigin => ?_
  have hnamed := h.names c hc
  rw [horigin, Origin.registrations, List.getLast?_singleton, Option.some.injEq] at hnamed
  exact hq symbol module hnamed.symm

/-- After a request whose imports can be read again all pending imports can. -/
theorem ImportsLegibly.carryOut (h : s.ImportsLegibly) {q : Request}
    (hq : ∀ r ∈ q.imports, r.Writable) : (s.carryOut q).ImportsLegibly := by
  rw [Session.carryOut, exec_registerSteps]
  cases q with
  | entry slot symbol module =>
    dsimp only
    cases hl : locateSlot s.snapshot s.config.selector slot with
    | error e => exact h
    | ok l =>
      simp only [registerEntry, importFor]
      -- The entry is decided in the session that has the import
      cases module with
      | none =>
        exact h.perform fun c hc =>
          (answers_decideEntry hl symbol).importsLegibly (by simp) hc
      | some m =>
        have hm : (entryImport symbol m).Writable := hq _ List.mem_cons_self
        have himported := h.perform fun c hc => importsLegibly_of_decideImport hm hc
        have hl' : locateSlot (s.perform (s.decideImport (entryImport symbol m))).snapshot
            (s.perform (s.decideImport (entryImport symbol m))).config.selector slot = .ok l := by
          simpa using hl
        exact himported.perform fun c hc =>
          (answers_decideEntry hl' symbol).importsLegibly (by simp) hc
  | imported r =>
    exact h.perform fun c hc => importsLegibly_of_decideImport (hq r List.mem_cons_self) hc
  | route literal =>
    dsimp only
    cases hl : locateRoutes s.snapshot s.config.selector with
    | error e => exact h
    | ok l =>
      exact h.perform fun c hc =>
        (answers_decideRoute hl _).importsLegibly (by simp) hc

/-- After a run whose imports can be written, all pending imports can be read again. -/
theorem ImportsLegibly.carryOutAll (h : s.ImportsLegibly) {qs : List Request}
    (hqs : ∀ q ∈ qs, ∀ r ∈ q.imports, r.Writable) : (s.carryOutAll qs).ImportsLegibly := by
  induction qs generalizing s with
  | nil => exact h
  | cons q qs ih =>
    obtain ⟨hq, hqs⟩ := List.forall_mem_cons.1 hqs
    exact ih (h.carryOut hq) hqs

end

/-- A request binds exactly the names that it imports. -/
theorem binding_mem_registrations_iff {q : Request} {symbol module : String} :
    .binding symbol module ∈ q.registrations ↔
      ∃ r ∈ q.imports, r.symbol = symbol ∧ r.module = module := by
  cases q with
  | entry slot e m =>
    cases m <;> simp [Request.registrations, Request.imports, entryImport, eq_comm]
  | imported r => simp [Request.registrations, Request.imports, eq_comm]
  | route literal => simp [Request.registrations, Request.imports]

variable {snapshot : Snapshot} {config : SessionConfig} {qs : List Request} {t : FileTree}

/-- Over a text without import statements a run has a change that puts in an import exactly when one of
its requests imports. -/
theorem exists_pending_import_iff (hnone : snapshot.imports.decls = []) (qs : List Request) :
    (∃ c ∈ ((start snapshot config).carryOutAll qs).pending, ∃ symbol module,
      c.origin = .importOf symbol module) ↔ ∃ q ∈ qs, q.AsksImport snapshot config.selector := by
  constructor
  · rintro ⟨c, hc, symbol, module, horigin⟩
    have hpending : ((start snapshot config).carryOutAll qs).pending.registers
        (.binding symbol module) = true := by
      -- A pending import is registered, and something that was asked for registers it
      rw [registers_binding]
      exact List.any_eq_true.2 ⟨c, hc, beq_iff_eq.2 horigin⟩
    obtain ⟨q, hq, hok, a, ha, _, hsame⟩ := registers_carryOutAll_start_iff.1 hpending
    cases a with
    | binding symbol' module' =>
      obtain ⟨r, hr, _⟩ := binding_mem_registrations_iff.1 ha
      exact ⟨q, hq, hok, List.ne_nil_of_mem hr⟩
    | entry | route => exact absurd hsame Bool.false_ne_true
  · rintro ⟨q, hq, hok, hne⟩
    obtain ⟨r, hr⟩ := List.exists_mem_of_ne_nil _ hne
    -- Nothing is imported yet, so what is asked for is pending
    have hunheld : snapshot.holds config.selector (.binding r.symbol r.module) = false := by
      simp [Snapshot.holds, ImportTable.isImported, hnone]
    have hpending : ((start snapshot config).carryOutAll qs).pending.registers
        (.binding r.symbol r.module) = true :=
      registers_carryOutAll_start_iff.2 ⟨q, hq, hok, _,
        binding_mem_registrations_iff.2 ⟨r, hr, rfl, rfl⟩, hunheld, Registration.same_self _⟩
    rw [registers_binding, ChangeSet.containsOrigin, List.any_eq_true] at hpending
    obtain ⟨c, hc, horigin⟩ := hpending
    exact ⟨c, hc, r.symbol, r.module, beq_iff_eq.1 horigin⟩

/-! ## What is written -/

/-- A run over a text that names an interpreter and imports nothing puts statements in front of the
line, one at least when one of its requests imports. -/
theorem exists_statements_of_run [Recovery] (h : snapshot.NamesInterpreter)
    (hqs : ∀ q ∈ qs, ∀ r ∈ q.imports, r.Writable) {out : String}
    (hout : Edit.apply snapshot.text ((start snapshot config).carryOutAll qs).pending = .ok out) :
    ∃ rs tail, (∀ r ∈ rs, r.Writable) ∧ out.toList = writtenImports rs ('#' :: '!' :: tail) ∧
      (rs ≠ [] ↔ ∃ q ∈ qs, q.AsksImport snapshot config.selector) := by
  have hreached := (Reached.start snapshot config).carryOutAll qs
  have hsnapshot : ((start snapshot config).carryOutAll qs).snapshot = snapshot :=
    (reads_carryOutAll (start snapshot config) qs).1
  have hnone : (start snapshot config).ImportsLegibly := fun _ hc => nomatch hc
  have hlegible := hnone.carryOutAll hqs
  have hmade := (orderly_of_reached hreached).made
  have happly : Edit.apply ((start snapshot config).carryOutAll qs).snapshot.text
      ((start snapshot config).carryOutAll qs).pending = .ok out := by rwa [hsnapshot]
  -- All changes insert, so the text is made of pieces
  obtain ⟨out', pieces, hout', hpieces⟩ :=
    exists_pieces_of_insertions fun c hc => inserts_of_apply_eq_ok hreached happly hc
  rw [ImportsLegibly, hsnapshot] at hlegible
  rw [hsnapshot] at hmade hout' hpieces
  obtain rfl : out' = out := Except.ok.inj (hout'.symm.trans hout)
  rw [← exists_pending_import_iff h.noImports]
  exact exists_statements_of_pieces h hpieces (fun c hc => hmade.mem hc) hlegible

/-- What such a run writes has syntax errors when one of its requests imports. -/
theorem hasSyntaxErrors_of_run [Recovery] (h : snapshot.NamesInterpreter)
    (hqs : ∀ q ∈ qs, ∀ r ∈ q.imports, r.Writable) {out : String}
    (hout : Edit.apply snapshot.text ((start snapshot config).carryOutAll qs).pending = .ok out)
    (himports : ∃ q ∈ qs, q.AsksImport snapshot config.selector) :
    (Snapshot.ofText snapshot.path out).hasSyntaxErrors = true := by
  obtain ⟨rs, tail, hrs, htext, hne⟩ := exists_statements_of_run h hqs hout
  have herrors := hasErrors_of_statements_before_hashBang (hne.2 himports) hrs tail
  rwa [← htext] at herrors

/-- What a commit of a run writes. -/
theorem apply_of_commit {c : Committed} {w : Session × FileTree}
    (h : commitSteps.exec ((start snapshot config).carryOutAll qs, t) = (.ok c, w)) :
    Edit.apply snapshot.text ((start snapshot config).carryOutAll qs).pending = .ok c.text := by
  have happly := (commitEffect_of_ok h).text
  rwa [(reads_carryOutAll (start snapshot config) qs).1] at happly

/-- A run over what a file holds is committed. -/
theorem exists_commit_of_run [Recovery] (hparsed : snapshot.hasSyntaxErrors = false)
    (config : SessionConfig) (qs : List Request) (hread : t.readText snapshot.path = .ok snapshot.text) :
    ∃ c w, commitSteps.exec ((start snapshot config).carryOutAll qs, t) = (.ok c, w) ∧
      CommitEffect ((start snapshot config).carryOutAll qs) t c w.1 w.2 ∧
      Edit.apply snapshot.text ((start snapshot config).carryOutAll qs).pending = .ok c.text := by
  have hreached := (Reached.start snapshot config).carryOutAll qs
  have hsnapshot : ((start snapshot config).carryOutAll qs).snapshot = snapshot :=
    (reads_carryOutAll (start snapshot config) qs).1
  have hpath : ((start snapshot config).carryOutAll qs).path = snapshot.path :=
    congrArg Snapshot.path hsnapshot
  have hinStep : InStep ((start snapshot config).carryOutAll qs, t) :=
    ⟨snapshot.text, hpath ▸ hread, .inl (congrArg Snapshot.digest hsnapshot).symm⟩
  have hroot := Snapshot.placed_root (hsnapshot.symm ▸ hparsed)
  obtain ⟨c, w, hexec, heffect⟩ := exists_commit_of_inStep hreached hroot hinStep
  exact ⟨c, w, hexec, heffect, apply_of_commit hexec⟩

/-- A session over a file that names an interpreter and imports nothing commits what its requests come
to. When one of them imports, the text that is written has syntax errors; otherwise it begins with the
line still. -/
theorem commit_of_namesInterpreter [Recovery] (h : snapshot.NamesInterpreter) (config : SessionConfig)
    (hqs : ∀ q ∈ qs, ∀ r ∈ q.imports, r.Writable)
    (hread : t.readText snapshot.path = .ok snapshot.text) :
    ∃ c w, commitSteps.exec ((start snapshot config).carryOutAll qs, t) = (.ok c, w) ∧
      ((∃ q ∈ qs, q.AsksImport snapshot config.selector) →
        (Snapshot.ofText snapshot.path c.text).hasSyntaxErrors = true) ∧
      ((∀ q ∈ qs, ¬ q.AsksImport snapshot config.selector) → ['#', '!'] <+: c.text.toList) := by
  obtain ⟨c, w, hexec, _, happly⟩ := exists_commit_of_run h.parsed config qs hread
  refine ⟨c, w, hexec, hasSyntaxErrors_of_run h hqs happly, fun hnone => ?_⟩
  obtain ⟨rs, tail, _, htext, hne⟩ := exists_statements_of_run h hqs happly
  obtain rfl : rs = [] := Decidable.byContradiction fun hrs => by
    obtain ⟨q, hq, himports⟩ := hne.1 hrs
    exact hnone q hq himports
  exact ⟨tail, htext.symm⟩

/-- A store with a single file has its text. -/
theorem readText_stored (text : String) :
    ({ files := (∅ : Std.TreeMap String ByteArray).insert "/m.ts" text.toUTF8,
       commits := 0 } : FileTree).readText "/m.ts" = .ok text := by
  have hpath : Path.normalize "/m.ts" = "/m.ts" := by decide +kernel
  refine readText_of_files ?_
  rw [hpath]
  exact Std.TreeMap.getElem?_insert_self

/-- Two of the requests import, and one does not. -/
theorem commit_of_namesInterpreter_sample :
    let snapshot : Snapshot := .ofText "/m.ts" "#!/bin/node\n@M(\x7bxs: [A]\x7d)class C\x7b\x7d"
    let config : SessionConfig := { importBase := ".", selector := .named "M" }
    let qs : List Request :=
      [.entry "xs" "B" (some "./b"), .entry "ys" "D" none, .imported ⟨"E", "e", false⟩]
    let t : FileTree :=
      { files := (∅ : Std.TreeMap String ByteArray).insert "/m.ts" snapshot.text.toUTF8, commits := 0 }
    ∃ c w, commitSteps.exec ((start snapshot config).carryOutAll qs, t) = (.ok c, w) ∧
      (Snapshot.ofText "/m.ts" c.text).hasSyntaxErrors = true := by
  intro snapshot config qs t
  obtain ⟨hparsed, hline, hnone, hok⟩ : snapshot.hasSyntaxErrors = false ∧
      ['#', '!'] <+: snapshot.chars ∧ snapshot.imports.decls = [] ∧
      Request.refusal? snapshot config.selector (.entry "xs" "B" (some "./b")) = none := by
    decide +kernel
  have hqs : ∀ q ∈ qs, ∀ r ∈ q.imports, r.Writable := by
    have hb : (entryImport "B" "./b").Writable := ⟨rfl, by decide +kernel, by decide +kernel⟩
    have he : ImportRequest.Writable ⟨"E", "e", false⟩ := ⟨rfl, by decide +kernel, by decide +kernel⟩
    simp [qs, Request.imports, hb, he]
  have himports : ∃ q ∈ qs, q.AsksImport snapshot config.selector :=
    ⟨_, List.mem_cons_self, hok, List.cons_ne_nil _ _⟩
  have hread : t.readText snapshot.path = .ok snapshot.text := readText_stored snapshot.text
  obtain ⟨c, w, hexec, herrors, _⟩ := commit_of_namesInterpreter ⟨hparsed, hline, hnone⟩ config hqs hread
  exact ⟨c, w, hexec, herrors himports⟩

/-- The import goes in front of the line that names the interpreter. -/
theorem interpreter_line_follows_import :
    let snapshot : Snapshot :=
      .ofText "/m.ts" "#!/usr/bin/env node\n@M(\x7bxs: []\x7d)\nclass C \x7b\x7d\n"
    let config : SessionConfig := { importBase := ".", selector := .named "M" }
    let q : Request := .entry "xs" "A" (some "./a")
    let t : FileTree :=
      { files := (∅ : Std.TreeMap String ByteArray).insert "/m.ts" snapshot.text.toUTF8, commits := 0 }
    snapshot.hasSyntaxErrors = false ∧
      (locateDeclaration snapshot config.selector).toOption.isSome = true ∧
      (start snapshot config).accepts q = true ∧
      IsName "xs".toList ∧ IsName "A".toList ∧ IsPlain "./a".toList ∧
      ∃ c w, commitSteps.exec ((start snapshot config).carryOut q, t) = (.ok c, w) ∧
        c.text = "import \x7b A \x7d from './a';\n#!/usr/bin/env node\n" ++
          "@M(\x7bxs: [A]\x7d)\nclass C \x7b\x7d\n" ∧
        (Snapshot.ofText "/m.ts" c.text).hasSyntaxErrors = true := by
  intro snapshot config q t
  obtain ⟨hparsed, hlocated, haccepts⟩ : snapshot.hasSyntaxErrors = false ∧
      (locateDeclaration snapshot config.selector).toOption.isSome = true ∧
      (start snapshot config).accepts q = true := by decide +kernel
  refine ⟨hparsed, hlocated, haccepts, by decide +kernel, by decide +kernel, by decide +kernel, ?_⟩
  -- The text that is written begins with the import, in front of the line
  have hread : t.readText snapshot.path = .ok snapshot.text := readText_stored snapshot.text
  obtain ⟨c, w, hexec, _, happly⟩ := exists_commit_of_run hparsed config [q] hread
  have hwritten : Edit.apply snapshot.text ((start snapshot config).carryOutAll [q]).pending =
      .ok ("import \x7b A \x7d from './a';\n#!/usr/bin/env node\n" ++
        "@M(\x7bxs: [A]\x7d)\nclass C \x7b\x7d\n") := by decide +kernel
  have htext := Except.ok.inj (happly.symm.trans hwritten)
  exact ⟨c, w, hexec, htext, htext ▸ by decide +kernel⟩

end Session

end Enlist
