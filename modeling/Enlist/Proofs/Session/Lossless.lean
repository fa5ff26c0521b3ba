import Enlist.Proofs.Edit.Pieces
import Enlist.Proofs.Session.Reached

/-!
# Nothing of a text is lost

Every change that a request makes inserts between two characters of the snapshot, if its tree is laid
out, as that of a text without errors is. So the pending changes of a session that is reached can always
be applied, what they give is the snapshot with their texts between its characters, and only the store
can refuse a commit of them.

## Key results

- `Made.inserts`: a change that a request makes inserts between two characters
- `exists_commit_of_insertions`: what a commit of changes that insert between two characters writes
- `lossless_of_reached`: what the pending changes of a session that is reached give
-/

namespace Enlist

open Edit Imports Metadata Store Syntax Text

/-- A change that a request makes takes nothing out. -/
theorem Made.isInsertion {s : Snapshot} {sel : Selector} {created : Nat} {c : Change}
    (h : Made s sel created c) : c.isInsertion = true := by
  cases h with
  | imported r pending => exact (ImportTable.satisfy_inserts s.imports r pending).1
  | entry _ _ i e => exact (addition_inserts _ _ _ i e).1
  | creation _ _ es => exact (creation_inserts _ _ created _ es).1
  | route _ i literal => exact (routeAddition_inserts s.chars _ i literal).1

/-- A change that a request makes inserts between two characters. -/
theorem Made.inserts {s : Snapshot} (hroot : s.root.Placed s.chars) {sel : Selector} {created : Nat}
    {c : Change} (h : Made s sel created c) :
    c.isInsertion = true ∧ isBoundary s.chars c.offset = true := by
  refine ⟨h.isInsertion, ?_⟩
  -- Each kind of change goes where its list, its object or the imports take it in
  cases h with
  | imported r pending =>
    obtain ⟨_, hinserted, _⟩ := ImportTable.satisfy_inserts s.imports r pending
    have hoffset : (s.imports.satisfy r pending).offset =
        (s.imports.inserted r (s.imports.isFree r.module pending)).offset :=
      congrArg Insertion.offset hinserted
    exact hoffset ▸ (placed_imports hroot).inserted_boundary r _
  | entry hd harray i e => exact isBoundary_addition (placed_metadata hroot hd).1 harray i e
  | creation hd habsent es =>
    obtain ⟨hplaced, hkind⟩ := placed_metadata hroot hd
    exact isBoundary_creation hplaced hkind created _ es
  | route harray i literal =>
    obtain ⟨hplaced, hbrackets⟩ := placed_routesOf? hroot harray
    obtain ⟨_, hoffset, _⟩ := routeAddition_inserts s.chars _ i literal
    exact hoffset ▸ isBoundary_routesOffset (takesItems_of_placed hplaced hbrackets rfl)

namespace Session

/-- The pending changes of a session that is reached insert between two characters. -/
theorem inserts_of_reached [Recovery] {s : Session} (h : s.Reached)
    (hroot : s.snapshot.root.Placed s.snapshot.chars) {c : Change} (hc : c ∈ s.pending) :
    c.isInsertion = true ∧ isBoundary s.snapshot.chars c.offset = true := by
  obtain ⟨_, hmade⟩ := (orderly_of_reached h).made.mem hc
  exact hmade.inserts hroot

/-- Where the pending changes of a session that is reached are applied, they insert between two
characters, however its snapshot was read. -/
theorem inserts_of_apply_eq_ok [Recovery] {s : Session} (h : s.Reached) {out : String}
    (hout : Edit.apply s.snapshot.text s.pending = .ok out) {c : Change} (hc : c ∈ s.pending) :
    c.isInsertion = true ∧ isBoundary s.snapshot.chars c.offset = true := by
  obtain ⟨_, hmade⟩ := (orderly_of_reached h).made.mem hc
  exact ⟨hmade.isInsertion, ((spliceable_of_apply_eq_ok hout).fits c hc).start_boundary⟩

/-- A session with pending changes that insert between two characters commits to a store that holds a
content which it has read or written last: it writes the snapshot with the texts of the pending changes,
those at one byte in the order in which they were recorded. -/
theorem exists_commit_of_insertions {s : Session}
    (hins : ∀ c ∈ s.pending, c.isInsertion = true ∧ isBoundary s.snapshot.chars c.offset = true)
    {t : FileTree} {stored : String} (hread : t.readText s.path = .ok stored)
    (hknown : Digest.ofText stored = s.snapshot.digest ∨
      some (Digest.ofText stored) = s.lastCommitted) :
    ∃ c s' t', commitSteps.exec (s, t) = (.ok c, s', t') ∧
      textBytes c.text =
        bytesWith (textBytes s.snapshot.text) (s.pending.map Change.insertion) ∧
      ∀ path, t'.files[path]? =
        if path = Path.normalize s.path then some c.text.toUTF8 else t.files[path]? := by
  obtain ⟨out, hout, hbytes⟩ := exists_apply_eq_ok (spliceable_of_insertions hins)
  obtain ⟨c, s', t', hexec, heffect⟩ := exists_commit_of_known hout hread hknown
  refine ⟨c, s', t', hexec, ?_, heffect.files⟩
  have hc : c.text = out := Except.ok.inj (heffect.text.symm.trans hout)
  rw [hc, hbytes, textBytes_eq]
  exact splicedBytes_of_insertions fun c hc => (hins c hc).1

/-- A session that is reached commits to a store that holds a content which it has read or written
last. -/
theorem exists_commit_of_reached [Recovery] {s : Session} (h : s.Reached)
    (hroot : s.snapshot.root.Placed s.snapshot.chars) {t : FileTree} {stored : String}
    (hread : t.readText s.path = .ok stored)
    (hknown : Digest.ofText stored = s.snapshot.digest ∨
      some (Digest.ofText stored) = s.lastCommitted) :
    ∃ c s' t', commitSteps.exec (s, t) = (.ok c, s', t') ∧
      textBytes c.text =
        bytesWith (textBytes s.snapshot.text) (s.pending.map Change.insertion) ∧
      ∀ path, t'.files[path]? =
        if path = Path.normalize s.path then some c.text.toUTF8 else t.files[path]? :=
  exists_commit_of_insertions (fun _ hc => inserts_of_reached h hroot hc) hread hknown

/-- The pending changes of a session that is reached can be applied. They give the snapshot with their
texts between its characters and nothing left out. Only the store can refuse to commit them: the file is
not there, it is no text, or it has a content that the session has neither read nor written last. -/
theorem lossless_of_reached [Recovery] {s : Session} (h : s.Reached)
    (hroot : s.snapshot.root.Placed s.snapshot.chars) :
    (∃ out pieces, Edit.apply s.snapshot.text s.pending = .ok out ∧
      Pieces s.snapshot.chars out.toList s.pending pieces ∧
      out.utf8ByteSize = s.snapshot.length + (s.pending.map fun c => c.text.utf8ByteSize).sum) ∧
    ∀ (t : FileTree) (e : SessionError), (commitSteps.exec (s, t)).1 = .error e →
      e = .fileNotFound s.path ∨ e = .store (.notUtf8 s.path) ∨
        ∃ found, e = .staleSnapshot s.path s.snapshot.digest.short found := by
  obtain ⟨out, pieces, hout, hpieces⟩ :=
    exists_pieces_of_insertions fun c hc => inserts_of_reached h hroot hc
  refine ⟨⟨out, pieces, hout, hpieces, hpieces.length_eq⟩, fun t e he => ?_⟩
  cases exec_commitSteps_eq_error_iff.1 he with
  | apply happly =>
    rw [hout] at happly
    exact nomatch happly
  | fileNotFound => exact .inl rfl
  | notUtf8 => exact .inr (.inl rfl)
  | staleSnapshot => exact .inr (.inr ⟨_, rfl⟩)

/-- Two of the changes go behind a character of two bytes. -/
theorem lossless_of_reached_sample :
    let snapshot : Snapshot := .ofText "/m.ts" "@M(\x7bxs: ['é']\x7d)class C\x7b\x7d"
    let config : SessionConfig := { importBase := ".", selector := .named "M" }
    let s := (start snapshot config).moveAll [.register (.entry "xs" "B" none),
      .register (.entry "zs" "P" none), .register (.entry "xs" "C" none)]
    ∃ out pieces, Pieces s.snapshot.chars out.toList s.pending pieces ∧
      out = "@M(\x7bxs: ['é', B, C], zs: [P]\x7d)class C\x7b\x7d" := by
  intro snapshot config s
  have happly : Edit.apply s.snapshot.text s.pending =
      .ok "@M(\x7bxs: ['é', B, C], zs: [P]\x7d)class C\x7b\x7d" := by decide +kernel
  have h : s.Reached := (Reached.start snapshot config).moveAll _
  obtain ⟨⟨out, pieces, hout, hpieces, _⟩, _⟩ :=
    lossless_of_reached h (Snapshot.placed_root (by decide +kernel))
  exact ⟨out, pieces, hpieces, Except.ok.inj (hout.symm.trans happly)⟩

end Session

end Enlist
