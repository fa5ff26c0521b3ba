import Enlist.Proofs.Session.Lossless
import Enlist.Proofs.Session.Recognition

/-!
# What stays in a file

A session takes turns over a store that nobody else writes to: it carries out requests, discards what is
pending, or commits. After a commit it knows what the file holds, so the store refuses no later commit.
Each commit writes the snapshot with what is pending, not the file with what is new. So what was committed
stays in the file as long as it stays pending, and a commit after a discard takes it out again.

## Key results

- `Snapshot.Bears.word_infix`: a text that bears a registration has what is written for it
- `apply_eq_error_of_inStep`: why a session that knows what the file holds is refused a commit
- `committed_stays`: what was committed is in the text of every later commit, unless it is discarded
- `discard_drops_committed`: what was committed and then discarded is not
-/

namespace Enlist

open Edit Imports Metadata Store Syntax

/-! ## What a text bears -/

/-- The part of a registration that is written into a text, wherever it goes. -/
def Registration.word : Registration → String
  | .binding symbol _ => symbol
  | .entry _ e => e
  | .route literal => literal

/-- The text is that of the snapshot with changes put in, and one of them is made for the
registration. -/
def Snapshot.Bears (s : Snapshot) (sel : Selector) (text : String) (r : Registration) : Prop :=
  ∃ changes pieces, Pieces s.chars text.toList changes pieces ∧
    ∃ c ∈ changes, r ∈ c.origin.registrations ∧ ∃ n, Made s sel n c

/-- A word of the first of two texts is one of both. -/
private theorem infix_append_left {word : List Char} {a : String} (h : word <:+: a.toList)
    (b : String) : word <:+: (a ++ b).toList := by
  rw [String.toList_append]
  exact h.trans (List.prefix_append _ _).isInfix

/-- A word of the second of two texts is one of both. -/
private theorem infix_append_right {word : List Char} (a : String) {b : String}
    (h : word <:+: b.toList) : word <:+: (a ++ b).toList := by
  rw [String.toList_append]
  exact h.trans (List.suffix_append _ _).isInfix

/-- Each of some texts is a part of all of them with something between. -/
private theorem infix_intercalate (between : String) {e : String} {es : List String} (h : e ∈ es) :
    e.toList <:+: (between.intercalate es).toList := by
  induction es with
  | nil => exact nomatch h
  | cons first es ih =>
    -- The first one is in front of the word between, or it is all there is
    cases es with
    | nil =>
      obtain rfl := List.mem_singleton.1 h
      have hone : between.intercalate [e] = e := String.intercalate_singleton
      exact hone.symm ▸ List.infix_rfl
    | cons second es =>
      rw [String.intercalate_cons_cons]
      rcases List.mem_cons.1 h with rfl | h
      · exact infix_append_left (infix_append_left List.infix_rfl _) _
      · exact infix_append_right _ (ih h)

/-- An import statement has its symbol in it. -/
private theorem symbol_infix_statement (r : ImportRequest) :
    r.symbol.toList <:+: r.statement.toList := by
  have hbehind (before after : String) :
      r.symbol.toList <:+: (before ++ r.symbol ++ after ++ r.module ++ "'").toList :=
    infix_append_left (infix_append_left (infix_append_left
      (infix_append_right before List.infix_rfl) after) r.module) "'"
  rw [ImportRequest.statement]
  split
  · exact hbehind "import " " from '"
  · exact hbehind "import \x7b " " \x7d from '"

/-- What a request for an import becomes has the name that is imported. -/
private theorem symbol_infix_inserted (t : ImportTable) (r : ImportRequest) (free : Bool) :
    r.symbol.toList <:+: (t.inserted r free).text.toList := by
  -- A statement names the symbol, whatever is put around it
  have hstatement : r.symbol.toList <:+: (t.statementInserted r).text.toList := by
    rw [ImportTable.statementInserted]
    split
    · exact infix_append_right _ (symbol_infix_statement r)
    · exact infix_append_right _ (symbol_infix_statement r)
    · exact infix_append_left (symbol_infix_statement r) _
  rw [ImportTable.inserted]
  split
  case isTrue => exact hstatement
  case isFalse =>
    cases hjoin : t.joinInserted? r free with
    | none => exact hstatement
    | some i =>
      simp only [ImportTable.joinInserted?, Option.bind_eq_some_iff] at hjoin
      obtain ⟨d, _, braces, _, hjoin⟩ := hjoin
      split at hjoin
      case h_1 =>
        obtain rfl := Option.some.inj hjoin
        exact infix_append_right _ List.infix_rfl
      case h_2 =>
        split at hjoin
        case isTrue =>
          obtain rfl := Option.some.inj hjoin
          exact infix_append_left (infix_append_right _ List.infix_rfl) _
        case isFalse => cases hjoin

/-- A change has what is written for each registration that it is made for. -/
theorem Made.word_infix {s : Snapshot} {sel : Selector} {n : Nat} {c : Change} {r : Registration}
    (h : Made s sel n c) (hr : r ∈ c.origin.registrations) : r.word.toList <:+: c.text.toList := by
  -- Each kind of change has in its text the word of what it is for
  cases h with
  | imported q pending =>
    have htext : (s.imports.satisfy q pending).text =
        (s.imports.inserted q (s.imports.isFree q.module pending)).text :=
      congrArg Insertion.text (ImportTable.satisfy_inserts s.imports q pending).2.1
    rw [origin_satisfy] at hr
    obtain rfl := List.mem_singleton.1 hr
    rw [htext]
    exact symbol_infix_inserted s.imports q _
  | entry _ _ i e =>
    rw [origin_addition] at hr
    obtain rfl := List.mem_singleton.1 hr
    rw [(addition_inserts _ _ _ i e).2.2]
    exact infix_append_right _ List.infix_rfl
  | creation _ _ es =>
    rw [origin_creation] at hr
    obtain ⟨e, he, rfl⟩ := List.mem_map.1 hr
    rw [(creation_inserts _ _ _ _ es).2.2, slotText]
    exact infix_append_right _ (infix_append_left (infix_append_right _ (infix_intercalate ", " he)) _)
  | route _ i literal =>
    rw [origin_routeAddition] at hr
    obtain rfl := List.mem_singleton.1 hr
    rw [(routeAddition_inserts _ _ i literal).2.2, routeItem]
    split
    · exact infix_append_left List.infix_rfl _
    · exact infix_append_right _ List.infix_rfl

/-- A text that bears a registration has what is written for it. -/
theorem Snapshot.Bears.word_infix {s : Snapshot} {sel : Selector} {text : String} {r : Registration}
    (h : s.Bears sel text r) : r.word.toList <:+: text.toList := by
  obtain ⟨changes, pieces, hpieces, c, hc, hr, n, hmade⟩ := h
  obtain ⟨p, hp, hput⟩ := List.mem_filterMap.1 (hpieces.changes.mem_iff.2 hc)
  cases p with
  | kept => exact nomatch hput
  | put c' =>
    obtain rfl := Option.some.inj hput
    rw [← hpieces.edited, List.flatMap_def]
    exact (hmade.word_infix hr).trans (List.infix_of_mem_flatten (List.mem_map_of_mem hp))

namespace Session

/-- The text that a session writes which is reached bears all that is pending. -/
theorem bears_of_commitEffect [Recovery] {s s' : Session} {t t' : FileTree} {c : Committed}
    (h : s.Reached)
    (heffect : CommitEffect s t c s' t') {r : Registration} (hr : r ∈ s.pending.registrations) :
    s.snapshot.Bears s.config.selector c.text r := by
  obtain ⟨out, pieces, hout, hpieces⟩ :=
    exists_pieces_of_insertions fun c hc => inserts_of_apply_eq_ok h heffect.text hc
  obtain rfl : out = c.text := Except.ok.inj (hout.symm.trans heffect.text)
  obtain ⟨change, hchange, hr⟩ := List.mem_flatMap.1 hr
  exact ⟨s.pending, pieces, hpieces, change, hchange, hr, (orderly_of_reached h).made.mem hchange⟩

/-! ## What is pending does not depend on commits -/

/-- Two sessions have the same text and the same pending changes. They may have been committed
differently. -/
structure Alike (s s' : Session) : Prop where
  snapshot : s.snapshot = s'.snapshot
  config : s.config = s'.config
  pending : s.pending = s'.pending

namespace Alike

variable {s s' : Session}

theorem symm (h : Alike s s') : Alike s' s :=
  ⟨h.snapshot.symm, h.config.symm, h.pending.symm⟩

theorem trans {s'' : Session} (h : Alike s s') (h' : Alike s' s'') : Alike s s'' :=
  ⟨h.snapshot.trans h'.snapshot, h.config.trans h'.config, h.pending.trans h'.pending⟩

private theorem perform (h : Alike s s') {d d' : Decision} (hd : d = d') :
    Alike (s.perform d) (s'.perform d') := by
  refine ⟨?_, ?_, ?_⟩
  · rw [snapshot_perform, snapshot_perform, h.snapshot]
  · rw [config_perform, config_perform, h.config]
  · rw [pending_perform, pending_perform, h.pending, hd]

/-- What is decided for a registration is the same. -/
private theorem decides (h : Alike s s') :
    (∀ r, s.decideImport r = s'.decideImport r) ∧
    (∀ l e, s.decideEntry l e = s'.decideEntry l e) ∧
    ∀ l literal, s.decideRoute l literal = s'.decideRoute l literal := by
  -- A decision reads the snapshot, the configuration and what is pending, and nothing else
  obtain ⟨hsnapshot, hconfig, hpending⟩ := h
  cases s
  cases s'
  cases hsnapshot
  cases hconfig
  cases hpending
  exact ⟨fun _ => rfl, fun _ _ => rfl, fun _ _ => rfl⟩

/-- A request does the same to both. -/
theorem carryOut (h : Alike s s') (r : Request) : Alike (s.carryOut r) (s'.carryOut r) := by
  rw [Session.carryOut, Session.carryOut, exec_registerSteps, exec_registerSteps, h.snapshot, h.config]
  -- Both locate the same and decide alike, so what they do is the same
  cases r with
  | entry slot symbol module =>
    dsimp only
    cases locateSlot s'.snapshot s'.config.selector slot with
    | error e => exact h
    | ok l =>
      cases module with
      | none => exact h.perform (h.decides.2.1 l symbol)
      | some m =>
        have himport := h.perform (h.decides.1 (entryImport symbol m))
        exact himport.perform (himport.decides.2.1 l symbol)
  | imported r => exact h.perform (h.decides.1 r)
  | route literal =>
    dsimp only
    cases locateRoutes s'.snapshot s'.config.selector with
    | error e => exact h
    | ok l => exact h.perform (h.decides.2.2 l _)

end Alike

/-! ## Turns -/

/-- What is done with a session over a store that nobody else writes to. -/
inductive Turn where
  | register (r : Request)
  | discard
  | commit
  deriving DecidableEq

/-- The session and the store after a turn. -/
def turn (w : Session × FileTree) : Turn → Session × FileTree
  | .register r => (w.1.carryOut r, w.2)
  | .discard => (w.1.discard, w.2)
  | .commit => (commitSteps.exec w).2

def turns (w : Session × FileTree) (ts : List Turn) : Session × FileTree :=
  ts.foldl turn w

/-- The store holds what the session has read or written last. -/
def InStep (w : Session × FileTree) : Prop :=
  ∃ text, w.2.readText w.1.path = .ok text ∧
    (Digest.ofText text = w.1.snapshot.digest ∨ some (Digest.ofText text) = w.1.lastCommitted)

variable {w : Session × FileTree}

/-- The bytes of a text are read as that text. -/
private theorem fromUTF8?_toUTF8 (text : String) : String.fromUTF8? text.toUTF8 = some text :=
  dif_pos text.isValidUTF8

/-- A file that holds the bytes of a text is read as that text. -/
theorem readText_of_files {t : FileTree} {path text : String}
    (h : t.files[Path.normalize path]? = some text.toUTF8) : t.readText path = .ok text := by
  rw [FileTree.readText, FileTree.read?, h]
  dsimp only
  rw [fromUTF8?_toUTF8]

/-- After a commit the file holds the text that was written. -/
theorem CommitEffect.readText {s s' : Session} {t t' : FileTree} {c : Committed}
    (h : CommitEffect s t c s' t') : t'.readText s'.path = .ok c.text := by
  have hpath : s'.path = s.path := by rw [h.session]; rfl
  exact readText_of_files (by rw [h.files, hpath, if_pos rfl])

/-- After a commit the store holds what was written. -/
theorem CommitEffect.inStep {s s' : Session} {t t' : FileTree} {c : Committed}
    (h : CommitEffect s t c s' t') : InStep (s', t') := by
  refine ⟨c.text, h.readText, .inr ?_⟩
  rw [h.session, h.after]
  rfl

/-- A commit that succeeds has the effect of a commit. -/
theorem commitEffect_of_ok {c : Committed} {w' : Session × FileTree}
    (h : commitSteps.exec w = (.ok c, w')) : CommitEffect w.1 w.2 c w'.1 w'.2 := by
  rcases exec_commitSteps_cases w.1 w.2 with ⟨e, _, hexec⟩ | ⟨d, s', t', heffect, hexec⟩
  · exact nomatch (Prod.mk.inj (h.symm.trans hexec)).1
  · obtain ⟨hd, rfl⟩ := Prod.mk.inj (h.symm.trans hexec)
    exact Except.ok.inj hd ▸ heffect

/-- A session that knows what the file holds is refused a commit only where its changes cannot be
applied. -/
theorem apply_eq_error_of_inStep (hw : InStep w) {e : SessionError}
    (h : (commitSteps.exec w).1 = .error e) :
    ∃ e', e = .apply e' ∧ Edit.apply w.1.snapshot.text w.1.pending = .error e' := by
  obtain ⟨stored, hread, hknown⟩ := hw
  obtain ⟨bytes, hstored, hutf8⟩ := exists_stored_of_readText hread
  cases happly : Edit.apply w.1.snapshot.text w.1.pending with
  | error e' => exact ⟨e', (exec_commitSteps_eq_error_iff.1 h).unique (.apply happly), rfl⟩
  | ok out =>
    obtain ⟨c, s', t', hexec, _⟩ := exists_commit_of_known happly hread hknown
    rw [show w = (w.1, w.2) from rfl, hexec] at h
    exact nomatch h

/-- A session that is reached over a text without errors and knows what the file holds commits. -/
theorem exists_commit_of_inStep [Recovery] (h : w.1.Reached)
    (hroot : w.1.snapshot.root.Placed w.1.snapshot.chars) (hw : InStep w) :
    ∃ c w', commitSteps.exec w = (.ok c, w') ∧ CommitEffect w.1 w.2 c w'.1 w'.2 := by
  obtain ⟨stored, hread, hknown⟩ := hw
  obtain ⟨out, _, hout, _⟩ := exists_pieces_of_insertions fun c hc => inserts_of_reached h hroot hc
  obtain ⟨c, s', t', hexec, heffect⟩ := exists_commit_of_known hout hread hknown
  exact ⟨c, (s', t'), hexec, heffect⟩

/-- A session that takes a turn is reached. -/
theorem reached_turn [Recovery] (h : w.1.Reached) (k : Turn) : (turn w k).1.Reached := by
  cases k with
  | register r => exact h.move (.register r)
  | discard => exact h.move .discard
  | commit => exact h.move (.commit w.2)

/-- A commit touches nothing that is pending, whether it is done or refused. -/
theorem alike_commit [Recovery] (w : Session × FileTree) : Alike (turn w .commit).1 w.1 := by
  obtain ⟨state, last, hmove⟩ := exists_move_commit_eq w.1 w.2
  have hturn : (turn w .commit).1 = { w.1 with state, lastCommitted := last } := hmove
  rw [hturn]
  exact ⟨rfl, rfl, rfl⟩

/-- Sessions that are alike stay so when both take the same turn, over any stores. -/
theorem Alike.turn [Recovery] {w w' : Session × FileTree} (h : Alike w.1 w'.1) (k : Turn) :
    Alike (turn w k).1 (turn w' k).1 := by
  cases k with
  | register r => exact h.carryOut r
  | discard => exact ⟨h.snapshot, h.config, rfl⟩
  | commit => exact (alike_commit w).trans (h.trans (alike_commit w').symm)

/-- No turn reads the file again. -/
theorem reads_turn [Recovery] (w : Session × FileTree) (k : Turn) :
    (turn w k).1.snapshot = w.1.snapshot ∧ (turn w k).1.config = w.1.config := by
  cases k with
  | register r => exact ⟨snapshot_carryOut w.1 r, config_carryOut w.1 r⟩
  | discard => exact ⟨rfl, rfl⟩
  | commit => exact ⟨(alike_commit w).snapshot, (alike_commit w).config⟩

/-- A session that knows what the file holds knows it after each turn: a commit that is refused leaves
it there, and after one that is done it is what was written. -/
theorem inStep_turn (hw : InStep w) (k : Turn) : InStep (turn w k) := by
  -- Only a commit writes, and then the store holds what the session wrote
  cases k with
  | register r =>
    obtain ⟨pending, state, hr⟩ := exists_carryOut_eq w.1 r
    rw [turn, hr]
    exact hw
  | discard => exact hw
  | commit =>
    rw [turn]
    rcases exec_commitSteps_cases w.1 w.2 with ⟨e, _, hexec⟩ | ⟨c, s', t', heffect, hexec⟩
    · rw [hexec]
      exact hw
    · rw [hexec]
      exact heffect.inStep

/-- What is decided takes back no registration. -/
theorem Answers.registrations_subset {s : Session} {r : Registration} {d : Decision}
    (h : s.Answers r d) : s.pending.registrations ⊆ (s.perform d).pending.registrations := by
  intro q hq
  rw [h.registrations_perm.mem_iff]
  split
  · exact hq
  · exact List.mem_cons_of_mem r hq

/-- A request takes back no registration. -/
theorem Answered.registrations_subset {s s' : Session} {rs : List Registration} {cs : List Change}
    (h : Answered s rs s' cs) : s.pending.registrations ⊆ s'.pending.registrations := by
  induction h with
  | nil => exact List.Subset.refl _
  | cons first _ ih => exact List.Subset.trans first.registrations_subset ih

/-- Every turn but a discard keeps what is pending. -/
theorem registrations_subset_turn [Recovery] (w : Session × FileTree) {k : Turn} (hk : k ≠ .discard) :
    w.1.pending.registrations ⊆ (turn w k).1.pending.registrations := by
  -- A request keeps what is registered, and a commit leaves what is pending
  cases k with
  | register r =>
    rw [turn, carryOut]
    rcases exec_registerSteps_cases w.1 r with ⟨e, _, hexec⟩ | ⟨_, s', cs, hexec, hanswered⟩
    · rw [hexec]
      exact List.Subset.refl _
    · rw [hexec]
      exact hanswered.registrations_subset
  | discard => exact absurd rfl hk
  | commit =>
    rw [(alike_commit w).pending]
    exact List.Subset.refl _

/-! ## Many turns -/

/-- A session that takes any turns is reached. -/
theorem reached_turns [Recovery] (h : w.1.Reached) (ts : List Turn) : (turns w ts).1.Reached := by
  induction ts generalizing w with
  | nil => exact h
  | cons k ts ih => exact ih (reached_turn h k)

/-- Turns change neither the snapshot nor the configuration. -/
theorem reads_turns [Recovery] (w : Session × FileTree) (ts : List Turn) :
    (turns w ts).1.snapshot = w.1.snapshot ∧ (turns w ts).1.config = w.1.config := by
  induction ts generalizing w with
  | nil => exact ⟨rfl, rfl⟩
  | cons k ts ih =>
    obtain ⟨hsnapshot, hconfig⟩ := reads_turn w k
    exact ⟨(ih (turn w k)).1.trans hsnapshot, (ih (turn w k)).2.trans hconfig⟩

/-- A session that knows what the file holds knows it over any turns. -/
theorem inStep_turns (hw : InStep w) (ts : List Turn) : InStep (turns w ts) := by
  induction ts generalizing w with
  | nil => exact hw
  | cons k ts ih => exact ih (inStep_turn hw k)

/-- Turns without a discard take back no registration. -/
theorem registrations_subset_turns [Recovery] (w : Session × FileTree) {ts : List Turn}
    (hts : .discard ∉ ts) :
    w.1.pending.registrations ⊆ (turns w ts).1.pending.registrations := by
  induction ts generalizing w with
  | nil => exact List.Subset.refl _
  | cons k ts ih =>
    rw [List.mem_cons, not_or] at hts
    exact List.Subset.trans (registrations_subset_turn w (Ne.symm hts.1)) (ih (turn w k) hts.2)

theorem Alike.turns [Recovery] {w w' : Session × FileTree} (h : Alike w.1 w'.1) (ts : List Turn) :
    Alike (turns w ts).1 (turns w' ts).1 := by
  induction ts generalizing w w' with
  | nil => exact h
  | cons k ts ih => exact ih (h.turn k)

/-- After a discard a session goes on as a new one. -/
theorem alike_discard [Recovery] (w : Session × FileTree) (front back : List Turn) (t : FileTree) :
    Alike (turns w (front ++ .discard :: back)).1
      (turns (start w.1.snapshot w.1.config, t) back).1 := by
  have hparts : turns w (front ++ .discard :: back) = turns (turn (turns w front) .discard) back :=
    List.foldl_append
  obtain ⟨hsnapshot, hconfig⟩ := reads_turns w front
  have hdiscard : Alike (turn (turns w front) .discard).1 (start w.1.snapshot w.1.config, t).1 :=
    ⟨hsnapshot, hconfig, rfl⟩
  rw [hparts]
  exact hdiscard.turns back

/-- After a commit a session has the same text and the same pending changes, and knows what the file
holds, whatever turns follow. -/
theorem alike_of_commit {v : Session × FileTree} {c : Committed}
    (hcommit : commitSteps.exec v = (.ok c, w)) (between : List Turn) :
    Alike w.1 v.1 ∧ InStep (turns w between) := by
  -- The first commit is a turn too
  have hw : w = turn v .commit := by rw [turn, hcommit]
  exact ⟨hw ▸ alike_commit v, inStep_turns (commitEffect_of_ok hcommit).inStep between⟩

/-- What a session that is new writes with its first commit and with a later one. What was pending at
the first is in the texts of both, unless it was discarded in between; after a discard the later one
writes what a new session would that takes the turns since. The later one is refused only where its
changes cannot be applied, and so never where the tree of the snapshot is laid out. -/
theorem committed_stays [Recovery] {snapshot : Snapshot} {config : SessionConfig} {t : FileTree}
    {before : List Turn} {c : Committed} {w : Session × FileTree}
    (hcommit : commitSteps.exec (turns (start snapshot config, t) before) = (.ok c, w))
    (between : List Turn) :
    (∀ c' w', commitSteps.exec (turns w between) = (.ok c', w') →
      (.discard ∉ between →
        ∀ r ∈ (turns (start snapshot config, t) before).1.pending.registrations,
          snapshot.Bears config.selector c.text r ∧ snapshot.Bears config.selector c'.text r) ∧
      ∀ front back, between = front ++ .discard :: back →
        Edit.apply snapshot.text (turns (start snapshot config, t) back).1.pending = .ok c'.text) ∧
    (∀ e, (commitSteps.exec (turns w between)).1 = .error e →
      ∃ e', e = .apply e' ∧
        Edit.apply snapshot.text (turns w between).1.pending = .error e') ∧
    (snapshot.root.Placed snapshot.chars →
      ∃ c' w', commitSteps.exec (turns w between) = (.ok c', w')) := by
  have hnew : (start snapshot config, t).1.Reached := .start snapshot config
  have hreached := reached_turns hnew before
  obtain ⟨hsnapshot, hconfig⟩ := reads_turns (start snapshot config, t) before
  obtain ⟨halike, hinStep⟩ := alike_of_commit hcommit between
  have hreached' : (turns w between).1.Reached := by
    have hw : w = turn (turns (start snapshot config, t) before) .commit := by rw [turn, hcommit]
    exact reached_turns (hw ▸ reached_turn hreached .commit) between
  obtain ⟨hkept, hkeptConfig⟩ := reads_turns w between
  have hwSnapshot : w.1.snapshot = snapshot := halike.snapshot.trans hsnapshot
  have hwConfig : w.1.config = config := halike.config.trans hconfig
  have hlater : (turns w between).1.snapshot = snapshot := hkept.trans hwSnapshot
  refine ⟨fun c' w' hexec => ⟨fun hbetween r hr => ⟨?_, ?_⟩, ?_⟩, fun e he => ?_, fun hroot => ?_⟩
  · have hbears := bears_of_commitEffect hreached (commitEffect_of_ok hcommit) hr
    rwa [hsnapshot, hconfig] at hbears
  · rw [← halike.pending] at hr
    have hbears := bears_of_commitEffect hreached' (commitEffect_of_ok hexec)
      (registrations_subset_turns w hbetween hr)
    rwa [hlater, hkeptConfig, hwConfig] at hbears
  -- The later commit writes what is pending then, which the turns since would leave in a new session
  · rintro front back rfl
    have hsince := alike_discard w front back t
    rw [hwSnapshot, hwConfig] at hsince
    have htext := (commitEffect_of_ok hexec).text
    rwa [hlater, hsince.pending] at htext
  · rw [← hlater]
    exact apply_eq_error_of_inStep hinStep he
  · rw [← hlater] at hroot
    obtain ⟨c', w', hexec, _⟩ := exists_commit_of_inStep hreached' hroot hinStep
    exact ⟨c', w', hexec⟩

/-- Between the commits an import is asked for, and the first commit is made again. -/
theorem committed_stays_sample :
    let snapshot : Snapshot := .ofText "/m.ts" "@M(\x7bxs: [A]\x7d)class C\x7b\x7d"
    let config : SessionConfig := { importBase := ".", selector := .named "M" }
    let t : FileTree :=
      { files := (∅ : Std.TreeMap String ByteArray).insert "/m.ts" snapshot.text.toUTF8, commits := 0 }
    let v := turns (start snapshot config, t) [.register (.entry "xs" "B" none)]
    let between : List Turn := [.register (.imported ⟨"D", "d", false⟩), .commit]
    ∃ c w c' w', commitSteps.exec v = (.ok c, w) ∧ commitSteps.exec (turns w between) = (.ok c', w') ∧
      snapshot.Bears config.selector c.text (.entry "xs" "B") ∧
      snapshot.Bears config.selector c'.text (.entry "xs" "B") := by
  intro snapshot config t v between
  have hread : t.readText snapshot.path = .ok snapshot.text := by decide +kernel
  have hroot : snapshot.root.Placed snapshot.chars := Snapshot.placed_root (by decide +kernel)
  have hpending : .entry "xs" "B" ∈ v.1.pending.registrations := by decide +kernel
  -- The first commit is made, and by the theorem the later one is made too
  have hreached : v.1.Reached := reached_turns (.start snapshot config) _
  have hinStep : InStep (start snapshot config, t) := ⟨snapshot.text, hread, .inl rfl⟩
  have hplaced : v.1.snapshot.root.Placed v.1.snapshot.chars := by
    rwa [(reads_turns (start snapshot config, t) _).1]
  obtain ⟨c, w, hcommit, _⟩ := exists_commit_of_inStep hreached hplaced (inStep_turns hinStep _)
  obtain ⟨hkept, _, hcommits⟩ := committed_stays hcommit between
  obtain ⟨c', w', hlater⟩ := hcommits hroot
  obtain ⟨hfirst, hsecond⟩ := (hkept c' w' hlater).1 (by decide) _ hpending
  exact ⟨c, w, c', w', hcommit, hlater, hfirst, hsecond⟩

/-- What is discarded after a commit is taken out of the file by the next one, which is not refused. -/
theorem discard_drops_committed :
    let snapshot : Snapshot := .ofText "/m.ts" "@M(\x7bxs: [A]\x7d)class C\x7b\x7d"
    let config : SessionConfig := { importBase := ".", selector := .named "M" }
    let t : FileTree :=
      { files := (∅ : Std.TreeMap String ByteArray).insert "/m.ts" snapshot.text.toUTF8, commits := 0 }
    let v := turns (start snapshot config, t) [.register (.entry "xs" "B" none)]
    let between : List Turn := [.discard, .register (.entry "xs" "D" none)]
    ∃ c w c' w', commitSteps.exec v = (.ok c, w) ∧ commitSteps.exec (turns w between) = (.ok c', w') ∧
      .entry "xs" "B" ∈ v.1.pending.registrations ∧
      c.text = "@M(\x7bxs: [A, B]\x7d)class C\x7b\x7d" ∧
      c'.text = "@M(\x7bxs: [A, D]\x7d)class C\x7b\x7d" ∧
      ¬ snapshot.Bears config.selector c'.text (.entry "xs" "B") := by
  intro snapshot config t v between
  have hread : t.readText snapshot.path = .ok snapshot.text := by decide +kernel
  have hpending : .entry "xs" "B" ∈ v.1.pending.registrations := by decide +kernel
  have hfirst : Edit.apply v.1.snapshot.text v.1.pending =
      .ok "@M(\x7bxs: [A, B]\x7d)class C\x7b\x7d" := by decide +kernel
  have hsecond : Edit.apply snapshot.text
      (turns (start snapshot config, t) [.register (.entry "xs" "D" none)]).1.pending =
        .ok "@M(\x7bxs: [A, D]\x7d)class C\x7b\x7d" := by decide +kernel
  have hinStep : InStep (start snapshot config, t) := ⟨snapshot.text, hread, .inl rfl⟩
  obtain ⟨stored, hstored, hknown⟩ := inStep_turns hinStep [.register (.entry "xs" "B" none)]
  obtain ⟨c, s₁, t₁, hcommit, heffect⟩ := exists_commit_of_known hfirst hstored hknown
  let w := (s₁, t₁)
  obtain ⟨halike, hinStep'⟩ := alike_of_commit (w := w) hcommit between
  -- What is pending at the later commit is what a new session has after the turns since the discard
  have hsnapshot : w.1.snapshot = snapshot := halike.snapshot.trans (reads_turns _ _).1
  have hconfig : w.1.config = config := halike.config.trans (reads_turns _ _).2
  have hsince := alike_discard w [] [.register (.entry "xs" "D" none)] t
  rw [hsnapshot, hconfig] at hsince
  rw [← hsince.pending, ← hsnapshot, ← (reads_turns w between).1] at hsecond
  obtain ⟨stored', hstored', hknown'⟩ := hinStep'
  obtain ⟨c', s₂, t₂, hlater, heffect'⟩ := exists_commit_of_known hsecond hstored' hknown'
  let w' := (s₂, t₂)
  have hc : c.text = "@M(\x7bxs: [A, B]\x7d)class C\x7b\x7d" :=
    Except.ok.inj (heffect.text.symm.trans hfirst)
  have hc' : c'.text = "@M(\x7bxs: [A, D]\x7d)class C\x7b\x7d" :=
    Except.ok.inj (heffect'.text.symm.trans hsecond)
  refine ⟨c, w, c', w', hcommit, hlater, hpending, hc, hc', fun hbears => ?_⟩
  -- What is written for the entry is not in the later text
  have hword := hbears.word_infix
  rw [hc'] at hword
  exact absurd hword (by decide +kernel)

end Session

end Enlist
