import Enlist.Proofs.Session.Commit
import Enlist.Proofs.Session.Registrations

/-!
# What is pending in a session that is reached

A session is reached from one that is new by requests, and by discarding, committing and reading the
file again, in any order and over any stores; nothing is put into its pending changes by hand. `Orderly`
is what all these moves keep up: the pending changes register different things that the text does not
have, a slot is created at most once, and each change is one that a request makes.

## Key results

- `allMade_append`: changes that are made stay so when they are cut into two parts
- `orderly_perform`: a decision keeps the pending changes orderly
- `orderly_of_reached`: so does every move of a session
- `registeredOnce_of_reached`: nothing is registered twice in a session that is reached
-/

namespace Enlist

open Edit Metadata Store Syntax
open Text (sameUpToBlanks)

/-! ## Orderly changes -/

/-- The changes are made one behind the other, when `created` slots are created before them. -/
def AllMade (s : Snapshot) (sel : Selector) : Nat → ChangeSet → Prop
  | _, [] => True
  | created, c :: cs =>
    Made s sel created c ∧ AllMade s sel (created + if c.origin.isCreation then 1 else 0) cs

/-- The changes register different things that the text does not have. -/
structure Orderly (s : Snapshot) (sel : Selector) (pending : ChangeSet) : Prop where
  unheld : ∀ r ∈ pending.registrations, s.holds sel r = false
  apart : pending.registrations.Pairwise fun a b => a.same b = false
  once : ∀ slot, pending.countP (fun c => c.origin.creates slot) ≤ 1
  made : AllMade s sel 0 pending

variable {s : Snapshot} {sel : Selector} {created : Nat} {pending : ChangeSet}

theorem allMade_append {as bs : ChangeSet} :
    AllMade s sel created (as ++ bs) ↔
      AllMade s sel created as ∧ AllMade s sel (created + as.creations) bs := by
  -- Induction on the first part; each creation in it is counted for those that follow
  induction as generalizing created with
  | nil => simp [AllMade]
  | cons a as ih =>
    have hcount : created + ChangeSet.creations (a :: as) =
        created + (if a.origin.isCreation then 1 else 0) + ChangeSet.creations as := by
      simp only [ChangeSet.creations, List.countP_cons]
      omega
    simp only [List.cons_append, AllMade, ih, and_assoc, hcount]

/-- Each of the changes is made. -/
theorem AllMade.mem (h : AllMade s sel created pending) {c : Change} (hc : c ∈ pending) :
    ∃ n, Made s sel n c := by
  obtain ⟨front, back, rfl⟩ := List.append_of_mem hc
  exact ⟨_, (allMade_append.1 h).2.1⟩

theorem orderly_nil (s : Snapshot) (sel : Selector) : Orderly s sel [] :=
  ⟨fun _ h => (nomatch h), List.Pairwise.nil, fun _ => Nat.zero_le 1, trivial⟩

/-- One more registration that the text does not have and no pending change is for. -/
private theorem Orderly.registrations_cons (h : Orderly s sel pending) {cs : ChangeSet}
    {r : Registration} (hperm : cs.registrations.Perm (r :: pending.registrations))
    (hunheld : s.holds sel r = false) (hnew : pending.registers r = false) :
    (∀ r ∈ cs.registrations, s.holds sel r = false) ∧
      cs.registrations.Pairwise fun a b => a.same b = false := by
  constructor
  · intro r' hr'
    rcases List.mem_cons.1 (hperm.mem_iff.1 hr') with rfl | hr'
    · exact hunheld
    · exact h.unheld r' hr'
  · have hsymm : ∀ {a b : Registration}, a.same b = false → b.same a = false := fun {a b} hab => by
      rwa [Registration.same_comm]
    -- What is new differs from all that is pending
    rw [hperm.pairwise_iff hsymm, List.pairwise_cons]
    refine ⟨fun r' hr' => ?_, h.apart⟩
    rw [Registration.same_comm]
    exact eq_false_of_ne_true (List.any_eq_false.1 hnew r' hr')

/-- A decision keeps the pending changes orderly. -/
theorem orderly_perform {s : Session} {d : Decision}
    (h : Orderly s.snapshot s.config.selector s.pending) (hd : s.Settles d) :
    Orderly s.snapshot s.config.selector (d.perform s.pending) := by
  cases hd with
  | present => exact h
  | pending => exact h
  | append horigin hunheld hnew hmade hcreated =>
    rename_i c r
    have hperm := s.pending.registrations_push horigin
    obtain ⟨hunheld', hapart⟩ := h.registrations_cons hperm hunheld hnew
    refine ⟨hunheld', hapart, fun slot => ?_, allMade_append.2 ⟨h.made, by rwa [Nat.zero_add], trivial⟩⟩
    rw [Decision.perform, ChangeSet.push, List.countP_append, List.countP_singleton]
    split
    case isTrue hcreates =>
      -- No other change creates the slot
      rw [List.countP_eq_zero.2 fun d hd => by simp [hcreated slot hcreates d hd]]
    case isFalse => exact h.once slot
  | extend hparts hwas hbecomes hunheld hnew hmade =>
    rename_i front back c c' slot e es
    have hperm := ChangeSet.registrations_extend front back hwas hbecomes
    rw [← hparts] at hperm
    obtain ⟨hunheld', hapart⟩ := h.registrations_cons hperm hunheld hnew
    have hmade' := h.made
    have honce := h.once
    simp only [hparts, List.countP_append, List.countP_cons] at honce
    rw [hparts, allMade_append] at hmade'
    rw [hparts, Decision.perform_extend]
    refine ⟨hunheld', hapart, fun slot' => ?_, allMade_append.2 ⟨hmade'.1, by rwa [Nat.zero_add], ?_⟩⟩
    · simpa only [List.countP_append, List.countP_cons, hwas, hbecomes, Origin.creates] using honce slot'
    · have hrest := hmade'.2.2
      rw [hwas] at hrest
      rw [hbecomes]
      exact hrest

/-! ## Sessions that are reached -/

namespace Session

/-- What is done with a session, other than putting changes into it by hand. -/
inductive Move where
  | register (r : Request)
  /-- A symbol becomes an entry of a slot and is imported from the module of a suffix. -/
  | registerIn (slot symbol : String) (suffix : Option String)
  | discard
  | commit (t : FileTree)
  | refresh (t : FileTree)

def move [Recovery] (s : Session) : Move → Session
  | .register r => s.carryOut r
  | .registerIn slot symbol suffix => s.carryOut (s.slotRequest slot symbol suffix)
  | .discard => s.discard
  | .commit t => (commitSteps.exec (s, t)).2.1
  | .refresh t => ((refreshSteps t).exec s).2

def moveAll [Recovery] (s : Session) (ms : List Move) : Session :=
  ms.foldl move s

/-- The session is new, or a session that is reached has moved on. -/
inductive Reached [Recovery] : Session → Prop where
  | start (snapshot : Snapshot) (config : SessionConfig) : Reached (start snapshot config)
  | openFile {t : FileTree} {path : String} {config : SessionConfig} {s : Session}
      (h : openFile t path config = .ok s) : Reached s
  | move {s : Session} (h : Reached s) (m : Move) : Reached (s.move m)

/-- A session that moves on is reached. -/
theorem Reached.moveAll [Recovery] {s : Session} (h : s.Reached) (ms : List Move) :
    (s.moveAll ms).Reached := by
  induction ms generalizing s with
  | nil => exact h
  | cons m ms ih => exact ih (h.move m)

/-- A session after a run is reached. -/
theorem Reached.carryOutAll [Recovery] {s : Session} (h : s.Reached) (rs : List Request) :
    (s.carryOutAll rs).Reached := by
  have hmoves := h.moveAll (rs.map .register)
  rwa [Session.moveAll, List.foldl_map] at hmoves

/-- A session that was opened is new. -/
theorem exists_start_of_openFile [Recovery] {t : FileTree} {path : String} {config : SessionConfig}
    {s : Session}
    (h : openFile t path config = .ok s) : ∃ snapshot, s = start snapshot config := by
  rw [openFile] at h
  cases hread : readSnapshot t (Path.normalize path) with
  | error e =>
    rw [hread] at h
    exact nomatch h
  | ok snapshot =>
    rw [hread] at h
    exact ⟨snapshot, (Except.ok.inj h).symm⟩

/-- A commit keeps the snapshot and the pending changes. -/
theorem exists_move_commit_eq [Recovery] (s : Session) (t : FileTree) :
    ∃ state last, s.move (.commit t) = { s with state, lastCommitted := last } := by
  rw [move]
  rcases exec_commitSteps_cases s t with ⟨e, _, hexec⟩ | ⟨c, s', t', heffect, hexec⟩
  · rw [hexec]
    exact ⟨s.state, s.lastCommitted, rfl⟩
  · rw [hexec]
    exact ⟨_, _, heffect.session⟩

/-- Every move keeps the pending changes of a session orderly. -/
theorem orderly_move [Recovery] {s : Session} (h : Orderly s.snapshot s.config.selector s.pending)
    (m : Move) :
    Orderly (s.move m).snapshot (s.move m).config.selector (s.move m).pending := by
  -- A step keeps this up, and so does each move that is made of steps
  have hstep : ∀ (s : Session) (d : Decision),
      Orderly s.snapshot s.config.selector s.pending → s.Settles d →
      Orderly (s.perform d).snapshot (s.perform d).config.selector (s.perform d).pending := by
    intro s d h hd
    rw [snapshot_perform, config_perform, pending_perform]
    exact orderly_perform h hd
  cases m with
  | register r => exact carryOut_keeps hstep h r
  | registerIn slot symbol suffix => exact carryOut_keeps hstep h _
  | discard => exact orderly_nil _ _
  | commit t =>
    obtain ⟨state, last, hmove⟩ := exists_move_commit_eq s t
    rw [hmove]
    exact h
  | refresh t =>
    rw [move, exec_refreshSteps]
    cases readSnapshot t s.path with
    | error e => exact h
    | ok snapshot => exact orderly_nil _ _

/-- The pending changes of a session that is reached are orderly. -/
theorem orderly_of_reached [Recovery] {s : Session} (h : s.Reached) :
    Orderly s.snapshot s.config.selector s.pending := by
  induction h with
  | start snapshot config => exact orderly_nil _ _
  | openFile h =>
    obtain ⟨snapshot, rfl⟩ := exists_start_of_openFile h
    exact orderly_nil _ _
  | move _ m ih => exact orderly_move ih m

/-! ## Nothing is registered twice -/

/-- Nothing is registered twice by the pending changes of a session, and nothing that its text has. -/
structure RegisteredOnce (s : Session) : Prop where
  imports_apart : s.pending.Pairwise fun a b => ∀ symbol module,
    a.origin = .importOf symbol module → b.origin ≠ .importOf symbol module
  imports_new : ∀ c ∈ s.pending, ∀ symbol module, c.origin = .importOf symbol module →
    s.snapshot.imports.isImported symbol module = false
  entries_apart : ∀ slot, (s.pending.flatMap fun c => c.origin.entriesIn slot).Pairwise fun a b =>
    sameUpToBlanks a b = false
  entries_new : ∀ d slot, locateDeclaration s.snapshot s.config.selector = .ok d →
    ∀ e ∈ s.pending.flatMap fun c => c.origin.entriesIn slot,
      ∀ written ∈ writtenEntries s.snapshot.chars d.metadata slot, sameUpToBlanks written e = false
  created_once : ∀ slot, s.pending.countP (fun c => c.origin.creates slot) ≤ 1
  /-- A slot that is created gets no entries on their own. -/
  created_apart : ∀ a ∈ s.pending, ∀ b ∈ s.pending, ∀ slot, a.origin.creates slot = true →
    b.origin.isEntryIn slot = false
  /-- A slot is created with all its entries. Only the first one that is created in empty metadata has
  nothing in front of it. -/
  creation_text : ∀ front c back slot es, s.pending = front ++ c :: back →
    c.origin = .slotCreation slot es →
    ∃ d lead, locateDeclaration s.snapshot s.config.selector = .ok d ∧
      c.text = lead ++ slotText slot es ∧
      (lead = "" ↔ d.metadata.namedChildren = [] ∧ ∀ b ∈ front, b.origin.isCreation = false)
  routes_apart : (s.pending.filterMap fun c => c.origin.route?).Pairwise fun a b =>
    sameUpToBlanks a b = false
  routes_new : ∀ array, routesOf? s.snapshot s.config.selector = some array →
    ∀ literal ∈ s.pending.filterMap fun c => c.origin.route?,
      ∀ n ∈ array.namedChildren, sameUpToBlanks (n.source s.snapshot.chars) literal = false

end Session

section

/-- Parts of different registrations differ as far as the registrations do. -/
private theorem Orderly.pairwise_filterMap {β : Type} {f : Registration → Option β} {R : β → β → Prop}
    (h : Orderly s sel pending)
    (hf : ∀ a b x y, f a = some x → f b = some y → a.same b = false → R x y) :
    (pending.registrations.filterMap f).Pairwise R := by
  rw [List.pairwise_filterMap]
  exact h.apart.imp fun {a b} hab x hx y hy => hf a b x y hx hy hab

/-- A registration is an entry of a slot only if it is for that slot. -/
private theorem entryIn?_eq_some_iff {slot e : String} {r : Registration} :
    r.entryIn? slot = some e ↔ r = .entry slot e := by
  cases r <;> simp [Registration.entryIn?]

/-- A registration is a route only if it is for one. -/
private theorem route?_eq_some_iff {literal : String} {r : Registration} :
    r.route? = some literal ↔ r = .route literal := by
  cases r <;> simp [Registration.route?]

/-- The text does not have what a pending change is for. -/
private theorem Orderly.holds_of_mem (h : Orderly s sel pending) {c : Change} (hc : c ∈ pending)
    {r : Registration} (hr : r ∈ c.origin.registrations) : s.holds sel r = false :=
  h.unheld r (List.mem_flatMap.2 ⟨c, hc, hr⟩)

/-- A slot that a change creates is not there, so no change adds an entry to its array literal. -/
theorem Orderly.isEntryIn_of_creates (h : Orderly s sel pending) {a b : Change}
    (ha : a ∈ pending) (hb : b ∈ pending) {slot : String} (hcreates : a.origin.creates slot = true) :
    b.origin.isEntryIn slot = false := by
  rw [Bool.eq_false_iff]
  intro hentry
  cases ho : a.origin with
  -- Where the slot is created it is absent, and where an entry is added it has an array
  | slotCreation slot' es =>
    cases ho' : b.origin with
    | slotEntry slot'' e =>
      rw [ho] at hcreates
      rw [ho'] at hentry
      obtain rfl : slot' = slot := beq_iff_eq.1 hcreates
      obtain rfl : slot'' = slot' := beq_iff_eq.1 hentry
      obtain ⟨_, hamade⟩ := h.made.mem ha
      obtain ⟨_, hbmade⟩ := h.made.mem hb
      obtain ⟨d, hd, habsent, _⟩ := hamade.of_slotCreation ho
      obtain ⟨d', array, hd', harray⟩ := hbmade.of_slotEntry ho'
      obtain rfl : d = d' := Except.ok.inj (hd.symm.trans hd')
      exact ne_of_slotArray? habsent harray rfl
    | _ =>
      rw [ho'] at hentry
      exact nomatch hentry
  | _ =>
    rw [ho] at hcreates
    exact nomatch hcreates

end

namespace Session

/-- In a session that is reached nothing is registered twice. -/
theorem registeredOnce_of_reached [Recovery] {s : Session} (h : s.Reached) : s.RegisteredOnce := by
  have horderly := orderly_of_reached h
  refine ⟨?_, ?_, fun slot => ?_, ?_, horderly.once, ?_, ?_, ?_, ?_⟩
  -- Imports
  · have hpairs := (List.pairwise_flatMap.1 horderly.apart).2
    refine hpairs.imp fun {a b} hab symbol module ha hb => ?_
    have hsame := hab (.binding symbol module) (by rw [ha]; exact List.mem_singleton.2 rfl)
      (.binding symbol module) (by rw [hb]; exact List.mem_singleton.2 rfl)
    simp [Registration.same] at hsame
  · intro c hc symbol module ho
    have hbinding : Registration.binding symbol module ∈ c.origin.registrations := by
      rw [ho]
      exact List.mem_singleton.2 rfl
    exact horderly.holds_of_mem hc hbinding
  -- Entries
  · rw [← filterMap_entryIn?]
    refine horderly.pairwise_filterMap fun a b x y hx hy hab => ?_
    rw [entryIn?_eq_some_iff] at hx hy
    simpa [hx, hy, Registration.same] using hab
  · intro d slot hd e he written hwritten
    rw [← filterMap_entryIn?] at he
    obtain ⟨r, hr, he⟩ := List.mem_filterMap.1 he
    rw [entryIn?_eq_some_iff] at he
    have hheld := horderly.unheld r hr
    simp only [he, Snapshot.holds, hd] at hheld
    exact eq_false_of_ne_true (List.any_eq_false.1 hheld written hwritten)
  -- Slots that are created
  · intro a ha b hb slot hcreates
    exact horderly.isEntryIn_of_creates ha hb hcreates
  · intro front c back slot es hparts ho
    have hmade := horderly.made
    rw [hparts, allMade_append, Nat.zero_add] at hmade
    obtain ⟨d, hd, _, rfl⟩ := hmade.2.1.of_slotCreation ho
    refine ⟨d, itemLead s.snapshot.chars d.metadata (ChangeSet.creations front), hd,
      (creation_inserts s.snapshot.chars d.metadata _ slot es).2.2, ?_⟩
    rw [itemLead_eq_empty_iff, List.countP_eq_zero]
    simp only [Bool.not_eq_true]
  -- Routes
  · rw [← filterMap_route?]
    refine horderly.pairwise_filterMap fun a b x y hx hy hab => ?_
    rw [route?_eq_some_iff] at hx hy
    simpa [hx, hy, Registration.same] using hab
  · intro array harray literal hliteral n hn
    rw [← filterMap_route?] at hliteral
    obtain ⟨r, hr, hliteral⟩ := List.mem_filterMap.1 hliteral
    rw [route?_eq_some_iff] at hliteral
    have hheld := horderly.unheld r hr
    simp only [hliteral, Snapshot.holds, harray] at hheld
    exact eq_false_of_ne_true (List.any_eq_false.1 hheld _ (List.mem_map_of_mem hn))

/-- Two of the requests ask for what is pending, one of them with other blanks. -/
theorem registeredOnce_of_reached_sample :
    let snapshot : Snapshot := .ofText "/m.ts" "@M(\x7bxs: [A]\x7d)class C\x7b\x7d"
    let config : SessionConfig := { importBase := ".", selector := .named "M" }
    let s := (start snapshot config).moveAll [.register (.entry "xs" "B" none),
      .registerIn "zs" "P()" (some "/p"), .register (.entry "xs" " B" none),
      .register (.entry "zs" "Q" none), .register (.imported ⟨"P", "./p", true⟩)]
    s.Reached ∧ s.RegisteredOnce ∧
      s.pending.map Change.text = [", B", "import \x7b P \x7d from './p';\n", ", zs: [P(), Q]"] := by
  intro snapshot config s
  have h : s.Reached := (Reached.start snapshot config).moveAll _
  exact ⟨h, registeredOnce_of_reached h, by decide +kernel⟩

end Session

end Enlist
