import Enlist.Proofs.Session.Recognition
import Mathlib.Data.List.Forall2
import Mathlib.Data.List.Nodup
import Mathlib.Data.List.Pairwise

/-!
# Pending changes that come to the same

Over one text the same things can be registered in different orders. What is registered then is the
same up to blanks, and each change has a counterpart: a change that is made of the text for the same
name, entries or route. Counterparts can differ in what depends on who came first: whether a name is
bound with braces, what stands in front of an entry, and the order of the entries of a slot that is
created.

## Key results

- `Orderly.registrations_perm`: what is registered is the same, each thing once
- `Orderly.exists_counterpart`: each change has a counterpart
- `Orderly.exists_counterparts`: the changes are counterparts one by one
-/

namespace Enlist

open Edit Imports Metadata Syntax
open Text (sameUpToBlanks)

/-- Two changes that are made of a snapshot for the same thing, each behind others that may differ. -/
inductive Counterpart (s : Snapshot) (sel : Selector) : Change → Change → Prop where
  | imported (symbol module : String) (isDefault isDefault' : Bool) (pending pending' : ChangeSet) :
      Counterpart s sel (s.imports.satisfy ⟨symbol, module, isDefault⟩ pending)
        (s.imports.satisfy ⟨symbol, module, isDefault'⟩ pending')
  | entry {d : Declaration} {slot : String} {array : Node} (hd : locateDeclaration s sel = .ok d)
      (harray : slotArray? s.chars d.metadata slot = some array) (i i' : Nat) {e e' : String}
      (hsame : sameUpToBlanks e e' = true) :
      Counterpart s sel (addition s.chars slot array i e) (addition s.chars slot array i' e')
  | creation {d : Declaration} {slot : String} (hd : locateDeclaration s sel = .ok d)
      (habsent : isAbsent s.chars d.metadata slot = true) (n n' : Nat) {es es' : List String}
      (hperm : (es.map Text.compacted).Perm (es'.map Text.compacted)) :
      Counterpart s sel (creation s.chars d.metadata n slot es) (creation s.chars d.metadata n' slot es')
  | route {array : Node} (harray : routesOf? s sel = some array) (i i' : Nat)
      {literal literal' : String} (hsame : sameUpToBlanks literal literal' = true) :
      Counterpart s sel (routeAddition s.chars array i literal)
        (routeAddition s.chars array i' literal')

variable {s : Snapshot} {sel : Selector} {p p' : ChangeSet} {c c' : Change} {r r' : Registration}

theorem Counterpart.symm (h : Counterpart s sel c c') : Counterpart s sel c' c := by
  have hcomm {a b : String} (hab : sameUpToBlanks a b = true) : sameUpToBlanks b a = true :=
    Text.sameUpToBlanks_iff.2 (Text.sameUpToBlanks_iff.1 hab).symm
  cases h with
  | imported symbol module isDefault isDefault' pending pending' =>
    exact .imported symbol module isDefault' isDefault pending' pending
  | entry hd harray i i' hsame => exact .entry hd harray i' i (hcomm hsame)
  | creation hd habsent n n' hperm => exact .creation hd habsent n' n hperm.symm
  | route harray i i' hsame => exact .route harray i' i (hcomm hsame)

/-- A counterpart is for all that a change is for. -/
theorem Counterpart.exists_same (h : Counterpart s sel c c') (hr : r ∈ c.origin.registrations) :
    ∃ r' ∈ c'.origin.registrations, r.same r' = true := by
  -- Each kind of change names what its counterpart names, up to blanks
  cases h with
  | imported symbol module isDefault isDefault' pending pending' =>
    rw [origin_satisfy] at hr ⊢
    exact ⟨r, hr, Registration.same_self r⟩
  | entry hd harray i i' hsame =>
    rw [origin_addition] at hr ⊢
    obtain rfl := List.mem_singleton.1 hr
    exact ⟨_, List.mem_singleton.2 rfl, by simpa [Registration.same] using hsame⟩
  | creation hd habsent n n' hperm =>
    rw [origin_creation] at hr ⊢
    obtain ⟨e, he, rfl⟩ := List.mem_map.1 hr
    obtain ⟨e', he', hsame⟩ := List.mem_map.1 (hperm.subset (List.mem_map_of_mem he))
    have hentry : sameUpToBlanks e e' = true := Text.sameUpToBlanks_iff.2 hsame.symm
    exact ⟨_, List.mem_map_of_mem he', by simpa [Registration.same] using hentry⟩
  | route harray i i' hsame =>
    rw [origin_routeAddition] at hr ⊢
    obtain rfl := List.mem_singleton.1 hr
    exact ⟨_, List.mem_singleton.2 rfl, by simpa [Registration.same] using hsame⟩

/-- What a change is that is made for a registration, alone or with others. -/
theorem Made.of_mem {n : Nat} (h : Made s sel n c) (hr : r ∈ c.origin.registrations) :
    match r with
    | .binding symbol module =>
      ∃ isDefault pending, c = s.imports.satisfy ⟨symbol, module, isDefault⟩ pending
    | .entry slot e =>
      ∃ d, locateDeclaration s sel = .ok d ∧
        ((∃ array i, slotArray? s.chars d.metadata slot = some array ∧
            c = addition s.chars slot array i e) ∨
          isAbsent s.chars d.metadata slot = true ∧
            ∃ es, c = Enlist.creation s.chars d.metadata n slot es)
    | .route literal =>
      ∃ array i, routesOf? s sel = some array ∧ c = routeAddition s.chars array i literal := by
  -- Each kind of change names registrations of one kind only
  cases h with
  | imported q pending =>
    rw [origin_satisfy] at hr
    obtain rfl := List.mem_singleton.1 hr
    exact ⟨q.isDefault, pending, rfl⟩
  | entry hd harray i e =>
    rw [origin_addition] at hr
    obtain rfl := List.mem_singleton.1 hr
    exact ⟨_, hd, .inl ⟨_, i, harray, rfl⟩⟩
  | creation hd habsent es =>
    rw [origin_creation] at hr
    obtain ⟨e, _, rfl⟩ := List.mem_map.1 hr
    exact ⟨_, hd, .inr ⟨habsent, es, rfl⟩⟩
  | route harray i literal =>
    rw [origin_routeAddition] at hr
    obtain rfl := List.mem_singleton.1 hr
    exact ⟨_, i, harray, rfl⟩

/-- Two changes that are made for the same thing are counterparts, or they create the same slot. -/
theorem Made.counterpart_or_creation {n n' : Nat} (h : Made s sel n c) (h' : Made s sel n' c')
    (hr : r ∈ c.origin.registrations) (hr' : r' ∈ c'.origin.registrations) (hsame : r.same r' = true) :
    Counterpart s sel c c' ∨
      ∃ d slot es es', locateDeclaration s sel = .ok d ∧ isAbsent s.chars d.metadata slot = true ∧
        c = Enlist.creation s.chars d.metadata n slot es ∧
          c' = Enlist.creation s.chars d.metadata n' slot es' := by
  have hmade := h.of_mem hr
  have hmade' := h'.of_mem hr'
  match r, r', hsame with
  | .binding symbol module, .binding symbol' module', hsame =>
    obtain ⟨rfl, rfl⟩ : symbol = symbol' ∧ module = module' := by
      simpa [Registration.same] using hsame
    obtain ⟨isDefault, pending, rfl⟩ := hmade
    obtain ⟨isDefault', pending', rfl⟩ := hmade'
    exact .inl (.imported symbol module isDefault isDefault' pending pending')
  | .entry slot e, .entry slot' e', hsame =>
    obtain ⟨rfl, hentry⟩ : slot = slot' ∧ sameUpToBlanks e e' = true := by
      simpa [Registration.same] using hsame
    obtain ⟨d, hd, hmade⟩ := hmade
    obtain ⟨d', hd', hmade'⟩ := hmade'
    obtain rfl : d = d' := Except.ok.inj (hd.symm.trans hd')
    -- The text has the slot or has not
    rcases hmade with ⟨array, i, harray, rfl⟩ | ⟨habsent, es, rfl⟩
    · rcases hmade' with ⟨array', i', harray', rfl⟩ | ⟨habsent', _⟩
      · obtain rfl : array = array' := Option.some.inj (harray.symm.trans harray')
        exact .inl (.entry hd harray i i' hentry)
      · exact absurd rfl (ne_of_slotArray? habsent' harray)
    · rcases hmade' with ⟨array', i', harray', rfl⟩ | ⟨_, es', rfl⟩
      · exact absurd rfl (ne_of_slotArray? habsent harray')
      · exact .inr ⟨d, slot, es, es', hd, habsent, rfl, rfl⟩
  | .route literal, .route literal', hsame =>
    obtain ⟨array, i, harray, rfl⟩ := hmade
    obtain ⟨array', i', harray', rfl⟩ := hmade'
    obtain rfl : array = array' := Option.some.inj (harray.symm.trans harray')
    exact .inl (.route harray i i' hsame)

/-! ## What is registered -/

/-- The entries of a slot lose their blanks as all registrations do. -/
theorem filterMap_entryIn?_compacted (rs : List Registration) (slot : String) :
    (rs.map Registration.compacted).filterMap (Registration.entryIn? slot) =
      (rs.filterMap (Registration.entryIn? slot)).map Text.compacted := by
  rw [List.filterMap_map, List.map_filterMap]
  congr 1
  funext r
  cases r with
  | entry slot' e =>
    by_cases hslot : slot' = slot <;>
      simp [Registration.compacted, Registration.entryIn?, hslot]
  | _ => rfl

namespace Orderly

/-- What is registered is the same, each thing once. -/
theorem registrations_perm (h : Orderly s sel p) (h' : Orderly s sel p')
    (hsame : ∀ q, p.registers q = p'.registers q) :
    (p.registrations.map Registration.compacted).Nodup ∧
      (p.registrations.map Registration.compacted).Perm
        (p'.registrations.map Registration.compacted) := by
  have hnodup {p : ChangeSet} (h : Orderly s sel p) :
      (p.registrations.map Registration.compacted).Nodup := by
    rw [List.Nodup, List.pairwise_map]
    refine h.apart.imp fun {a b} hab heq => ?_
    rw [Registration.same_iff.2 heq] at hab
    exact nomatch hab
  have hsubset {p p' : ChangeSet} (hsame : ∀ q, p.registers q = p'.registers q) :
      p.registrations.map Registration.compacted ⊆ p'.registrations.map Registration.compacted := by
    intro q hq
    obtain ⟨r, hr, rfl⟩ := List.mem_map.1 hq
    have hregisters : p'.registers r = true := by
      rw [← hsame, ChangeSet.registers, List.any_eq_true]
      exact ⟨r, hr, Registration.same_self r⟩
    obtain ⟨r', hr', hrr⟩ := List.any_eq_true.1 hregisters
    exact List.mem_map.2 ⟨r', hr', Registration.same_iff.1 hrr⟩
  -- Without repetitions, lists with the same members differ in their order only
  refine ⟨hnodup h, (List.perm_ext_iff_of_nodup (hnodup h) (hnodup h')).2 fun q => ⟨?_, ?_⟩⟩
  · exact fun hq => hsubset hsame hq
  · exact fun hq => hsubset (fun q => (hsame q).symm) hq

/-- Two changes for the same thing are one. -/
theorem eq_of_same (h : Orderly s sel p) (hc : c ∈ p) (hc' : c' ∈ p)
    (hr : r ∈ c.origin.registrations) (hr' : r' ∈ c'.origin.registrations) (hsame : r.same r' = true) :
    c = c' := by
  let Apart (a b : Change) : Prop :=
    ∀ x ∈ a.origin.registrations, ∀ y ∈ b.origin.registrations, x.same y = false
  have hpairs : p.Pairwise Apart := (List.pairwise_flatMap.1 h.apart).2
  have hsymm : Std.Symm Apart := ⟨fun a b hab x hx y hy => by
    rw [Registration.same_comm]
    exact hab y hy x hx⟩
  by_contra hne
  have hapart := hpairs.forall hc hc' hne r hr r' hr'
  rw [hsame] at hapart
  exact nomatch hapart

/-- Where a slot is created, all its entries are those of the change that creates it. -/
theorem entriesIn_of_creation (h : Orderly s sel p) (hc : c ∈ p) {slot : String} {es : List String}
    (ho : c.origin = .slotCreation slot es) : (p.flatMap fun c => c.origin.entriesIn slot) = es := by
  have hcreates : c.origin.creates slot = true := by simp [ho, Origin.creates]
  obtain ⟨front, back, rfl⟩ := List.append_of_mem hc
  -- No other change creates the slot, and none adds an entry to its array literal
  have honce := h.once slot
  rw [List.countP_append, List.countP_cons, if_pos hcreates] at honce
  have hothers : ∀ b ∈ front ++ back, b.origin.entriesIn slot = [] := by
    intro b hb
    have hnone : (front ++ back).countP (fun b => b.origin.creates slot) = 0 := by
      rw [List.countP_append]
      omega
    have hcreation := List.countP_eq_zero.1 hnone b hb
    have hentry := h.isEntryIn_of_creates hc (b := b) (by simp at hb ⊢; tauto) hcreates
    cases hb : b.origin with
    | slotEntry slot' e =>
      rw [hb] at hentry
      exact if_neg (by simpa [Origin.isEntryIn] using hentry)
    | slotCreation slot' es' =>
      rw [hb] at hcreation
      exact if_neg (by simpa [Origin.creates] using hcreation)
    | _ => rfl
  have hfront : (front.flatMap fun c => c.origin.entriesIn slot) = [] :=
    List.flatMap_eq_nil_iff.2 fun b hb => hothers b (List.mem_append_left back hb)
  have hback : (back.flatMap fun c => c.origin.entriesIn slot) = [] :=
    List.flatMap_eq_nil_iff.2 fun b hb => hothers b (List.mem_append_right front hb)
  rw [List.flatMap_append, List.flatMap_cons, hfront, hback, ho]
  simp [Origin.entriesIn]

/-- Each change has a counterpart. -/
theorem exists_counterpart (h : Orderly s sel p) (h' : Orderly s sel p')
    (hsame : ∀ q, p.registers q = p'.registers q) (hc : c ∈ p) (hr : r ∈ c.origin.registrations) :
    ∃ c' ∈ p', Counterpart s sel c c' := by
  have hregisters : p'.registers r = true := by
    rw [← hsame]
    exact List.any_eq_true.2 ⟨r, List.mem_flatMap.2 ⟨c, hc, hr⟩, Registration.same_self r⟩
  obtain ⟨r', hr', hrr⟩ := List.any_eq_true.1 hregisters
  -- The other list registers the same, so some change of it names what this one names
  obtain ⟨c', hc', hr'⟩ := List.mem_flatMap.1 hr'
  obtain ⟨n, hmade⟩ := h.made.mem hc
  obtain ⟨n', hmade'⟩ := h'.made.mem hc'
  rw [Registration.same_comm] at hrr
  refine ⟨c', hc', ?_⟩
  rcases hmade.counterpart_or_creation hmade' hr hr' hrr with
    hcounterpart | ⟨d, slot, es, es', hd, habsent, rfl, rfl⟩
  · exact hcounterpart
  · -- Both create the slot with all that is registered for it
    refine .creation hd habsent n n' ?_
    have hentries {p : ChangeSet} {n : Nat} {es : List String} (h : Orderly s sel p)
        (hc : creation s.chars d.metadata n slot es ∈ p) :
        (p.registrations.map Registration.compacted).filterMap (Registration.entryIn? slot) =
          es.map Text.compacted := by
      rw [filterMap_entryIn?_compacted, filterMap_entryIn?,
        h.entriesIn_of_creation hc (origin_creation n es)]
    rw [← hentries h hc, ← hentries h' hc']
    exact (h.registrations_perm h' hsame).2.filterMap _

/-- No change stands twice, when each is for something. -/
private theorem nodup (h : Orderly s sel p) (hp : ∀ c ∈ p, c.origin.registrations ≠ []) : p.Nodup := by
  refine (List.pairwise_flatMap.1 h.apart).2.imp_of_mem fun {a b} ha _ hab heq => ?_
  obtain ⟨r, hr⟩ := List.exists_mem_of_ne_nil _ (hp a ha)
  have hself := hab r hr r (heq ▸ hr)
  rw [Registration.same_self] at hself
  exact nomatch hself

/-- Changes that two counterparts of one change stand for are one. -/
private theorem eq_of_counterparts (h : Orderly s sel p) (hp : ∀ c ∈ p, c.origin.registrations ≠ [])
    {a b : Change} (ha : a ∈ p) (hb : b ∈ p) (hac : Counterpart s sel a c)
    (hcb : Counterpart s sel c b) : a = b := by
  obtain ⟨r, hr⟩ := List.exists_mem_of_ne_nil _ (hp a ha)
  obtain ⟨r', hr', hsame⟩ := hac.exists_same hr
  obtain ⟨r'', hr'', hsame'⟩ := hcb.exists_same hr'
  refine h.eq_of_same ha hb hr hr'' ?_
  rw [Registration.same_congr hsame, hsame']

/-- The changes are counterparts one by one, when each is for something. -/
theorem exists_counterparts (h : Orderly s sel p) (h' : Orderly s sel p')
    (hsame : ∀ q, p.registers q = p'.registers q)
    (hp : ∀ c ∈ p, c.origin.registrations ≠ []) (hp' : ∀ c ∈ p', c.origin.registrations ≠ []) :
    ∃ q, q.Perm p' ∧ List.Forall₂ (Counterpart s sel) p q := by
  -- Every change has its counterpart, and no two have the same, so these make up the other list
  have hchoose : ∀ c, ∃ c', c ∈ p → c' ∈ p' ∧ Counterpart s sel c c' := by
    intro c
    by_cases hc : c ∈ p
    · obtain ⟨r, hr⟩ := List.exists_mem_of_ne_nil _ (hp c hc)
      obtain ⟨c', hc', hcounterpart⟩ := h.exists_counterpart h' hsame hc hr
      exact ⟨c', fun _ => ⟨hc', hcounterpart⟩⟩
    · exact ⟨c, fun hc' => absurd hc' hc⟩
  choose f hf using hchoose
  refine ⟨p.map f, ?_, List.forall₂_map_right_iff.2 (List.forall₂_same.2 fun c hc => (hf c hc).2)⟩
  have hnodup : (p.map f).Nodup := (h.nodup hp).map_on fun a ha b hb hab =>
    h.eq_of_counterparts hp ha hb (hf a ha).2 (hab ▸ (hf b hb).2.symm)
  refine (List.perm_ext_iff_of_nodup hnodup (h'.nodup hp')).2 fun c' => ⟨fun hc' => ?_, fun hc' => ?_⟩
  · obtain ⟨c, hc, rfl⟩ := List.mem_map.1 hc'
    exact (hf c hc).1
  · obtain ⟨r', hr'⟩ := List.exists_mem_of_ne_nil _ (hp' c' hc')
    obtain ⟨c, hc, hcounterpart⟩ := h'.exists_counterpart h (fun q => (hsame q).symm) hc' hr'
    have heq := h'.eq_of_counterparts hp' hc' (hf c hc).1 hcounterpart (hf c hc).2
    exact List.mem_map.2 ⟨c, hc, heq.symm⟩

end Orderly

end Enlist
