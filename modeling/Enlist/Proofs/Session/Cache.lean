import Enlist.Proofs.Session.Reached
import Enlist.Proofs.Store.Path
import Enlist.Session.Cache
import Mathlib.Data.List.Nodup

/-!
# Commits of all sessions

The sessions of a cache that is reached are for different files, each known by its normal path. A commit
reads and writes the file of its session only, so the commits of the sessions of a cache do not meet:
each comes to what it would be on its own, over the store as it was before the first of them.

## Key results

- `ownCommit_congr`: a commit reads nothing but the file of its session
- `keyed_of_reached`: the sessions of a cache that is reached are for different files
- `outcome_commitEach`: commits one after the other, up to the first that is refused
- `commitAll_spec`: what a commit of all sessions comes to
-/

namespace Enlist

open Edit Store Syntax

namespace Session

variable {s : Session} {t t' : FileTree}

/-- What the commit of a session to a store gives: the session after it, and what was done. -/
def ownCommit (s : Session) (t : FileTree) : Except SessionError (Session × Committed) :=
  (s.commit t).map fun (s, _, c) => (s, c)

/-- What is prepared depends on the file of the session and on no other. -/
theorem prepare_congr (h : s.stored? t = s.stored? t') : s.prepare t = s.prepare t' := by
  have hread : t.readText s.path = t'.readText s.path := by rw [readText_eq, readText_eq, h]
  have hupdate : t.beginUpdate s.path = t'.beginUpdate s.path :=
    congrArg (fun stored : Option ByteArray =>
      Update.start (Path.normalize s.path) (stored.map Digest.ofBytes)) h
  simp only [prepare, hread, hupdate]

/-- A session commits by itself as far as it can be prepared. -/
theorem ownCommit_eq (s : Session) (t : FileTree) :
    s.ownCommit t = (s.prepare t).map fun p =>
      ({ s with state := .committed, lastCommitted := some p.outcome.after }, p.outcome) := by
  cases h : s.prepare t with
  | error e => simp only [ownCommit, commit, Work.outcome, exec_commitSteps, h, Except.map]
  | ok p => simp only [ownCommit, commit, Work.outcome, exec_commitSteps_of_prepare h, Except.map]

/-- A commit reads nothing but the file of its session. -/
theorem ownCommit_congr (h : s.stored? t = s.stored? t') : s.ownCommit t = s.ownCommit t' := by
  rw [ownCommit_eq, ownCommit_eq, prepare_congr h]

/-- What a session has committed is its own commit. -/
theorem ownCommit_of_exec {s' : Session} {c : Committed}
    (h : commitSteps.exec (s, t) = (.ok c, s', t')) : s.ownCommit t = .ok (s', c) := by
  simp only [ownCommit, commit, Work.outcome, h, Except.map]

/-- A commit is refused, or it has an effect. -/
theorem commit_cases (s : Session) (t : FileTree) :
    (∃ e, s.ownCommit t = .error e ∧ s.commit t = .error e) ∨
      ∃ s' t' c, s.ownCommit t = .ok (s', c) ∧ s.commit t = .ok (s', t', c) ∧
        CommitEffect s t c s' t' := by
  rcases exec_commitSteps_cases s t with ⟨e, _, hexec⟩ | ⟨c, s', t', heffect, hexec⟩
  · exact .inl ⟨e, by simp only [ownCommit, commit, Work.outcome, hexec, Except.map],
      by simp only [commit, Work.outcome, hexec, Except.map]⟩
  · exact .inr ⟨s', t', c, ownCommit_of_exec hexec,
      by simp only [commit, Work.outcome, hexec, Except.map], heffect⟩

/-- A session commits its own file. -/
theorem path_of_ownCommit {s' : Session} {c : Committed} (h : s.ownCommit t = .ok (s', c)) :
    c.path = s.path := by
  rcases s.commit_cases t with ⟨e, hown, _⟩ | ⟨_, _, d, hown, _, heffect⟩
  · exact nomatch h.symm.trans hown
  · obtain rfl := (Prod.mk.inj (Except.ok.inj (h.symm.trans hown))).2
    exact heffect.path

end Session

/-! ## Sessions for different files -/

/-- The sessions are for different files, each known by its normal path. -/
structure Keyed (sessions : List Session) : Prop where
  apart : (sessions.map Session.path).Nodup
  normal : ∀ path ∈ sessions.map Session.path, Path.normalize path = path

/-- Sessions may be in any order. -/
theorem Keyed.of_perm {sessions sessions' : List Session} (h : Keyed sessions)
    (hperm : sessions'.Perm sessions) : Keyed sessions' := by
  have hpaths := hperm.map Session.path
  exact ⟨hpaths.nodup_iff.2 h.apart, fun path hpath => h.normal path (hpaths.mem_iff.1 hpath)⟩

/-- Without the first session the others are still told apart. -/
theorem Keyed.tail {s : Session} {ss : List Session} (h : Keyed (s :: ss)) : Keyed ss :=
  ⟨(List.nodup_cons.1 h.apart).2, fun path hpath => h.normal path (List.mem_cons_of_mem _ hpath)⟩

namespace SessionCache

/-- The cache is new, or it is asked for a session, or something is done with one of its sessions. -/
inductive Reached [Recovery] : SessionCache → Prop where
  | empty (config : SessionConfig) : Reached (empty config)
  | session {c c' : SessionCache} {t : FileTree} {path : String} {s : Session} (h : Reached c)
      (hs : c.session t path = .ok (c', s)) : Reached c'
  | rootSession {c c' : SessionCache} {t : FileTree} {project : Option String} {s : Session}
      (h : Reached c) (hs : c.rootSession t project = .ok (c', s)) : Reached c'
  | move {c : SessionCache} {s : Session} (h : Reached c) (hs : s ∈ c.sessions) (m : Session.Move) :
      Reached (c.set (s.move m))
  | override {c : SessionCache} {s : Session} (h : Reached c) (hs : s ∈ c.sessions)
      (changes : ChangeSet) : Reached (c.set (s.override changes))

variable {c c' : SessionCache} {t : FileTree} {path : String} {s : Session}

/-- Putting a session back adds no path. -/
@[simp] theorem paths_set (c : SessionCache) (s : Session) : (c.set s).paths = c.paths := by
  simp only [paths, set, List.map_map]
  refine List.map_congr_left fun other _ => ?_
  by_cases hother : other.path = s.path <;> simp [hother]

/-- A path without a session is none of those in the cache. -/
theorem not_mem_paths_of_get? (h : c.get? path = none) : Path.normalize path ∉ c.paths := by
  rw [get?, List.find?_eq_none] at h
  intro hmem
  obtain ⟨s, hs, hpath⟩ := List.mem_map.1 hmem
  exact h s hs (beq_iff_eq.2 hpath)

/-- A session that is asked for first starts with what its file holds. -/
theorem exec_sessionSteps_of_get?_none [Recovery] (hget : c.get? path = none) :
    (sessionSteps t path).exec c =
      match t.readText (Path.normalize path) with
      | .ok text =>
        let s := Session.start (.ofText (Path.normalize path) text) c.config
        (.ok s, { c with sessions := c.sessions ++ [s] })
      | .error e => (.error (.ofRead e), c) := by
  rw [exec_sessionSteps, hget, Session.openFile, Session.readSnapshot, Path.normalize_normalize]
  cases t.readText (Path.normalize path) <;> rfl

/-- A file that is not open gets a new session, behind the others. -/
theorem session_of_readText [Recovery] {text : String} (hget : c.get? path = none)
    (hread : t.readText (Path.normalize path) = .ok text) :
    c.session t path =
      .ok ({ c with
              sessions := c.sessions ++ [.start (.ofText (Path.normalize path) text) c.config] },
        .start (.ofText (Path.normalize path) text) c.config) := by
  rw [session, Work.outcome, exec_sessionSteps_of_get?_none hget, hread]
  rfl

/-- A session that is asked for is one of those that are there, or a new one behind them. -/
theorem keyed_exec_sessionSteps [Recovery] (h : Keyed c.sessions) (t : FileTree) (path : String) :
    Keyed ((sessionSteps t path).exec c).2.sessions := by
  cases hget : c.get? path with
  | some found => rwa [exec_sessionSteps, hget]
  | none =>
    rw [exec_sessionSteps_of_get?_none hget]
    cases t.readText (Path.normalize path) with
    | error e => exact h
    | ok text =>
      -- The session is new under its path, so it goes behind the others
      have hnew := not_mem_paths_of_get? hget
      have hpaths : (c.sessions ++ [Session.start (.ofText (Path.normalize path) text) c.config]).map
          Session.path = c.paths ++ [Path.normalize path] := List.map_append
      refine ⟨?_, fun p hp => ?_⟩
      · rw [hpaths]
        exact List.nodup_append.2 ⟨h.apart, List.pairwise_singleton _ _, fun p hp q hq heq =>
          hnew (List.mem_singleton.1 hq ▸ heq ▸ hp)⟩
      · rw [hpaths] at hp
        rcases List.mem_append.1 hp with hp | hp
        · exact h.normal p hp
        · rw [List.mem_singleton.1 hp, Path.normalize_normalize]

/-- The session of the root module is opened once. -/
theorem keyed_exec_rootSessionSteps [Recovery] (h : Keyed c.sessions) (t : FileTree)
    (project : Option String) :
    Keyed ((rootSessionSteps t project).exec c).2.sessions := by
  rw [exec_rootSessionSteps]
  cases Workspace.rootModulePath t project with
  | error e => exact h
  | ok path => exact keyed_exec_sessionSteps h t path

/-- Putting a session back keeps the sessions apart. -/
theorem keyed_set (h : Keyed c.sessions) (s : Session) : Keyed (c.set s).sessions := by
  have hpaths : (c.set s).sessions.map Session.path = c.sessions.map Session.path := paths_set c s
  exact ⟨hpaths ▸ h.apart, hpaths ▸ h.normal⟩

/-- The sessions of a cache that is reached are for different files. -/
theorem keyed_of_reached [Recovery] (h : c.Reached) : Keyed c.sessions := by
  induction h with
  | empty config => exact ⟨List.nodup_nil, fun _ h => nomatch h⟩
  | @session _ _ t path _ _ hs ih =>
    have hkeyed := keyed_exec_sessionSteps ih t path
    rwa [Work.exec_of_outcome hs] at hkeyed
  | @rootSession _ _ t project _ _ hs ih =>
    have hkeyed := keyed_exec_rootSessionSteps ih t project
    rwa [Work.exec_of_outcome hs] at hkeyed
  | move _ _ m ih => exact keyed_set ih _
  | override _ _ changes ih => exact keyed_set ih _

/-! ## Commits one after the other -/

/-- Each session with pending changes is committed as it would be on its own over the store `t`: the
sessions afterwards, and what was done, in order. -/
inductive EachCommitted (t : FileTree) : List Session → List Session → List Committed → Prop where
  | nil : EachCommitted t [] [] []
  | idle {s : Session} {ss ss' : List Session} {cs : List Committed} (nothing : s.pending = [])
      (rest : EachCommitted t ss ss' cs) : EachCommitted t (s :: ss) (s :: ss') cs
  | commit {s s' : Session} {c : Committed} {ss ss' : List Session} {cs : List Committed}
      (something : s.pending ≠ []) (own : s.ownCommit t = .ok (s', c))
      (rest : EachCommitted t ss ss' cs) : EachCommitted t (s :: ss) (s' :: ss') (c :: cs)

/-- The store `t'` is `t` with the texts of commits in the place of their files. -/
structure Written (t : FileTree) (cs : List Committed) (t' : FileTree) : Prop where
  texts : ∀ c ∈ cs, t'.files[c.path]? = some c.text.toUTF8
  others : ∀ path, (∀ c ∈ cs, c.path ≠ path) → t'.files[path]? = t.files[path]?
  commits : t'.commits = t.commits + cs.length

/-- What commits of sessions to the store `t` come to: all of them are done, or those in front of the
first one that is refused. -/
inductive Outcome (t : FileTree) (ss : List Session) :
    List Session × FileTree × Except SessionError (List Committed) → Prop where
  | all {ss' : List Session} {t' : FileTree} {cs : List Committed} (each : EachCommitted t ss ss' cs)
      (written : Written t cs t') : Outcome t ss (ss', t', .ok cs)
  | stopped {front back front' : List Session} {s : Session} {t' : FileTree} {cs : List Committed}
      {e : SessionError} (parts : ss = front ++ s :: back) (each : EachCommitted t front front' cs)
      (written : Written t cs t') (something : s.pending ≠ []) (refused : s.ownCommit t = .error e) :
      Outcome t ss (front' ++ s :: back, t', .error e)

variable {t' : FileTree} {ss ss' : List Session} {cs : List Committed}

/-- The own commits are the same over a store that has the same files of the sessions. -/
theorem EachCommitted.congr (h : EachCommitted t ss ss' cs)
    (hsame : ∀ s ∈ ss, s.stored? t = s.stored? t') : EachCommitted t' ss ss' cs := by
  induction h with
  | nil => exact .nil
  | idle nothing _ ih => exact .idle nothing (ih fun s hs => hsame s (List.mem_cons_of_mem _ hs))
  | commit something own _ ih =>
    rw [Session.ownCommit_congr (hsame _ List.mem_cons_self)] at own
    exact .commit something own (ih fun s hs => hsame s (List.mem_cons_of_mem _ hs))

/-- What was done is what the sessions with pending changes do on their own. -/
theorem EachCommitted.mem_iff (h : EachCommitted t ss ss' cs) (c : Committed) :
    c ∈ cs ↔ ∃ s ∈ ss, s.pending ≠ [] ∧ ∃ s', s.ownCommit t = .ok (s', c) := by
  induction h with
  | nil => simp
  | idle nothing _ ih => simp [ih, nothing]
  | commit something own _ ih =>
    simp only [List.mem_cons, ih, exists_eq_or_imp, own]
    refine or_congr_left ⟨fun heq => ⟨something, _, by rw [heq]⟩, ?_⟩
    rintro ⟨_, s', hs'⟩
    exact (Prod.mk.inj (Except.ok.inj hs')).2.symm

/-- What was done was done to the files of the sessions. -/
theorem EachCommitted.path_mem (h : EachCommitted t ss ss' cs) {c : Committed} (hc : c ∈ cs) :
    c.path ∈ ss.map Session.path := by
  obtain ⟨s, hs, _, s', hown⟩ := (h.mem_iff c).1 hc
  exact Session.path_of_ownCommit hown ▸ List.mem_map_of_mem hs

/-- A commit in front of others to other files. -/
theorem Written.cons {s s' : Session} {t₁ : FileTree} {c : Committed}
    (heffect : s.CommitEffect t c s' t₁) (hnormal : Path.normalize s.path = s.path)
    (h : Written t₁ cs t') (hothers : ∀ d ∈ cs, d.path ≠ s.path) : Written t (c :: cs) t' := by
  have hfiles (path : String) : t₁.files[path]? =
      if path = s.path then some c.text.toUTF8 else t.files[path]? := by
    rw [heffect.files, hnormal]
  refine ⟨List.forall_mem_cons.2 ⟨?_, h.texts⟩, fun path hpath => ?_, ?_⟩
  · rw [heffect.path, h.others s.path hothers, hfiles, if_pos rfl]
  · obtain ⟨hc, hcs⟩ := List.forall_mem_cons.1 hpath
    rw [heffect.path] at hc
    rw [h.others path hcs, hfiles, if_neg (Ne.symm hc)]
  · rw [h.commits, heffect.commits, List.length_cons]
    omega

/-- A session without pending changes in front. -/
private theorem Outcome.idle {s : Session} (nothing : s.pending = [])
    {o : List Session × FileTree × Except SessionError (List Committed)} (h : Outcome t ss o) :
    Outcome t (s :: ss) (s :: o.1, o.2.1, o.2.2) := by
  cases h with
  | all each written => exact .all (.idle nothing each) written
  | stopped parts each written something refused =>
    rw [parts]
    exact .stopped (List.cons_append).symm (.idle nothing each) written something refused

/-- A session in front that is committed. -/
private theorem Outcome.commit {s s' : Session} {t₁ : FileTree} {c : Committed}
    (hkeyed : Keyed (s :: ss)) (something : s.pending ≠ []) (own : s.ownCommit t = .ok (s', c))
    (heffect : s.CommitEffect t c s' t₁)
    {o : List Session × FileTree × Except SessionError (List Committed)} (h : Outcome t₁ ss o) :
    Outcome t (s :: ss) (s' :: o.1, o.2.1, o.2.2.map (c :: ·)) := by
  have hnormal : Path.normalize s.path = s.path := hkeyed.normal s.path List.mem_cons_self
  have hnew : s.path ∉ ss.map Session.path := (List.nodup_cons.1 hkeyed.apart).1
  -- The files of the other sessions are those before this commit
  have hsame : ∀ other ∈ ss, other.stored? t₁ = other.stored? t := by
    intro other hother
    have hpath : other.path ∈ ss.map Session.path := List.mem_map_of_mem hother
    have hne : other.path ≠ s.path := fun heq => hnew (heq ▸ hpath)
    rw [Session.stored?, Session.stored?, heffect.files, hnormal,
      hkeyed.normal other.path (List.mem_cons_of_mem _ hpath), if_neg hne]
  have hothers {front front' : List Session} {cs : List Committed} (hfront : front ⊆ ss)
      (each : EachCommitted t₁ front front' cs) : ∀ d ∈ cs, d.path ≠ s.path := fun d hd heq =>
    hnew (List.map_subset Session.path hfront (heq ▸ each.path_mem hd))
  cases h with
  | all each written =>
    exact .all (.commit something own (each.congr hsame))
      (written.cons heffect hnormal (hothers (List.Subset.refl ss) each))
  | stopped parts each written something' refused =>
    rename_i front back front' other t' cs e
    have hfront : front ⊆ ss := parts ▸ List.subset_append_left front (other :: back)
    have hother : other ∈ ss := parts ▸ List.mem_append_right front List.mem_cons_self
    rw [parts]
    rw [Session.ownCommit_congr (hsame other hother)] at refused
    exact .stopped (List.cons_append).symm
      (.commit something own (each.congr fun s hs => hsame s (hfront hs)))
      (written.cons heffect hnormal (hothers hfront each)) something' refused

/-- Commits one after the other come to what each of them is on its own, up to the first that is
refused. -/
theorem outcome_commitEach (h : Keyed ss) (t : FileTree) : Outcome t ss (commitEach ss t) := by
  -- Induction on the sessions; what one of them writes the others do not read
  induction ss generalizing t with
  | nil => exact .all .nil ⟨fun _ h => (nomatch h), fun _ _ => rfl, rfl⟩
  | cons s ss ih =>
    cases hs : s.pending with
    | nil =>
      have hstep : commitEach (s :: ss) t =
          (s :: (commitEach ss t).1, (commitEach ss t).2.1, (commitEach ss t).2.2) := by
        rw [commitEach, hs]
        rfl
      rw [hstep]
      exact (ih h.tail t).idle hs
    | cons change changes =>
      have something : s.pending ≠ [] := hs ▸ List.cons_ne_nil change changes
      have hbusy : s.pending.isEmpty = false := by rw [hs]; rfl
      rcases s.commit_cases t with ⟨e, own, hcommit⟩ | ⟨s', t₁, c, own, hcommit, heffect⟩
      · have hstep : commitEach (s :: ss) t = ([] ++ s :: ss, t, .error e) := by
          simp only [commitEach, hbusy, hcommit]
          rfl
        rw [hstep]
        exact .stopped rfl .nil ⟨fun _ h => (nomatch h), fun _ _ => rfl, rfl⟩ something own
      · have hstep : commitEach (s :: ss) t =
            (s' :: (commitEach ss t₁).1, (commitEach ss t₁).2.1,
              (commitEach ss t₁).2.2.map (c :: ·)) := by
          simp only [commitEach, hbusy, hcommit]
          rfl
        rw [hstep]
        exact (ih h.tail t₁).commit h something own heffect

/-! ## Commits of all sessions -/

/-- Each session with pending changes commits by itself. -/
theorem EachCommitted.exists_own (h : EachCommitted t ss ss' cs) :
    ∀ s ∈ ss, s.pending ≠ [] → ∃ own, s.ownCommit t = .ok own := by
  induction h with
  | nil => exact fun _ h => nomatch h
  | idle nothing _ ih => exact List.forall_mem_cons.2 ⟨fun something => absurd nothing something, ih⟩
  | commit _ own _ ih => exact List.forall_mem_cons.2 ⟨fun _ => ⟨_, own⟩, ih⟩

/-- Sessions without pending changes stay as they are. -/
theorem EachCommitted.mem_of_idle (h : EachCommitted t ss ss' cs) :
    ∀ s ∈ ss, s.pending = [] → s ∈ ss' := by
  induction h with
  | nil => exact fun _ h => nomatch h
  | idle _ _ ih =>
    exact List.forall_mem_cons.2 ⟨fun _ => List.mem_cons_self, fun s hs nothing =>
      List.mem_cons_of_mem _ (ih s hs nothing)⟩
  | commit something _ _ ih =>
    exact List.forall_mem_cons.2 ⟨fun nothing => absurd nothing something, fun s hs nothing =>
      List.mem_cons_of_mem _ (ih s hs nothing)⟩

/-- All commits are done exactly when each of them would be on its own. -/
theorem Outcome.isSome_iff {o : List Session × FileTree × Except SessionError (List Committed)}
    (h : Outcome t ss o) : o.2.2.toOption.isSome = true ↔
      ∀ s ∈ ss, s.pending ≠ [] → ∃ own, s.ownCommit t = .ok own := by
  cases h with
  | all each _ => exact ⟨fun _ => each.exists_own, fun _ => rfl⟩
  | stopped parts _ _ something refused =>
    refine ⟨fun h => (nomatch h), fun h => ?_⟩
    obtain ⟨own, hown⟩ := h _ (parts ▸ List.mem_append_right _ List.mem_cons_self) something
    exact nomatch refused.symm.trans hown

/-- A file is as before when its session is not among those that are committed. -/
theorem stored?_of_written (hkeyed : Keyed ss) {front front' : List Session} (hfront : front ⊆ ss)
    (each : EachCommitted t front front' cs) (written : Written t cs t') {s : Session} (hs : s ∈ ss)
    (hidle : s ∈ front → s.pending = []) : s.stored? t' = s.stored? t := by
  have hpath : s.path ∈ ss.map Session.path := List.mem_map_of_mem hs
  rw [Session.stored?, Session.stored?, hkeyed.normal s.path hpath]
  refine written.others s.path fun d hd heq => ?_
  obtain ⟨other, hother, something, s', hown⟩ := (each.mem_iff d).1 hd
  have hsame : other = s := List.inj_on_of_nodup_map hkeyed.apart (hfront hother) hs
    ((Session.path_of_ownCommit hown).symm.trans heq)
  exact something (hsame ▸ hidle (hsame ▸ hother))

/-- The files do not depend on the order of the sessions. -/
theorem files_of_perm {ss₂ ss₂' : List Session} {cs₂ : List Committed} {t₂ : FileTree}
    (hperm : ss₂.Perm ss) (each : EachCommitted t ss ss' cs) (written : Written t cs t')
    (each₂ : EachCommitted t ss₂ ss₂' cs₂) (written₂ : Written t cs₂ t₂) (path : String) :
    t₂.files[path]? = t'.files[path]? := by
  have hmem (d : Committed) : d ∈ cs₂ ↔ d ∈ cs := by
    simp only [each.mem_iff, each₂.mem_iff, hperm.mem_iff]
  by_cases hpath : ∃ d ∈ cs, d.path = path
  · obtain ⟨d, hd, rfl⟩ := hpath
    rw [written.texts d hd, written₂.texts d ((hmem d).2 hd)]
  · have hnone : ∀ d ∈ cs, d.path ≠ path := fun d hd heq => hpath ⟨d, hd, heq⟩
    rw [written.others path hnone, written₂.others path fun d hd => hnone d ((hmem d).1 hd)]

section

variable {o : List Session × FileTree × Except SessionError (List Committed)}

/-- Where all commits succeed, each session has committed and nothing else is written. -/
theorem Outcome.of_ok (h : Outcome t ss o) (hcs : o.2.2 = .ok cs) :
    EachCommitted t ss o.1 cs ∧ Written t cs o.2.1 := by
  cases h with
  | all each written =>
    obtain rfl := Except.ok.inj hcs
    exact ⟨each, written⟩
  | stopped => exact nomatch hcs

/-- When all commits are done, they are done in any order, and to the same files. -/
theorem commitEach_of_perm (hkeyed : Keyed ss) {ss₂ : List Session} (hperm : ss₂.Perm ss)
    (each : EachCommitted t ss ss' cs) (written : Written t cs t') :
    (commitEach ss₂ t).2.2.toOption.isSome = true ∧
      ∀ path : String, (commitEach ss₂ t).2.1.files[path]? = t'.files[path]? := by
  have houtcome := outcome_commitEach (hkeyed.of_perm hperm) t
  have hisSome : (commitEach ss₂ t).2.2.toOption.isSome = true :=
    houtcome.isSome_iff.2 fun s hs => each.exists_own s (hperm.mem_iff.1 hs)
  refine ⟨hisSome, ?_⟩
  cases hcs : (commitEach ss₂ t).2.2 with
  | error e =>
    rw [hcs] at hisSome
    exact nomatch hisSome
  -- Both orders write each file once, so they leave the same
  | ok cs₂ =>
    obtain ⟨each₂, written₂⟩ := houtcome.of_ok hcs
    exact files_of_perm hperm each written each₂ written₂

/-- When a commit is refused, the sessions in front of it are committed, and the others are as before
with their files. -/
theorem Outcome.of_error (h : Outcome t ss o) (hkeyed : Keyed ss) {e : SessionError}
    (he : o.2.2 = .error e) :
    ∃ front s back front' cs, ss = front ++ s :: back ∧ s.pending ≠ [] ∧ s.ownCommit t = .error e ∧
      o.1 = front' ++ s :: back ∧ EachCommitted t front front' cs ∧ Written t cs o.2.1 ∧
      ∀ other ∈ s :: back, other.stored? o.2.1 = other.stored? t := by
  cases h with
  | all => exact nomatch he
  | stopped parts each written something refused =>
    rename_i front back front' s t' cs e'
    obtain rfl := Except.error.inj he
    refine ⟨front, s, back, front', cs, parts, something, refused, rfl, each, written, ?_⟩
    intro other hother
    have hfront : front ⊆ ss := parts ▸ List.subset_append_left front (s :: back)
    have hmem : other ∈ ss := parts ▸ List.mem_append_right front hother
    refine stored?_of_written hkeyed hfront each written hmem fun hmem => ?_
    -- A session in front is for another file
    have hapart := hkeyed.apart
    rw [parts, List.map_append] at hapart
    exact absurd rfl ((List.nodup_append.1 hapart).2.2 _ (List.mem_map_of_mem hmem) _
      (List.mem_map_of_mem hother))

/-- Sessions without pending changes neither write nor fail. -/
theorem Outcome.of_idle (h : Outcome t ss o) (hkeyed : Keyed ss) {s : Session} (hs : s ∈ ss)
    (nothing : s.pending = []) : s ∈ o.1 ∧ s.stored? o.2.1 = s.stored? t := by
  cases h with
  | all each written =>
    exact ⟨each.mem_of_idle s hs nothing,
      stored?_of_written hkeyed (List.Subset.refl ss) each written hs fun _ => nothing⟩
  -- The run stopped at a session; those in front of it are done, those behind are as they were
  | stopped parts each written =>
    rename_i front back front' other t' cs e _ _
    have hfront : front ⊆ ss := parts ▸ List.subset_append_left front (other :: back)
    refine ⟨?_, stored?_of_written hkeyed hfront each written hs fun _ => nothing⟩
    rcases List.mem_append.1 (parts ▸ hs) with hs | hs
    · exact List.mem_append_left _ (each.mem_of_idle s hs nothing)
    · exact List.mem_append_right _ hs

end

/-- A commit of all sessions of a cache that is reached is done exactly when each session with pending
changes would commit on its own. Then each of them is committed as on its own, all other files are as
before, and the files do not depend on the order. Otherwise the error is that of the first session that
is refused, the sessions in front of it are committed as on their own, and it and those behind it stay as
they are, with their files. Sessions without pending changes stay as they are, with their files, in any
case. -/
theorem commitAll_spec [Recovery] (h : c.Reached) (t : FileTree) :
    ((c.commitAll t).2.2.toOption.isSome = true ↔
      ∀ s ∈ c.sessions, s.pending ≠ [] → ∃ own, s.ownCommit t = .ok own) ∧
    (∀ cs, (c.commitAll t).2.2 = .ok cs →
      EachCommitted t c.sessions (c.commitAll t).1.sessions cs ∧ Written t cs (c.commitAll t).2.1 ∧
      ∀ ss : List Session, ss.Perm c.sessions → (commitEach ss t).2.2.toOption.isSome = true ∧
        ∀ path : String, (commitEach ss t).2.1.files[path]? = (c.commitAll t).2.1.files[path]?) ∧
    (∀ e, (c.commitAll t).2.2 = .error e →
      ∃ front s back front' cs, c.sessions = front ++ s :: back ∧ s.pending ≠ [] ∧
        s.ownCommit t = .error e ∧ (c.commitAll t).1.sessions = front' ++ s :: back ∧
        EachCommitted t front front' cs ∧ Written t cs (c.commitAll t).2.1 ∧
        ∀ other ∈ s :: back, other.stored? (c.commitAll t).2.1 = other.stored? t) ∧
    ∀ s ∈ c.sessions, s.pending = [] →
      s ∈ (c.commitAll t).1.sessions ∧ s.stored? (c.commitAll t).2.1 = s.stored? t := by
  have hkeyed := keyed_of_reached h
  have houtcome : Outcome t c.sessions
      ((c.commitAll t).1.sessions, (c.commitAll t).2.1, (c.commitAll t).2.2) :=
    outcome_commitEach hkeyed t
  refine ⟨houtcome.isSome_iff, fun cs hcs => ?_, fun e he => houtcome.of_error hkeyed he,
    fun s hs nothing => houtcome.of_idle hkeyed hs nothing⟩
  obtain ⟨each, written⟩ := houtcome.of_ok hcs
  exact ⟨each, written, fun ss hperm => commitEach_of_perm hkeyed hperm each written⟩

/-- One of two files is to be written, and the path of it is given in another form. -/
theorem commitAll_spec_sample :
    let config : SessionConfig := { importBase := ".", selector := .named "M" }
    let a := "@M(\x7bxs: [A]\x7d)class C\x7b\x7d"
    let b := "class D\x7b\x7d"
    let t : FileTree :=
      { files := ((∅ : Std.TreeMap String ByteArray).insert "/a.ts" a.toUTF8).insert "/b.ts" b.toUTF8
        commits := 0 }
    let written := (Session.start (.ofText "/a.ts" a) config).move (.register (.entry "xs" "B" none))
    let c : SessionCache := { config, sessions := [written, .start (.ofText "/b.ts" b) config] }
    c.Reached ∧ ∃ d, (c.commitAll t).2.2 = .ok [d] ∧
      d.text = "@M(\x7bxs: [A, B]\x7d)class C\x7b\x7d" ∧
      (c.commitAll t).2.1.files["/b.ts"]? = t.files["/b.ts"]? := by
  intro config a b t written c
  have hpath : Path.normalize "x/..\\a.ts" = "/a.ts" := by decide +kernel
  have hreadA : t.readText "/a.ts" = .ok a := by decide +kernel
  have hreadB : t.readText (Path.normalize "/b.ts") = .ok b := by decide +kernel
  have hsnapshot : written.snapshot = .ofText "/a.ts" a := Session.snapshot_carryOut _ _
  have hread : t.readText written.path = .ok written.snapshot.text := by
    rw [Session.path, hsnapshot]
    exact hreadA
  -- One file is opened under another name, the other one is opened, and an entry is asked for
  have hreached : c.Reached := by
    have hopenA := session_of_readText (c := .empty config) rfl (hpath.symm ▸ hreadA)
    rw [hpath] at hopenA
    have hopenB := session_of_readText
      (c := { config, sessions := [.start (.ofText "/a.ts" a) config] })
      (List.find?_eq_none.2 fun s hs => by rw [List.mem_singleton.1 hs]; decide +kernel) hreadB
    have hsame : (Session.start (.ofText "/a.ts" a) config).path = written.path :=
      congrArg Snapshot.path hsnapshot.symm
    have hother : (Session.start (.ofText (Path.normalize "/b.ts") b) config).path ≠ written.path := by
      decide +kernel
    have hmoved := (((Reached.empty config).session hopenA).session hopenB).move
      (s := .start (.ofText "/a.ts" a) config) (by simp) (.register (.entry "xs" "B" none))
    have hset : SessionCache.set
        { config
          sessions := [.start (.ofText "/a.ts" a) config] ++
            [.start (.ofText (Path.normalize "/b.ts") b) config] } written = c := by
      have hnameB : Path.normalize "/b.ts" = "/b.ts" := by decide +kernel
      simp only [set, List.map_append, List.map_singleton, if_pos hsame, if_neg hother]
      rw [hnameB]
      rfl
    exact hset ▸ hmoved
  have hout : Edit.apply written.snapshot.text written.pending =
      .ok "@M(\x7bxs: [A, B]\x7d)class C\x7b\x7d" := by decide +kernel
  -- The session with an entry commits by itself, and the one without is idle
  obtain ⟨d, s', t', hexec, heffect⟩ := Session.exists_commit_of_known hout hread (.inl rfl)
  have hown := Session.ownCommit_of_exec hexec
  obtain ⟨hok, hdone, _, hidle⟩ := commitAll_spec hreached t
  have hsome : (c.commitAll t).2.2.toOption.isSome = true := hok.2 <| List.forall_mem_cons.2
    ⟨fun _ => ⟨_, hown⟩, List.forall_mem_cons.2 ⟨fun h => absurd rfl h, fun _ h => nomatch h⟩⟩
  have hb := (hidle (.start (.ofText "/b.ts" b) config) (by simp [c]) rfl).2
  have hnameB : Path.normalize (Session.start (.ofText "/b.ts" b) config).path = "/b.ts" := by
    decide +kernel
  rw [Session.stored?, Session.stored?, hnameB] at hb
  refine ⟨hreached, ?_⟩
  cases hcs : (c.commitAll t).2.2 with
  | error e =>
    rw [hcs] at hsome
    exact nomatch hsome
  | ok cs =>
    obtain ⟨each, _, _⟩ := hdone cs hcs
    -- Of the two sessions the first commits and the second does not
    generalize (c.commitAll t).1.sessions = after at each
    cases each with
    | idle nothing => exact absurd nothing (by decide +kernel)
    | commit something own rest =>
      obtain ⟨_, rfl⟩ := Prod.mk.inj (Except.ok.inj (hown.symm.trans own))
      cases rest with
      | commit something => exact absurd rfl something
      | idle nothing rest =>
        cases rest
        exact ⟨d, rfl, Except.ok.inj (heffect.text.symm.trans hout), hb⟩

end SessionCache

end Enlist
