import Enlist.Proofs.Session.Cache
import Enlist.Proofs.Session.Lifecycle
import Enlist.Proofs.Store.StoredPaths

/-!
# One session for each file

A cache is asked for the sessions of files under any spellings of their paths, over stores that change in
between, and what is done with a session is done in its place. `SessionMap` is a cache that keeps its
sessions under keys, each under the normal form of the path that it was asked for by, and looks at these
keys only. The two do not differ: a session that is opened normalises its path once more, and that changes
nothing.

## Key results

- `toMap_call`: a cache and the map of its sessions take the same step
- `get?_eq_some_iff`: a session is found by the paths whose normal form is its own path
- `oneForEachFile_callAll`: what holds of every cache, and of what it is asked for next
-/

namespace Enlist

open Store Syntax

namespace Session

/-- A session stays with its file. -/
theorem path_use [Recovery] (s : Session) (u : Use) : (s.use u).path = s.path := by
  -- Only a refresh reads a snapshot again, and it does so under the same path
  cases u with
  | register r => exact path_carryOut s r
  | registerIn slot symbol suffix => exact path_carryOut s _
  | override | discard => rfl
  | commit t =>
    rw [use]
    rcases exec_commitSteps_cases s t with ⟨e, _, hexec⟩ | ⟨c, s', t', heffect, hexec⟩
    · rw [hexec]
    · rw [hexec, heffect.session]
      rfl
  | refresh t =>
    rw [use, exec_refreshSteps, readSnapshot]
    cases t.readText s.path <;> rfl

end Session

namespace SessionCache

/-! ## Calls -/

/-- What is asked of a cache, or of one of its sessions. -/
inductive Call where
  | session (t : FileTree) (path : String)
  | rootSession (t : FileTree) (project : Option String)
  /-- Something is done with the session of a file if there is one. -/
  | use (path : String) (u : Session.Use)
  | commitAll (t : FileTree)
  | clear

/-- The cache after a call, which may fail. -/
def call [Recovery] (c : SessionCache) : Call → SessionCache
  | .session t path => ((sessionSteps t path).exec c).2
  | .rootSession t project => ((rootSessionSteps t project).exec c).2
  | .use path u =>
    match c.get? path with
    | some s => c.set (s.use u)
    | none => c
  | .commitAll t => (c.commitAll t).1
  | .clear => c.clear

def callAll [Recovery] (c : SessionCache) (calls : List Call) : SessionCache :=
  calls.foldl call c

end SessionCache

/-- A cache that keeps each session under a key, whatever the path of the session is. -/
structure SessionMap where
  config : SessionConfig
  /-- In the order in which the sessions were opened. -/
  entries : List (String × Session)

namespace SessionMap

def empty (config : SessionConfig) : SessionMap :=
  { config, entries := [] }

/-- The map after the session of a file was asked for. -/
def session [Recovery] (m : SessionMap) (t : FileTree) (path : String) : SessionMap :=
  let key := Path.normalize path
  match m.entries.lookup key with
  | some _ => m
  | none =>
    match Session.openFile t key m.config with
    | .ok s => { m with entries := m.entries ++ [(key, s)] }
    | .error _ => m

/-- The map after a call of a cache. -/
def call [Recovery] (m : SessionMap) : SessionCache.Call → SessionMap
  | .session t path => m.session t path
  | .rootSession t project =>
    match Workspace.rootModulePath t project with
    | .ok path => m.session t path
    | .error _ => m
  | .use path u =>
    let key := Path.normalize path
    match m.entries.lookup key with
    | some s => { m with entries := m.entries.map fun e => if e.1 = key then (key, s.use u) else e }
    | none => m
  | .commitAll t =>
    { m with entries := (m.entries.map Prod.fst).zip (SessionCache.commitEach (m.entries.map Prod.snd) t).1 }
  | .clear => { m with entries := [] }

def callAll [Recovery] (m : SessionMap) (calls : List SessionCache.Call) : SessionMap :=
  calls.foldl call m

end SessionMap

namespace SessionCache

variable {c : SessionCache} {s : Session} {path : String}

/-- The sessions of a cache under their paths. -/
def toMap (c : SessionCache) : SessionMap :=
  { config := c.config, entries := c.sessions.map fun s => (s.path, s) }

/-- The map has at a normal path the session that the cache finds. -/
theorem lookup_entries_toMap (c : SessionCache) (path : String) :
    c.toMap.entries.lookup (Path.normalize path) = c.get? path := by
  rw [toMap, get?]
  induction c.sessions with
  | nil => rfl
  | cons s ss ih =>
    rw [List.map_cons, List.lookup_cons, List.find?_cons, ih, Bool.beq_comm]

/-- Commits keep the sessions in their places. -/
theorem paths_commitEach (ss : List Session) (t : FileTree) :
    (commitEach ss t).1.map Session.path = ss.map Session.path := by
  induction ss generalizing t with
  | nil => rfl
  | cons s ss ih =>
    rw [commitEach]
    -- A session is passed by, refused or committed, and each leaves its path
    split
    case isTrue => simp only [List.map_cons, ih]
    case isFalse =>
      rcases s.commit_cases t with ⟨e, _, hcommit⟩ | ⟨s', t', d, _, hcommit, heffect⟩
      · simp only [hcommit]
      · simp only [hcommit, List.map_cons, ih, heffect.session]
        rfl

/-- The key that a session is opened by is normalised once more, and is the path of the session. -/
theorem toMap_session [Recovery] (c : SessionCache) (t : FileTree) (path : String) :
    c.toMap.session t path = toMap ((sessionSteps t path).exec c).2 := by
  rw [SessionMap.session, lookup_entries_toMap]
  -- A session that is there is found in the map; another one is opened in both
  cases hget : c.get? path with
  | some s => rw [exec_sessionSteps, hget]
  | none =>
    rw [exec_sessionSteps_of_get?_none hget, toMap, Session.openFile, Session.readSnapshot,
      Path.normalize_normalize]
    cases t.readText (Path.normalize path) with
    | error e => rfl
    | ok text =>
      simp only [Except.map, toMap, List.map_append, List.map_singleton]
      rfl

/-- A session is put back under its key. -/
theorem toMap_set (c : SessionCache) (s : Session) :
    (c.set s).toMap = { c.toMap with
      entries := c.toMap.entries.map fun e => if e.1 = s.path then (s.path, s) else e } := by
  simp only [toMap, set, List.map_map]
  congr 1
  refine List.map_congr_left fun other _ => ?_
  by_cases hother : other.path = s.path <;> simp [hother]

/-- Committing all sessions commits all entries of the map. -/
theorem toMap_commitAll (c : SessionCache) (t : FileTree) :
    (c.commitAll t).1.toMap = { c.toMap with
      entries := (c.toMap.entries.map Prod.fst).zip (commitEach (c.toMap.entries.map Prod.snd) t).1 } := by
  have hkeys : c.toMap.entries.map Prod.fst = (commitEach c.sessions t).1.map Session.path := by
    rw [paths_commitEach, toMap, List.map_map]
    rfl
  have hsessions : c.toMap.entries.map Prod.snd = c.sessions := by
    rw [toMap, List.map_map]
    exact List.map_id _
  have hzip (ss : List Session) : (ss.map Session.path).zip ss = ss.map fun s => (s.path, s) := by
    simpa using @List.zip_map' _ _ _ Session.path id ss
  rw [hkeys, hsessions, hzip]
  rfl

/-- The session that is found for a path has its normal form. -/
theorem path_of_get? (h : c.get? path = some s) : s.path = Path.normalize path := by
  have hkey := List.find?_some h
  exact beq_iff_eq.1 hkey

/-- A cache and the map of its sessions take the same step. -/
theorem toMap_call [Recovery] (c : SessionCache) (call : Call) :
    (c.call call).toMap = c.toMap.call call := by
  -- Call by call, the cache does to its map what the map does
  cases call with
  | session t path => exact (toMap_session c t path).symm
  | rootSession t project =>
    rw [SessionMap.call, SessionCache.call, exec_rootSessionSteps]
    cases Workspace.rootModulePath t project with
    | error e => rfl
    | ok path => exact (toMap_session c t path).symm
  | use path u =>
    rw [SessionMap.call, SessionCache.call]
    simp only [lookup_entries_toMap]
    cases hget : c.get? path with
    | none => rfl
    | some s => rw [toMap_set, Session.path_use, path_of_get? hget]
  | commitAll t => exact toMap_commitAll c t
  | clear => rfl

/-- Calls to a cache are calls to its map. -/
theorem toMap_callAll [Recovery] (c : SessionCache) (calls : List Call) :
    (c.callAll calls).toMap = c.toMap.callAll calls := by
  induction calls generalizing c with
  | nil => rfl
  | cons call calls ih =>
    have hcalls := ih (c.call call)
    rwa [toMap_call] at hcalls

/-! ## What holds of every cache -/

theorem config_call [Recovery] (c : SessionCache) (call : Call) : (c.call call).config = c.config := by
  -- Reading a session does not touch the configuration
  have hsession (t : FileTree) (path : String) : ((sessionSteps t path).exec c).2.config = c.config := by
    cases hget : c.get? path with
    | some s => rw [exec_sessionSteps, hget]
    | none =>
      rw [exec_sessionSteps_of_get?_none hget]
      cases t.readText (Path.normalize path) <;> rfl
  cases call with
  | session t path => exact hsession t path
  | rootSession t project =>
    rw [SessionCache.call, exec_rootSessionSteps]
    cases Workspace.rootModulePath t project with
    | error e => rfl
    | ok path => exact hsession t path
  | use path u =>
    rw [SessionCache.call]
    cases c.get? path <;> rfl
  | commitAll t | clear => rfl

/-- A call keeps the sessions apart. -/
theorem keyed_call [Recovery] (h : Keyed c.sessions) (call : Call) : Keyed (c.call call).sessions := by
  cases call with
  | session t path => exact keyed_exec_sessionSteps h t path
  | rootSession t project => exact keyed_exec_rootSessionSteps h t project
  | use path u =>
    rw [SessionCache.call]
    cases c.get? path with
    | none => exact h
    | some s => exact keyed_set h _
  -- A commit of all leaves the paths, on which alone the keys depend
  | commitAll t =>
    have hpaths : (c.commitAll t).1.sessions.map Session.path = c.sessions.map Session.path :=
      paths_commitEach c.sessions t
    exact ⟨hpaths ▸ h.apart, hpaths ▸ h.normal⟩
  | clear => exact ⟨List.nodup_nil, fun _ h => nomatch h⟩

/-- The configuration stays, and the sessions are for different files. -/
theorem keeps_callAll [Recovery] (h : Keyed c.sessions) (calls : List Call) :
    (c.callAll calls).config = c.config ∧ Keyed (c.callAll calls).sessions := by
  induction calls generalizing c with
  | nil => exact ⟨rfl, h⟩
  | cons call calls ih =>
    obtain ⟨hconfig, hkeyed⟩ := ih (keyed_call h call)
    exact ⟨hconfig.trans (config_call c call), hkeyed⟩

/-- A session is found by the paths whose normal form is its own path. -/
theorem get?_eq_some_iff (h : Keyed c.sessions) :
    c.get? path = some s ↔ s ∈ c.sessions ∧ s.path = Path.normalize path := by
  refine ⟨fun hget => ⟨List.mem_of_find?_eq_some hget, path_of_get? hget⟩, fun ⟨hs, hpath⟩ => ?_⟩
  cases hget : c.get? path with
  | none => exact absurd (hpath ▸ List.mem_map_of_mem hs) (not_mem_paths_of_get? hget)
  | some other =>
    have hother : other ∈ c.sessions := List.mem_of_find?_eq_some hget
    rw [List.inj_on_of_nodup_map h.apart hother hs ((path_of_get? hget).trans hpath.symm)]

/-- No session is found exactly for a path that none has. -/
theorem get?_eq_none_iff : c.get? path = none ↔ Path.normalize path ∉ c.paths := by
  refine ⟨not_mem_paths_of_get?, fun h => ?_⟩
  cases hget : c.get? path with
  | none => rfl
  | some s =>
    exact absurd (path_of_get? hget ▸ List.mem_map_of_mem (List.mem_of_find?_eq_some hget)) h

/-- Paths with one normal form find one session. -/
theorem get?_congr {p q : String} (h : Path.normalize p = Path.normalize q) : c.get? p = c.get? q := by
  rw [get?, get?, h]

/-- Paths with one normal form are opened alike. -/
theorem exec_sessionSteps_congr [Recovery] {p q : String} (h : Path.normalize p = Path.normalize q)
    (t : FileTree) :
    (sessionSteps t p).exec c = (sessionSteps t q).exec c := by
  rw [exec_sessionSteps, exec_sessionSteps, get?_congr h, h]

/-- One session for each file that was opened, whichever spelling of its path it was asked for by. -/
structure OneForEachFile [Recovery] (config : SessionConfig) (c : SessionCache) : Prop where
  apart : c.paths.Nodup
  normal : ∀ path ∈ c.paths, Path.IsNormal path
  /-- Spellings of one path are not told apart. -/
  spelled : ∀ p q, Path.normalize p = Path.normalize q →
    c.get? p = c.get? q ∧ ∀ t, (sessionSteps t p).exec c = (sessionSteps t q).exec c
  /-- A session that is there is given as it is, whatever is stored by now. -/
  there : ∀ s ∈ c.sessions, ∀ path, Path.normalize path = s.path →
    c.get? path = some s ∧ ∀ t, (sessionSteps t path).exec c = (.ok s, c)
  /-- Any other one is new and stands behind the others; if its file cannot be read, nothing is changed. -/
  first : ∀ path, Path.normalize path ∉ c.paths → c.get? path = none ∧ ∀ t,
    (sessionSteps t path).exec c =
      match t.readText (Path.normalize path) with
      | .ok text =>
        let s := Session.start (.ofText (Path.normalize path) text) config
        (.ok s, { c with sessions := c.sessions ++ [s] })
      | .error e => (.error (.ofRead e), c)
  /-- The root module of a project is a file like any other one. -/
  root : ∀ t project, (rootSessionSteps t project).exec c =
    match Workspace.rootModulePath t project with
    | .ok path => (sessionSteps t path).exec c
    | .error e => (.error (.config e), c)

/-- A cache whose sessions are apart has one for each file. -/
theorem oneForEachFile_of_keyed [Recovery] (h : Keyed c.sessions) : OneForEachFile c.config c where
  apart := h.apart
  normal := h.normal
  spelled p q hpaths := ⟨get?_congr hpaths, exec_sessionSteps_congr hpaths⟩
  there s hs path hpath := by
    have hget : c.get? path = some s := (get?_eq_some_iff h).2 ⟨hs, hpath.symm⟩
    exact ⟨hget, fun t => by rw [exec_sessionSteps, hget]⟩
  first path hpath := by
    have hget : c.get? path = none := get?_eq_none_iff.2 hpath
    exact ⟨hget, fun t => exec_sessionSteps_of_get?_none hget⟩
  root t project := exec_rootSessionSteps c t project

/-- Whatever was asked of a cache and done with its sessions, over any stores: it keeps its sessions under
the keys that a map would, each session under its own path, and these are different normal paths. Its next
answer is the session that is there, or a new one that is added behind the others, or an error that leaves
the cache as it is. -/
theorem oneForEachFile_callAll [Recovery] (config : SessionConfig) (calls : List Call) :
    let c := (empty config).callAll calls
    (SessionMap.empty config).callAll calls = c.toMap ∧ OneForEachFile config c := by
  intro c
  obtain ⟨hconfig, hkeyed⟩ :=
    keeps_callAll (c := empty config) ⟨List.nodup_nil, fun _ h => nomatch h⟩ calls
  have hone := oneForEachFile_of_keyed hkeyed
  rw [hconfig] at hone
  exact ⟨(toMap_callAll (empty config) calls).symm, hone⟩

end SessionCache

end Enlist
