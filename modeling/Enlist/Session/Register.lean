import Enlist.Session.Decision

/-!
# Registrations

`Session.register` carries out a request: it decides what the request takes, records that, and gives
the changes that it recorded. A request that fails records nothing.

* `exec_registerSteps`   a request either fails or records what is decided
-/

namespace Enlist

open Edit Metadata Imports

/-- The slots of an Angular module. -/
inductive ModuleSlot where
  | declarations | imports | providers | exports | bootstrap | entryComponents
  deriving DecidableEq, Repr

def ModuleSlot.name : ModuleSlot → String
  | declarations => "declarations"
  | imports => "imports"
  | providers => "providers"
  | exports => "exports"
  | bootstrap => "bootstrap"
  | entryComponents => "entryComponents"

inductive Request where
  /-- A symbol becomes an entry of a slot, and is imported from the module if one is given. -/
  | entry (slot symbol : String) (module : Option String)
  | imported (r : ImportRequest)
  | route (literal : String)
  deriving DecidableEq, Repr

inductive Subject where
  | imported (r : ImportRequest)
  | entry (slot symbol : String)
  | route (literal : String)
  deriving DecidableEq, Repr

namespace Subject

def word : Subject → String
  | imported _ => "import"
  | entry _ _ => "entry"
  | route _ => "route"

def fields : Subject → List (String × String)
  | imported r => [("symbol", r.symbol), ("module", r.module)]
  | entry slot symbol => [("slot", slot), ("symbol", symbol)]
  | route literal => [("literal", literal)]

end Subject

/-- What is told about a decision in a session over the file at `path`. -/
def Decision.event (path : String) (about : Subject) : Decision → Event
  | present => ⟨.debug, s!"{about.word} already present", about.fields⟩
  | pending => ⟨.debug, s!"{about.word} already pending", about.fields⟩
  | append c => ⟨.debug, "change recorded", [("path", path), ("change", c.description)]⟩
  | extend _ _ => ⟨.debug, "pending slot creation extended", about.fields⟩

namespace Session

def perform (s : Session) (d : Decision) : Session :=
  match d with
  | .present | .pending => s
  | d => { s with pending := d.perform s.pending, state := .accumulating }

/-- The name that an expression starts with, which is the one to be imported for it. -/
def rootIdentifier (symbol : String) : String :=
  String.ofList (Text.trim (Text.beforeFirst (fun c => c == '.' || c == '(' || c == '<') symbol.toList))

/-- The request that makes a symbol an entry of a slot and imports it from the module of a suffix. -/
def slotRequest (s : Session) (slot symbol : String) (suffix : Option String) : Request :=
  .entry slot symbol (some (s.modulePath suffix))

def entryImport (symbol module : String) : ImportRequest :=
  { symbol := rootIdentifier symbol, module, isDefault := false }

/-- What the import for an entry takes, if a module is given. -/
def decideEntryImport (s : Session) (symbol : String) (module : Option String) : Option Decision :=
  module.map fun m => s.decideImport (entryImport symbol m)

def importFor (s : Session) (symbol : String) (module : Option String) : Session :=
  match s.decideEntryImport symbol module with
  | some d => s.perform d
  | none => s

/-- Makes a symbol an entry of a located slot. The import is recorded first. -/
def registerEntry (s : Session) (l : SlotLocation) (symbol : String) (module : Option String) :
    Session × List Change :=
  let imported := s.importFor symbol module
  let d := imported.decideEntry l symbol
  let changes := ((s.decideEntryImport symbol module).bind Decision.change?).toList
  (imported.perform d, changes ++ d.change?.toList)

/-- Carries out a decision that stands alone. -/
def settle (s : Session) (d : Decision) : Session × List Change :=
  (s.perform d, d.change?.toList)

def trimmedRoute (literal : String) : String :=
  String.ofList (Text.trim literal.toList)

def found {α : Type} (r : Except ResolveError α) : Work Session SessionError α :=
  Work.ofExcept (r.mapError .resolve)

def record (d : Decision) : Work Session SessionError (List Change) := do
  modify fun s => s.perform d
  return d.change?.toList

/-- Carries out a request step by step, and gives the changes recorded for it. -/
def registerSteps : Request → Work Session SessionError (List Change)
  | .entry slot symbol module => do
    let s ← get
    let l ← found (locateSlot s.snapshot s.config.selector slot)
    let imports ← match s.decideEntryImport symbol module with
      | some d => record d
      | none => pure []
    let entries ← record ((← get).decideEntry l symbol)
    return imports ++ entries
  | .imported r => do record ((← get).decideImport r)
  | .route literal => do
    let s ← get
    let l ← found (locateRoutes s.snapshot s.config.selector)
    record (s.decideRoute l (trimmedRoute literal))

/-- The session after a request, and the changes recorded for it. -/
def register (s : Session) (r : Request) : Except SessionError (Session × List Change) :=
  ((registerSteps r).outcome s).map Prod.swap

/-- A request fails where its slot or its routes are not located, and otherwise does what is decided for
it. -/
theorem exec_registerSteps (s : Session) (r : Request) :
    (registerSteps r).exec s =
      match r with
      | .entry slot symbol module =>
        match locateSlot s.snapshot s.config.selector slot with
        | .ok l => (.ok (s.registerEntry l symbol module).2, (s.registerEntry l symbol module).1)
        | .error e => (.error (.resolve e), s)
      | .imported r => (.ok (s.settle (s.decideImport r)).2, (s.settle (s.decideImport r)).1)
      | .route literal =>
        match locateRoutes s.snapshot s.config.selector with
        | .ok l =>
          let d := s.decideRoute l (trimmedRoute literal)
          (.ok (s.settle d).2, (s.settle d).1)
        | .error e => (.error (.resolve e), s) := by
  cases r with
  | entry slot symbol module =>
    -- What is located decides whether anything is recorded
    simp only [registerSteps, Work.exec_bind, Work.exec_get, found, Work.exec_ofExcept]
    cases locateSlot s.snapshot s.config.selector slot with
    | error e => rfl
    | ok l =>
      simp only [registerEntry, importFor]
      cases s.decideEntryImport symbol module <;> rfl
  | imported r => rfl
  | route literal =>
    simp only [registerSteps, Work.exec_bind, Work.exec_get, found, Work.exec_ofExcept]
    cases locateRoutes s.snapshot s.config.selector <;> rfl

def registerEvents (s : Session) : Request → List Event
  | .entry slot symbol module =>
    let decided := match locateSlot s.snapshot s.config.selector slot with
      | .error _ => []
      | .ok l =>
        let imports := match module, s.decideEntryImport symbol module with
          | some m, some d => [d.event s.path (.imported (entryImport symbol m))]
          | _, _ => []
        imports ++
          [((s.importFor symbol module).decideEntry l symbol).event s.path (.entry slot symbol)]
    slotEvents s.snapshot s.config.selector slot ++ decided
  | .imported r => [(s.decideImport r).event s.path (.imported r)]
  | .route literal =>
    match locateRoutes s.snapshot s.config.selector with
    | .error _ => []
    | .ok l =>
      let literal := trimmedRoute literal
      [(s.decideRoute l literal).event s.path (.route literal)]

end Session

end Enlist
