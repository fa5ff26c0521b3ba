import Enlist.Edit.Change
import Enlist.Imports.Table

/-!
# Importing a symbol

`ImportTable.ensure` is the change that binds a symbol of a module, or nothing when the text binds it
already. A name in braces joins the first statement for the module that has braces and binds values.
Everything else becomes a statement of its own: behind the last import statement, behind a directive
`'use strict'`, or at the top.
-/

namespace Enlist.Imports

open Edit

namespace ImportRequest

def origin (r : ImportRequest) : Origin :=
  .importOf r.symbol r.module

/-- The statement that satisfies the request, without its semicolon. -/
def statement (r : ImportRequest) : String :=
  if r.isDefault then s!"import {r.symbol} from '{r.module}'"
  else s!"import \x7b {r.symbol} \x7d from '{r.module}'"

end ImportRequest

namespace ImportTable

/-- The first statement for a module that has braces and binds values. -/
def openClause? (t : ImportTable) (module : String) : Option ImportDecl :=
  t.decls.find? fun d => d.module == module && !d.typeOnly && d.braces.isSome

/-- Some pending change already puts an import at the offset. -/
def isFilled (offset : Nat) (pending : List Change) : Bool :=
  pending.any fun c =>
    c.offset == offset &&
      match c.origin with
      | .importOf _ _ => true
      | _ => false

/-- Joins the braces of a statement for the same module. Empty braces take in one name; while that is
pending, they take in no other. -/
def join? (t : ImportTable) (r : ImportRequest) (pending : List Change) : Option Change := do
  let d ← t.openClause? r.module
  let braces ← d.braces
  let change ← match d.named.getLast? with
    | some last => some (Change.insertAfter last.span.stop s!", {r.symbol}" r.origin)
    | none =>
      let offset := braces.stop - 1
      if isFilled offset pending then none
      else some (Change.insertBefore offset s!" {r.symbol} " r.origin)
  return change.describedAs s!"add {r.symbol} to existing import from '{r.module}'"

def addStatement (t : ImportTable) (r : ImportRequest) : Change :=
  let change := match t.decls.getLast?, t.useStrictEnd with
    | some last, _ => Change.insertAfter last.moduleSpan.stop s!";\n{r.statement}" r.origin
    | none, some stop => Change.insertAfter stop s!";\n{r.statement}" r.origin
    | none, none => Change.insertBefore 0 s!"{r.statement};\n" r.origin
  change.describedAs s!"add import of {r.symbol} from '{r.module}'"

/-- The change that satisfies a request which the text does not satisfy. -/
def satisfy (t : ImportTable) (r : ImportRequest) (pending : List Change) : Change :=
  if r.isDefault then t.addStatement r else (t.join? r pending).getD (t.addStatement r)

/-- The change that satisfies a request, given the changes that are pending; nothing when the text
satisfies it. -/
def ensure (t : ImportTable) (r : ImportRequest) (pending : List Change) : Option Change :=
  if t.isImported r.symbol r.module then none else some (t.satisfy r pending)

end ImportTable

end Enlist.Imports
