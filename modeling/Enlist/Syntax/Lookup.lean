/-!
# Results of a lookup

What was looked for by its form may be there not at all, once, or several times.

* `count_ofList`   a lookup keeps every match
-/

namespace Enlist.Syntax

inductive Lookup (α : Type) where
  | notFound
  | found (a : α)
  /-- At least two matches, in the order of the text. -/
  | ambiguous (first second : α) (others : List α)
  deriving DecidableEq, Repr

namespace Lookup

variable {α : Type}

def ofList : List α → Lookup α
  | [] => notFound
  | [a] => found a
  | a :: b :: others => ambiguous a b others

def first? : Lookup α → Option α
  | notFound => none
  | found a => some a
  | ambiguous a _ _ => some a

def isNotFound : Lookup α → Bool
  | notFound => true
  | _ => false

def count : Lookup α → Nat
  | notFound => 0
  | found _ => 1
  | ambiguous _ _ others => others.length + 2

/-- A look-up among candidates counts all of them. -/
theorem count_ofList (as : List α) : (ofList as).count = as.length := by
  match as with
  | [] => rfl
  | [_] => rfl
  | _ :: _ :: _ => rfl

/-- A look-up among candidates finds the first of them. -/
theorem first?_ofList (as : List α) : (ofList as).first? = as.head? := by
  match as with
  | [] => rfl
  | [_] => rfl
  | _ :: _ :: _ => rfl

end Lookup

end Enlist.Syntax
