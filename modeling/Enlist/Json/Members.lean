/-!
# Members by name

Named things in the order of their names, each name once. The order makes two collections equal when
they hold the same.

* `get?_insert`   the last thing that was put in under a name is found
-/

namespace Enlist.Json.Members

variable {α : Type}

/-- Puts in a thing under a name, in place of what was there. -/
def insert (name : String) (a : α) : List (String × α) → List (String × α)
  | [] => [(name, a)]
  | (n, b) :: ms =>
    if name = n then (name, a) :: ms
    else if name < n then (name, a) :: (n, b) :: ms
    else (n, b) :: insert name a ms

def get? (name : String) (ms : List (String × α)) : Option α :=
  (ms.find? fun m => m.1 == name).map Prod.snd

/-- Gathers named things; of several with one name the last counts. -/
def ofList (ms : List (String × α)) : List (String × α) :=
  ms.foldl (fun gathered m => insert m.1 m.2 gathered) []

/-- A member that is inserted hides an earlier one of its name, and no other. -/
theorem get?_insert (name other : String) (a : α) (ms : List (String × α)) :
    get? other (insert name a ms) = if name = other then some a else get? other ms := by
  induction ms with
  | nil => by_cases h : name = other <;> simp [insert, get?, h]
  | cons m ms ih =>
    obtain ⟨n, b⟩ := m
    simp only [insert]
    -- The new member goes in front of the head, or takes its place, or goes somewhere behind it
    split
    · by_cases h : name = other <;> simp_all [get?]
    · split
      · by_cases h : name = other <;> simp [get?, List.find?_cons, h]
      · by_cases h : n = other
        · have : name ≠ other := by simp_all
          simp [get?, h, this]
        · have hn : (n == other) = false := by simp [h]
          simpa [get?, List.find?_cons, hn] using ih

end Enlist.Json.Members
