/-!
# Work on a state

Steps that change a state and may fail part of the way. What was done to the state before the failure
stays done, so work that changes nothing when it fails has to fail first.

* `exec_bind`   one piece of work after another goes on from the state that the first one leaves
-/

namespace Enlist

/-- Work on a state of type `σ` that gives an `α` or fails with an `ε`. -/
abbrev Work (σ ε α : Type) := ExceptT ε (StateM σ) α

namespace Work

variable {σ τ ε ε' α β : Type}

/-- What the work comes to, and the state that it leaves, also where it fails. -/
def exec (w : Work σ ε α) (s : σ) : Except ε α × σ :=
  (ExceptT.run w).run s

/-- A value or a failure that is known without touching the state. -/
def ofExcept (r : Except ε α) : Work σ ε α :=
  ExceptT.mk (pure r)

/-- Work on the second part of a state. -/
def onSecond (f : ε → ε') (w : Work τ ε α) : Work (σ × τ) ε' α :=
  ExceptT.mk fun (s, t) =>
    let (r, t) := w.exec t
    (r.mapError f, (s, t))

/-- The value and the state of work that does not fail. -/
def outcome (w : Work σ ε α) (s : σ) : Except ε (α × σ) :=
  match w.exec s with
  | (.ok a, s) => .ok (a, s)
  | (.error e, _) => .error e

@[simp] theorem exec_pure (a : α) (s : σ) : (pure a : Work σ ε α).exec s = (.ok a, s) := rfl

@[simp] theorem exec_throw (e : ε) (s : σ) : (throw e : Work σ ε α).exec s = (.error e, s) := rfl

@[simp] theorem exec_get (s : σ) : (get : Work σ ε σ).exec s = (.ok s, s) := rfl

@[simp] theorem exec_modify (f : σ → σ) (s : σ) : (modify f : Work σ ε Unit).exec s = (.ok (), f s) :=
  rfl

@[simp] theorem exec_ofExcept (r : Except ε α) (s : σ) : (ofExcept r : Work σ ε α).exec s = (r, s) :=
  rfl

/-- Work on the second part of a state leaves the first one as it is. -/
@[simp] theorem exec_onSecond (f : ε → ε') (w : Work τ ε α) (s : σ) (t : τ) :
    (onSecond f w : Work (σ × τ) ε' α).exec (s, t) =
      ((w.exec t).1.mapError f, (s, (w.exec t).2)) := rfl

theorem exec_bind (w : Work σ ε α) (f : α → Work σ ε β) (s : σ) :
    (w >>= f).exec s =
      match w.exec s with
      | (.ok a, s) => (f a).exec s
      | (.error e, s) => (.error e, s) := by
  show (ExceptT.run (w >>= f)).run s = _
  simp only [ExceptT.run_bind, StateT.run_bind, exec]
  cases h : (ExceptT.run w).run s with
  | mk r s' => cases r <;> rfl

/-- Work that has an outcome leaves the state that the outcome tells. -/
theorem exec_of_outcome {w : Work σ ε α} {a : α} {s s' : σ}
    (h : (w.outcome s).map Prod.swap = .ok (s', a)) : w.exec s = (.ok a, s') := by
  rw [outcome] at h
  rcases hexec : w.exec s with ⟨e | b, s''⟩ <;> rw [hexec] at h
  · cases h
  · obtain ⟨rfl, rfl⟩ := Prod.mk.inj (Except.ok.inj h)
    rfl

end Work

end Enlist
