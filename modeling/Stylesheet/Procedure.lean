/-
Procedures: steps on a state, one of which may fail. What the steps in front of it did to the state
is not undone.
-/

namespace Stylesheet

/-- Steps on a state of type `σ` that give an `α`, or fail for a cause of type `ε`. -/
abbrev Procedure (σ ε α : Type) := ExceptT ε (StateM σ) α

namespace Procedure

variable {σ ε ε' α β : Type}

/-- What a procedure gives, and the state that it leaves, also where it fails. -/
def on (procedure : Procedure σ ε α) (state : σ) : Except ε α × σ := StateT.run (ExceptT.run procedure) state

@[simp] theorem on_pure (a : α) (state : σ) : on (pure a : Procedure σ ε α) state = (.ok a, state) := rfl

@[simp] theorem on_throw (e : ε) (state : σ) : on (throw e : Procedure σ ε α) state = (.error e, state) := rfl

@[simp] theorem on_get (state : σ) : on (get : Procedure σ ε σ) state = (.ok state, state) := rfl

@[simp] theorem on_modify (f : σ → σ) (state : σ) : on (modify f : Procedure σ ε Unit) state = (.ok (), f state) := rfl

/-- Gives an outcome that is there already. -/
def ofExcept (outcome : Except ε α) : Procedure σ ε α := ExceptT.mk (pure outcome)

@[simp] theorem on_ofExcept (outcome : Except ε α) (state : σ) : on (ofExcept outcome) state = (outcome, state) := rfl

theorem on_bind (procedure : Procedure σ ε α) (f : α → Procedure σ ε β) (state : σ) :
    on (procedure >>= f) state = match procedure.on state with
      | (.ok a, next) => on (f a) next
      | (.error e, next) => (.error e, next) := by
  show (ExceptT.bindCont f (procedure.on state).1 : StateM σ _).run (procedure.on state).2 = _
  cases procedure.on state with
  | mk outcome next => cases outcome <;> rfl

@[simp] theorem on_discard (procedure : Procedure σ ε α) (state : σ) :
    on (discard procedure) state = ((procedure.on state).1.map fun _ => (), (procedure.on state).2) := by
  show on (procedure >>= fun _ => pure ()) state = _
  rw [on_bind]
  cases procedure.on state with
  | mk outcome next => cases outcome <;> rfl

/-- The same procedure with causes of another kind. -/
def mapError (f : ε → ε') (procedure : Procedure σ ε α) : Procedure σ ε' α := ExceptT.adapt f procedure

@[simp] theorem on_mapError (f : ε → ε') (procedure : Procedure σ ε α) (state : σ) :
    (procedure.mapError f).on state = ((procedure.on state).1.mapError f, (procedure.on state).2) := rfl

end Procedure

end Stylesheet
