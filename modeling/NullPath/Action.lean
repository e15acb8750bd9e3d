import NullPath.Error

/-!
# Actions

An action works on a state and ends with a value or a failure.  The state survives a failure:
what an action did before it failed stays done, as later answers show.

* `Action`: actions, with their monad.
* `Action.fail`, `Action.lift`, `Action.within`: failing, embedding and giving context.
* `Action.zoom`: an action on a part of a larger state.
-/

namespace NullPath

/-- A computation on a state that is kept when the computation fails. -/
def Action (σ α : Type) : Type :=
  σ → Except Failure α × σ

namespace Action

variable {σ τ α β : Type}

/-- Does nothing. -/
@[inline] def pure (a : α) : Action σ α :=
  fun s => (.ok a, s)

/-- Runs one action and then another that depends on its value. -/
@[inline] def bind (x : Action σ α) (f : α → Action σ β) : Action σ β :=
  fun s =>
    match x s with
    | (.ok a, s') => f a s'
    | (.error e, s') => (.error e, s')

instance : Monad (Action σ) where
  pure := Action.pure
  bind := Action.bind

/-- The present state. -/
@[inline] def get : Action σ σ :=
  fun s => (.ok s, s)

/-- Replaces the state. -/
@[inline] def set (s : σ) : Action σ Unit :=
  fun _ => (.ok (), s)

/-- Changes the state. -/
@[inline] def modify (f : σ → σ) : Action σ Unit :=
  fun s => (.ok (), f s)

/-- Fails. -/
@[inline] def fail (e : Failure) : Action σ α :=
  fun s => (.error e, s)

/-- Fails with an error. -/
@[inline] def error (e : Error) : Action σ α :=
  fail (.error e)

/-- Fails with a fault. -/
@[inline] def fault (f : Fault) : Action σ α :=
  fail (.fault f)

/-- A result that may be an error. -/
@[inline] def lift : Except Error α → Action σ α
  | .ok a => pure a
  | .error e => error e

/-- A result that may be a fault. -/
@[inline] def liftFault : Except Fault α → Action σ α
  | .ok a => pure a
  | .error f => fault f

/-- The action as part of an activity, which its errors mention. -/
@[inline] def within (activity : String) (x : Action σ α) : Action σ α :=
  fun s =>
    match x s with
    | (.ok a, s') => (.ok a, s')
    | (.error e, s') => (.error (e.within activity), s')

/-- An action on a part of a larger state. -/
@[inline] def zoom (view : τ → σ) (update : σ → τ → τ) (x : Action σ α) : Action τ α :=
  fun t =>
    match x (view t) with
    | (r, s) => (r, update s t)

@[simp] theorem pure_apply (a : α) (s : σ) : (Pure.pure a : Action σ α) s = (.ok a, s) := rfl

theorem bind_apply (x : Action σ α) (f : α → Action σ β) (s : σ) :
    (x >>= f) s =
      match x s with
      | (.ok a, s') => f a s'
      | (.error e, s') => (.error e, s') := rfl

@[simp] theorem fail_apply (e : Failure) (s : σ) : (fail e : Action σ α) s = (.error e, s) := rfl

@[simp] theorem get_apply (s : σ) : (get : Action σ σ) s = (.ok s, s) := rfl

@[simp] theorem set_apply (s s' : σ) : (set s : Action σ Unit) s' = (.ok (), s) := rfl

@[simp] theorem modify_apply (f : σ → σ) (s : σ) : modify f s = (.ok (), f s) := rfl

end Action

end NullPath
