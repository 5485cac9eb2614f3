/-!
# Computations that may stop early

Every operation of this library is an `Action`: a step on some state that either gives an answer or
stops. The state it reached is kept in both cases, because what a failed operation leaves behind is
part of what it does. `Halt` keeps the three reasons for stopping apart, so that a theorem can say
which of them cannot occur.
-/

namespace PagedIndex

/-- Why a computation gave no answer. -/
inductive Halt (ε : Type) where
  /-- It failed with an error its caller may handle. -/
  | failed (error : ε)
  /-- It reached for a slot outside a page or a byte outside a buffer; nothing can go on from there. -/
  | aborted
  /-- It walks in a circle and would never answer. -/
  | endless
deriving DecidableEq

/-- A computation on a state `σ` that may stop early; the state it reached is kept either way. -/
abbrev Action (ε σ α : Type) := EStateM (Halt ε) σ α

namespace Action

variable {ε ε' σ τ α : Type}

/-- Stops with the error `e`. -/
def fail (e : ε) : Action ε σ α := throw (.failed e)

/-- Stops for good: the computation went outside its data. -/
def abort : Action ε σ α := throw .aborted

/-- Stops because the walk has come back to where it was. -/
def circle : Action ε σ α := throw .endless

/-- The value, or an abort where there is none. -/
def orAbort : Option α → Action ε σ α
  | some a => pure a
  | none => abort

/-- The value, or the error. -/
def ofExcept : Except ε α → Action ε σ α
  | .ok a => pure a
  | .error e => fail e

/-- The outcome of a computation that had no state. -/
def ofOutcome : Except (Halt ε) α → Action ε σ α
  | .ok a => pure a
  | .error h => throw h

/-- The same computation, its error wrapped by `f`. -/
def mapError (f : ε → ε') (x : Action ε σ α) : Action ε' σ α := fun s =>
  match x s with
  | .ok a s => .ok a s
  | .error (.failed e) s => .error (.failed (f e)) s
  | .error .aborted s => .error .aborted s
  | .error .endless s => .error .endless s

/-- Runs a computation on a part of the state and leaves the rest alone. -/
def zoom (get : σ → τ) (set : τ → σ → σ) (x : Action ε τ α) : Action ε σ α := fun s =>
  match x (get s) with
  | .ok a t => .ok a (set t s)
  | .error h t => .error h (set t s)

/-- Runs a computation and hands its failure over as a value; only aborts and circles pass through. -/
def attempt (x : Action ε σ α) : Action ε σ (Except ε α) := fun s =>
  match x s with
  | .ok a s => .ok (.ok a) s
  | .error (.failed e) s => .ok (.error e) s
  | .error .aborted s => .error .aborted s
  | .error .endless s => .error .endless s

end Action

end PagedIndex
