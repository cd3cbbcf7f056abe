/-!
# Programs with state and errors

A program reads and changes a state, and it may fail.  What it changed before it failed stays changed, so
a failing program leaves a state behind like any other.  That nothing was changed is a property of some
programs: of those that ask all their questions before they write.
-/

namespace QuditCircuits

/-- Programs over states `σ` that may fail with errors `ε`.  An error keeps the changes made before it. -/
abbrev Program (ε σ : Type) : Type → Type :=
  EStateM ε σ

namespace Program

variable {ε σ τ α : Type}

/-- Asks the state, which may fail, and changes nothing. -/
def query (question : σ → Except ε α) : Program ε σ α := do
  match question (← get) with
  | .ok a => return a
  | .error e => throw e

/-- The program on a part of a larger state. -/
def onPart (part : τ → σ) (withPart : τ → σ → τ) (program : Program ε σ α) : Program ε τ α := fun t =>
  match program (part t) with
  | .ok a left => .ok a (withPart t left)
  | .error e left => .error e (withPart t left)

/-- The state that a program leaves behind, whether it succeeds or fails. -/
def after (program : Program ε σ α) (s : σ) : σ :=
  match program s with
  | .ok _ left => left
  | .error _ left => left

/-- The result and the state after it, or the error alone. -/
def outcome (program : Program ε σ α) (s : σ) : Except ε (α × σ) :=
  match program s with
  | .ok a left => .ok (a, left)
  | .error e _ => .error e

/-- The state after a success, or the error alone. -/
def changed? (program : Program ε σ α) (s : σ) : Except ε σ :=
  (program.outcome s).map Prod.snd

end Program

end QuditCircuits
