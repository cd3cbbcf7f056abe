import QuditCircuits.Point

/-!
# Errors of shape

A register, a gate, a matrix or an operation can be refused because its *shape* is wrong: a count,
a level, a wire or a dimension does not fit.  Such an error is a cause with the numbers that show
it; `ShapeError.message` is the only place that words it.

A cause that arises while a gate is placed carries the gate's name, one that arises while a bare
matrix is placed does not.
-/

namespace QuditCircuits

/-- Why a register, gate, matrix or operation is refused. -/
inductive ShapeError
  /-- A wire was declared with no level at all. -/
  | noLevels
  /-- The product of the levels is no longer a machine word. -/
  | registerTooLarge (levels : List Nat)
  /-- A phase was asked for on a level that the wire does not have. -/
  | levelOutOfRange (level numLevels : Nat)
  /-- A gate was given the wrong number of parameters. -/
  | parameterCount (gate : String) (expected got : Nat)
  /-- A gate was given the wrong number of wires. -/
  | wireCount (gate : String) (expected got : Nat)
  /-- A wire was named twice. -/
  | repeatedWire (wire : Wire) (gate : Option String)
  /-- A wire lies beyond the register. -/
  | wireOutOfRange (wire : Wire) (numWires : Nat) (gate : Option String)
  /-- A wire has other levels than the gate placed on it. -/
  | levelMismatch (wire : Wire) (wireLevels gateLevels : Nat) (gate : Option String)
  /-- A matrix does not have the dimension of its register. -/
  | matrixShape (expected rows cols : Nat)
  deriving DecidableEq

/-- Level counts are written in square brackets, separated by commas. -/
def levelsText (levels : List Nat) : String :=
  "[" ++ ", ".intercalate (levels.map toString) ++ "]"

namespace ShapeError

/-- The gate is named at the end of a message, if there is one. -/
def gateSuffix : Option String → String
  | some gate => s!" (gate: {gate})"
  | none => ""

/-- The message that a user sees. -/
def message : ShapeError → String
  | noLevels => "Invalid radix 0: a qudit needs at least one level"
  | registerTooLarge levels =>
      s!"Register with radices {levelsText levels} is too large for a dense matrix"
  | levelOutOfRange level numLevels =>
      s!"Gate 'pd' has {numLevels} levels, level index {level} is out of range"
  | parameterCount gate expected got =>
      s!"Gate '{gate}' takes {expected} parameters, got {got}"
  | wireCount gate expected got =>
      s!"Gate '{gate}' acts on {expected} qudits, got {got}"
  | repeatedWire wire gate =>
      s!"Duplicate qudit {Wire.text wire} in operation{gateSuffix gate}"
  | wireOutOfRange wire numWires gate =>
      s!"Qudit {Wire.text wire} out of range for a {numWires}-qudit register{gateSuffix gate}"
  | levelMismatch wire wireLevels gateLevels gate =>
      s!"Radix mismatch on {Wire.text wire}: wire has {wireLevels} levels, "
        ++ s!"gate expects {gateLevels}{gateSuffix gate}"
  | matrixShape expected rows cols =>
      s!"Matrix dimension mismatch: expected {expected}x{expected}, got {rows}x{cols}"

end ShapeError

end QuditCircuits
