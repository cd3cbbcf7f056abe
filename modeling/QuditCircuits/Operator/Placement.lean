import QuditCircuits.Operator.Basic

/-!
# Operators placed on the wires of a larger register

An operator over a small register is *placed* on wires of a larger one: its own wire `i` becomes the
wire `wires[i]`, and every other wire is left alone.

The matrix is built column by column.  The digits of a basis state on the chosen wires select a
column of the small operator; each entry of that column goes to the row reached by writing the
digits of its own row over the ones on the chosen wires.  All other cells stay zero.

A placement is refused when the number of wires is wrong, and then at the first wire that is
repeated, lies beyond the register or has other levels than the operator's own wire.
-/

namespace QuditCircuits

/-- The digits found on the given wires, in the order of the wires. -/
def readWires (digits : List Nat) (wires : List Wire) : List Nat :=
  wires.map fun wire => digits.getD wire 0

/-- Writes one value on each of the given wires. -/
def writeWires (digits : List Nat) (wires : List Wire) (values : List Nat) : List Nat :=
  (wires.zip values).foldl (fun digits (wire, value) => digits.set wire value) digits

/-- Refuses the first wire that is among the earlier ones, beyond the register or of other levels
than the ones it is paired with. -/
def Register.checkPlacement (R : Register) : (earlier : List Wire) → List (Wire × Nat) →
    Except ShapeError Unit
  | _, [] => .ok ()
  | earlier, (wire, levels) :: rest => do
      if wire ∈ earlier then throw (.repeatedWire wire none)
      R.checkWire none wire levels
      R.checkPlacement (wire :: earlier) rest

namespace Operator

variable {K : Type}

/-- The cells that a placed operator fills in one column: a row, the column and a scalar for each
row of the small operator. -/
def placedColumn [Zero K] (U : Operator K) (wires : List Wire) (R : Register) (col : Nat) :
    List (Nat × Nat × K) :=
  let digits := R.digits col
  let localCol := U.register.index (readWires digits wires)
  (List.range U.dim).map fun localRow =>
    (R.index (writeWires digits wires (U.register.digits localRow)), col, U.entry localRow localCol)

/-- The operator placed on `wires` of `R`, without any check. -/
def place [Zero K] (U : Operator K) (wires : List Wire) (R : Register) : Operator K :=
  ofCells R ((List.range R.dimension).flatMap (U.placedColumn wires R))

/-- The operator placed on `wires` of `R`, refused if the wires do not fit or the register is too
large for a matrix. -/
def place? [Zero K] (U : Operator K) (wires : List Wire) (R : Register) :
    Except ShapeError (Operator K) := do
  if wires.length ≠ U.register.width then
    throw (.wireCount "matrix" U.register.width wires.length)
  R.checkPlacement [] (wires.zip U.register.levels)
  let _ ← R.dim?
  return U.place wires R

end Operator

end QuditCircuits
