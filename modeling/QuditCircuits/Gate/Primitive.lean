import QuditCircuits.Gate.QubitGate
import QuditCircuits.Gate.QuditGate
import QuditCircuits.Operator.Basic

/-!
# Primitive gates and gate models

A *primitive* gate is one that is not made of other gates.  What it does is given by a *gate model*:
the entries of a matrix over the gate's register for each choice of parameters.  Nothing in the circuit
modules depends on which model that is, so their statements hold for every model over every type of
scalars.

A gate's operator is made of its entries like any other, so it is refused if the register is too large
or the entries do not fill the matrix.  A gate model carries the proof that they do.
-/

namespace QuditCircuits

/-- A gate that is not made of other gates. -/
inductive Primitive
  /-- A named gate on qubits. -/
  | qubit (gate : QubitGate)
  /-- A phase on one level of a qudit. -/
  | levelPhase (gate : LevelPhase)
  /-- The clock gate of a qudit. -/
  | clock (gate : Clock)
  /-- The shift gate of a qudit. -/
  | shift (gate : Shift)
  deriving DecidableEq

namespace Primitive

/-- The name that operations and messages show. -/
def name : Primitive → String
  | qubit gate => gate.name
  | levelPhase _ => "pd"
  | clock _ => "clock"
  | shift _ => "shift"

/-- The levels of each wire the gate acts on. -/
def register : Primitive → Register
  | qubit gate => .qubits gate.numWires
  | levelPhase gate => gate.register
  | clock gate => gate.register
  | shift gate => gate.register

/-- The number of parameters the gate takes. -/
def numParams : Primitive → Nat
  | qubit gate => gate.numParams
  | levelPhase _ | clock _ | shift _ => 0

end Primitive

/-- Refuses a list of parameters of the wrong length. -/
def checkParameters {θ : Type} (gate : String) (expected : Nat) (params : List θ) :
    Except ShapeError Unit :=
  if params.length = expected then .ok ()
  else .error (.parameterCount gate expected params.length)

/-- What the primitive gates do: the entries of a matrix for every list of parameters.  Only lists of
the gate's own number of parameters are ever asked for. -/
structure GateModel (θ K : Type) where
  /-- The entries of a gate at the given parameters. -/
  entries : Primitive → List θ → MatrixEntries K
  /-- They fill a matrix over the gate's register. -/
  fits : ∀ gate params, (entries gate params).Fits gate.register

/-- The operator of a primitive gate, refused if the number of parameters is wrong, else if its register
is too large or its entries do not fill the matrix. -/
def GateModel.unitary? {θ K : Type} [Zero K] (model : GateModel θ K) (gate : Primitive)
    (params : List θ) : Except ShapeError (Operator K) := do
  checkParameters gate.name gate.numParams params
  (model.entries gate params).operator? gate.register

end QuditCircuits
