import QuditCircuits.Circuit.Basic
import QuditCircuits.Operator.Placement

/-!
# The operator of a circuit

For a gate model, every gate has an operator at every list of parameters of the right length, and so
does every circuit: its parameters are cut up along its operations in schedule order, each gate's
operator is placed on the operation's wires, and the placed operators are multiplied, later ones on
the left.  The operator of a block is that of its body.

Evaluation can fail, and the first failure is the answer: a wrong number of parameters, or a register
that is too large for a matrix.
-/

namespace QuditCircuits

variable {θ K : Type} [Zero K] [One K] [Add K] [Mul K] [AddProduct K]

/-- The operator of a gate as a function of its parameters. -/
abbrev Evaluation (θ K : Type) : Type :=
  List θ → Except ShapeError (Operator K)

/-- Multiplies the operators of a list of operations onto `acc`, each with its share of the
parameters. -/
def evolve (R : Register) : List (Operation θ × Evaluation θ K) → List θ → Operator K →
    Except ShapeError (Operator K)
  | [], _, acc => .ok acc
  | (op, evaluation) :: rest, params, acc => do
      let own ← evaluation (params.take op.params.length)
      let placed ← own.place? op.wires R
      evolve R rest (params.drop op.params.length) (← placed.mul? acc)

/-- The operator of a circuit, from the operators of the gates of its operations. -/
def Circuit.evaluate (c : Circuit θ) (parts : List (Operation θ × Evaluation θ K)) :
    Evaluation θ K := fun params => do
  checkParameters "circuit" c.numParams params
  evolve c.register parts params (← Operator.identity? c.register)

/-- The operator of a gate at the given parameters. -/
def Gate.unitary? (model : GateModel θ K) (gate : Gate θ) : Evaluation θ K :=
  gate.fold model.unitary? fun _ body parts => body.evaluate parts

/-- The operator of an operation over its own wires. -/
def Operation.unitary? (model : GateModel θ K) (op : Operation θ) :
    Except ShapeError (Operator K) :=
  op.gate.unitary? model op.params

/-- The operator of a circuit with other parameters, assigned in schedule order. -/
def Circuit.unitaryWith? (model : GateModel θ K) (c : Circuit θ) : Evaluation θ K :=
  c.evaluate (c.operations.map fun op => (op, op.gate.unitary? model))

/-- The operator of a circuit with the parameters it holds. -/
def Circuit.unitary? (model : GateModel θ K) (c : Circuit θ) : Except ShapeError (Operator K) :=
  c.unitaryWith? model c.params

@[simp]
theorem Gate.unitary?_primitive (model : GateModel θ K) (gate : Primitive) :
    (Gate.primitive gate).unitary? model = model.unitary? gate := rfl

/-- The operator of a block is that of its body. -/
@[simp]
theorem Gate.unitary?_block (model : GateModel θ K) (name : String) (body : Circuit θ) :
    (Gate.block name body).unitary? model = body.unitaryWith? model := by
  rw [Gate.unitary?, Gate.fold_block]
  rfl

end QuditCircuits
