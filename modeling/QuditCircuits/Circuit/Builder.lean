import QuditCircuits.Circuit.Schedule

/-!
# Building circuits gate by gate

Short forms for the gates that circuits are mostly built from.  Each appends one operation and gives
the longer circuit back, so that a circuit is written as a chain of them.
-/

namespace QuditCircuits

variable {θ : Type}

/-! ## As programs -/

namespace Mutation

/-- Appends a named gate and forgets where it landed. -/
def add (gate : QubitGate) (wires : List Wire) (params : List θ) : Mutation θ ShapeError Unit :=
  discard (appendGate (.primitive (.qubit gate)) wires params)

/-- Appends a phase on one level, with the gate sized to the wire. -/
def levelPhase (level : Nat) (wire : Wire) : Mutation θ ShapeError Unit := do
  let levels ← Program.query fun c =>
    match c.register.levelsOf? wire with
    | none => .error (.wireOutOfRange wire c.numWires (some "pd"))
    | some levels => .ok levels
  let gate ← Program.query fun _ => LevelPhase.make? levels level
  discard (appendGate (.primitive (.levelPhase gate)) [wire] [])

end Mutation

/-! ## As chains -/

namespace Circuit

/-- Appends a named gate. -/
def add? (c : Circuit θ) (gate : QubitGate) (wires : List Wire) (params : List θ) :
    Except ShapeError (Circuit θ) :=
  (Mutation.add gate wires params).changed? c

/-- Appends a Hadamard gate. -/
def h? (c : Circuit θ) (wire : Wire) : Except ShapeError (Circuit θ) :=
  c.add? .h [wire] []

/-- Appends a bit flip. -/
def x? (c : Circuit θ) (wire : Wire) : Except ShapeError (Circuit θ) :=
  c.add? .x [wire] []

/-- Appends a phase flip. -/
def z? (c : Circuit θ) (wire : Wire) : Except ShapeError (Circuit θ) :=
  c.add? .z [wire] []

/-- Appends a rotation about the third axis. -/
def rz? (c : Circuit θ) (angle : θ) (wire : Wire) : Except ShapeError (Circuit θ) :=
  c.add? .rz [wire] [angle]

/-- Appends a controlled bit flip. -/
def cx? (c : Circuit θ) (control target : Wire) : Except ShapeError (Circuit θ) :=
  c.add? .cx [control, target] []

/-- Appends a controlled phase flip. -/
def cz? (c : Circuit θ) (control target : Wire) : Except ShapeError (Circuit θ) :=
  c.add? .cz [control, target] []

/-- Appends an exchange of two qubits. -/
def swap? (c : Circuit θ) (wire other : Wire) : Except ShapeError (Circuit θ) :=
  c.add? .swap [wire, other] []

/-- Appends a phase on one level. -/
def levelPhase? (c : Circuit θ) (level : Nat) (wire : Wire) : Except ShapeError (Circuit θ) :=
  (Mutation.levelPhase level wire).changed? c

end Circuit

end QuditCircuits
