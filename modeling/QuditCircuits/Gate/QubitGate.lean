import QuditCircuits.Register

/-!
# Gates on qubits

The named gates on one, two or three qubits.  A gate knows its name, the number of wires and the
number of parameters; its matrix is given in the gate library.
-/

namespace QuditCircuits

/-- The named qubit gates. -/
inductive QubitGate
  /-- The identity. -/
  | id
  /-- The bit flip. -/
  | x
  /-- The bit and phase flip. -/
  | y
  /-- The phase flip. -/
  | z
  /-- The Hadamard gate. -/
  | h
  /-- A quarter turn of the phase. -/
  | s
  /-- The inverse of `s`. -/
  | sdg
  /-- An eighth of a turn of the phase. -/
  | t
  /-- The inverse of `t`. -/
  | tdg
  /-- The square root of the bit flip. -/
  | sx
  /-- The rotation about the first axis. -/
  | rx
  /-- The rotation about the second axis. -/
  | ry
  /-- The rotation about the third axis. -/
  | rz
  /-- The phase gate. -/
  | p
  /-- The general gate on one qubit, by three angles. -/
  | u3
  /-- The controlled bit flip. -/
  | cx
  /-- The controlled `y`. -/
  | cy
  /-- The controlled phase flip. -/
  | cz
  /-- The controlled Hadamard gate. -/
  | ch
  /-- The exchange of two qubits. -/
  | swap
  /-- The exchange of two qubits with a quarter turn of the exchanged states. -/
  | iswap
  /-- The controlled phase gate. -/
  | cp
  /-- The controlled rotation about the third axis. -/
  | crz
  /-- The bit flip under two controls. -/
  | ccx
  deriving DecidableEq

namespace QubitGate

/-- The name that operations and messages show. -/
def name : QubitGate → String
  | id => "id"
  | x => "x"
  | y => "y"
  | z => "z"
  | h => "h"
  | s => "s"
  | sdg => "sdg"
  | t => "t"
  | tdg => "tdg"
  | sx => "sx"
  | rx => "rx"
  | ry => "ry"
  | rz => "rz"
  | p => "p"
  | u3 => "u3"
  | cx => "cx"
  | cy => "cy"
  | cz => "cz"
  | ch => "ch"
  | swap => "swap"
  | iswap => "iswap"
  | cp => "cp"
  | crz => "crz"
  | ccx => "ccx"

/-- The number of qubits the gate acts on. -/
def numWires : QubitGate → Nat
  | cx | cy | cz | ch | swap | iswap | cp | crz => 2
  | ccx => 3
  | _ => 1

/-- The number of angles the gate takes. -/
def numParams : QubitGate → Nat
  | rx | ry | rz | p | cp | crz => 1
  | u3 => 3
  | _ => 0

/-- All named gates. -/
def all : List QubitGate :=
  [id, x, y, z, h, s, sdg, t, tdg, sx, rx, ry, rz, p, u3, cx, cy, cz, ch, swap, iswap, cp, crz, ccx]

/-- The list is complete. -/
theorem mem_all (g : QubitGate) : g ∈ all := by
  cases g <;> simp [all]

/-- The gate of a given name. -/
def ofName? (name : String) : Option QubitGate :=
  all.find? fun g => g.name = name

/-- Reading a gate's name gives the gate back. -/
theorem ofName?_name (g : QubitGate) : ofName? g.name = some g := by
  cases g <;> decide

end QubitGate

end QuditCircuits
