import QuditCircuits.Circuit.SiteError
import QuditCircuits.Program

/-!
# Scheduling

Operations are appended as early as possible: an operation lands in the cycle after the last one
that uses any of its wires, and a new cycle is opened only when that is the end of the circuit.
Removing an operation leaves its cycle in place, also when the cycle becomes empty.

The slots of a cycle are kept up to date by each change: adding an operation marks its wires,
removing one clears its wires and moves the slots behind it down by one, and putting an operation
into an occupied slot marks its wires with that slot.

A change is a program over the circuit that it changes (`Mutation`).  Its functional form, which gives
the changed circuit back, ends in a question mark.
-/

namespace QuditCircuits

variable {θ : Type}

/-! ## One cycle -/

namespace Cycle

/-- A cycle without operations over a register of `width` wires. -/
def empty (width : Nat) : Cycle θ where
  operations := []
  slots := List.replicate width none

/-- The slot of the operation on a wire. -/
def slot? (cycle : Cycle θ) (wire : Wire) : Option Nat :=
  cycle.slots[wire]?.join

/-- Whether no operation of the cycle uses one of the wires. -/
def isFree (cycle : Cycle θ) (wires : List Wire) : Bool :=
  wires.all fun wire => (cycle.slot? wire).isNone

/-- Marks wires with a slot. -/
def mark (slots : List (Option Nat)) (wires : List Wire) (slot : Nat) : List (Option Nat) :=
  wires.foldl (fun slots wire => slots.set wire (some slot)) slots

/-- Adds an operation behind the others.  Its wires are meant to be free. -/
def insert (cycle : Cycle θ) (op : Operation θ) : Cycle θ where
  operations := cycle.operations ++ [op]
  slots := mark cycle.slots op.wires cycle.operations.length

/-- The slot that an operation has after the one in `removed` is taken out. -/
def shiftSlot (removed slot : Nat) : Option Nat :=
  if slot = removed then none else if removed < slot then some (slot - 1) else some slot

/-- Takes the operation out of a slot. -/
def erase (cycle : Cycle θ) (slot : Nat) : Cycle θ where
  operations := cycle.operations.eraseIdx slot
  slots := cycle.slots.map fun entry => entry.bind (shiftSlot slot)

/-- Puts an operation into an occupied slot. -/
def overwrite (cycle : Cycle θ) (slot : Nat) (op : Operation θ) : Cycle θ where
  operations := cycle.operations.set slot op
  slots := mark cycle.slots op.wires slot

end Cycle

/-! ## Looking up points -/

namespace Circuit

/-- The operation at a point, with its slot in the cycle. -/
def locate? (c : Circuit θ) (point : Point) : Option (Nat × Operation θ) := do
  let cycle ← c.cycles[point.cycle]?
  let slot ← cycle.slot? point.wire
  let op ← cycle.operations[slot]?
  return (slot, op)

/-- The operation at a point. -/
def get? (c : Circuit θ) (point : Point) : Option (Operation θ) :=
  (c.locate? point).map Prod.snd

/-! ## Appending -/

/-- The cycle in which an operation on the given wires lands: one after the last cycle that uses one
of them, the first cycle if none does. -/
def landing (wires : List Wire) : List (Cycle θ) → Nat
  | [] => 0
  | cycle :: rest =>
      match landing wires rest with
      | 0 => if cycle.isFree wires then 0 else 1
      | n + 1 => n + 2

/-- Refuses an operation on a wire that the register does not have or that has other levels. -/
def checkOperation (c : Circuit θ) (op : Operation θ) : Except ShapeError Unit :=
  (op.wires.zip op.gate.register.levels).forM fun (wire, levels) =>
    c.register.checkWire (some op.gate.name) wire levels

/-- The circuit with one more cycle, without operations, at the end. -/
def extended (c : Circuit θ) : Circuit θ :=
  { c with cycles := c.cycles ++ [Cycle.empty c.numWires] }

/-- The circuit with an operation added to a cycle that exists. -/
def insertInto (c : Circuit θ) (k : Nat) (op : Operation θ) : Circuit θ :=
  { c with cycles := c.cycles.modify k fun cycle => cycle.insert op }

/-- The circuit with the operation in a slot of a cycle taken out. -/
def eraseFrom (c : Circuit θ) (k slot : Nat) : Circuit θ :=
  { c with cycles := c.cycles.modify k fun cycle => cycle.erase slot }

/-- The operation at a point with its slot, refused if there is none. -/
def locateOrFail (c : Circuit θ) (point : Point) : Except (SiteError θ) (Nat × Operation θ) :=
  match c.locate? point with
  | none => .error (.noOperation point)
  | some found => .ok found

end Circuit

/-- Programs that change a circuit. -/
abbrev Mutation (θ ε : Type) : Type → Type :=
  Program ε (Circuit θ)

namespace Mutation

/-- Adds an operation to the cycle in which it lands, and before that a cycle at the end if it lands
there. -/
def land {ε : Type} (op : Operation θ) : Mutation θ ε Nat := do
  let c ← get
  let k := Circuit.landing op.wires c.cycles
  if k = c.numCycles then modify Circuit.extended
  modify fun c => c.insertInto k op
  return k

/-- Appends an operation as early as its wires allow.  The result names it by its first wire.  An
operation that does not fit the register is refused, and so is one that acts on no wire. -/
def append (op : Operation θ) : Mutation θ ShapeError Point := do
  Program.query fun c => c.checkOperation op
  match op.wires with
  | [] => throw (.wireCount op.gate.name 1 0)
  | anchor :: _ => return ⟨← land op, anchor⟩

/-- Makes an operation and appends it. -/
def appendGate (gate : Gate θ) (wires : List Wire) (params : List θ) :
    Mutation θ ShapeError Point := do
  let op ← Program.query fun _ => Operation.make? gate wires params
  append op

/-- Takes out the operation at a point.  The cycle stays. -/
def remove (point : Point) : Mutation θ (SiteError θ) (Operation θ) := do
  let (slot, op) ← Program.query fun c => c.locateOrFail point
  modify fun c => c.eraseFrom point.cycle slot
  return op

end Mutation

namespace Circuit

/-- Appends an operation. -/
def append? (c : Circuit θ) (op : Operation θ) : Except ShapeError (Point × Circuit θ) :=
  (Mutation.append op).outcome c

/-- Makes an operation and appends it. -/
def appendGate? (c : Circuit θ) (gate : Gate θ) (wires : List Wire) (params : List θ) :
    Except ShapeError (Point × Circuit θ) :=
  (Mutation.appendGate gate wires params).outcome c

/-- Takes out the operation at a point. -/
def remove? (c : Circuit θ) (point : Point) : Except (SiteError θ) (Operation θ × Circuit θ) :=
  (Mutation.remove point).outcome c

end Circuit

end QuditCircuits
