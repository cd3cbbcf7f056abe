import QuditCircuits.Gate.Primitive
import QuditCircuits.Parameter

/-!
# Circuits

A circuit runs over a register and is laid out in cycles.  A cycle lists its operations in the order
in which they were put there and keeps, for every wire, the slot of the operation on that wire.  An
operation is a gate on an ordered list of wires with its parameters bound, and a gate is either
primitive or a *block*: a name for a whole circuit that is used as one gate.  The four types are
therefore mutually recursive.

Only gates are recursive data, and everything that is computed along the nesting is computed by
`Gate.fold`, which hands a block the value of each operation of its body.  `Gate.fold_block` says so
in terms of the flat list of operations, and `Gate.induct` is the matching induction principle.  All
other functions of the library on circuits are plain functions on lists.
-/

namespace QuditCircuits

mutual

/-- A gate: a primitive one, or a named circuit that is used as one gate. -/
inductive Gate (θ : Type) : Type
  /-- A gate that is not made of other gates. -/
  | primitive (gate : Primitive)
  /-- A circuit under a name. -/
  | block (name : String) (body : Circuit θ)

/-- A gate on an ordered list of wires, with its parameters. -/
structure Operation (θ : Type) : Type where
  /-- The gate that is applied. -/
  gate : Gate θ
  /-- The wires, in the order of the gate's own wires. -/
  wires : List Wire
  /-- The parameters of the gate. -/
  params : List θ

/-- One cycle of a schedule. -/
structure Cycle (θ : Type) : Type where
  /-- The operations, in the order in which they were added. -/
  operations : List (Operation θ)
  /-- For each wire of the register the position of its operation in `operations`. -/
  slots : List (Option Nat)

/-- A schedule of operations over a register. -/
structure Circuit (θ : Type) : Type where
  /-- The levels of the wires. -/
  register : Register
  /-- The cycles, from first to last. -/
  cycles : List (Cycle θ)

end

variable {θ : Type}

/-! ## Cycles and circuits as lists of operations -/

/-- A circuit without cycles. -/
def Circuit.empty (R : Register) : Circuit θ where
  register := R
  cycles := []

/-- The operations in schedule order: cycle by cycle, and within a cycle as they were added. -/
def Circuit.operations (c : Circuit θ) : List (Operation θ) :=
  c.cycles.flatMap Cycle.operations

/-- The operations in schedule order, each with its cycle. -/
def Circuit.scheduled (c : Circuit θ) : List (Nat × Operation θ) :=
  c.cycles.zipIdx.flatMap fun (cycle, k) => cycle.operations.map fun op => (k, op)

/-! ## Recursion along the nesting -/

section Fold

universe u

variable {α : Type u} (primitive : Primitive → α)
  (block : String → Circuit θ → List (Operation θ × α) → α)

mutual

/-- Computes a value for a gate.  A block is given its name, its body and the operations of the body
in schedule order, each with the value of its gate. -/
def Gate.fold : Gate θ → α
  | .primitive gate => primitive gate
  | .block name body => block name body body.foldParts

/-- The operations of a circuit in schedule order, each with the value of its gate. -/
def Circuit.foldParts : Circuit θ → List (Operation θ × α)
  | ⟨_, cycles⟩ => Cycle.foldAll cycles

/-- The operations of a list of cycles, each with the value of its gate. -/
def Cycle.foldAll : List (Cycle θ) → List (Operation θ × α)
  | [] => []
  | cycle :: rest => cycle.foldParts ++ Cycle.foldAll rest

/-- The operations of one cycle, each with the value of its gate. -/
def Cycle.foldParts : Cycle θ → List (Operation θ × α)
  | ⟨operations, _⟩ => Operation.foldAll operations

/-- A list of operations, each with the value of its gate. -/
def Operation.foldAll : List (Operation θ) → List (Operation θ × α)
  | [] => []
  | op :: rest => (op, op.foldGate) :: Operation.foldAll rest

/-- The value of the gate of an operation. -/
def Operation.foldGate : Operation θ → α
  | ⟨gate, _, _⟩ => gate.fold

end

theorem Operation.foldGate_eq (op : Operation θ) :
    op.foldGate primitive block = op.gate.fold primitive block := by
  cases op
  rfl

theorem Operation.foldAll_eq_map (ops : List (Operation θ)) :
    Operation.foldAll primitive block ops =
      ops.map fun op => (op, op.gate.fold primitive block) := by
  induction ops with
  | nil => rfl
  | cons op rest ih => simp [Operation.foldAll, ih, Operation.foldGate_eq]

theorem Cycle.foldAll_eq_map (cycles : List (Cycle θ)) :
    Cycle.foldAll primitive block cycles =
      (cycles.flatMap Cycle.operations).map fun op => (op, op.gate.fold primitive block) := by
  induction cycles with
  | nil => rfl
  | cons cycle rest ih =>
      cases cycle
      simp [Cycle.foldAll, Cycle.foldParts, ih, Operation.foldAll_eq_map]

/-- The value of a primitive gate. -/
@[simp]
theorem Gate.fold_primitive (gate : Primitive) :
    (Gate.primitive gate : Gate θ).fold primitive block = primitive gate := rfl

/-- The value of a block, from the values of the operations of its body. -/
theorem Gate.fold_block (name : String) (body : Circuit θ) :
    (Gate.block name body).fold primitive block =
      block name body (body.operations.map fun op => (op, op.gate.fold primitive block)) := by
  cases body
  simp [Gate.fold, Circuit.foldParts, Circuit.operations, Cycle.foldAll_eq_map]

end Fold

/-- A property holds of all gates if it holds of the primitive ones and of every block all of whose
operations have it. -/
theorem Gate.induct {motive : Gate θ → Prop} (primitive : ∀ gate, motive (.primitive gate))
    (block : ∀ name body, (∀ op ∈ body.operations, motive op.gate) → motive (.block name body))
    (gate : Gate θ) : motive gate :=
  Gate.rec
    (motive_1 := motive)
    (motive_2 := fun op => motive op.gate)
    (motive_3 := fun cycle => ∀ op ∈ cycle.operations, motive op.gate)
    (motive_4 := fun c => ∀ op ∈ c.operations, motive op.gate)
    (motive_5 := fun ops => ∀ op ∈ ops, motive op.gate)
    (motive_6 := fun cycles => ∀ op ∈ cycles.flatMap Cycle.operations, motive op.gate)
    primitive
    (fun name body ih => block name body ih)
    (fun _ _ _ ih => ih)
    (fun _ _ ih => ih)
    (fun _ _ ih => ih)
    (by simp)
    (fun _ _ head tail => by simpa using ⟨head, tail⟩)
    (by simp)
    (fun cycle rest head tail => by
      intro op hop
      rw [List.flatMap_cons, List.mem_append] at hop
      exact hop.elim (head op) (tail op))
    gate

/-! ## Sizes of circuits -/

namespace Circuit

/-- The number of wires. -/
def numWires (c : Circuit θ) : Nat :=
  c.register.width

/-- The number of cycles, empty ones included. -/
def numCycles (c : Circuit θ) : Nat :=
  c.cycles.length

/-- The number of cycles that hold an operation. -/
def depth (c : Circuit θ) : Nat :=
  c.cycles.countP fun cycle => !cycle.operations.isEmpty

/-- The number of operations. -/
def numOperations (c : Circuit θ) : Nat :=
  c.operations.length

/-- Whether the circuit holds no operation; it may still have cycles. -/
def isEmpty (c : Circuit θ) : Bool :=
  c.cycles.all fun cycle => cycle.operations.isEmpty

/-- The parameters of all operations, in schedule order. -/
def params (c : Circuit θ) : List θ :=
  c.operations.flatMap Operation.params

/-- The number of parameters of all operations. -/
def numParams (c : Circuit θ) : Nat :=
  (c.operations.map fun op => op.params.length).foldr (· + ·) 0

end Circuit

/-! ## What gates and operations show -/

/-- What kind of gate an operation holds: the named gate, or the family. -/
inductive GateKind
  /-- The named gate itself. -/
  | qubit (gate : QubitGate)
  /-- A phase on one level, whichever the level. -/
  | levelPhase
  /-- A clock gate of any number of levels. -/
  | clock
  /-- A shift gate of any number of levels. -/
  | shift
  /-- A block of any body. -/
  | block
  deriving DecidableEq

/-- The text of a gate kind. -/
def GateKind.text : GateKind → String
  | qubit gate => gate.name
  | levelPhase => "pd"
  | clock => "clock"
  | shift => "shift"
  | block => "circuit"

namespace Gate

/-- The name that operations and messages show. -/
def name : Gate θ → String
  | primitive gate => gate.name
  | block name _ => name

/-- The kind of the gate. -/
def kind : Gate θ → GateKind
  | primitive (.qubit gate) => .qubit gate
  | primitive (.levelPhase _) => .levelPhase
  | primitive (.clock _) => .clock
  | primitive (.shift _) => .shift
  | block _ _ => .block

/-- The levels of each wire the gate acts on. -/
def register : Gate θ → Register
  | primitive gate => gate.register
  | block _ body => body.register

/-- The number of wires the gate acts on. -/
def numWires (gate : Gate θ) : Nat :=
  gate.register.width

/-- The number of parameters the gate takes. -/
def numParams : Gate θ → Nat
  | primitive gate => gate.numParams
  | block _ body => body.numParams

/-- The body of a block. -/
def body? : Gate θ → Option (Circuit θ)
  | primitive _ => none
  | block _ body => some body

/-- Whether the gate is a block. -/
def isBlock (gate : Gate θ) : Bool :=
  gate.body?.isSome

end Gate

namespace Operation

/-- Whether the operation acts on a wire. -/
def actsOn (op : Operation θ) (wire : Wire) : Bool :=
  op.wires.contains wire

/-- Whether the operation's gate is a block. -/
def isBlock (op : Operation θ) : Bool :=
  op.gate.isBlock

/-- The first wire that a list repeats, given the wires seen before it. -/
def firstRepeat? : (earlier : List Wire) → List Wire → Option Wire
  | _, [] => none
  | earlier, wire :: rest =>
      if wire ∈ earlier then some wire else firstRepeat? (wire :: earlier) rest

/-- A gate on wires with parameters.  It is refused if the number of wires is wrong, else if a wire
is repeated, else if the number of parameters is wrong. -/
def make? (gate : Gate θ) (wires : List Wire) (params : List θ) :
    Except ShapeError (Operation θ) := do
  if wires.length ≠ gate.numWires then
    throw (.wireCount gate.name gate.numWires wires.length)
  if let some wire := firstRepeat? [] wires then
    throw (.repeatedWire wire (some gate.name))
  checkParameters gate.name gate.numParams params
  return ⟨gate, wires, params⟩

/-- An operation is written as its gate's name, its wires and, if it has any, its parameters. -/
def text [ParameterText θ] (op : Operation θ) : String :=
  op.gate.name ++ "@" ++ Wire.listText op.wires
    ++ if op.params.isEmpty then "" else Parameter.listText op.params

end Operation

namespace Circuit

/-- The number of operations at the top level whose gate is a block. -/
def numBlocks (c : Circuit θ) : Nat :=
  c.operations.countP Operation.isBlock

/-- Adds one to the count of a kind. -/
def countKind (counts : List (GateKind × Nat)) (kind : GateKind) : List (GateKind × Nat) :=
  match counts with
  | [] => [(kind, 1)]
  | (other, n) :: rest =>
      if other = kind then (other, n + 1) :: rest else (other, n) :: countKind rest kind

/-- How many operations of each kind the circuit holds, by first occurrence. -/
def gateCounts (c : Circuit θ) : List (GateKind × Nat) :=
  c.operations.foldl (fun counts op => countKind counts op.gate.kind) []

end Circuit

end QuditCircuits
