import QuditCircuits.Circuit.Basic

/-!
# Equality of gates and circuits

Gates, operations, cycles and circuits are compared part by part, parameters with the comparison of
their own type.  Doubles compare as numbers, so a circuit that holds an undefined parameter differs
from itself, and the two zeros are the same parameter.  Two cycles are equal when their lists of
operations and their lookups of slots are.
-/

namespace QuditCircuits

variable {θ : Type} [BEq θ]

mutual

/-- Equality of gates: the same primitive gate, or the same name over equal bodies. -/
def Gate.beq : Gate θ → Gate θ → Bool
  | .primitive g, .primitive h => g == h
  | .block name body, .block name' body' => name == name' && body.beq body'
  | _, _ => false
termination_by structural gate => gate

/-- Equality of circuits: the same register and equal cycles. -/
def Circuit.beq : Circuit θ → Circuit θ → Bool
  | ⟨register, cycles⟩, ⟨register', cycles'⟩ =>
      register == register' && Cycle.beqAll cycles cycles'
termination_by structural c => c

/-- Equality of lists of cycles. -/
def Cycle.beqAll : List (Cycle θ) → List (Cycle θ) → Bool
  | [], [] => true
  | cycle :: rest, cycle' :: rest' => cycle.beq cycle' && Cycle.beqAll rest rest'
  | _, _ => false
termination_by structural cycles => cycles

/-- Equality of cycles: equal operations in the same order, and the same slots. -/
def Cycle.beq : Cycle θ → Cycle θ → Bool
  | ⟨operations, slots⟩, ⟨operations', slots'⟩ =>
      Operation.beqAll operations operations' && slots == slots'
termination_by structural cycle => cycle

/-- Equality of lists of operations. -/
def Operation.beqAll : List (Operation θ) → List (Operation θ) → Bool
  | [], [] => true
  | op :: rest, op' :: rest' => op.beq op' && Operation.beqAll rest rest'
  | _, _ => false
termination_by structural ops => ops

/-- Equality of operations: equal gates on the same wires with equal parameters. -/
def Operation.beq : Operation θ → Operation θ → Bool
  | ⟨gate, wires, params⟩, ⟨gate', wires', params'⟩ =>
      gate.beq gate' && wires == wires' && params == params'
termination_by structural op => op

end

instance : BEq (Gate θ) := ⟨Gate.beq⟩

instance : BEq (Operation θ) := ⟨Operation.beq⟩

instance : BEq (Cycle θ) := ⟨Cycle.beq⟩

instance : BEq (Circuit θ) := ⟨Circuit.beq⟩

/-- A primitive gate is equal to that gate alone. -/
theorem Gate.beq_primitive_iff (gate : Gate θ) (g : Primitive) :
    (gate == .primitive g) = true ↔ gate = .primitive g := by
  cases gate with
  | primitive h =>
      change (h == g) = true ↔ _
      simp
  | block name body =>
      change false = true ↔ _
      simp

/-- Comparing lists of operations is comparing them as lists. -/
theorem Operation.beqAll_eq (xs ys : List (Operation θ)) :
    Operation.beqAll xs ys = (xs == ys) := by
  induction xs generalizing ys with
  | nil => cases ys <;> rfl
  | cons x rest ih =>
      cases ys with
      | nil => rfl
      | cons y ys =>
          change (x.beq y && Operation.beqAll rest ys) = (x.beq y && (rest == ys))
          rw [ih]

/-- Comparing lists of cycles is comparing them as lists. -/
theorem Cycle.beqAll_eq (xs ys : List (Cycle θ)) : Cycle.beqAll xs ys = (xs == ys) := by
  induction xs generalizing ys with
  | nil => cases ys <;> rfl
  | cons x rest ih =>
      cases ys with
      | nil => rfl
      | cons y ys =>
          change (x.beq y && Cycle.beqAll rest ys) = (x.beq y && (rest == ys))
          rw [ih]

/-- Equality of circuits in terms of their parts. -/
theorem Circuit.beq_eq (c d : Circuit θ) :
    (c == d) = (c.register == d.register && c.cycles == d.cycles) := by
  obtain ⟨R, cycles⟩ := c
  obtain ⟨S, cycles'⟩ := d
  change (R == S && Cycle.beqAll cycles cycles') = _
  rw [Cycle.beqAll_eq]

/-- Equality of cycles in terms of their parts. -/
theorem Cycle.beq_eq (c d : Cycle θ) :
    (c == d) = (c.operations == d.operations && c.slots == d.slots) := by
  obtain ⟨ops, slots⟩ := c
  obtain ⟨ops', slots'⟩ := d
  change (Operation.beqAll ops ops' && slots == slots') = _
  rw [Operation.beqAll_eq]

end QuditCircuits
