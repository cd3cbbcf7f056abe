import QuditCircuits.Circuit.Schedule

/-!
# Replacing operations

Operations are replaced in one step and all or nothing.  Every pair of a point and a new operation
is first checked against the circuit as it is: the point has to name an operation that the caller
accepts and that no earlier point names, and the new operation has to fit the register and act on
exactly the wires of the one it replaces, in any order.  Only when all pairs have passed are the new
operations put into the slots of the old ones.

The pairs are checked in order, and a pair's own checks in the order above, so the error is that of
the first pair that fails.  Since every new operation takes over the wires of the old one in the same
cycle, the rest of the schedule is not affected.
-/

namespace QuditCircuits

variable {θ : Type}

/-- Whether two lists hold the same wires, in whatever order. -/
def sameWires (wires wires' : List Wire) : Bool :=
  wires.all wires'.contains && wires'.all wires.contains

/-- A replacement that has passed its checks: a slot of a cycle and its new operation. -/
structure Replacement (θ : Type) where
  /-- The cycle. -/
  cycle : Nat
  /-- The slot in the cycle. -/
  slot : Nat
  /-- The new operation. -/
  operation : Operation θ

namespace Circuit

/-- Checks one pair and finds the slot of the operation to be replaced.  `earlier` lists the slots
that were found before, each with the point that named it. -/
def resolve (c : Circuit θ) (accepts : Operation θ → Bool)
    (earlier : List ((Nat × Nat) × Point)) (point : Point) (op : Operation θ) :
    Except (SiteError θ) Nat := do
  match c.locate? point with
  | none => throw (.noOperation point)
  | some (slot, current) =>
      if !accepts current then throw (.unexpectedOperation point current)
      match earlier.lookup (point.cycle, slot) with
      | some other => throw (.sameOperation point other)
      | none =>
          SiteError.ofShape (c.checkOperation op)
          if !sameWires current.wires op.wires then
            throw (.otherWires point op.gate.name current.wires op.wires)
          return slot

/-- Checks the pairs one after the other against the unchanged circuit. -/
def planReplacements (c : Circuit θ) (accepts : Operation θ → Bool) :
    (earlier : List ((Nat × Nat) × Point)) → List (Point × Operation θ) →
    Except (SiteError θ) (List (Replacement θ))
  | _, [] => .ok []
  | earlier, (point, op) :: rest => do
      let slot ← c.resolve accepts earlier point op
      let others ← c.planReplacements accepts (((point.cycle, slot), point) :: earlier) rest
      return ⟨point.cycle, slot, op⟩ :: others

/-- Puts an operation into an occupied slot. -/
def overwrite (c : Circuit θ) (r : Replacement θ) : Circuit θ :=
  { c with cycles := c.cycles.modify r.cycle fun cycle => cycle.overwrite r.slot r.operation }

end Circuit

/-- Replaces the operation at `points[i]` with `ops[i]`, for all `i` or not at all.  The operations are
written one after the other, which cannot fail any more. -/
def Mutation.replace (points : List Point) (ops : List (Operation θ))
    (accepts : Operation θ → Bool) : Mutation θ (SiteError θ) Unit := do
  if points.length ≠ ops.length then throw (.countMismatch points.length ops.length)
  let plan ← Program.query fun c => c.planReplacements accepts [] (points.zip ops)
  plan.forM fun r => modify fun c => c.overwrite r

/-- Replaces the operation at `points[i]` with `ops[i]`, for all `i` or not at all. -/
def Circuit.replace? (c : Circuit θ) (points : List Point) (ops : List (Operation θ))
    (accepts : Operation θ → Bool) : Except (SiteError θ) (Circuit θ) :=
  (Mutation.replace points ops accepts).changed? c

end QuditCircuits
