import QuditCircuits.Proofs.Circuit.Accesses
import QuditCircuits.Proofs.Flattening

/-!
# Circuits that can be built have no access out of range

The functions that stop at an access out of range never do so on a circuit that can be built, whatever
was removed, replaced or flattened before and however deep its blocks are nested.  Flattening makes new
operations without checking them again; it meets no fault on any level because what it makes is
well-formed too.
-/

namespace QuditCircuits

variable {θ K : Type} [Zero K] [One K] [Add K] [Mul K] [AddProduct K]

/-- Look-up, scanning, flattening and evaluation meet no fault: every slot that is read holds an
operation, every operation has a first wire, parameters are split within bounds and used up at every
level, wires of a body are wires of its block, and every operation of a body lands inside its run on
free wires.  The results are those of the library. -/
theorem Circuit.Reachable.no_access_fault {c : Circuit θ} (h : c.Reachable) :
    (∀ point, c.getStrict point = .ok (c.get? point)) ∧
      (∀ op ∈ c.operations, ∃ anchor, op.readAnchor = .ok anchor) ∧
      (∀ rule : SubstitutionRule θ, c.scanStrict rule.holdsSource = .ok (rule.sites c)) ∧
      c.flattenStrict = .ok c.flatten ∧
      ∀ (model : GateModel θ K) params,
        c.unitaryStrict model params = .ok (c.unitaryWith? model params) := by
  have hwell := h.wellFormed
  refine ⟨hwell.getStrict_eq_ok, fun op hop => ?_, fun rule => hwell.scanStrict_eq_ok _,
    hwell.flattenStrict_eq_ok, fun model => c.unitaryStrict_eq_ok model⟩
  obtain ⟨anchor, hanchor, -⟩ := (hwell.members op hop).exists_anchor
  exact ⟨anchor, hanchor⟩

theorem no_access_fault_nestedCircuit :
    nestedCircuit.Reachable ∧ nestedCircuit.numParams = 5 ∧ nestedCircuit.flatten.2 = 4 ∧
      nestedCircuit.getStrict ⟨0, 2⟩ = .ok (some ⟨nestedPair, [2, 0], [10, 11, 12]⟩) ∧
      nestedCircuit.flattenStrict = .ok nestedCircuit.flatten ∧
      nestedCircuit.unitaryStrict countingModel [1, 2, 3, 4, 5] =
        .ok (nestedCircuit.unitaryWith? countingModel [1, 2, 3, 4, 5]) := by
  obtain ⟨hget, -, -, hflatten, hunitary⟩ :=
    Circuit.Reachable.no_access_fault (K := ℤ) reachable_nestedCircuit
  exact ⟨reachable_nestedCircuit, by decide, by decide +kernel, hget ⟨0, 2⟩, hflatten,
    hunitary countingModel [1, 2, 3, 4, 5]⟩

/-- A block of two wires that was put on one wire, and parameters that its body does not take. -/
example :
    (⟨.qubits 1, [⟨[⟨rotatedPair, [0], [5]⟩], [some 0]⟩]⟩ : Circuit Nat).flattenStrict =
        .error (.unknownWire 1) ∧
      (⟨.qubits 2, [⟨[⟨rotatedPair, [0, 1], [5, 6]⟩], [some 0, some 0]⟩]⟩ :
        Circuit Nat).flattenStrict = .error (.unusedParameters 1) := by
  constructor <;> cbv

end QuditCircuits
