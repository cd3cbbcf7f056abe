import Mathlib.LinearAlgebra.UnitaryGroup
import Mathlib.NumberTheory.Zsqrtd.GaussianInt
import QuditCircuits.Proofs.Circuit.Coherence
import QuditCircuits.Proofs.Flattening
import QuditCircuits.Proofs.Operator.Adjoint
import QuditCircuits.Proofs.Operator.Monomial

/-!
# Circuits of unitary gates are unitary

If the primitive gates inside a circuit have unitary operators at the parameters they are given, then so
has the circuit, and so has every block in it (`Circuit.Reachable.unitary_evaluation`).

The matrix of a primitive operation is lifted along its wires, which keeps it unitary; the matrix of a
block is the product of the matrices of its parts, whose gates lie one level deeper.  So the induction is
along the nesting, and a circuit is the product of its operations.
-/

namespace QuditCircuits

variable {θ K : Type} [CommRing K] [StarRing K] {model : GateModel θ K} {R : Register}

/-! ## Operations and products -/

theorem product_mem_unitary {ops : List (Operation θ)}
    (h : ∀ op ∈ ops, op.matrixOn model R ∈ unitary (Matrix (Fin R.dimension) (Fin R.dimension) K)) :
    product model R ops ∈ unitary (Matrix (Fin R.dimension) (Fin R.dimension) K) := by
  refine Submonoid.list_prod_mem _ fun M hM => ?_
  obtain ⟨op, hop, rfl⟩ := List.mem_map.mp (List.mem_reverse.mp hM)
  exact h op hop

/-- An operation is unitary on its register if its leaves are. -/
theorem Operation.WellFormed.matrixOn_mem_unitary {op : Operation θ} (h : op.WellFormed R)
    (hword : R.dimension < wordBound)
    (hleaves : ∀ leaf ∈ op.leaves, ∀ U, leaf.unitary? model = .ok U → U.Unitary) :
    op.matrixOn model R ∈ unitary (Matrix (Fin R.dimension) (Fin R.dimension) K) := by
  induction hop : op.gate using Gate.induct generalizing op with
  | primitive gate =>
      obtain ⟨U, hU, hregister⟩ := h.exists_unitary? model hword
      have hself : op ∈ op.leaves := by simp [leaves_of_primitive hop]
      have hunitary := (Operator.unitary_iff hregister).mp (hleaves op hself U hU)
      rw [matrixOn_eq_lift h.placement hU hregister]
      exact h.placement.lift_mem_unitary hunitary
  | block name body ih =>
      rw [← product_parts hword h]
      refine product_mem_unitary fun sub hsub => ?_
      obtain ⟨inner, hinner, heq⟩ := exists_gate_eq_of_mem_parts hop hsub
      have hsubleaves : ∀ leaf ∈ sub.leaves, leaf ∈ op.leaves := by
        intro leaf hleaf
        rw [← flatMap_leaves_parts]
        exact List.mem_flatMap.mpr ⟨sub, hsub, hleaf⟩
      exact ih inner hinner (h.of_mem_parts hsub).1
        (fun leaf hleaf => hleaves leaf (hsubleaves leaf hleaf)) heq

/-! ## Circuits -/

namespace Circuit

theorem WellFormed.exists_unitary_unitaryWith? {c : Circuit θ} (h : c.WellFormed)
    (hword : c.register.dimension < wordBound) {params : List θ}
    (hlen : params.length = c.numParams)
    (hleaves : ∀ leaf ∈ c.leavesWith params, ∀ U, leaf.unitary? model = .ok U → U.Unitary) :
    ∃ V, c.unitaryWith? model params = .ok V ∧ V.register = c.register ∧ V.Unitary := by
  obtain ⟨V, hV, hregister, hmatrix⟩ := h.unitaryWith?_eq_ok model hword hlen
  refine ⟨V, hV, hregister, (Operator.unitary_iff hregister).mpr ?_⟩
  rw [hmatrix]
  rw [leavesWith_eq_flatMap] at hleaves
  refine product_mem_unitary fun op hop => ?_
  have hwell := h.wellFormed_of_mem_assignParams hlen hop
  exact hwell.matrixOn_mem_unitary hword fun leaf hleaf =>
    hleaves leaf (List.mem_flatMap.mpr ⟨op, hop, hleaf⟩)

/-- The leaves are primitive, so it is enough that all operators of a gate model are unitary. -/
theorem unitary_of_mem_leavesWith (hmodel : ∀ gate params, (model.operator gate params).Unitary)
    {c : Circuit θ} {params : List θ} {leaf : Operation θ} (hleaf : leaf ∈ c.leavesWith params)
    {U : Operator K} (hU : leaf.unitary? model = .ok U) : U.Unitary := by
  rw [leavesWith_eq_flatMap] at hleaf
  obtain ⟨op, -, hleaf⟩ := List.mem_flatMap.mp hleaf
  have hprimitive := Operation.isBlock_of_mem_leaves hleaf
  cases hgate : leaf.gate with
  | primitive gate =>
      rw [Operation.unitary?, hgate, Gate.unitary?_primitive, GateModel.unitary?_eq_ok_iff] at hU
      exact hU.2.2 ▸ hmodel gate leaf.params
  | block name body =>
      rw [Operation.isBlock, hgate] at hprimitive
      cases hprimitive

/-- The bodies inside a circuit have registers of word size if the circuit has. -/
theorem WellFormed.dimension_lt_of_encloses {c d : Circuit θ} (h : c.WellFormed)
    (hword : c.register.dimension < wordBound) (hd : c.Encloses d) :
    d.register.dimension < wordBound := by
  induction hd with
  | self => exact hword
  | @body d body op hd hop hbody ih =>
      have hplacement := ((h.of_encloses hd).members op hop).placement
      cases hgate : op.gate with
      | primitive gate => rw [hgate] at hbody; cases hbody
      | block name inner =>
          rw [hgate] at hbody hplacement
          cases hbody
          exact hplacement.dimension_lt ih

/-- A circuit that can be built has a unitary operator at all parameters at which its leaves have, and
so has every body inside it, used as a gate under any name. -/
theorem Reachable.unitary_evaluation {c : Circuit θ} (h : c.Reachable) (model : GateModel θ K)
    (hword : c.register.dimension < wordBound) {d : Circuit θ} (hd : c.Encloses d)
    {params : List θ} (hlen : params.length = d.numParams)
    (hleaves : ∀ leaf ∈ d.leavesWith params, ∀ U, leaf.unitary? model = .ok U → U.Unitary) :
    ∃ V, d.unitaryWith? model params = .ok V ∧
      (∀ name, (Gate.block name d).unitary? model params = .ok V) ∧ V.register = d.register ∧
      V.dim = d.register.levels.prod ∧ V.mul V.adjoint = .identity d.register ∧
      V.adjoint.mul V = .identity d.register := by
  have hwell := h.wellFormed
  obtain ⟨V, hV, hregister, hunitary⟩ := (hwell.of_encloses hd).exists_unitary_unitaryWith?
    (hwell.dimension_lt_of_encloses hword hd) hlen hleaves
  refine ⟨V, hV, fun name => ?_, hregister, ?_, ?_, ?_⟩
  · rw [Gate.unitary?_block]
    exact hV
  · exact congrArg Register.dimension hregister
  · exact hregister ▸ hunitary.mul_adjoint
  · exact hregister ▸ hunitary.adjoint_mul

end Circuit

/-! ## An example -/

/-- Gates that reverse the order of the basis states and turn the phase of each by quarters, as often as
its number times the sum of the parameters and the length of the gate's name. -/
def reversingTurns : GateModel Nat GaussianInt :=
  .ofFn fun gate params row col =>
    if row + col + 1 = gate.register.dimension then
      (⟨0, 1⟩ : GaussianInt) ^ (col * (params.sum + gate.name.length))
    else 0

theorem unitary_reversingTurns (gate : Primitive) (params : List Nat) :
    (reversingTurns.operator gate params).Unitary := by
  have hmatrix : (reversingTurns.operator gate params).toMatrix gate.register =
      monomial Fin.rev fun col => (⟨0, 1⟩ : GaussianInt) ^ (col * (params.sum + gate.name.length)) := by
    refine Matrix.ext fun row col => ?_
    have hrev : row.val + col.val + 1 = gate.register.dimension ↔ row = col.rev := by
      rw [Fin.ext_iff, Fin.val_rev]
      omega
    rw [Operator.toMatrix_apply, reversingTurns, GateModel.operator_ofFn,
      Operator.entry_ofFn _ _ row.isLt col.isLt]
    simp only [hrev, monomial_apply]
  have hturn : star (⟨0, 1⟩ : GaussianInt) * ⟨0, 1⟩ = 1 := by decide
  refine (Operator.unitary_iff (R := gate.register) rfl).mpr ?_
  rw [hmatrix]
  refine monomial_mem_unitary Fin.rev_injective fun col => ?_
  rw [star_pow, ← mul_pow, hturn, one_pow]

theorem unitary_evaluation_nestedCircuit :
    nestedCircuit.Reachable ∧ nestedCircuit.register.dimension < wordBound ∧
      (nestedCircuit.leavesWith [1, 2, 3, 4, 5]).map (fun op => (op.gate.name, op.params)) =
        [("rz", [1]), ("cx", []), ("rz", [2]), ("rz", [3]), ("cx", []), ("rz", [4]), ("rz", [5]),
          ("cx", [])] ∧
      (∃ V, nestedCircuit.unitaryWith? reversingTurns [1, 2, 3, 4, 5] = .ok V ∧ V.dim = 8 ∧
        V.mul V.adjoint = .identity nestedCircuit.register) ∧
      ∃ V, nestedPair.unitary? reversingTurns [1, 2, 3] = .ok V ∧
        V.mul V.adjoint = .identity nestedPair.register := by
  have hword : nestedCircuit.register.dimension < wordBound := by decide
  have hnested : (⟨nestedPair, [2, 0], [10, 11, 12]⟩ : Operation Nat) ∈ nestedCircuit.operations :=
    List.mem_of_getElem? (i := 0) rfl
  have hlen : [1, 2, 3, 4, 5].length = nestedCircuit.numParams := by decide
  have hlen' : [1, 2, 3].length = nestedPair.numParams := by decide
  obtain ⟨V, hV, -, -, hdim, hunitary, -⟩ :=
    reachable_nestedCircuit.unitary_evaluation reversingTurns hword .self hlen
      fun leaf hleaf U hU => Circuit.unitary_of_mem_leavesWith unitary_reversingTurns hleaf hU
  obtain ⟨W, -, hW, -, -, hunitary', -⟩ :=
    reachable_nestedCircuit.unitary_evaluation reversingTurns hword (.body .self hnested rfl) hlen'
      fun leaf hleaf U hU => Circuit.unitary_of_mem_leavesWith unitary_reversingTurns hleaf hU
  exact ⟨reachable_nestedCircuit, hword, by decide, ⟨V, hV, hdim, hunitary⟩, W, hW "nested", hunitary'⟩

end QuditCircuits
