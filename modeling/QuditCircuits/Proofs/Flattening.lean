import QuditCircuits.Proofs.Circuit.Evaluation
import QuditCircuits.Proofs.Circuit.Leaves
import QuditCircuits.Proofs.Reachable

/-!
# What flattening keeps

Flattening keeps the operations on every wire, each with its gate, its wires and its parameters, and
it keeps the operator.  Both follow from what opening one level does: the operations are replaced by
their parts up to swaps without a common wire, and neither leaves nor products see such swaps.
-/

namespace QuditCircuits

variable {θ K : Type} [CommRing K]

/-! ## An example -/

/-- A rotation and a controlled flip, under a name. -/
def rotatedPair : Gate Nat :=
  .block "pair" (.ofOperations (.qubits 2)
    [⟨.primitive (.qubit .rz), [0], [0]⟩, ⟨.primitive (.qubit .cx), [0, 1], []⟩])

/-- A named circuit that uses another one with its wires exchanged. -/
def nestedPair : Gate Nat :=
  .block "nested" (.ofOperations (.qubits 2)
    [⟨rotatedPair, [1, 0], [0]⟩, ⟨.primitive (.qubit .rz), [1], [0]⟩, ⟨rotatedPair, [0, 1], [0]⟩])

/-- Blocks of different depths on three qubits, two of them in one cycle. -/
def nestedCircuit : Circuit Nat :=
  .ofOperations (.qubits 3)
    [⟨nestedPair, [2, 0], [10, 11, 12]⟩, ⟨.primitive (.qubit .rz), [1], [13]⟩,
      ⟨rotatedPair, [1, 2], [14]⟩]

theorem reachable_of_body?_rotatedPair (body : Circuit Nat) (h : rotatedPair.body? = some body) :
    body.Reachable := by
  cases h
  exact .ofOperations _ (by decide) (by simp [Gate.body?])

theorem reachable_nestedCircuit : nestedCircuit.Reachable := by
  have hpair := reachable_of_body?_rotatedPair
  have hnested : ∀ body, nestedPair.body? = some body → body.Reachable := by
    rintro _ ⟨⟩
    refine .ofOperations _ (by decide) ?_
    simpa [Gate.body?] using hpair
  refine .ofOperations _ (by decide) ?_
  simpa [Gate.body?] using ⟨hnested, hpair⟩

/-- Integer matrices that tell gates, wires and parameters apart. -/
def countingModel : GateModel Nat ℤ :=
  .ofFn fun gate params row col =>
    (gate.name.length + 2 * row + 3 * col + 5 * params.sum : Nat)

/-! ## The operations on every wire -/

/-- Flattening keeps what happens on every wire: the sequence of operations, with their gates, wires
and parameters, is that of the leaves.  It also keeps how often each operation occurs. -/
theorem Circuit.Reachable.flatten_leaves {c : Circuit θ} (h : c.Reachable) :
    (∀ wire, sequenceOn wire c.flatten.1.operations = sequenceOn wire c.leaves) ∧
      c.flatten.1.operations.Perm c.leaves := by
  have hreordered := h.wellFormed.reordered_flatten
  exact ⟨hreordered.sequenceOn_eq, hreordered.perm⟩

theorem flatten_leaves_nestedCircuit :
    nestedCircuit.Reachable ∧
      nestedCircuit.leaves.map (fun op => (op.gate.name, op.wires, op.params)) =
        [("rz", [0], [10]), ("cx", [0, 2], []), ("rz", [0], [11]), ("rz", [2], [12]),
          ("cx", [2, 0], []), ("rz", [1], [13]), ("rz", [1], [14]), ("cx", [1, 2], [])] ∧
      (∀ wire, sequenceOn wire nestedCircuit.flatten.1.operations =
        sequenceOn wire nestedCircuit.leaves) ∧
      nestedCircuit.flatten.1.operations.Perm nestedCircuit.leaves :=
  ⟨reachable_nestedCircuit, by decide, reachable_nestedCircuit.flatten_leaves⟩

/-! ## The operator -/

/-- Flattening keeps the operator.  One level down, the operator of an operation is the product of the
operators of the operations it becomes, so a block hands its parameters to the operations of its body
in the same way when it is evaluated and when it is opened. -/
theorem Circuit.Reachable.unitary?_flatten {c : Circuit θ} (h : c.Reachable)
    (model : GateModel θ K) (hword : c.register.dimension < wordBound) :
    (∃ U, c.unitary? model = .ok U ∧ c.flatten.1.unitary? model = .ok U) ∧
      ∀ op ∈ c.operations, ∃ V, op.unitary? model = .ok V ∧
        (V.place op.wires c.register).toMatrix c.register =
          product model c.register op.parts := by
  have hwell := h.wellFormed
  constructor
  · obtain ⟨U, hU, hregister, hmatrix⟩ := hwell.unitary?_eq_ok model hword
    obtain ⟨V, hV, hregister', hmatrix'⟩ :=
      hwell.flatten.unitary?_eq_ok model (c.register_flatten.symm ▸ hword)
    rw [c.register_flatten] at hregister' hmatrix'
    have hUV : V = U := by
      refine Operator.eq_of_toMatrix_eq hregister' hregister ?_
      rw [hmatrix', hwell.product_flatten hword, hmatrix]
    exact ⟨U, hU, hUV ▸ hV⟩
  · intro op hop
    obtain ⟨V, hV, -⟩ := (hwell.members op hop).exists_unitary? model hword
    refine ⟨V, hV, ?_⟩
    rw [product_parts hword (hwell.members op hop), Operation.matrixOn, hV]

theorem unitary?_flatten_nestedCircuit :
    nestedCircuit.Reachable ∧ nestedCircuit.register.dimension < wordBound ∧
      nestedCircuit.numBlocks = 2 ∧
      ∃ U, nestedCircuit.unitary? countingModel = .ok U ∧
        nestedCircuit.flatten.1.unitary? countingModel = .ok U :=
  have hword : nestedCircuit.register.dimension < wordBound := by decide
  ⟨reachable_nestedCircuit, hword, by decide,
    (reachable_nestedCircuit.unitary?_flatten countingModel hword).1⟩

end QuditCircuits
