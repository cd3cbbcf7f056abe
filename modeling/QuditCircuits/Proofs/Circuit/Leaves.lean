import QuditCircuits.Proofs.Circuit.Opening

/-!
# The leaves of a circuit

The leaves are the primitive operations inside a circuit at any depth, listed by walking every block
where it stands: wires are followed through the wires of the enclosing blocks, and parameters are cut
up in schedule order at every level.  This is a recursion along the nesting and knows nothing of
cycles, while flattening opens level after level and lays out cycles anew each time.  The two give the
same operations up to swaps without a common wire (`WellFormed.reordered_flatten`).
-/

namespace QuditCircuits

variable {θ : Type}

/-! ## Walking a circuit -/

/-- The leaves of the operations of a body that lies on the wires `outer`, given the leaves of each
gate as a function of its wires and its parameters. -/
def collectLeaves : List (Operation θ × (List Wire → List θ → List (Operation θ))) →
    (outer : List Wire) → List θ → List (Operation θ)
  | [], _, _ => []
  | (op, leaves) :: rest, outer, params =>
      leaves (op.wires.map fun wire => outer.getD wire wire) (params.take op.params.length) ++
        collectLeaves rest outer (params.drop op.params.length)

/-- The leaves of a gate on some wires and with some parameters. -/
def Gate.leaves (gate : Gate θ) : List Wire → List θ → List (Operation θ) :=
  gate.fold (fun gate wires params => [⟨.primitive gate, wires, params⟩])
    fun _ _ parts => collectLeaves parts

/-- The leaves of an operation. -/
def Operation.leaves (op : Operation θ) : List (Operation θ) :=
  op.gate.leaves op.wires op.params

/-- The leaves of a circuit: those of its operations on its own wires, with its own parameters. -/
def Circuit.leaves (c : Circuit θ) : List (Operation θ) :=
  collectLeaves (c.operations.map fun op => (op, op.gate.leaves)) (List.range c.numWires) c.params

/-- The leaves of a circuit with other parameters, assigned in schedule order. -/
def Circuit.leavesWith (c : Circuit θ) (params : List θ) : List (Operation θ) :=
  collectLeaves (c.operations.map fun op => (op, op.gate.leaves)) (List.range c.numWires) params

theorem collectLeaves_eq_flatMap (ops : List (Operation θ)) (outer : List Wire)
    (params : List θ) :
    collectLeaves (ops.map fun op => (op, op.gate.leaves)) outer params =
      (assignParams ops params).flatMap fun op => (op.onto outer).leaves := by
  induction ops generalizing params with
  | nil => rfl
  | cons op ops ih =>
      rw [List.map_cons, collectLeaves, ih, assignParams, List.flatMap_cons]
      rfl

/-- The leaves at some parameters are those of the operations with their share of the parameters. -/
theorem Circuit.leavesWith_eq_flatMap (c : Circuit θ) (params : List θ) :
    c.leavesWith params = (assignParams c.operations params).flatMap Operation.leaves := by
  rw [leavesWith, collectLeaves_eq_flatMap]
  simp only [Operation.onto_range]

/-- The leaves of a circuit are those of its operations, one after the other. -/
theorem Circuit.leaves_eq_flatMap (c : Circuit θ) :
    c.leaves = c.operations.flatMap Operation.leaves := by
  have hown : c.leaves = c.leavesWith c.params := rfl
  rw [hown, leavesWith_eq_flatMap, params, assignParams_flatMap_params]

namespace Operation

theorem leaves_of_primitive {op : Operation θ} {gate : Primitive}
    (h : op.gate = .primitive gate) : op.leaves = [op] := by
  obtain ⟨_, wires, params⟩ := op
  cases h
  rfl

/-- An operation that is no block is its only leaf. -/
theorem leaves_of_isBlock_eq_false {op : Operation θ} (h : op.isBlock = false) :
    op.leaves = [op] := by
  cases hgate : op.gate with
  | primitive gate => exact leaves_of_primitive hgate
  | block name body =>
      rw [isBlock, hgate] at h
      cases h

/-- Opening an operation does not change its leaves. -/
theorem flatMap_leaves_parts (op : Operation θ) : op.parts.flatMap leaves = op.leaves := by
  cases h : op.gate with
  | primitive gate => rw [parts_primitive h, List.flatMap_singleton]
  | block name body =>
      rw [parts_block h, List.flatMap_map, leaves, h, Gate.leaves, Gate.fold_block]
      exact (collectLeaves_eq_flatMap body.operations op.wires op.params).symm

theorem exists_gate_eq_of_mem_parts {op sub : Operation θ} {name : String} {body : Circuit θ}
    (h : op.gate = .block name body) (hsub : sub ∈ op.parts) :
    ∃ inner ∈ body.operations, sub.gate = inner.gate := by
  have hmem := List.mem_map_of_mem (f := gate) hsub
  rw [map_gate_parts h] at hmem
  obtain ⟨inner, hinner, hgate⟩ := List.mem_map.mp hmem
  exact ⟨inner, hinner, hgate.symm⟩

/-- Leaves are no blocks. -/
theorem isBlock_of_mem_leaves {op leaf : Operation θ} (h : leaf ∈ op.leaves) :
    leaf.isBlock = false := by
  induction hop : op.gate using Gate.induct generalizing op with
  | primitive gate =>
      rw [leaves_of_primitive hop, List.mem_singleton] at h
      rw [h, isBlock, hop]
      rfl
  | block name body ih =>
      rw [← flatMap_leaves_parts] at h
      obtain ⟨sub, hsub, hleaf⟩ := List.mem_flatMap.mp h
      obtain ⟨inner, hinner, heq⟩ := exists_gate_eq_of_mem_parts hop hsub
      exact ih inner hinner hleaf heq

/-- Leaves act on wires of their operation only. -/
theorem WellFormed.mem_wires_of_mem_leaves {R : Register} {op : Operation θ}
    (h : op.WellFormed R) {leaf : Operation θ} (hleaf : leaf ∈ op.leaves) {wire : Wire}
    (hwire : wire ∈ leaf.wires) : wire ∈ op.wires := by
  induction hop : op.gate using Gate.induct generalizing op with
  | primitive gate =>
      rw [leaves_of_primitive hop, List.mem_singleton] at hleaf
      exact hleaf ▸ hwire
  | block name body ih =>
      -- A leaf of a block is a leaf of one of its parts, and their gates lie one level deeper.
      rw [← flatMap_leaves_parts] at hleaf
      obtain ⟨sub, hsub, hleaf⟩ := List.mem_flatMap.mp hleaf
      obtain ⟨hwell, hwires⟩ := h.of_mem_parts hsub
      obtain ⟨inner, hinner, heq⟩ := exists_gate_eq_of_mem_parts hop hsub
      exact hwires wire (ih inner hinner hwell hleaf heq)

/-- The leaves of a moved operation are its leaves, moved. -/
theorem WellFormed.leaves_onto {S : Register} {op : Operation θ} (h : op.WellFormed S)
    (outer : List Wire) : (op.onto outer).leaves = op.leaves.map (Operation.onto outer) := by
  induction hop : op.gate using Gate.induct generalizing op with
  | primitive gate =>
      have honto : (op.onto outer).gate = .primitive gate := hop
      rw [leaves_of_primitive hop, leaves_of_primitive honto, List.map_singleton]
  | block name body ih =>
      rw [← flatMap_leaves_parts, ← flatMap_leaves_parts op, h.parts_onto, List.flatMap_map,
        List.map_flatMap]
      refine List.flatMap_congr fun sub hsub => ?_
      obtain ⟨inner, hinner, heq⟩ := exists_gate_eq_of_mem_parts hop hsub
      exact ih inner hinner (h.of_mem_parts hsub).1 heq

end Operation

/-! ## Flattening gives the leaves -/

namespace Circuit

theorem isBlock_of_mem_leaves {c : Circuit θ} {leaf : Operation θ} (h : leaf ∈ c.leaves) :
    leaf.isBlock = false := by
  rw [leaves_eq_flatMap] at h
  obtain ⟨op, -, hleaf⟩ := List.mem_flatMap.mp h
  exact Operation.isBlock_of_mem_leaves hleaf

/-- Opening a level keeps the leaves, up to swaps without a common wire. -/
theorem WellFormed.reordered_leaves_openBlocks {c : Circuit θ} (h : c.WellFormed) :
    Reordered c.openBlocks.leaves c.leaves := by
  have hopen := h.openBlocks
  have hreordered := h.reordered_openBlocks.flatMap (f := Operation.leaves) fun op hop _ hleaf _ =>
    (hopen.members op hop).mem_wires_of_mem_leaves hleaf
  rw [leaves_eq_flatMap, leaves_eq_flatMap]
  rw [List.flatMap_assoc] at hreordered
  simpa only [Operation.flatMap_leaves_parts] using hreordered

/-- A circuit without blocks is its own list of leaves. -/
theorem leaves_eq_operations {c : Circuit θ} (h : ∀ op ∈ c.operations, op.isBlock = false) :
    c.leaves = c.operations := by
  have hleaves : ∀ op ∈ c.operations, op.leaves = [op] :=
    fun op hop => Operation.leaves_of_isBlock_eq_false (h op hop)
  rw [leaves_eq_flatMap, List.flatMap_congr hleaves, List.flatMap_singleton']

/-- Flattening lists the leaves, up to swaps without a common wire. -/
theorem WellFormed.reordered_flatten {c : Circuit θ} (h : c.WellFormed) :
    Reordered c.flatten.1.operations c.leaves := by
  have hflat : c.flatten.1.WellFormed ∧ Reordered c.flatten.1.leaves c.leaves :=
    flatten_induct (P := fun d => d.WellFormed ∧ Reordered d.leaves c.leaves)
      (fun d hd => ⟨hd.1.openBlocks, hd.1.reordered_leaves_openBlocks.trans hd.2⟩)
      ⟨h, .refl _⟩
  rw [leaves_eq_operations c.isBlock_of_mem_flatten] at hflat
  exact hflat.2

end Circuit
end QuditCircuits
