import QuditCircuits.Proofs.Circuit.Coherence
import QuditCircuits.Proofs.Circuit.Leaves
import QuditCircuits.Proofs.Pipeline.Passes
import QuditCircuits.Proofs.Reachable

/-!
# What a run of a rule computes

The operations after a run are read off the circuit before it, without cycles and without blocks: walk
the top level in schedule order, put the leaves of the template in the place of each operation that
holds the source, on its wires, and the leaves of every other operation in its own place
(`SubstitutionRule.expansion`).  A run shows exactly these operations on every wire, and each as often.

The expansion looks at the top level only.  A source that lies inside a block is one of the leaves of
the block, and a source inside the template is one of the leaves of the template; neither is replaced,
which `run_pass_expansion` states as a count.
-/

namespace QuditCircuits.SubstitutionRule

variable {θ : Type} {F : PropertyFamily}

/-- What a run makes of one operation of the top level. -/
def expand (rule : SubstitutionRule θ) (op : Operation θ) : List (Operation θ) :=
  if rule.holdsSource op then rule.templateBody.leaves.map (Operation.onto op.wires) else op.leaves

/-- The operations of the top level, each with what a run makes of it in its place. -/
def expansion (rule : SubstitutionRule θ) (c : Circuit θ) : List (Operation θ) :=
  c.operations.flatMap rule.expand

variable {rule : SubstitutionRule θ} {c c' : Circuit θ}

/-! ## The expansion lists the leaves after substitution -/

/-- The block around the template has the leaves of the template, with the template's own parameters
and on the wires of the block. -/
theorem leaves_templateOn (h : rule.templateBody.WellFormed) (wires : List Wire) :
    (rule.templateOn wires).leaves = rule.templateBody.leaves.map (Operation.onto wires) := by
  have hparts : (rule.templateOn wires).parts =
      rule.templateBody.operations.map (Operation.onto wires) := by
    rw [Operation.parts_block (show (rule.templateOn wires).gate = .block _ _ from rfl)]
    exact congrArg (List.map (Operation.onto wires)) (assignParams_flatMap_params _)
  rw [← Operation.flatMap_leaves_parts, hparts, List.flatMap_map, Circuit.leaves_eq_flatMap,
    List.map_flatMap]
  exact List.flatMap_congr fun op hop => (h.members op hop).leaves_onto wires

theorem leaves_exchange (h : rule.templateBody.WellFormed) (op : Operation θ) :
    (rule.exchange op).leaves = rule.expand op := by
  rw [exchange, expand]
  split
  · exact leaves_templateOn h op.wires
  · rfl

theorem leaves_of_substitute_sites (h : c.WellFormed) (htemplate : rule.templateBody.WellFormed)
    (hsubstitute : rule.substitute c (rule.sites c) = .ok c') : c'.leaves = rule.expansion c := by
  rw [Circuit.leaves_eq_flatMap, operations_of_substitute_sites h hsubstitute, List.flatMap_map]
  exact List.flatMap_congr fun op _ => leaves_exchange htemplate op

/-- Applying a rule to a well-formed circuit succeeds.  The result is well-formed and has no block, its
operations are those of the expansion up to swaps without a common wire, and the number counts the
operations of the top level that hold the source. -/
theorem exists_apply_expansion (h : c.WellFormed) (htemplate : rule.templateBody.WellFormed) :
    ∃ c', rule.apply c = .ok (c', c.operations.countP rule.holdsSource) ∧ c'.WellFormed ∧
      Reordered c'.operations (rule.expansion c) ∧ ∀ op ∈ c'.operations, op.isBlock = false := by
  obtain ⟨d, happly, hsubstitute⟩ := exists_apply_eq_ok h rule
  have hd := h.substitute htemplate hsubstitute
  rw [length_sites h] at happly
  refine ⟨d.flatten.1, happly, hd.flatten, ?_, d.isBlock_of_mem_flatten⟩
  rw [← leaves_of_substitute_sites h htemplate hsubstitute]
  exact hd.reordered_flatten

/-! ## Counting sources -/

/-- Sources after expansion: those of the template, once for each source before, and those inside the
other operations. -/
theorem countP_flatMap_expand (ops : List (Operation θ)) :
    (ops.flatMap rule.expand).countP rule.holdsSource =
      ops.countP rule.holdsSource * rule.templateBody.leaves.countP rule.holdsSource +
        ((ops.filter fun op => !rule.holdsSource op).flatMap Operation.leaves).countP
          rule.holdsSource := by
  induction ops with
  | nil => simp
  | cons op ops ih =>
      rw [List.flatMap_cons, List.countP_append, ih, expand]
      by_cases hholds : rule.holdsSource op = true
      · have hmoved : (rule.templateBody.leaves.map (Operation.onto op.wires)).countP
            rule.holdsSource = rule.templateBody.leaves.countP rule.holdsSource :=
          List.countP_map
        rw [if_pos hholds, hmoved, List.countP_cons_of_pos hholds,
          List.filter_cons_of_neg (by simpa using hholds), Nat.succ_mul]
        omega
      · rw [if_neg hholds, List.countP_cons_of_neg hholds,
          List.filter_cons_of_pos (by simpa using hholds), List.flatMap_cons, List.countP_append]
        omega

/-! ## A run -/

/-- A run of a rule computes the expansion: it succeeds, every wire shows the operations of the
expansion in their order, each with its gate, its wires and its parameters, every operation occurs as
often as there, and no block is left.  Sources remain where the expansion has them, inside blocks and
inside the template. -/
theorem run_pass_expansion (h : c.Reachable) (htemplate : rule.templateBody.Reachable)
    (properties : Properties F) :
    ∃ c', (rule.pass F).run ⟨c, properties⟩ =
        .ok () ⟨c', properties.record rule.name (rule.sites c).length⟩ ∧
      (∀ wire, c'.along wire = sequenceOn wire (rule.expansion c)) ∧
      c'.operations.Perm (rule.expansion c) ∧
      (∀ op ∈ c'.operations, op.isBlock = false) ∧
      c'.operations.countP rule.holdsSource =
        c.operations.countP rule.holdsSource * rule.templateBody.leaves.countP rule.holdsSource +
          ((c.operations.filter fun op => !rule.holdsSource op).flatMap Operation.leaves).countP
            rule.holdsSource := by
  have hwell := h.wellFormed
  obtain ⟨d, happly, hsubstitute⟩ := exists_apply_eq_ok hwell rule
  have hd := hwell.substitute htemplate.wellFormed hsubstitute
  have hreordered : Reordered d.flatten.1.operations (rule.expansion c) := by
    rw [← leaves_of_substitute_sites hwell htemplate.wellFormed hsubstitute]
    exact hd.reordered_flatten
  refine ⟨d.flatten.1, run_pass_eq_ok properties happly, fun wire => ?_, hreordered.perm,
    d.isBlock_of_mem_flatten, ?_⟩
  · rw [hd.flatten.along_eq, hreordered.sequenceOn_eq]
  · rw [hreordered.perm.countP_eq, expansion, countP_flatMap_expand]

/-- A phase flip behind a turn there and back: between two bit flips a rotation goes the other way.  The
first rotation stands in a block of its own. -/
def turnedPhase : SubstitutionRule Nat where
  name := "z_to_xtxtz"
  source := .qubit .z
  templateName := "xtxtz"
  templateBody := .ofOperations (.qubits 1)
    [⟨.primitive (.qubit .x), [0], []⟩,
      ⟨.block "turn" (.ofOperations (.qubits 1) [⟨.primitive (.qubit .rz), [0], [0]⟩]), [0], [5]⟩,
      ⟨.primitive (.qubit .x), [0], []⟩, ⟨.primitive (.qubit .rz), [0], [5]⟩,
      ⟨.primitive (.qubit .z), [0], []⟩]
  source_numParams := rfl
  template_register := by decide

/-- Two phase flips at the top level and one inside a block. -/
def phaseCircuit : Circuit Nat :=
  .ofOperations (.qubits 2)
    [⟨.primitive (.qubit .z), [1], []⟩,
      ⟨.block "flip" (.ofOperations (.qubits 2)
        [⟨.primitive (.qubit .x), [1], []⟩, ⟨.primitive (.qubit .z), [0], []⟩]), [1, 0], []⟩,
      ⟨.primitive (.qubit .z), [0], []⟩]

theorem reachable_turnedPhase : turnedPhase.templateBody.Reachable := by
  refine .ofOperations _ (by decide) ?_
  have hturn : (Circuit.ofOperations (.qubits 1)
      [⟨.primitive (.qubit .rz), [0], [0]⟩] : Circuit Nat).Reachable :=
    .ofOperations _ (by decide) (by simp [Gate.body?])
  simpa [Gate.body?] using hturn

theorem reachable_phaseCircuit : phaseCircuit.Reachable := by
  refine .ofOperations _ (by decide) ?_
  have hflip : (Circuit.ofOperations (.qubits 2) [⟨.primitive (.qubit .x), [1], []⟩,
      ⟨.primitive (.qubit .z), [0], []⟩] : Circuit Nat).Reachable :=
    .ofOperations _ (by decide) (by simp [Gate.body?])
  simpa [Gate.body?] using hflip

theorem run_pass_turnedPhase :
    phaseCircuit.Reachable ∧ turnedPhase.templateBody.Reachable ∧
      (turnedPhase.expansion phaseCircuit).map (fun op => (op.gate.name, op.wires, op.params)) =
        [("x", [1], []), ("rz", [1], [5]), ("x", [1], []), ("rz", [1], [5]), ("z", [1], []),
          ("x", [0], []), ("z", [1], []),
          ("x", [0], []), ("rz", [0], [5]), ("x", [0], []), ("rz", [0], [5]), ("z", [0], [])] ∧
      ∃ c', turnedPhase.pass.run ⟨phaseCircuit, .empty⟩ =
          .ok () ⟨c', Properties.empty.record "z_to_xtxtz" 2⟩ ∧
        (∀ wire, c'.along wire = sequenceOn wire (turnedPhase.expansion phaseCircuit)) ∧
        c'.operations.countP turnedPhase.holdsSource = 2 * 1 + 1 := by
  obtain ⟨c', hrun, hwires, -, -, hcount⟩ :=
    run_pass_expansion reachable_phaseCircuit reachable_turnedPhase .empty
  exact ⟨reachable_phaseCircuit, reachable_turnedPhase, by decide, c', hrun, hwires, hcount⟩

end QuditCircuits.SubstitutionRule
