import QuditCircuits.Proofs.Circuit.Appending
import QuditCircuits.Proofs.Circuit.Parameters
import QuditCircuits.Proofs.EarliestCycles
import QuditCircuits.Proofs.Levels
import QuditCircuits.Proofs.Register.Concatenation

/-!
# Wrapping a circuit and opening it again

A circuit can be wrapped into a block, and the block put on wires of another register as the only
operation there.  Opening the block undoes this: the circuit comes back on those wires, with the
parameters of the block, cycle by cycle and with its empty cycles (`Circuit.WellFormed.openBlocks_wrapped`).
From then on the blocks inside the circuit are opened as they are in the circuit itself, because
flattening commutes with relabelling.
-/

namespace QuditCircuits

variable {θ : Type}

/-! ## Schedules cycle by cycle -/

theorem layer_append (k : Nat) (entries entries' : List (Nat × Operation θ)) :
    layer k (entries ++ entries') = layer k entries ++ layer k entries' := by
  rw [layer, List.filter_append, List.map_append]
  rfl

/-- A schedule holds the operations of each cycle in their order. -/
theorem Circuit.layer_scheduled (c : Circuit θ) (k : Nat) :
    layer k c.scheduled = c.cycles[k]?.elim [] Cycle.operations := by
  -- Behind `n` cycles nothing is scheduled before cycle `n`.
  have hcycles : ∀ (cycles : List (Cycle θ)) (n : Nat),
      layer k ((cycles.zipIdx n).flatMap fun numbered =>
          numbered.1.operations.map fun op => (numbered.2, op)) =
        if k < n then [] else cycles[k - n]?.elim [] Cycle.operations := by
    intro cycles
    induction cycles with
    | nil => simp [layer]
    | cons cycle cycles ih =>
        intro n
        have hcycle : layer k (cycle.operations.map fun op => (n, op)) =
            if n = k then cycle.operations else [] := by
          by_cases hk : n = k <;> simp [layer, List.filter_map, Function.comp_def, hk]
        rw [List.zipIdx_cons, List.flatMap_cons, layer_append, hcycle, ih]
        rcases Nat.lt_trichotomy k n with hlt | rfl | hgt
        · simp [hlt, Nat.lt_succ_of_lt hlt, Nat.ne_of_gt hlt]
        · simp
        · obtain ⟨d, rfl⟩ := Nat.exists_eq_add_of_lt hgt
          have hnext : n + d + 1 - (n + 1) = d := by omega
          have hhere : n + d + 1 - n = d + 1 := by omega
          rw [if_neg (by omega), if_neg (by omega), if_neg (by omega), hnext, hhere]
          rfl
  exact hcycles c.cycles 0

theorem Circuit.map_layer_scheduled (c : Circuit θ) :
    ((List.range c.numCycles).map fun k => layer k c.scheduled) = c.layers := by
  apply List.ext_getElem?
  intro k
  rw [List.getElem?_map, layers, List.getElem?_map]
  by_cases hk : k < c.numCycles
  · have hget : c.cycles[k]? = some c.cycles[k] := List.getElem?_eq_getElem hk
    rw [List.getElem?_range hk, Option.map_some, layer_scheduled, hget]
    rfl
  · have hnone : c.cycles[k]? = none := List.getElem?_eq_none (Nat.le_of_not_lt hk)
    rw [List.getElem?_eq_none (by simpa using hk), hnone]
    rfl

namespace Circuit

variable {c : Circuit θ} {R : Register} {wires : List Wire} {params : List θ}

/-- A circuit opens as many blocks with other parameters. -/
theorem totalBlocks_withParams (c : Circuit θ) (params : List θ) :
    (c.withParams params).totalBlocks = c.totalBlocks := by
  have hgates := map_gate_assignParams c.operations params
  rw [← operations_withParams] at hgates
  simpa [totalBlocks, List.map_map, Function.comp_def] using
    congrArg (fun gates => (gates.map Gate.totalBlocks).sum) hgates

/-- On its own wires a circuit is itself. -/
theorem WellFormed.relabel_range (h : c.WellFormed) :
    c.relabel c.register (List.range c.numWires) = c := by
  have honto : Operation.onto (θ := θ) (List.range c.register.width) = id :=
    funext (Operation.onto_range _)
  refine (h.eq_relabel (.refl c.register) h rfl ?_).symm
  rw [honto, List.map_id_fun, List.map_id]

/-! ## A circuit in a block -/

/-- The circuit over `R` whose only operation is a block around `c`. -/
def wrapped (R : Register) (name : String) (wires : List Wire) (params : List θ) (c : Circuit θ) :
    Circuit θ :=
  (Circuit.empty R).insertAt 0 ⟨.block name c, wires, params⟩

section Wrapped

variable (h : c.WellFormed) (hwires : Placement c.register R wires)
  (hlen : params.length = c.numParams)
include h hwires hlen

/-- A block around a circuit with a wire fits on any wires with the levels of the circuit. -/
theorem WellFormed.wellFormed_block (name : String) (hwidth : 0 < c.numWires) :
    (⟨.block name c, wires, params⟩ : Operation θ).WellFormed R := by
  have hne : wires ≠ [] := by
    rw [← List.length_pos_iff, hwires.length_eq]
    exact hwidth
  exact ⟨⟨hwires, hne, hlen⟩, (Gate.wellFormed_block name c).mpr h⟩

theorem WellFormed.appendGate?_block (name : String) (hwidth : 0 < c.numWires) :
    ∃ anchor, wires.head? = some anchor ∧
      (Circuit.empty R).appendGate? (.block name c) wires params =
        .ok (⟨0, anchor⟩, c.wrapped R name wires params) := by
  have hop := h.wellFormed_block hwires hlen name hwidth
  obtain ⟨anchor, hanchor⟩ := Option.isSome_iff_exists.mp
    (List.isSome_head?.mpr hop.wires_ne_nil)
  have hmake : Operation.make? (.block name c) wires params = .ok ⟨.block name c, wires, params⟩ :=
    Operation.make?_eq_ok_iff.mpr ⟨hwires.length_eq, hwires.nodup, hlen, rfl⟩
  refine ⟨anchor, hanchor, ?_⟩
  rw [appendGate?_eq, hmake]
  exact append?_eq_ok hop hanchor

theorem WellFormed.wellFormed_wrapped (name : String) (hwidth : 0 < c.numWires) :
    (c.wrapped R name wires params).WellFormed :=
  (wellFormed_empty R).insertAt (h.wellFormed_block hwires hlen name hwidth)

/-- Opening the block gives the circuit back, on the wires of the block and with its parameters. -/
theorem WellFormed.openBlocks_wrapped (name : String) (hwidth : 0 < c.numWires)
    (hcycles : 0 < c.numCycles) :
    (c.wrapped R name wires params).openBlocks = (c.withParams params).relabel R wires := by
  have hwrapped := h.wellFormed_wrapped hwires hlen name hwidth
  refine (h.withParams hlen).eq_relabel hwires hwrapped.openBlocks rfl ?_
  -- There is one cycle, and it becomes a run as long as `c`.
  have hheight : ((Cycle.empty R.width).insert ⟨.block name c, wires, params⟩).height =
      c.numCycles := by
    show max c.numCycles 1 = c.numCycles
    omega
  have hopened : ((Cycle.empty R.width).insert ⟨.block name c, wires, params⟩).operations.flatMap
      Operation.opened = bindBody wires c.scheduled params := by
    show List.flatMap Operation.opened [⟨.block name c, wires, params⟩] = _
    rw [List.flatMap_singleton]
    rfl
  rw [layers_openBlocks]
  show List.flatMap _ [(Cycle.empty R.width).insert ⟨.block name c, wires, params⟩] = _
  rw [List.flatMap_singleton, Cycle.opened_eq_map, List.map_map, hheight, hopened,
    bindBody_scheduled, ← map_layer_scheduled, List.map_map, numCycles_withParams]
  refine List.map_congr_left fun k _ => ?_
  rw [Function.comp_apply, Cycle.operations_foldl_insert, layer_map_onto]
  rfl

/-- Flattening the wrapped circuit flattens the circuit with the parameters of the block, on the wires of
the block, and opens one block more. -/
theorem WellFormed.flatten_wrapped_eq (name : String) (hwidth : 0 < c.numWires)
    (hcycles : 0 < c.numCycles) :
    (c.wrapped R name wires params).flatten =
      ((c.withParams params).flatten.1.relabel R wires, c.flatten.2 + 1) := by
  have hwith := h.withParams hlen
  have hcount : (c.withParams params).flatten.2 = c.flatten.2 := by
    rw [hwith.flatten_eq, h.flatten_eq, totalBlocks_withParams]
  have hone : (c.wrapped R name wires params).numBlocks = 1 := rfl
  rw [flatten_of_any_isBlock (any_isBlock_iff.mpr (hone ▸ Nat.one_pos)), hone,
    h.openBlocks_wrapped hwires hlen name hwidth hcycles, hwith.flatten_relabel hwires, hcount,
    Nat.add_comm]

end Wrapped

/-- Wrapping a circuit and flattening gives the flattened circuit, relabelled.  A circuit with a wire and
a cycle can be wrapped under any name, put on any wires with its levels and given any parameters.  What
flattening then leaves is what it leaves of the circuit with these parameters, assigned in schedule
order: cycle by cycle the same operations in the same order, each on the wires where its own are placed.
One more block is opened.  On its own wires and with its own parameters, a circuit without blocks comes
back as it was. -/
theorem Reachable.flatten_wrapped (h : c.Reachable) (hwidth : 0 < c.numWires)
    (hcycles : 0 < c.numCycles) (name : String) :
    (∀ R wires params, Placement c.register R wires → params.length = c.numParams →
      (c.withParams params).params = params ∧
      ∃ anchor d, wires.head? = some anchor ∧
        (Circuit.empty R).appendGate? (.block name c) wires params = .ok (⟨0, anchor⟩, d) ∧
        d.flatten.1 = (c.withParams params).flatten.1.relabel R wires ∧
        d.flatten.1.layers =
          (c.withParams params).flatten.1.layers.map (List.map (Operation.onto wires)) ∧
        d.flatten.2 = c.flatten.2 + 1) ∧
    (c.numBlocks = 0 → ∃ d,
      (Circuit.empty c.register).appendGate? (.block name c) (List.range c.numWires) c.params =
        .ok (⟨0, 0⟩, d) ∧
      d.flatten = (c, 1)) := by
  have hwell := h.wellFormed
  refine ⟨fun R wires params hwires hlen => ⟨params_withParams hlen, ?_⟩, fun hblocks => ?_⟩
  · obtain ⟨anchor, hanchor, happend⟩ := hwell.appendGate?_block hwires hlen name hwidth
    have hflatten := hwell.flatten_wrapped_eq hwires hlen name hwidth hcycles
    refine ⟨anchor, _, hanchor, happend, ?_, ?_, ?_⟩
    · rw [hflatten]
    · rw [hflatten, layers_relabel]
    · rw [hflatten]
  · have hwires : Placement c.register c.register (List.range c.numWires) := .refl c.register
    obtain ⟨anchor, hanchor, happend⟩ :=
      hwell.appendGate?_block hwires c.length_params name hwidth
    obtain rfl : 0 = anchor := by
      rw [List.head?_range, if_neg (Nat.ne_of_gt hwidth)] at hanchor
      exact Option.some.inj hanchor
    refine ⟨_, happend, ?_⟩
    rw [hwell.flatten_wrapped_eq hwires c.length_params name hwidth hcycles, withParams_params,
      flatten_of_numBlocks_eq_zero hblocks, hwell.relabel_range]

end Circuit

/-- Blocks and rotations on three qubits, with an empty cycle between them. -/
def gappedCircuit : Circuit Nat :=
  (Circuit.ofOperations (.qubits 3)
    [⟨nestedPair, [2, 0], [10, 11, 12]⟩, ⟨.primitive (.qubit .rz), [1], [13]⟩,
      ⟨rotatedPair, [1, 2], [14]⟩, ⟨.primitive (.qubit .rz), [2], [15]⟩]).after [.remove ⟨1, 1⟩]

/-- Three qubits around a qutrit. -/
def qubitsAroundQutrit : Register :=
  ⟨[2, 3, 2, 2], by decide⟩

theorem reachable_gappedCircuit : gappedCircuit.Reachable := by
  have hnested : ∀ body, nestedPair.body? = some body → body.Reachable := by
    rintro _ ⟨⟩
    refine .ofOperations _ (by decide) ?_
    simpa [Gate.body?] using reachable_of_body?_rotatedPair
  refine (Circuit.Reachable.ofOperations _ (by decide) ?_).after (by simp [Call.Admissible])
  simpa [Gate.body?] using ⟨hnested, reachable_of_body?_rotatedPair⟩

theorem flatten_wrapped_gappedCircuit :
    gappedCircuit.Reachable ∧ 0 < gappedCircuit.numWires ∧
      gappedCircuit.layers.map List.length = [2, 0, 1] ∧
      Placement gappedCircuit.register qubitsAroundQutrit [3, 0, 2] ∧
      (∃ d, (Circuit.empty qubitsAroundQutrit).appendGate? (.block "gapped" gappedCircuit) [3, 0, 2]
          [1, 2, 3, 4, 5] = .ok (⟨0, 3⟩, d) ∧
        d.flatten.1.layers.map (List.map fun op => (op.gate.name, op.wires, op.params)) =
          [[("rz", [3], [1]), ("rz", [0], [4])], [("cx", [3, 2], [])], [("rz", [3], [2])],
            [("rz", [2], [3])], [("cx", [2, 3], [])], [], [("rz", [2], [5])]] ∧
        d.flatten.2 = 4) ∧
      thinnedCircuit.Reachable ∧ thinnedCircuit.numBlocks = 0 ∧
      ∃ d, (Circuit.empty qubitsAndQutrit).appendGate? (.block "thinned" thinnedCircuit) [0, 1, 2]
          [5] = .ok (⟨0, 0⟩, d) ∧
        d.flatten = (thinnedCircuit, 1) := by
  have hwires : Placement gappedCircuit.register qubitsAroundQutrit [3, 0, 2] :=
    ⟨by decide, by decide⟩
  have hlen : [1, 2, 3, 4, 5].length = gappedCircuit.numParams := by decide
  have hwell := reachable_gappedCircuit.wellFormed
  refine ⟨reachable_gappedCircuit, by decide, by decide, hwires, ?_, reachable_thinnedCircuit,
    by decide, ?_⟩
  · obtain ⟨hwrapped, -⟩ :=
      reachable_gappedCircuit.flatten_wrapped (by decide) (by decide) "gapped"
    obtain ⟨-, anchor, d, hanchor, happend, -, hlayers, hcount⟩ := hwrapped _ _ _ hwires hlen
    obtain rfl : 3 = anchor := Option.some.inj hanchor
    rw [hwell.flatten_eq] at hcount
    rw [(hwell.withParams hlen).flatten_eq] at hlayers
    refine ⟨d, happend, ?_, hcount.trans (by decide)⟩
    rw [hlayers]
    decide
  · exact (reachable_thinnedCircuit.flatten_wrapped (by decide) (by decide) "thinned").2 (by decide)

end QuditCircuits
