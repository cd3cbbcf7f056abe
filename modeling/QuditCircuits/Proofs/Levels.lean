import Mathlib.Logic.Function.Iterate
import QuditCircuits.Proofs.Flattening

/-!
# How many levels flattening opens

Opening a level can leave more blocks than there were, because a body may hold many.  What goes down is
the depth of nesting, by one exactly for each level that is opened; so flattening opens as many levels as
the circuit is deep and stops there.

The number that flattening returns adds up the blocks of all levels.  It is known beforehand: it is the
number of blocks inside the circuit at any depth, counted wherever they occur (`Circuit.totalBlocks`).
Every level passes its blocks on to the count and the blocks of their bodies on to the next level.
-/

namespace QuditCircuits

variable {θ : Type}

/-! ## Counting blocks at all depths -/

/-- The number of blocks that a gate consists of: none for a primitive gate, and one more than the
operations of its body consist of for a block. -/
def Gate.totalBlocks (gate : Gate θ) : Nat :=
  gate.fold (fun _ => 0) fun _ _ parts => (parts.map Prod.snd).sum + 1

/-- The number of blocks in a circuit at any depth.  A body counts in every place where it is used. -/
def Circuit.totalBlocks (c : Circuit θ) : Nat :=
  (c.operations.map fun op => op.gate.totalBlocks).sum

@[simp]
theorem Gate.totalBlocks_primitive (gate : Primitive) :
    (Gate.primitive gate : Gate θ).totalBlocks = 0 := rfl

@[simp]
theorem Gate.totalBlocks_block (name : String) (body : Circuit θ) :
    (Gate.block name body).totalBlocks = body.totalBlocks + 1 := by
  simp [totalBlocks, fold_block, Circuit.totalBlocks, Function.comp_def]

/-- An operation consists of the blocks of its parts, and of itself if it is a block. -/
theorem Operation.sum_totalBlocks_parts (op : Operation θ) :
    (op.parts.map fun sub => sub.gate.totalBlocks).sum + (if op.isBlock then 1 else 0) =
      op.gate.totalBlocks := by
  cases h : op.gate with
  | primitive gate => simp [parts_primitive h, isBlock, h, Gate.isBlock, Gate.body?]
  | block name body =>
      have hgates := congrArg (List.map Gate.totalBlocks) (map_gate_parts h)
      rw [List.map_map, List.map_map] at hgates
      have hblock : op.isBlock = true := by rw [isBlock, h]; rfl
      rw [if_pos hblock, Gate.totalBlocks_block, Circuit.totalBlocks]
      exact congrArg (fun counts => counts.sum + 1) hgates

/-! ## Opening one level -/

namespace Circuit

variable {c : Circuit θ}

theorem nesting_eq_zero_iff : c.nesting = 0 ↔ c.numBlocks = 0 := by
  rw [numBlocks, List.countP_eq_zero, ← Nat.le_zero, nesting_le_iff]
  refine forall₂_congr fun op _ => ?_
  rw [Operation.isBlock, ← Gate.nesting_pos_iff]
  omega

theorem totalBlocks_eq_zero (h : c.numBlocks = 0) : c.totalBlocks = 0 := by
  refine List.sum_eq_zero (List.forall_mem_map.mpr fun op hop => ?_)
  have hprimitive := List.countP_eq_zero.mp h op hop
  cases hgate : op.gate with
  | primitive gate => rfl
  | block name body =>
      rw [Operation.isBlock, hgate] at hprimitive
      exact absurd rfl hprimitive

/-- Opening a level takes one level off the deepest block. -/
theorem WellFormed.nesting_openBlocks (h : c.WellFormed) :
    c.openBlocks.nesting = c.nesting - 1 := by
  refine Nat.le_antisymm c.nesting_openBlocks_le (Nat.sub_le_of_le_add ?_)
  rw [nesting_le_iff]
  intro op hop
  cases hgate : op.gate with
  | primitive gate => exact Nat.zero_le _
  | block name body =>
      -- The gates of the body are those of parts, which are operations of the opened circuit.
      rw [Gate.nesting_block, Nat.add_le_add_iff_right, nesting_le_iff]
      intro inner hinner
      have hmem : inner.gate ∈ op.parts.map Operation.gate := by
        rw [Operation.map_gate_parts hgate]
        exact List.mem_map_of_mem hinner
      obtain ⟨sub, hsub, heq⟩ := List.mem_map.mp hmem
      have hopened : sub ∈ c.openBlocks.operations :=
        h.reordered_openBlocks.perm.mem_iff.mpr (List.mem_flatMap.mpr ⟨op, hop, hsub⟩)
      rw [← heq]
      exact (nesting_le_iff _ _).mp (Nat.le_refl _) sub hopened

/-- Opening a level takes its own blocks off the total. -/
theorem WellFormed.totalBlocks_openBlocks (h : c.WellFormed) :
    c.openBlocks.totalBlocks + c.numBlocks = c.totalBlocks := by
  have hperm := h.reordered_openBlocks.perm.map fun op => op.gate.totalBlocks
  rw [totalBlocks, hperm.sum_eq, numBlocks, totalBlocks]
  induction c.operations with
  | nil => rfl
  | cons op ops ih =>
      have hop := op.sum_totalBlocks_parts
      rw [List.flatMap_cons, List.map_append, List.sum_append, List.countP_cons, List.map_cons,
        List.sum_cons]
      omega

/-! ## Opening level after level -/

theorem WellFormed.iterate_openBlocks (h : c.WellFormed) (k : Nat) :
    (Circuit.openBlocks^[k] c).WellFormed :=
  Function.Iterate.rec WellFormed h (fun _ hwell => hwell.openBlocks) k

theorem WellFormed.nesting_iterate_openBlocks (h : c.WellFormed) (k : Nat) :
    (Circuit.openBlocks^[k] c).nesting = c.nesting - k := by
  induction k with
  | zero => rfl
  | succ k ih =>
      rw [Function.iterate_succ_apply', (h.iterate_openBlocks k).nesting_openBlocks, ih]
      omega

/-- Flattening opens as many levels as the circuit is deep, and it counts all blocks. -/
theorem WellFormed.flatten_eq (h : c.WellFormed) :
    c.flatten = (Circuit.openBlocks^[c.nesting] c, c.totalBlocks) := by
  induction hdepth : c.nesting generalizing c with
  | zero =>
      have hnone : c.numBlocks = 0 := nesting_eq_zero_iff.mp hdepth
      rw [flatten_of_numBlocks_eq_zero hnone, totalBlocks_eq_zero hnone]
      rfl
  | succ n ih =>
      have hsome : 0 < c.numBlocks := by
        have := nesting_eq_zero_iff (c := c)
        omega
      have hnext : c.openBlocks.nesting = n := by
        rw [h.nesting_openBlocks, hdepth, Nat.add_sub_cancel]
      rw [flatten_of_any_isBlock (any_isBlock_iff.mpr hsome), ih h.openBlocks hnext,
        Function.iterate_succ_apply, Nat.add_comm, h.totalBlocks_openBlocks]

/-- The blocks are opened in as many levels as the circuit is deep: before each of them there is a block
left, and after the last there is none.  The number returned is that of the blocks at all depths.  A
circuit without blocks is left as it is, so flattening again changes nothing. -/
theorem Reachable.flatten_levels (h : c.Reachable) :
    (∀ k < c.nesting, 0 < (Circuit.openBlocks^[k] c).numBlocks) ∧
      c.flatten = (Circuit.openBlocks^[c.nesting] c, c.totalBlocks) ∧
      c.flatten.1.numBlocks = 0 ∧
      (c.numBlocks = 0 → c.nesting = 0 ∧ c.flatten = (c, 0)) ∧
      c.flatten.1.flatten = (c.flatten.1, 0) := by
  have hwell := h.wellFormed
  have hflat : c.flatten.1.numBlocks = 0 := by
    rw [hwell.flatten_eq, ← nesting_eq_zero_iff, hwell.nesting_iterate_openBlocks, Nat.sub_self]
  refine ⟨fun k hk => ?_, hwell.flatten_eq, hflat, fun hnone => ?_,
    flatten_of_numBlocks_eq_zero hflat⟩
  · have hdeep := hwell.nesting_iterate_openBlocks k
    have hnone := nesting_eq_zero_iff (c := Circuit.openBlocks^[k] c)
    omega
  · exact ⟨nesting_eq_zero_iff.mpr hnone, flatten_of_numBlocks_eq_zero hnone⟩

end Circuit

/-- A block whose body has no operations. -/
def hollow : Gate Nat :=
  .block "hollow" (.empty (.qubits 1))

/-- A block of blocks in two places, with a hollow block between. -/
def layeredCircuit : Circuit Nat :=
  .ofOperations (.qubits 3)
    [⟨.block "layer" nestedCircuit, [1, 2, 0], [10, 11, 12, 13, 14]⟩, ⟨hollow, [1], []⟩,
      ⟨.block "layer" nestedCircuit, [0, 1, 2], [20, 21, 22, 23, 24]⟩]

theorem reachable_layeredCircuit : layeredCircuit.Reachable := by
  have hhollow : (Circuit.empty (θ := Nat) (.qubits 1)).Reachable := .empty (.qubits 1)
  refine .ofOperations _ (by decide) ?_
  simpa [Gate.body?, hollow] using ⟨reachable_nestedCircuit, hhollow, reachable_nestedCircuit⟩

theorem flatten_levels_layeredCircuit :
    layeredCircuit.Reachable ∧
      (∀ k < 3, 0 < (Circuit.openBlocks^[k] layeredCircuit).numBlocks) ∧
      layeredCircuit.flatten = (Circuit.openBlocks^[3] layeredCircuit, 11) ∧
      layeredCircuit.flatten.1.numBlocks = 0 ∧
      layeredCircuit.flatten.1.flatten = (layeredCircuit.flatten.1, 0) := by
  have hnesting : layeredCircuit.nesting = 3 := by decide
  have htotal : layeredCircuit.totalBlocks = 11 := by decide
  obtain ⟨hbefore, hflatten, hafter, -, hagain⟩ := reachable_layeredCircuit.flatten_levels
  rw [hnesting] at hbefore
  rw [hnesting, htotal] at hflatten
  exact ⟨reachable_layeredCircuit, hbefore, hflatten, hafter, hagain⟩

end QuditCircuits
