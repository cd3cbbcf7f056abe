import QuditCircuits.Proofs.Circuit.Relabelling

/-!
# Circuits with other parameters

A circuit takes other parameters as a block does: they are cut up along its operations in schedule order
(`Circuit.withParams`).  Gates, wires and slots stay, so the circuit stays well-formed.

What one operation gets is said without walking the circuit: it gets as many parameters as it holds,
behind those of the operations scheduled before it (`Circuit.operationAt_withParams`).

Opening a block hands its parameters down to its body and moves the body to the wires of the block, in
this order and for whole circuits: `bindBody_scheduled`.
-/

namespace QuditCircuits

variable {θ : Type}

/-! ## Lists of operations -/

theorem assignParams_append (ops ops' : List (Operation θ)) (params : List θ) :
    assignParams (ops ++ ops') params =
      assignParams ops params ++
        assignParams ops' (params.drop (ops.flatMap Operation.params).length) := by
  induction ops generalizing params with
  | nil => rfl
  | cons op ops ih =>
      rw [List.cons_append, assignParams, ih, assignParams, List.drop_drop, List.flatMap_cons,
        List.length_append]
      rfl

/-- Operations get their own parameters back, and what is left over is not looked at. -/
theorem assignParams_flatMap_params_append (ops : List (Operation θ)) (params : List θ) :
    assignParams ops (ops.flatMap Operation.params ++ params) = ops := by
  induction ops with
  | nil => rfl
  | cons op ops ih =>
      rw [List.flatMap_cons, List.append_assoc, assignParams, List.take_left, List.drop_left, ih]
      cases op
      rfl

theorem map_wires_assignParams (ops : List (Operation θ)) (params : List θ) :
    (assignParams ops params).map Operation.wires = ops.map Operation.wires := by
  induction ops generalizing params with
  | nil => rfl
  | cons op ops ih => rw [assignParams, List.map_cons, List.map_cons, ih]

/-- An operation gets the parameters behind those of the operations before it. -/
theorem getElem?_assignParams (ops : List (Operation θ)) (params : List θ) (i : Nat) :
    (assignParams ops params)[i]? = ops[i]?.map fun op =>
      { op with params :=
          (params.drop ((ops.take i).flatMap Operation.params).length).take op.params.length } := by
  induction ops generalizing params i with
  | nil => rfl
  | cons op ops ih =>
      cases i with
      | zero => rfl
      | succ i =>
          rw [assignParams, List.getElem?_cons_succ, ih, List.getElem?_cons_succ, List.take_succ_cons,
            List.flatMap_cons, List.length_append, List.drop_drop]

/-- If there are as many parameters as the operations hold, they are all handed down. -/
theorem flatMap_params_assignParams {ops : List (Operation θ)} {params : List θ}
    (hlen : params.length = (ops.flatMap Operation.params).length) :
    (assignParams ops params).flatMap Operation.params = params := by
  induction ops generalizing params with
  | nil => exact (List.length_eq_zero_iff.mp hlen).symm
  | cons op ops ih =>
      rw [List.flatMap_cons, List.length_append] at hlen
      rw [assignParams, List.flatMap_cons, ih (by rw [List.length_drop]; omega),
        List.take_append_drop]

/-! ## Cycles and circuits -/

/-- The cycles with other parameters, handed down in schedule order. -/
def assignCycles : List (Cycle θ) → List θ → List (Cycle θ)
  | [], _ => []
  | cycle :: cycles, params =>
      { cycle with operations := assignParams cycle.operations params } ::
        assignCycles cycles (params.drop (cycle.operations.flatMap Operation.params).length)

/-- The slots of a cycle depend on the wires of its operations alone. -/
theorem Cycle.Indexed.of_map_wires {width : Nat} {cycle cycle' : Cycle θ} (h : cycle.Indexed width)
    (hslots : cycle'.slots = cycle.slots)
    (hwires : cycle'.operations.map Operation.wires = cycle.operations.map Operation.wires) :
    cycle'.Indexed width := by
  refine ⟨hslots ▸ h.length_slots, fun wire slot => ?_⟩
  have hslot : cycle'.slot? wire = cycle.slot? wire := by rw [slot?, hslots, slot?]
  rw [hslot, h.slot?_eq_some_iff, exists_on_wire_iff hwires]

theorem flatMap_operations_assignCycles (cycles : List (Cycle θ)) (params : List θ) :
    (assignCycles cycles params).flatMap Cycle.operations =
      assignParams (cycles.flatMap Cycle.operations) params := by
  induction cycles generalizing params with
  | nil => rfl
  | cons cycle cycles ih =>
      rw [assignCycles, List.flatMap_cons, ih, List.flatMap_cons, assignParams_append]

@[simp]
theorem length_assignCycles (cycles : List (Cycle θ)) (params : List θ) :
    (assignCycles cycles params).length = cycles.length := by
  induction cycles generalizing params with
  | nil => rfl
  | cons cycle cycles ih => rw [assignCycles, List.length_cons, ih, List.length_cons]

/-- Cycles get their own parameters back. -/
theorem assignCycles_flatMap_params (cycles : List (Cycle θ)) :
    assignCycles cycles ((cycles.flatMap Cycle.operations).flatMap Operation.params) = cycles := by
  induction cycles with
  | nil => rfl
  | cons cycle cycles ih =>
      rw [assignCycles, List.flatMap_cons, List.flatMap_append, assignParams_flatMap_params_append,
        List.drop_left, ih]
      cases cycle
      rfl

theorem exists_of_mem_assignCycles {cycles : List (Cycle θ)} {params : List θ} {cycle' : Cycle θ}
    (h : cycle' ∈ assignCycles cycles params) : ∃ cycle ∈ cycles, cycle'.slots = cycle.slots ∧
      cycle'.operations.map Operation.wires = cycle.operations.map Operation.wires := by
  induction cycles generalizing params with
  | nil => cases h
  | cons cycle cycles ih =>
      rcases List.mem_cons.mp h with rfl | hmem
      · exact ⟨cycle, List.mem_cons_self, rfl, map_wires_assignParams _ _⟩
      · obtain ⟨old, hold, hsame⟩ := ih hmem
        exact ⟨old, List.mem_cons_of_mem _ hold, hsame⟩

namespace Circuit

/-- The circuit with other parameters, assigned in schedule order. -/
def withParams (c : Circuit θ) (params : List θ) : Circuit θ :=
  { c with cycles := assignCycles c.cycles params }

/-- The operations scheduled before a slot. -/
def operationsBefore (c : Circuit θ) (k slot : Nat) : List (Operation θ) :=
  (c.cycles.take k).flatMap Cycle.operations ++
    (c.cycles[k]?.elim [] Cycle.operations).take slot

/-- The number of parameters that the operations before a slot hold. -/
def paramsBefore (c : Circuit θ) (k slot : Nat) : Nat :=
  ((c.operationsBefore k slot).flatMap Operation.params).length

@[simp]
theorem register_withParams (c : Circuit θ) (params : List θ) :
    (c.withParams params).register = c.register := rfl

@[simp]
theorem numCycles_withParams (c : Circuit θ) (params : List θ) :
    (c.withParams params).numCycles = c.numCycles :=
  length_assignCycles c.cycles params

@[simp]
theorem operations_withParams (c : Circuit θ) (params : List θ) :
    (c.withParams params).operations = assignParams c.operations params :=
  flatMap_operations_assignCycles c.cycles params

/-- A circuit with parameters holds these parameters. -/
theorem params_withParams {c : Circuit θ} {params : List θ} (hlen : params.length = c.numParams) :
    (c.withParams params).params = params := by
  rw [Circuit.params, operations_withParams]
  exact flatMap_params_assignParams (hlen.trans c.length_params.symm)

/-- An operation gets the parameters behind those of the operations scheduled before it. -/
theorem operationAt_withParams (c : Circuit θ) (params : List θ) (k slot : Nat) :
    (c.withParams params).operationAt k slot = (c.operationAt k slot).map fun op =>
      { op with params := (params.drop (c.paramsBefore k slot)).take op.params.length } := by
  obtain ⟨R, cycles⟩ := c
  -- What the first cycle takes away from the parameters it adds to the operations before.
  induction cycles generalizing params k with
  | nil => rfl
  | cons cycle cycles ih =>
      cases k with
      | zero => exact getElem?_assignParams cycle.operations params slot
      | succ k =>
          have hbefore : paramsBefore ⟨R, cycle :: cycles⟩ (k + 1) slot =
              (cycle.operations.flatMap Operation.params).length +
                paramsBefore ⟨R, cycles⟩ k slot := by
            simp [paramsBefore, operationsBefore]
          rw [hbefore, ← List.drop_drop]
          exact ih _ k

theorem WellFormed.withParams {c : Circuit θ} (h : c.WellFormed) {params : List θ}
    (hlen : params.length = c.numParams) : (c.withParams params).WellFormed where
  members op hop := by
    rw [operations_withParams] at hop
    exact h.wellFormed_of_mem_assignParams hlen hop
  indexed cycle' hcycle' := by
    obtain ⟨cycle, hcycle, hslots, hwires⟩ := exists_of_mem_assignCycles hcycle'
    exact (h.indexed cycle hcycle).of_map_wires hslots hwires

/-- With its own parameters a circuit is itself. -/
@[simp]
theorem withParams_params (c : Circuit θ) : c.withParams c.params = c := by
  rw [withParams, Circuit.params, operations, assignCycles_flatMap_params]
  cases c
  rfl

end Circuit

/-! ## Bodies of blocks -/

theorem bindBody_append (outer : List Wire) (body body' : List (Nat × Operation θ))
    (params : List θ) :
    bindBody outer (body ++ body') params = bindBody outer body params ++
      bindBody outer body' (params.drop ((body.map Prod.snd).flatMap Operation.params).length) := by
  induction body generalizing params with
  | nil => rfl
  | cons entry body ih =>
      rw [List.cons_append, bindBody, ih, bindBody, List.drop_drop, List.map_cons,
        List.flatMap_cons, List.length_append]
      rfl

/-- The operations of one cycle of a body. -/
theorem bindBody_map (outer : List Wire) (k : Nat) (ops : List (Operation θ)) (params : List θ) :
    bindBody outer (ops.map fun op => (k, op)) params =
      (assignParams ops params).map fun op => (k, op.onto outer) := by
  induction ops generalizing params with
  | nil => rfl
  | cons op ops ih =>
      rw [List.map_cons, bindBody, ih, assignParams, List.map_cons]
      rfl

/-- A block hands its parameters down to its body, and then the body moves to the wires of the block. -/
theorem bindBody_scheduled (outer : List Wire) (c : Circuit θ) (params : List θ) :
    bindBody outer c.scheduled params =
      (c.withParams params).scheduled.map fun (k, op) => (k, op.onto outer) := by
  -- The cycles of a circuit are numbered from zero; the induction is over all first numbers.
  have hcycles : ∀ (cycles : List (Cycle θ)) (n : Nat) (params : List θ),
      bindBody outer ((cycles.zipIdx n).flatMap fun numbered =>
          numbered.1.operations.map fun op => (numbered.2, op)) params =
        (((assignCycles cycles params).zipIdx n).flatMap fun numbered =>
          numbered.1.operations.map fun op => (numbered.2, op)).map fun entry =>
            (entry.1, entry.2.onto outer) := by
    intro cycles
    induction cycles with
    | nil => exact fun _ _ => rfl
    | cons cycle cycles ih =>
        intro n params
        simp [assignCycles, bindBody_append, bindBody_map, ih, Function.comp_def]
  exact hcycles c.cycles 0 params

end QuditCircuits
