import QuditCircuits.Circuit.Schedule

/-!
# Flattening blocks

A circuit is *flattened* by opening its blocks level by level until none is left.  Opening one level
turns every cycle into a run of cycles as long as the longest body among its blocks: primitive
operations stay in the first cycle of the run, and every body is laid out cycle by cycle on the wires
of its block.  A body's wire `i` becomes the block's wire `wires[i]`, and the parameters of the block
are cut up along the operations of the body in schedule order.

Runs keep their order, so the order of operations along every wire is kept.  Each level that is
opened lowers the depth of nesting, which is why flattening ends; a circuit without blocks is left
as it is.
-/

namespace QuditCircuits

variable {θ : Type}

/-! ## Depth of nesting -/

/-- The depth of nesting: zero for a primitive gate, one more than the deepest gate of its body for a
block. -/
def Gate.nesting (gate : Gate θ) : Nat :=
  gate.fold (fun _ => 0) fun _ _ parts => (parts.map Prod.snd).foldr max 0 + 1

/-- The depth of nesting of the deepest gate. -/
def Circuit.nesting (c : Circuit θ) : Nat :=
  (c.operations.map fun op => op.gate.nesting).foldr max 0

@[simp]
theorem Gate.nesting_primitive (gate : Primitive) :
    (Gate.primitive gate : Gate θ).nesting = 0 := rfl

@[simp]
theorem Gate.nesting_block (name : String) (body : Circuit θ) :
    (Gate.block name body).nesting = body.nesting + 1 := by
  simp [Gate.nesting, Gate.fold_block, Circuit.nesting, Function.comp_def]

/-- A maximum is bounded exactly when all its members are. -/
theorem foldr_max_le_iff (ns : List Nat) (bound : Nat) :
    ns.foldr max 0 ≤ bound ↔ ∀ n ∈ ns, n ≤ bound := by
  induction ns with
  | nil => simp
  | cons n rest ih => rw [List.foldr_cons, Nat.max_le, ih, List.forall_mem_cons]

theorem Circuit.nesting_le_iff (c : Circuit θ) (bound : Nat) :
    c.nesting ≤ bound ↔ ∀ op ∈ c.operations, op.gate.nesting ≤ bound := by
  simp [Circuit.nesting, foldr_max_le_iff]

/-- Exactly the blocks have a positive depth. -/
theorem Gate.nesting_pos_iff (gate : Gate θ) : 0 < gate.nesting ↔ gate.isBlock = true := by
  cases gate <;> simp [Gate.isBlock, Gate.body?]

/-! ## Opening one level -/

/-- The same gate on the wires that `outer` gives for its own, with other parameters. -/
def Operation.rebind (op : Operation θ) (outer : List Wire) (params : List θ) : Operation θ where
  gate := op.gate
  wires := op.wires.map fun wire => outer.getD wire wire
  params := params

/-- The operations of a body on the wires of its block, with the parameters cut up in schedule
order. -/
def bindBody (outer : List Wire) : List (Nat × Operation θ) → List θ → List (Nat × Operation θ)
  | [], _ => []
  | (k, op) :: rest, params =>
      (k, op.rebind outer (params.take op.params.length)) ::
        bindBody outer rest (params.drop op.params.length)

/-- What an operation becomes when its level is opened: operations, each with its cycle counted from
the start of the run. -/
def Operation.opened (op : Operation θ) : List (Nat × Operation θ) :=
  match op.gate with
  | .primitive _ => [(0, op)]
  | .block _ body => bindBody op.wires body.scheduled op.params

/-- The length of the run that a cycle becomes: that of the longest body, and at least one. -/
def Cycle.height (cycle : Cycle θ) : Nat :=
  (cycle.operations.filterMap fun op => op.gate.body?.map Circuit.numCycles).foldr max 1

/-- Adds operations to the cycles of a run, one after the other. -/
def insertAll (run : List (Cycle θ)) (ops : List (Nat × Operation θ)) : List (Cycle θ) :=
  ops.foldl (fun run (k, op) => run.modify k fun cycle => cycle.insert op) run

/-- The run of cycles that a cycle becomes over a register of `width` wires. -/
def Cycle.opened (width : Nat) (cycle : Cycle θ) : List (Cycle θ) :=
  insertAll (List.replicate cycle.height (Cycle.empty width))
    (cycle.operations.flatMap Operation.opened)

/-- The circuit with the outermost blocks opened. -/
def Circuit.openBlocks (c : Circuit θ) : Circuit θ :=
  { c with cycles := c.cycles.flatMap (Cycle.opened c.numWires) }

/-! ## Opening lowers the depth -/

/-- Whatever lies in a run after operations were added was there before or is one of them. -/
theorem mem_insertAll {run : List (Cycle θ)} {ops : List (Nat × Operation θ)} {op : Operation θ}
    (h : op ∈ (insertAll run ops).flatMap Cycle.operations) :
    op ∈ run.flatMap Cycle.operations ∨ ∃ k, (k, op) ∈ ops := by
  induction ops generalizing run with
  | nil => exact .inl h
  | cons added rest ih =>
      obtain ⟨k, new⟩ := added
      rcases ih h with h | ⟨j, h⟩
      · obtain ⟨cycle, hcycle, hop⟩ := List.mem_flatMap.mp h
        obtain ⟨i, hi, rfl⟩ := List.mem_iff_getElem.mp hcycle
        rw [List.getElem_modify] at hop
        have hi' : i < run.length := by simpa using hi
        have hmem : run[i] ∈ run := List.getElem_mem hi'
        split at hop
        · rcases List.mem_append.mp hop with hop | hop
          · exact .inl (List.mem_flatMap.mpr ⟨_, hmem, hop⟩)
          · rw [List.mem_singleton.mp hop]
            exact .inr ⟨k, by simp⟩
        · exact .inl (List.mem_flatMap.mpr ⟨_, hmem, hop⟩)
      · exact .inr ⟨j, List.mem_cons_of_mem _ h⟩

/-- Binding the operations of a body keeps their gates. -/
theorem exists_of_mem_bindBody {outer : List Wire} {body : List (Nat × Operation θ)}
    {params : List θ} {k : Nat} {op : Operation θ} (h : (k, op) ∈ bindBody outer body params) :
    ∃ inner, (k, inner) ∈ body ∧ op.gate = inner.gate := by
  induction body generalizing params with
  | nil => simp [bindBody] at h
  | cons entry rest ih =>
      obtain ⟨j, sub⟩ := entry
      rcases List.mem_cons.mp h with h | h
      · cases h
        exact ⟨sub, by simp, rfl⟩
      · obtain ⟨inner, hmem, hgate⟩ := ih h
        exact ⟨inner, List.mem_cons_of_mem _ hmem, hgate⟩

/-- The scheduled operations are the operations. -/
theorem Circuit.mem_operations_of_mem_scheduled {c : Circuit θ} {k : Nat} {op : Operation θ}
    (h : (k, op) ∈ c.scheduled) : op ∈ c.operations := by
  obtain ⟨⟨cycle, j⟩, hcycle, hop⟩ := List.mem_flatMap.mp h
  obtain ⟨op', hop', heq⟩ := List.mem_map.mp hop
  cases heq
  exact List.mem_flatMap.mpr ⟨cycle, List.fst_mem_of_mem_zipIdx hcycle, hop'⟩

/-- Opening an operation lowers its depth, unless it was primitive. -/
theorem Operation.nesting_of_mem_opened {op sub : Operation θ} {k : Nat}
    (h : (k, sub) ∈ op.opened) : sub.gate.nesting ≤ op.gate.nesting - 1 := by
  unfold Operation.opened at h
  split at h
  · rename_i g hgate
    cases List.mem_singleton.mp h
    simp [hgate]
  · rename_i name body hgate
    obtain ⟨inner, hmem, heq⟩ := exists_of_mem_bindBody h
    rw [hgate, Gate.nesting_block, heq]
    exact (body.nesting_le_iff _).mp (Nat.le_refl _) inner
      (Circuit.mem_operations_of_mem_scheduled hmem)

/-- Opening the outermost blocks lowers the depth of a circuit that has one. -/
theorem Circuit.nesting_openBlocks_le (c : Circuit θ) :
    c.openBlocks.nesting ≤ c.nesting - 1 := by
  rw [nesting_le_iff]
  intro sub hsub
  obtain ⟨cycle', hcycle', hop⟩ := List.mem_flatMap.mp hsub
  obtain ⟨cycle, hcycle, hrun⟩ := List.mem_flatMap.mp hcycle'
  rcases mem_insertAll (List.mem_flatMap.mpr ⟨cycle', hrun, hop⟩) with h | ⟨k, h⟩
  · obtain ⟨fresh, hfresh, hin⟩ := List.mem_flatMap.mp h
    rw [List.eq_of_mem_replicate hfresh] at hin
    exact absurd hin (List.not_mem_nil)
  · obtain ⟨op, hmem, hopened⟩ := List.mem_flatMap.mp h
    have hle := (c.nesting_le_iff _).mp (Nat.le_refl _) op
      (List.mem_flatMap.mpr ⟨cycle, hcycle, hmem⟩)
    have := Operation.nesting_of_mem_opened hopened
    omega

/-- A circuit that holds a block has a positive depth. -/
theorem Circuit.nesting_pos {c : Circuit θ} (h : c.operations.any Operation.isBlock = true) :
    0 < c.nesting := by
  obtain ⟨op, hmem, hblock⟩ := List.any_eq_true.mp h
  have hpos := (Gate.nesting_pos_iff op.gate).mpr hblock
  exact Nat.lt_of_lt_of_le hpos ((c.nesting_le_iff _).mp (Nat.le_refl _) op hmem)

/-! ## Opening all levels -/

/-- Opens blocks until none is left.  The number counts the blocks that were opened. -/
def Circuit.flatten (c : Circuit θ) : Circuit θ × Nat :=
  if _h : c.operations.any Operation.isBlock = true then
    let (flat, opened) := c.openBlocks.flatten
    (flat, c.numBlocks + opened)
  else (c, 0)
termination_by c.nesting
decreasing_by
  have := c.nesting_openBlocks_le
  have := Circuit.nesting_pos _h
  omega

/-- Opens all blocks of a circuit and counts them. -/
def Mutation.flatten {ε : Type} : Mutation θ ε Nat :=
  modifyGet fun c => c.flatten.swap

end QuditCircuits
