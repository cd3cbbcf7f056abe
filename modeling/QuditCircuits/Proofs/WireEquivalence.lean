import QuditCircuits.Proofs.Circuit.Coherence
import QuditCircuits.Proofs.Flattening

/-!
# The schedule is one order among many

A circuit is evaluated in schedule order, but every list of operations that shows what the circuit shows
on each wire has the same product (`unitary?_eq_compose?`).  Such a list differs from the schedule by
swaps of neighbours without a common wire, and their operators commute.

Two lists of this kind are worth naming.  Appending may put a later operation into an earlier cycle, but
only past operations without a wire in common with it, so the operations in the order of the calls are
one (`Circuit.WellFormed.reordered_appendAll`).  The schedule of any other circuit that agrees wire by
wire is the other, whatever its cycles.
-/

namespace QuditCircuits

variable {θ K : Type} [CommRing K] {model : GateModel θ K} {R : Register}

/-! ## Products in the order of a list -/

/-- Multiplies the operator of an operation onto `acc`, at its own parameters and on its own wires. -/
def applyOperation? (model : GateModel θ K) (R : Register) (acc : Operator K) (op : Operation θ) :
    Except ShapeError (Operator K) := do
  let own ← op.unitary? model
  let placed ← own.place? op.wires R
  placed.mul? acc

/-- The product of the operators of operations over a register, in their order, with the last one
leftmost. -/
def compose? (model : GateModel θ K) (R : Register) (ops : List (Operation θ)) :
    Except ShapeError (Operator K) := do
  ops.foldlM (applyOperation? model R) (← Operator.identity? R)

/-- Operations that get their own parameters back are multiplied on as they stand. -/
theorem evolve_flatMap_params (model : GateModel θ K) (R : Register) (ops : List (Operation θ))
    (acc : Operator K) :
    evolve R (ops.map fun op => (op, op.gate.unitary? model)) (ops.flatMap Operation.params) acc =
      ops.foldlM (applyOperation? model R) acc := by
  induction ops generalizing acc with
  | nil => rfl
  | cons op ops ih =>
      rw [List.map_cons, evolve, List.flatMap_cons, List.take_left, List.drop_left, List.foldlM_cons,
        applyOperation?]
      simp only [ih, bind_assoc]
      rfl

/-- Evaluation composes the operations in schedule order. -/
theorem Circuit.unitary?_eq_compose?_operations (model : GateModel θ K) (c : Circuit θ) :
    c.unitary? model = compose? model c.register c.operations := by
  have hcheck : checkParameters "circuit" c.numParams c.params = .ok () :=
    checkParameters_eq_ok_iff.mpr c.length_params
  rw [Circuit.unitary?, Circuit.unitaryWith?, Circuit.evaluate, hcheck, compose?]
  simp only [← evolve_flatMap_params]
  rfl

theorem compose?_eq_ok (model : GateModel θ K) (hword : R.dimension < wordBound)
    {ops : List (Operation θ)} (hops : ∀ op ∈ ops, op.WellFormed R) :
    ∃ U, compose? model R ops = .ok U ∧ U.register = R ∧
      U.toMatrix R = product model R ops := by
  have hmembers : ∀ op ∈ assignParams ops (ops.flatMap Operation.params),
      Placement op.gate.register R op.wires ∧
        ∃ U, op.unitary? model = .ok U ∧ U.register = op.gate.register := by
    rw [assignParams_flatMap_params]
    exact fun op hop => ⟨(hops op hop).placement, (hops op hop).exists_unitary? model hword⟩
  obtain ⟨U, hU, hregister, hmatrix⟩ :=
    evolve_eq_ok hword hmembers (Operator.register_identity (K := K) R)
  rw [evolve_flatMap_params] at hU
  refine ⟨U, ?_, hregister, ?_⟩
  · rw [compose?, Operator.identity?_eq_ok hword]
    exact hU
  · rw [hmatrix, assignParams_flatMap_params, Operator.toMatrix_identity, mul_one]

/-- Swaps of operations without a common wire do not change the product. -/
theorem compose?_eq_of_reordered (model : GateModel θ K) (hword : R.dimension < wordBound)
    {ops ops' : List (Operation θ)} (h : Reordered ops ops') (hops : ∀ op ∈ ops, op.WellFormed R) :
    compose? model R ops = compose? model R ops' := by
  obtain ⟨U, hU, hregister, hmatrix⟩ := compose?_eq_ok model hword hops
  obtain ⟨V, hV, hregister', hmatrix'⟩ :=
    compose?_eq_ok model hword fun op hop => hops op (h.perm.mem_iff.mpr hop)
  have hUV : U = V := by
    refine Operator.eq_of_toMatrix_eq hregister hregister' ?_
    rw [hmatrix, hmatrix', product_eq_of_reordered hword h hops]
  rw [hU, hV, hUV]

namespace Circuit

/-- The operator of a circuit is the product of any reordering of its operations. -/
theorem WellFormed.unitary?_of_reordered {c : Circuit θ} (h : c.WellFormed)
    (model : GateModel θ K) (hword : c.register.dimension < wordBound) {ops : List (Operation θ)}
    (hreordered : Reordered ops c.operations) :
    ∃ U, c.unitary? model = .ok U ∧ compose? model c.register ops = .ok U := by
  obtain ⟨U, hU, -⟩ := h.unitary?_eq_ok model hword
  refine ⟨U, hU, ?_⟩
  rw [← hU, unitary?_eq_compose?_operations]
  exact (compose?_eq_of_reordered model hword hreordered.symm h.members).symm

/-- Operations on wires of the circuit that show what the circuit shows on each of them are a
reordering of its operations. -/
theorem WellFormed.reordered_of_along_eq {c : Circuit θ} (h : c.WellFormed)
    {ops : List (Operation θ)}
    (hops : ∀ op ∈ ops, op.wires ≠ [] ∧ ∀ wire ∈ op.wires, wire < c.numWires)
    (halong : ∀ wire < c.numWires, sequenceOn wire ops = c.along wire) :
    Reordered ops c.operations := by
  refine .of_sequenceOn_eq (fun op hop => (hops op hop).1)
    (fun op hop => (h.members op hop).wires_ne_nil) fun wire => ?_
  by_cases hwire : wire < c.numWires
  · rw [halong wire hwire, h.along_eq]
  · have hnone : sequenceOn wire ops = [] :=
      sequenceOn_eq_nil_iff.mpr fun op hop hmem => hwire ((hops op hop).2 wire hmem)
    have hnone' : sequenceOn wire c.operations = [] :=
      sequenceOn_eq_nil_iff.mpr fun op hop hmem => hwire ((h.members op hop).lt_width hmem)
    rw [hnone, hnone']

/-! ## Appending -/

/-- An operation that is added to a cycle comes after the operations of that cycle, and it may as well
come last if it has no wire in common with those of later cycles. -/
theorem reordered_modify_insert {cycles : List (Cycle θ)} {k : Nat} (hk : k < cycles.length)
    {op : Operation θ} (hbehind : ∀ cycle ∈ cycles.drop (k + 1), ∀ other ∈ cycle.operations,
      List.Disjoint op.wires other.wires) :
    Reordered ((cycles.modify k fun cycle => cycle.insert op).flatMap Cycle.operations)
      (cycles.flatMap Cycle.operations ++ [op]) := by
  induction cycles generalizing k with
  | nil => simp at hk
  | cons cycle cycles ih =>
      rw [List.flatMap_cons, List.append_assoc]
      cases k with
      | zero =>
          rw [List.modify_zero_cons, List.flatMap_cons, Cycle.insert, List.append_assoc]
          refine .append_left _ (.append_comm (List.forall_mem_singleton.mpr fun other hother => ?_))
          obtain ⟨later, hlater, hmem⟩ := List.mem_flatMap.mp hother
          exact hbehind later (by simpa using hlater) other hmem
      | succ k =>
          rw [List.modify_succ_cons, List.flatMap_cons]
          exact .append_left _ (ih (by simpa using hk) (by simpa using hbehind))

/-- Appending puts an operation behind all others, up to swaps without a common wire: wherever it
lands, what lies in later cycles has no wire in common with it. -/
theorem WellFormed.reordered_insertAt {c : Circuit θ} (h : c.WellFormed) (op : Operation θ) :
    Reordered (c.insertAt (landing op.wires c.cycles) op).operations (c.operations ++ [op]) := by
  have hle := landing_le_length op.wires c.cycles
  rw [operations, Circuit.insertAt]
  split
  · next heq =>
      have hlast : (c.cycles ++ [Cycle.empty c.numWires]).flatMap Cycle.operations =
          c.operations := by
        simp [operations, Cycle.empty]
      rw [← hlast]
      refine reordered_modify_insert (by simp [heq]) ?_
      rw [heq, List.drop_eq_nil_of_le (by simp)]
      simp
  · next hne =>
      refine reordered_modify_insert (by omega) fun cycle hcycle other hother => ?_
      obtain ⟨j, hj⟩ := List.mem_iff_getElem?.mp hcycle
      rw [List.getElem?_drop] at hj
      have hindexed := h.indexed cycle (List.mem_of_getElem? hj)
      exact (hindexed.isFree_iff op.wires).mp (isFree_of_landing_le (by omega) hj) other hother

/-- The circuit after operations were appended one after the other, none of which is refused. -/
def appendAll? (c : Circuit θ) (ops : List (Operation θ)) : Except ShapeError (Circuit θ) :=
  ops.foldlM (fun c op => (c.append? op).map Prod.snd) c

theorem WellFormed.reordered_appendAll {c c' : Circuit θ} (h : c.WellFormed)
    {ops : List (Operation θ)} (hmade : ∀ op ∈ ops, op.Made)
    (hgates : ∀ op ∈ ops, op.gate.WellFormed) (happend : c.appendAll? ops = .ok c') :
    Reordered c'.operations (c.operations ++ ops) := by
  -- The circuit grows at the end, so the induction is over all circuits to append to.
  induction ops generalizing c with
  | nil =>
      obtain rfl : c = c' := pure_eq_ok_iff.mp happend
      simpa using Reordered.refl c.operations
  | cons op ops ih =>
      obtain ⟨hop, hmade⟩ := List.forall_mem_cons.mp hmade
      obtain ⟨hgate, hgates⟩ := List.forall_mem_cons.mp hgates
      rw [appendAll?, List.foldlM_cons] at happend
      obtain ⟨longer, hlonger, hrest⟩ := bind_eq_ok_iff.mp happend
      obtain ⟨point, hlonger⟩ := map_snd_eq_ok_iff.mp hlonger
      have hreordered : Reordered longer.operations (c.operations ++ [op]) := by
        obtain ⟨-, -, -, -, rfl⟩ := append?_eq_ok_iff.mp hlonger
        exact h.reordered_insertAt op
      have hall := ih (h.append hop hgate hlonger) hmade hgates hrest
      simpa using hall.trans (hreordered.append_right ops)

/-! ## Orders that agree along the wires -/

/-- The operator of a circuit is the product of its operations in any order that shows, on each wire,
what the circuit shows there cycle by cycle.  Such orders are the order in which the operations were
appended and the schedule of every circuit that agrees wire by wire. -/
theorem Reachable.unitary?_eq_compose? {c : Circuit θ} (h : c.Reachable) (model : GateModel θ K)
    (hword : c.register.dimension < wordBound) :
    (∀ ops : List (Operation θ),
      (∀ op ∈ ops, op.wires ≠ [] ∧ ∀ wire ∈ op.wires, wire < c.numWires) →
      (∀ wire < c.numWires, sequenceOn wire ops = c.along wire) →
      ∃ U, c.unitary? model = .ok U ∧ compose? model c.register ops = .ok U) ∧
    (∀ ops : List (Operation θ), (∀ op ∈ ops, op.Made) →
      (∀ op ∈ ops, ∀ body, op.gate.body? = some body → body.Reachable) →
      (Circuit.empty c.register).appendAll? ops = .ok c →
      ∃ U, c.unitary? model = .ok U ∧ compose? model c.register ops = .ok U) ∧
    ∀ d : Circuit θ, d.Reachable → d.register = c.register →
      (∀ wire < c.numWires, d.along wire = c.along wire) → d.unitary? model = c.unitary? model := by
  have hwell := h.wellFormed
  refine ⟨fun ops hops halong => ?_, fun ops hmade hbody happend => ?_,
    fun d hd hregister halong => ?_⟩
  · exact hwell.unitary?_of_reordered model hword (hwell.reordered_of_along_eq hops halong)
  · have hgates : ∀ op ∈ ops, op.gate.WellFormed := fun op hop =>
      Gate.wellFormed_of_reachable (hbody op hop)
    have hreordered := (wellFormed_empty c.register).reordered_appendAll hmade hgates happend
    exact hwell.unitary?_of_reordered model hword hreordered.symm
  · have hdwell := hd.wellFormed
    have hreordered : Reordered d.operations c.operations := by
      refine hwell.reordered_of_along_eq (fun op hop => ?_) fun wire hwire => ?_
      · have hfits := (hdwell.members op hop).toFits
        rw [hregister] at hfits
        exact ⟨hfits.wires_ne_nil, fun wire => hfits.lt_width⟩
      · rw [← hdwell.along_eq, halong wire hwire]
    rw [unitary?_eq_compose?_operations, unitary?_eq_compose?_operations, hregister]
    exact (compose?_eq_of_reordered model hword hreordered.symm hwell.members).symm

end Circuit

/-- The operations of `nestedCircuit` with the rotation first. -/
def rotationFirst : List (Operation Nat) :=
  [⟨.primitive (.qubit .rz), [1], [13]⟩, ⟨nestedPair, [2, 0], [10, 11, 12]⟩,
    ⟨rotatedPair, [1, 2], [14]⟩]

theorem unitary?_eq_compose?_rotationFirst :
    nestedCircuit.Reachable ∧ nestedCircuit.register.dimension < wordBound ∧
      nestedCircuit.operations.map Operation.wires = [[2, 0], [1], [1, 2]] ∧
      rotationFirst.map Operation.wires = [[1], [2, 0], [1, 2]] ∧
      (∀ op ∈ rotationFirst, op.wires ≠ [] ∧ ∀ wire ∈ op.wires, wire < nestedCircuit.numWires) ∧
      (∀ wire < nestedCircuit.numWires, sequenceOn wire rotationFirst = nestedCircuit.along wire) ∧
      ∃ U, nestedCircuit.unitary? countingModel = .ok U ∧
        compose? countingModel nestedCircuit.register rotationFirst = .ok U := by
  have hword : nestedCircuit.register.dimension < wordBound := by decide
  have hops : ∀ op ∈ rotationFirst,
      op.wires ≠ [] ∧ ∀ wire ∈ op.wires, wire < nestedCircuit.numWires := by decide
  have halong : ∀ wire < nestedCircuit.numWires,
      sequenceOn wire rotationFirst = nestedCircuit.along wire := by
    intro wire hwire
    have hcases : wire = 0 ∨ wire = 1 ∨ wire = 2 := by
      have hthree : nestedCircuit.numWires = 3 := by decide
      omega
    rcases hcases with rfl | rfl | rfl <;> rfl
  exact ⟨reachable_nestedCircuit, hword, by decide, by decide, hops, halong,
    (reachable_nestedCircuit.unitary?_eq_compose? countingModel hword).1 _ hops halong⟩

end QuditCircuits
