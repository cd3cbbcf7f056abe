import QuditCircuits.Proofs.Circuit.Definedness
import QuditCircuits.Proofs.Circuit.Opening

/-!
# The operator of a circuit as a product

Over a commutative ring the operator of a well-formed circuit is the product of one matrix for each
operation (`product`), the later ones on the left; evaluation succeeds whenever the dimension of the
register is a word.  From there on operators are a matter of algebra:

* matrices of operations without a common wire commute, so the product is a function of the sequences
  of operations on the wires (`product_eq_of_reordered`);
* the matrix of a block is the product of the matrices of its parts (`product_parts`), because lifting
  along a placement is multiplicative and composes.
-/

namespace QuditCircuits

variable {θ K : Type} [CommRing K] {model : GateModel θ K} {R : Register}

/-! ## Products of operations -/

/-- The matrix of an operation over a register that it fits. -/
def Operation.matrixOn (model : GateModel θ K) (R : Register) (op : Operation θ) :
    Matrix (Fin R.dimension) (Fin R.dimension) K :=
  match op.unitary? model with
  | .ok U => (U.place op.wires R).toMatrix R
  | .error _ => 1

/-- The product of the matrices of operations, the later ones on the left. -/
def product (model : GateModel θ K) (R : Register) (ops : List (Operation θ)) :
    Matrix (Fin R.dimension) (Fin R.dimension) K :=
  (ops.map (Operation.matrixOn model R)).reverse.prod

theorem product_singleton (op : Operation θ) :
    product model R [op] = op.matrixOn model R := by
  simp [product]

theorem product_append (ops ops' : List (Operation θ)) :
    product model R (ops ++ ops') = product model R ops' * product model R ops := by
  simp [product]

theorem product_cons (op : Operation θ) (ops : List (Operation θ)) :
    product model R (op :: ops) = product model R ops * op.matrixOn model R := by
  rw [← List.singleton_append, product_append, product_singleton]

/-- Replacing every operation by operations with the same product keeps the product. -/
theorem product_flatMap {ops : List (Operation θ)} {f : Operation θ → List (Operation θ)}
    (hf : ∀ op ∈ ops, product model R (f op) = op.matrixOn model R) :
    product model R (ops.flatMap f) = product model R ops := by
  induction ops with
  | nil => rfl
  | cons op ops ih =>
      obtain ⟨hop, hrest⟩ := List.forall_mem_cons.mp hf
      rw [List.flatMap_cons, product_append, hop, ih hrest, product_cons]

/-! ## Evaluation gives the product -/

/-- The operator of an operation, when there is one, as a matrix over a register. -/
theorem Operation.matrixOn_eq_lift {op : Operation θ} {S : Register}
    (hplacement : Placement S R op.wires) {U : Operator K} (hU : op.unitary? model = .ok U)
    (hregister : U.register = S) : op.matrixOn model R = hplacement.lift (U.toMatrix S) := by
  rw [matrixOn, hU]
  exact Operator.toMatrix_place hregister hplacement

/-- Multiplying the operators of a body onto an operator is multiplying with their product. -/
theorem evolve_eq_ok (hword : R.dimension < wordBound) {ops : List (Operation θ)} {params : List θ}
    (hops : ∀ op ∈ assignParams ops params, Placement op.gate.register R op.wires ∧
      ∃ U, op.unitary? model = .ok U ∧ U.register = op.gate.register)
    {acc : Operator K} (hacc : acc.register = R) :
    ∃ U, evolve R (ops.map fun op => (op, op.gate.unitary? model)) params acc = .ok U ∧
      U.register = R ∧
      U.toMatrix R = product model R (assignParams ops params) * acc.toMatrix R := by
  -- The operator so far stays on the right; each operation multiplies from the left and takes its
  -- parameters from the front.
  induction ops generalizing params acc with
  | nil => exact ⟨acc, rfl, hacc, (one_mul _).symm⟩
  | cons op ops ih =>
      obtain ⟨⟨hplacement, U, hU, hregister⟩, hrest⟩ := List.forall_mem_cons.mp hops
      have hhead : op.gate.unitary? model (params.take op.params.length) = .ok U := hU
      have hnext : ((U.place op.wires R).mul acc).register = R := rfl
      obtain ⟨V, hV, hVregister, hVmatrix⟩ := ih hrest hnext
      refine ⟨V, ?_, hVregister, ?_⟩
      · rw [List.map_cons, evolve_cons_eq hword hhead (hregister ▸ hplacement) hacc]
        exact hV
      · have hmatrix : Operation.matrixOn model R
            { op with params := params.take op.params.length } = (U.place op.wires R).toMatrix R := by
          rw [Operation.matrixOn, hU]
        rw [hVmatrix, assignParams, product_cons, hmatrix,
          Operator.toMatrix_mul (Operator.register_place U op.wires R) hacc, mul_assoc]

/-- Over a register that it fits, an operation has a lifted matrix. -/
theorem Operation.WellFormed.exists_matrixOn_eq_lift {op : Operation θ} (h : op.WellFormed R)
    (model : GateModel θ K) (hword : R.dimension < wordBound) :
    ∃ M, op.matrixOn model R = h.placement.lift M := by
  obtain ⟨U, hU, hregister⟩ := h.exists_unitary? model hword
  exact ⟨_, Operation.matrixOn_eq_lift h.placement hU hregister⟩

/-- The operator of a well-formed circuit over a register of word size, at any parameters of the right
number. -/
theorem Circuit.WellFormed.unitaryWith?_eq_ok {c : Circuit θ} (h : c.WellFormed)
    (model : GateModel θ K) (hword : c.register.dimension < wordBound) {params : List θ}
    (hlen : params.length = c.numParams) :
    ∃ U, c.unitaryWith? model params = .ok U ∧ U.register = c.register ∧
      U.toMatrix c.register = product model c.register (assignParams c.operations params) := by
  have hops : ∀ op ∈ assignParams c.operations params,
      Placement op.gate.register c.register op.wires ∧
        ∃ U, op.unitary? model = .ok U ∧ U.register = op.gate.register := by
    intro op hop
    have hwell := h.wellFormed_of_mem_assignParams hlen hop
    exact ⟨hwell.placement, hwell.exists_unitary? model hword⟩
  obtain ⟨U, hU, hregister, hmatrix⟩ :=
    evolve_eq_ok hword hops (Operator.register_identity (K := K) c.register)
  refine ⟨U, ?_, hregister, ?_⟩
  · rw [Circuit.unitaryWith?_eq_evolve hlen hword]
    exact hU
  · rw [hmatrix, Operator.toMatrix_identity, mul_one]

theorem Circuit.WellFormed.unitary?_eq_ok {c : Circuit θ} (h : c.WellFormed)
    (model : GateModel θ K) (hword : c.register.dimension < wordBound) :
    ∃ U, c.unitary? model = .ok U ∧ U.register = c.register ∧
      U.toMatrix c.register = product model c.register c.operations := by
  have hunitary := h.unitaryWith?_eq_ok model hword c.length_params
  rwa [Circuit.params, assignParams_flatMap_params] at hunitary

/-! ## The product does not see swaps -/

/-- Matrices of operations without a common wire commute. -/
theorem commute_matrixOn (hword : R.dimension < wordBound) {op op' : Operation θ}
    (h : op.WellFormed R) (h' : op'.WellFormed R)
    (hdisjoint : List.Disjoint op.wires op'.wires) :
    Commute (op.matrixOn model R) (op'.matrixOn model R) := by
  obtain ⟨M, hM⟩ := h.exists_matrixOn_eq_lift model hword
  obtain ⟨N, hN⟩ := h'.exists_matrixOn_eq_lift model hword
  rw [hM, hN]
  exact Placement.lift_commute h.placement h'.placement hdisjoint M N

theorem product_eq_of_reordered (hword : R.dimension < wordBound) {ops ops' : List (Operation θ)}
    (h : Reordered ops ops') (hops : ∀ op ∈ ops, op.WellFormed R) :
    product model R ops = product model R ops' :=
  h.prod_reverse_eq fun op hop op' hop' => commute_matrixOn hword (hops op hop) (hops op' hop')

/-! ## Blocks and their parts -/

/-- Moving an operation to the wires of a block lifts its matrix. -/
theorem matrixOn_onto {S : Register} {outer : List Wire} (houter : Placement S R outer)
    (hword : R.dimension < wordBound) {op : Operation θ} (h : op.WellFormed S) :
    (op.onto outer).matrixOn model R = houter.lift (op.matrixOn model S) := by
  obtain ⟨U, hU, hregister⟩ := h.exists_unitary? model (houter.dimension_lt hword)
  have honto : (op.onto outer).unitary? model = .ok U := hU
  have hplacement : Placement op.gate.register R (op.onto outer).wires := h.placement.trans houter
  rw [Operation.matrixOn_eq_lift h.placement hU hregister,
    Operation.matrixOn_eq_lift hplacement honto hregister]
  exact Placement.lift_trans h.placement houter _

theorem product_onto {S : Register} {outer : List Wire} (houter : Placement S R outer)
    (hword : R.dimension < wordBound) {ops : List (Operation θ)}
    (h : ∀ op ∈ ops, op.WellFormed S) :
    product model R (ops.map (Operation.onto outer)) = houter.lift (product model S ops) := by
  have hmatrix : ops.map (fun op => (op.onto outer).matrixOn model R) =
      ops.map fun op => houter.liftHom K (op.matrixOn model S) :=
    List.map_congr_left fun op hop => matrixOn_onto houter hword (h op hop)
  rw [product, product, List.map_map, ← Placement.liftHom_apply, map_list_prod, List.map_reverse,
    List.map_map]
  exact congrArg (fun l => (List.reverse l).prod) hmatrix

/-- The matrix of an operation is the product of the matrices of its parts. -/
theorem product_parts (hword : R.dimension < wordBound) {op : Operation θ}
    (h : op.WellFormed R) : product model R op.parts = op.matrixOn model R := by
  cases heq : op.gate with
  | primitive gate => rw [Operation.parts_primitive heq, product_singleton]
  | block name body =>
      obtain ⟨hplacement, hlen, hbody⟩ := h.of_block heq
      obtain ⟨U, hU, hregister, hmatrix⟩ := hbody.unitaryWith?_eq_ok model
        (hplacement.dimension_lt hword) hlen
      have hunitary : op.unitary? model = .ok U := by
        rw [Operation.unitary?, heq, Gate.unitary?_block]
        exact hU
      have hsubs : ∀ sub ∈ assignParams body.operations op.params, sub.WellFormed body.register :=
        fun sub hsub => hbody.wellFormed_of_mem_assignParams hlen hsub
      rw [Operation.parts_block heq, product_onto hplacement hword hsubs,
        Operation.matrixOn_eq_lift hplacement hunitary hregister]
      exact congrArg hplacement.lift hmatrix.symm

/-- Opening a level keeps the product. -/
theorem Circuit.WellFormed.product_openBlocks {c : Circuit θ} (h : c.WellFormed)
    (hword : c.register.dimension < wordBound) :
    product model c.register c.openBlocks.operations = product model c.register c.operations := by
  rw [product_eq_of_reordered hword h.reordered_openBlocks h.openBlocks.members]
  exact product_flatMap fun op hop => product_parts hword (h.members op hop)

theorem Circuit.WellFormed.product_flatten {c : Circuit θ} (h : c.WellFormed)
    (hword : c.register.dimension < wordBound) :
    product model c.register c.flatten.1.operations = product model c.register c.operations := by
  -- The register belongs to what is kept: without it the two products are over different states.
  refine (flatten_induct (P := fun d => d.register = c.register ∧ d.WellFormed ∧
    product model c.register d.operations = product model c.register c.operations) ?_
    ⟨rfl, h, rfl⟩).2.2
  rintro d ⟨hregister, hwell, hproduct⟩
  refine ⟨hregister, hwell.openBlocks, ?_⟩
  rw [← hproduct, ← hregister]
  exact hwell.product_openBlocks (hregister ▸ hword)

end QuditCircuits
