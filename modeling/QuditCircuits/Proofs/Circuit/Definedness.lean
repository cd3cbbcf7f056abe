import QuditCircuits.Circuit.Unitary
import QuditCircuits.Proofs.Circuit.Binding
import QuditCircuits.Proofs.GateModels
import QuditCircuits.Proofs.Operator.Placement

/-!
# When evaluation succeeds

Evaluating a circuit checks a number of parameters, the size of the register, and for each operation
again its parameters, the entries of its gate, its placement and a product; and so on inside every block.
In a well-formed circuit only the checks at the top can fail: the body of a block gets as many parameters
as it takes, because the operation holds as many, and its register is no larger than the one around it,
because its wires are wires of that register with the same levels.

Scalars play no part in this, so it holds for every gate model, in double precision as over a ring.
-/

namespace QuditCircuits

variable {θ K : Type} [Zero K] [One K] [Add K] [Mul K] [AddProduct K]

/-! ## One operation after the other -/

section Evolve

variable {R : Register} (hword : R.dimension < wordBound)
include hword

/-- Multiplying the operator of one operation onto the others, placed on the wires of the operation. -/
theorem evolve_cons_eq {op : Operation θ} {evaluation : Evaluation θ K}
    {rest : List (Operation θ × Evaluation θ K)} {params : List θ} {U acc : Operator K}
    (hU : evaluation (params.take op.params.length) = .ok U)
    (hplacement : Placement U.register R op.wires) (hacc : acc.register = R) :
    evolve R ((op, evaluation) :: rest) params acc =
      evolve R rest (params.drop op.params.length) ((U.place op.wires R).mul acc) := by
  have hplace := Operator.place?_eq_ok hplacement hword
  have hmul := Operator.mul?_eq_ok (Operator.register_place U op.wires R) hacc
  rw [evolve, hU]
  show (U.place? op.wires R >>= _) = _
  rw [hplace]
  show ((U.place op.wires R).mul? acc >>= _) = _
  rw [hmul]
  rfl

/-- Operations that have operators and fit can be multiplied onto any operator over the register. -/
theorem exists_evolve_eq_ok {model : GateModel θ K} {ops : List (Operation θ)} {params : List θ}
    (hops : ∀ op ∈ assignParams ops params, Placement op.gate.register R op.wires ∧
      ∃ U, op.unitary? model = .ok U ∧ U.register = op.gate.register)
    {acc : Operator K} (hacc : acc.register = R) :
    ∃ U, evolve R (ops.map fun op => (op, op.gate.unitary? model)) params acc = .ok U ∧
      U.register = R := by
  -- Each operation takes its parameters from the front, so the list of them goes along.
  induction ops generalizing params acc with
  | nil => exact ⟨acc, rfl, hacc⟩
  | cons op ops ih =>
      obtain ⟨⟨hplacement, U, hU, hregister⟩, hrest⟩ := List.forall_mem_cons.mp hops
      have hhead : op.gate.unitary? model (params.take op.params.length) = .ok U := hU
      obtain ⟨V, hV, hVregister⟩ := ih hrest
        ((Operator.register_mul _ acc).trans (Operator.register_place U op.wires R))
      refine ⟨V, ?_, hVregister⟩
      rw [List.map_cons, evolve_cons_eq hword hhead (hregister ▸ hplacement) hacc]
      exact hV

end Evolve

/-! ## The checks at the top -/

section Top

variable {c : Circuit θ} {model : GateModel θ K} {params : List θ}

/-- A wrong number of parameters is found first. -/
theorem Circuit.unitaryWith?_of_length_ne (hlen : params.length ≠ c.numParams) :
    c.unitaryWith? model params =
      .error (.parameterCount "circuit" c.numParams params.length) := by
  rw [unitaryWith?, evaluate, checkParameters, if_neg hlen]
  rfl

/-- Then a register whose dimension is no word. -/
theorem Circuit.unitaryWith?_of_wordBound_le (hlen : params.length = c.numParams)
    (hlarge : wordBound ≤ c.register.dimension) :
    c.unitaryWith? model params = .error (.registerTooLarge c.register.levels) := by
  rw [unitaryWith?, evaluate, checkParameters, if_pos hlen, Operator.identity?, Register.dim?_eq,
    if_neg (Nat.not_lt_of_le hlarge)]
  rfl

/-- What is left is to multiply the operators of the operations. -/
theorem Circuit.unitaryWith?_eq_evolve (hlen : params.length = c.numParams)
    (hword : c.register.dimension < wordBound) :
    c.unitaryWith? model params = evolve c.register
      (c.operations.map fun op => (op, op.gate.unitary? model)) params (.identity c.register) := by
  rw [unitaryWith?, evaluate, checkParameters, if_pos hlen, Operator.identity?_eq_ok hword]
  rfl

end Top

/-! ## Well-formed gates and circuits -/

/-- Every well-formed gate on a register of word size has an operator at any parameters of the right
number. -/
theorem Gate.WellFormed.exists_unitary? {gate : Gate θ} (h : gate.WellFormed)
    (model : GateModel θ K) (hword : gate.register.dimension < wordBound) {params : List θ}
    (hlen : params.length = gate.numParams) :
    ∃ U, gate.unitary? model params = .ok U ∧ U.register = gate.register := by
  induction gate using Gate.induct generalizing params with
  | primitive gate =>
      refine ⟨model.operator gate params, ?_, model.register_operator gate params⟩
      rw [Gate.unitary?_primitive, GateModel.unitary?_eq_ok_iff]
      exact ⟨hlen, hword, rfl⟩
  | block name body ih =>
      rw [Gate.wellFormed_block] at h
      have hops : ∀ op ∈ assignParams body.operations params,
          Placement op.gate.register body.register op.wires ∧
            ∃ U, op.unitary? model = .ok U ∧ U.register = op.gate.register := by
        intro op hop
        obtain ⟨⟨hplacement, -, hparams⟩, hwell⟩ := h.wellFormed_of_mem_assignParams hlen hop
        -- Only parameters are exchanged, so the gate is one of the body and the induction applies
        -- to it.
        obtain ⟨inner, hinner, hgate, -⟩ := exists_of_mem_assignParams
          (Nat.le_of_eq (body.length_params.trans hlen.symm)) hop
        have hinnerword := hplacement.dimension_lt hword
        rw [hgate] at hwell hinnerword hparams
        refine ⟨hplacement, ?_⟩
        rw [Operation.unitary?, hgate]
        exact ih inner hinner hwell hinnerword hparams
      rw [Gate.unitary?_block, Circuit.unitaryWith?_eq_evolve hlen hword]
      exact exists_evolve_eq_ok hword hops (Operator.register_identity body.register)

theorem Operation.WellFormed.exists_unitary? {R : Register} {op : Operation θ} (h : op.WellFormed R)
    (model : GateModel θ K) (hword : R.dimension < wordBound) :
    ∃ U, op.unitary? model = .ok U ∧ U.register = op.gate.register :=
  h.gate.exists_unitary? model (h.placement.dimension_lt hword) h.length_params

theorem Circuit.WellFormed.exists_unitaryWith? {c : Circuit θ} (h : c.WellFormed)
    (model : GateModel θ K) (hword : c.register.dimension < wordBound) {params : List θ}
    (hlen : params.length = c.numParams) :
    ∃ U, c.unitaryWith? model params = .ok U ∧ U.register = c.register := by
  rw [Circuit.unitaryWith?_eq_evolve hlen hword]
  refine exists_evolve_eq_ok hword (fun op hop => ?_) (Operator.register_identity c.register)
  have hwell := h.wellFormed_of_mem_assignParams hlen hop
  exact ⟨hwell.placement, hwell.exists_unitary? model hword⟩

/-- The errors of evaluation are those of the checks at the top. -/
theorem Circuit.WellFormed.unitaryWith?_eq_error_iff {c : Circuit θ} (h : c.WellFormed)
    (model : GateModel θ K) {params : List θ} {e : ShapeError} :
    c.unitaryWith? model params = .error e ↔
      (params.length ≠ c.numParams ∧ e = .parameterCount "circuit" c.numParams params.length) ∨
      (params.length = c.numParams ∧ wordBound ≤ c.register.dimension ∧
        e = .registerTooLarge c.register.levels) := by
  by_cases hlen : params.length = c.numParams
  · rcases Nat.lt_or_ge c.register.dimension wordBound with hword | hlarge
    · obtain ⟨U, hU, -⟩ := h.exists_unitaryWith? model hword hlen
      simp [hU, hlen, Nat.not_le_of_lt hword]
    · simp [Circuit.unitaryWith?_of_wordBound_le hlen hlarge, hlen, hlarge, eq_comm (b := e)]
  · simp [Circuit.unitaryWith?_of_length_ne hlen, hlen, eq_comm (b := e)]

/-- If there is no error, the operator acts on the register of the circuit. -/
theorem Circuit.WellFormed.exists_unitaryWith?_iff {c : Circuit θ} (h : c.WellFormed)
    (model : GateModel θ K) {params : List θ} :
    (∃ U, c.unitaryWith? model params = .ok U ∧ U.register = c.register) ↔
      params.length = c.numParams ∧ c.register.dimension < wordBound := by
  constructor
  · rintro ⟨U, hU, -⟩
    have hne : ∀ e, c.unitaryWith? model params ≠ .error e := fun e he => by simp [hU] at he
    simp only [ne_eq, h.unitaryWith?_eq_error_iff model] at hne
    by_contra hcontra
    by_cases hlen : params.length = c.numParams
    · exact hne _ (.inr ⟨hlen, Nat.le_of_not_lt fun hword => hcontra ⟨hlen, hword⟩, rfl⟩)
    · exact hne _ (.inl ⟨hlen, rfl⟩)
  · rintro ⟨hlen, hword⟩
    exact h.exists_unitaryWith? model hword hlen

end QuditCircuits
