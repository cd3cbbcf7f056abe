import QuditCircuits.Proofs.Circuit.Evaluation
import QuditCircuits.Proofs.Pipeline.Passes
import QuditCircuits.Proofs.Reachable

/-!
# What a rule does to the operator

If the template of a rule has the operator of the source times a scalar, then every exchange of the
source for the template multiplies the operator of the circuit by that scalar, wherever the source
lies and on whatever wires.  Flattening does not change the operator, so running a rule multiplies it
by the power that counts the sites.
-/

namespace QuditCircuits

variable {θ K : Type} {F : PropertyFamily} [CommRing K] {model : GateModel θ K}

namespace SubstitutionRule

variable {rule : SubstitutionRule θ}

section Exchange

variable {R : Register} {x : K} {S : Operator K}
  (hsource : model.unitary? rule.source [] = .ok S)
  (htemplate : rule.templateBody.unitary? model = .ok (S.scale x))
include hsource htemplate

/-- Exchanging the source for the template multiplies the matrix by the scalar of the rule. -/
theorem matrixOn_templateOn {op : Operation θ} (h : op.WellFormed R)
    (hop : op.gate = .primitive rule.source) :
    (rule.templateOn op.wires).matrixOn model R = x • op.matrixOn model R := by
  obtain ⟨hplacement, hlen⟩ := h.of_primitive hop
  have hparams : op.params = [] :=
    List.length_eq_zero_iff.mp (hlen.trans rule.source_numParams)
  have hregister : S.register = rule.source.register := by
    obtain ⟨-, -, hS⟩ := GateModel.unitary?_eq_ok_iff.mp hsource
    rw [← hS]
    exact model.register_operator rule.source []
  have hbefore : op.unitary? model = .ok S := by
    rw [Operation.unitary?, hop, hparams]
    exact hsource
  have hafter : (rule.templateOn op.wires).unitary? model = .ok (S.scale x) := by
    rw [Operation.unitary?, templateOn, template, Gate.unitary?_block]
    exact htemplate
  have hplacement' : Placement rule.source.register R (rule.templateOn op.wires).wires := hplacement
  rw [Operation.matrixOn_eq_lift hplacement hbefore hregister,
    Operation.matrixOn_eq_lift hplacement' hafter hregister, Operator.toMatrix_scale hregister,
    Placement.lift_smul]
  rfl

/-- Exchanging the source for the template throughout multiplies the product by a power. -/
theorem product_map_exchange {ops : List (Operation θ)} (hops : ∀ op ∈ ops, op.WellFormed R) :
    product model R (ops.map rule.exchange) =
      x ^ ops.countP rule.holdsSource • product model R ops := by
  induction ops with
  | nil => rw [List.map_nil, List.countP_nil, pow_zero, one_smul]
  | cons op ops ih =>
      obtain ⟨hop, hrest⟩ := List.forall_mem_cons.mp hops
      rw [List.map_cons, product_cons, product_cons, ih hrest]
      by_cases hholds : rule.holdsSource op = true
      · rw [exchange, if_pos hholds, List.countP_cons_of_pos hholds,
          matrixOn_templateOn hsource htemplate hop (holdsSource_iff.mp hholds),
          smul_mul_smul_comm, pow_succ]
      · rw [exchange, if_neg hholds, List.countP_cons_of_neg hholds, smul_mul_assoc]

end Exchange

/-! ## Integer flips, for an example -/

/-- The bit flip and the phase flip as integer matrices; other gates do nothing. -/
def flipModel : GateModel Nat ℤ :=
  .ofFn fun gate _ row col =>
    match gate with
    | .qubit .x => if row = col then 0 else 1
    | .qubit .z => if row = col then (-1) ^ row else 0
    | _ => if row = col then 1 else 0

/-- A phase flip between two bit flips is the phase flip with the other sign. -/
def conjugatedFlip : SubstitutionRule Nat where
  name := "z_to_xzx"
  source := .qubit .z
  templateName := "xzx"
  templateBody := .ofOperations (.qubits 1)
    [⟨.primitive (.qubit .x), [0], []⟩, ⟨.primitive (.qubit .z), [0], []⟩,
      ⟨.primitive (.qubit .x), [0], []⟩]
  source_numParams := by decide
  template_register := by decide

theorem unitary?_conjugatedFlip : conjugatedFlip.templateBody.unitary? flipModel =
    .ok ((flipModel.operator (.qubit .z) []).scale (-1)) := by
  rfl

/-- Three phase flips at the top level and one inside a block. -/
def flippedCircuit : Circuit Nat :=
  .ofOperations (.qubits 2)
    [⟨.primitive (.qubit .z), [0], []⟩, ⟨.primitive (.qubit .z), [1], []⟩,
      ⟨.block "flip" (.ofOperations (.qubits 2)
        [⟨.primitive (.qubit .x), [1], []⟩, ⟨.primitive (.qubit .z), [0], []⟩]), [1, 0], []⟩,
      ⟨.primitive (.qubit .z), [0], []⟩]

theorem reachable_flippedCircuit : flippedCircuit.Reachable := by
  refine .ofOperations _ (by decide) ?_
  have hblock : (Circuit.ofOperations (.qubits 2) [⟨.primitive (.qubit .x), [1], []⟩,
      ⟨.primitive (.qubit .z), [0], []⟩] : Circuit Nat).Reachable :=
    .ofOperations _ (by decide) (by simp [Gate.body?])
  simpa [Gate.body?] using hblock

theorem reachable_conjugatedFlip : conjugatedFlip.templateBody.Reachable :=
  .ofOperations _ (by decide) (by simp [Gate.body?])

/-! ## The operator after a run -/

/-- Running a rule whose template is the source times a scalar multiplies the operator of the circuit
by the power of that scalar that counts the sites. -/
theorem unitary?_run_pass {c : Circuit θ} (h : c.Reachable)
    (hword : c.register.dimension < wordBound) (htemplate : rule.templateBody.Reachable) {x : K}
    {S : Operator K} (hsource : model.unitary? rule.source [] = .ok S)
    (hscale : rule.templateBody.unitary? model = .ok (S.scale x)) (properties : Properties F) :
    ∃ c' U, (rule.pass F).run ⟨c, properties⟩ =
        .ok () ⟨c', properties.record rule.name (rule.sites c).length⟩ ∧
      c.unitary? model = .ok U ∧
      c'.unitary? model = .ok (U.scale (x ^ (rule.sites c).length)) := by
  have hwell := h.wellFormed
  obtain ⟨d, happly, hsubstitute⟩ := exists_apply_eq_ok hwell rule
  have hd := hwell.substitute htemplate.wellFormed hsubstitute
  have hregister : d.register = c.register :=
    Circuit.register_of_replace? (substitute_eq_ok_iff.mp hsubstitute).2
  have hflat : d.flatten.1.register = c.register := d.register_flatten.trans hregister
  obtain ⟨U, hU, hUregister, hUmatrix⟩ := hwell.unitary?_eq_ok model hword
  obtain ⟨V, hV, hVregister, hVmatrix⟩ :=
    hd.flatten.unitary?_eq_ok model (hflat.symm ▸ hword)
  refine ⟨d.flatten.1, U, run_pass_eq_ok properties happly, hU, hV.trans (congrArg _ ?_)⟩
  refine Operator.eq_of_toMatrix_eq (hVregister.trans hflat) hUregister ?_
  rw [hflat] at hVmatrix
  -- Flattening keeps the product, and before it the template stands where the source was.
  have hproduct : product model c.register d.flatten.1.operations =
      product model c.register d.operations := by
    rw [← hregister]
    exact hd.product_flatten (hregister.symm ▸ hword)
  rw [hVmatrix, hproduct, operations_of_substitute_sites hwell hsubstitute,
    product_map_exchange hsource hscale hwell.members, Operator.toMatrix_scale hUregister, hUmatrix,
    length_sites hwell]

theorem unitary?_run_conjugatedFlip :
    flippedCircuit.Reachable ∧ (conjugatedFlip.sites flippedCircuit).length = 3 ∧
      ∃ c' U, conjugatedFlip.pass.run ⟨flippedCircuit, .empty⟩ =
          .ok () ⟨c', Properties.empty.record "z_to_xzx" 3⟩ ∧
        flippedCircuit.unitary? flipModel = .ok U ∧
        c'.unitary? flipModel = .ok (U.scale ((-1) ^ 3)) :=
  ⟨reachable_flippedCircuit, by decide, unitary?_run_pass reachable_flippedCircuit (by decide)
    reachable_conjugatedFlip rfl unitary?_conjugatedFlip .empty⟩

end SubstitutionRule
end QuditCircuits
