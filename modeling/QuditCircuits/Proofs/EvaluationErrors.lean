import QuditCircuits.Gate.Library
import QuditCircuits.Proofs.Circuit.Definedness
import QuditCircuits.Proofs.Flattening
import QuditCircuits.Proofs.Runs
import QuditCircuits.Substitution.Rule

/-!
# What evaluation and the making of rules are refused for

A circuit that can be built has an operator unless its register is too large for a matrix, however its
blocks are nested and whatever the gates do.  With other parameters than its own, their number is checked
before that.

A rule compares the operators of its source and its template, so both are evaluated when it is made.  By
then the template is known to have the register of a primitive gate, and these are small: three qubits at
most, or one wire.  So only the configuration of a rule can be refused.
-/

namespace QuditCircuits

variable {θ K : Type} [Zero K] [One K] [Add K] [Mul K] [AddProduct K]

/-! ## Making a rule -/

/-- The register of a primitive gate is of word size, if the levels of its wires are. -/
theorem Primitive.dimension_lt {gate : Primitive}
    (hlevels : ∀ d ∈ gate.register.levels, d < wordBound) : gate.register.dimension < wordBound := by
  have hwire : ∀ (d : Nat) (hd : 0 < d), d < wordBound →
      (Register.replicate 1 d hd).dimension < wordBound := by
    intro d hd hlevel
    simpa [Register.replicate, Register.dimension] using hlevel
  cases gate with
  | qubit gate => cases gate <;> decide
  | levelPhase gate =>
      exact hwire _ (Nat.zero_lt_of_lt gate.level_lt) (hlevels _ List.mem_cons_self)
  | clock gate => exact hwire _ gate.numLevels_pos (hlevels _ List.mem_cons_self)
  | shift gate => exact hwire _ gate.numLevels_pos (hlevels _ List.mem_cons_self)

namespace SubstitutionRule

variable {R : Type} [RealArithmetic R] {model : GateModel θ (Amplitude R)}
  {name templateName : String} {templateBody : Circuit θ}

/-- Once source and template fit and the template has an operator, it is left to the comparison. -/
theorem make?_eq_compare {gate : Primitive} (hparams : gate.numParams = 0)
    (hregister : templateBody.register = gate.register)
    (hword : gate.register.dimension < wordBound) {U : Operator (Amplitude R)}
    (hU : templateBody.unitary? model = .ok U) :
    make? model name (.primitive gate) templateName templateBody =
      if Operator.approxEqUpToPhase (tolerance 9) U (model.operator gate []) then
        .ok ⟨name, gate, templateName, templateBody, hparams, hregister⟩
      else .error (.configuration (.rule name (.notEquivalent templateName gate.name))) := by
  have hexpected : model.unitary? gate [] = .ok (model.operator gate []) :=
    GateModel.unitary?_eq_ok_iff.mpr ⟨hparams.symm, hword, rfl⟩
  rw [make?, dif_pos hparams, dif_pos hregister, hexpected, hU]
  rfl

/-- A rule with a well-formed template is refused for its configuration only. -/
theorem exists_fault_of_make? (hbody : templateBody.WellFormed) {source : Gate θ}
    (hlevels : ∀ d ∈ source.register.levels, d < wordBound) {e : PassError θ}
    (h : make? model name source templateName templateBody = .error e) :
    ∃ fault, e = .configuration (.rule name fault) := by
  cases source with
  | block sourceName body =>
      cases h
      exact ⟨_, rfl⟩
  | primitive gate =>
      by_cases hparams : gate.numParams = 0
      · by_cases hregister : templateBody.register = gate.register
        · have hword : gate.register.dimension < wordBound := Primitive.dimension_lt hlevels
          obtain ⟨U, hU, -⟩ := hbody.exists_unitaryWith? model (hregister ▸ hword)
            templateBody.length_params
          rw [make?_eq_compare hparams hregister hword hU] at h
          split at h
          · cases h
          · cases h
            exact ⟨_, rfl⟩
        · rw [make?, dif_pos hparams, dif_neg hregister] at h
          cases h
          exact ⟨_, rfl⟩
      · rw [make?, dif_neg hparams] at h
        cases h
        exact ⟨_, rfl⟩

end SubstitutionRule

/-! ## What can be refused -/

/-- A circuit that can be built has an operator exactly if the product of its levels is a machine word, and
at other parameters if there are as many as it takes; a wrong number of them is the first thing that is
refused, and a register that is too large the only other.  If such a circuit is given as the template of a
rule, on wires whose levels are machine words, then only the configuration of the rule can be refused. -/
theorem Circuit.Reachable.evaluation_errors {c : Circuit θ} (h : c.Reachable) :
    (∀ model : GateModel θ K,
      ((∃ U, c.unitary? model = .ok U ∧ U.register = c.register) ↔
        c.register.levels.prod < 2 ^ 64) ∧
      (∀ e, c.unitary? model = .error e ↔
        2 ^ 64 ≤ c.register.levels.prod ∧ e = .registerTooLarge c.register.levels) ∧
      ∀ params,
        ((∃ U, c.unitaryWith? model params = .ok U ∧ U.register = c.register) ↔
          params.length = c.numParams ∧ c.register.levels.prod < 2 ^ 64) ∧
        ∀ e, c.unitaryWith? model params = .error e ↔
          (params.length ≠ c.numParams ∧
            e = .parameterCount "circuit" c.numParams params.length) ∨
          (params.length = c.numParams ∧ 2 ^ 64 ≤ c.register.levels.prod ∧
            e = .registerTooLarge c.register.levels)) ∧
    ∀ (R : Type) [RealArithmetic R] (model : GateModel θ (Amplitude R)) (name : String)
      (source : Gate θ) (templateName : String) (e : PassError θ),
      (∀ d ∈ source.register.levels, d < 2 ^ 64) →
      SubstitutionRule.make? model name source templateName c = .error e →
      ∃ fault, e = .configuration (.rule name fault) := by
  have hwell := h.wellFormed
  have hlen := c.length_params
  refine ⟨fun model => ⟨?_, fun e => ?_, fun params => ⟨?_, fun e => ?_⟩⟩,
    fun R _ model name source templateName e hlevels hmake =>
      SubstitutionRule.exists_fault_of_make? hwell hlevels hmake⟩
  · exact (hwell.exists_unitaryWith?_iff model).trans (and_iff_right hlen)
  · refine (hwell.unitaryWith?_eq_error_iff model).trans ?_
    rw [or_iff_right fun hwrong => hwrong.1 hlen]
    exact and_iff_right hlen
  · exact hwell.exists_unitaryWith?_iff model
  · exact hwell.unitaryWith?_eq_error_iff model

/-- A block on the outer ones of sixty-four qubits. -/
def wideCircuit : Circuit Nat :=
  .ofOperations (.qubits 64) [⟨rotatedPair, [63, 0], [5]⟩]

/-- A bit flip as a phase flip between two Hadamard gates, with parameters in double precision. -/
def flipTemplate : Circuit Double :=
  .ofOperations (.qubits 1)
    [⟨.primitive (.qubit .h), [0], []⟩, ⟨.primitive (.qubit .z), [0], []⟩,
      ⟨.primitive (.qubit .h), [0], []⟩]

-- The template acts on one qubit, so it cannot stand for a gate on two.
theorem evaluation_errors_wideCircuit :
    (∃ U, nestedCircuit.unitary? countingModel = .ok U ∧ U.register = .qubits 3) ∧
      nestedCircuit.unitaryWith? countingModel [1, 2] = .error (.parameterCount "circuit" 5 2) ∧
      wideCircuit.unitary? countingModel = .error (.registerTooLarge (List.replicate 64 2)) ∧
      (∃ U, flipTemplate.unitary? GateModel.standard = .ok U ∧ U.register = .qubits 1) ∧
      ∃ e, SubstitutionRule.make? (R := Double) .standard "cz_to_hzh" (.primitive (.qubit .cz)) "hzh"
        flipTemplate = .error e ∧ ∃ fault, e = .configuration (.rule "cz_to_hzh" fault) := by
  have hwide : wideCircuit.Reachable := by
    refine .ofOperations _ (by decide) ?_
    simpa using reachable_of_body?_rotatedPair
  have htemplate : flipTemplate.Reachable := .ofOperations _ (by decide) (by simp [Gate.body?])
  obtain ⟨hok, -, hparams⟩ := reachable_nestedCircuit.evaluation_errors.1 countingModel
  obtain ⟨-, herror, -⟩ := hwide.evaluation_errors.1 countingModel
  obtain ⟨hevaluation, hmake⟩ := htemplate.evaluation_errors (K := Amplitude Double)
  refine ⟨hok.mpr (by decide), ?_, ?_, (hevaluation .standard).1.mpr (by decide), _, rfl, ?_⟩
  · exact ((hparams [1, 2]).2 _).mpr (.inl ⟨by decide, rfl⟩)
  · exact (herror _).mpr ⟨by decide, rfl⟩
  · exact hmake Double .standard _ (.primitive (.qubit .cz)) _ _ (by decide) rfl

end QuditCircuits
