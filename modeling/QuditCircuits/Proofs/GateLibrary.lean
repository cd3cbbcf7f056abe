import Mathlib.Algebra.BigOperators.Fin
import Mathlib.Tactic.LinearCombination
import QuditCircuits.Circuit.Unitary
import QuditCircuits.Proofs.Operator.ComplexMatrices
import QuditCircuits.Proofs.WeylRelations

/-!
# The gate library is unitary

In exact arithmetic every primitive gate has a unitary operator over its own register, at all parameters
of the right number, and refuses any other number of parameters (`GateModel.standard_unitary`).  The
operator is made by the constructors that check the entries.

The gates come in three kinds.

* Gates on one qubit are matrices with two rows: phases on the diagonal, phases off the diagonal, or
  rotations `c, -s u` above `s v, c u v` with `c ^ 2 + s ^ 2 = 1` and phases `u` and `v`.  The general gate
  by three angles is the general rotation.
* Controlled gates are a gate on one qubit below the identity.
* All others move basis states with factors of length one.
-/

namespace QuditCircuits

open scoped ComplexConjugate

/-! ## Entries as complex matrices -/

/-- Entries, row by row, as a complex matrix. -/
noncomputable def rowsMatrix (d : Nat) (entries : List (Amplitude ℝ)) : Matrix (Fin d) (Fin d) ℂ :=
  Matrix.of fun row col => (entries.getD (row * d + col) 0).toComplex

theorem MatrixEntries.complexMatrix_rows {R : Register} {entries : List (Amplitude ℝ)}
    (h : (rows entries).Fits R) :
    ((rows entries).operator R h).complexMatrix R = rowsMatrix R.dimension entries := by
  ext row col
  rw [Operator.complexMatrix_apply, entry_rows h row col.isLt]
  rfl

/-! ## Two rows -/

theorem mul_conj_of_norm_eq_one {z : ℂ} (h : ‖z‖ = 1) : z * conj z = 1 := by
  rw [Complex.mul_conj', h, Complex.ofReal_one, one_pow]

section Rows

variable {a b c d : Amplitude ℝ}

/-- Two rows of length one that are orthogonal to each other. -/
theorem block_mem_unitary
    (hfirst : a.toComplex * conj a.toComplex + b.toComplex * conj b.toComplex = 1)
    (hsecond : c.toComplex * conj c.toComplex + d.toComplex * conj d.toComplex = 1)
    (hcross : a.toComplex * conj c.toComplex + b.toComplex * conj d.toComplex = 0) :
    rowsMatrix 2 (Block.entries ⟨a, b, c, d⟩) ∈ Matrix.unitaryGroup (Fin 2) ℂ := by
  have hcross' : c.toComplex * conj a.toComplex + d.toComplex * conj b.toComplex = 0 := by
    have hconj := congrArg conj hcross
    rw [map_add, map_mul, map_mul, Complex.conj_conj, Complex.conj_conj, map_zero] at hconj
    rw [mul_comm, mul_comm d.toComplex, hconj]
  rw [Matrix.mem_unitaryGroup_iff]
  ext row col
  rw [Matrix.mul_apply, Fin.sum_univ_two]
  match row, col with
  | 0, 0 => exact hfirst
  | 0, 1 => exact hcross
  | 1, 0 => exact hcross'
  | 1, 1 => exact hsecond

theorem phases_mem_unitary (ha : ‖a.toComplex‖ = 1) (hd : ‖d.toComplex‖ = 1) :
    rowsMatrix 2 (Block.entries ⟨a, 0, 0, d⟩) ∈ Matrix.unitaryGroup (Fin 2) ℂ := by
  apply block_mem_unitary <;> simp [mul_conj_of_norm_eq_one ha, mul_conj_of_norm_eq_one hd]

theorem flips_mem_unitary (hb : ‖b.toComplex‖ = 1) (hc : ‖c.toComplex‖ = 1) :
    rowsMatrix 2 (Block.entries ⟨0, b, c, 0⟩) ∈ Matrix.unitaryGroup (Fin 2) ℂ := by
  apply block_mem_unitary <;> simp [mul_conj_of_norm_eq_one hb, mul_conj_of_norm_eq_one hc]

/-- A rotation by an angle with cosine `x` and sine `y`, up to the phases `u` and `v`. -/
theorem rotation_mem_unitary {x y : ℝ} (hxy : x ^ 2 + y ^ 2 = 1) {u v : ℂ} (hu : ‖u‖ = 1)
    (hv : ‖v‖ = 1) (ha : a.toComplex = x) (hb : b.toComplex = -(y * u)) (hc : c.toComplex = y * v)
    (hd : d.toComplex = x * (u * v)) :
    rowsMatrix 2 (Block.entries ⟨a, b, c, d⟩) ∈ Matrix.unitaryGroup (Fin 2) ℂ := by
  have hlength : (x : ℂ) ^ 2 + (y : ℂ) ^ 2 = 1 := by exact_mod_cast hxy
  have hu' := mul_conj_of_norm_eq_one hu
  have hv' := mul_conj_of_norm_eq_one hv
  apply block_mem_unitary
  · rw [ha, hb, map_neg, map_mul, Complex.conj_ofReal, Complex.conj_ofReal]
    linear_combination hlength + (y : ℂ) ^ 2 * hu'
  · rw [hc, hd, map_mul, map_mul, map_mul, Complex.conj_ofReal, Complex.conj_ofReal]
    linear_combination hlength + ((y : ℂ) ^ 2 + (x : ℂ) ^ 2 * u * conj u) * hv' + (x : ℂ) ^ 2 * hu'
  · rw [ha, hb, hc, hd, map_mul, map_mul, map_mul, Complex.conj_ofReal, Complex.conj_ofReal]
    linear_combination (-(x : ℂ) * y * conj v) * hu'

end Rows

/-! ## Gates on one qubit -/

namespace QubitGate

theorem norm_turn (angle : ℝ) : ‖(turn angle).toComplex‖ = 1 := by
  rw [turn, Amplitude.toComplex_polar, Complex.ofReal_one, one_mul, Complex.norm_exp_ofReal_mul_I]

theorem cos_sq_add_sin_sq_half (angle : ℝ) :
    RealArithmetic.cos (half angle) ^ 2 + RealArithmetic.sin (half angle) ^ 2 = 1 :=
  Real.cos_sq_add_sin_sq _

theorem sqrtHalf_sq_add_sq : (RealArithmetic.sqrtHalf : ℝ) ^ 2 + RealArithmetic.sqrtHalf ^ 2 = 1 := by
  have hsquare : (RealArithmetic.sqrtHalf : ℝ) ^ 2 = 1 / 2 := Real.sq_sqrt (by norm_num)
  rw [hsquare, add_halves]

theorem half_eq (x : ℝ) : half x = x / 2 :=
  congrArg (x / ·) Nat.cast_ofNat

/-- The entries of the root of the flip are `(1 + i) / 2` and its conjugate. -/
theorem block_sx_mem_unitary (angle : Nat → ℝ) :
    rowsMatrix 2 (sx.block angle).entries ∈ Matrix.unitaryGroup (Fin 2) ℂ := by
  let plus : Amplitude ℝ := ⟨half 1, half 1⟩
  let minus : Amplitude ℝ := ⟨half 1, -half 1⟩
  have hplus : plus.toComplex = (1 + Complex.I) / 2 := by
    rw [Amplitude.toComplex_mk, half_eq]
    push_cast
    ring
  have hminus : minus.toComplex = (1 - Complex.I) / 2 := by
    rw [Amplitude.toComplex_mk, half_eq]
    push_cast
    ring
  have hconj : conj plus.toComplex = minus.toComplex := by
    rw [hplus, hminus, map_div₀, map_add, map_one, Complex.conj_I, map_ofNat, sub_eq_add_neg]
  have hconj' : conj minus.toComplex = plus.toComplex := by
    rw [← hconj, Complex.conj_conj]
  have hlength : plus.toComplex * conj plus.toComplex + minus.toComplex * conj minus.toComplex = 1 := by
    rw [hconj, hconj', hplus, hminus]
    linear_combination (-1 / 2 : ℂ) * Complex.I_sq
  have hcross : plus.toComplex * conj minus.toComplex + minus.toComplex * conj plus.toComplex = 0 := by
    rw [hconj, hconj', hplus, hminus]
    linear_combination (1 / 2 : ℂ) * Complex.I_sq
  exact block_mem_unitary (b := minus) hlength (by rw [add_comm, hlength]) hcross

/-- The gate on one qubit, or the one under the control, is unitary at all angles. -/
theorem entries_block_mem_unitary (angle : Nat → ℝ) (g : QubitGate) :
    rowsMatrix 2 (g.block angle).entries ∈ Matrix.unitaryGroup (Fin 2) ℂ := by
  cases g with
  | x | cx => exact flips_mem_unitary (by simp) (by simp)
  | y | cy => exact flips_mem_unitary (by simp) (by simp)
  | id | z | s | sdg | cz | swap | iswap | ccx => exact phases_mem_unitary (by simp) (by simp)
  | t | tdg | p | cp => exact phases_mem_unitary (by simp) (norm_turn _)
  | rz | crz => exact phases_mem_unitary (norm_turn _) (norm_turn _)
  | h | ch =>
      refine rotation_mem_unitary sqrtHalf_sq_add_sq (u := -1) (v := 1) (by simp) (by simp) rfl ?_ ?_ ?_
      · simp
      · simp
      · simp
  | sx => exact block_sx_mem_unitary angle
  | rx =>
      refine rotation_mem_unitary (cos_sq_add_sin_sq_half (angle 0)) (u := Complex.I)
        (v := -Complex.I) (by simp) (by simp) rfl ?_ ?_ ?_
      · simp [Amplitude.toComplex_mk]
      · simp [Amplitude.toComplex_mk]
      · simp
  | ry =>
      refine rotation_mem_unitary (cos_sq_add_sin_sq_half (angle 0)) (u := 1) (v := 1) (by simp)
        (by simp) rfl ?_ ?_ ?_
      · simp
      · simp
      · simp
  | u3 =>
      refine rotation_mem_unitary (cos_sq_add_sin_sq_half (angle 0))
        (Complex.norm_exp_ofReal_mul_I (angle 2)) (Complex.norm_exp_ofReal_mul_I (angle 1)) rfl ?_ ?_ ?_
      · rw [Amplitude.toComplex_neg, Amplitude.toComplex_polar]
      · rw [Amplitude.toComplex_polar]
      · rw [Amplitude.toComplex_polar, Complex.ofReal_add, add_mul, Complex.exp_add,
          mul_comm (Complex.exp _)]

end QubitGate

/-! ## Gates under a control -/

/-- The quarters of a controlled gate: the identity, zeros and the block. -/
theorem Block.getD_controlled {K : Type} [Zero K] [One K] (u : Block K) (row col : Fin 2) :
    u.controlled.getD (row * 4 + col) 0 = (if row = col then 1 else 0) ∧
      u.controlled.getD (row * 4 + (2 + col)) 0 = 0 ∧
      u.controlled.getD ((2 + row) * 4 + col) 0 = 0 ∧
      u.controlled.getD ((2 + row) * 4 + (2 + col)) 0 = u.entries.getD (row * 2 + col) 0 := by
  match row, col with
  | 0, 0 | 0, 1 | 1, 0 | 1, 1 => exact ⟨rfl, rfl, rfl, rfl⟩

/-- The states without the control come first, and nothing happens to them. -/
theorem rowsMatrix_controlled (u : Block (Amplitude ℝ)) :
    rowsMatrix (2 + 2) u.controlled = (Matrix.fromBlocks 1 0 0 (rowsMatrix 2 u.entries)).submatrix
      finSumFinEquiv.symm finSumFinEquiv.symm := by
  ext row col
  rw [Matrix.submatrix_apply]
  cases row using Fin.addCases with
  | left row =>
      rw [finSumFinEquiv_symm_apply_castAdd]
      cases col using Fin.addCases with
      | left col =>
          obtain ⟨hidentity, -⟩ := u.getD_controlled row col
          rw [finSumFinEquiv_symm_apply_castAdd, Matrix.fromBlocks_apply₁₁, Matrix.one_apply]
          refine (congrArg Amplitude.toComplex hidentity).trans ?_
          rw [apply_ite Amplitude.toComplex, Amplitude.toComplex_one, Amplitude.toComplex_zero]
      | right col =>
          obtain ⟨-, hzero, -⟩ := u.getD_controlled row col
          rw [finSumFinEquiv_symm_apply_natAdd, Matrix.fromBlocks_apply₁₂]
          exact congrArg Amplitude.toComplex hzero
  | right row =>
      rw [finSumFinEquiv_symm_apply_natAdd]
      cases col using Fin.addCases with
      | left col =>
          obtain ⟨-, -, hzero, -⟩ := u.getD_controlled row col
          rw [finSumFinEquiv_symm_apply_castAdd, Matrix.fromBlocks_apply₂₁]
          exact congrArg Amplitude.toComplex hzero
      | right col =>
          obtain ⟨-, -, -, hblock⟩ := u.getD_controlled row col
          rw [finSumFinEquiv_symm_apply_natAdd, Matrix.fromBlocks_apply₂₂]
          exact congrArg Amplitude.toComplex hblock

/-- With the control set the gate acts, without it nothing happens. -/
theorem controlled_mem_unitary {u : Block (Amplitude ℝ)}
    (hu : rowsMatrix 2 u.entries ∈ Matrix.unitaryGroup (Fin 2) ℂ) :
    rowsMatrix (2 + 2) u.controlled ∈ Matrix.unitaryGroup _ ℂ := by
  have hself : rowsMatrix 2 u.entries * (rowsMatrix 2 u.entries).conjTranspose = 1 :=
    Matrix.mem_unitaryGroup_iff.mp hu
  have hblocks : Matrix.fromBlocks 1 0 0 (rowsMatrix 2 u.entries) *
      (Matrix.fromBlocks (1 : Matrix (Fin 2) (Fin 2) ℂ) 0 0 (rowsMatrix 2 u.entries)).conjTranspose =
        1 := by
    rw [Matrix.fromBlocks_conjTranspose, Matrix.fromBlocks_multiply]
    simp [hself]
  rw [Matrix.mem_unitaryGroup_iff, rowsMatrix_controlled, Matrix.star_eq_conjTranspose,
    Matrix.conjTranspose_submatrix, Matrix.submatrix_mul_equiv, hblocks, Matrix.submatrix_one_equiv]

/-! ## Gates that move basis states -/

section Moves

variable {R : Register}

theorem norm_getD {factors : List (Amplitude ℝ)} (h : ∀ z ∈ factors, ‖z.toComplex‖ = 1) {k : Nat}
    (hk : k < factors.length) : ‖(factors.getD k 0).toComplex‖ = 1 := by
  rw [List.getD_eq_getElem?_getD, List.getElem?_eq_getElem hk]
  exact h _ (List.getElem_mem hk)

/-- An operator with one entry in each column, of length one and no two in the same row. -/
theorem moves_mem_unitary {U : Operator (Amplitude ℝ)} {move : Fin R.dimension → Fin R.dimension}
    {factor : Fin R.dimension → Amplitude ℝ} (hmove : Function.Injective move)
    (hfactor : ∀ col, ‖(factor col).toComplex‖ = 1)
    (hentry : ∀ row col : Fin R.dimension,
      U.entry row col = if row = move col then factor col else 0) :
    U.complexMatrix R ∈ Matrix.unitaryGroup _ ℂ := by
  have hmatrix : U.complexMatrix R = monomial move fun col => (factor col).toComplex := by
    ext row col
    rw [Operator.complexMatrix_apply, hentry, apply_ite Amplitude.toComplex, Amplitude.toComplex_zero,
      monomial_apply]
  rw [hmatrix]
  refine monomial_mem_unitary hmove fun col => ?_
  rw [mul_comm]
  exact mul_conj_of_norm_eq_one (hfactor col)

theorem diagonal_mem_unitary {entries : List (Amplitude ℝ)}
    (h : (MatrixEntries.diagonal entries).Fits R) (hentries : ∀ z ∈ entries, ‖z.toComplex‖ = 1) :
    ((MatrixEntries.diagonal entries).operator R h).complexMatrix R ∈ Matrix.unitaryGroup _ ℂ := by
  have hlen : entries.length = R.dimension := h
  have hfactor : ∀ col : Fin R.dimension, ‖(entries.getD col 0).toComplex‖ = 1 :=
    fun col => norm_getD hentries (Nat.lt_of_lt_of_eq col.isLt hlen.symm)
  refine moves_mem_unitary Function.injective_id hfactor fun row col => ?_
  rw [MatrixEntries.entry_diagonal h row.isLt col.isLt]
  simp only [Fin.ext_iff, id_eq]

theorem permutation_mem_unitary {images : List Nat} (hlen : images.length = R.dimension)
    (h : (MatrixEntries.rows (permutation images)).Fits R)
    {move : Fin R.dimension → Fin R.dimension} (hmove : Function.Injective move)
    (himages : ∀ col : Fin R.dimension, images.getD col 0 = move col) :
    ((MatrixEntries.rows (permutation images)).operator R h).complexMatrix R ∈
      Matrix.unitaryGroup _ ℂ := by
  have hfactor : ∀ _ : Fin R.dimension, ‖(1 : Amplitude ℝ).toComplex‖ = 1 := by simp
  refine moves_mem_unitary hmove hfactor fun row col => ?_
  rw [MatrixEntries.entry_permutation hlen h row.isLt col.isLt, himages]
  simp only [Fin.ext_iff]

end Moves

namespace QubitGate

variable (angle : Nat → ℝ)

/-- The operator of a named gate, made of its entries. -/
noncomputable def operator (g : QubitGate) : Operator (Amplitude ℝ) :=
  (MatrixEntries.rows (g.entries angle)).operator (.qubits g.numWires) (g.fits_entries angle)

theorem swap_mem_unitary :
    (swap.operator angle).complexMatrix (.qubits 2) ∈ Matrix.unitaryGroup _ ℂ := by
  let move : Equiv.Perm (Fin (Register.qubits 2).dimension) :=
    .swap ⟨1, by decide⟩ ⟨2, by decide⟩
  exact permutation_mem_unitary rfl (swap.fits_entries angle) move.injective (by decide)

theorem ccx_mem_unitary :
    (ccx.operator angle).complexMatrix (.qubits 3) ∈ Matrix.unitaryGroup _ ℂ := by
  let move : Equiv.Perm (Fin (Register.qubits 3).dimension) :=
    .swap ⟨6, by decide⟩ ⟨7, by decide⟩
  exact permutation_mem_unitary rfl (ccx.fits_entries angle) move.injective (by decide)

theorem iswap_mem_unitary :
    (iswap.operator angle).complexMatrix (.qubits 2) ∈ Matrix.unitaryGroup _ ℂ := by
  let i : Amplitude ℝ := Amplitude.imaginaryUnit
  let move : Equiv.Perm (Fin 4) := .swap 1 2
  let factor : Fin 4 → Amplitude ℝ := fun col => if col = 1 ∨ col = 2 then i else 1
  have hfactor : ∀ col, ‖(factor col).toComplex‖ = 1 := by
    intro col
    rw [apply_ite Amplitude.toComplex]
    split
    · exact Complex.norm_I
    · exact norm_one
  have hentries : ∀ row col : Fin 4,
      (iswap.entries angle).getD (row * 4 + col) 0 = if row = move col then factor col else 0 := by
    intro row col
    fin_cases row <;> fin_cases col <;> rfl
  refine moves_mem_unitary (R := .qubits 2) move.injective hfactor fun row col => ?_
  exact (MatrixEntries.entry_rows (iswap.fits_entries angle) row col.isLt).trans (hentries row col)

/-- Every named gate is unitary at all angles. -/
theorem complexMatrix_mem_unitary (g : QubitGate) :
    (g.operator angle).complexMatrix (.qubits g.numWires) ∈ Matrix.unitaryGroup _ ℂ := by
  have hblock := entries_block_mem_unitary angle g
  cases g with
  | swap => exact swap_mem_unitary angle
  | iswap => exact iswap_mem_unitary angle
  | ccx => exact ccx_mem_unitary angle
  | cx | cy | cz | ch | cp | crz =>
      rw [operator, MatrixEntries.complexMatrix_rows]
      exact controlled_mem_unitary hblock
  | id | x | y | z | h | s | sdg | t | tdg | sx | rx | ry | rz | p | u3 =>
      rw [operator, MatrixEntries.complexMatrix_rows]
      exact hblock

end QubitGate

/-! ## Gates on one qudit -/

theorem norm_rootOfUnity (d : Nat) : ‖(rootOfUnity d : Amplitude ℝ).toComplex‖ = 1 :=
  QubitGate.norm_turn _

/-- Multiplying by a factor of length one keeps the length. -/
theorem norm_runningProducts {w : Amplitude ℝ} (hw : ‖w.toComplex‖ = 1) (n : Nat) {start : Amplitude ℝ}
    (hstart : ‖start.toComplex‖ = 1) : ∀ z ∈ runningProducts w n start, ‖z.toComplex‖ = 1 := by
  induction n generalizing start with
  | zero => exact fun z hz => absurd hz List.not_mem_nil
  | succ n ih =>
      have hnext : ‖(start * w).toComplex‖ = 1 := by
        rw [Amplitude.toComplex_mul, norm_mul, hstart, hw, one_mul]
      exact List.forall_mem_cons.mpr ⟨hstart, ih hnext⟩

theorem Clock.complexMatrix_mem_unitary (g : Clock) {w : Amplitude ℝ} (hw : ‖w.toComplex‖ = 1) :
    ((g.entries w).operator g.register (g.fits_entries w)).complexMatrix g.register ∈
      Matrix.unitaryGroup _ ℂ :=
  diagonal_mem_unitary _ (norm_runningProducts hw _ norm_one)

theorem Shift.complexMatrix_mem_unitary (g : Shift) :
    (g.operator : Operator (Amplitude ℝ)).complexMatrix g.register ∈ Matrix.unitaryGroup _ ℂ := by
  have hfactor : ∀ _ : Fin g.register.dimension, ‖(1 : Amplitude ℝ).toComplex‖ = 1 := by simp
  exact moves_mem_unitary (injective_nextLevel _) hfactor g.entry_operator

theorem LevelPhase.complexMatrix_mem_unitary (g : LevelPhase) {phase : Amplitude ℝ}
    (hphase : ‖phase.toComplex‖ = 1) :
    ((g.entries phase).operator g.register (g.fits_entries phase)).complexMatrix g.register ∈
      Matrix.unitaryGroup _ ℂ := by
  refine diagonal_mem_unitary _ fun z hz => ?_
  obtain ⟨level, -, rfl⟩ := List.mem_map.mp hz
  split
  · exact hphase
  · exact norm_one

/-! ## All gates -/

/-- Every primitive gate of the library has a unitary matrix. -/
theorem GateModel.complexMatrix_standard_mem_unitary (gate : Primitive) (params : List ℝ) :
    (GateModel.standard.operator gate params).complexMatrix gate.register ∈
      Matrix.unitaryGroup _ ℂ := by
  cases gate with
  | qubit g => exact QubitGate.complexMatrix_mem_unitary _ g
  | levelPhase g =>
      have hroot := norm_rootOfUnity g.numLevels
      refine g.complexMatrix_mem_unitary ?_
      rw [Amplitude.toComplex_neg, Amplitude.toComplex_mul, norm_neg, norm_mul, hroot, one_mul]
  | clock g => exact g.complexMatrix_mem_unitary (norm_rootOfUnity _)
  | shift g => exact g.complexMatrix_mem_unitary

/-- In exact arithmetic every primitive gate has, at all parameters of its number, an operator over its
own register that is unitary.  Any other number of parameters is refused, and a register is refused if
and only if the product of its levels is no machine word. -/
theorem GateModel.standard_unitary (gate : Primitive) (params : List ℝ) :
    (params.length = gate.numParams → gate.register.levels.prod < 2 ^ 64 →
      ∃ U, (Gate.primitive gate).unitary? GateModel.standard params = .ok U ∧
        U.register = gate.register ∧ U.dim = gate.register.levels.prod ∧
        U.mul U.adjoint = .identity gate.register ∧ U.adjoint.mul U = .identity gate.register) ∧
    (params.length = gate.numParams → 2 ^ 64 ≤ gate.register.levels.prod →
      (Gate.primitive gate).unitary? GateModel.standard params =
        .error (.registerTooLarge gate.register.levels)) ∧
    (params.length ≠ gate.numParams →
      (Gate.primitive gate).unitary? GateModel.standard params =
        .error (.parameterCount gate.name gate.numParams params.length)) := by
  rw [Gate.unitary?_primitive]
  refine ⟨fun hlen hword => ?_, fun hlen hlarge => ?_, unitary?_of_length_ne standard⟩
  · have hregister := GateModel.standard.register_operator gate params
    have hunitary := Operator.mul_adjoint_of_mem_unitary hregister
      (complexMatrix_standard_mem_unitary gate params)
    exact ⟨_, unitary?_eq_ok_iff.mpr ⟨hlen, hword, rfl⟩, hregister,
      congrArg Register.dimension hregister, hunitary⟩
  · rw [unitary?_eq standard hlen]
    exact if_neg (Nat.not_lt_of_le hlarge)

-- The gate by three angles and the clock on one level have operators, and two angles are refused; so is
-- a shift of as many levels as there are machine words.
theorem GateModel.standard_unitary_u3 :
    let angles : List ℝ := [1, 2, 3]
    let u3 : Primitive := .qubit .u3
    let clock : Primitive := .clock ⟨1, by decide⟩
    let shift : Primitive := .shift ⟨2 ^ 64, by decide⟩
    angles.length = u3.numParams ∧ u3.register.levels.prod < 2 ^ 64 ∧
      (∃ U, (Gate.primitive u3).unitary? GateModel.standard angles = .ok U ∧ U.dim = 2 ∧
        U.mul U.adjoint = .identity (.qubits 1)) ∧
      ([] : List ℝ).length = clock.numParams ∧ clock.register.levels.prod < 2 ^ 64 ∧
      (∃ U, (Gate.primitive clock).unitary? GateModel.standard ([] : List ℝ) = .ok U ∧ U.dim = 1) ∧
      ([] : List ℝ).length = shift.numParams ∧ 2 ^ 64 ≤ shift.register.levels.prod ∧
      (Gate.primitive shift).unitary? GateModel.standard ([] : List ℝ) =
        .error (.registerTooLarge [2 ^ 64]) ∧
      angles.tail.length ≠ u3.numParams ∧
      (Gate.primitive u3).unitary? GateModel.standard angles.tail =
        .error (.parameterCount "u3" 3 2) := by
  intro angles u3 clock shift
  have hu3 : u3.register.levels.prod < 2 ^ 64 := by decide
  have hclock : clock.register.levels.prod < 2 ^ 64 := by decide
  have hshift : 2 ^ 64 ≤ shift.register.levels.prod := by decide
  obtain ⟨U, hU, -, hdim, hunitary, -⟩ := (GateModel.standard_unitary u3 angles).1 rfl hu3
  obtain ⟨V, hV, -, hdim', -, -⟩ := (GateModel.standard_unitary clock []).1 rfl hclock
  have hshort : angles.tail.length ≠ u3.numParams := by decide
  refine ⟨rfl, hu3, ⟨U, hU, hdim, hunitary⟩, rfl, hclock, ⟨V, hV, hdim'⟩, rfl, hshift, ?_, hshort, ?_⟩
  · exact (GateModel.standard_unitary shift []).2.1 rfl hshift
  · exact (GateModel.standard_unitary u3 angles.tail).2.2 hshort

end QuditCircuits
