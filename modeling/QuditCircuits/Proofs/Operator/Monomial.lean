import Mathlib.Algebra.BigOperators.Ring.Finset
import Mathlib.Algebra.Star.BigOperators
import Mathlib.LinearAlgebra.UnitaryGroup
import QuditCircuits.Gate.Library
import QuditCircuits.Proofs.GateModels
import QuditCircuits.Proofs.Operator.Placement

/-!
# Operators that move basis states

Many gates send every basis state to a multiple of one basis state: diagonal gates leave the state where
it is, permutations use the factor one.  `monomial move factor` is the matrix that sends state `col` to
`factor col` times state `move col`.

Products and powers of such matrices are of the same kind: moves are composed and the factors along the
way are multiplied.  If no two states move to the same one and all factors have length one, the matrix is
unitary.

A permutation of basis states has one cell in each column, which is of this kind over any scalars
(`MatrixEntries.entry_permutation`), so its entries are known in double precision as well.
-/

namespace QuditCircuits

/-! ## Matrices with one entry in each column -/

section Monomial

variable {n K : Type} [DecidableEq n]

/-- The matrix that sends state `col` to `factor col` times state `move col`. -/
def monomial [Zero K] (move : n → n) (factor : n → K) : Matrix n n K :=
  Matrix.of fun row col => if row = move col then factor col else 0

@[simp]
theorem monomial_apply [Zero K] (move : n → n) (factor : n → K) (row col : n) :
    monomial move factor row col = if row = move col then factor col else 0 := rfl

theorem monomial_id_one [Zero K] [One K] : monomial (n := n) id (fun _ => (1 : K)) = 1 := by
  ext row col
  rw [monomial_apply, Matrix.one_apply]
  rfl

variable [CommRing K]

theorem smul_monomial (x : K) (move : n → n) (factor : n → K) :
    x • monomial move factor = monomial move fun col => x * factor col := by
  ext row col
  rw [Matrix.smul_apply, monomial_apply, monomial_apply, smul_eq_mul, mul_ite, mul_zero]

variable [Fintype n]

/-- Multiplying by a matrix of this kind picks a column and multiplies it by a factor. -/
theorem mul_monomial_apply (M : Matrix n n K) (move : n → n) (factor : n → K) (row col : n) :
    (M * monomial move factor) row col = M row (move col) * factor col := by
  rw [Matrix.mul_apply, Finset.sum_eq_single (move col)]
  · rw [monomial_apply, if_pos rfl]
  · intro k _ hk
    rw [monomial_apply, if_neg hk, mul_zero]
  · exact fun hcol => absurd (Finset.mem_univ _) hcol

/-- The right matrix moves first. -/
theorem monomial_mul_monomial (move move' : n → n) (factor factor' : n → K) :
    monomial move factor * monomial move' factor' =
      monomial (move ∘ move') fun col => factor (move' col) * factor' col := by
  ext row col
  rw [mul_monomial_apply, monomial_apply, monomial_apply, ite_mul, zero_mul]
  rfl

/-- A power moves step by step and collects the factors on the way. -/
theorem monomial_pow (move : n → n) (factor : n → K) (k : Nat) :
    monomial move factor ^ k =
      monomial move^[k] fun col => ∏ i ∈ Finset.range k, factor (move^[i] col) := by
  induction k with
  | zero => simpa using monomial_id_one.symm
  | succ k ih =>
      rw [pow_succ, ih, monomial_mul_monomial, Function.iterate_succ]
      congr 1
      funext col
      rw [Finset.prod_range_succ']
      rfl

/-- A matrix is unitary if it moves no two states to the same one, all with factors of length one. -/
theorem monomial_mem_unitary [StarRing K] {move : n → n} {factor : n → K}
    (hmove : Function.Injective move) (hfactor : ∀ col, star (factor col) * factor col = 1) :
    monomial move factor ∈ Matrix.unitaryGroup n K := by
  rw [Matrix.mem_unitaryGroup_iff']
  ext row col
  rw [mul_monomial_apply, Matrix.star_apply, monomial_apply, Matrix.one_apply]
  by_cases heq : row = col
  · rw [heq, if_pos rfl, if_pos rfl, hfactor]
  · rw [if_neg fun hsame => heq (hmove hsame.symm), if_neg heq, star_zero, zero_mul]

end Monomial

/-! ## Entries of permutations -/

section Permutation

variable {K : Type} [Zero K] {R : Register}

/-- If one cell is listed for each column, that cell is the only entry of the column. -/
theorem Operator.entry_ofCells_map {move : Nat → Nat} {factor : Nat → K} {row col : Nat}
    (hrow : row < R.dimension) (hcol : col < R.dimension) :
    (ofCells R ((List.range R.dimension).map fun col => (move col, col, factor col))).entry row col =
      if row = move col then factor col else 0 := by
  have hmem : ∀ i j x, (i, j, x) ∈ (List.range R.dimension).map (fun col =>
      (move col, col, factor col)) ↔ j < R.dimension ∧ move j = i ∧ factor j = x := by
    intro i j x
    rw [List.mem_map]
    constructor
    · rintro ⟨k, hk, heq⟩
      cases heq
      exact ⟨List.mem_range.mp hk, rfl, rfl⟩
    · rintro ⟨hj, rfl, rfl⟩
      exact ⟨j, List.mem_range.mpr hj, rfl⟩
  have hcolumns : ∀ cell ∈ (List.range R.dimension).map (fun col => (move col, col, factor col)),
      cell.2.1 < R.dimension := fun ⟨_, _, _⟩ hcell => ((hmem _ _ _).mp hcell).1
  by_cases heq : row = move col
  · rw [if_pos heq]
    exact entry_ofCells hrow hcol hcolumns ((hmem _ _ _).mpr ⟨hcol, heq.symm, rfl⟩)
      fun y hy => ((hmem _ _ _).mp hy).2.2.symm
  · rw [if_neg heq]
    exact entry_ofCells_of_not_mem hrow hcol hcolumns
      fun y hy => heq ((hmem _ _ _).mp hy).2.1.symm

variable [One K] {images : List Nat}

theorem MatrixEntries.operator_permutation (hlen : images.length = R.dimension)
    (h : (rows (permutation images : List K)).Fits R) :
    (rows (permutation images)).operator R h =
      .ofCells R ((List.range R.dimension).map fun col => (images.getD col 0, col, 1)) := by
  have hcells : (images.zipIdx.map fun image => (image.1, image.2, (1 : K))) =
      (List.range R.dimension).map fun col => (images.getD col 0, col, 1) := by
    refine List.ext_getElem (by simp [hlen]) fun i hi hi' => ?_
    have hlt : i < images.length := by simpa using hi
    simp [hlt]
  refine Operator.ext_entries rfl ?_
  show (permutation images : List K).toArray = _
  rw [permutation, hcells, hlen]
  rfl

/-- A permutation sends each basis state to its image. -/
theorem MatrixEntries.entry_permutation (hlen : images.length = R.dimension)
    (h : (rows (permutation images : List K)).Fits R) {row col : Nat} (hrow : row < R.dimension)
    (hcol : col < R.dimension) :
    ((rows (permutation images)).operator R h).entry row col =
      if row = images.getD col 0 then 1 else 0 := by
  rw [operator_permutation hlen h]
  exact Operator.entry_ofCells_map hrow hcol

end Permutation
end QuditCircuits
