import Mathlib.Algebra.BigOperators.Fin
import Mathlib.Data.Matrix.Mul
import QuditCircuits.Operator.Basic
import QuditCircuits.Proofs.Register.Digits

/-!
# Operators as matrices

Over a commutative ring the blocked products of `Operator.mul` are the usual ones: the order of a sum
makes no difference and one is neutral.  An operator over a register `R` is then the same thing as a
square matrix over the basis states of `R` (`Operator.toMatrix`), products are products and the
identity is one, and everything about products of operators is left to the algebra of matrices.

Nothing of this holds in double precision, where sums are rounded block by block.  Only what the checks
of an identity and of a product let through is the same for all scalars.
-/

namespace QuditCircuits

open scoped BigOperators

/-! ## Operators and their entries -/

namespace Operator

variable {K : Type} [Zero K]

/-- The entry at a row and a column is the one that lies there in the array. -/
theorem entry_div_mod {d : Nat} (U : Operator K) (hd : U.dim = d) {cell : Nat}
    (hcell : cell < U.entries.size) :
    U.entry (cell / d) (cell % d) = U.entries[cell] := by
  subst hd
  have hpos : 0 < U.dim := U.register.dimension_pos
  have hjoin : cell / U.dim * U.dim + cell % U.dim = cell := Nat.div_add_mod' cell U.dim
  rw [entry, Operator.cell, if_pos (Nat.mod_lt _ hpos), hjoin, Array.getD_eq_getD_getElem?,
    Array.getElem?_eq_getElem hcell, Option.getD_some]

/-- Operators over one register are equal when their entries are. -/
theorem eq_of_entry_eq {R : Register} {U V : Operator K} (hU : U.register = R)
    (hV : V.register = R) (h : ∀ row col : Fin R.dimension, U.entry row col = V.entry row col) :
    U = V := by
  subst hU
  refine ext_entries hV.symm (Array.ext ?_ fun cell hcell hcell' => ?_)
  · rw [U.size_entries, V.size_entries, hV]
  · have hpos : 0 < U.dim := U.register.dimension_pos
    have hrow : cell / U.dim < U.dim := by
      rw [Nat.div_lt_iff_lt_mul hpos]
      exact U.size_entries ▸ hcell
    have hdim : V.dim = U.dim := by rw [dim, dim, hV]
    rw [← U.entry_div_mod rfl hcell, ← V.entry_div_mod hdim hcell']
    exact h ⟨_, hrow⟩ ⟨_, Nat.mod_lt cell hpos⟩

/-- Inside the matrix there is an entry. -/
theorem get?_eq_some_entry (U : Operator K) {row col : Nat} (hrow : row < U.dim)
    (hcol : col < U.dim) : U.get? row col = some (U.entry row col) := by
  have hcell : row * U.dim + col < U.entries.size := by
    rw [U.size_entries]
    exact cell_lt hrow hcol
  rw [get?, if_pos hcol, entry, Operator.cell, if_pos hcol, Array.getD_eq_getD_getElem?,
    Array.getElem?_eq_getElem hcell, Option.getD_some]

end Operator

/-! ## Checked products -/

namespace Operator

variable {K : Type} [Zero K] [One K]

@[simp]
theorem register_identity (R : Register) : (identity R : Operator K).register = R := rfl

/-- The checked identity is the identity, over a register whose dimension is a word. -/
theorem identity?_eq_ok {R : Register} (hword : R.dimension < wordBound) :
    (identity? R : Except ShapeError (Operator K)) = .ok (identity R) := by
  rw [identity?, Register.dim?_eq, if_pos hword]
  rfl

variable [Add K] [Mul K] [AddProduct K]

@[simp]
theorem register_mul (U V : Operator K) : (U.mul V).register = U.register := rfl

/-- The checked product is the product, for operators over one register. -/
theorem mul?_eq_ok {R : Register} {U V : Operator K} (hU : U.register = R)
    (hV : V.register = R) : U.mul? V = .ok (U.mul V) := by
  rw [mul?, if_pos (hU.trans hV.symm)]

end Operator

variable {K : Type} [CommRing K]

/-! ## Sums of products -/

theorem sumOfProducts_eq_sum (n : Nat) (x y : Nat → K) :
    sumOfProducts n x y = ∑ k ∈ Finset.range n, x k * y k := by
  induction n with
  | zero => rfl
  | succ n ih =>
      rw [sumOfProducts_succ, ih, Finset.sum_range_succ]
      rfl

/-- Summing in blocks is summing: the total after `b` blocks is the multiple of the sum over the terms
of these blocks. -/
theorem scaledSum_eq_mul_sum (factor : K) (n : Nat) (x y : Nat → K) :
    scaledSum factor n x y = factor * ∑ k ∈ Finset.range n, x k * y k := by
  have htotal : ∀ b : Nat, b.fold (fun block _ total =>
      total * 1 + factor * sumOfProducts (min blockLength (n - block * blockLength))
        (fun k => x (block * blockLength + k)) fun k => y (block * blockLength + k)) 0 =
      factor * ∑ k ∈ Finset.range (min (b * blockLength) n), x k * y k := by
    intro b
    induction b with
    | zero => simp
    | succ b ih =>
        rw [Nat.fold_succ, ih, sumOfProducts_eq_sum, mul_one, ← mul_add, Nat.succ_mul]
        congr 1
        -- The next block adds the terms from `b * blockLength` up to `n`; behind `n` it is empty.
        rcases Nat.le_total (b * blockLength) n with hle | hle
        · have hsplit : min (b * blockLength + blockLength) n =
              b * blockLength + min blockLength (n - b * blockLength) := by omega
          rw [Nat.min_eq_left hle, hsplit, Finset.sum_range_add]
        · have hall : min (b * blockLength + blockLength) n = n := by omega
          rw [hall, Nat.min_eq_right hle, Nat.sub_eq_zero_of_le hle]
          simp
  have henough : n ≤ (n + blockLength - 1) / blockLength * blockLength := by
    unfold blockLength
    omega
  have hfold := htotal ((n + blockLength - 1) / blockLength)
  rwa [Nat.min_eq_right henough] at hfold

/-! ## Operators and matrices -/

namespace Operator

/-- The multiple of an operator. -/
def scale (x : K) (U : Operator K) : Operator K :=
  ofFn U.register fun row col => x * U.entry row col

/-- The entries of an operator as a matrix over the basis states of `R`. -/
def toMatrix (R : Register) (U : Operator K) : Matrix (Fin R.dimension) (Fin R.dimension) K :=
  Matrix.of fun row col => U.entry row col

@[simp]
theorem toMatrix_apply (R : Register) (U : Operator K) (row col : Fin R.dimension) :
    U.toMatrix R row col = U.entry row col := rfl

@[simp]
theorem register_scale (x : K) (U : Operator K) : (U.scale x).register = U.register := rfl

/-- Operators over one register are equal when their matrices are. -/
theorem eq_of_toMatrix_eq {R : Register} {U V : Operator K} (hU : U.register = R)
    (hV : V.register = R) (h : U.toMatrix R = V.toMatrix R) : U = V :=
  eq_of_entry_eq hU hV fun row col => congrFun (congrFun h row) col

theorem entry_mul {U V : Operator K} (h : V.register = U.register) {row col : Nat}
    (hrow : row < U.dim) (hcol : col < U.dim) :
    (U.mul V).entry row col = ∑ k : Fin U.dim, U.entry row k * V.entry k col := by
  have hdim : V.dim = U.dim := by rw [dim, dim, h]
  rw [mul, entry_scaledMul 1 U V hrow hcol, scaledSum_eq_mul_sum, one_mul,
    Fin.sum_univ_eq_sum_range fun k => U.entry row k * V.entry k col]
  simp only [entry, hdim]

theorem toMatrix_mul {R : Register} {U V : Operator K} (hU : U.register = R)
    (hV : V.register = R) : (U.mul V).toMatrix R = U.toMatrix R * V.toMatrix R := by
  subst hU
  ext row col
  rw [toMatrix_apply, entry_mul hV row.isLt col.isLt, Matrix.mul_apply]
  rfl

theorem toMatrix_identity (R : Register) : (identity R : Operator K).toMatrix R = 1 := by
  ext row col
  rw [toMatrix_apply, identity, entry_ofFn R _ row.isLt col.isLt, Matrix.one_apply]
  simp [Fin.ext_iff]

theorem toMatrix_scale {R : Register} {U : Operator K} (hU : U.register = R) (x : K) :
    (U.scale x).toMatrix R = x • U.toMatrix R := by
  subst hU
  ext row col
  rw [toMatrix_apply, scale, entry_ofFn _ _ row.isLt col.isLt]
  rfl

end Operator
end QuditCircuits
