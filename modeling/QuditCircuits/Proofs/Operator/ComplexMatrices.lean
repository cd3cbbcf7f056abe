import Mathlib.LinearAlgebra.UnitaryGroup
import QuditCircuits.Proofs.Operator.Matrices
import QuditCircuits.Proofs.Scalar.ExactReals

/-!
# Operators with exact amplitudes

Amplitudes have a sum of products of their own, which adds the real and the imaginary parts one product
after the other.  In exact arithmetic it is the usual sum, so the products and adjoints of operators with
exact amplitudes are those of complex matrices, and an operator with a unitary matrix is undone by its
adjoint from both sides (`Operator.mul_adjoint_of_mem_unitary`).
-/

namespace QuditCircuits

/-! ## Sums of products -/

namespace Amplitude

variable (n : Nat) (x y : Nat → Amplitude ℝ)

theorem toComplex_sumOfProducts :
    (sumOfProducts n x y).toComplex =
      sumOfProducts n (fun k => (x k).toComplex) fun k => (y k).toComplex := by
  induction n with
  | zero => rfl
  | succ n ih => rw [sumOfProducts_succ, sumOfProducts_succ, toComplex_addProduct, ih]; rfl

theorem toComplex_scaledSum (factor : Amplitude ℝ) :
    (scaledSum factor n x y).toComplex =
      scaledSum factor.toComplex n (fun k => (x k).toComplex) fun k => (y k).toComplex := by
  unfold scaledSum
  induction (n + blockLength - 1) / blockLength with
  | zero => rfl
  | succ block ih =>
      rw [Nat.fold_succ, Nat.fold_succ, toComplex_add, toComplex_mul, toComplex_mul, ih,
        toComplex_sumOfProducts, toComplex_one]

end Amplitude

/-! ## Operators as complex matrices -/

namespace Operator

variable {R : Register} {U V : Operator (Amplitude ℝ)}

theorem complexMatrix_ofFn (R : Register) (f : Nat → Nat → Amplitude ℝ) :
    (ofFn R f).complexMatrix R =
      Matrix.of fun row col : Fin R.dimension => (f row col).toComplex := by
  ext row col
  rw [complexMatrix_apply, entry_ofFn R f row.isLt col.isLt]
  rfl

theorem complexMatrix_identity (R : Register) :
    (identity R : Operator (Amplitude ℝ)).complexMatrix R = 1 := by
  ext row col
  rw [identity, complexMatrix_ofFn, Matrix.of_apply, Matrix.one_apply, apply_ite Amplitude.toComplex]
  simp only [Fin.ext_iff, Amplitude.toComplex_one, Amplitude.toComplex_zero]

theorem complexMatrix_mul (hU : U.register = R) (hV : V.register = R) :
    (U.mul V).complexMatrix R = U.complexMatrix R * V.complexMatrix R := by
  subst hU
  have hdim : V.dim = U.dim := by rw [dim, dim, hV]
  ext row col
  rw [complexMatrix_apply, mul, entry_scaledMul 1 U V row.isLt col.isLt, Amplitude.toComplex_scaledSum,
    scaledSum_eq_mul_sum, Amplitude.toComplex_one, one_mul, Matrix.mul_apply,
    ← Fin.sum_univ_eq_sum_range fun k => (U.cell U.dim row k).toComplex * (V.cell U.dim k col).toComplex]
  simp only [complexMatrix_apply, entry, hdim]
  rfl

theorem complexMatrix_adjoint (hU : U.register = R) :
    U.adjoint.complexMatrix R = star (U.complexMatrix R) := by
  subst hU
  ext row col
  rw [adjoint, complexMatrix_ofFn, Matrix.of_apply, Amplitude.toComplex_conj, Matrix.star_apply,
    complexMatrix_apply]

/-- Operators over one register are equal when their complex matrices are. -/
theorem eq_of_complexMatrix_eq (hU : U.register = R) (hV : V.register = R)
    (h : U.complexMatrix R = V.complexMatrix R) : U = V :=
  eq_of_entry_eq hU hV fun row col => Amplitude.toComplex_injective (congrFun (congrFun h row) col)

/-- The adjoint undoes an operator with a unitary matrix from both sides. -/
theorem mul_adjoint_of_mem_unitary (hU : U.register = R)
    (h : U.complexMatrix R ∈ Matrix.unitaryGroup _ ℂ) :
    U.mul U.adjoint = identity R ∧ U.adjoint.mul U = identity R := by
  have hadjoint : U.adjoint.register = R := hU
  constructor
  · refine eq_of_complexMatrix_eq (R := R) hU rfl ?_
    rw [complexMatrix_mul hU hadjoint, complexMatrix_adjoint hU, complexMatrix_identity]
    exact Matrix.mem_unitaryGroup_iff.mp h
  · refine eq_of_complexMatrix_eq (R := R) hadjoint rfl ?_
    rw [complexMatrix_mul hadjoint hU, complexMatrix_adjoint hU, complexMatrix_identity]
    exact Matrix.mem_unitaryGroup_iff'.mp h

end Operator
end QuditCircuits
