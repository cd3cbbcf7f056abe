import Mathlib.Algebra.Star.Unitary
import Mathlib.LinearAlgebra.Matrix.ConjTranspose
import QuditCircuits.Proofs.Operator.Placement

/-!
# Adjoints and unitary operators

Over a commutative ring with a conjugation the adjoint of an operator is the conjugate transpose of its
matrix, and an operator is *unitary* if its adjoint undoes it from both sides (`Operator.Unitary`).  The
matrices of unitary operators are Mathlib's unitary matrices, so that products are left to the algebra.

Lifting along a placement commutes with conjugate transposition, because agreement off the placed wires
is symmetric; so it keeps unitary matrices.
-/

namespace QuditCircuits

/-- A ring with a star has it as its conjugation. -/
instance (priority := low) {K : Type} [Star K] : Conjugate K where
  conj := star

variable {K : Type} [CommRing K] [StarRing K] {S R : Register} {wires : List Wire}

/-! ## Adjoints -/

namespace Operator

@[simp]
theorem register_adjoint (U : Operator K) : U.adjoint.register = U.register := rfl

theorem toMatrix_adjoint {U : Operator K} (hU : U.register = R) :
    U.adjoint.toMatrix R = star (U.toMatrix R) := by
  subst hU
  ext row col
  rw [toMatrix_apply, adjoint, entry_ofFn _ _ row.isLt col.isLt]
  rfl

/-- An operator that its adjoint undoes from both sides. -/
structure Unitary (U : Operator K) : Prop where
  mul_adjoint : U.mul U.adjoint = identity U.register
  adjoint_mul : U.adjoint.mul U = identity U.register

/-- The unitary operators are those with a unitary matrix. -/
theorem unitary_iff {U : Operator K} (hU : U.register = R) :
    U.Unitary ↔ U.toMatrix R ∈ unitary (Matrix (Fin R.dimension) (Fin R.dimension) K) := by
  have hadjoint : U.adjoint.register = R := U.register_adjoint.trans hU
  rw [Unitary.mem_iff, ← toMatrix_adjoint hU, ← toMatrix_mul hU hadjoint,
    ← toMatrix_mul hadjoint hU, ← toMatrix_identity]
  subst hU
  constructor
  · exact fun h => ⟨congrArg _ h.adjoint_mul, congrArg _ h.mul_adjoint⟩
  · exact fun h => ⟨eq_of_toMatrix_eq rfl rfl h.2, eq_of_toMatrix_eq rfl rfl h.1⟩

end Operator

/-! ## Lifting -/

namespace Placement

variable (h : Placement S R wires)

theorem star_lift (M : Matrix (Fin S.dimension) (Fin S.dimension) K) :
    star (h.lift M) = h.lift (star M) := by
  ext row col
  rw [Matrix.star_apply, lift_apply, lift_apply, Matrix.star_apply]
  by_cases hoff : R.AgreeOff wires row col
  · rw [if_pos hoff, if_pos hoff.symm]
  · rw [if_neg hoff, if_neg fun hback => hoff hback.symm, star_zero]

theorem lift_mem_unitary {M : Matrix (Fin S.dimension) (Fin S.dimension) K}
    (hM : M ∈ unitary (Matrix (Fin S.dimension) (Fin S.dimension) K)) :
    h.lift M ∈ unitary (Matrix (Fin R.dimension) (Fin R.dimension) K) := by
  rw [Unitary.mem_iff, star_lift, ← lift_mul, ← lift_mul, Unitary.star_mul_self_of_mem hM,
    Unitary.mul_star_self_of_mem hM, lift_one]
  exact ⟨rfl, rfl⟩

end Placement
end QuditCircuits
