import Mathlib.Analysis.Complex.Norm
import Mathlib.Analysis.SpecialFunctions.Trigonometric.Basic
import Mathlib.LinearAlgebra.Matrix.Defs
import QuditCircuits.Operator.Basic

/-!
# Exact arithmetic

Gates, products and comparisons are written over any real arithmetic.  Here is the exact one: the real
numbers with the operations that the arithmetic in double precision rounds.  Over it an amplitude is a
complex number, its length is the modulus, and the school formulas are the operations of the field.
-/

namespace QuditCircuits

noncomputable instance : RealArithmetic ℝ where
  ofNat n := n
  cos := Real.cos
  sin := Real.sin
  pi := Real.pi
  sqrtHalf := √(1 / 2)
  hypot x y := √(x * x + y * y)
  abs x := |x|
  addProduct sum x y := sum + x * y
  subProduct sum x y := sum - x * y
  lt x y := decide (x < y)
  outranks x y := decide (y < x)

theorem RealArithmetic.lt_eq_true_iff {x y : ℝ} : RealArithmetic.lt x y = true ↔ x < y :=
  decide_eq_true_iff

theorem tolerance_eq (decimals : Nat) : (tolerance decimals : ℝ) = 1 / 10 ^ decimals := by
  show 1 / ((Nat.pow 10 decimals : Nat) : ℝ) = _
  rw [Nat.pow_eq, Nat.cast_pow, Nat.cast_ofNat]

namespace Amplitude

/-- The complex number with the given parts. -/
def toComplex (z : Amplitude ℝ) : ℂ :=
  ⟨z.re, z.im⟩

variable (z w : Amplitude ℝ)

theorem toComplex_mk (re im : ℝ) : (⟨re, im⟩ : Amplitude ℝ).toComplex = re + im * Complex.I :=
  Complex.mk_eq_add_mul_I re im

@[simp]
theorem toComplex_zero : (0 : Amplitude ℝ).toComplex = 0 := rfl

@[simp]
theorem toComplex_one : (1 : Amplitude ℝ).toComplex = 1 := rfl

@[simp]
theorem toComplex_ofReal (x : ℝ) : (ofReal x).toComplex = x := rfl

@[simp]
theorem toComplex_imaginaryUnit : imaginaryUnit.toComplex = Complex.I := rfl

/-- Length and angle are the polar form. -/
@[simp]
theorem toComplex_polar (length angle : ℝ) :
    (polar length angle).toComplex = length * Complex.exp (angle * Complex.I) := by
  apply Complex.ext
  · rw [Complex.re_ofReal_mul, Complex.exp_ofReal_mul_I_re]
    rfl
  · rw [Complex.im_ofReal_mul, Complex.exp_ofReal_mul_I_im]
    rfl

@[simp]
theorem toComplex_neg : (-z).toComplex = -z.toComplex := rfl

@[simp]
theorem toComplex_conj : (Conjugate.conj z).toComplex = star z.toComplex := rfl

@[simp]
theorem toComplex_add : (z + w).toComplex = z.toComplex + w.toComplex := rfl

@[simp]
theorem toComplex_sub : (z - w).toComplex = z.toComplex - w.toComplex := rfl

@[simp]
theorem toComplex_mul : (z * w).toComplex = z.toComplex * w.toComplex := rfl

@[simp]
theorem toComplex_div : (z / w).toComplex = z.toComplex / w.toComplex := by
  apply Complex.ext
  · rw [Complex.div_re, ← add_div]
    rfl
  · rw [Complex.div_im, ← sub_div]
    rfl

/-- One more product, taken part by part, is one more product of complex numbers. -/
@[simp]
theorem toComplex_addProduct (sum : Amplitude ℝ) :
    (AddProduct.addProduct sum z w).toComplex = sum.toComplex + z.toComplex * w.toComplex := by
  apply Complex.ext
  · exact add_sub_assoc _ _ _
  · exact add_assoc _ _ _

/-- The length of an amplitude is the modulus. -/
@[simp]
theorem norm_toComplex : ‖z.toComplex‖ = z.norm := by
  rw [Complex.norm_def, Complex.normSq_apply]
  rfl

end Amplitude

/-- Amplitudes are the complex numbers, so no two are read as the same one. -/
theorem Amplitude.toComplex_injective : Function.Injective Amplitude.toComplex := by
  rintro ⟨re, im⟩ ⟨re', im'⟩ heq
  cases heq
  rfl

/-- The entries of an operator as complex numbers, over the basis states of `R`. -/
noncomputable def Operator.complexMatrix (R : Register) (U : Operator (Amplitude ℝ)) :
    Matrix (Fin R.dimension) (Fin R.dimension) ℂ :=
  Matrix.of fun row col => (U.entry row col).toComplex

@[simp]
theorem Operator.complexMatrix_apply (R : Register) (U : Operator (Amplitude ℝ))
    (row col : Fin R.dimension) : U.complexMatrix R row col = (U.entry row col).toComplex := rfl

end QuditCircuits
