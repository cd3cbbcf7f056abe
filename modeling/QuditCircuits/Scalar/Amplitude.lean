import QuditCircuits.Scalar.RealArithmetic

/-!
# Amplitudes

An *amplitude* is a complex number, kept as its real and its imaginary part.  Its operations are the
school formulas over the real arithmetic of the parts; in particular a quotient is the product with
the conjugate, divided by the sum of the squares of the divisor's parts.

A sum of products is taken part by part.  For every product the real part first takes the product of
the two real parts and then loses that of the two imaginary parts, and the imaginary part takes
its two products in turn; each is one step of the real arithmetic.
-/

namespace QuditCircuits

/-- A complex number over the reals `R`. -/
structure Amplitude (R : Type) where
  /-- The real part. -/
  re : R
  /-- The imaginary part. -/
  im : R

/-- Scalars with a conjugation, which turns a matrix into its adjoint. -/
class Conjugate (K : Type) where
  /-- The conjugate of a scalar. -/
  conj : K → K

/-- Scalars with a way to add one more product to a sum, the step of which the entries of a matrix
product are made. -/
class AddProduct (K : Type) where
  /-- The sum with the product of two more scalars. -/
  addProduct : (sum x y : K) → K

/-- In general the product is taken first and then added. -/
instance (priority := low) {K : Type} [Add K] [Mul K] : AddProduct K where
  addProduct sum x y := sum + x * y

namespace Amplitude

variable {R : Type} [RealArithmetic R]

/-- A real number as an amplitude. -/
def ofReal (x : R) : Amplitude R :=
  ⟨x, 0⟩

/-- The amplitude of the given length and angle. -/
def polar (length angle : R) : Amplitude R :=
  ⟨length * RealArithmetic.cos angle, length * RealArithmetic.sin angle⟩

/-- The imaginary unit. -/
def imaginaryUnit : Amplitude R :=
  ⟨0, 1⟩

/-- The length of an amplitude. -/
def norm (z : Amplitude R) : R :=
  RealArithmetic.hypot z.re z.im

instance : Zero (Amplitude R) where
  zero := ⟨0, 0⟩

instance : One (Amplitude R) where
  one := ⟨1, 0⟩

instance : Neg (Amplitude R) where
  neg z := ⟨-z.re, -z.im⟩

instance : Add (Amplitude R) where
  add z w := ⟨z.re + w.re, z.im + w.im⟩

instance : Sub (Amplitude R) where
  sub z w := ⟨z.re - w.re, z.im - w.im⟩

instance : Mul (Amplitude R) where
  mul z w := ⟨z.re * w.re - z.im * w.im, z.re * w.im + z.im * w.re⟩

instance : Div (Amplitude R) where
  div z w :=
    let square := w.re * w.re + w.im * w.im
    ⟨(z.re * w.re + z.im * w.im) / square, (z.im * w.re - z.re * w.im) / square⟩

instance : AddProduct (Amplitude R) where
  addProduct sum z w :=
    ⟨RealArithmetic.subProduct (RealArithmetic.addProduct sum.re z.re w.re) z.im w.im,
      RealArithmetic.addProduct (RealArithmetic.addProduct sum.im z.re w.im) z.im w.re⟩

instance : Conjugate (Amplitude R) where
  conj z := ⟨z.re, -z.im⟩

instance [BEq R] : BEq (Amplitude R) where
  beq z w := z.re == w.re && z.im == w.im

end Amplitude

end QuditCircuits
