/-!
# Real arithmetic

The entries of a gate's matrix are computed from real angles, and matrices are compared by the size
of their entries.  `RealArithmetic` lists what this takes of the reals, so that the gate library, the
products and the comparisons are written once: they run in double precision, and they can be read
over any other type with these operations.
-/

namespace QuditCircuits

/-- The operations on real numbers that gates, products and comparisons are built from. -/
class RealArithmetic (R : Type) extends Zero R, One R, Add R, Sub R, Mul R, Div R, Neg R where
  /-- A whole number as a real number. -/
  ofNat : Nat → R
  /-- The cosine of an angle. -/
  cos : R → R
  /-- The sine of an angle. -/
  sin : R → R
  /-- Half the circumference of the unit circle. -/
  pi : R
  /-- The square root of one half. -/
  sqrtHalf : R
  /-- The length of the vector with the given coordinates. -/
  hypot : R → R → R
  /-- The absolute value. -/
  abs : R → R
  /-- A sum with the product of two more numbers added, in one step. -/
  addProduct : (sum x y : R) → R
  /-- A sum with the product of two more numbers taken off, in one step. -/
  subProduct : (sum x y : R) → R
  /-- The strict order.  It is false for an undefined value on either side. -/
  lt : R → R → Bool
  /-- The strict order in which undefined values have a place as well. -/
  outranks : R → R → Bool

/-- One divided by a power of ten: the tolerance with that many decimals. -/
def tolerance {R : Type} [RealArithmetic R] (decimals : Nat) : R :=
  1 / RealArithmetic.ofNat (Nat.pow 10 decimals)

end QuditCircuits
