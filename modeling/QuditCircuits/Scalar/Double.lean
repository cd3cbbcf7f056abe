import QuditCircuits.Scalar.Fused
import QuditCircuits.Scalar.Hypotenuse
import QuditCircuits.Scalar.RealArithmetic

/-!
# Double precision with signed undefined values

A `Double` is a number in double precision or an undefined value, and an undefined value has a sign
like a number has.  No comparison of sizes sees that sign.  The order that ranks undefined values
does: a positive one lies above all numbers and a negative one below them.

Where the sign comes from is the same rule for all operations:

* an operation that is undefined for its numbers gives the negative undefined value;
* an operation on an undefined value gives that value back, the first one if there are several;
* a change of sign turns the sign of an undefined value as well.
-/

namespace QuditCircuits

/-- A number in double precision, or an undefined value with its sign. -/
inductive Double
  /-- A number, finite or infinite. -/
  | number (x : Float)
  /-- An undefined value. -/
  | undefined (negative : Bool)

namespace Double

/-- The outcome of an operation on numbers. -/
@[inline]
def outcome (x : Float) : Double :=
  if x.isNaN then .undefined true else .number x

/-- An operation on one number, read on any value. -/
@[inline]
def map (op : Float → Float) : Double → Double
  | .undefined s => .undefined s
  | .number x => outcome (op x)

/-- An operation on two numbers, read on any two values. -/
@[inline]
def map₂ (op : Float → Float → Float) : Double → Double → Double
  | .undefined s, _ => .undefined s
  | .number _, .undefined s => .undefined s
  | .number x, .number y => outcome (op x y)

/-- The value with the other sign. -/
def neg : Double → Double
  | .undefined s => .undefined !s
  | .number x => .number (-x)

/-- The value without its sign. -/
def abs : Double → Double
  | .undefined _ => .undefined false
  | .number x => .number x.abs

/-- The length of the vector with the given coordinates.  It is infinite if one coordinate is, even
beside an undefined one. -/
def hypot : Double → Double → Double
  | .number x, .number y => .number (hypotenuse x y)
  | .number x, .undefined s => if x.isInf then .number x.abs else .undefined s
  | .undefined s, .number y => if y.isInf then .number y.abs else .undefined s
  | .undefined s, .undefined _ => .undefined s

/-- The sum with the product of two more values added.  Of several undefined values the factors' come
first. -/
@[inline]
def addProduct (sum : Double) : Double → Double → Double
  | .undefined s, _ => .undefined s
  | .number _, .undefined s => .undefined s
  | .number x, .number y => sum.map fun total => fusedAdd total x y

/-- The sum with the product of two more values taken off.  An undefined factor keeps its sign. -/
@[inline]
def subProduct (sum : Double) : Double → Double → Double
  | .undefined s, _ => .undefined s
  | .number _, .undefined s => .undefined s
  | .number x, .number y => sum.map fun total => fusedAdd total (-x) y

/-- The strict order of the numbers. -/
def lt : Double → Double → Bool
  | .number x, .number y => x < y
  | _, _ => false

/-- Whether the first value ranks above the second: positive undefined values come first, then the
numbers by size, then negative undefined values. -/
def outranks : Double → Double → Bool
  | .number x, .number y => y < x
  | .undefined false, .undefined s => s
  | .undefined false, .number _ => true
  | .number _, .undefined s => s
  | .undefined true, _ => false

instance : BEq Double where
  beq
    | .number x, .number y => x == y
    | _, _ => false

instance : RealArithmetic Double where
  zero := .number 0
  one := .number 1
  add := map₂ (· + ·)
  sub := map₂ (· - ·)
  mul := map₂ (· * ·)
  div := map₂ (· / ·)
  neg := neg
  ofNat n := .number (Float.ofNat n)
  cos := map Float.cos
  sin := map Float.sin
  pi := .number 3.141592653589793
  sqrtHalf := .number 0.7071067811865476
  hypot := hypot
  abs := abs
  addProduct := addProduct
  subProduct := subProduct
  lt := lt
  outranks := outranks

/-- Nothing ranks above itself. -/
theorem outranks_undefined_self (s : Bool) : outranks (.undefined s) (.undefined s) = false := by
  cases s <;> rfl

end Double

end QuditCircuits
