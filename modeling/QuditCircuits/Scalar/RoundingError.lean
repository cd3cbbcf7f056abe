/-!
# Rounding errors that are doubles

The rounding error of a sum of two doubles is a double again, and so is that of a product, as long
as neither leaves the middle of the range of doubles.  Both can then be computed in double precision:
the rounded value and its error together stand for the exact one.

The last operation here rounds a sum to a neighbour whose last binary digit is odd, unless the sum is
exact.  Such a value remembers that something was lost, so that rounding it once more, to fewer
digits, gives what rounding the exact sum would have given.
-/

namespace QuditCircuits

/-- Whether the magnitude is at least `2 ^ (-463)` and below `2 ^ 464`, read off the exponent.
Products and sums of three such numbers lose no digits at the ends of the range. -/
@[inline]
def isModerate (x : Float) : Bool :=
  let field := x.toBits >>> 52 &&& 0x7FF
  559 < field && field < 1487

/-- What `x + y` loses by rounding. -/
@[inline]
def sumError (x y : Float) : Float :=
  let sum := x + y
  let ofSecond := sum - x
  (x - (sum - ofSecond)) + (y - ofSecond)

/-- The factor `2 ^ 27 + 1`, which moves the trailing half of the binary digits out of a double. -/
def halvingFactor : Float :=
  134217729

/-- The leading half of the binary digits. -/
@[inline]
def leadingHalf (x : Float) : Float :=
  let stretched := halvingFactor * x
  stretched - (stretched - x)

/-- What `x * y` loses by rounding: the products of the halves are exact, and the rounded product is
taken off the greatest first. -/
@[inline]
def productError (x y : Float) : Float :=
  let xHigh := leadingHalf x
  let xLow := x - xHigh
  let yHigh := leadingHalf y
  let yLow := y - yHigh
  ((xHigh * yHigh - x * y) + xHigh * yLow + xLow * yHigh) + xLow * yLow

/-- The sum `x + y` if it is exact, and otherwise that of its two neighbours among the doubles whose
last digit is odd. -/
@[inline]
def addToOdd (x y : Float) : Float :=
  let sum := x + y
  let error := sumError x y
  if error == 0 || sum.toBits &&& 1 == 1 then sum
  else if (0 < error) == (0 < sum) then Float.ofBits (sum.toBits + 1)
  else Float.ofBits (sum.toBits - 1)

end QuditCircuits
