/-!
# The hypotenuse in double precision

`hypotenuse x y` is the square root of `x * x + y * y` to within a unit in the last place.  Three
things keep it from being that formula:

* an infinite leg gives an infinite hypotenuse;
* legs that are very long or very short are scaled by a power of two first, so that no square
  leaves the doubles;
* a leg that is shorter than the other by more than the precision of a double only shifts the last
  place, and the legs are added.

The root itself is rounded twice, and a first-order correction takes the error back.
-/

namespace QuditCircuits

/-- The corrected root for two legs of ordinary size, the longer one first. -/
def Hypotenuse.corrected (long short : Float) : Float :=
  let root := Float.sqrt (long * long + short * short)
  let excess :=
    if root ≤ 2 * short then
      let delta := root - short
      long * (2 * delta - long) + (delta - 2 * (long - short)) * delta
    else
      let delta := root - long
      2 * delta * (long - 2 * short) + ((4 * delta - short) * short + delta * delta)
  root - excess / (2 * root)

/-- The length of the vector with coordinates `x` and `y`. -/
def hypotenuse (x y : Float) : Float :=
  if x.isInf || y.isInf then 1 / 0
  else
    let a := x.abs
    let b := y.abs
    let long := if a < b then b else a
    let short := if a < b then a else b
    let scale := Float.scaleB 1 600
    let precision := Float.scaleB 1 (-54)
    if Float.scaleB 1 511 < long then
      if short ≤ long * precision then long + short
      else Hypotenuse.corrected (long / scale) (short / scale) * scale
    else if short < Float.scaleB 1 (-459) then
      if short / precision ≤ long then long + short
      else Hypotenuse.corrected (long * scale) (short * scale) / scale
    else if short ≤ long * precision then long + short
    else Hypotenuse.corrected long short

end QuditCircuits
