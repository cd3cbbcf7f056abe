/-!
# Shortest decimals of binary numbers

A finite double is `significand * 2 ^ exponent`, and a whole interval of reals rounds to it.  Among
the decimals of that interval the shortest are the ones on the coarsest grid `10 ^ place` that has a
point in the interval; of two such points the nearer one is written, and of two equally near ones
the larger.

Everything here is exact arithmetic on natural numbers.  Bounds are counted in quarters of the last
binary place, so that the half-way points to both neighbours are whole numbers, also where the
spacing below the value is half the spacing above it.
-/

namespace QuditCircuits

/-- A decimal `coefficient * 10 ^ place`. -/
structure Decimal where
  /-- The digits, as one natural number. -/
  coefficient : Nat
  /-- The power of ten of the last digit. -/
  place : Int

namespace Decimal

/-- A positive binary number with the interval of reals that round to it. -/
structure RoundingInterval where
  /-- The number is `significand * 2 ^ exponent`. -/
  significand : Nat
  /-- The power of two of the last binary place. -/
  exponent : Int
  /-- The next smaller number is only half a place away. -/
  closeBelow : Bool

namespace RoundingInterval

/-- The value in quarters of its last binary place. -/
def value (b : RoundingInterval) : Nat :=
  4 * b.significand

/-- The lower end in quarters of the last binary place. -/
def lower (b : RoundingInterval) : Nat :=
  4 * b.significand - if b.closeBelow then 1 else 2

/-- The upper end in quarters of the last binary place. -/
def upper (b : RoundingInterval) : Nat :=
  4 * b.significand + 2

/-- Quarters of the last binary place, counted on the grid `10 ^ place`, are multiples of
`scaleUp / scaleDown`.  This is the numerator. -/
def scaleUp (b : RoundingInterval) (place : Int) : Nat :=
  Nat.pow 2 (b.exponent - 2).toNat * Nat.pow 10 (-place).toNat

/-- The denominator that belongs to `scaleUp`. -/
def scaleDown (b : RoundingInterval) (place : Int) : Nat :=
  Nat.pow 2 (2 - b.exponent).toNat * Nat.pow 10 place.toNat

/-- Whether `coefficient * 10 ^ place` rounds to the number.  The ends of the interval belong to it
exactly when the significand is even, for a tie is rounded to the even neighbour. -/
def contains (b : RoundingInterval) (place : Int) (coefficient : Nat) : Bool :=
  let point := coefficient * b.scaleDown place
  if b.significand % 2 = 0 then
    b.lower * b.scaleUp place ≤ point && point ≤ b.upper * b.scaleUp place
  else
    b.lower * b.scaleUp place < point && point < b.upper * b.scaleUp place

/-- The last point of the grid `10 ^ place` that is not above the number. -/
def floorOn (b : RoundingInterval) (place : Int) : Nat :=
  b.value * b.scaleUp place / b.scaleDown place

/-- Whether the point below the number is nearer to it than the one above. -/
def nearerBelow (b : RoundingInterval) (place : Int) : Bool :=
  2 * (b.value * b.scaleUp place % b.scaleDown place) < b.scaleDown place

/-- The point of the grid `10 ^ place` that is written for the number, if one rounds to it: the
nearer of the number's two neighbours on the grid, the larger one on a tie. -/
def nearest? (b : RoundingInterval) (place : Int) : Option Nat :=
  let below := b.floorOn place
  let candidates := if b.nearerBelow place then [below, below + 1] else [below + 1, below]
  candidates.find? (b.contains place)

/-- What is written for the number rounds to it. -/
theorem contains_of_nearest? {b : RoundingInterval} {place : Int} {n : Nat}
    (h : b.nearest? place = some n) : b.contains place n = true :=
  List.find?_some h

/-- A place above the leading digit: the number is below `2 ^ bits`, and the logarithm of two to
base ten lies between `3 / 10` and `31 / 100`. -/
def topPlace (b : RoundingInterval) : Int :=
  let bits : Int := b.exponent + (b.significand.log2 + 1 : Nat)
  if 0 ≤ bits then bits * 31 / 100 + 1 else bits * 3 / 10 + 1

/-- The places that are tried, from coarse to fine.  A double needs at most seventeen digits, and
the bound on the leading digit is at most ten places too high. -/
def places (b : RoundingInterval) : List Int :=
  (List.range 32).map fun (steps : Nat) => b.topPlace - steps

/-- The shortest decimal that rounds to the number, the nearest one of that length. -/
def shortest (b : RoundingInterval) : Decimal :=
  (b.places.findSome? fun place => (b.nearest? place).map fun n => ⟨n, place⟩).getD ⟨0, 0⟩

end RoundingInterval

/-- Reads the bits of a positive finite double. -/
def RoundingInterval.ofBits (bits : Nat) : RoundingInterval :=
  let field := bits >>> 52 &&& 0x7FF
  let fraction := bits &&& 0xFFFFFFFFFFFFF
  if field = 0 then ⟨fraction, -1074, false⟩
  else ⟨0x10000000000000 + fraction, (field : Int) - 1075, fraction = 0 && 1 < field⟩

end Decimal

end QuditCircuits
