import QuditCircuits.Scalar.RoundingError

/-!
# Products added in one step

`fusedAdd sum x y` is the double nearest to `sum + x * y`.  The product is kept exact until the sum
is taken, so there is one rounding and not two, and a product that is too large for a double does no
harm as long as the sum is not.

Exact values are whole numbers times powers of two.  A product multiplies the whole numbers, a sum
brings both to the smaller power first, and only `Exact.toFloat` rounds: to 53 binary digits, fewer
where the last one would lie below the least positive double, and a half goes to the even neighbour.

For numbers of moderate size the same result is found in double precision, from the rounding errors of
the product and of the sums (`fusedAddModerate`).
-/

namespace QuditCircuits

/-- The exact value `mantissa * 2 ^ exponent`. -/
structure Exact where
  /-- The binary digits, as one whole number with its sign. -/
  mantissa : Int
  /-- The power of two of the last digit. -/
  exponent : Int

/-- `n / 2 ^ places`, rounded to the nearest whole number.  A half goes to the even neighbour. -/
def roundShift (n places : Nat) : Nat :=
  let below := n >>> places
  let unit := 1 <<< places
  let rest := n % unit
  if 2 * rest < unit || (2 * rest == unit && below % 2 == 0) then below else below + 1

/-- Rounding moves a number by half a unit of the last place at most. -/
theorem roundShift_within_half (n places : Nat) :
    2 * n ≤ 2 * (roundShift n places * 1 <<< places) + 1 <<< places ∧
      2 * (roundShift n places * 1 <<< places) ≤ 2 * n + 1 <<< places := by
  have hbelow : n >>> places = n / 1 <<< places := by
    rw [Nat.shiftRight_eq_div_pow, Nat.one_shiftLeft]
  have hpos : 0 < 1 <<< places := by
    rw [Nat.one_shiftLeft]
    exact Nat.two_pow_pos _
  have hsplit : n / 1 <<< places * 1 <<< places + n % 1 <<< places = n := Nat.div_add_mod' n _
  have hrest : n % 1 <<< places < 1 <<< places := Nat.mod_lt _ hpos
  unfold roundShift
  rw [hbelow]
  dsimp only
  split
  · rename_i h
    simp only [Bool.or_eq_true, decide_eq_true_eq, Bool.and_eq_true, beq_iff_eq] at h
    omega
  · rename_i h
    simp only [Bool.or_eq_true, decide_eq_true_eq, Bool.and_eq_true, beq_iff_eq] at h
    rw [Nat.add_mul, Nat.one_mul]
    omega

namespace Exact

/-- The exact value of a finite double. -/
def ofFloat (x : Float) : Exact :=
  let bits := x.toBits
  let field := (bits >>> 52 &&& 0x7FF).toNat
  let fraction := (bits &&& 0xFFFFFFFFFFFFF).toNat
  let magnitude := if field = 0 then fraction else 0x10000000000000 + fraction
  ⟨if bits >>> 63 = 0 then magnitude else -magnitude, (max field 1 : Nat) - 1075⟩

/-- The product of two exact values. -/
def mul (a b : Exact) : Exact :=
  ⟨a.mantissa * b.mantissa, a.exponent + b.exponent⟩

/-- The sum of two exact values. -/
def add (a b : Exact) : Exact :=
  let exponent := min a.exponent b.exponent
  ⟨a.mantissa <<< (a.exponent - exponent).toNat + b.mantissa <<< (b.exponent - exponent).toNat,
    exponent⟩

/-- The nearest double, infinite if the value lies beyond them all. -/
def toFloat (a : Exact) : Float :=
  let digits := a.mantissa.natAbs
  let place := max (a.exponent + digits.log2 - 52) (-1074)
  let rounded :=
    if place < a.exponent then digits <<< (a.exponent - place).toNat
    else roundShift digits (place - a.exponent).toNat
  let magnitude := rounded.toUInt64.toFloat.scaleB place
  if a.mantissa < 0 then -magnitude else magnitude

end Exact

/-- The sum with the product of two more numbers of moderate size added.  The sum, the product and the
product's rounding error are added up from the least, and the sum of what the additions lose is
rounded to odd, so that the last addition rounds as if all digits were there. -/
@[inline]
def fusedAddModerate (sum x y : Float) : Float :=
  let product := x * y
  let error := productError x y
  let low := sum + error
  let high := product + low
  high + addToOdd (sumError sum error) (sumError product low)

/-- The sum with the product of two more numbers added, rounded once.  A product with a zero or an
infinite factor is exact as it is, and a zero sum has nothing to be added to; an infinite sum stays
what it is.  Numbers of moderate size are added in double precision and others exactly. -/
def fusedAdd (sum x y : Float) : Float :=
  if x == 0 || y == 0 || sum == 0 || !x.isFinite || !y.isFinite then sum + x * y
  else if !sum.isFinite then sum
  else if isModerate sum && isModerate x && isModerate y then fusedAddModerate sum x y
  else ((Exact.ofFloat x).mul (.ofFloat y) |>.add (.ofFloat sum)).toFloat

end QuditCircuits
