import QuditCircuits.Decimal.Shortest

/-!
# Written decimals

How a decimal is laid out is a choice of the place that writes it, and a `Layout` is that choice:
the range of leading exponents that are written out in full.  Outside the range the number is
written with its leading digit before the point and the exponent behind the letter `e`.

A number that is written in full always shows a digit behind the point, a number with an exponent
shows a point only if it has digits behind it.  Zero keeps its sign.
-/

namespace QuditCircuits.Decimal

/-- The leading exponents that are written out in full. -/
structure Layout where
  /-- The least exponent of a leading digit that is written out in full. -/
  plainFrom : Int
  /-- The least exponent of a leading digit above the ones that are written out in full. -/
  plainBelow : Int

namespace Layout

/-- The digits of a natural number, leading digit first. -/
def digitsOf (n : Nat) : List Char :=
  Nat.toDigits 10 n

/-- Writes a decimal out in full, with at least one digit on each side of the point. -/
def plain (d : Decimal) : String :=
  let digits := digitsOf d.coefficient
  let whole : Int := digits.length + d.place
  if 0 ≤ d.place then
    String.ofList (digits ++ List.replicate d.place.toNat '0') ++ ".0"
  else if 0 < whole then
    String.ofList (digits.take whole.toNat) ++ "." ++ String.ofList (digits.drop whole.toNat)
  else
    "0." ++ String.ofList (List.replicate (-whole).toNat '0' ++ digits)

/-- Writes a decimal with an exponent; `leading` is the exponent of its leading digit. -/
def scientific (d : Decimal) (leading : Int) : String :=
  let digits := digitsOf d.coefficient
  let tail := digits.drop 1
  String.ofList (digits.take 1) ++ (if tail.isEmpty then "" else "." ++ String.ofList tail)
    ++ "e" ++ toString leading

/-- Writes a positive decimal. -/
def decimal (layout : Layout) (d : Decimal) : String :=
  let leading : Int := d.place + (digitsOf d.coefficient).length - 1
  if layout.plainFrom ≤ leading && leading < layout.plainBelow then plain d
  else scientific d leading

/-- Writes the positive finite double with the given bits, with the fewest digits that read back to
it. -/
def ofBits (layout : Layout) (bits : Nat) : String :=
  layout.decimal (RoundingInterval.ofBits bits).shortest

/-- Writes a finite or infinite double: its sign, and the digits of its magnitude. -/
def float (layout : Layout) (x : Float) : String :=
  let bits := x.toBits.toNat
  let sign := if bits >>> 63 = 0 then "" else "-"
  let magnitude := bits &&& 0x7FFFFFFFFFFFFFFF
  if x.isInf then sign ++ "inf"
  else if magnitude = 0 then sign ++ "0.0"
  else sign ++ layout.ofBits magnitude

end Layout

end QuditCircuits.Decimal
