import QuditCircuits.Decimal.Layout
import QuditCircuits.Scalar.Double

/-!
# Parameters

A gate's parameters are real numbers.  Circuits never compute with them, they only pass them on and
write them down, so the type of a parameter is left open; what a circuit needs of it is its text.
-/

namespace QuditCircuits

/-- A type of parameters that can be written down. -/
class ParameterText (θ : Type) where
  /-- The text of one parameter. -/
  text : θ → String

namespace Parameter

/-- Parameters from one ten-thousandth up to ten to the sixteenth are written out in full. -/
def layout : Decimal.Layout where
  plainFrom := -4
  plainBelow := 16

/-- Undefined parameters are written without their sign. -/
instance : ParameterText Double where
  text
    | .number x => layout.float x
    | .undefined _ => "NaN"

-- One half, and three tenths as the sum of one tenth and two.
example : layout.ofBits 0x3FE0000000000000 = "0.5" := by decide +kernel
example : layout.ofBits 0x3FD3333333333334 = "0.30000000000000004" := by decide +kernel

-- Both ends of the range that is written out in full.
example : layout.ofBits 0x3F1A36E2EB1C432D = "0.0001" := by decide +kernel
example : layout.ofBits 0x3F1A36E2EB1C432C = "9.999999999999999e-5" := by decide +kernel
example : layout.ofBits 0x4341C37937E07FFF = "9999999999999998.0" := by decide +kernel
example : layout.ofBits 0x4341C37937E08000 = "1e16" := by decide +kernel

-- The least positive double, and a tie between two decimals.
example : layout.ofBits 1 = "5e-324" := by decide +kernel
example : layout.ofBits 0x4310000000000001 = "1125899906842624.3" := by decide +kernel

/-- A list of parameters is written in square brackets, separated by commas. -/
def listText {θ : Type} [ParameterText θ] (params : List θ) : String :=
  "[" ++ ", ".intercalate (params.map ParameterText.text) ++ "]"

end Parameter

end QuditCircuits
