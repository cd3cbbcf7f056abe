import QuditCircuits.Circuit.Basic

/-!
# Errors at sites

Changing a circuit at given points can fail because of the shape of the new operation, or because
the circuit does not hold at a point what the caller expects there.  The second kind of error names
the points and shows the operations, so it belongs to circuits over parameters that can be written.
-/

namespace QuditCircuits

/-- Why a change at given points of a circuit is refused. -/
inductive SiteError (θ : Type)
  /-- The new operation does not fit the register. -/
  | shape (error : ShapeError)
  /-- No operation lies at the point. -/
  | noOperation (point : Point)
  /-- The operation at the point is not one that the caller accepts. -/
  | unexpectedOperation (point : Point) (found : Operation θ)
  /-- Two points name the same operation. -/
  | sameOperation (point earlier : Point)
  /-- The new operation acts on other wires than the one it replaces. -/
  | otherWires (point : Point) (gate : String) (expected got : List Wire)
  /-- There are not as many new operations as points. -/
  | countMismatch (points operations : Nat)

/-- The message that a user sees. -/
def SiteError.message {θ : Type} [ParameterText θ] : SiteError θ → String
  | shape error => error.message
  | noOperation point => s!"No operation at {point.text}"
  | unexpectedOperation point found =>
      s!"Operation at {point.text} does not match the expected site, found '{found.text}'"
  | sameOperation point earlier =>
      s!"Sites {point.text} and {earlier.text} refer to the same operation"
  | otherWires point gate expected got =>
      s!"Replacement '{gate}' at {point.text} acts on {Wire.listText got}, "
        ++ s!"expected {Wire.listText expected}"
  | countMismatch points operations =>
      s!"Got {operations} replacement operations for {points} sites"

/-- An error of shape, raised where errors at sites are expected. -/
def SiteError.ofShape {θ α : Type} : Except ShapeError α → Except (SiteError θ) α :=
  Except.mapError .shape

end QuditCircuits
