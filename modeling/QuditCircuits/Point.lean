/-!
# Wires and points

A circuit runs over numbered wires and is laid out in numbered cycles.  A *point* names one wire in
one cycle.  Since a wire carries at most one operation per cycle, a point names at most one
operation, and every wire of an operation names it within its cycle.

Points are ordered by cycle and then by wire, which is the order of the schedule.
-/

namespace QuditCircuits

/-- A wire of a register, by its index. -/
abbrev Wire := Nat

/-- A wire is written as its index behind the letter `q`. -/
def Wire.text (wire : Wire) : String :=
  "q" ++ toString wire

/-- An ordered list of wires is written in round brackets, separated by commas. -/
def Wire.listText (wires : List Wire) : String :=
  "(" ++ ", ".intercalate (wires.map Wire.text) ++ ")"

/-- One wire in one cycle. -/
structure Point where
  /-- The cycle, counted from the start of the schedule. -/
  cycle : Nat
  /-- The wire looked at in that cycle. -/
  wire : Wire
  deriving DecidableEq

namespace Point

/-- A point is written with its cycle first. -/
def text (point : Point) : String :=
  "(cycle " ++ toString point.cycle ++ ", " ++ Wire.text point.wire ++ ")"

/-- Points are ordered by cycle, and within one cycle by wire. -/
def order (p q : Point) : Ordering :=
  (compare p.cycle q.cycle).then (compare p.wire q.wire)

/-- Two points are on a level in the order exactly when they are the same point. -/
theorem order_eq_eq_iff (p q : Point) : p.order q = .eq ↔ p = q := by
  obtain ⟨c, w⟩ := p
  obtain ⟨d, v⟩ := q
  simp [order, Ordering.then_eq_eq]

end Point

end QuditCircuits
