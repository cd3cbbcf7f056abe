import QuditCircuits.Register

/-!
# Gates on one qudit

Three families of parameter-free gates on one wire, for any positive number of levels:

* `LevelPhase` turns the phase of one level and leaves the others alone;
* `Clock` multiplies level `k` by the `k`-th power of the root of unity;
* `Shift` moves every level to the next one, and the last to the first.

Clock and shift generate the Weyl group of the wire.
-/

namespace QuditCircuits

/-- The gate that turns the phase of one level. -/
structure LevelPhase where
  /-- The levels of the wire. -/
  numLevels : Nat
  /-- The level whose phase is turned. -/
  level : Nat
  /-- The level is one of the wire's. -/
  level_lt : level < numLevels
  deriving DecidableEq

/-- The clock gate on a wire with `numLevels` levels. -/
structure Clock where
  /-- The levels of the wire. -/
  numLevels : Nat
  /-- The wire has a level. -/
  numLevels_pos : 0 < numLevels
  deriving DecidableEq

/-- The shift gate on a wire with `numLevels` levels. -/
structure Shift where
  /-- The levels of the wire. -/
  numLevels : Nat
  /-- The wire has a level. -/
  numLevels_pos : 0 < numLevels
  deriving DecidableEq

/-- The gate that turns the phase of `level`, refused for a wire without levels and for a level that
the wire does not have. -/
def LevelPhase.make? (numLevels level : Nat) : Except ShapeError LevelPhase :=
  if numLevels = 0 then .error .noLevels
  else if h : level < numLevels then .ok ⟨numLevels, level, h⟩
  else .error (.levelOutOfRange level numLevels)

/-- The clock gate, refused for a wire without levels. -/
def Clock.make? (numLevels : Nat) : Except ShapeError Clock :=
  if h : 0 < numLevels then .ok ⟨numLevels, h⟩ else .error .noLevels

/-- The shift gate, refused for a wire without levels. -/
def Shift.make? (numLevels : Nat) : Except ShapeError Shift :=
  if h : 0 < numLevels then .ok ⟨numLevels, h⟩ else .error .noLevels

/-- The one wire of the gate. -/
def LevelPhase.register (g : LevelPhase) : Register :=
  .replicate 1 g.numLevels (Nat.zero_lt_of_lt g.level_lt)

/-- The one wire of the gate. -/
def Clock.register (g : Clock) : Register :=
  .replicate 1 g.numLevels g.numLevels_pos

/-- The one wire of the gate. -/
def Shift.register (g : Shift) : Register :=
  .replicate 1 g.numLevels g.numLevels_pos

@[simp]
theorem LevelPhase.dimension_register (g : LevelPhase) : g.register.dimension = g.numLevels :=
  Nat.mul_one _

@[simp]
theorem Clock.dimension_register (g : Clock) : g.register.dimension = g.numLevels :=
  Nat.mul_one _

@[simp]
theorem Shift.dimension_register (g : Shift) : g.register.dimension = g.numLevels :=
  Nat.mul_one _

end QuditCircuits
