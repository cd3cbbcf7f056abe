import QuditCircuits.Gate.Primitive

/-!
# The gate library

The matrix of every primitive gate, computed from its angles in real arithmetic.  Basis states of
several qubits are numbered with the first wire in front, so the control of a controlled gate is the
more significant digit.

The clock and the shift are written over any scalars: the clock takes the root of unity as an
argument and multiplies it up level by level, the shift only uses zeros and ones.
-/

namespace QuditCircuits

/-! ## Entries of matrices -/

/-- The entries of a two by two matrix. -/
structure Block (K : Type) where
  /-- The first entry of the first row. -/
  a : K
  /-- The second entry of the first row. -/
  b : K
  /-- The first entry of the second row. -/
  c : K
  /-- The second entry of the second row. -/
  d : K

/-- The matrix itself, row by row. -/
def Block.entries {K : Type} (u : Block K) : List K :=
  [u.a, u.b, u.c, u.d]

/-- The matrix on two qubits that applies the block to the second one when the first is set. -/
def Block.controlled {K : Type} [Zero K] [One K] (u : Block K) : List K :=
  [1, 0, 0, 0,
    0, 1, 0, 0,
    0, 0, u.a, u.b,
    0, 0, u.c, u.d]

/-- The matrix that sends basis state `j` to `images[j]`. -/
def permutation {K : Type} [Zero K] [One K] (images : List Nat) : List K :=
  let d := images.length
  let cells := images.zipIdx.map fun image => (image.1, image.2, 1)
  (Operator.writeCells d (Array.replicate (d * d) 0) cells).toList

theorem length_permutation {K : Type} [Zero K] [One K] (images : List Nat) :
    (permutation images : List K).length = images.length * images.length := by
  rw [permutation, Array.length_toList, Operator.size_writeCells, Array.size_replicate]

/-! ## Qudit gates over any scalars -/

section Qudit

variable {K : Type}

/-- `phase` on one level, one on the others. -/
def LevelPhase.entries [One K] (g : LevelPhase) (phase : K) : MatrixEntries K :=
  .diagonal ((List.range g.numLevels).map fun level => if level = g.level then phase else 1)

theorem LevelPhase.fits_entries [One K] (g : LevelPhase) (phase : K) :
    (g.entries phase).Fits g.register := by
  rw [entries, MatrixEntries.Fits, List.length_map, List.length_range, dimension_register]

/-- The first `n` terms of `start`, `start * w`, `start * w * w`, …. -/
def runningProducts [Mul K] (w : K) : Nat → K → List K
  | 0, _ => []
  | n + 1, start => start :: runningProducts w n (start * w)

theorem length_runningProducts [Mul K] (w : K) (n : Nat) (start : K) :
    (runningProducts w n start).length = n := by
  induction n generalizing start with
  | zero => rfl
  | succ n ih => rw [runningProducts, List.length_cons, ih]

/-- The powers of `w` along the diagonal. -/
def Clock.entries [One K] [Mul K] (g : Clock) (w : K) : MatrixEntries K :=
  .diagonal (runningProducts w g.numLevels 1)

theorem Clock.fits_entries [One K] [Mul K] (g : Clock) (w : K) :
    (g.entries w).Fits g.register := by
  rw [entries, MatrixEntries.Fits, length_runningProducts, dimension_register]

/-- Every level goes to the next one, the last to the first. -/
def Shift.images (g : Shift) : List Nat :=
  (List.range g.numLevels).map fun level => (level + 1) % g.numLevels

theorem Shift.length_images (g : Shift) : g.images.length = g.numLevels := by
  rw [images, List.length_map, List.length_range]

/-- The matrix of the shift.  With fewer than `2 ^ 32` levels its cells are numbered by machine words
(`Shift.cell_lt_wordBound`); with more levels it has more cells than any memory. -/
def Shift.entries [Zero K] [One K] (g : Shift) : MatrixEntries K :=
  .rows (permutation g.images)

theorem Shift.fits_entries [Zero K] [One K] (g : Shift) :
    (g.entries : MatrixEntries K).Fits g.register := by
  rw [entries, MatrixEntries.Fits, length_permutation, length_images, dimension_register]

end Qudit

/-! ## The matrices in real arithmetic -/

section Real

variable {R : Type} [RealArithmetic R]

/-- The first root of unity of order `d`. -/
def rootOfUnity (d : Nat) : Amplitude R :=
  .polar 1 (RealArithmetic.ofNat 2 * RealArithmetic.pi / RealArithmetic.ofNat d)

namespace QubitGate

/-- The amplitude of length one and the given angle. -/
def turn (angle : R) : Amplitude R :=
  .polar 1 angle

/-- Half of a real number. -/
def half (x : R) : R :=
  x / RealArithmetic.ofNat 2

/-- The Hadamard gate. -/
def hadamard : Block (Amplitude R) :=
  let s : R := RealArithmetic.sqrtHalf
  ⟨.ofReal s, .ofReal s, .ofReal s, .ofReal (-s)⟩

/-- The rotation about the third axis. -/
def rotation (angle : R) : Block (Amplitude R) :=
  ⟨turn (half (-angle)), 0, 0, turn (half angle)⟩

/-- The matrix of a gate on one qubit, or of the gate under the control where there is one.
`angle k` is the `k`-th parameter. -/
def block (angle : Nat → R) : QubitGate → Block (Amplitude R)
  | x | cx => ⟨0, 1, 1, 0⟩
  | y | cy => ⟨0, -Amplitude.imaginaryUnit, Amplitude.imaginaryUnit, 0⟩
  | z | cz => ⟨1, 0, 0, -1⟩
  | h | ch => hadamard
  | s => ⟨1, 0, 0, Amplitude.imaginaryUnit⟩
  | sdg => ⟨1, 0, 0, -Amplitude.imaginaryUnit⟩
  | t => ⟨1, 0, 0, turn (half (half RealArithmetic.pi))⟩
  | tdg => ⟨1, 0, 0, turn (-half (half RealArithmetic.pi))⟩
  | sx =>
      let plus : Amplitude R := ⟨half 1, half 1⟩
      let minus : Amplitude R := ⟨half 1, -half 1⟩
      ⟨plus, minus, minus, plus⟩
  | rx =>
      let c := RealArithmetic.cos (half (angle 0))
      let s := RealArithmetic.sin (half (angle 0))
      ⟨.ofReal c, ⟨0, -s⟩, ⟨0, -s⟩, .ofReal c⟩
  | ry =>
      let c := RealArithmetic.cos (half (angle 0))
      let s := RealArithmetic.sin (half (angle 0))
      ⟨.ofReal c, .ofReal (-s), .ofReal s, .ofReal c⟩
  | rz | crz => rotation (angle 0)
  | p | cp => ⟨1, 0, 0, turn (angle 0)⟩
  | u3 =>
      let c := RealArithmetic.cos (half (angle 0))
      let s := RealArithmetic.sin (half (angle 0))
      ⟨.ofReal c, -Amplitude.polar s (angle 2), .polar s (angle 1),
        .polar c (angle 1 + angle 2)⟩
  | id | swap | iswap | ccx => ⟨1, 0, 0, 1⟩

/-- The matrix of a named gate, row by row. -/
def entries (angle : Nat → R) (g : QubitGate) : List (Amplitude R) :=
  match g with
  | cx | cy | cz | ch | cp | crz => (g.block angle).controlled
  | swap => permutation [0, 2, 1, 3]
  | iswap =>
      [1, 0, 0, 0,
        0, 0, Amplitude.imaginaryUnit, 0,
        0, Amplitude.imaginaryUnit, 0, 0,
        0, 0, 0, 1]
  | ccx => permutation [0, 1, 2, 3, 4, 5, 7, 6]
  | _ => (g.block angle).entries

theorem fits_entries (angle : Nat → R) (g : QubitGate) :
    (MatrixEntries.rows (g.entries angle)).Fits (.qubits g.numWires) := by
  cases g with
  | swap | ccx => exact length_permutation _
  | _ => rfl

end QubitGate

/-- The gate library: the matrix of every primitive gate in real arithmetic. -/
def GateModel.standard : GateModel R (Amplitude R) where
  entries
    | .qubit g, params => .rows (g.entries fun k => params.getD k 0)
    | .levelPhase g, _ =>
        let w := rootOfUnity g.numLevels
        g.entries (-(w * w))
    | .clock g, _ => g.entries (rootOfUnity g.numLevels)
    | .shift g, _ => g.entries
  fits gate params := by
    cases gate with
    | qubit g => exact g.fits_entries _
    | levelPhase g => exact g.fits_entries _
    | clock g => exact g.fits_entries _
    | shift g => exact g.fits_entries

end Real

end QuditCircuits
