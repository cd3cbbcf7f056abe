import QuditCircuits.ShapeError

/-!
# Registers and mixed-radix indices

A *register* lists the number of levels of each wire.  Its basis states are the lists of one digit
per wire, each digit below the levels of its wire, and they are numbered with wire `0` as the most
significant digit.

* `Register.digits` reads the digits of an index off from the last wire backwards.
* `Register.index` composes an index from the first wire onwards.
* `Register.dim?` multiplies the levels wire by wire and refuses the first product that is no
  machine word; `Register.dimension` is the product itself.

The first half of the file fixes the type, the second half holds the small facts about widths and
digits that every later module cites.
-/

namespace QuditCircuits

/-- Sizes are unsigned words of 64 bits: a size is allowed when it lies below this bound. -/
def wordBound : Nat := UInt64.size

/-- The number of levels of each wire.  Every wire has at least one level. -/
structure Register where
  /-- The levels, from wire `0` onwards. -/
  levels : List Nat
  /-- No wire is without levels. -/
  levels_pos : ∀ d ∈ levels, 0 < d
  deriving DecidableEq

namespace Register

/-! ## Construction -/

/-- A register with the given levels, refused if a wire has none. -/
def ofLevels? (levels : List Nat) : Except ShapeError Register :=
  if h : ∀ d ∈ levels, 0 < d then .ok ⟨levels, h⟩ else .error .noLevels

/-- A register of `n` wires with `d` levels each, for a positive `d`. -/
def replicate (n d : Nat) (hd : 0 < d) : Register where
  levels := List.replicate n d
  levels_pos := by
    intro e he
    rw [List.eq_of_mem_replicate he]
    exact hd

/-- A register of `n` wires with `d` levels each, refused if `d` is zero, whatever `n` is. -/
def uniform? (d n : Nat) : Except ShapeError Register :=
  if hd : 0 < d then .ok (replicate n d hd) else .error .noLevels

/-- A register of `n` qubits. -/
def qubits (n : Nat) : Register :=
  replicate n 2 (by decide)

/-- The wires of `R` followed by the wires of `S`. -/
def concat (R S : Register) : Register where
  levels := R.levels ++ S.levels
  levels_pos := by
    intro d hd
    rcases List.mem_append.mp hd with h | h
    · exact R.levels_pos d h
    · exact S.levels_pos d h

/-! ## Sizes -/

/-- The number of wires. -/
def width (R : Register) : Nat :=
  R.levels.length

/-- The levels of one wire, if the register has that wire. -/
def levelsOf? (R : Register) (wire : Wire) : Option Nat :=
  R.levels[wire]?

/-- The number of basis states: the product of the levels. -/
def dimension (R : Register) : Nat :=
  R.levels.foldr (· * ·) 1

/-- The number of basis states as a machine word.  The product is taken wire by wire and refused
as soon as it leaves the words. -/
def dim? (R : Register) : Except ShapeError Nat :=
  R.levels.foldlM
    (fun product d =>
      if product * d < wordBound then .ok (product * d) else .error (.registerTooLarge R.levels))
    1

/-- The register is written as its list of levels. -/
def text (R : Register) : String :=
  levelsText R.levels

/-! ## Digits and indices -/

/-- Splits `n` into one digit per level, the last level least significant, and what is left over
above the first level. -/
def splitDigits : List Nat → Nat → List Nat × Nat
  | [], n => ([], n)
  | d :: rest, n =>
      let (lower, upper) := splitDigits rest n
      (upper % d :: lower, upper / d)

/-- One digit per wire.  What exceeds the register is dropped, so an index and its remainder modulo
the dimension have the same digits. -/
def digits (R : Register) (n : Nat) : List Nat :=
  (splitDigits R.levels n).1

/-- The index whose digits are given, wire `0` first.  Digits beyond the last wire are not read. -/
def index (R : Register) (digits : List Nat) : Nat :=
  (digits.zip R.levels).foldl (fun n (digit, d) => n * d + digit) 0

/-! ## Placing wires -/

/-- Refuses a wire beyond the register, and a wire whose levels differ from those asked for. -/
def checkWire (R : Register) (gate : Option String) (wire : Wire) (levels : Nat) :
    Except ShapeError Unit :=
  match R.levelsOf? wire with
  | none => .error (.wireOutOfRange wire R.width gate)
  | some d => if d = levels then .ok () else .error (.levelMismatch wire d levels gate)

/-! ## Small facts -/

@[ext]
theorem ext_levels {R S : Register} (h : R.levels = S.levels) : R = S := by
  obtain ⟨levels, _⟩ := R
  obtain ⟨levels', _⟩ := S
  simpa using h

@[simp]
theorem width_qubits (n : Nat) : (qubits n).width = n := by
  simp [width, qubits, replicate]

@[simp]
theorem levels_concat (R S : Register) : (R.concat S).levels = R.levels ++ S.levels := rfl

@[simp]
theorem width_concat (R S : Register) : (R.concat S).width = R.width + S.width := by
  simp [width]

/-- A place within a block of length `d` does not change which block it is. -/
theorem block_div {d place : Nat} (block : Nat) (h : place < d) : (block * d + place) / d = block := by
  rw [Nat.mul_comm, Nat.mul_add_div (Nat.zero_lt_of_lt h), Nat.div_eq_of_lt h, Nat.add_zero]

/-- There is one digit for each level. -/
theorem length_splitDigits (levels : List Nat) (n : Nat) :
    (splitDigits levels n).1.length = levels.length := by
  induction levels with
  | nil => rfl
  | cons d rest ih => simpa [splitDigits] using ih

@[simp]
theorem length_digits (R : Register) (n : Nat) : (R.digits n).length = R.width :=
  length_splitDigits R.levels n

end Register

end QuditCircuits
