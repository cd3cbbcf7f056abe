import QuditCircuits.Gate.QubitGate
import QuditCircuits.Gate.QuditGate
import QuditCircuits.Interchange.Datum
import QuditCircuits.Substitution.Log

/-!
# Stored gates, registers, points and logs

The data that stand for the small values of the library, and how they are read back.  Named gates
have a stored name of their own.  The qudit gates and the registers go through their checked
constructors, so reading never yields a value that could not have been made.
-/

namespace QuditCircuits

namespace QubitGate

/-- The name under which a gate is stored. -/
def storedName : QubitGate → String
  | id => "I"
  | x => "X"
  | y => "Y"
  | z => "Z"
  | h => "H"
  | s => "S"
  | sdg => "Sdg"
  | t => "T"
  | tdg => "Tdg"
  | sx => "SX"
  | rx => "Rx"
  | ry => "Ry"
  | rz => "Rz"
  | p => "P"
  | u3 => "U3"
  | cx => "CX"
  | cy => "CY"
  | cz => "CZ"
  | ch => "CH"
  | swap => "Swap"
  | iswap => "ISwap"
  | cp => "CP"
  | crz => "CRz"
  | ccx => "CCX"

/-- The gate with a given stored name. -/
def ofStoredName (name : String) : Except DecodeError QubitGate :=
  match all.find? fun g => g.storedName = name with
  | some gate => .ok gate
  | none => .error .malformed

/-- A named gate as a datum. -/
def encode (gate : QubitGate) : Datum :=
  .text gate.storedName

/-- Reads a named gate.  A record of the name over nothing is read too. -/
def decode : Datum → Except DecodeError QubitGate
  | .text name => ofStoredName name
  | .record [(name, .null)] => ofStoredName name
  | _ => .error .malformed

/-- Storing a named gate and reading it gives it back. -/
theorem decode_encode (gate : QubitGate) : decode gate.encode = .ok gate := by
  cases gate <;> rfl

end QubitGate

/-- A phase on one level as a datum: the levels and the level. -/
def LevelPhase.encode (gate : LevelPhase) : Datum :=
  .list [.natural gate.numLevels, .natural gate.level]

/-- Reads a phase on one level. -/
def LevelPhase.decode (datum : Datum) : Except DecodeError LevelPhase := do
  let (numLevels, level) ← Datum.pairOf Datum.word Datum.word datum
  Datum.checked (make? numLevels level)

/-- A clock gate as a datum: its levels. -/
def Clock.encode (gate : Clock) : Datum :=
  .natural gate.numLevels

/-- Reads a clock gate. -/
def Clock.decode (datum : Datum) : Except DecodeError Clock := do
  Datum.checked (make? (← datum.word))

/-- A shift gate as a datum: its levels. -/
def Shift.encode (gate : Shift) : Datum :=
  .natural gate.numLevels

/-- Reads a shift gate. -/
def Shift.decode (datum : Datum) : Except DecodeError Shift := do
  Datum.checked (make? (← datum.word))

/-- A register as a datum: the list of its levels. -/
def Register.encode (R : Register) : Datum :=
  .list (R.levels.map .natural)

/-- Reads a register. -/
def Register.decode (datum : Datum) : Except DecodeError Register := do
  Datum.checked (ofLevels? (← Datum.listOf Datum.word datum))

/-- A wire as a datum: its index. -/
def Wire.encode (wire : Wire) : Datum :=
  .natural wire

/-- Reads a wire. -/
def Wire.decode (datum : Datum) : Except DecodeError Wire :=
  datum.word

/-- A point as a datum: a record of its cycle and its wire. -/
def Point.encode (point : Point) : Datum :=
  .record [("cycle", .natural point.cycle), ("qudit", Wire.encode point.wire)]

/-- Reads a point. -/
def Point.decode (datum : Datum) : Except DecodeError Point := do
  let (cycle, wire) ← Datum.recordOfTwo "cycle" Datum.word "qudit" Wire.decode datum
  return ⟨cycle, wire⟩

/-- One entry of a substitution log as a datum. -/
def SubstitutionEntry.encode (entry : SubstitutionEntry) : Datum :=
  .record [("rule", .text entry.rule), ("replaced", .natural entry.replaced)]

/-- Reads one entry of a substitution log. -/
def SubstitutionEntry.decode (datum : Datum) : Except DecodeError SubstitutionEntry := do
  let (rule, replaced) ← Datum.recordOfTwo "rule" Datum.string "replaced" Datum.word datum
  return ⟨rule, replaced⟩

/-- A substitution log as a datum: a record of its entries. -/
def SubstitutionLog.encode (log : SubstitutionLog) : Datum :=
  .record [("entries", .list (log.entries.map SubstitutionEntry.encode))]

/-- Reads a substitution log. -/
def SubstitutionLog.decode (datum : Datum) : Except DecodeError SubstitutionLog := do
  return ⟨← Datum.recordOf "entries" (Datum.listOf SubstitutionEntry.decode) datum⟩

end QuditCircuits
