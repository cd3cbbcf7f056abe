import QuditCircuits.Gate.Primitive
import QuditCircuits.Proofs.Checks
import QuditCircuits.Proofs.Register.Digits

/-!
# Operators of gate models

An operator is made of entries by a constructor that checks the size of the register and the number of
the entries.  Entries that fit pass the second check, so that only the register can be refused, and it is
if its dimension is no machine word (`MatrixEntries.operator?_eq`).

The entries of a gate model fit.  So a primitive gate has an operator at the right number of parameters,
unless its register is too large (`GateModel.unitary?_eq`).
-/

namespace QuditCircuits

variable {θ K : Type} [Zero K]

/-! ## Entries that fit -/

namespace MatrixEntries

variable {R : Register}

/-- The operator with entries that fit. -/
def operator (R : Register) : (entries : MatrixEntries K) → entries.Fits R → Operator K
  | rows entries, h => ⟨R, entries.toArray, entries.size_toArray.trans h⟩
  | diagonal entries, h => ⟨R, (Grid.diagonal entries).cells, by
      have hlen : entries.length = R.dimension := h
      rw [← hlen]
      exact (Grid.diagonal entries).size_cells⟩

@[simp]
theorem register_operator {entries : MatrixEntries K} (h : entries.Fits R) :
    (entries.operator R h).register = R := by
  cases entries <;> rfl

/-- Entries that fit are refused only if the register is too large. -/
theorem operator?_eq {entries : MatrixEntries K} (h : entries.Fits R) :
    entries.operator? R =
      if R.dimension < wordBound then .ok (entries.operator R h)
      else .error (.registerTooLarge R.levels) := by
  cases entries with
  | rows entries =>
      have hlen : entries.length = R.dimension * R.dimension := h
      rw [operator?, Operator.ofRows?, R.dim?_eq, dif_pos hlen]
      split <;> rfl
  | diagonal entries =>
      have hlen : (Grid.diagonal entries).rows = R.dimension ∧
          (Grid.diagonal entries).cols = R.dimension := ⟨h, h⟩
      rw [operator?, Operator.ofDiagonal?, Operator.ofGrid?, R.dim?_eq, dif_pos hlen]
      split <;> rfl

theorem operator?_eq_ok {entries : MatrixEntries K} (h : entries.Fits R)
    (hword : R.dimension < wordBound) : entries.operator? R = .ok (entries.operator R h) := by
  rw [operator?_eq h, if_pos hword]

theorem entry_rows {entries : List K} (h : (rows entries).Fits R) (row : Nat) {col : Nat}
    (hcol : col < R.dimension) :
    ((rows entries).operator R h).entry row col = entries.getD (row * R.dimension + col) 0 := by
  show (if col < R.dimension then entries.toArray.getD (row * R.dimension + col) 0 else 0) = _
  rw [if_pos hcol, Array.getD_eq_getD_getElem?, List.getElem?_toArray, List.getD_eq_getElem?_getD]

theorem operator_diagonal {entries : List K} (h : (diagonal entries).Fits R) :
    (diagonal entries).operator R h =
      .ofFn R fun row col => if row = col then entries.getD row 0 else 0 := by
  have hlen : entries.length = R.dimension := h
  refine Operator.ext_entries rfl (Array.ext ?_ fun cell _ _ => ?_)
  · simp [operator, Operator.ofFn, Grid.diagonal, hlen]
  · simp [operator, Operator.ofFn, Grid.diagonal, hlen]

theorem entry_diagonal {entries : List K} (h : (diagonal entries).Fits R) {row col : Nat}
    (hrow : row < R.dimension) (hcol : col < R.dimension) :
    ((diagonal entries).operator R h).entry row col =
      if row = col then entries.getD col 0 else 0 := by
  rw [operator_diagonal h, Operator.entry_ofFn R _ hrow hcol]
  split
  · next heq => rw [heq]
  · rfl

end MatrixEntries

/-! ## Gates -/

namespace GateModel

variable {model : GateModel θ K} {gate : Primitive} {params : List θ}

/-- The operator with a gate's entries. -/
def operator (model : GateModel θ K) (gate : Primitive) (params : List θ) : Operator K :=
  (model.entries gate params).operator gate.register (model.fits gate params)

@[simp]
theorem register_operator (model : GateModel θ K) (gate : Primitive) (params : List θ) :
    (model.operator gate params).register = gate.register :=
  MatrixEntries.register_operator _

/-- A wrong number of parameters is found first. -/
theorem unitary?_of_length_ne (model : GateModel θ K) (hlen : params.length ≠ gate.numParams) :
    model.unitary? gate params =
      .error (.parameterCount gate.name gate.numParams params.length) := by
  rw [unitary?, checkParameters, if_neg hlen]
  rfl

/-- Then a register whose dimension is no word, and nothing else. -/
theorem unitary?_eq (model : GateModel θ K) (hlen : params.length = gate.numParams) :
    model.unitary? gate params =
      if gate.register.dimension < wordBound then .ok (model.operator gate params)
      else .error (.registerTooLarge gate.register.levels) := by
  rw [unitary?, checkParameters, if_pos hlen]
  exact MatrixEntries.operator?_eq (model.fits gate params)

theorem unitary?_eq_ok_iff {U : Operator K} : model.unitary? gate params = .ok U ↔
    params.length = gate.numParams ∧ gate.register.dimension < wordBound ∧
      model.operator gate params = U := by
  by_cases hlen : params.length = gate.numParams
  · rw [unitary?_eq model hlen, and_iff_right hlen]
    by_cases hword : gate.register.dimension < wordBound <;> simp [hword]
  · simp [unitary?_of_length_ne model hlen, hlen]

/-- The model whose gates have the entries `f gate params row col`. -/
def ofFn (f : Primitive → List θ → Nat → Nat → K) : GateModel θ K where
  entries gate params := .rows (Operator.ofFn gate.register (f gate params)).entries.toList
  fits gate params := by
    rw [MatrixEntries.Fits, Array.length_toList, Operator.size_entries, Operator.register_ofFn]

@[simp]
theorem operator_ofFn (f : Primitive → List θ → Nat → Nat → K) (gate : Primitive)
    (params : List θ) : (ofFn f).operator gate params = .ofFn gate.register (f gate params) :=
  rfl

end GateModel

end QuditCircuits
