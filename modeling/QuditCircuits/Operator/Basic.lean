import QuditCircuits.Register
import QuditCircuits.Scalar.SumOfProducts

/-!
# Operators

An *operator* is a square matrix over the basis states of a register.  Its entries lie row by row in
one array, whose size is part of the type; the register fixes the dimension.

The file works over any scalars `K` with the arithmetic that each operation needs.  Operators are
made from a function of row and column (`Operator.ofFn`), from a list of cells that are written into
the zero matrix (`Operator.ofCells`), or from given entries, which are refused if they do not have
the register's dimension (`MatrixEntries.operator?`).

Every statement about an operator goes through `Operator.entry`, the scalar at a row and a column,
and the lemmas at the end say what each construction puts there.
-/

namespace QuditCircuits

/-- A rectangular table of scalars, row by row. -/
structure Grid (K : Type) where
  /-- The number of rows. -/
  rows : Nat
  /-- The number of columns. -/
  cols : Nat
  /-- The cells, row by row. -/
  cells : Array K
  /-- Every row is full. -/
  size_cells : cells.size = rows * cols

/-- The square table with the given diagonal and zeros elsewhere. -/
def Grid.diagonal {K : Type} [Zero K] (diagonal : List K) : Grid K where
  rows := diagonal.length
  cols := diagonal.length
  cells := Array.ofFn fun (cell : Fin (diagonal.length * diagonal.length)) =>
    let row := cell.val / diagonal.length
    if row = cell.val % diagonal.length then diagonal.getD row 0 else 0
  size_cells := Array.size_ofFn

/-- A square matrix over the basis states of a register. -/
structure Operator (K : Type) where
  /-- The register whose basis states number the rows and the columns. -/
  register : Register
  /-- The entries, row by row. -/
  entries : Array K
  /-- There is one entry for each row and column. -/
  size_entries : entries.size = register.dimension * register.dimension

namespace Operator

variable {K : Type}

/-- The number of rows and of columns. -/
def dim (U : Operator K) : Nat :=
  U.register.dimension

/-- The entry at a row and a column, if the operator has them. -/
def get? (U : Operator K) (row col : Nat) : Option K :=
  if col < U.dim then U.entries[row * U.dim + col]? else none

/-- The entry at a row and a column when the rows are `d` long, zero outside the matrix. -/
def cell [Zero K] (U : Operator K) (d row col : Nat) : K :=
  if col < d then U.entries.getD (row * d + col) 0 else 0

/-- The entry at a row and a column, zero outside the matrix. -/
def entry [Zero K] (U : Operator K) (row col : Nat) : K :=
  U.cell U.dim row col

/-! ## Construction -/

/-- The operator with the entries `f row col`. -/
def ofFn (R : Register) (f : Nat → Nat → K) : Operator K where
  register := R
  entries :=
    let d := R.dimension
    Array.ofFn fun (cell : Fin (d * d)) => f (cell.val / d) (cell.val % d)
  size_entries := Array.size_ofFn

/-- Writes scalars into the cells of a table with rows of length `d`, one after the other. -/
def writeCells (d : Nat) (table : Array K) (cells : List (Nat × Nat × K)) : Array K :=
  cells.foldl (fun table (row, col, x) => table.setIfInBounds (row * d + col) x) table

/-- Writing keeps the size of the table. -/
theorem size_writeCells (d : Nat) (table : Array K) (cells : List (Nat × Nat × K)) :
    (writeCells d table cells).size = table.size := by
  induction cells generalizing table with
  | nil => rfl
  | cons cell rest ih =>
      simpa [writeCells] using ih (table.setIfInBounds (cell.1 * d + cell.2.1) cell.2.2)

/-- The operator whose listed cells hold the listed scalars and whose other cells are zero.  A cell
is given by its row and its column; where it is listed twice the later scalar counts. -/
def ofCells [Zero K] (R : Register) (cells : List (Nat × Nat × K)) : Operator K where
  register := R
  entries :=
    let d := R.dimension
    writeCells d (Array.replicate (d * d) 0) cells
  size_entries := by
    rw [size_writeCells, Array.size_replicate]

/-- A table read as an operator, refused if it is not square of the register's dimension. -/
def ofGrid? (grid : Grid K) (R : Register) : Except ShapeError (Operator K) := do
  let _ ← R.dim?
  if h : grid.rows = R.dimension ∧ grid.cols = R.dimension then
    return ⟨R, grid.cells, by rw [grid.size_cells, h.1, h.2]⟩
  else
    throw (.matrixShape R.dimension grid.rows grid.cols)

/-- A list of entries read row by row, refused if it does not fill the matrix exactly.  The rows
counted in the error are the full ones. -/
def ofRows? (entries : List K) (R : Register) : Except ShapeError (Operator K) := do
  let _ ← R.dim?
  if h : entries.length = R.dimension * R.dimension then
    return ⟨R, entries.toArray, by simpa using h⟩
  else
    throw (.matrixShape R.dimension (entries.length / max R.dimension 1) R.dimension)

/-- The operator with the given diagonal, refused if that has not one entry for each basis state. -/
def ofDiagonal? [Zero K] (diagonal : List K) (R : Register) : Except ShapeError (Operator K) :=
  ofGrid? (Grid.diagonal diagonal) R

end Operator

/-- Entries from which an operator is made. -/
inductive MatrixEntries (K : Type)
  /-- All entries, row by row. -/
  | rows (entries : List K)
  /-- The entries of the diagonal; all others are zero. -/
  | diagonal (entries : List K)

namespace MatrixEntries

variable {K : Type}

/-- The operator with the given entries, refused if they do not fill the matrix exactly. -/
def operator? [Zero K] (R : Register) : MatrixEntries K → Except ShapeError (Operator K)
  | rows entries => Operator.ofRows? entries R
  | diagonal entries => Operator.ofDiagonal? entries R

/-- There are as many entries as the matrix asks for. -/
def Fits (R : Register) : MatrixEntries K → Prop
  | rows entries => entries.length = R.dimension * R.dimension
  | diagonal entries => entries.length = R.dimension

end MatrixEntries

namespace Operator

variable {K : Type}

/-- The identity on a register. -/
def identity [Zero K] [One K] (R : Register) : Operator K :=
  ofFn R fun row col => if row = col then 1 else 0

/-- The identity on a register, refused if the register is too large for a matrix. -/
def identity? [Zero K] [One K] (R : Register) : Except ShapeError (Operator K) := do
  let _ ← R.dim?
  return identity R

/-- The operator with the rows as columns. -/
def transpose [Zero K] (U : Operator K) : Operator K :=
  ofFn U.register fun row col => U.entry col row

/-! ## Products -/

/-- A multiple of the matrix product, `V` applied first.  Both operators are read at the dimension of
`U`.  The entries are computed column after column, because those of one column share the same column
of `V`. -/
@[specialize]
def scaledMul [Zero K] [One K] [Add K] [Mul K] [AddProduct K] (factor : K) (U V : Operator K) :
    Operator K :=
  let d := U.dim
  transpose <| ofFn U.register fun col row =>
    scaledSum factor d (fun k => U.cell d row k) fun k => V.cell d k col

/-- The matrix product, `V` applied first: the multiple by one.  Amplitudes are multiplied by one
like by any other factor, so an entry with an infinite or undefined part can lose its other part. -/
@[specialize]
def mul [Zero K] [One K] [Add K] [Mul K] [AddProduct K] (U V : Operator K) : Operator K :=
  scaledMul 1 U V

/-- The matrix product, refused for operators over different registers. -/
@[specialize]
def mul? [Zero K] [One K] [Add K] [Mul K] [AddProduct K] (U V : Operator K) :
    Except ShapeError (Operator K) :=
  if U.register = V.register then .ok (U.mul V) else .error (.matrixShape U.dim V.dim V.dim)

/-- The adjoint: transposed, with every entry conjugated. -/
def adjoint [Zero K] [Conjugate K] (U : Operator K) : Operator K :=
  ofFn U.register fun row col => Conjugate.conj (U.entry col row)

/-- The tensor product, with the wires of `U` in front. -/
def tensor [Zero K] [Mul K] (U V : Operator K) : Operator K :=
  let d := V.dim
  ofFn (U.register.concat V.register) fun row col =>
    U.entry (row / d) (col / d) * V.entry (row % d) (col % d)

/-! ## Equality -/

/-- Entry by entry equality over the same register. -/
instance [BEq K] : BEq (Operator K) where
  beq U V := U.register == V.register && U.entries == V.entries

/-! ## What the constructions put where -/

@[ext]
theorem ext_entries {U V : Operator K} (register : U.register = V.register)
    (entries : U.entries = V.entries) : U = V := by
  obtain ⟨_, _, _⟩ := U
  obtain ⟨_, _, _⟩ := V
  cases register
  cases entries
  rfl

@[simp]
theorem register_ofFn (R : Register) (f : Nat → Nat → K) : (ofFn R f).register = R := rfl

/-- A cell of the table lies inside the array. -/
theorem cell_lt {m d row col : Nat} (hrow : row < m) (hcol : col < d) : row * d + col < m * d :=
  calc
    row * d + col < row * d + d := Nat.add_lt_add_left hcol _
    _ = (row + 1) * d := by rw [Nat.add_mul, Nat.one_mul]
    _ ≤ m * d := Nat.mul_le_mul_right _ hrow

theorem entry_ofFn [Zero K] (R : Register) (f : Nat → Nat → K) {row col : Nat}
    (hrow : row < R.dimension) (hcol : col < R.dimension) :
    (ofFn R f).entry row col = f row col := by
  have hcell := cell_lt hrow hcol
  have hdiv := Register.block_div row hcol
  have hmod : (row * R.dimension + col) % R.dimension = col := Nat.mul_add_mod_of_lt hcol
  simp [entry, cell, dim, ofFn, hcol, hcell, hdiv, hmod]

/-- Outside the matrix every entry reads as zero. -/
theorem entry_eq_zero [Zero K] (U : Operator K) {row col : Nat}
    (h : ¬ (row < U.dim ∧ col < U.dim)) : U.entry row col = 0 := by
  by_cases hcol : col < U.dim
  · have hrow : U.dim ≤ row := Nat.le_of_not_lt fun hrow => h ⟨hrow, hcol⟩
    have hsize : U.entries.size ≤ row * U.dim + col := by
      rw [U.size_entries]
      exact Nat.le_trans (Nat.mul_le_mul_right _ hrow) (Nat.le_add_right _ _)
    simp [entry, cell, hcol, Array.getD_eq_getD_getElem?, Array.getElem?_eq_none hsize]
  · simp [entry, cell, hcol]

@[simp]
theorem entry_transpose [Zero K] (U : Operator K) (row col : Nat) :
    U.transpose.entry row col = U.entry col row := by
  by_cases h : row < U.dim ∧ col < U.dim
  · exact entry_ofFn U.register _ h.1 h.2
  · rw [entry_eq_zero U.transpose h, entry_eq_zero U fun h' => h h'.symm]

/-- An entry of a multiple of a product is a multiple of a row of the left operator times a column of
the right one. -/
theorem entry_scaledMul [Zero K] [One K] [Add K] [Mul K] [AddProduct K] (factor : K) (U V : Operator K)
    {row col : Nat} (hrow : row < U.dim) (hcol : col < U.dim) :
    (scaledMul factor U V).entry row col =
      scaledSum factor U.dim (fun k => U.cell U.dim row k) fun k => V.cell U.dim k col := by
  rw [scaledMul, entry_transpose]
  exact entry_ofFn U.register _ hcol hrow

end Operator

end QuditCircuits
