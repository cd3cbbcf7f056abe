import Mathlib.NumberTheory.Zsqrtd.GaussianInt
import QuditCircuits.Proofs.Operator.Monomial

/-!
# The Weyl relations

On a wire with `d` levels the clock `Z` multiplies level `j` by the `j`-th power of a number `w` with
`w ^ d = 1`, and the shift `X` moves every level to the next one, the last to the first.  They commute up
to the factor `w`, and both have order `d`: `Z * X = w * (X * Z)`, `X ^ d = 1` and `Z ^ d = 1`
(`weyl_relations`).

Both gates move basis states (`Clock.toMatrix_operator`, `Shift.toMatrix_operator`), so their powers are
known state by state: `X ^ k` moves level `j` to `j + k`, counted modulo `d`, and `Z ^ k` multiplies it by
`w ^ (j * k)`.  The relations hold over any commutative ring.  At the last level, where the shift wraps
around, they need `w ^ d = 1`.
-/

namespace QuditCircuits

/-! ## Powers of operators -/

/-- The product of `k` times the same operator. -/
def Operator.power? {K : Type} [Zero K] [One K] [Add K] [Mul K] [AddProduct K] (U : Operator K) :
    Nat → Except ShapeError (Operator K)
  | 0 => .ok (identity U.register)
  | k + 1 => do
      let power ← U.power? k
      power.mul? U

variable {K : Type} [CommRing K]

/-- Powers always exist, and their matrices are the powers of the matrix. -/
theorem Operator.exists_power? {R : Register} {U : Operator K} (hU : U.register = R) (k : Nat) :
    ∃ P, U.power? k = .ok P ∧ P.register = R ∧ P.toMatrix R = U.toMatrix R ^ k := by
  induction k with
  | zero =>
      subst hU
      exact ⟨identity U.register, rfl, rfl, by rw [toMatrix_identity, pow_zero]⟩
  | succ k ih =>
      obtain ⟨P, hP, hregister, hmatrix⟩ := ih
      refine ⟨P.mul U, ?_, hregister, ?_⟩
      · rw [power?, hP]
        exact mul?_eq_ok hregister hU
      · rw [toMatrix_mul hregister hU, hmatrix, pow_succ]

theorem Operator.power?_eq_identity {R : Register} {U : Operator K} (hU : U.register = R) {k : Nat}
    (h : U.toMatrix R ^ k = 1) : U.power? k = .ok (identity R) := by
  obtain ⟨P, hP, hregister, hmatrix⟩ := exists_power? hU k
  have hidentity : P = identity R := by
    refine eq_of_toMatrix_eq hregister (register_identity R) ?_
    rw [hmatrix, h, toMatrix_identity]
  rw [hP, hidentity]

theorem Operator.get?_eq_toMatrix {R : Register} {U : Operator K} (hU : U.register = R) {row col : Nat}
    (hrow : row < R.dimension) (hcol : col < R.dimension) :
    U.get? row col = some (U.toMatrix R ⟨row, hrow⟩ ⟨col, hcol⟩) := by
  subst hU
  exact U.get?_eq_some_entry hrow hcol

/-! ## The next level -/

/-- The next of `d` levels, the first one after the last. -/
def nextLevel {d : Nat} (level : Fin d) : Fin d :=
  ⟨(level + 1) % d, Nat.mod_lt _ level.pos⟩

theorem val_iterate_nextLevel {d : Nat} (k : Nat) (level : Fin d) :
    (nextLevel^[k] level).val = (level + k) % d := by
  induction k with
  | zero => exact (Nat.mod_eq_of_lt level.isLt).symm
  | succ k ih =>
      rw [Function.iterate_succ_apply', nextLevel, Fin.val_mk, ih, Nat.mod_add_mod, Nat.add_assoc]

theorem iterate_nextLevel_self (d : Nat) : (nextLevel (d := d))^[d] = id := by
  funext level
  apply Fin.ext
  rw [val_iterate_nextLevel, Nat.add_mod_right, Nat.mod_eq_of_lt level.isLt]
  rfl

/-- Going on from a level `d` times leads back to it, so no two levels have the same next one. -/
theorem injective_nextLevel (d : Nat) : Function.Injective (nextLevel (d := d)) := by
  cases d with
  | zero => exact fun level => level.elim0
  | succ d =>
      refine Function.LeftInverse.injective (g := nextLevel^[d]) fun level => ?_
      rw [← Function.iterate_succ_apply, iterate_nextLevel_self, id_eq]

/-! ## Clock and shift as matrices -/

/-- The running products are the powers. -/
theorem getD_runningProducts (w : K) {n k : Nat} (h : k < n) (start : K) :
    (runningProducts w n start).getD k 0 = start * w ^ k := by
  induction n generalizing k start with
  | zero => exact absurd h (Nat.not_lt_zero k)
  | succ n ih =>
      cases k with
      | zero => simp [runningProducts]
      | succ k =>
          rw [runningProducts, List.getD_cons_succ, ih (Nat.lt_of_succ_lt_succ h), pow_succ']
          ring

/-- The operator of the clock, made of its entries. -/
def Clock.operator (g : Clock) (w : K) : Operator K :=
  (g.entries w).operator g.register (g.fits_entries w)

/-- The operator of the shift, made of its entries. -/
def Shift.operator {K : Type} [Zero K] [One K] (g : Shift) : Operator K :=
  g.entries.operator g.register g.fits_entries

@[simp]
theorem Clock.register_operator (g : Clock) (w : K) : (g.operator w).register = g.register := rfl

@[simp]
theorem Shift.register_operator (g : Shift) : (g.operator : Operator K).register = g.register := rfl

/-- The clock multiplies every level by a power of the root. -/
theorem Clock.toMatrix_operator (g : Clock) (w : K) :
    (g.operator w).toMatrix g.register = monomial id fun col => w ^ col.val := by
  ext row col
  have hcol : col.val < g.numLevels := g.dimension_register ▸ col.isLt
  have hentry := MatrixEntries.entry_diagonal (g.fits_entries w) row.isLt col.isLt
  rw [getD_runningProducts w hcol, one_mul] at hentry
  rw [Operator.toMatrix_apply, monomial_apply]
  simp only [Fin.ext_iff, id_eq]
  exact hentry

/-- The number of cells is a machine word, and so is the number of the cell that a level fills. -/
theorem Shift.cell_lt_wordBound (g : Shift) (hlevels : g.numLevels < 2 ^ 32) {level : Nat}
    (hlevel : level < g.numLevels) :
    (level + 1) % g.numLevels * g.numLevels + level < g.numLevels * g.numLevels ∧
      g.numLevels * g.numLevels < wordBound := by
  refine ⟨Operator.cell_lt (Nat.mod_lt _ g.numLevels_pos) hlevel, ?_⟩
  calc
    g.numLevels * g.numLevels < 2 ^ 32 * 2 ^ 32 := Nat.mul_lt_mul'' hlevels hlevels
    _ = wordBound := rfl

/-- The shift moves every level to the next one, over any scalars. -/
theorem Shift.entry_operator {K : Type} [Zero K] [One K] (g : Shift)
    (row col : Fin g.register.dimension) :
    (g.operator : Operator K).entry row col = if row = nextLevel col then 1 else 0 := by
  have hlen : g.images.length = g.register.dimension := by
    rw [g.length_images, g.dimension_register]
  have hcol : col.val < g.numLevels := g.dimension_register ▸ col.isLt
  have himage : g.images.getD col 0 = (nextLevel col).val := by
    simp [images, nextLevel, List.getD_eq_getElem?_getD, hcol]
  have hentry := MatrixEntries.entry_permutation (K := K) hlen g.fits_entries row.isLt col.isLt
  rw [himage] at hentry
  simp only [Fin.ext_iff]
  exact hentry

theorem Shift.toMatrix_operator (g : Shift) :
    (g.operator : Operator K).toMatrix g.register = monomial nextLevel fun _ => 1 := by
  ext row col
  exact g.entry_operator row col

/-! ## Powers of clock and shift -/

/-- `k` shifts move level `j` to `j + k`, counted modulo the number of levels. -/
theorem Shift.exists_power? (g : Shift) (k : Nat) :
    ∃ P, (g.operator : Operator K).power? k = .ok P ∧ ∀ row < g.numLevels, ∀ col < g.numLevels,
      P.get? row col = some (if row = (col + k) % g.numLevels then 1 else 0) := by
  obtain ⟨P, hP, hregister, hmatrix⟩ := Operator.exists_power? (K := K) g.register_operator k
  refine ⟨P, hP, fun row hrow col hcol => ?_⟩
  rw [← g.dimension_register] at hrow hcol
  rw [Operator.get?_eq_toMatrix hregister hrow hcol, hmatrix, g.toMatrix_operator, monomial_pow,
    monomial_apply, Finset.prod_const_one]
  simp only [Fin.ext_iff, val_iterate_nextLevel, g.dimension_register]

/-- `k` turns of the clock multiply level `j` by `w ^ (j * k)`. -/
theorem Clock.exists_power? (g : Clock) (w : K) (k : Nat) :
    ∃ P, (g.operator w).power? k = .ok P ∧ ∀ row < g.numLevels, ∀ col < g.numLevels,
      P.get? row col = some (if row = col then w ^ (col * k) else 0) := by
  obtain ⟨P, hP, hregister, hmatrix⟩ := Operator.exists_power? (g.register_operator w) k
  refine ⟨P, hP, fun row hrow col hcol => ?_⟩
  rw [← g.dimension_register] at hrow hcol
  rw [Operator.get?_eq_toMatrix hregister hrow hcol, hmatrix, g.toMatrix_operator, monomial_pow,
    monomial_apply]
  simp only [Function.iterate_id, id_eq, Finset.prod_const, Finset.card_range, pow_mul, Fin.ext_iff]

theorem Shift.power?_numLevels (g : Shift) :
    (g.operator : Operator K).power? g.numLevels = .ok (.identity g.register) := by
  refine Operator.power?_eq_identity g.register_operator ?_
  rw [g.toMatrix_operator, monomial_pow, ← g.dimension_register, iterate_nextLevel_self,
    Finset.prod_const_one, monomial_id_one]

theorem Clock.power?_numLevels (g : Clock) {w : K} (hw : w ^ g.numLevels = 1) :
    (g.operator w).power? g.numLevels = .ok (.identity g.register) := by
  have hfactor : ∀ level : Nat, (w ^ level) ^ g.numLevels = 1 := by
    intro level
    rw [← pow_mul, pow_mul', hw, one_pow]
  refine Operator.power?_eq_identity (g.register_operator w) ?_
  rw [g.toMatrix_operator, monomial_pow]
  simp only [Function.iterate_id, id_eq, Finset.prod_const, Finset.card_range, hfactor, monomial_id_one]

/-! ## The relations -/

/-- The root takes one more factor to the next level, also from the last level to the first. -/
theorem pow_nextLevel {d : Nat} {w : K} (hw : w ^ d = 1) (level : Fin d) :
    w ^ (nextLevel level).val = w * w ^ level.val := by
  rw [nextLevel, Fin.val_mk, ← pow_eq_pow_mod _ hw, pow_succ']

/-- Turning the clock after a shift is the root times turning it before. -/
theorem Clock.mul_shift {clock : Clock} {shift : Shift} (hregister : shift.register = clock.register)
    {w : K} (hw : w ^ clock.register.dimension = 1) :
    (clock.operator w).mul shift.operator = (shift.operator.mul (clock.operator w)).scale w := by
  have hclock := clock.register_operator w
  have hshift : (shift.operator : Operator K).register = clock.register := hregister
  have hproduct : (shift.operator.mul (clock.operator w)).register = clock.register := hregister
  have hmatrix : (shift.operator : Operator K).toMatrix clock.register = monomial nextLevel fun _ => 1 :=
    hregister ▸ shift.toMatrix_operator
  refine Operator.eq_of_toMatrix_eq hclock hproduct ?_
  rw [Operator.toMatrix_scale hproduct, Operator.toMatrix_mul hclock hshift,
    Operator.toMatrix_mul hshift hclock, clock.toMatrix_operator, hmatrix, monomial_mul_monomial,
    monomial_mul_monomial, smul_monomial]
  simp only [mul_one, one_mul, pow_nextLevel hw]
  rfl

/-- The Weyl relations of clock and shift on a wire with `d` levels, for every number `w` with
`w ^ d = 1`: they commute up to `w`, both have order `d`, and every power is known entry by entry.  If
`d` is a machine word, these two operators are the ones that are made of the gates' entries. -/
theorem weyl_relations {d : Nat} (hd : 0 < d) {w : K} (hw : w ^ d = 1) :
    let clock : Clock := ⟨d, hd⟩
    let shift : Shift := ⟨d, hd⟩
    let Z : Operator K := clock.operator w
    let X : Operator K := shift.operator
    (d < 2 ^ 64 → (clock.entries w).operator? clock.register = .ok Z ∧
      shift.entries.operator? shift.register = .ok X) ∧
      (∃ V W, Z.mul? X = .ok V ∧ X.mul? Z = .ok W ∧ V = W.scale w) ∧
      X.power? d = .ok (.identity X.register) ∧ Z.power? d = .ok (.identity Z.register) ∧
      ∀ k, ∃ P Q, X.power? k = .ok P ∧ Z.power? k = .ok Q ∧ ∀ row < d, ∀ col < d,
        P.get? row col = some (if row = (col + k) % d then 1 else 0) ∧
        Q.get? row col = some (if row = col then w ^ (col * k) else 0) := by
  intro clock shift Z X
  have hshift : shift.register = clock.register := rfl
  have hroot : w ^ clock.register.dimension = 1 := by rw [clock.dimension_register, hw]
  refine ⟨fun hword => ⟨?_, ?_⟩, ⟨Z.mul X, X.mul Z, ?_, ?_, Clock.mul_shift hshift hroot⟩,
    shift.power?_numLevels, clock.power?_numLevels hw, fun k => ?_⟩
  · exact MatrixEntries.operator?_eq_ok (clock.fits_entries w) (clock.dimension_register ▸ hword)
  · exact MatrixEntries.operator?_eq_ok shift.fits_entries (shift.dimension_register ▸ hword)
  · exact Operator.mul?_eq_ok (clock.register_operator w) hshift
  · exact Operator.mul?_eq_ok hshift (clock.register_operator w)
  · obtain ⟨P, hP, hPentries⟩ := shift.exists_power? (K := K) k
    obtain ⟨Q, hQ, hQentries⟩ := clock.exists_power? w k
    exact ⟨P, Q, hP, hQ, fun row hrow col hcol =>
      ⟨hPentries row hrow col hcol, hQentries row hrow col hcol⟩⟩

/-- The clock of four levels that turns by quarters. -/
def quarterClock : Operator GaussianInt :=
  (⟨4, by decide⟩ : Clock).operator ⟨0, 1⟩

/-- The shift of four levels. -/
def fourShift : Operator GaussianInt :=
  (⟨4, by decide⟩ : Shift).operator

-- Where the shift wraps around, from level 3 to level 0, the two orders differ by a quarter turn as well.
theorem weyl_relations_quarterClock :
    (⟨0, 1⟩ : GaussianInt) ^ 4 = 1 ∧
      (Clock.entries ⟨4, by decide⟩ ⟨0, 1⟩).operator? quarterClock.register = .ok quarterClock ∧
      (∃ V W, quarterClock.mul? fourShift = .ok V ∧ fourShift.mul? quarterClock = .ok W ∧
        V = W.scale ⟨0, 1⟩ ∧ V.get? 0 3 = some 1 ∧ W.get? 0 3 = some ⟨0, -1⟩) ∧
      fourShift.power? 4 = .ok (.identity fourShift.register) ∧
      quarterClock.power? 4 = .ok (.identity quarterClock.register) ∧
      ∃ P Q, fourShift.power? 6 = .ok P ∧ quarterClock.power? 6 = .ok Q ∧ P.get? 1 3 = some 1 ∧
        P.get? 2 3 = some 0 ∧ Q.get? 3 3 = some (-1) := by
  have hroot : (⟨0, 1⟩ : GaussianInt) ^ 4 = 1 := by decide
  obtain ⟨hmade, ⟨V, W, hV, hW, hscale⟩, hX, hZ, hpowers⟩ := weyl_relations (d := 4) (by decide) hroot
  obtain ⟨P, Q, hP, hQ, hentries⟩ := hpowers 6
  refine ⟨hroot, (hmade (by decide)).1, ⟨V, W, hV, hW, hscale, ?_, ?_⟩, hX, hZ, P, Q, hP, hQ, ?_, ?_, ?_⟩
  · cases hV
    decide
  · cases hW
    decide
  · exact (hentries 1 (by decide) 3 (by decide)).1
  · exact (hentries 2 (by decide) 3 (by decide)).1
  · rw [(hentries 3 (by decide) 3 (by decide)).2]
    decide

end QuditCircuits
