import Mathlib.LinearAlgebra.UnitaryGroup
import Mathlib.Tactic.IntervalCases
import QuditCircuits.Operator.Comparison
import QuditCircuits.Proofs.Operator.Matrices
import QuditCircuits.Proofs.Scalar.ExactReals

/-!
# Comparison up to a global phase

The comparison reads the phase off one entry of the second operator, the longest one.  If that entry is
as good as zero it compares with zero instead, which would be wrong for a unitary operator.  It does not
happen: a row of a unitary matrix has length one, so one of its `d` entries has length at least `1 / √d`,
and this is above the bound for every dimension that fits a word.

In exact arithmetic the comparison is therefore right for unitary operators.  When it succeeds, the
operators agree up to a factor within the tolerance; and it succeeds when they agree up to a phase.
-/

namespace QuditCircuits

/-! ## Unitary matrices have long entries -/

section Unitary

variable {n : Type} [Fintype n] [DecidableEq n] {M : Matrix n n ℂ}
  (hM : M ∈ Matrix.unitaryGroup n ℂ)
include hM

/-- A row of a unitary matrix has length one. -/
theorem sum_norm_sq_row (row : n) : ∑ col, ‖M row col‖ ^ 2 = 1 := by
  have hentry : (M * star M) row row = 1 := by
    rw [Matrix.mem_unitaryGroup_iff.mp hM, Matrix.one_apply_eq]
  rw [Matrix.mul_apply] at hentry
  have hterm : ∀ col, M row col * star M col row = ((‖M row col‖ ^ 2 : ℝ) : ℂ) := by
    intro col
    rw [Matrix.star_apply, Complex.star_def, Complex.mul_conj, Complex.normSq_eq_norm_sq]
  simp only [hterm, ← Complex.ofReal_sum] at hentry
  exact Complex.ofReal_eq_one.mp hentry

/-- A bound on the entries of a row cannot be small. -/
theorem one_le_card_mul_sq (row : n) {bound : ℝ} (hbound : ∀ col, ‖M row col‖ ≤ bound) :
    1 ≤ Fintype.card n * bound ^ 2 := by
  calc
    (1 : ℝ) = ∑ col, ‖M row col‖ ^ 2 := (sum_norm_sq_row hM row).symm
    _ ≤ ∑ _col : n, bound ^ 2 :=
        Finset.sum_le_sum fun col _ => pow_le_pow_left₀ (norm_nonneg _) (hbound col) 2
    _ = Fintype.card n * bound ^ 2 := by
        rw [Finset.sum_const, Finset.card_univ, nsmul_eq_mul]

end Unitary

/-! ## The pivot -/

namespace Operator

/-- The longer of two candidates is one of them, and neither is longer. -/
theorem longer_spec (best next : Amplitude ℝ × Nat) :
    (longer best next = best ∨ longer best next = next) ∧
      best.1.norm ≤ (longer best next).1.norm ∧ next.1.norm ≤ (longer best next).1.norm := by
  rw [longer]
  split
  · next hrank => exact ⟨.inl rfl, le_rfl, (of_decide_eq_true hrank).le⟩
  · next hrank => exact ⟨.inr rfl, not_lt.mp fun hlt => hrank (decide_eq_true hlt), le_rfl⟩

/-- The last of the longest is one of the candidates, and no candidate is longer. -/
theorem foldl_longer (first : Amplitude ℝ × Nat) (rest : List (Amplitude ℝ × Nat)) :
    rest.foldl longer first ∈ first :: rest ∧
      ∀ entry ∈ first :: rest, entry.1.norm ≤ (rest.foldl longer first).1.norm := by
  -- After each candidate the fold goes on with the longer one, so the induction is over all of them.
  induction rest generalizing first with
  | nil => simp
  | cons next rest ih =>
      obtain ⟨hchoice, hfirst, hnext⟩ := longer_spec first next
      obtain ⟨hmem, hle⟩ := ih (longer first next)
      obtain ⟨hbest, hrest⟩ := List.forall_mem_cons.mp hle
      rw [List.foldl_cons]
      constructor
      · rcases List.mem_cons.mp hmem with heq | hmem
        · rw [heq]
          rcases hchoice with h | h <;> simp [h]
        · exact List.mem_cons_of_mem _ (List.mem_cons_of_mem _ hmem)
      · refine List.forall_mem_cons.mpr ⟨hfirst.trans hbest, ?_⟩
        exact List.forall_mem_cons.mpr ⟨hnext.trans hbest, hrest⟩

/-- The pivot is an entry of greatest length, with its position. -/
theorem exists_pivot? (U : Operator (Amplitude ℝ)) : ∃ z cell, U.pivot? = some (z, cell) ∧
    U.entries[cell]? = some z ∧ ∀ w ∈ U.entries, w.norm ≤ z.norm := by
  have hpos : 0 < U.entries.size := by
    rw [U.size_entries]
    exact Nat.mul_pos U.register.dimension_pos U.register.dimension_pos
  rw [pivot?]
  cases hentries : U.entries.toList.zipIdx with
  | nil =>
      have hlen := congrArg List.length hentries
      rw [List.length_zipIdx, Array.length_toList] at hlen
      exact absurd hlen (Nat.ne_of_gt hpos)
  | cons first rest =>
      obtain ⟨hmem, hle⟩ := foldl_longer first rest
      rw [← hentries] at hmem hle
      refine ⟨_, _, rfl, ?_, fun w hw => ?_⟩
      · simpa using List.mem_zipIdx_iff_getElem?.mp hmem
      · obtain ⟨i, hi⟩ := List.mem_iff_getElem?.mp (Array.mem_toList_iff.mpr hw)
        exact hle (w, i) (List.mem_zipIdx_iff_getElem?.mpr hi)

/-! ## Entry by entry -/

/-- The cells of a square table are its rows and columns. -/
theorem forall_cell_iff {d : Nat} (hd : 0 < d) {P : Nat → Nat → Prop} :
    (∀ cell < d * d, P (cell / d) (cell % d)) ↔ ∀ row col : Fin d, P row col := by
  constructor
  · intro h row col
    have hcell := h _ (cell_lt row.isLt col.isLt)
    rwa [Register.block_div row.val col.isLt, Nat.mul_add_mod_of_lt col.isLt] at hcell
  · intro h cell hcell
    exact h ⟨cell / d, (Nat.div_lt_iff_lt_mul hd).mpr hcell⟩ ⟨cell % d, Nat.mod_lt cell hd⟩

section Entries

variable {K : Type} [Zero K] {R : Register} {U V : Operator K} (hU : U.register = R)
include hU

theorem entry_mem_entries (row col : Fin R.dimension) : U.entry row col ∈ U.entries := by
  subst hU
  refine (forall_cell_iff U.register.dimension_pos
    (P := fun row col => U.entry row col ∈ U.entries)).mp (fun cell hcell => ?_) row col
  have hlt : cell < U.entries.size := U.size_entries ▸ hcell
  rw [U.entry_div_mod (d := U.register.dimension) rfl hlt]
  exact Array.getElem_mem hlt

/-- Two arrays of entries are compared row by row and column by column. -/
theorem allPairs_entries_iff (hV : V.register = R) {test : K → K → Bool} :
    allPairs test U.entries.toList V.entries.toList = true ↔
      ∀ row col : Fin R.dimension, test (U.entry row col) (V.entry row col) = true := by
  subst hU
  have hdim : V.dim = U.dim := by rw [dim, dim, hV]
  have hsize : V.entries.size = U.entries.size := by rw [V.size_entries, U.size_entries, hV]
  have hcells := forall_cell_iff U.register.dimension_pos
    (P := fun row col => test (U.entry row col) (V.entry row col) = true)
  rw [← hcells, ← U.size_entries, allPairs, List.all_eq_true, List.forall_mem_iff_getElem]
  simp only [List.length_zip, Array.length_toList, hsize, Nat.min_self, List.getElem_zip,
    Array.getElem_toList]
  refine forall₂_congr fun cell hcell => ?_
  rw [← U.entry_div_mod rfl hcell, ← V.entry_div_mod hdim (hsize ▸ hcell)]
  rfl

end Entries

/-! ## The comparison -/

section Comparison

variable {R : Register} {A B : Operator (Amplitude ℝ)} (hB : B.register = R)
include hB

/-- The pivot of a unitary operator is not as good as zero. -/
theorem tolerance_le_norm_pivot (hunitary : B.complexMatrix R ∈ Matrix.unitaryGroup _ ℂ)
    (hdim : R.dimension < wordBound) {z : Amplitude ℝ} (hlongest : ∀ w ∈ B.entries, w.norm ≤ z.norm) :
    tolerance 10 ≤ z.norm := by
  by_contra hshort
  have hsquare : z.norm ^ 2 ≤ (1 / 10 ^ 10) ^ 2 := by
    rw [← z.norm_toComplex] at hshort ⊢
    rw [tolerance_eq, not_le] at hshort
    exact pow_le_pow_left₀ (norm_nonneg _) hshort.le 2
  have hrow : (1 : ℝ) ≤ Fintype.card (Fin R.dimension) * z.norm ^ 2 := by
    refine one_le_card_mul_sq hunitary ⟨0, R.dimension_pos⟩ fun col => ?_
    rw [complexMatrix_apply, Amplitude.norm_toComplex]
    exact hlongest _ (entry_mem_entries hB _ col)
  have hword : (R.dimension : ℝ) ≤ 2 ^ 64 := by
    exact_mod_cast hdim.le
  rw [Fintype.card_fin] at hrow
  have hbound : (R.dimension : ℝ) * z.norm ^ 2 ≤ 2 ^ 64 * (1 / 10 ^ 10) ^ 2 :=
    mul_le_mul hword hsquare (sq_nonneg _) (by norm_num)
  norm_num at hbound
  linarith

/-- With a pivot that is not as good as zero, the comparison succeeds exactly if the quotient of the
entries at the pivot has length one within the tolerance, and the first operator is the multiple of the
second by it within the tolerance. -/
theorem approxEqUpToPhase_iff (hA : A.register = R) {tol : ℝ} {z : Amplitude ℝ} {cell : Nat}
    (hpivot : B.pivot? = some (z, cell)) (hlong : tolerance 10 ≤ z.norm) {p : ℂ}
    (hp : p = (A.entries.getD cell 0 / z).toComplex) :
    approxEqUpToPhase tol A B = true ↔ |‖p‖ - 1| ≤ tol ∧
      ∀ row col, ‖A.complexMatrix R row col - p * B.complexMatrix R row col‖ < tol := by
  have hregister : (A.register == B.register) = true := beq_iff_eq.mpr (hA.trans hB.symm)
  have hguard : RealArithmetic.lt z.norm (tolerance 10) = false :=
    decide_eq_false hlong.not_gt
  have hlength : RealArithmetic.lt tol
      (RealArithmetic.abs ((A.entries.getD cell 0 / z).norm - 1)) = decide (tol < |‖p‖ - 1|) := by
    rw [hp, Amplitude.norm_toComplex]
    rfl
  have hclose : ∀ x y : Amplitude ℝ, close tol x (y * (A.entries.getD cell 0 / z)) = true ↔
      ‖x.toComplex - p * y.toComplex‖ < tol := by
    intro x y
    rw [hp, mul_comm, ← Amplitude.toComplex_mul, ← Amplitude.toComplex_sub, Amplitude.norm_toComplex]
    exact RealArithmetic.lt_eq_true_iff
  rw [approxEqUpToPhase, hpivot, hregister, Bool.true_and]
  simp only [approxEqAlong, hguard, Bool.false_eq_true, if_false, hlength, decide_eq_true_eq]
  split
  · next hfar => simp [hfar]
  · next hnear =>
      rw [allPairs_entries_iff hA hB]
      simp only [hclose]
      exact ⟨fun h => ⟨not_lt.mp hnear, h⟩, fun h => h.2⟩

/-- Operators that agree up to a phase have this phase at the pivot. -/
theorem toComplex_pivot_quotient (hA : A.register = R) {z : Amplitude ℝ} {cell : Nat}
    (hz : B.entries[cell]? = some z) (hne : z.toComplex ≠ 0) {p : ℂ}
    (heq : A.complexMatrix R = p • B.complexMatrix R) :
    (A.entries.getD cell 0 / z).toComplex = p := by
  subst hB
  obtain ⟨hcell, rfl⟩ := Array.getElem?_eq_some_iff.mp hz
  have hdim : A.dim = B.register.dimension := congrArg Register.dimension hA
  have hcellA : cell < A.entries.size := by
    rwa [A.size_entries, hA, ← B.size_entries]
  have hall := (forall_cell_iff B.register.dimension_pos (P := fun row col =>
    (A.entry row col).toComplex = p * (B.entry row col).toComplex)).mpr
      fun row col => congrFun (congrFun heq row) col
  have hentry := hall cell (B.size_entries ▸ hcell)
  rw [A.entry_div_mod hdim hcellA, B.entry_div_mod (d := B.register.dimension) rfl hcell] at hentry
  rw [Array.getD_eq_getD_getElem?, Array.getElem?_eq_getElem hcellA, Option.getD_some,
    Amplitude.toComplex_div, hentry, mul_div_cancel_right₀ p hne]

/-- In exact arithmetic the comparison up to a global phase is right for unitary operators.  It succeeds
only for operators over the same register that agree up to a factor: the factor has length one and the
entries agree, both within the tolerance.  It succeeds for all operators that agree up to a phase. -/
theorem approxEqUpToPhase_exact (hunitary : B.complexMatrix R ∈ Matrix.unitaryGroup _ ℂ)
    (hdim : R.dimension < wordBound) {tol : ℝ} (htol : 0 < tol) (A : Operator (Amplitude ℝ)) :
    (A.register = R → (approxEqUpToPhase tol A B = true → ∃ p : ℂ, |‖p‖ - 1| ≤ tol ∧
        ∀ row col, ‖A.complexMatrix R row col - p * B.complexMatrix R row col‖ < tol) ∧
      ∀ p : ℂ, ‖p‖ = 1 → A.complexMatrix R = p • B.complexMatrix R →
        approxEqUpToPhase tol A B = true) ∧
    (A.register ≠ R → approxEqUpToPhase tol A B = false) := by
  obtain ⟨z, cell, hpivot, hz, hlongest⟩ := exists_pivot? B
  have hlong := tolerance_le_norm_pivot hB hunitary hdim hlongest
  refine ⟨fun hA => ⟨fun h => ?_, fun p hp heq => ?_⟩, fun hA => ?_⟩
  · exact ⟨_, (approxEqUpToPhase_iff hB hA hpivot hlong rfl).mp h⟩
  · have hne : z.toComplex ≠ 0 := by
      rw [← norm_pos_iff, Amplitude.norm_toComplex]
      refine lt_of_lt_of_le ?_ hlong
      rw [tolerance_eq]
      positivity
    have hquotient := toComplex_pivot_quotient hB hA hz hne heq
    refine (approxEqUpToPhase_iff hB hA hpivot hlong hquotient.symm).mpr ⟨?_, fun row col => ?_⟩
    · rw [hp, sub_self, abs_zero]
      exact htol.le
    · rw [heq, Matrix.smul_apply, smul_eq_mul, sub_self, norm_zero]
      exact htol
  · rw [approxEqUpToPhase, beq_eq_false_iff_ne.mpr (hB ▸ hA), Bool.false_and]

end Comparison

/-- A rotation of one qubit with rational entries. -/
noncomputable def triangleTurn : Operator (Amplitude ℝ) :=
  .ofFn (.qubits 1) fun row col =>
    .ofReal (if row = col then 3 / 5 else if row < col then 4 / 5 else -(4 / 5))

/-- The rotation with a phase. -/
noncomputable def phasedTurn : Operator (Amplitude ℝ) :=
  .ofFn (.qubits 1) fun row col => .imaginaryUnit * triangleTurn.entry row col

theorem toComplex_entry_triangleTurn {row col : Nat} (hrow : row < 2) (hcol : col < 2) :
    (triangleTurn.entry row col).toComplex =
      if row = col then 3 / 5 else if row < col then 4 / 5 else -(4 / 5) := by
  rw [triangleTurn, entry_ofFn _ _ hrow hcol, Amplitude.toComplex_ofReal]
  split_ifs <;> norm_num

theorem triangleTurn_mem_unitaryGroup :
    triangleTurn.complexMatrix (.qubits 1) ∈ Matrix.unitaryGroup _ ℂ := by
  rw [Matrix.mem_unitaryGroup_iff]
  ext row col
  have hrow : row.val < 2 := row.isLt
  have hcol : col.val < 2 := col.isLt
  rw [Matrix.mul_apply, Matrix.one_apply]
  change ∑ k : Fin 2, (triangleTurn.entry row k).toComplex *
    star (triangleTurn.entry col k).toComplex = _
  rw [Fin.sum_univ_two]
  simp only [toComplex_entry_triangleTurn hrow (Fin.isLt _),
    toComplex_entry_triangleTurn hcol (Fin.isLt _), Fin.ext_iff]
  interval_cases row.val <;> interval_cases col.val <;> norm_num

theorem approxEqUpToPhase_exact_triangleTurn :
    triangleTurn.complexMatrix (.qubits 1) ∈ Matrix.unitaryGroup _ ℂ ∧
      (Register.qubits 1).dimension < wordBound ∧ 0 < (tolerance 9 : ℝ) ∧
      approxEqUpToPhase (tolerance 9) phasedTurn triangleTurn = true ∧
      approxEqUpToPhase (tolerance 9) (identity (.qubits 1)) triangleTurn = false ∧
      approxEqUpToPhase (tolerance 9) (identity (.qubits 2)) triangleTurn = false := by
  have htol : 0 < (tolerance 9 : ℝ) := by
    rw [tolerance_eq]
    positivity
  have hdim : (Register.qubits 1).dimension < wordBound := by decide
  have hexact := approxEqUpToPhase_exact (R := .qubits 1) rfl triangleTurn_mem_unitaryGroup
    hdim htol
  refine ⟨triangleTurn_mem_unitaryGroup, hdim, htol, ?_, ?_, ?_⟩
  · refine ((hexact phasedTurn).1 rfl).2 Complex.I Complex.norm_I ?_
    ext row col
    rw [complexMatrix_apply, phasedTurn, entry_ofFn _ _ row.isLt col.isLt, Amplitude.toComplex_mul,
      Amplitude.toComplex_imaginaryUnit]
    rfl
  · rw [← Bool.not_eq_true]
    intro hsame
    obtain ⟨p, hp, hclose⟩ := ((hexact (identity (.qubits 1))).1 rfl).1 hsame
    have hzero : ((identity (.qubits 1) : Operator (Amplitude ℝ)).entry 0 1).toComplex = 0 := by
      rw [identity, entry_ofFn _ _ (by decide) (by decide), if_neg (by decide),
        Amplitude.toComplex_zero]
    have hoff := hclose ⟨0, by decide⟩ ⟨1, by decide⟩
    rw [complexMatrix_apply, complexMatrix_apply, hzero,
      toComplex_entry_triangleTurn (by decide) (by decide), zero_sub, norm_neg, norm_mul] at hoff
    norm_num [tolerance_eq] at hoff hp
    have hshort := (abs_le.mp hp).1
    linarith
  · exact (hexact _).2 (by decide)

end Operator
end QuditCircuits
