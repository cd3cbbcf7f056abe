import Mathlib.Algebra.BigOperators.Group.Finset.Basic
import QuditCircuits.Proofs.Operator.Matrices
import QuditCircuits.Proofs.Register.Placement

/-!
# Placed operators

A placement `h` of `S` in `R` turns a matrix over the states of `S` into one over the states of `R`
(`Placement.lift`): the entry at two states is that of the states shown on the placed wires if the two
agree on all others, and zero if they do not.  `Operator.toMatrix_place` says that placing an operator
is lifting its matrix, so the loop over columns and rows is looked at once, there.

Lifting keeps the identity, products and multiples, lifting twice is lifting along the composed
placement, and matrices lifted along placements without a common wire commute.
-/

namespace QuditCircuits

open scoped BigOperators

/-! ## Tables written cell by cell -/

namespace Operator

section Cells

variable {K : Type}

theorem writeCells_cons (d : Nat) (table : Array K) (row col : Nat) (x : K)
    (cells : List (Nat × Nat × K)) :
    writeCells d table ((row, col, x) :: cells) =
      writeCells d (table.setIfInBounds (row * d + col) x) cells := rfl

/-- Row and column are known from the position in the table. -/
theorem cell_inj {d row col row' col' : Nat} (hcol : col < d) (hcol' : col' < d)
    (h : row * d + col = row' * d + col') : row = row' ∧ col = col' := by
  have hdiv := congrArg (· / d) h
  have hmod := congrArg (· % d) h
  simp only [Register.block_div _ hcol, Register.block_div _ hcol', Nat.mul_add_mod_of_lt hcol,
    Nat.mul_add_mod_of_lt hcol'] at hdiv hmod
  exact ⟨hdiv, hmod⟩

/-- A cell that is listed, always with the same scalar, holds that scalar in the end; a cell that
held the scalar before need not be listed. -/
theorem getElem?_writeCells {d : Nat} {table : Array K} {cells : List (Nat × Nat × K)} {row col : Nat}
    {x : K} (hcol : col < d) (hcells : ∀ cell ∈ cells, cell.2.1 < d)
    (hin : row * d + col < table.size) (hsame : ∀ y, (row, col, y) ∈ cells → y = x)
    (h : table[row * d + col]? = some x ∨ (row, col, x) ∈ cells) :
    (writeCells d table cells)[row * d + col]? = some x := by
  induction cells generalizing table with
  | nil => simpa [writeCells] using h
  | cons cell cells ih =>
      obtain ⟨row', col', y⟩ := cell
      obtain ⟨hcol', hrest⟩ := List.forall_mem_cons.mp hcells
      rw [writeCells_cons]
      refine ih hrest (by simpa using hin) (fun z hz => hsame z (List.mem_cons_of_mem _ hz)) ?_
      -- If the first cell lies at the position, it holds the scalar from there on, because later
      -- cells at the position hold the same one.
      by_cases hpos : row' * d + col' = row * d + col
      · obtain ⟨rfl, rfl⟩ := cell_inj hcol' hcol hpos
        obtain rfl : y = x := hsame y List.mem_cons_self
        exact .inl (Array.getElem?_setIfInBounds_self_of_lt hin)
      · rw [Array.getElem?_setIfInBounds_ne hpos]
        refine h.imp_right fun hmem => (List.mem_cons.mp hmem).resolve_left ?_
        rintro heq
        cases heq
        exact hpos rfl

variable [Zero K]

/-- A listed cell holds its scalar, if it is listed with one scalar only. -/
theorem entry_ofCells {R : Register} {cells : List (Nat × Nat × K)} {row col : Nat} {x : K}
    (hrow : row < R.dimension) (hcol : col < R.dimension)
    (hcells : ∀ cell ∈ cells, cell.2.1 < R.dimension) (hmem : (row, col, x) ∈ cells)
    (hsame : ∀ y, (row, col, y) ∈ cells → y = x) : (ofCells R cells).entry row col = x := by
  have hget : (ofCells R cells).entries[row * R.dimension + col]? = some x :=
    getElem?_writeCells hcol hcells (by simpa using cell_lt hrow hcol) hsame (.inr hmem)
  rw [entry, cell, if_pos (show col < (ofCells R cells).dim from hcol), Array.getD_eq_getD_getElem?]
  exact congrArg (Option.getD · 0) hget

/-- A cell that is not listed is zero. -/
theorem entry_ofCells_of_not_mem {R : Register} {cells : List (Nat × Nat × K)} {row col : Nat}
    (hrow : row < R.dimension) (hcol : col < R.dimension)
    (hcells : ∀ cell ∈ cells, cell.2.1 < R.dimension) (hmem : ∀ y, (row, col, y) ∉ cells) :
    (ofCells R cells).entry row col = 0 := by
  have hlt := cell_lt hrow hcol
  have hzero : (Array.replicate (R.dimension * R.dimension) (0 : K))[row * R.dimension + col]? =
      some 0 := by simp [hlt]
  have hget : (ofCells R cells).entries[row * R.dimension + col]? = some 0 :=
    getElem?_writeCells hcol hcells (by simpa using hlt) (fun y hy => absurd hy (hmem y))
      (.inl hzero)
  rw [entry, cell, if_pos (show col < (ofCells R cells).dim from hcol), Array.getD_eq_getD_getElem?]
  exact congrArg (Option.getD · 0) hget

end Cells

/-! ## Entries of placed operators -/

section Entries

variable {K : Type} [Zero K] {R : Register} {wires : List Wire}

/-- The cells that a placed operator fills: those whose row and column agree off the placed wires,
each with the entry of the states on them. -/
theorem mem_placedCells_iff {U : Operator K} (h : Placement U.register R wires)
    {row col : Fin R.dimension} {x : K} :
    (row.val, col.val, x) ∈ (List.range R.dimension).flatMap (U.placedColumn wires R) ↔
      R.AgreeOff wires row col ∧ x = U.entry (h.restrict row) (h.restrict col) := by
  have hpatch : ∀ j (hj : j < U.dim),
      R.index (writeWires (R.digits col) wires (U.register.digits j)) = row.val ↔
        R.AgreeOff wires row col ∧ h.restrict row = ⟨j, hj⟩ := by
    intro j hj
    rw [← h.patch_eq_iff, Fin.ext_iff]
    rfl
  simp only [List.mem_flatMap, List.mem_range, placedColumn, List.mem_map, Prod.mk.injEq]
  constructor
  · rintro ⟨c, -, j, hj, hrow, rfl, rfl⟩
    obtain ⟨hoff, hon⟩ := (hpatch j hj).mp hrow
    exact ⟨hoff, by rw [hon]; rfl⟩
  · rintro ⟨hoff, rfl⟩
    have hj : (h.restrict row).val < U.dim := (h.restrict row).isLt
    exact ⟨col, col.isLt, (h.restrict row).val, hj, (hpatch _ hj).mpr ⟨hoff, rfl⟩, rfl, rfl⟩

/-- The entry at two states that agree off the placed wires is that of the states they show on these
wires; all other entries are zero. -/
theorem entry_place {U : Operator K} (h : Placement U.register R wires)
    (row col : Fin R.dimension) : (U.place wires R).entry row col =
      if R.AgreeOff wires row col then U.entry (h.restrict row) (h.restrict col) else 0 := by
  have hcells : ∀ cell ∈ (List.range R.dimension).flatMap (U.placedColumn wires R),
      cell.2.1 < R.dimension := by
    intro cell hcell
    obtain ⟨col, hcol, hmem⟩ := List.mem_flatMap.mp hcell
    obtain ⟨j, -, rfl⟩ := List.mem_map.mp hmem
    exact List.mem_range.mp hcol
  rw [place]
  by_cases hoff : R.AgreeOff wires row col
  · rw [if_pos hoff]
    exact entry_ofCells row.isLt col.isLt hcells ((mem_placedCells_iff h).mpr ⟨hoff, rfl⟩)
      fun y hy => ((mem_placedCells_iff h).mp hy).2
  · rw [if_neg hoff]
    exact entry_ofCells_of_not_mem row.isLt col.isLt hcells
      fun y hy => hoff ((mem_placedCells_iff h).mp hy).1

@[simp]
theorem register_place (U : Operator K) (wires : List Wire) (R : Register) :
    (U.place wires R).register = R := rfl

/-- Exactly the placements in a register whose dimension is a word are accepted. -/
theorem place?_eq_ok_iff {U V : Operator K} : U.place? wires R = .ok V ↔
    Placement U.register R wires ∧ R.dimension < wordBound ∧ V = U.place wires R := by
  have hdim : (∃ d, R.dim? = .ok d) ↔ R.dimension < wordBound := by
    rw [Register.dim?_eq]
    by_cases hword : R.dimension < wordBound <;> simp [hword]
  rw [placement_iff, ← hdim]
  simp only [place?, guard_eq_ok_iff, not_not, check_bind_eq_ok_iff]
  simp only [bind_eq_ok_iff, pure_eq_ok_iff, exists_and_right, and_assoc, eq_comm (a := V)]

theorem place?_eq_ok {U : Operator K} (h : Placement U.register R wires)
    (hword : R.dimension < wordBound) : U.place? wires R = .ok (U.place wires R) :=
  place?_eq_ok_iff.mpr ⟨h, hword, rfl⟩

theorem exists_place?_eq_error_iff {U : Operator K} : (∃ e, U.place? wires R = .error e) ↔
    ¬ (Placement U.register R wires ∧ R.dimension < wordBound) := by
  constructor
  · rintro ⟨e, herror⟩ ⟨h, hword⟩
    rw [place?_eq_ok h hword] at herror
    cases herror
  · intro hrefused
    cases hplace : U.place? wires R with
    | error e => exact ⟨e, rfl⟩
    | ok V =>
        obtain ⟨h, hword, -⟩ := place?_eq_ok_iff.mp hplace
        exact absurd ⟨h, hword⟩ hrefused

end Entries

end Operator

/-! ## Lifting matrices along a placement -/

namespace Placement

variable {K : Type} [CommRing K] {S R : Register} {wires : List Wire}

/-- The matrix over the larger register that acts on the placed wires alone. -/
def lift (h : Placement S R wires) (M : Matrix (Fin S.dimension) (Fin S.dimension) K) :
    Matrix (Fin R.dimension) (Fin R.dimension) K :=
  Matrix.of fun row col =>
    if R.AgreeOff wires row col then M (h.restrict row) (h.restrict col) else 0

theorem lift_apply (h : Placement S R wires) (M : Matrix (Fin S.dimension) (Fin S.dimension) K)
    (row col : Fin R.dimension) :
    h.lift M row col =
      if R.AgreeOff wires row col then M (h.restrict row) (h.restrict col) else 0 := rfl

theorem lift_smul (h : Placement S R wires) (x : K)
    (M : Matrix (Fin S.dimension) (Fin S.dimension) K) : h.lift (x • M) = x • h.lift M := by
  ext row col
  simp [lift_apply]

theorem lift_one (h : Placement S R wires) :
    h.lift (1 : Matrix (Fin S.dimension) (Fin S.dimension) K) = 1 := by
  ext row col
  rw [lift_apply, Matrix.one_apply, Matrix.one_apply]
  by_cases heq : row = col
  · subst heq
    rw [if_pos (Register.AgreeOff.refl _), if_pos rfl, if_pos rfl]
  · rw [if_neg heq]
    split
    · next hoff => exact if_neg fun hon => heq (h.eq_of_restrict_eq hoff hon)
    · rfl

/-- The states that agree with `col` off the placed wires are counted by the states on them. -/
theorem sum_agreeOff (h : Placement S R wires) (col : Fin R.dimension)
    (f : Fin S.dimension → K) :
    ∑ k : Fin R.dimension, (if R.AgreeOff wires k col then f (h.restrict k) else 0) =
      ∑ j, f j := by
  rw [← Finset.sum_filter]
  refine Finset.sum_bij' (fun k _ => h.restrict k) (fun j _ => h.patch col j) ?_ ?_ ?_ ?_ ?_
  · exact fun k _ => Finset.mem_univ _
  · exact fun j _ => Finset.mem_filter.mpr ⟨Finset.mem_univ _, h.agreeOff_patch col j⟩
  · exact fun k hk => h.patch_eq_iff.mpr ⟨(Finset.mem_filter.mp hk).2, rfl⟩
  · exact fun j _ => h.restrict_patch col j
  · exact fun k _ => rfl

theorem lift_mul (h : Placement S R wires)
    (M N : Matrix (Fin S.dimension) (Fin S.dimension) K) : h.lift (M * N) = h.lift M * h.lift N := by
  ext row col
  rw [Matrix.mul_apply, lift_apply]
  by_cases hoff : R.AgreeOff wires row col
  · rw [if_pos hoff, Matrix.mul_apply,
      ← h.sum_agreeOff col fun j => M (h.restrict row) j * N j (h.restrict col)]
    refine Finset.sum_congr rfl fun k _ => ?_
    rw [lift_apply, lift_apply]
    by_cases hk : R.AgreeOff wires k col
    · rw [if_pos hk, if_pos hk, if_pos (hoff.trans hk.symm)]
    · rw [if_neg hk, if_neg hk, mul_zero]
  · rw [if_neg hoff]
    refine (Finset.sum_eq_zero fun k _ => ?_).symm
    rw [lift_apply, lift_apply]
    -- An intermediate state that agrees with both would make `row` and `col` agree.
    by_cases hk : R.AgreeOff wires row k
    · rw [if_neg fun hk' => hoff (hk.trans hk'), mul_zero]
    · rw [if_neg hk, zero_mul]

/-- Lifting as a homomorphism of monoids. -/
def liftHom (K : Type) [CommRing K] (h : Placement S R wires) :
    Matrix (Fin S.dimension) (Fin S.dimension) K →*
      Matrix (Fin R.dimension) (Fin R.dimension) K where
  toFun := h.lift
  map_one' := h.lift_one
  map_mul' := h.lift_mul

@[simp]
theorem liftHom_apply (h : Placement S R wires)
    (M : Matrix (Fin S.dimension) (Fin S.dimension) K) : liftHom K h M = h.lift M := rfl

/-! ## Lifting twice -/

section Trans

variable {Q : Register} {inner outer : List Wire} (hin : Placement S Q inner)
  (hout : Placement Q R outer)
include hin hout

theorem restrict_trans (n : Fin R.dimension) :
    (hin.trans hout).restrict n = hin.restrict (hout.restrict n) := by
  apply Fin.ext
  refine congrArg S.index ?_
  rw [readWires, List.map_map]
  refine List.map_congr_left fun wire hwire => ?_
  exact (hout.digit_restrict n (hout.getElem?_getD (hin.lt_width hwire))).symm

/-- Agreeing off the inner wires means agreeing off the outer ones and, within them, off the inner
ones. -/
theorem agreeOff_trans_iff (m n : Fin R.dimension) :
    R.AgreeOff (inner.map fun wire => outer.getD wire wire) m n ↔
      R.AgreeOff outer m n ∧ Q.AgreeOff inner (hout.restrict m) (hout.restrict n) := by
  constructor
  · intro hoff
    constructor
    · intro wire hlt hwire
      refine hoff wire hlt fun hmem => hwire ?_
      obtain ⟨v, hv, rfl⟩ := List.mem_map.mp hmem
      exact List.mem_of_getElem? (hout.getElem?_getD (hin.lt_width hv))
    · intro i hi hmem
      obtain ⟨wire, hwire⟩ := hout.exists_wire hi
      rw [hout.digit_restrict m hwire, hout.digit_restrict n hwire]
      refine hoff wire (hout.lt_width (List.mem_of_getElem? hwire)) fun hmap => hmem ?_
      obtain ⟨v, hv, rfl⟩ := List.mem_map.mp hmap
      have hi' : i < outer.length := hout.length_eq ▸ hi
      have hget := hout.getElem?_getD (hin.lt_width hv)
      rwa [(List.getElem?_inj hi' hout.nodup).mp (hwire.trans hget.symm)]
  · rintro ⟨hoff, hon⟩ wire hlt hwire
    by_cases hmem : wire ∈ outer
    · obtain ⟨i, hi, rfl⟩ := List.mem_iff_getElem.mp hmem
      have hget : outer[i]? = some outer[i] := List.getElem?_eq_getElem hi
      rw [← hout.digit_restrict m hget, ← hout.digit_restrict n hget]
      refine hon i (hout.length_eq ▸ hi) fun hin' => hwire ?_
      refine List.mem_map.mpr ⟨i, hin', ?_⟩
      rw [List.getD_eq_getElem?_getD, hget, Option.getD_some]
    · exact hoff wire hlt hmem

/-- What depends on agreement off the inner wires is looked at in two steps. -/
theorem ite_agreeOff_trans {α : Type} [Zero α] (m n : Fin R.dimension) (x : α) :
    (if R.AgreeOff (inner.map fun wire => outer.getD wire wire) m n then x else 0) =
      if R.AgreeOff outer m n then
        if Q.AgreeOff inner (hout.restrict m) (hout.restrict n) then x else 0
      else 0 := by
  by_cases hoff : R.AgreeOff outer m n
  · simp only [agreeOff_trans_iff hin hout, hoff, true_and, if_true]
  · simp only [agreeOff_trans_iff hin hout, hoff, false_and, if_false]

theorem lift_trans (M : Matrix (Fin S.dimension) (Fin S.dimension) K) :
    (hin.trans hout).lift M = hout.lift (hin.lift M) := by
  ext row col
  rw [lift_apply, lift_apply, lift_apply, restrict_trans hin hout, restrict_trans hin hout,
    ite_agreeOff_trans hin hout]

end Trans

/-! ## Placements without a common wire -/

section Disjoint

variable {T : Register} {wires' : List Wire} (h : Placement S R wires)
  (h' : Placement T R wires') (hdisjoint : List.Disjoint wires wires')
include hdisjoint

/-- The product of two lifted matrices has one intermediate state for each entry at most, so each
entry is a product of two. -/
theorem lift_mul_lift_apply (M : Matrix (Fin S.dimension) (Fin S.dimension) K)
    (N : Matrix (Fin T.dimension) (Fin T.dimension) K) (row col : Fin R.dimension) :
    (h.lift M * h'.lift N) row col =
      if R.AgreeOff (wires ++ wires') row col then
        M (h.restrict row) (h.restrict col) * N (h'.restrict row) (h'.restrict col)
      else 0 := by
  -- Between `row` and `col` lies `row` with the first wires as in `col`.
  let mid := h.patch row (h.restrict col)
  have hmid : h.restrict mid = h.restrict col := h.restrict_patch row _
  have hmid' : h'.restrict mid = h'.restrict row :=
    h'.restrict_congr fun wire hwire =>
      h.digit_patch_of_not_mem row _ fun hmem => hdisjoint hmem hwire
  have hunique : ∀ k : Fin R.dimension, R.AgreeOff wires row k → R.AgreeOff wires' k col →
      k = mid := by
    intro k hk hk'
    refine (h.patch_eq_iff.mpr ⟨hk.symm, ?_⟩).symm
    exact h.restrict_congr fun wire hwire =>
      hk' wire (h.lt_width hwire) fun hmem => hdisjoint hwire hmem
  have hcol : R.AgreeOff wires' mid col ↔ R.AgreeOff (wires ++ wires') row col := by
    constructor
    · intro hoff wire hlt hwire
      rw [List.mem_append, not_or] at hwire
      rw [← h.digit_patch_of_not_mem row (h.restrict col) hwire.1]
      exact hoff wire hlt hwire.2
    · intro hoff wire hlt hwire
      by_cases hmem : wire ∈ wires
      · obtain ⟨i, hi, rfl⟩ := List.mem_iff_getElem.mp hmem
        have hget : wires[i]? = some wires[i] := List.getElem?_eq_getElem hi
        rw [← h.digit_restrict mid hget, ← h.digit_restrict col hget, hmid]
      · rw [show R.digit mid wire = R.digit row wire from h.digit_patch_of_not_mem row _ hmem]
        exact hoff wire hlt (by simp [hmem, hwire])
  rw [Matrix.mul_apply, Finset.sum_eq_single mid]
  · rw [lift_apply, lift_apply, if_pos (h.agreeOff_patch row _).symm, hmid, hmid']
    by_cases hoff : R.AgreeOff (wires ++ wires') row col
    · rw [if_pos hoff, if_pos (hcol.mpr hoff)]
    · rw [if_neg hoff, if_neg fun hk => hoff (hcol.mp hk), mul_zero]
  · intro k _ hne
    rw [lift_apply, lift_apply]
    by_cases hk : R.AgreeOff wires row k
    · rw [if_neg fun hk' => hne (hunique k hk hk'), mul_zero]
    · rw [if_neg hk, zero_mul]
  · exact fun hmem => absurd (Finset.mem_univ _) hmem

/-- Matrices that act on different wires commute. -/
theorem lift_commute (M : Matrix (Fin S.dimension) (Fin S.dimension) K)
    (N : Matrix (Fin T.dimension) (Fin T.dimension) K) : Commute (h.lift M) (h'.lift N) := by
  have hoff : ∀ m n : Fin R.dimension,
      R.AgreeOff (wires ++ wires') m n ↔ R.AgreeOff (wires' ++ wires) m n := by
    intro m n
    simp only [Register.AgreeOff, List.mem_append, or_comm]
  ext row col
  rw [lift_mul_lift_apply h h' hdisjoint, lift_mul_lift_apply h' h hdisjoint.symm]
  simp only [hoff row col, mul_comm]

end Disjoint

end Placement

/-! ## Placing is lifting -/

namespace Operator

variable {K : Type} [CommRing K] {R : Register} {wires : List Wire}

/-- Placing an operator is lifting its matrix. -/
theorem toMatrix_place {S : Register} {U : Operator K} (hU : U.register = S)
    (h : Placement S R wires) : (U.place wires R).toMatrix R = h.lift (U.toMatrix S) := by
  subst hU
  ext row col
  exact entry_place h row col

end Operator

end QuditCircuits
