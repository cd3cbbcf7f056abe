import Mathlib.NumberTheory.Zsqrtd.GaussianInt
import QuditCircuits.Proofs.Operator.Adjoint
import QuditCircuits.Proofs.Placing
import QuditCircuits.Proofs.Register.Concatenation

/-!
# Placing and the operations on operators

On fixed wires, placing is a homomorphism: it takes identities, products and adjoints to identities,
products and adjoints (`Operator.place?_mul_adjoint`).  On wires without a common one two operators
commute, and their product is their tensor product on the wires of both (`Operator.place?_disjoint`).

The second rule ties placing to the order of the wires in a concatenated register: an operator on the
wires in front, or on those at the back, is its tensor product with an identity
(`Operator.place?_concat`).

All of this is about exact scalars.  In double precision sums are rounded, and two orders of a product
may round differently.
-/

namespace QuditCircuits

variable {K : Type} [CommRing K] {R S : Register} {wires wires' : List Wire}

namespace Operator

/-! ## Identities and products -/

theorem place_identity (h : Placement S R wires) :
    (identity S : Operator K).place wires R = identity R := by
  refine eq_of_toMatrix_eq (R := R) rfl rfl ?_
  rw [toMatrix_place (register_identity S) h, toMatrix_identity, toMatrix_identity, h.lift_one]

theorem place_mul {A B : Operator K} (hA : A.register = S) (hB : B.register = S)
    (h : Placement S R wires) : (A.mul B).place wires R = (A.place wires R).mul (B.place wires R) := by
  have hAB : (A.mul B).register = S := hA
  refine eq_of_toMatrix_eq (R := R) rfl rfl ?_
  rw [toMatrix_mul (register_place A wires R) (register_place B wires R), toMatrix_place hA h,
    toMatrix_place hB h, toMatrix_place hAB h, toMatrix_mul hA hB, h.lift_mul]

theorem place_adjoint [StarRing K] {A : Operator K} (hA : A.register = S) (h : Placement S R wires) :
    A.adjoint.place wires R = (A.place wires R).adjoint := by
  have hadjoint : A.adjoint.register = S := hA
  refine eq_of_toMatrix_eq (R := R) rfl rfl ?_
  rw [toMatrix_adjoint (register_place A wires R), toMatrix_place hA h, toMatrix_place hadjoint h,
    toMatrix_adjoint hA, h.star_lift]

/-- Placing operators over `S` on fixed wires keeps the identity, products and adjoints. -/
theorem place?_mul_adjoint [StarRing K] (h : Placement S R wires)
    (hword : R.dimension < wordBound) :
    (∃ I J : Operator K, identity? S = .ok I ∧ identity? R = .ok J ∧ I.place? wires R = .ok J) ∧
      ∀ A B : Operator K, A.register = S → B.register = S →
        ∃ C A' B' C', A.mul? B = .ok C ∧ A.place? wires R = .ok A' ∧ B.place? wires R = .ok B' ∧
          C.place? wires R = .ok C' ∧ A'.mul? B' = .ok C' ∧
          A.adjoint.place? wires R = .ok A'.adjoint := by
  have hplace : ∀ U : Operator K, U.register = S → U.place? wires R = .ok (U.place wires R) := by
    rintro U rfl
    exact place?_eq_ok h hword
  constructor
  · refine ⟨identity S, identity R, identity?_eq_ok (h.dimension_lt hword), identity?_eq_ok hword, ?_⟩
    rw [hplace _ (register_identity S), place_identity h]
  · intro A B hA hB
    refine ⟨A.mul B, A.place wires R, B.place wires R, (A.mul B).place wires R, mul?_eq_ok hA hB,
      hplace A hA, hplace B hB, hplace _ hA, ?_, ?_⟩
    · rw [place_mul hA hB h]
      exact mul?_eq_ok (R := R) rfl rfl
    · rw [← place_adjoint hA h]
      exact hplace _ hA

end Operator

/-- A wire of three levels and one of two. -/
def pairRegister : Register :=
  tabulated.register

/-- The operator whose real parts show the row and whose imaginary parts grow with the column. -/
def slanted (R : Register) (slope : Int) : Operator GaussianInt :=
  .ofFn R fun row col => ⟨row, slope * col⟩

theorem place?_mul_adjoint_slanted :
    Placement pairRegister mixedRegister [2, 0] ∧ mixedRegister.dimension < wordBound ∧
      ∃ C A B D, (slanted pairRegister 1).mul? (slanted pairRegister 2) = .ok C ∧
        C.get? 1 2 = some ⟨-45, 79⟩ ∧ (slanted pairRegister 1).place? [2, 0] mixedRegister = .ok A ∧
        (slanted pairRegister 2).place? [2, 0] mixedRegister = .ok B ∧
        C.place? [2, 0] mixedRegister = .ok D ∧ A.mul? B = .ok D ∧
        (slanted pairRegister 1).adjoint.place? [2, 0] mixedRegister = .ok A.adjoint := by
  have h : Placement pairRegister mixedRegister [2, 0] := ⟨by decide, rfl⟩
  have hword : mixedRegister.dimension < wordBound := by decide
  obtain ⟨-, hproducts⟩ := Operator.place?_mul_adjoint (K := GaussianInt) h hword
  obtain ⟨C, A, B, D, hC, hA, hB, hD, hAB, hadjoint⟩ :=
    hproducts (slanted pairRegister 1) (slanted pairRegister 2) rfl rfl
  refine ⟨h, hword, C, A, B, D, hC, ?_, hA, hB, hD, hAB, hadjoint⟩
  cases hC
  decide

namespace Operator

/-! ## Tensor products -/

@[simp]
theorem register_tensor (U V : Operator K) :
    (U.tensor V).register = U.register.concat V.register := rfl

/-- An entry is a product: of the entries at the blocks and at the places in them. -/
theorem entry_tensor (U V : Operator K) {i j k l : Nat} (hi : i < U.dim) (hj : j < U.dim)
    (hk : k < V.dim) (hl : l < V.dim) :
    (U.tensor V).entry (i * V.dim + k) (j * V.dim + l) = U.entry i j * V.entry k l := by
  have hdim : U.dim * V.dim = (U.register.concat V.register).dimension :=
    (Register.dimension_concat _ _).symm
  have hrow : i * V.dim + k < (U.register.concat V.register).dimension := hdim ▸ cell_lt hi hk
  have hcol : j * V.dim + l < (U.register.concat V.register).dimension := hdim ▸ cell_lt hj hl
  rw [tensor, entry_ofFn _ _ hrow hcol, Register.block_div i hk, Register.block_div j hl,
    Nat.mul_add_mod_of_lt hk, Nat.mul_add_mod_of_lt hl]

/-- The product of operators on different wires is their tensor product on the wires of both. -/
theorem place_tensor {A B : Operator K} (hA : Placement A.register R wires)
    (hB : Placement B.register R wires') (hdisjoint : List.Disjoint wires wires') :
    (A.tensor B).place (wires ++ wires') R = (A.place wires R).mul (B.place wires' R) := by
  have hboth : Placement (A.tensor B).register R (wires ++ wires') := hA.append hB hdisjoint
  refine eq_of_toMatrix_eq (R := R) rfl rfl (Matrix.ext fun row col => ?_)
  have hentry : (A.tensor B).entry (hboth.restrict row) (hboth.restrict col) =
      A.entry (hA.restrict row) (hA.restrict col) * B.entry (hB.restrict row) (hB.restrict col) := by
    rw [show (hboth.restrict row).val = _ from hA.restrict_append hB hdisjoint row,
      show (hboth.restrict col).val = _ from hA.restrict_append hB hdisjoint col]
    exact entry_tensor A B (hA.restrict row).isLt (hA.restrict col).isLt (hB.restrict row).isLt
      (hB.restrict col).isLt
  rw [toMatrix_mul (register_place A wires R) (register_place B wires' R), toMatrix_place rfl hA,
    toMatrix_place rfl hB, hA.lift_mul_lift_apply hB hdisjoint, toMatrix_apply, entry_place hboth,
    hentry]
  rfl

theorem place_mul_comm {A B : Operator K} (hA : Placement A.register R wires)
    (hB : Placement B.register R wires') (hdisjoint : List.Disjoint wires wires') :
    (A.place wires R).mul (B.place wires' R) = (B.place wires' R).mul (A.place wires R) := by
  have hA' := register_place A wires R
  have hB' := register_place B wires' R
  refine eq_of_toMatrix_eq (R := R) hA' hB' ?_
  rw [toMatrix_mul hA' hB', toMatrix_mul hB' hA', toMatrix_place rfl hA, toMatrix_place rfl hB]
  exact hA.lift_commute hB hdisjoint _ _

/-- Operators on wires without a common one commute, however the wires lie, and their product is their
tensor product on the wires of both. -/
theorem place?_disjoint {A B : Operator K} (hA : Placement A.register R wires)
    (hB : Placement B.register R wires') (hdisjoint : List.Disjoint wires wires')
    (hword : R.dimension < wordBound) :
    ∃ A' B' C, A.place? wires R = .ok A' ∧ B.place? wires' R = .ok B' ∧ A'.mul? B' = .ok C ∧
      B'.mul? A' = .ok C ∧ (A.tensor B).place? (wires ++ wires') R = .ok C := by
  refine ⟨A.place wires R, B.place wires' R, (A.place wires R).mul (B.place wires' R),
    place?_eq_ok hA hword, place?_eq_ok hB hword, mul?_eq_ok (R := R) rfl rfl, ?_, ?_⟩
  · rw [place_mul_comm hA hB hdisjoint]
    exact mul?_eq_ok (R := R) rfl rfl
  · rw [← place_tensor hA hB hdisjoint]
    exact place?_eq_ok (hA.append hB hdisjoint) hword

end Operator

/-- Two wires of two, two of three and one of four levels. -/
def wideRegister : Register :=
  ⟨[2, 3, 4, 2, 3], by decide⟩

/-- A wire of two levels and one of three. -/
def swappedPair : Register :=
  ⟨[2, 3], by decide⟩

-- The wires of the two operators alternate, and the wire of four levels is left alone.
theorem place?_disjoint_slanted :
    Placement pairRegister wideRegister [4, 0] ∧ Placement swappedPair wideRegister [3, 1] ∧
      List.Disjoint [4, 0] [3, 1] ∧ wideRegister.dimension < wordBound ∧
      ∃ A B C, (slanted pairRegister 1).place? [4, 0] wideRegister = .ok A ∧
        (slanted swappedPair 2).place? [3, 1] wideRegister = .ok B ∧ A.mul? B = .ok C ∧
        B.mul? A = .ok C ∧
        ((slanted pairRegister 1).tensor (slanted swappedPair 2)).place? [4, 0, 3, 1] wideRegister =
          .ok C := by
  have hA : Placement (slanted pairRegister 1).register wideRegister [4, 0] := ⟨by decide, rfl⟩
  have hB : Placement (slanted swappedPair 2).register wideRegister [3, 1] := ⟨by decide, rfl⟩
  have hdisjoint : List.Disjoint [4, 0] [3, 1] := by simp
  have hword : wideRegister.dimension < wordBound := by decide
  exact ⟨hA, hB, hdisjoint, hword, Operator.place?_disjoint hA hB hdisjoint hword⟩

namespace Operator

/-! ## Concatenated registers -/

/-- On all wires in order an operator is placed as it is. -/
theorem place_range {U : Operator K} (hU : U.register = R) :
    U.place (List.range R.width) R = U := by
  subst hU
  refine eq_of_entry_eq rfl rfl fun (row col : Fin U.register.dimension) => ?_
  rw [entry_place (Placement.refl U.register), if_pos (Placement.agreeOff_range _ _ _),
    Placement.restrict_refl, Placement.restrict_refl]

theorem mul_identity {U : Operator K} (hU : U.register = R) : U.mul (identity R) = U := by
  refine eq_of_toMatrix_eq hU hU ?_
  rw [toMatrix_mul hU (register_identity R), toMatrix_identity, mul_one]

theorem identity_mul {U : Operator K} (hU : U.register = R) : (identity R).mul U = U := by
  have hidentity := register_identity (K := K) R
  refine eq_of_toMatrix_eq hidentity hU ?_
  rw [toMatrix_mul hidentity hU, toMatrix_identity, one_mul]

/-- The product of an operator on the front wires and one on the back wires is their tensor product. -/
theorem place_front_mul_place_back (A B : Operator K) :
    (A.place (List.range A.register.width) (A.register.concat B.register)).mul
        (B.place (List.range' A.register.width B.register.width) (A.register.concat B.register)) =
      A.tensor B := by
  rw [← place_tensor (Placement.front _ _) (Placement.back _ _) (Placement.disjoint_front_back _ _),
    Placement.front_append_back]
  exact place_range (register_tensor A B)

theorem place_front (A : Operator K) (S : Register) :
    A.place (List.range A.register.width) (A.register.concat S) = A.tensor (identity S) := by
  rw [← place_front_mul_place_back A (identity S), register_identity,
    place_identity (Placement.back _ _), mul_identity (register_place _ _ _)]

theorem place_back (R : Register) (B : Operator K) :
    B.place (List.range' R.width B.register.width) (R.concat B.register) = (identity R).tensor B := by
  rw [← place_front_mul_place_back (identity R) B, register_identity,
    place_identity (Placement.front _ _), identity_mul (register_place _ _ _)]

/-- Placing, tensor products and concatenation number basis states alike: an operator on the front wires
or on the back wires of a concatenated register is its tensor product with an identity, and joined digits
have the index of the first ones as a multiple of the second dimension. -/
theorem place?_concat (R S : Register) :
    ((R.concat S).dimension < wordBound →
      (∀ A : Operator K, A.register = R → ∃ I, identity? S = .ok I ∧
        A.place? (List.range R.width) (R.concat S) = .ok (A.tensor I)) ∧
      (∀ B : Operator K, B.register = S → ∃ I, identity? R = .ok I ∧
        B.place? (List.range' R.width S.width) (R.concat S) = .ok (I.tensor B)) ∧
      R.dim? = .ok R.dimension ∧ S.dim? = .ok S.dimension ∧
      (R.concat S).dim? = .ok (R.dimension * S.dimension)) ∧
    (R.concat S).dimension = R.dimension * S.dimension ∧
    ∀ x y, R.HasDigits x → S.HasDigits y →
      (R.concat S).index (x ++ y) = R.index x * S.dimension + S.index y := by
  refine ⟨fun hword => ⟨?_, ?_, ?_, ?_, ?_⟩, Register.dimension_concat R S, fun x y => Register.index_append⟩
  · rintro A rfl
    refine ⟨identity S, identity?_eq_ok ((Placement.back _ S).dimension_lt hword), ?_⟩
    rw [place?_eq_ok (Placement.front _ S) hword, place_front]
  · rintro B rfl
    refine ⟨identity R, identity?_eq_ok ((Placement.front R _).dimension_lt hword), ?_⟩
    rw [place?_eq_ok (Placement.back R _) hword, place_back]
  · rw [Register.dim?_eq, if_pos ((Placement.front R S).dimension_lt hword)]
  · rw [Register.dim?_eq, if_pos ((Placement.back R S).dimension_lt hword)]
  · rw [Register.dim?_eq, if_pos hword, Register.dimension_concat]

end Operator

/-- A wire of one level and one of four. -/
def narrowPair : Register :=
  ⟨[1, 4], by decide⟩

theorem place?_concat_slanted :
    (pairRegister.concat narrowPair).dimension < wordBound ∧
      (∃ I, Operator.identity? narrowPair = .ok I ∧
        (slanted pairRegister 1).place? [0, 1] (pairRegister.concat narrowPair) =
          .ok ((slanted pairRegister 1).tensor I)) ∧
      (∃ I, Operator.identity? pairRegister = .ok I ∧
        (slanted narrowPair 2).place? [2, 3] (pairRegister.concat narrowPair) =
          .ok (I.tensor (slanted narrowPair 2))) ∧
      pairRegister.HasDigits [2, 1] ∧ narrowPair.HasDigits [0, 3] ∧
      (pairRegister.concat narrowPair).index [2, 1, 0, 3] = 5 * 4 + 3 := by
  have hword : (pairRegister.concat narrowPair).dimension < wordBound := by decide
  have hx : pairRegister.HasDigits [2, 1] := .cons (by decide) (.cons (by decide) .nil)
  have hy : narrowPair.HasDigits [0, 3] := .cons (by decide) (.cons (by decide) .nil)
  obtain ⟨hparts, -, hindex⟩ := Operator.place?_concat (K := GaussianInt) pairRegister narrowPair
  obtain ⟨hfront, hback, -⟩ := hparts hword
  exact ⟨hword, hfront _ rfl, hback _ rfl, hx, hy, hindex _ _ hx hy⟩

end QuditCircuits
