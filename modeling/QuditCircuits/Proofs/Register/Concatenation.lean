import QuditCircuits.Proofs.Register.Placement

/-!
# Registers side by side

In a concatenation the wires of the first register come first, so its states count the blocks of the
states of the second: the index of joined digits is `index x * dimension + index y`.

A register lies in a concatenation twice, in front and at the back, and it lies in itself on all of its
wires in order.  Two placements without a common wire place the concatenation, and a state then shows the
block of what it shows on the first wires and, within it, what it shows on the second.
-/

namespace QuditCircuits
namespace Register

/-! ## Joined digits -/

theorem joinDigits_append {levels digits : List Nat} (hlen : digits.length = levels.length)
    (upper : Nat) (levels' digits' : List Nat) :
    joinDigits (levels ++ levels') upper (digits ++ digits') =
      joinDigits levels' (joinDigits levels upper digits) digits' := by
  rw [joinDigits, List.zip_append hlen, List.foldl_append]
  rfl

/-- The carried number counts blocks, each as long as the product of the levels. -/
theorem joinDigits_eq_add {levels digits : List Nat} (hlen : digits.length = levels.length)
    (upper : Nat) :
    joinDigits levels upper digits = upper * levels.prod + joinDigits levels 0 digits := by
  induction levels generalizing digits upper with
  | nil =>
      obtain rfl : digits = [] := List.length_eq_zero_iff.mp hlen
      simp
  | cons d levels ih =>
      cases digits with
      | nil => simp at hlen
      | cons digit digits =>
          have hrest : digits.length = levels.length := by simpa using hlen
          rw [joinDigits_cons, joinDigits_cons, ih hrest, ih hrest (0 * d + digit), List.prod_cons]
          ring

theorem dimension_concat (R S : Register) :
    (R.concat S).dimension = R.dimension * S.dimension :=
  List.prod_append

theorem index_append {R S : Register} {x y : List Nat} (hx : R.HasDigits x) (hy : S.HasDigits y) :
    (R.concat S).index (x ++ y) = R.index x * S.dimension + S.index y := by
  rw [index_eq_joinDigits, levels_concat, joinDigits_append hx.length_eq,
    joinDigits_eq_add hy.length_eq]
  rfl

end Register

namespace Placement

variable {R S T : Register} {wires wires' : List Wire}

/-! ## Two placements -/

/-- Two registers on different wires are their concatenation on the wires of both. -/
theorem append (h : Placement S R wires) (h' : Placement T R wires')
    (hdisjoint : List.Disjoint wires wires') :
    Placement (S.concat T) R (wires ++ wires') where
  nodup := h.nodup.append h'.nodup hdisjoint
  levels := by
    rw [List.map_append, h.levels, h'.levels, Register.levels_concat, List.map_append]

/-- What a state shows on the wires of both: the first part is the block, the second the place in it. -/
theorem restrict_append (h : Placement S R wires) (h' : Placement T R wires')
    (hdisjoint : List.Disjoint wires wires') (n : Fin R.dimension) :
    ((h.append h' hdisjoint).restrict n).val =
      (h.restrict n).val * T.dimension + (h'.restrict n).val := by
  have hread : readWires (R.digits n) (wires ++ wires') =
      readWires (R.digits n) wires ++ readWires (R.digits n) wires' := List.map_append
  exact (congrArg (S.concat T).index hread).trans
    (Register.index_append (h.hasDigits_readWires n) (h'.hasDigits_readWires n))

/-! ## All wires in order -/

theorem refl (R : Register) : Placement R R (List.range R.width) := by
  refine iff_levelsOf?.mpr ⟨List.length_range, List.nodup_range, fun i wire hwire => ?_⟩
  obtain ⟨_, rfl⟩ := List.getElem?_eq_some_iff.mp hwire
  rw [List.getElem_range]

theorem restrict_refl (n : Fin R.dimension) : (refl R).restrict n = n := by
  apply Fin.ext
  refine Register.eq_of_digit_eq ((refl R).restrict n).isLt n.isLt fun wire hwire => ?_
  exact (refl R).digit_restrict n (List.getElem?_range hwire)

theorem agreeOff_range (R : Register) (m n : Nat) : R.AgreeOff (List.range R.width) m n :=
  fun _ hlt hwire => absurd (List.mem_range.mpr hlt) hwire

/-! ## The two parts of a concatenation -/

theorem front (R S : Register) : Placement R (R.concat S) (List.range R.width) := by
  refine iff_levelsOf?.mpr ⟨List.length_range, List.nodup_range, fun i wire hwire => ?_⟩
  obtain ⟨hlt, rfl⟩ := List.getElem?_eq_some_iff.mp hwire
  have hi : i < R.levels.length := by simpa [Register.width] using hlt
  rw [List.getElem_range, Register.levelsOf?, Register.levels_concat, List.getElem?_append_left hi]
  rfl

theorem back (R S : Register) : Placement S (R.concat S) (List.range' R.width S.width) := by
  refine iff_levelsOf?.mpr ⟨List.length_range', List.nodup_range', fun i wire hwire => ?_⟩
  obtain ⟨_, rfl⟩ := List.getElem?_eq_some_iff.mp hwire
  rw [List.getElem_range', Nat.one_mul, Register.levelsOf?, Register.levels_concat, Register.width,
    List.getElem?_append_right (Nat.le_add_right _ _), Nat.add_sub_cancel_left]
  rfl

theorem disjoint_front_back (R S : Register) :
    List.Disjoint (List.range R.width) (List.range' R.width S.width) := by
  intro wire hfront hback
  rw [List.mem_range] at hfront
  rw [List.mem_range'_1] at hback
  omega

theorem front_append_back (R S : Register) :
    List.range R.width ++ List.range' R.width S.width = List.range (R.concat S).width := by
  have happend := List.range'_append_1 (s := 0) (m := R.width) (n := S.width)
  rwa [Nat.zero_add, ← List.range_eq_range', ← List.range_eq_range', ← Register.width_concat]
    at happend

end Placement
end QuditCircuits
