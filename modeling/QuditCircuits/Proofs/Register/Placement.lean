import Mathlib.Data.Fintype.Card
import QuditCircuits.Operator.Placement
import QuditCircuits.Proofs.Checks
import QuditCircuits.Proofs.Register.Digits

/-!
# Registers placed on wires of a larger register

`Placement S R wires` says that the wires of `S` lie on distinct wires of `R` with the same levels:
wire `i` of `S` on wire `wires[i]` of `R`.  A placement relates the basis states of the two registers:

* `restrict` reads the digits of a state of `R` on the placed wires, which is a state of `S`;
* `patch` writes a state of `S` over a state of `R`;
* two states of `R` may agree on all other wires (`AgreeOff`).

`patch_eq_iff` characterises patching by the other two, so later proofs never look at lists of digits.
The last section says that the checks on wires accept placements and nothing else.
-/

namespace QuditCircuits

/-! ## Reading and writing digits on wires -/

theorem writeWires_cons (digits : List Nat) (wire : Wire) (wires : List Wire) (value : Nat)
    (values : List Nat) :
    writeWires digits (wire :: wires) (value :: values) =
      writeWires (digits.set wire value) wires values := rfl

@[simp]
theorem length_writeWires (digits : List Nat) (wires : List Wire) (values : List Nat) :
    (writeWires digits wires values).length = digits.length := by
  induction wires generalizing digits values with
  | nil => rfl
  | cons wire wires ih =>
      cases values with
      | nil => rfl
      | cons value values => rw [writeWires_cons, ih, List.length_set]

/-- Digits on other wires stay. -/
theorem getElem?_writeWires_of_not_mem {digits : List Nat} {wires : List Wire} {values : List Nat}
    {wire : Wire} (h : wire ∉ wires) : (writeWires digits wires values)[wire]? = digits[wire]? := by
  induction wires generalizing digits values with
  | nil => rfl
  | cons head wires ih =>
      cases values with
      | nil => rfl
      | cons value values =>
          obtain ⟨hne, hrest⟩ := List.ne_and_not_mem_of_not_mem_cons h
          rw [writeWires_cons, ih hrest, List.getElem?_set_ne (Ne.symm hne)]

/-- Every listed wire gets its own value. -/
theorem getElem?_writeWires {digits : List Nat} {wires : List Wire} {values : List Nat}
    (hnodup : wires.Nodup) {i : Nat} {wire : Wire} {value : Nat} (hwire : wires[i]? = some wire)
    (hvalue : values[i]? = some value) (hlt : wire < digits.length) :
    (writeWires digits wires values)[wire]? = some value := by
  induction wires generalizing digits values i with
  | nil => simp at hwire
  | cons head wires ih =>
      obtain ⟨hhead, hrest⟩ := List.nodup_cons.mp hnodup
      cases values with
      | nil => simp at hvalue
      | cons first values =>
          rw [writeWires_cons]
          cases i with
          | zero =>
              obtain rfl : head = wire := by simpa using hwire
              obtain rfl : first = value := by simpa using hvalue
              -- The first wire is not written again.
              rw [getElem?_writeWires_of_not_mem hhead, List.getElem?_set_self hlt]
          | succ i =>
              exact ih hrest (by simpa using hwire) (by simpa using hvalue) (by simpa using hlt)

/-! ## Agreement off some wires -/

namespace Register

/-- Two basis states have the same digits on all wires that are not listed. -/
def AgreeOff (R : Register) (wires : List Wire) (m n : Nat) : Prop :=
  ∀ wire < R.width, wire ∉ wires → R.digit m wire = R.digit n wire

instance (R : Register) (wires : List Wire) (m n : Nat) : Decidable (R.AgreeOff wires m n) :=
  inferInstanceAs (Decidable (∀ wire < R.width, wire ∉ wires → R.digit m wire = R.digit n wire))

namespace AgreeOff

variable {R : Register} {wires : List Wire} {l m n : Nat}

theorem refl (n : Nat) : R.AgreeOff wires n n :=
  fun _ _ _ => rfl

theorem symm (h : R.AgreeOff wires m n) : R.AgreeOff wires n m :=
  fun wire hlt hwire => (h wire hlt hwire).symm

theorem trans (h : R.AgreeOff wires l m) (h' : R.AgreeOff wires m n) : R.AgreeOff wires l n :=
  fun wire hlt hwire => (h wire hlt hwire).trans (h' wire hlt hwire)

end AgreeOff
end Register

/-! ## Placements -/

/-- The wires of `S` lie on distinct wires of `R` with the same levels. -/
structure Placement (S R : Register) (wires : List Wire) : Prop where
  /-- No wire is used twice. -/
  nodup : wires.Nodup
  /-- Every wire of `S` lies on a wire of `R` with its own levels. -/
  levels : wires.map R.levelsOf? = S.levels.map some

namespace Placement

variable {S R : Register} {wires : List Wire}

section Shape

variable (h : Placement S R wires)
include h

theorem length_eq : wires.length = S.width := by
  simpa [Register.width] using congrArg List.length h.levels

theorem levelsOf?_eq {i : Nat} {wire : Wire} (hwire : wires[i]? = some wire) :
    R.levelsOf? wire = S.levelsOf? i := by
  have hmap : (wires.map R.levelsOf?)[i]? = (S.levels.map some)[i]? := by rw [h.levels]
  rw [List.getElem?_map, List.getElem?_map, hwire, Option.map_some] at hmap
  cases hlevel : S.levels[i]? with
  | none => simp [hlevel] at hmap
  | some d => simpa [Register.levelsOf?, hlevel] using hmap

theorem exists_wire {i : Nat} (hi : i < S.width) : ∃ wire, wires[i]? = some wire := by
  have hlt : i < wires.length := h.length_eq ▸ hi
  exact ⟨wires[i], List.getElem?_eq_getElem hlt⟩

theorem lt_width {wire : Wire} (hwire : wire ∈ wires) : wire < R.width := by
  obtain ⟨i, hi, rfl⟩ := List.mem_iff_getElem.mp hwire
  have hget : wires[i]? = some wires[i] := List.getElem?_eq_getElem hi
  obtain ⟨d, hd⟩ := S.levelsOf?_eq_some_of_lt (h.length_eq ▸ hi)
  exact Register.lt_width_of_levelsOf? ((h.levelsOf?_eq hget).trans hd)

theorem hasDigits_readWires (n : Nat) : S.HasDigits (readWires (R.digits n) wires) := by
  refine Register.hasDigits_iff.mpr ⟨by simp [readWires, h.length_eq], fun i d hd => ?_⟩
  obtain ⟨wire, hwire⟩ := h.exists_wire (Register.lt_width_of_levelsOf? hd)
  have hlt := R.digit_lt ((h.levelsOf?_eq hwire).trans hd) n
  simpa [readWires, List.getD_eq_getElem?_getD, hwire, Register.digit] using hlt

theorem hasDigits_writeWires (n j : Nat) :
    R.HasDigits (writeWires (R.digits n) wires (S.digits j)) := by
  refine Register.hasDigits_iff.mpr ⟨by simp, fun wire d hd => ?_⟩
  rw [List.getD_eq_getElem?_getD]
  by_cases hmem : wire ∈ wires
  · obtain ⟨i, hi, rfl⟩ := List.mem_iff_getElem.mp hmem
    have hget : wires[i]? = some wires[i] := List.getElem?_eq_getElem hi
    have hi' : i < (S.digits j).length := by simpa [h.length_eq] using hi
    have hvalue : (S.digits j)[i]? = some (S.digits j)[i] := List.getElem?_eq_getElem hi'
    rw [getElem?_writeWires h.nodup hget hvalue (by simpa using h.lt_width hmem)]
    have hlt := S.digit_lt ((h.levelsOf?_eq hget).symm.trans hd) j
    simpa [Register.digit, List.getD_eq_getElem?_getD, hvalue] using hlt
  · rw [getElem?_writeWires_of_not_mem hmem, ← List.getD_eq_getElem?_getD]
    exact R.digit_lt hd n

end Shape

/-- The state that a state of the larger register shows on the placed wires. -/
def restrict (h : Placement S R wires) (n : Fin R.dimension) : Fin S.dimension :=
  ⟨S.index (readWires (R.digits n) wires), Register.index_lt (h.hasDigits_readWires n)⟩

/-- The state of the larger register with another state written on the placed wires. -/
def patch (h : Placement S R wires) (n : Fin R.dimension) (j : Fin S.dimension) :
    Fin R.dimension :=
  ⟨R.index (writeWires (R.digits n) wires (S.digits j)),
    Register.index_lt (h.hasDigits_writeWires n j)⟩

section States

variable (h : Placement S R wires)

theorem digit_restrict (n : Fin R.dimension) {i : Nat} {wire : Wire}
    (hwire : wires[i]? = some wire) : S.digit (h.restrict n) i = R.digit n wire := by
  rw [restrict, Register.digit_index (h.hasDigits_readWires n)]
  simp [readWires, List.getD_eq_getElem?_getD, hwire, Register.digit]

theorem digit_patch (n : Fin R.dimension) (j : Fin S.dimension) {i : Nat} {wire : Wire}
    (hwire : wires[i]? = some wire) : R.digit (h.patch n j) wire = S.digit j i := by
  have hmem : wire ∈ wires := List.mem_of_getElem? hwire
  have hi : i < (S.digits j).length := by
    rw [Register.length_digits, ← h.length_eq]
    exact (List.getElem?_eq_some_iff.mp hwire).1
  have hvalue : (S.digits j)[i]? = some (S.digits j)[i] := List.getElem?_eq_getElem hi
  have hlt : wire < (R.digits n).length := by simpa using h.lt_width hmem
  rw [patch, Register.digit_index (h.hasDigits_writeWires n j), List.getD_eq_getElem?_getD,
    getElem?_writeWires h.nodup hwire hvalue hlt, Register.digit, List.getD_eq_getElem?_getD, hvalue]

theorem digit_patch_of_not_mem (n : Fin R.dimension) (j : Fin S.dimension) {wire : Wire}
    (hwire : wire ∉ wires) : R.digit (h.patch n j) wire = R.digit n wire := by
  rw [patch, Register.digit_index (h.hasDigits_writeWires n j), List.getD_eq_getElem?_getD,
    getElem?_writeWires_of_not_mem hwire, Register.digit, List.getD_eq_getElem?_getD]

theorem agreeOff_patch (n : Fin R.dimension) (j : Fin S.dimension) :
    R.AgreeOff wires (h.patch n j) n :=
  fun _ _ hwire => h.digit_patch_of_not_mem n j hwire

/-- Two states that look alike on the placed wires restrict to the same state. -/
theorem restrict_congr {m n : Fin R.dimension}
    (hdigit : ∀ wire ∈ wires, R.digit m wire = R.digit n wire) : h.restrict m = h.restrict n := by
  apply Fin.ext
  exact congrArg S.index (List.map_congr_left hdigit)

theorem restrict_patch (n : Fin R.dimension) (j : Fin S.dimension) :
    h.restrict (h.patch n j) = j := by
  apply Fin.ext
  refine Register.eq_of_digit_eq (h.restrict _).isLt j.isLt fun i hi => ?_
  obtain ⟨wire, hwire⟩ := h.exists_wire hi
  rw [h.digit_restrict _ hwire, h.digit_patch n j hwire]

/-- A state is known by what it shows on the placed wires and off them. -/
theorem eq_of_restrict_eq {m n : Fin R.dimension} (hoff : R.AgreeOff wires m n)
    (hon : h.restrict m = h.restrict n) : m = n := by
  apply Fin.ext
  refine Register.eq_of_digit_eq m.isLt n.isLt fun wire hlt => ?_
  by_cases hmem : wire ∈ wires
  · obtain ⟨i, hi, rfl⟩ := List.mem_iff_getElem.mp hmem
    have hget : wires[i]? = some wires[i] := List.getElem?_eq_getElem hi
    rw [← h.digit_restrict m hget, ← h.digit_restrict n hget, hon]
  · exact hoff wire hlt hmem

theorem patch_eq_iff {m n : Fin R.dimension} {j : Fin S.dimension} :
    h.patch n j = m ↔ R.AgreeOff wires m n ∧ h.restrict m = j := by
  constructor
  · rintro rfl
    exact ⟨h.agreeOff_patch n j, h.restrict_patch n j⟩
  · rintro ⟨hoff, rfl⟩
    exact h.eq_of_restrict_eq ((h.agreeOff_patch n _).trans hoff.symm) (h.restrict_patch n _)

include h in
/-- A placed register has no more basis states than the register it lies in. -/
theorem dimension_le : S.dimension ≤ R.dimension := by
  have hinj : Function.Injective (h.patch ⟨0, R.dimension_pos⟩) := by
    intro i j hij
    rw [← h.restrict_patch ⟨0, R.dimension_pos⟩ i, hij, h.restrict_patch]
  simpa using Fintype.card_le_of_injective _ hinj

include h in
/-- A register that is placed in one of word size has word size. -/
theorem dimension_lt (hword : R.dimension < wordBound) : S.dimension < wordBound :=
  Nat.lt_of_le_of_lt h.dimension_le hword

end States

/-! ## Placements one after the other -/

/-- A wire of a placed register lies on a wire that is listed. -/
theorem getElem?_getD (h : Placement S R wires) {wire : Wire} (hwire : wire < S.width) :
    wires[wire]? = some (wires.getD wire wire) := by
  obtain ⟨target, htarget⟩ := h.exists_wire hwire
  rw [htarget, List.getD_eq_getElem?_getD, htarget, Option.getD_some]

/-- The outer wires of the inner wires are all there. -/
theorem map_some_map_getD {Q : Register} {inner outer : List Wire} (hin : Placement S Q inner)
    (hout : Placement Q R outer) : (inner.map fun wire => outer.getD wire wire).map some =
      inner.map fun wire => outer[wire]? := by
  rw [List.map_map]
  exact List.map_congr_left fun wire hwire => (hout.getElem?_getD (hin.lt_width hwire)).symm

/-- A register that is placed in a placed register is placed in the outer one. -/
theorem trans {Q : Register} {inner outer : List Wire} (hin : Placement S Q inner)
    (hout : Placement Q R outer) :
    Placement S R (inner.map fun wire => outer.getD wire wire) := by
  have hget : ∀ wire ∈ inner, outer[wire]? = some (outer.getD wire wire) :=
    fun wire hwire => hout.getElem?_getD (hin.lt_width hwire)
  refine ⟨?_, ?_⟩
  · refine (List.nodup_map_iff_inj_on hin.nodup).mpr fun v hv w hw hvw => ?_
    have hlt : v < outer.length := hout.length_eq ▸ hin.lt_width hv
    exact (List.getElem?_inj hlt hout.nodup).mp ((hget v hv).trans (hvw ▸ (hget w hw).symm))
  · rw [← hin.levels, List.map_map]
    exact List.map_congr_left fun wire hwire => hout.levelsOf?_eq (hget wire hwire)

/-- Wire by wire: the wires are distinct, as many as the small register has, and have its levels. -/
theorem iff_levelsOf? : Placement S R wires ↔ wires.length = S.width ∧ wires.Nodup ∧
    ∀ i wire, wires[i]? = some wire → R.levelsOf? wire = S.levelsOf? i := by
  constructor
  · exact fun h => ⟨h.length_eq, h.nodup, fun _ _ hwire => h.levelsOf?_eq hwire⟩
  · rintro ⟨hlen, hnodup, hlevels⟩
    refine ⟨hnodup, List.ext_getElem? fun i => ?_⟩
    rw [List.getElem?_map, List.getElem?_map]
    rcases Nat.lt_or_ge i wires.length with hlt | hge
    · have hlt' : i < S.levels.length := Nat.lt_of_lt_of_eq hlt hlen
      have hwire : wires[i]? = some wires[i] := List.getElem?_eq_getElem hlt
      rw [hwire, Option.map_some, hlevels i _ hwire, Register.levelsOf?,
        List.getElem?_eq_getElem hlt', Option.map_some]
    · have hge' : S.levels.length ≤ i := Nat.le_trans (Nat.le_of_eq hlen.symm) hge
      rw [List.getElem?_eq_none hge, List.getElem?_eq_none hge', Option.map_none, Option.map_none]

end Placement

/-! ## The checks on wires -/

namespace Register

theorem checkWire_eq_ok_iff {R : Register} {gate : Option String} {wire : Wire} {levels : Nat}
    {u : Unit} : R.checkWire gate wire levels = .ok u ↔ R.levelsOf? wire = some levels := by
  unfold checkWire
  cases R.levelsOf? wire with
  | none => simp
  | some d => by_cases hd : d = levels <;> simp [hd]

/-- Pairing lists of one length, every pair matches exactly when the levels match as lists. -/
theorem map_levelsOf?_eq_iff {R : Register} {wires : List Wire} {levels : List Nat}
    (hlen : wires.length = levels.length) :
    wires.map R.levelsOf? = levels.map some ↔
      ∀ pair ∈ wires.zip levels, R.levelsOf? pair.1 = some pair.2 := by
  induction wires generalizing levels with
  | nil =>
      cases levels with
      | nil => simp
      | cons d levels => simp at hlen
  | cons wire wires ih =>
      cases levels with
      | nil => simp at hlen
      | cons d levels => simp [ih (by simpa using hlen)]

theorem checkPlacement_eq_ok_iff {R : Register} {earlier : List Wire} {pairs : List (Wire × Nat)} :
    R.checkPlacement earlier pairs = .ok () ↔
      (∀ pair ∈ pairs, pair.1 ∉ earlier) ∧ (pairs.map Prod.fst).Nodup ∧
        ∀ pair ∈ pairs, R.levelsOf? pair.1 = some pair.2 := by
  induction pairs generalizing earlier with
  | nil => simp [checkPlacement]
  | cons pair pairs ih =>
      obtain ⟨wire, levels⟩ := pair
      have hstep : R.checkPlacement earlier ((wire, levels) :: pairs) = .ok () ↔
          wire ∉ earlier ∧ R.levelsOf? wire = some levels ∧
            R.checkPlacement (wire :: earlier) pairs = .ok () := by
        simp [checkPlacement, checkWire_eq_ok_iff]
      rw [hstep, ih, List.forall_mem_cons, List.forall_mem_cons, List.map_cons, List.nodup_cons]
      constructor
      · rintro ⟨hwire, hlevels, hfresh, hnodup, hrest⟩
        refine ⟨⟨hwire, fun pair hpair => ?_⟩, ⟨?_, hnodup⟩, hlevels, hrest⟩
        · exact fun hmem => hfresh pair hpair (List.mem_cons_of_mem _ hmem)
        · rintro hmem
          obtain ⟨pair, hpair, heq⟩ := List.mem_map.mp hmem
          exact hfresh pair hpair (heq ▸ List.mem_cons_self)
      · rintro ⟨⟨hwire, hfresh⟩, ⟨hhead, hnodup⟩, hlevels, hrest⟩
        refine ⟨hwire, hlevels, fun pair hpair hmem => ?_, hnodup, hrest⟩
        rcases List.mem_cons.mp hmem with heq | hmem
        · exact hhead (List.mem_map.mpr ⟨pair, hpair, heq⟩)
        · exact hfresh pair hpair hmem

end Register

/-- Exactly the placements pass the checks on the number and the kind of wires. -/
theorem placement_iff {S R : Register} {wires : List Wire} :
    Placement S R wires ↔
      wires.length = S.width ∧ R.checkPlacement [] (wires.zip S.levels) = .ok () := by
  rw [Register.checkPlacement_eq_ok_iff]
  constructor
  · intro h
    have hlen : wires.length = S.levels.length := h.length_eq
    refine ⟨h.length_eq, by simp, ?_, (Register.map_levelsOf?_eq_iff hlen).mp h.levels⟩
    rw [List.map_fst_zip (Nat.le_of_eq hlen)]
    exact h.nodup
  · rintro ⟨hlen, -, hnodup, hlevels⟩
    rw [List.map_fst_zip (Nat.le_of_eq hlen)] at hnodup
    exact ⟨hnodup, (Register.map_levelsOf?_eq_iff hlen).mpr hlevels⟩

end QuditCircuits
