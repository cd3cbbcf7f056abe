import Mathlib.Data.List.Forall2
import Mathlib.Tactic.Ring
import QuditCircuits.Register

/-!
# Digits and indices

Reading the digits of an index and composing an index from digits undo each other.  Both run over the
levels with a carried number: splitting starts at the last wire and carries the quotient towards the
first, joining starts at the first wire and carries the index so far.  `joinDigits` makes the carried
number of the joining explicit, and the two round trips are stated for every carried number; the
round trips of a register are the case of zero.

A basis state is known by its digits (`eq_of_digit_eq`), which is how later files compare basis states
of different registers.
-/

namespace QuditCircuits
namespace Register

/-! ## Splitting and joining over a list of levels -/

/-- The index with the given digits below the carried number `upper`. -/
def joinDigits (levels : List Nat) (upper : Nat) (digits : List Nat) : Nat :=
  (digits.zip levels).foldl (fun n (digit, d) => n * d + digit) upper

@[simp]
theorem joinDigits_nil (upper : Nat) : joinDigits [] upper [] = upper := rfl

@[simp]
theorem joinDigits_cons (d : Nat) (levels : List Nat) (upper digit : Nat) (digits : List Nat) :
    joinDigits (d :: levels) upper (digit :: digits) =
      joinDigits levels (upper * d + digit) digits := rfl

theorem splitDigits_cons (d : Nat) (levels : List Nat) (n : Nat) :
    splitDigits (d :: levels) n =
      ((splitDigits levels n).2 % d :: (splitDigits levels n).1, (splitDigits levels n).2 / d) := rfl

/-- What is left over above the first level is the quotient by the product of the levels. -/
theorem splitDigits_snd (levels : List Nat) (n : Nat) :
    (splitDigits levels n).2 = n / levels.prod := by
  induction levels with
  | nil => simp [splitDigits]
  | cons d levels ih =>
      rw [splitDigits_cons, ih, Nat.div_div_eq_div_mul, List.prod_cons, Nat.mul_comm]

/-- Every digit that is read off lies below its level. -/
theorem splitDigits_fst_lt {levels : List Nat} (hpos : ∀ d ∈ levels, 0 < d) (n : Nat) :
    List.Forall₂ (· < ·) (splitDigits levels n).1 levels := by
  induction levels with
  | nil => exact List.Forall₂.nil
  | cons d levels ih =>
      rw [splitDigits_cons]
      have hd : 0 < d := hpos d (by simp)
      exact List.Forall₂.cons (Nat.mod_lt _ hd)
        (ih fun e he => hpos e (List.mem_cons_of_mem _ he))

/-- Joining what was split gives the number back. -/
theorem joinDigits_splitDigits (levels : List Nat) (n : Nat) :
    joinDigits levels (splitDigits levels n).2 (splitDigits levels n).1 = n := by
  induction levels with
  | nil => rfl
  | cons d levels ih =>
      rw [splitDigits_cons, joinDigits_cons, Nat.div_add_mod', ih]

/-- Splitting what was joined gives the digits and the carried number back. -/
theorem splitDigits_joinDigits {levels digits : List Nat}
    (h : List.Forall₂ (· < ·) digits levels) (upper : Nat) :
    splitDigits levels (joinDigits levels upper digits) = (digits, upper) := by
  -- Every level carries another number on, so the induction is over all carried numbers.
  induction h generalizing upper with
  | nil => rfl
  | @cons digit d digits levels hlt _ ih =>
      rw [joinDigits_cons, splitDigits_cons, ih, Nat.mul_add_mod_of_lt hlt, block_div upper hlt]

/-- A joined index stays below the next multiple of the product of the levels. -/
theorem joinDigits_lt {levels digits : List Nat} (h : List.Forall₂ (· < ·) digits levels)
    (upper : Nat) : joinDigits levels upper digits < (upper + 1) * levels.prod := by
  induction h generalizing upper with
  | nil => simp
  | @cons digit d digits levels hlt _ ih =>
      calc
        joinDigits (d :: levels) upper (digit :: digits)
            < (upper * d + digit + 1) * levels.prod := ih (upper * d + digit)
        _ ≤ (upper * d + d) * levels.prod := Nat.mul_le_mul_right _ (by omega)
        _ = (upper + 1) * (d :: levels).prod := by rw [List.prod_cons]; ring

/-! ## Basis states of a register -/

/-- The lists of digits that name a basis state: one digit for each wire, below its levels. -/
def HasDigits (R : Register) (digits : List Nat) : Prop :=
  List.Forall₂ (· < ·) digits R.levels

/-- The digit of a basis state on one wire; zero beyond the register. -/
def digit (R : Register) (n : Nat) (wire : Wire) : Nat :=
  (R.digits n).getD wire 0

theorem dimension_pos (R : Register) : 0 < R.dimension :=
  List.prod_pos_iff_forall_pos_nat.mpr R.levels_pos

theorem hasDigits_digits (R : Register) (n : Nat) : R.HasDigits (R.digits n) :=
  splitDigits_fst_lt R.levels_pos n

theorem index_eq_joinDigits (R : Register) (digits : List Nat) :
    R.index digits = joinDigits R.levels 0 digits := rfl

theorem index_lt {R : Register} {digits : List Nat} (h : R.HasDigits digits) :
    R.index digits < R.dimension := by
  have hlt := joinDigits_lt h 0
  rwa [Nat.zero_add, Nat.one_mul] at hlt

theorem digits_index {R : Register} {digits : List Nat} (h : R.HasDigits digits) :
    R.digits (R.index digits) = digits := by
  rw [index_eq_joinDigits, Register.digits, splitDigits_joinDigits h]

theorem index_digits {R : Register} {n : Nat} (hn : n < R.dimension) :
    R.index (R.digits n) = n := by
  have hzero : (splitDigits R.levels n).2 = 0 := by
    rw [splitDigits_snd]
    exact Nat.div_eq_of_lt hn
  have hjoin := joinDigits_splitDigits R.levels n
  rwa [hzero] at hjoin

/-- Digit lists are those with a digit below the levels on every wire. -/
theorem hasDigits_iff {R : Register} {digits : List Nat} :
    R.HasDigits digits ↔
      digits.length = R.width ∧
        ∀ wire d, R.levelsOf? wire = some d → digits.getD wire 0 < d := by
  rw [HasDigits, List.forall₂_iff_get]
  constructor
  · rintro ⟨hlen, hlt⟩
    refine ⟨hlen, fun wire d hd => ?_⟩
    obtain ⟨hwire, rfl⟩ := List.getElem?_eq_some_iff.mp hd
    have hwire' : wire < digits.length := hlen ▸ hwire
    simpa [List.getD_eq_getElem?_getD, List.getElem?_eq_getElem hwire'] using hlt wire hwire' hwire
  · rintro ⟨hlen, hlt⟩
    refine ⟨hlen, fun wire hwire hwire' => ?_⟩
    have := hlt wire R.levels[wire] (List.getElem?_eq_getElem hwire')
    simpa [List.getD_eq_getElem?_getD, List.getElem?_eq_getElem hwire] using this

theorem digit_lt {R : Register} {wire d : Nat} (h : R.levelsOf? wire = some d) (n : Nat) :
    R.digit n wire < d :=
  (hasDigits_iff.mp (R.hasDigits_digits n)).2 wire d h

theorem digit_index {R : Register} {digits : List Nat} (h : R.HasDigits digits) (wire : Wire) :
    R.digit (R.index digits) wire = digits.getD wire 0 := by
  rw [digit, digits_index h]

/-- A basis state is known by its digits. -/
theorem eq_of_digit_eq {R : Register} {m n : Nat} (hm : m < R.dimension) (hn : n < R.dimension)
    (h : ∀ wire < R.width, R.digit m wire = R.digit n wire) : m = n := by
  have hdigits : R.digits m = R.digits n := by
    apply List.ext_getElem
    · simp
    · intro wire hwire hwire'
      have := h wire (by simpa using hwire)
      rw [digit, digit, List.getD_eq_getElem?_getD, List.getD_eq_getElem?_getD,
        List.getElem?_eq_getElem hwire, List.getElem?_eq_getElem hwire'] at this
      exact this
  rw [← index_digits hm, ← index_digits hn, hdigits]

theorem levelsOf?_eq_some_of_lt {R : Register} {wire : Wire} (h : wire < R.width) :
    ∃ d, R.levelsOf? wire = some d :=
  ⟨R.levels[wire], List.getElem?_eq_getElem h⟩

theorem lt_width_of_levelsOf? {R : Register} {wire : Wire} {d : Nat}
    (h : R.levelsOf? wire = some d) : wire < R.width :=
  (List.getElem?_eq_some_iff.mp h).1

/-! ## The dimension as a machine word -/

/-- The running product is refused exactly when the whole product is no word: later levels never make
it smaller. -/
theorem foldlM_dim (fault : ShapeError) (levels : List Nat) (hpos : ∀ d ∈ levels, 0 < d)
    (start : Nat) (hstart : start < wordBound) :
    levels.foldlM
        (fun product d =>
          if product * d < wordBound then .ok (product * d) else Except.error fault) start =
      if start * levels.prod < wordBound then .ok (start * levels.prod) else .error fault := by
  induction levels generalizing start with
  | nil => simp [hstart, pure, Except.pure]
  | cons d levels ih =>
      have hrest : 0 < levels.prod :=
        List.prod_pos_iff_forall_pos_nat.mpr fun e he => hpos e (List.mem_cons_of_mem _ he)
      rw [List.foldlM_cons, List.prod_cons, ← Nat.mul_assoc]
      by_cases hlt : start * d < wordBound
      · rw [if_pos hlt]
        exact ih (fun e he => hpos e (List.mem_cons_of_mem _ he)) _ hlt
      -- Once the product is no word, positive levels cannot make it one again.
      · have hbig : ¬ start * d * levels.prod < wordBound := by
          have := Nat.le_mul_of_pos_right (start * d) hrest
          omega
        rw [if_neg hlt, if_neg hbig]
        rfl

/-- The checked dimension is the product of the levels, refused when that is no word. -/
theorem dim?_eq (R : Register) :
    R.dim? =
      if R.dimension < wordBound then .ok R.dimension
      else .error (.registerTooLarge R.levels) := by
  have h := foldlM_dim (.registerTooLarge R.levels) R.levels R.levels_pos 1 (by decide)
  rw [Nat.one_mul] at h
  exact h

end Register
end QuditCircuits
