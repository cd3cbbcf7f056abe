import Mathlib.Data.List.Lex
import Mathlib.Order.Monotone.Basic
import QuditCircuits.Proofs.Register.Concatenation

/-!
# The numbering of basis states

A register numbers its basis states without gaps, in the lexicographic order of their digits: digits and
indices undo each other, and a greater list of digits has a greater index (`Register.numbering_exact`).

Sizes and indices are machine words.  The numbering itself knows no bound, so there are registers with
more basis states than words.  Nothing goes wrong before it has to: a dimension is refused only if it is
no word itself, and composing an index leaves the words on the way only if the index is no word
(`Register.index?_eq`).  The reason is the same for both, no level is zero, so a number that is carried
from wire to wire never gets smaller.
-/

namespace QuditCircuits

/-- A number that has to be a machine word. -/
def word? (n : Nat) : Option Nat :=
  if n < wordBound then some n else none

theorem word?_of_lt {n : Nat} (h : n < wordBound) : word? n = some n :=
  if_pos h

theorem word?_eq_none_iff {n : Nat} : word? n = none ↔ wordBound ≤ n := by
  simp [word?]

namespace Register

/-! ## Indices as machine words -/

/-- One wire of an index composed in machine words: the carried number times the levels, and then the
digit added. -/
def carry? (n : Nat) (pair : Nat × Nat) : Option Nat := do
  let product ← word? (n * pair.2)
  word? (product + pair.1)

/-- The index whose digits are given, composed in machine words: the first product or sum that is no word
is refused. -/
def index? (R : Register) (digits : List Nat) : Option Nat :=
  (digits.zip R.levels).foldlM carry? 0

/-- The product is a word if the sum is. -/
theorem carry?_eq (n : Nat) (pair : Nat × Nat) : carry? n pair = word? (n * pair.2 + pair.1) := by
  rw [carry?]
  by_cases hproduct : n * pair.2 < wordBound
  · rw [word?_of_lt hproduct]
    rfl
  · have hsum : wordBound ≤ n * pair.2 + pair.1 := by omega
    rw [word?_eq_none_iff.mpr (Nat.le_of_not_lt hproduct), word?_eq_none_iff.mpr hsum]
    rfl

/-- No wire makes the carried number smaller. -/
theorem le_foldl_carried {pairs : List (Nat × Nat)} (hpos : ∀ pair ∈ pairs, 0 < pair.2) (n : Nat) :
    n ≤ pairs.foldl (fun n (digit, d) => n * d + digit) n := by
  induction pairs generalizing n with
  | nil => exact Nat.le_refl n
  | cons pair pairs ih =>
      obtain ⟨hd, hrest⟩ := List.forall_mem_cons.mp hpos
      calc
        n ≤ n * pair.2 + pair.1 :=
            Nat.le_trans (Nat.le_mul_of_pos_right n hd) (Nat.le_add_right _ _)
        _ ≤ _ := ih hrest _

theorem foldlM_carry? {pairs : List (Nat × Nat)} (hpos : ∀ pair ∈ pairs, 0 < pair.2) {n : Nat}
    (hn : n < wordBound) :
    pairs.foldlM carry? n = word? (pairs.foldl (fun n (digit, d) => n * d + digit) n) := by
  induction pairs generalizing n with
  | nil => exact (word?_of_lt hn).symm
  | cons pair pairs ih =>
      have hrest := (List.forall_mem_cons.mp hpos).2
      rw [List.foldlM_cons, List.foldl_cons, carry?_eq]
      by_cases hnext : n * pair.2 + pair.1 < wordBound
      · rw [word?_of_lt hnext]
        exact ih hrest hnext
      -- Once the carried number is no word, the result is none either.
      · have hlarge := Nat.le_of_not_lt hnext
        rw [word?_eq_none_iff.mpr hlarge,
          word?_eq_none_iff.mpr (Nat.le_trans hlarge (le_foldl_carried hrest _))]
        rfl

/-- An index is composed in words exactly if it is one. -/
theorem index?_eq (R : Register) (digits : List Nat) : R.index? digits = word? (R.index digits) := by
  refine foldlM_carry? (fun pair hpair => ?_) (by decide)
  exact R.levels_pos _ (List.of_mem_zip hpair).2

/-! ## Indices beyond the register -/

/-- Reading digits and composing them again drops what exceeds the register. -/
theorem index_digits_eq_mod (R : Register) (n : Nat) : R.index (R.digits n) = n % R.dimension := by
  have hjoin : n / R.dimension * R.dimension + R.index (R.digits n) = n := by
    calc
      n / R.dimension * R.dimension + R.index (R.digits n)
          = joinDigits R.levels (splitDigits R.levels n).2 (R.digits n) := by
            rw [joinDigits_eq_add (length_digits R n), splitDigits_snd]
            rfl
      _ = n := joinDigits_splitDigits R.levels n
  have hmod := Nat.div_add_mod' n R.dimension
  omega

theorem digits_mod_dimension (R : Register) (n : Nat) :
    R.digits (n % R.dimension) = R.digits n := by
  rw [← index_digits_eq_mod, digits_index (R.hasDigits_digits n)]

/-! ## The order of the basis states -/

/-- The carried number counts for more than all digits behind it. -/
theorem joinDigits_lt_of_upper_lt {levels x y : List Nat} (hx : List.Forall₂ (· < ·) x levels)
    (hy : y.length = levels.length) {upper upper' : Nat} (h : upper < upper') :
    joinDigits levels upper x < joinDigits levels upper' y := by
  calc
    joinDigits levels upper x < (upper + 1) * levels.prod := joinDigits_lt hx upper
    _ ≤ upper' * levels.prod := Nat.mul_le_mul_right _ h
    _ ≤ joinDigits levels upper' y := by
      rw [joinDigits_eq_add hy upper']
      exact Nat.le_add_right _ _

/-- The first wire on which the digits differ decides. -/
theorem joinDigits_lt_joinDigits {levels x y : List Nat} (hx : List.Forall₂ (· < ·) x levels)
    (hy : List.Forall₂ (· < ·) y levels) (h : x < y) (upper : Nat) :
    joinDigits levels upper x < joinDigits levels upper y := by
  induction hx generalizing y upper with
  | nil =>
      cases hy
      exact absurd h (List.lt_irrefl [])
  | @cons digit d x levels hdigit hx ih =>
      cases hy with
      | cons hdigit' hy =>
          rcases List.cons_lt_cons_iff.mp h with hlt | ⟨rfl, hrest⟩
          · exact joinDigits_lt_of_upper_lt hx hy.length_eq (Nat.add_lt_add_left hlt _)
          · exact ih hy hrest _

theorem strictMonoOn_index (R : Register) : StrictMonoOn R.index {x | R.HasDigits x} :=
  fun _ hx _ hy h => joinDigits_lt_joinDigits hx hy h 0

/-- The basis states are numbered without gaps, in the lexicographic order of their digits with wire `0`
in front, and machine words are left only where a result is no word.  The dimension is the product of the
levels and is refused exactly if it is no word.  Every index has one digit for each wire, below its levels,
and an index beyond the register the digits of its remainder.  Every index below the dimension that is a
word comes back from its digits, also if the dimension is no word; every list of digits comes back from
its index. -/
theorem numbering_exact (R : Register) :
    (R.dim? = if R.levels.prod < wordBound then .ok R.levels.prod
      else .error (.registerTooLarge R.levels)) ∧
    (∀ n, (R.digits n).length = R.width ∧ R.HasDigits (R.digits n) ∧
      R.digits n = R.digits (n % R.levels.prod)) ∧
    (∀ n < R.levels.prod, n < wordBound →
      R.index (R.digits n) = n ∧ R.index? (R.digits n) = some n) ∧
    (∀ x, R.HasDigits x → R.index x < wordBound →
      R.index? x = some (R.index x) ∧ R.digits (R.index x) = x) ∧
    ∀ x y, R.HasDigits x → R.HasDigits y → (R.index x < R.index y ↔ x < y) := by
  refine ⟨R.dim?_eq, fun n => ?_, fun n hn hword => ?_, fun x hx hword => ?_, fun x y hx hy => ?_⟩
  · exact ⟨R.length_digits n, R.hasDigits_digits n, (R.digits_mod_dimension n).symm⟩
  · have hindex : R.index (R.digits n) = n := index_digits hn
    exact ⟨hindex, by rw [index?_eq, hindex, word?_of_lt hword]⟩
  · exact ⟨by rw [index?_eq, word?_of_lt hword], digits_index hx⟩
  · exact R.strictMonoOn_index.lt_iff_lt hx hy

end Register

/-- A wire of three levels, one of one and two of `2 ^ 40`: more basis states than machine words. -/
def vastRegister : Register :=
  ⟨[3, 1, 2 ^ 40, 2 ^ 40], by decide⟩

-- The greatest word is an index, and its digits are composed without leaving the words.
theorem Register.numbering_exact_vastRegister :
    vastRegister.dim? = .error (.registerTooLarge [3, 1, 2 ^ 40, 2 ^ 40]) ∧
      2 ^ 64 - 1 < vastRegister.levels.prod ∧ 2 ^ 64 - 1 < wordBound ∧
      vastRegister.digits (2 ^ 64 - 1) = [0, 0, 2 ^ 24 - 1, 2 ^ 40 - 1] ∧
      vastRegister.index? [0, 0, 2 ^ 24 - 1, 2 ^ 40 - 1] = some (2 ^ 64 - 1) ∧
      vastRegister.digits (3 * 2 ^ 80 + 2 ^ 40 + 7) = vastRegister.digits (2 ^ 40 + 7) ∧
      vastRegister.HasDigits [0, 0, 1, 7] ∧ vastRegister.HasDigits [2, 0, 0, 6] ∧
      vastRegister.digits (vastRegister.index [0, 0, 1, 7]) = [0, 0, 1, 7] ∧
      [0, 0, 1, 7] < [2, 0, 0, 6] ∧
      vastRegister.index [0, 0, 1, 7] < vastRegister.index [2, 0, 0, 6] := by
  have hlast : 2 ^ 64 - 1 < vastRegister.levels.prod := by decide
  have hword : 2 ^ 64 - 1 < wordBound := by decide
  have hdigits : vastRegister.digits (2 ^ 64 - 1) = [0, 0, 2 ^ 24 - 1, 2 ^ 40 - 1] := by decide
  have hx : vastRegister.HasDigits [0, 0, 1, 7] :=
    .cons (by decide) (.cons (by decide) (.cons (by decide) (.cons (by decide) .nil)))
  have hy : vastRegister.HasDigits [2, 0, 0, 6] :=
    .cons (by decide) (.cons (by decide) (.cons (by decide) (.cons (by decide) .nil)))
  have hxy : [0, 0, 1, 7] < [2, 0, 0, 6] := by decide
  obtain ⟨hdim, hread, hback, hlist, horder⟩ := vastRegister.numbering_exact
  refine ⟨?_, hlast, hword, hdigits, ?_, ?_, hx, hy, ?_, hxy, (horder _ _ hx hy).mpr hxy⟩
  · rw [hdim, if_neg (by decide)]
    rfl
  · rw [← hdigits]
    exact (hback _ hlast hword).2
  · rw [(hread (3 * 2 ^ 80 + 2 ^ 40 + 7)).2.2]
    rfl
  · exact (hlist _ hx (by decide)).2

end QuditCircuits
