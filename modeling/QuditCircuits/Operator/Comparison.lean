import QuditCircuits.Operator.Basic

/-!
# Comparing operators

Computed matrices are compared within a tolerance: entry by entry, or up to a global phase.  The
phase is read off one *pivot*, the entry of greatest length of the second operator; of several
greatest ones the last counts.  A pivot that is as good as zero gives no phase, and then the first
operator has to be as good as zero too.

All comparisons are strict, so an undefined entry or tolerance makes them fail; only the phase's own
length is refused by a strict comparison the other way round.
-/

namespace QuditCircuits.Operator

variable {R : Type} [RealArithmetic R]

/-- Whether the corresponding scalars of two lists satisfy a test. -/
def allPairs {K : Type} (test : K → K → Bool) (xs ys : List K) : Bool :=
  (xs.zip ys).all fun (x, y) => test x y

/-- Two amplitudes closer than the tolerance. -/
def close (tol : R) (z w : Amplitude R) : Bool :=
  RealArithmetic.lt (z - w).norm tol

/-- Entry by entry comparison over the same register. -/
def approxEq (tol : R) (U V : Operator (Amplitude R)) : Bool :=
  U.register == V.register && allPairs (close tol) U.entries.toList V.entries.toList

/-- Of two candidates for the greatest length the later one, unless the earlier one is longer. -/
def longer (best next : Amplitude R × Nat) : Amplitude R × Nat :=
  if RealArithmetic.outranks best.1.norm next.1.norm then best else next

/-- The last of the longest entries, with its position in the array. -/
def pivot? (U : Operator (Amplitude R)) : Option (Amplitude R × Nat) :=
  match U.entries.toList.zipIdx with
  | [] => none
  | first :: rest => some (rest.foldl longer first)

/-- The comparison for a given pivot of `V`: its entry and its position. -/
def approxEqAlong (tol : R) (pivot : Amplitude R × Nat) (U V : Operator (Amplitude R)) : Bool :=
  if RealArithmetic.lt pivot.1.norm (tolerance 10) then
    U.entries.all fun z => RealArithmetic.lt z.norm tol
  else
    let phase := U.entries.getD pivot.2 0 / pivot.1
    if RealArithmetic.lt tol (RealArithmetic.abs (phase.norm - 1)) then false
    else allPairs (fun z w => close tol z (w * phase)) U.entries.toList V.entries.toList

/-- Comparison over the same register up to a global phase. -/
def approxEqUpToPhase (tol : R) (U V : Operator (Amplitude R)) : Bool :=
  U.register == V.register &&
    match V.pivot? with
    | none => true
    | some pivot => approxEqAlong tol pivot U V

/-- Whether the operator times its adjoint is the identity, entry by entry within the tolerance. -/
def isUnitary (tol : R) (U : Operator (Amplitude R)) : Bool :=
  let product := U.mul U.adjoint
  (List.range U.dim).all fun row => (List.range U.dim).all fun col =>
    close tol (product.entry row col) (if row = col then 1 else 0)

end QuditCircuits.Operator
