import QuditCircuits.Scalar.Amplitude

/-!
# Sums of products

Every entry of a matrix product is a sum of products, one for each number `k` of a column of the left
and a row of the right matrix.  Here are the sum from left to right (`sumOfProducts`) and a multiple of
it that is taken in blocks (`scaledSum`).

Over exact scalars the order makes no difference.  In double precision it does: a block is rounded on
its own, so what is small beside the total so far can still add up within a later block.
-/

namespace QuditCircuits

variable {K : Type} [Zero K] [AddProduct K]

/-- The sum of the products `x k * y k` over all `k < n`, from left to right. -/
@[specialize]
def sumOfProducts (n : Nat) (x y : Nat → K) : K :=
  n.fold (fun k _ sum => AddProduct.addProduct sum (x k) (y k)) 0

/-- The number of terms after which a long sum of products starts anew. -/
def blockLength : Nat :=
  256

/-- A multiple of the sum of the products `x k * y k` over all `k < n`.  The terms are taken in blocks
of `blockLength`, the last one being shorter.  Every block is summed up from zero, and its multiple is
added to one times the total of the blocks before it. -/
@[specialize]
def scaledSum [One K] [Add K] [Mul K] (factor : K) (n : Nat) (x y : Nat → K) : K :=
  ((n + blockLength - 1) / blockLength).fold (fun block _ total =>
    let start := block * blockLength
    total * 1 + factor *
      sumOfProducts (min blockLength (n - start)) (fun k => x (start + k)) fun k => y (start + k)) 0

/-- One more term comes last. -/
theorem sumOfProducts_succ (n : Nat) (x y : Nat → K) :
    sumOfProducts (n + 1) x y = AddProduct.addProduct (sumOfProducts n x y) (x n) (y n) :=
  Nat.fold_succ ..

end QuditCircuits
