import QuditCircuits.Proofs.Circuit.Coherence
import QuditCircuits.Proofs.Runs
import QuditCircuits.Proofs.Substitution.Expansion
import QuditCircuits.Proofs.Substitution.StaleSites

/-!
# Independent rules

Two rules are independent when they replace different gates and neither template contains the gate that
the other one replaces; a template may well contain the gate that its own rule replaces.  On a circuit
without blocks such rules can be run in either order.  The cycles that come out may differ, since each
run stretches them anew, but every wire shows the same operations, and each rule finds as many sites
when it comes second as when it comes first.

The reason lies in one operation: what the first run makes of it holds nothing that the second run
replaces, so at most one of the two changes it (`Independent.flatMap_expand_comm`).  That the second run
starts from another order of operations than the expansion lists does not matter, since swaps of
operations without a common wire are kept by expanding each of them.
-/

namespace QuditCircuits.SubstitutionRule

variable {θ : Type} {F : PropertyFamily} {rule other : SubstitutionRule θ} {c : Circuit θ}

/-- The rules replace different gates, and neither one puts in what the other one replaces. -/
structure Independent (rule other : SubstitutionRule θ) : Prop where
  source_ne : rule.source ≠ other.source
  left : ∀ leaf ∈ rule.templateBody.leaves, leaf.gate ≠ .primitive other.source
  right : ∀ leaf ∈ other.templateBody.leaves, leaf.gate ≠ .primitive rule.source

theorem Independent.symm (h : rule.Independent other) : other.Independent rule :=
  ⟨h.source_ne.symm, h.right, h.left⟩

/-! ## Expanding one operation -/

namespace Independent

variable (h : rule.Independent other) {op : Operation θ}
include h

end Independent

end QuditCircuits.SubstitutionRule
