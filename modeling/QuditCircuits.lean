import QuditCircuits.Circuit.Equality
import QuditCircuits.Interchange.Values
import QuditCircuits.Pipeline.Basic
import QuditCircuits.Proofs.Flattening
import QuditCircuits.Proofs.Runs
import QuditCircuits.Proofs.Simultaneous
import QuditCircuits.Proofs.Substitution.Expansion
import QuditCircuits.Proofs.Substitution.Soundness
import QuditCircuits.Proofs.Substitution.StaleSites
import QuditCircuits.Proofs.WireEquivalence
import QuditCircuits.Substitution.Presets
import QuditCircuits.Proofs.Substitution.Independence
import QuditCircuits.Proofs.Pipeline.Accounting
import QuditCircuits.Proofs.Circuit.Relabelling
import QuditCircuits.Proofs.Relabelling
import QuditCircuits.Proofs.Accesses
import QuditCircuits.Proofs.Levels
import QuditCircuits.Proofs.Placing
import QuditCircuits.Proofs.Unitarity
import QuditCircuits.Proofs.PlacedProducts
import QuditCircuits.Proofs.EarliestCycles
import QuditCircuits.Proofs.Interleaving
import QuditCircuits.Proofs.Removal
import QuditCircuits.Proofs.EvaluationErrors
import QuditCircuits.Proofs.Substitution.Elimination
import QuditCircuits.Proofs.Circuit.Parameters
import QuditCircuits.Proofs.Wrapping
import QuditCircuits.Proofs.OpenedLayout
import QuditCircuits.Proofs.Density
import QuditCircuits.Proofs.Scalar.ExactReals
import QuditCircuits.Proofs.PhaseComparison
import QuditCircuits.Proofs.Register.Numbering
import QuditCircuits.Proofs.GateLibrary
