import QuditCircuits.Pipeline.Pass
import QuditCircuits.Substitution.Rule

/-!
# Pipelines

The built-in passes are one for each substitution rule and one that flattens the circuit.  A pipeline
runs its passes one after the other on the same workspace, leaves out those that do not ask to be run,
and stops at the first one that fails.
-/

namespace QuditCircuits

variable {θ : Type} {F : PropertyFamily}

/-- Applies a rule and records how many operations it replaced. -/
def SubstitutionRule.pass (rule : SubstitutionRule θ) (F : PropertyFamily := .basic) : Pass θ F where
  name := rule.name
  kind := .transformation
  run := do
    let replaced ← (Mutation.apply rule).onCircuit
    modify fun workspace =>
      { workspace with properties := workspace.properties.record rule.name replaced }

/-- Flattens all blocks.  It asks to be run only when there is one. -/
def Pass.flatten : Pass θ F where
  name := "unfold"
  kind := .transformation
  shouldRun workspace := 0 < workspace.circuit.numBlocks
  run := discard Mutation.flatten.onCircuit

/-- Passes in the order in which they are run. -/
structure Pipeline (θ : Type) (F : PropertyFamily := .basic) where
  /-- The passes. -/
  passes : List (Pass θ F)

namespace Pipeline

/-- The names of the passes, in order. -/
def names (pipeline : Pipeline θ F) : List String :=
  pipeline.passes.map Pass.name

/-- Runs a pass if it asks to be run. -/
def runPass (pass : Pass θ F) : PassM θ Unit F := do
  if pass.shouldRun (← get) then pass.run

/-- Runs the passes that ask to be run, up to the first failure. -/
def run (pipeline : Pipeline θ F) : PassM θ Unit F :=
  pipeline.passes.forM runPass

end Pipeline

end QuditCircuits
