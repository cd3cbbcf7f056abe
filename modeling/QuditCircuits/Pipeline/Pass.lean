import QuditCircuits.Circuit.Schedule
import QuditCircuits.Pipeline.Error
import QuditCircuits.Pipeline.Properties

/-!
# Passes

A pass works on a circuit and a set of properties.  It may fail, and what it changed before it
failed stays changed, so a pass is a program with state and errors over the two.

Whether a pass asks to be run is a question of its own: running a pass directly does not ask it.
-/

namespace QuditCircuits

/-- What passes work on. -/
structure Workspace (θ : Type) (F : PropertyFamily := .basic) where
  /-- The circuit. -/
  circuit : Circuit θ
  /-- The properties that passes share. -/
  properties : Properties F

/-- Programs over a workspace. -/
abbrev PassM (θ : Type) (α : Type) (F : PropertyFamily := .basic) : Type :=
  Program (PassError θ) (Workspace θ F) α

/-- Changes the circuit of a workspace. -/
def Mutation.onCircuit {θ α : Type} {F : PropertyFamily} (mutation : Mutation θ (PassError θ) α) :
    PassM θ α F :=
  Program.onPart Workspace.circuit (fun workspace circuit => { workspace with circuit }) mutation

/-- Whether a pass changes the circuit. -/
inductive PassKind
  /-- The pass reads the circuit and may write properties. -/
  | analysis
  /-- The pass changes the circuit. -/
  | transformation
  deriving DecidableEq

/-- The text of a kind. -/
def PassKind.text : PassKind → String
  | analysis => "Analysis"
  | transformation => "Transformation"

/-- A named program over a workspace. -/
structure Pass (θ : Type) (F : PropertyFamily := .basic) where
  /-- The name of the pass. -/
  name : String
  /-- Whether the pass changes the circuit. -/
  kind : PassKind
  /-- Whether the pass asks to be run; every pass does unless it says otherwise. -/
  shouldRun : Workspace θ F → Bool := fun _ => true
  /-- What the pass does. -/
  run : PassM θ Unit F

end QuditCircuits
