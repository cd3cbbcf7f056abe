import QuditCircuits.Circuit.SiteError

/-!
# Errors of passes

A pass can fail in three ways: a change of the circuit is refused, the pass gives up, or the pass was
not configured properly.  A substitution rule that is none is a fault of configuration; its cause
names the gates and the levels that show it.
-/

namespace QuditCircuits

/-- Why a substitution rule is refused. -/
inductive RuleFault
  /-- The gate to be replaced is a block. -/
  | blockSource (source : String)
  /-- The gate to be replaced takes parameters. -/
  | parametricSource (source : String) (numParams : Nat)
  /-- The template has other wires than the gate to be replaced. -/
  | levelsDiffer (template : String) (templateLevels : List Nat) (source : String)
      (sourceLevels : List Nat)
  /-- The template does something else than the gate to be replaced. -/
  | notEquivalent (template source : String)
  deriving DecidableEq

/-- What is wrong with a substitution rule, in words. -/
def RuleFault.message : RuleFault → String
  | blockSource source => s!"source gate '{source}' is compound"
  | parametricSource source numParams =>
      s!"source gate '{source}' takes {numParams} parameters, expected none"
  | levelsDiffer template templateLevels source sourceLevels =>
      s!"template '{template}' has radices {levelsText templateLevels}, "
        ++ s!"source gate '{source}' has {levelsText sourceLevels}"
  | notEquivalent template source => s!"template '{template}' does not implement '{source}'"

/-- Why the configuration of a pass is refused. -/
inductive ConfigurationFault
  /-- A substitution rule is not one. -/
  | rule (name : String) (fault : RuleFault)
  /-- Any other cause, in the words of the pass. -/
  | other (reason : String)
  deriving DecidableEq

/-- What is wrong with a configuration, in words. -/
def ConfigurationFault.message : ConfigurationFault → String
  | rule name fault => s!"rule '{name}': {fault.message}"
  | other reason => reason

/-- Why a pass fails. -/
inductive PassError (θ : Type)
  /-- A change of the circuit was refused. -/
  | circuit (error : SiteError θ)
  /-- The pass gave up. -/
  | failed (pass reason : String)
  /-- The pass is not configured properly. -/
  | configuration (fault : ConfigurationFault)

/-- The message that a user sees. -/
def PassError.message {θ : Type} [ParameterText θ] : PassError θ → String
  | circuit error => s!"IR error: {error.message}"
  | failed pass reason => s!"Pass '{pass}' failed: {reason}"
  | configuration fault => s!"Invalid pass configuration: {fault.message}"

/-- An error of shape, raised where errors of passes are expected. -/
def PassError.ofShape {θ α : Type} : Except ShapeError α → Except (PassError θ) α :=
  Except.mapError fun error => .circuit (.shape error)

end QuditCircuits
