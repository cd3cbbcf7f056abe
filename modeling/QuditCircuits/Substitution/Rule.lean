import QuditCircuits.Circuit.Flatten
import QuditCircuits.Circuit.Replace
import QuditCircuits.Circuit.Unitary
import QuditCircuits.Operator.Comparison
import QuditCircuits.Pipeline.Error

/-!
# Substitution rules

A substitution rule replaces every occurrence of one primitive gate, its *source*, by a fixed
circuit, its *template*.  The rule is applied in three steps:

* the circuit is scanned for top-level operations that hold the source;
* in one step every site that was found gets a block around the template, on the same wires in the
  same order and with the parameters that the template itself holds;
* all blocks of the circuit are flattened.

The circuit is not scanned again, so sources that lay inside blocks and sources inside the template
remain.

Sites may be kept and used later.  They are checked again when they are used: if a site does not hold
the source any more the whole substitution is refused and the circuit stays as it is.

A rule is made only if the source takes no parameters, the template has the source's register and
the template's operator is that of the source up to a global phase.
-/

namespace QuditCircuits

variable {θ : Type}

/-- A primitive gate and the circuit that replaces it. -/
structure SubstitutionRule (θ : Type) where
  /-- The name of the rule. -/
  name : String
  /-- The gate that is replaced. -/
  source : Primitive
  /-- The name of the block that stands for the template. -/
  templateName : String
  /-- The circuit that replaces the gate. -/
  templateBody : Circuit θ
  /-- The source takes no parameters. -/
  source_numParams : source.numParams = 0
  /-- The template has the wires of the source. -/
  template_register : templateBody.register = source.register

/-- An occurrence of a rule's source, as it was when the circuit was scanned. -/
structure Site where
  /-- The cycle and the first wire of the operation. -/
  point : Point
  /-- The wires of the operation, in the order of the gate's own wires. -/
  wires : List Wire
  deriving DecidableEq

namespace SubstitutionRule

/-- The template as one gate. -/
def template (rule : SubstitutionRule θ) : Gate θ :=
  .block rule.templateName rule.templateBody

/-- Makes a rule.  It is refused if the source is a block, else if the source takes parameters, else
if the template has other wires, else if an operator cannot be computed, else if the template does
something else than the source. -/
def make? {R : Type} [RealArithmetic R] (model : GateModel θ (Amplitude R)) (name : String)
    (source : Gate θ) (templateName : String) (templateBody : Circuit θ) :
    Except (PassError θ) (SubstitutionRule θ) :=
  let refuse (fault : RuleFault) : Except (PassError θ) (SubstitutionRule θ) :=
    .error (.configuration (.rule name fault))
  match source with
  | .block sourceName _ => refuse (.blockSource sourceName)
  | .primitive gate =>
      if hparams : gate.numParams = 0 then
        if hregister : templateBody.register = gate.register then do
          let expected ← PassError.ofShape (model.unitary? gate [])
          let actual ← PassError.ofShape (templateBody.unitary? model)
          if Operator.approxEqUpToPhase (tolerance 9) actual expected then
            return ⟨name, gate, templateName, templateBody, hparams, hregister⟩
          else refuse (.notEquivalent templateName gate.name)
        else
          refuse (.levelsDiffer templateName templateBody.register.levels gate.name
            gate.register.levels)
      else refuse (.parametricSource gate.name gate.numParams)

/-- Whether an operation holds the source. -/
def holdsSource (rule : SubstitutionRule θ) (op : Operation θ) : Bool :=
  match op.gate with
  | .primitive gate => gate == rule.source
  | .block _ _ => false

/-- The site of an operation in a cycle, named by the operation's first wire. -/
def siteOf? (cycle : Nat) (op : Operation θ) : Option Site :=
  op.wires.head?.map fun anchor => ⟨⟨cycle, anchor⟩, op.wires⟩

/-- Every top-level operation that holds the source, in schedule order. -/
def sites (rule : SubstitutionRule θ) (c : Circuit θ) : List Site :=
  (c.scheduled.filter fun (_, op) => rule.holdsSource op).filterMap fun (k, op) => siteOf? k op

/-- The template on the wires of each site. -/
def replacements (rule : SubstitutionRule θ) (sites : List Site) :
    Except (PassError θ) (List (Operation θ)) :=
  sites.mapM fun site =>
    PassError.ofShape (Operation.make? rule.template site.wires rule.templateBody.params)

end SubstitutionRule

/-! ## Substituting -/

namespace Mutation

/-- Puts the template on every site in one step.  Every site has to hold the source still, on the
same wires. -/
def substitute (rule : SubstitutionRule θ) (sites : List Site) : Mutation θ (PassError θ) Unit := do
  let ops ← Program.query fun _ => rule.replacements sites
  (replace (sites.map Site.point) ops rule.holdsSource).adaptExcept .circuit

/-- Applies a rule: scans, substitutes if there is a site, and flattens.  The result is the number of
operations replaced. -/
def apply (rule : SubstitutionRule θ) : Mutation θ (PassError θ) Nat := do
  let sites := rule.sites (← get)
  unless sites.isEmpty do substitute rule sites
  let _ ← flatten
  return sites.length

end Mutation

namespace SubstitutionRule

/-- Puts the template on every site in one step. -/
def substitute (rule : SubstitutionRule θ) (c : Circuit θ) (sites : List Site) :
    Except (PassError θ) (Circuit θ) :=
  (Mutation.substitute rule sites).changed? c

/-- Applies the rule to a circuit: the flattened result and the number of operations replaced. -/
def apply (rule : SubstitutionRule θ) (c : Circuit θ) : Except (PassError θ) (Circuit θ × Nat) :=
  ((Mutation.apply rule).outcome c).map Prod.swap

end SubstitutionRule

end QuditCircuits
