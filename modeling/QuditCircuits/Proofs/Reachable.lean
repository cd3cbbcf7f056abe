import QuditCircuits.Proofs.Substitution.Sites

/-!
# Circuits that can be built

A circuit is *reachable* if it comes from a circuit without cycles by appending, removing, replacing
in one step, flattening and applying rules, in any order and any number of steps.  The operations that
go in have to be made by `Operation.make?`, and the bodies of their gates have to be reachable
themselves; so have the templates of the rules.

A step that fails leaves no new circuit, so only steps that succeed are listed.  Every step keeps
circuits well-formed, which is all that the other modules use of reachability.
-/

namespace QuditCircuits

variable {θ : Type}

/-- The circuits that can be built. -/
inductive Circuit.Reachable : Circuit θ → Prop
  /-- The circuit without cycles over any register. -/
  | empty (R : Register) : Reachable (.empty R)
  /-- An operation is appended. -/
  | append {c c' : Circuit θ} {op : Operation θ} {point : Point} :
      Reachable c → op.Made → (∀ body, op.gate.body? = some body → Reachable body) →
      c.append? op = .ok (point, c') → Reachable c'
  /-- An operation is removed. -/
  | remove {c c' : Circuit θ} {op : Operation θ} {point : Point} :
      Reachable c → c.remove? point = .ok (op, c') → Reachable c'
  /-- Operations are replaced in one step. -/
  | replace {c c' : Circuit θ} {points : List Point} {ops : List (Operation θ)}
      {accepts : Operation θ → Bool} :
      Reachable c → (∀ op ∈ ops, op.Made) →
      (∀ op ∈ ops, ∀ body, op.gate.body? = some body → Reachable body) →
      c.replace? points ops accepts = .ok c' → Reachable c'
  /-- All blocks are flattened. -/
  | flatten {c : Circuit θ} : Reachable c → Reachable c.flatten.1
  /-- A rule is applied. -/
  | apply {c c' : Circuit θ} {rule : SubstitutionRule θ} {replaced : Nat} :
      Reachable c → Reachable rule.templateBody → rule.apply c = .ok (c', replaced) → Reachable c'

/-- The circuit over a register after operations were appended one after the other.  An operation that
is refused is skipped. -/
def Circuit.ofOperations (R : Register) (ops : List (Operation θ)) : Circuit θ :=
  ops.foldl (fun c op => match c.append? op with
    | .ok (_, longer) => longer
    | .error _ => c) (.empty R)

theorem Gate.wellFormed_of_body? {gate : Gate θ}
    (h : ∀ body, gate.body? = some body → body.WellFormed) : gate.WellFormed := by
  cases gate with
  | primitive gate => exact wellFormed_primitive gate
  | block name body => exact (wellFormed_block name body).mpr (h body rfl)

namespace Circuit.Reachable

/-- Reachable circuits are well-formed, together with all bodies inside them. -/
theorem wellFormed {c : Circuit θ} (h : c.Reachable) : c.WellFormed := by
  induction h with
  | empty R => exact wellFormed_empty R
  | append _ hmade _ happend ih ihbody =>
      exact ih.append hmade (Gate.wellFormed_of_body? ihbody) happend
  | remove _ hremove ih => exact ih.remove hremove
  | replace _ hmade _ hreplace ih ihbody =>
      exact ih.replace hmade (fun op hop => Gate.wellFormed_of_body? (ihbody op hop)) hreplace
  | flatten _ ih => exact ih.flatten
  | apply _ _ happly ih ihtemplate => exact ih.apply ihtemplate happly

/-- Appending a gate that is made on the spot. -/
theorem appendGate {c c' : Circuit θ} {gate : Gate θ} {wires : List Wire} {params : List θ}
    {point : Point} (h : c.Reachable) (hbody : ∀ body, gate.body? = some body → body.Reachable)
    (happend : c.appendGate? gate wires params = .ok (point, c')) : c'.Reachable := by
  obtain ⟨hmade, happend⟩ := append?_of_appendGate? happend
  exact .append h hmade hbody happend

/-- Appending a list of operations, whether or not some are refused. -/
theorem ofOperations (R : Register) {ops : List (Operation θ)} (hmade : ∀ op ∈ ops, op.Made)
    (hbody : ∀ op ∈ ops, ∀ body, op.gate.body? = some body → body.Reachable) :
    (Circuit.ofOperations R ops).Reachable := by
  unfold Circuit.ofOperations
  refine List.foldlRecOn ops _ (.empty R) fun c hc op hop => ?_
  split
  · next happend => exact .append hc (hmade op hop) (hbody op hop) happend
  · exact hc

end Circuit.Reachable

theorem Gate.wellFormed_of_reachable {gate : Gate θ}
    (h : ∀ body, gate.body? = some body → body.Reachable) : gate.WellFormed :=
  wellFormed_of_body? fun body hbody => (h body hbody).wellFormed

end QuditCircuits
