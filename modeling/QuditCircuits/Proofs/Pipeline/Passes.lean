import QuditCircuits.Pipeline.Basic
import QuditCircuits.Proofs.Substitution.Sites

/-!
# What passes leave behind

A pass is a program with state and errors, and an error keeps the state as it is at that point.  What
each pass of a pipeline keeps is therefore kept by the pipeline, whether all passes succeed, some are
skipped or one of them fails (`Pipeline.keeps_run`).
-/

namespace QuditCircuits

variable {θ : Type} {F : PropertyFamily}

/-! ## The two kinds of passes -/

theorem Mutation.atomic_onCircuit {α : Type} {mutation : Mutation θ (PassError θ) α}
    (h : mutation.Atomic) : (mutation.onCircuit : PassM θ α F).Atomic := by
  rintro ⟨c, properties⟩ e left herror
  unfold onCircuit Program.onPart at herror
  cases hrun : mutation c with
  | ok a c' => rw [hrun] at herror; cases herror
  | error e' c' =>
      rw [hrun] at herror
      cases herror
      rw [h c e c' hrun]

theorem Pass.atomic_flatten : (flatten : Pass θ F).run.Atomic :=
  .discard (.of_forall_ok fun _ => ⟨_, _, rfl⟩)

namespace SubstitutionRule

variable {rule : SubstitutionRule θ} {c : Circuit θ}

theorem run_pass_eq_ok {c' : Circuit θ} {replaced : Nat} (properties : Properties F)
    (h : rule.apply c = .ok (c', replaced)) :
    (rule.pass F).run ⟨c, properties⟩ = .ok () ⟨c', properties.record rule.name replaced⟩ := by
  have hrun : Mutation.apply rule c = .ok replaced c' := by
    rw [← Program.outcome_eq_ok_iff]
    exact map_swap_eq_ok_iff.mp h
  have hcircuit : (Mutation.apply rule).onCircuit ⟨c, properties⟩ = .ok replaced ⟨c', properties⟩ := by
    rw [Mutation.onCircuit, Program.onPart, hrun]
  exact Program.bind_of_ok hcircuit

/-- A rule that is refused leaves the workspace as it was. -/
theorem atomic_pass (rule : SubstitutionRule θ) : (rule.pass F).run.Atomic :=
  (Mutation.atomic_onCircuit rule.atomic_apply).bind_ok fun _ _ => ⟨_, _, rfl⟩

theorem run_pass_eq_error {error : PassError θ} (properties : Properties F)
    (h : rule.apply c = .error error) :
    (rule.pass F).run ⟨c, properties⟩ = .error error ⟨c, properties⟩ := by
  obtain ⟨left, hrun⟩ := Program.outcome_eq_error_iff.mp (map_swap_eq_error_iff.mp h)
  obtain rfl : left = c := rule.atomic_apply c error left hrun
  have hcircuit : (Mutation.apply rule).onCircuit ⟨left, properties⟩ =
      .error error ⟨left, properties⟩ := by
    rw [Mutation.onCircuit, Program.onPart, hrun]
  exact Program.bind_of_error hcircuit

/-- The pass of a rule leaves the circuit as it was, or as the rule makes it. -/
theorem circuit_after_pass (rule : SubstitutionRule θ) (c : Circuit θ) (properties : Properties F) :
    ((rule.pass F).run.after ⟨c, properties⟩).circuit = c ∨
      ∃ n, rule.apply c = .ok (((rule.pass F).run.after ⟨c, properties⟩).circuit, n) := by
  unfold Program.after
  cases happly : rule.apply c with
  | error error =>
      rw [run_pass_eq_error properties happly]
      exact .inl rfl
  | ok applied =>
      rw [run_pass_eq_ok properties happly]
      exact .inr ⟨applied.2, rfl⟩

end SubstitutionRule

/-! ## Pipelines -/

/-- What every pass keeps, a pipeline keeps: it runs some of its passes, up to the first failure. -/
theorem Pipeline.keeps_run {P : Workspace θ F → Prop} {pipeline : Pipeline θ F}
    (h : ∀ pass ∈ pipeline.passes, pass.run.Keeps P) : pipeline.run.Keeps P := by
  have hskip : (pure () : PassM θ Unit F).Keeps P := fun _ hworkspace => hworkspace
  obtain ⟨passes⟩ := pipeline
  induction passes with
  | nil => exact hskip
  | cons pass passes ih =>
      obtain ⟨hpass, hrest⟩ := List.forall_mem_cons.mp h
      have hrun : (runPass pass).Keeps P := by
        refine .bind (fun _ hworkspace => hworkspace) fun workspace => ?_
        split
        · exact hpass
        · exact hskip
      exact hrun.bind fun _ => ih hrest

/-- What holds of a circuit and is kept by every pass holds of the circuit that a pipeline leaves. -/
theorem Pipeline.circuit_after {P : Circuit θ → Prop} {pipeline : Pipeline θ F}
    (hpasses : ∀ pass ∈ pipeline.passes, ∀ c properties, P c →
      P (pass.run.after ⟨c, properties⟩).circuit)
    {c : Circuit θ} (h : P c) (properties : Properties F) :
    P (pipeline.run.after ⟨c, properties⟩).circuit :=
  keeps_run (P := fun workspace => P workspace.circuit)
    (fun pass hpass workspace => hpasses pass hpass workspace.circuit workspace.properties)
    ⟨c, properties⟩ h

end QuditCircuits
