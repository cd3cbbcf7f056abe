import QuditCircuits.Circuit.Builder
import QuditCircuits.Proofs.Circuit.Coherence
import QuditCircuits.Proofs.Pipeline.Passes
import QuditCircuits.Proofs.Reachable

/-!
# Runs of calls

A circuit is changed by calls: appending an operation or a gate, the short forms for named gates,
removing, replacing, flattening, running a pass or a pipeline.  Each is a program, and the circuit after
it is what the program leaves behind.  A call that is refused leaves the circuit as it was
(`Call.perform_of_refused`), except that a pipeline keeps what its passes did before one of them failed.

The reachable circuits are those that a run of calls makes of a circuit without cycles
(`reachable_iff_exists_calls`).  An invariant of reachable circuits therefore holds after every run,
refused calls included, and `coherent_after` states the one that look-ups rely on.
-/

namespace QuditCircuits

variable {θ : Type} {F : PropertyFamily}

/-- A call that may change a circuit.  The sites of a rule may come from another circuit, and a pass is
run whether or not it asks to be, on properties of any family. -/
inductive Call (θ : Type) : Type 1
  | append (op : Operation θ)
  | appendGate (gate : Gate θ) (wires : List Wire) (params : List θ)
  | add (gate : QubitGate) (wires : List Wire) (params : List θ)
  | levelPhase (level : Nat) (wire : Wire)
  | remove (point : Point)
  | replace (points : List Point) (ops : List (Operation θ)) (accepts : Operation θ → Bool)
  | substitute (rule : SubstitutionRule θ) (sites : List Site)
  | flatten
  | runPass {F : PropertyFamily} (pass : Pass θ F) (properties : Properties F)
  | runPipeline {F : PropertyFamily} (pipeline : Pipeline θ F) (properties : Properties F)

/-- The circuit after a call. -/
def Call.perform (c : Circuit θ) : Call θ → Circuit θ
  | append op => (Mutation.append op).after c
  | appendGate gate wires params => (Mutation.appendGate gate wires params).after c
  | add gate wires params => (Mutation.add gate wires params).after c
  | levelPhase level wire => (Mutation.levelPhase level wire).after c
  | remove point => (Mutation.remove point).after c
  | replace points ops accepts => (Mutation.replace points ops accepts).after c
  | substitute rule sites => (Mutation.substitute rule sites).after c
  | flatten => (Mutation.flatten (ε := Empty)).after c
  | runPass pass properties => (pass.run.after ⟨c, properties⟩).circuit
  | runPipeline pipeline properties => (pipeline.run.after ⟨c, properties⟩).circuit

/-- The circuit after calls, one after the other. -/
def Circuit.after (c : Circuit θ) (calls : List (Call θ)) : Circuit θ :=
  calls.foldl Call.perform c

/-! ## What calls are given -/

/-- The passes of the library.  The template of a rule has to be a circuit that can be built. -/
inductive Pass.BuiltIn : Pass θ F → Prop
  | flatten : BuiltIn .flatten
  | rule {rule : SubstitutionRule θ} : rule.templateBody.Reachable → BuiltIn (rule.pass F)

/-- The operands of a call: operations that were made, with bodies and templates that can be built. -/
def Call.Admissible : Call θ → Prop
  | append op => op.Made ∧ ∀ body, op.gate.body? = some body → body.Reachable
  | appendGate gate _ _ => ∀ body, gate.body? = some body → body.Reachable
  | replace _ ops _ =>
      ∀ op ∈ ops, op.Made ∧ ∀ body, op.gate.body? = some body → body.Reachable
  | substitute rule _ => rule.templateBody.Reachable
  | runPass pass _ => pass.BuiltIn
  | runPipeline pipeline _ => ∀ pass ∈ pipeline.passes, pass.BuiltIn
  | add .. | levelPhase .. | remove _ | flatten => True

/-! ## Short forms -/

theorem Circuit.appendGate?_of_add? {c c' : Circuit θ} {gate : QubitGate} {wires : List Wire}
    {params : List θ} (h : c.add? gate wires params = .ok c') :
    ∃ point, c.appendGate? (.primitive (.qubit gate)) wires params = .ok (point, c') :=
  Program.changed?_discard_eq_ok_iff.mp h

theorem Circuit.appendGate?_of_levelPhase? {c c' : Circuit θ} {level : Nat} {wire : Wire}
    (h : c.levelPhase? level wire = .ok c') :
    ∃ gate point, c.appendGate? (.primitive gate) [wire] [] = .ok (point, c') := by
  rw [levelPhase?, Mutation.levelPhase, Program.changed?_query_bind] at h
  obtain ⟨levels, -, h⟩ := bind_eq_ok_iff.mp h
  rw [Program.changed?_query_bind] at h
  obtain ⟨gate, -, h⟩ := bind_eq_ok_iff.mp h
  exact ⟨_, Program.changed?_discard_eq_ok_iff.mp h⟩

theorem Circuit.atomic_add (gate : QubitGate) (wires : List Wire) (params : List θ) :
    (Mutation.add gate wires params).Atomic :=
  (atomic_appendGate _ _ _).discard

theorem Circuit.atomic_levelPhase (level : Nat) (wire : Wire) :
    (Mutation.levelPhase level wire : Mutation θ _ _).Atomic :=
  .query_bind fun _ => .query_bind fun _ => (atomic_appendGate _ _ _).discard

/-! ## Refused calls -/

/-- The call fails and asks for all or nothing.  A pipeline asks for less. -/
def Call.Refused (c : Circuit θ) : Call θ → Prop
  | append op => ∃ e, c.append? op = .error e
  | appendGate gate wires params => ∃ e, c.appendGate? gate wires params = .error e
  | add gate wires params => ∃ e, c.add? gate wires params = .error e
  | levelPhase level wire => ∃ e, c.levelPhase? level wire = .error e
  | remove point => ∃ e, c.remove? point = .error e
  | replace points ops accepts => ∃ e, c.replace? points ops accepts = .error e
  | substitute rule sites => ∃ e, rule.substitute c sites = .error e
  | runPass pass properties => ∃ e left, pass.run ⟨c, properties⟩ = .error e left
  | flatten | runPipeline .. => False

theorem Pass.BuiltIn.atomic {pass : Pass θ F} (hpass : pass.BuiltIn) : pass.run.Atomic := by
  cases hpass with
  | flatten => exact Pass.atomic_flatten
  | @rule rule _ => exact rule.atomic_pass

/-- A refused call leaves the circuit as it was. -/
theorem Call.perform_of_refused {c : Circuit θ} {call : Call θ} (hcall : call.Admissible)
    (h : call.Refused c) : call.perform c = c := by
  cases call with
  | append op =>
      obtain ⟨e, happend⟩ := h
      exact (Circuit.atomic_append op).after_of_error happend
  | appendGate gate wires params =>
      obtain ⟨e, happend⟩ := h
      exact (Circuit.atomic_appendGate gate wires params).after_of_error happend
  | add gate wires params =>
      obtain ⟨e, hadd⟩ := h
      exact (Circuit.atomic_add gate wires params).after_of_changed?_eq_error hadd
  | levelPhase level wire =>
      obtain ⟨e, hphase⟩ := h
      exact (Circuit.atomic_levelPhase level wire).after_of_changed?_eq_error hphase
  | remove point =>
      obtain ⟨e, hremove⟩ := h
      exact (Circuit.atomic_remove point).after_of_error hremove
  | replace points ops accepts =>
      obtain ⟨e, hreplace⟩ := h
      exact (Circuit.atomic_replace points ops accepts).after_of_changed?_eq_error hreplace
  | substitute rule sites =>
      obtain ⟨e, hsubstitute⟩ := h
      exact (rule.atomic_substitute sites).after_of_changed?_eq_error hsubstitute
  | flatten => exact h.elim
  | runPass pass properties =>
      obtain ⟨e, left, hrun⟩ := h
      have hafter := (Pass.BuiltIn.atomic hcall).after_of_error
        (Program.outcome_eq_error_iff.mpr ⟨left, hrun⟩)
      exact congrArg Workspace.circuit hafter
  | runPipeline pipeline properties => exact h.elim

/-! ## Calls keep circuits reachable -/

namespace Circuit.Reachable

variable {c : Circuit θ} (h : c.Reachable)
include h

theorem add {gate : QubitGate} {wires : List Wire} {params : List θ} {c' : Circuit θ}
    (hadd : c.add? gate wires params = .ok c') : c'.Reachable := by
  obtain ⟨point, happend⟩ := appendGate?_of_add? hadd
  exact h.appendGate (by simp [Gate.body?]) happend

theorem levelPhase {level : Nat} {wire : Wire} {c' : Circuit θ}
    (hphase : c.levelPhase? level wire = .ok c') : c'.Reachable := by
  obtain ⟨gate, point, happend⟩ := appendGate?_of_levelPhase? hphase
  exact h.appendGate (by simp [Gate.body?]) happend

theorem substitute {rule : SubstitutionRule θ} (htemplate : rule.templateBody.Reachable)
    {sites : List Site} {c' : Circuit θ} (hsubstitute : rule.substitute c sites = .ok c') :
    c'.Reachable := by
  obtain ⟨hmade, hreplace⟩ := SubstitutionRule.substitute_eq_ok_iff.mp hsubstitute
  refine .replace h (List.forall_mem_map.mpr hmade) (List.forall_mem_map.mpr ?_) hreplace
  rintro site - body ⟨⟩
  exact htemplate

/-- A pass of the library keeps circuits reachable, also when it fails. -/
theorem after_pass {pass : Pass θ F} (hpass : pass.BuiltIn) (properties : Properties F) :
    (pass.run.after ⟨c, properties⟩).circuit.Reachable := by
  cases hpass with
  | flatten => exact .flatten h
  | @rule rule htemplate =>
      rcases rule.circuit_after_pass c properties with heq | ⟨n, happly⟩
      · rw [heq]
        exact h
      · exact .apply h htemplate happly

theorem perform {call : Call θ} (hcall : call.Admissible) : (call.perform c).Reachable := by
  cases call with
  | append op =>
      exact (atomic_append op).after_induction h fun _ _ => .append h hcall.1 hcall.2
  | appendGate gate wires params =>
      exact (atomic_appendGate gate wires params).after_induction h fun _ _ => h.appendGate hcall
  | add gate wires params =>
      exact (atomic_add gate wires params).after_induction_changed? h fun _ => h.add
  | levelPhase level wire =>
      exact (atomic_levelPhase level wire).after_induction_changed? h fun _ => h.levelPhase
  | remove point => exact (atomic_remove point).after_induction h fun _ _ => .remove h
  | replace points ops accepts =>
      exact (atomic_replace points ops accepts).after_induction_changed? h fun _ =>
        .replace h (fun op hop => (hcall op hop).1) fun op hop => (hcall op hop).2
  | substitute rule sites =>
      exact (rule.atomic_substitute sites).after_induction_changed? h fun _ => h.substitute hcall
  | flatten => exact .flatten h
  | runPass pass properties => exact h.after_pass hcall properties
  | runPipeline pipeline properties =>
      exact Pipeline.circuit_after (P := Circuit.Reachable) (fun pass hpass c properties hc =>
        after_pass hc (hcall pass hpass) properties) h properties

theorem after {calls : List (Call θ)} (hcalls : ∀ call ∈ calls, call.Admissible) :
    (c.after calls).Reachable :=
  List.foldlRecOn calls _ h fun _ hd call hcall => hd.perform (hcalls call hcall)

end Circuit.Reachable

/-! ## Reachable circuits come from runs -/

/-- The reachable circuits are those that come from a circuit without cycles by calls. -/
theorem Circuit.reachable_iff_exists_calls {c : Circuit θ} :
    c.Reachable ↔ ∃ R calls, (∀ call ∈ calls, Call.Admissible call) ∧
      c = (Circuit.empty R).after calls := by
  constructor
  · intro h
    -- Each step is one more call at the end of the run.
    have hstep : ∀ (call : Call θ) {c d : Circuit θ}, call.Admissible → call.perform c = d →
        (∃ R calls, (∀ call ∈ calls, Call.Admissible call) ∧
          c = (Circuit.empty R).after calls) →
        ∃ R calls, (∀ call ∈ calls, Call.Admissible call) ∧
          d = (Circuit.empty R).after calls := by
      rintro call _ _ hcall rfl ⟨R, calls, hcalls, rfl⟩
      refine ⟨R, calls ++ [call], ?_, ?_⟩
      · exact List.forall_mem_append.mpr ⟨hcalls, List.forall_mem_singleton.mpr hcall⟩
      · rw [after, after, List.foldl_append]
        rfl
    induction h with
    | empty R => exact ⟨R, [], by simp, rfl⟩
    | @append c c' op point _ hmade hbody happend ih =>
        exact hstep (.append op) ⟨hmade, hbody⟩ (Program.after_of_ok happend) ih
    | @remove c c' op point _ hremove ih =>
        exact hstep (.remove point) trivial (Program.after_of_ok hremove) ih
    | @replace c c' points ops accepts _ hmade hbody hreplace ih =>
        obtain ⟨_, hreplaced⟩ := Program.changed?_eq_ok_iff.mp hreplace
        exact hstep (.replace points ops accepts) (fun op hop => ⟨hmade op hop, hbody op hop⟩)
          (Program.after_of_ok hreplaced) ih
    | flatten _ ih => exact hstep .flatten trivial rfl ih
    | @apply c c' rule replaced _ htemplate happly ih =>
        refine hstep (.runPass rule.pass .empty) (.rule htemplate) ?_ ih
        rw [Call.perform, Program.after, SubstitutionRule.run_pass_eq_ok .empty happly]
  · rintro ⟨R, calls, hcalls, rfl⟩
    exact (Reachable.empty R).after hcalls

/-! ## Coherence after every run -/

/-- After every run of calls, refused ones included, the circuit and every body inside it is
coherent.  So equality of circuits, which compares slots as well, is equality of the registers and of
the operations cycle by cycle. -/
theorem Circuit.coherent_after [BEq θ] {R : Register} {calls : List (Call θ)}
    (hcalls : ∀ call ∈ calls, call.Admissible) :
    (∀ d, ((Circuit.empty R).after calls).Encloses d → d.Coherent) ∧
      ∀ S calls', (∀ call ∈ calls', Call.Admissible call) →
        ∀ d d', ((Circuit.empty R).after calls).Encloses d →
          ((Circuit.empty S).after calls').Encloses d' →
          (d == d') = (d.register == d'.register &&
            d.cycles.map Cycle.operations == d'.cycles.map Cycle.operations) := by
  have hwell := ((Reachable.empty R).after hcalls).wellFormed
  refine ⟨fun d hd => (hwell.of_encloses hd).coherent, fun S calls' hcalls' d d' hd hd' => ?_⟩
  have hwell' := ((Reachable.empty S).after hcalls').wellFormed
  exact (hwell.of_encloses hd).beq_eq (hwell'.of_encloses hd')

/-- A controlled phase flip and a rotation, under a name. -/
def turnedFlip : Gate Nat :=
  .block "turned_flip" (.ofOperations (.qubits 2)
    [⟨.primitive (.qubit .cz), [0, 1], []⟩, ⟨.primitive (.qubit .rz), [1], [0]⟩])

/-- A bit flip as a phase flip between two Hadamard gates. -/
def flipByPhase : SubstitutionRule Nat where
  name := "x_to_hzh"
  source := .qubit .x
  templateName := "hzh"
  templateBody := .ofOperations (.qubits 1)
    [⟨.primitive (.qubit .h), [0], []⟩, ⟨.primitive (.qubit .z), [0], []⟩,
      ⟨.primitive (.qubit .h), [0], []⟩]
  source_numParams := rfl
  template_register := by decide

theorem reachable_flipByPhase : flipByPhase.templateBody.Reachable :=
  .ofOperations _ (by decide) (by simp [Gate.body?])

/-- Calls on three qubits.  The second, fourth and fifth are refused: a wire is named twice, a qubit
has no third level, and the fifth cycle does not exist. -/
def mixedCalls : List (Call Nat) :=
  [.add .h [0] [], .add .cx [0, 0] [], .append ⟨turnedFlip, [2, 0], [7]⟩, .levelPhase 2 1,
    .remove ⟨4, 0⟩,
    .replace [⟨1, 0⟩, ⟨0, 0⟩] [⟨turnedFlip, [0, 2], [8]⟩, ⟨.primitive (.qubit .x), [0], []⟩]
      fun _ => true,
    .appendGate (.primitive (.qubit .swap)) [1, 0] [], .remove ⟨2, 1⟩]

/-- The same calls, and then a pipeline and one more block. -/
def pipelineCalls : List (Call Nat) :=
  mixedCalls ++
    [.runPipeline ⟨[flipByPhase.pass, .flatten]⟩ .empty, .append ⟨turnedFlip, [1, 2], [9]⟩]

theorem reachable_of_body?_turnedFlip (body : Circuit Nat) (h : turnedFlip.body? = some body) :
    body.Reachable := by
  cases h
  exact .ofOperations _ (by decide) (by simp [Gate.body?])

theorem admissible_pipelineCalls : ∀ call ∈ pipelineCalls, call.Admissible := by
  have hblock : ∀ wires params, (⟨turnedFlip, wires, params⟩ : Operation Nat).Made →
      (⟨turnedFlip, wires, params⟩ : Operation Nat).Made ∧
        ∀ body, turnedFlip.body? = some body → body.Reachable :=
    fun _ _ hmade => ⟨hmade, reachable_of_body?_turnedFlip⟩
  simp only [pipelineCalls, mixedCalls, List.cons_append, List.nil_append, List.forall_mem_cons,
    Call.Admissible, List.not_mem_nil, false_imp_iff, implies_true, and_true, true_and]
  refine ⟨hblock _ _ (by decide), ⟨hblock _ _ (by decide), by decide, by simp [Gate.body?]⟩,
    by simp [Gate.body?], ⟨.rule reachable_flipByPhase, .flatten⟩, hblock _ _ (by decide)⟩

theorem coherent_after_pipelineCalls :
    (∀ call ∈ pipelineCalls, call.Admissible) ∧
      (((Circuit.empty (.qubits 3)).after mixedCalls).operations.map fun op =>
        (op.gate.name, op.wires, op.params)) = [("x", [0], []), ("turned_flip", [0, 2], [8])] ∧
      (∀ d, ((Circuit.empty (.qubits 3)).after pipelineCalls).Encloses d → d.Coherent) :=
  ⟨admissible_pipelineCalls, by decide, (Circuit.coherent_after admissible_pipelineCalls).1⟩

end QuditCircuits
