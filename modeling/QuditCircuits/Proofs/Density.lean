import QuditCircuits.Proofs.OpenedLayout
import QuditCircuits.Proofs.Runs

/-!
# Circuits without empty cycles

A circuit is dense if its depth is its number of cycles, which means that every cycle holds an
operation.  Removing makes holes.  Nothing else does, provided that the blocks that go in are *solid*:
every body inside them, at any depth, is dense and has a cycle.

The invariant is that the circuit is dense and all its gates are solid (`Circuit.Solid`).

* A cycle is only added for the operation that lands there, and a replacement leaves every slot occupied.
* A run is either as long as one of the bodies of its cycle, and then this body has an operation for each
  of its cycles; or it has one cycle, and then anything that the cycle holds has an operation for it.

The bodies become part of the circuit when they are opened, so what is asked of the inner bodies is
needed for the next level.
-/

namespace QuditCircuits

variable {θ : Type} {F : PropertyFamily}

/-! ## Dense circuits and solid gates -/

/-- The depth is the number of cycles. -/
def Circuit.Dense (c : Circuit θ) : Prop :=
  c.depth = c.numCycles

instance (c : Circuit θ) : Decidable c.Dense :=
  inferInstanceAs (Decidable (c.depth = c.numCycles))

/-- Whether every body inside the gate, at any depth, has a cycle and is dense. -/
def Gate.isSolid (gate : Gate θ) : Bool :=
  gate.fold (fun _ => true) fun _ body parts =>
    decide (0 < body.numCycles) && decide body.Dense && parts.all Prod.snd

/-- A dense circuit whose gates are solid. -/
structure Circuit.Solid (c : Circuit θ) : Prop where
  dense : c.Dense
  gates : ∀ op ∈ c.operations, op.gate.isSolid = true

theorem Gate.isSolid_primitive (gate : Primitive) : (Gate.primitive gate : Gate θ).isSolid = true :=
  rfl

theorem Gate.isSolid_iff_of_body? {gate : Gate θ} {body : Circuit θ} (h : gate.body? = some body) :
    gate.isSolid = true ↔ 0 < body.numCycles ∧ body.Solid := by
  cases gate with
  | primitive gate => cases h
  | block name inner =>
      obtain rfl : inner = body := Option.some.inj h
      rw [isSolid, fold_block]
      simp only [Bool.and_eq_true, decide_eq_true_eq, List.all_map, List.all_eq_true,
        Function.comp_apply, and_assoc]
      exact and_congr_right fun _ => ⟨fun ⟨hdense, hgates⟩ => ⟨hdense, hgates⟩,
        fun hsolid => ⟨hsolid.dense, hsolid.gates⟩⟩

namespace Circuit

variable {c : Circuit θ}

theorem dense_iff : c.Dense ↔ ∀ cycle ∈ c.cycles, cycle.operations ≠ [] := by
  rw [Dense, depth, numCycles, List.countP_eq_length]
  simp

theorem dense_iff_scheduled : c.Dense ↔ ∀ k < c.numCycles, ∃ op, (k, op) ∈ c.scheduled := by
  rw [dense_iff, List.forall_mem_iff_getElem]
  refine forall₂_congr fun k hk => ?_
  simp only [mem_scheduled_iff_mem_cycle, List.getElem?_eq_getElem hk, Option.some.injEq,
    exists_eq_left']
  exact ⟨List.exists_mem_of_ne_nil _, fun ⟨_, hop⟩ => List.ne_nil_of_mem hop⟩

theorem solid_iff : c.Solid ↔ (∀ k < c.numCycles, ∃ op, (k, op) ∈ c.scheduled) ∧
    ∀ k op, (k, op) ∈ c.scheduled → op.gate.isSolid = true := by
  constructor
  · rintro ⟨hdense, hgates⟩
    exact ⟨dense_iff_scheduled.mp hdense,
      fun k op hop => hgates op (mem_operations_of_mem_scheduled hop)⟩
  · rintro ⟨hdense, hgates⟩
    refine ⟨dense_iff_scheduled.mpr hdense, fun op hop => ?_⟩
    obtain ⟨k, slot, hat⟩ := mem_operations_iff.mp hop
    exact hgates k op (mem_scheduled_iff.mpr ⟨slot, hat⟩)

/-! ## Appending and replacing -/

theorem solid_empty (R : Register) : (Circuit.empty R : Circuit θ).Solid :=
  ⟨rfl, by simp [operations, empty]⟩

/-- The operation that is added fills the cycle that may be added for it. -/
theorem Solid.insertAt (h : c.Solid) {k : Nat} (hk : k ≤ c.numCycles) {op : Operation θ}
    (hop : op.gate.isSolid = true) : (c.insertAt k op).Solid := by
  obtain ⟨hdense, hgates⟩ := solid_iff.mp h
  refine solid_iff.mpr ⟨fun j hj => ?_, fun j other hother => ?_⟩
  · by_cases hjk : j = k
    · exact ⟨op, (mem_scheduled_insertAt hk).mpr (.inr ⟨hjk, rfl⟩)⟩
    · rw [numCycles_insertAt] at hj
      have hlt : j < c.numCycles := by
        split at hj <;> omega
      obtain ⟨old, hold⟩ := hdense j hlt
      exact ⟨old, (mem_scheduled_insertAt hk).mpr (.inl hold)⟩
  · rcases (mem_scheduled_insertAt hk).mp hother with hold | ⟨-, rfl⟩
    · exact hgates j other hold
    · exact hop

theorem Solid.append (h : c.Solid) {op : Operation θ} (hop : op.gate.isSolid = true) {point : Point}
    {c' : Circuit θ} (happend : c.append? op = .ok (point, c')) : c'.Solid := by
  obtain ⟨-, anchor, -, -, rfl⟩ := append?_eq_ok_iff.mp happend
  exact h.insertAt (landing_le_length op.wires c.cycles) hop

theorem Solid.appendGate (h : c.Solid) {gate : Gate θ} (hgate : gate.isSolid = true)
    {wires : List Wire} {params : List θ} {point : Point} {c' : Circuit θ}
    (happend : c.appendGate? gate wires params = .ok (point, c')) : c'.Solid :=
  h.append hgate (append?_of_appendGate? happend).2

/-- A slot that is overwritten stays occupied. -/
theorem Solid.overwrite (h : c.Solid) {r : Replacement θ} (hr : r.operation.gate.isSolid = true) :
    (c.overwrite r).Solid := by
  obtain ⟨hdense, hgates⟩ := solid_iff.mp h
  simp only [mem_scheduled_iff] at hdense hgates
  refine solid_iff.mpr ⟨fun k hk => ?_, fun k op hop => ?_⟩
  · obtain ⟨old, slot, hold⟩ := hdense k (hk.trans_eq (length_cycles_overwrite c r))
    by_cases hkey : (k, slot) = r.key
    · refine ⟨r.operation, mem_scheduled_iff.mpr ⟨slot, ?_⟩⟩
      rw [operationAt_overwrite, if_pos hkey, hold]
      rfl
    · refine ⟨old, mem_scheduled_iff.mpr ⟨slot, ?_⟩⟩
      rw [operationAt_overwrite, if_neg hkey, hold]
  · obtain ⟨slot, hat⟩ := mem_scheduled_iff.mp hop
    rw [operationAt_overwrite] at hat
    split at hat
    · obtain ⟨old, -, rfl⟩ := Option.map_eq_some_iff.mp hat
      exact hr
    · exact hgates k op ⟨slot, hat⟩

theorem Solid.replace (h : c.Solid) {points : List Point} {ops : List (Operation θ)}
    {accepts : Operation θ → Bool} (hops : ∀ op ∈ ops, op.gate.isSolid = true) {c' : Circuit θ}
    (hreplace : c.replace? points ops accepts = .ok c') : c'.Solid := by
  obtain ⟨-, plan, hplan, -, rfl⟩ := replace?_eq_ok_iff.mp hreplace
  refine List.foldlRecOn plan _ h fun d hd r hr => hd.overwrite ?_
  obtain ⟨pair, hop, hresolves⟩ := exists_resolves_of_mem_plan hplan hr
  exact hresolves.operation_eq ▸ hops _ hop

end Circuit

/-! ## Opening levels -/

/-- A solid block has an operation for every cycle of its body. -/
theorem Operation.exists_mem_opened {op : Operation θ} (h : op.gate.isSolid = true)
    {body : Circuit θ} (hbody : op.gate.body? = some body) {j : Nat} (hj : j < body.numCycles) :
    ∃ sub, (j, sub) ∈ op.opened := by
  have hsolid := ((Gate.isSolid_iff_of_body? hbody).mp h).2
  obtain ⟨inner, hinner⟩ := Circuit.dense_iff_scheduled.mp hsolid.dense j hj
  obtain ⟨slot, hat⟩ := Circuit.mem_scheduled_iff.mp hinner
  exact ⟨_, (mem_opened_of_block hbody).mpr ⟨slot, inner, hat, rfl⟩⟩

theorem Operation.exists_mem_opened_zero {op : Operation θ} (h : op.gate.isSolid = true) :
    ∃ sub, (0, sub) ∈ op.opened := by
  cases hbody : op.gate.body? with
  | none => exact ⟨op, (mem_opened_of_primitive hbody).mpr ⟨rfl, rfl⟩⟩
  | some body => exact exists_mem_opened h hbody ((Gate.isSolid_iff_of_body? hbody).mp h).1

/-- What a solid operation becomes is solid. -/
theorem Operation.isSolid_of_mem_opened {op sub : Operation θ} (h : op.gate.isSolid = true) {j : Nat}
    (hsub : (j, sub) ∈ op.opened) : sub.gate.isSolid = true := by
  cases hbody : op.gate.body? with
  | none =>
      obtain ⟨-, rfl⟩ := (mem_opened_of_primitive hbody).mp hsub
      exact h
  | some body =>
      obtain ⟨slot, inner, hinner, rfl⟩ := (mem_opened_of_block hbody).mp hsub
      exact ((Gate.isSolid_iff_of_body? hbody).mp h).2.gates inner
        (Circuit.mem_operations_iff.mpr ⟨j, slot, hinner⟩)

/-- The run of a cycle with an operation has no empty cycle. -/
theorem Cycle.exists_mem_opened {cycle : Cycle θ} (hne : cycle.operations ≠ [])
    (hsolid : ∀ op ∈ cycle.operations, op.gate.isSolid = true) {j : Nat} (hj : j < cycle.height) :
    ∃ op ∈ cycle.operations, ∃ sub, (j, sub) ∈ op.opened := by
  rcases cycle.height_eq_one_or with hone | ⟨op, hop, body, hbody, hheight⟩
  · obtain ⟨op, hop⟩ := List.exists_mem_of_ne_nil _ hne
    obtain rfl : j = 0 := by omega
    exact ⟨op, hop, Operation.exists_mem_opened_zero (hsolid op hop)⟩
  · exact ⟨op, hop, Operation.exists_mem_opened (hsolid op hop) hbody (hheight ▸ hj)⟩

namespace Circuit

variable {c : Circuit θ}

theorem Solid.openBlocks (h : c.Solid) : c.openBlocks.Solid := by
  refine solid_iff.mpr ⟨fun m hm => ?_, fun m sub hsub => ?_⟩
  · obtain ⟨k, cycle, j, hcycle, hj, rfl⟩ := exists_of_lt_numCycles_openBlocks hm
    have hmem : cycle ∈ c.cycles := List.mem_of_getElem? hcycle
    obtain ⟨op, hop, sub, hsub⟩ := Cycle.exists_mem_opened (dense_iff.mp h.dense cycle hmem)
      (fun op hop => h.gates op (List.mem_flatMap.mpr ⟨cycle, hmem, hop⟩)) hj
    have hscheduled : (k, op) ∈ c.scheduled := mem_scheduled_iff_mem_cycle.mpr ⟨cycle, hcycle, hop⟩
    exact ⟨sub, mem_scheduled_openBlocks.mpr ⟨k, op, j, hscheduled, hsub, rfl⟩⟩
  · obtain ⟨k, op, j, hop, hopened, -⟩ := mem_scheduled_openBlocks.mp hsub
    exact Operation.isSolid_of_mem_opened (h.gates op (mem_operations_of_mem_scheduled hop)) hopened

theorem Solid.flatten (h : c.Solid) : c.flatten.1.Solid :=
  flatten_induct (P := Solid) (fun _ hsolid => hsolid.openBlocks) h

end Circuit

/-! ## Calls -/

/-- The passes of the library, with a solid template. -/
inductive Pass.Solid : Pass θ F → Prop
  | flatten : Solid .flatten
  | rule {rule : SubstitutionRule θ} : rule.template.isSolid = true → Solid (rule.pass F)

/-- A call that removes nothing and is given solid gates and templates only. -/
def Call.Solid : Call θ → Prop
  | append op => op.gate.isSolid = true
  | appendGate gate _ _ => gate.isSolid = true
  | replace _ ops _ => ∀ op ∈ ops, op.gate.isSolid = true
  | substitute rule _ => rule.template.isSolid = true
  | runPass pass _ => pass.Solid
  | runPipeline pipeline _ => ∀ pass ∈ pipeline.passes, pass.Solid
  | remove _ => False
  | add .. | levelPhase .. | flatten => True

namespace Circuit.Solid

variable {c c' : Circuit θ} (h : c.Solid)
include h

theorem add {gate : QubitGate} {wires : List Wire} {params : List θ}
    (hadd : c.add? gate wires params = .ok c') : c'.Solid := by
  obtain ⟨point, happend⟩ := appendGate?_of_add? hadd
  exact h.appendGate (Gate.isSolid_primitive _) happend

theorem levelPhase {level : Nat} {wire : Wire} (hphase : c.levelPhase? level wire = .ok c') :
    c'.Solid := by
  obtain ⟨gate, point, happend⟩ := appendGate?_of_levelPhase? hphase
  exact h.appendGate (Gate.isSolid_primitive gate) happend

theorem substitute {rule : SubstitutionRule θ} (htemplate : rule.template.isSolid = true)
    {sites : List Site} (hsubstitute : rule.substitute c sites = .ok c') : c'.Solid := by
  obtain ⟨-, hreplace⟩ := SubstitutionRule.substitute_eq_ok_iff.mp hsubstitute
  exact h.replace (List.forall_mem_map.mpr fun _ _ => htemplate) hreplace

/-- A pass leaves a solid circuit behind, also when it fails. -/
theorem after_pass {pass : Pass θ F} (hpass : pass.Solid) (properties : Properties F) :
    (pass.run.after ⟨c, properties⟩).circuit.Solid := by
  cases hpass with
  | flatten => exact h.flatten
  | @rule rule htemplate =>
      rcases rule.circuit_after_pass c properties with heq | ⟨n, happly⟩
      · rw [heq]
        exact h
      · obtain ⟨d, hsubstitute, hflat, -⟩ := SubstitutionRule.apply_eq_ok_iff.mp happly
        rw [hflat]
        exact (h.substitute htemplate hsubstitute).flatten

theorem perform {call : Call θ} (hcall : call.Solid) : (call.perform c).Solid := by
  cases call with
  | append op => exact (atomic_append op).after_induction h fun _ _ => h.append hcall
  | appendGate gate wires params =>
      exact (atomic_appendGate gate wires params).after_induction h fun _ _ => h.appendGate hcall
  | add gate wires params =>
      exact (atomic_add gate wires params).after_induction_changed? h fun _ => h.add
  | levelPhase level wire =>
      exact (atomic_levelPhase level wire).after_induction_changed? h fun _ => h.levelPhase
  | remove point => exact hcall.elim
  | replace points ops accepts =>
      exact (atomic_replace points ops accepts).after_induction_changed? h fun _ => h.replace hcall
  | substitute rule sites =>
      exact (rule.atomic_substitute sites).after_induction_changed? h fun _ => h.substitute hcall
  | flatten => exact h.flatten
  | runPass pass properties => exact h.after_pass hcall properties
  | runPipeline pipeline properties =>
      exact Pipeline.circuit_after (P := Circuit.Solid) (fun pass hpass c properties hc =>
        after_pass hc (hcall pass hpass) properties) h properties

theorem after {calls : List (Call θ)} (hcalls : ∀ call ∈ calls, call.Solid) :
    (c.after calls).Solid :=
  List.foldlRecOn calls _ h fun _ hd call hcall => hd.perform (hcalls call hcall)

end Circuit.Solid

/-! ## No cycle is empty -/

/-- Whatever is called on a circuit without cycles, as long as nothing is removed and all gates and
templates that are used are solid: after each call, refused or not, the depth is the number of cycles and
no cycle is empty. -/
theorem Circuit.dense_after {R : Register} {calls : List (Call θ)}
    (hcalls : ∀ call ∈ calls, call.Solid) :
    ∀ before, before <+: calls →
      ((Circuit.empty R).after before).depth = ((Circuit.empty R).after before).numCycles ∧
        ∀ cycle ∈ ((Circuit.empty R).after before).cycles, cycle.operations ≠ [] := by
  intro before hbefore
  have hsolid : ((Circuit.empty R).after before).Solid :=
    (solid_empty R).after fun call hcall => hcalls call (hbefore.mem hcall)
  exact ⟨hsolid.dense, dense_iff.mp hsolid.dense⟩

/-- Calls on five qubits.  Blocks with bodies of three cycles and of two share a cycle with a flip and
are flattened; then the flip is exchanged for its template, and a gate that came out of a block for
another block.  The fourth call is refused, because it names a wire twice. -/
def fillingCalls : List (Call Nat) :=
  [.append ⟨nestedPair, [2, 0], [10, 11, 12]⟩, .append ⟨rotatedPair, [1, 3], [14]⟩, .add .x [4] [],
    .add .cx [0, 0] [], .flatten, .runPass flipByPhase.pass .empty,
    .replace [⟨3, 2⟩] [⟨turnedFlip, [2, 0], [8]⟩] fun _ => true, .flatten,
    .append ⟨turnedFlip, [3, 4], [9]⟩, .runPipeline ⟨[flipByPhase.pass, .flatten]⟩ .empty]

theorem solid_fillingCalls : ∀ call ∈ fillingCalls, call.Solid := by
  have htemplate : flipByPhase.template.isSolid = true := by decide
  have hnested : nestedPair.isSolid = true := by decide
  have hpair : rotatedPair.isSolid = true := by decide
  have hturned : turnedFlip.isSolid = true := by decide
  simpa [fillingCalls, Call.Solid, hnested, hpair, hturned] using
    ⟨Pass.Solid.rule htemplate, Pass.Solid.flatten⟩

theorem dense_after_fillingCalls :
    (∀ call ∈ fillingCalls, call.Solid) ∧
      ((Circuit.empty (.qubits 5)).after (fillingCalls.take 4)).layers.map
        (List.map fun op => op.gate.name) = [["nested", "pair", "x"]] ∧
      ((Circuit.empty (.qubits 5)).after (fillingCalls.take 4)).openBlocks.layers.map
        (List.map fun op => op.gate.name) = [["pair", "rz", "x"], ["rz", "cx"], ["pair"]] ∧
      ∀ n, ((Circuit.empty (.qubits 5)).after (fillingCalls.take n)).depth =
        ((Circuit.empty (.qubits 5)).after (fillingCalls.take n)).numCycles :=
  ⟨solid_fillingCalls, by decide, by decide, fun n =>
    (Circuit.dense_after solid_fillingCalls _ (List.take_prefix n fillingCalls)).1⟩

end QuditCircuits
