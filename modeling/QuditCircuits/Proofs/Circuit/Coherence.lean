import QuditCircuits.Circuit.Equality
import QuditCircuits.Proofs.Circuit.Replacement
import QuditCircuits.Proofs.Circuit.WireOrder

/-!
# What can be read off a well-formed circuit

Slots add nothing to the operations: in a well-formed cycle they are determined by the wires of the
operations.  So looking a point up is searching its cycle for an operation on its wire, and two
well-formed circuits with the same register and the same operations cycle by cycle are equal.
`Circuit.Coherent` says what this means for a circuit, without naming the wires that are free; it
holds of a well-formed circuit and of every body inside it.
-/

namespace QuditCircuits

variable {θ : Type}

/-! ## Slots are determined by wires -/

/-- Whether the operation in a slot acts on a wire depends on the wires of the operations alone. -/
theorem Cycle.exists_on_wire_iff {cycle cycle' : Cycle θ}
    (hwires : cycle.operations.map Operation.wires = cycle'.operations.map Operation.wires)
    (wire : Wire) (slot : Nat) : (∃ op, cycle.operations[slot]? = some op ∧ wire ∈ op.wires) ↔
      ∃ op, cycle'.operations[slot]? = some op ∧ wire ∈ op.wires := by
  have hat := congrArg (fun l => ∃ wires, l[slot]? = some wires ∧ wire ∈ wires) hwires
  simp only [List.getElem?_map, Option.map_eq_some_iff, exists_exists_and_eq_and] at hat
  rw [hat]

theorem Cycle.Indexed.slots_eq {width : Nat} {cycle cycle' : Cycle θ} (h : cycle.Indexed width)
    (h' : cycle'.Indexed width)
    (hwires : cycle.operations.map Operation.wires = cycle'.operations.map Operation.wires) :
    cycle.slots = cycle'.slots := by
  have hslot : ∀ wire, cycle.slot? wire = cycle'.slot? wire := by
    intro wire
    apply Option.ext
    intro slot
    rw [h.slot?_eq_some_iff, h'.slot?_eq_some_iff, Cycle.exists_on_wire_iff hwires]
  refine List.ext_getElem (h.length_slots.trans h'.length_slots.symm) fun wire hlt hlt' => ?_
  simpa [slot?, hlt, hlt'] using hslot wire

/-- Cycles of one width with the same operations are equal. -/
theorem Cycle.Indexed.ext {width : Nat} {cycle cycle' : Cycle θ} (h : cycle.Indexed width)
    (h' : cycle'.Indexed width) (hops : cycle.operations = cycle'.operations) : cycle = cycle' := by
  have hslots := h.slots_eq h' (congrArg (List.map Operation.wires) hops)
  cases cycle
  cases cycle'
  cases hops
  cases hslots
  rfl

/-- Well-formed circuits with the same register and the same operations in every cycle are equal. -/
theorem Circuit.WellFormed.ext {c d : Circuit θ} (hc : c.WellFormed) (hd : d.WellFormed)
    (hregister : c.register = d.register)
    (hcycles : c.cycles.map Cycle.operations = d.cycles.map Cycle.operations) : c = d := by
  obtain ⟨R, cycles⟩ := c
  obtain ⟨S, cycles'⟩ := d
  obtain rfl : R = S := hregister
  have hlen : cycles.length = cycles'.length := by simpa using congrArg List.length hcycles
  have hall : cycles = cycles' := by
    refine List.ext_getElem hlen fun k hk hk' => ?_
    have hops : cycles[k].operations = cycles'[k].operations := by
      simpa [hk, hk'] using congrArg (fun l => l[k]?) hcycles
    exact (hc.indexed _ (List.getElem_mem hk)).ext (hd.indexed _ (List.getElem_mem hk')) hops
  rw [hall]

/-- The same, slot by slot. -/
theorem Circuit.WellFormed.ext_operationAt {c d : Circuit θ} (hc : c.WellFormed)
    (hd : d.WellFormed) (hregister : c.register = d.register)
    (hlen : c.cycles.length = d.cycles.length)
    (hat : ∀ k slot, c.operationAt k slot = d.operationAt k slot) : c = d := by
  refine hc.ext hd hregister ?_
  simpa using Circuit.map_operations_eq_map (f := id) hlen (by simpa using hat)

/-! ## Equality -/

section Equality

variable [BEq θ]

/-- Operations that compare equal lie on the same wires, whatever the comparison of parameters. -/
theorem Operation.wires_eq_of_beq {op op' : Operation θ} (h : (op == op') = true) :
    op.wires = op'.wires := by
  obtain ⟨gate, wires, params⟩ := op
  obtain ⟨gate', wires', params'⟩ := op'
  change (gate.beq gate' && wires == wires' && params == params') = true at h
  simp only [Bool.and_eq_true, beq_iff_eq] at h
  exact h.1.2

theorem Operation.map_wires_eq_of_beq {ops ops' : List (Operation θ)} (h : (ops == ops') = true) :
    ops.map Operation.wires = ops'.map Operation.wires := by
  induction ops generalizing ops' with
  | nil =>
      cases ops' with
      | nil => rfl
      | cons op' ops' => cases h
  | cons op ops ih =>
      cases ops' with
      | nil => cases h
      | cons op' ops' =>
          obtain ⟨hhead, htail⟩ := Bool.and_eq_true_iff.mp h
          rw [List.map_cons, List.map_cons, wires_eq_of_beq hhead, ih htail]

/-- Cycles of one width compare as their lists of operations. -/
theorem Cycle.Indexed.beq_eq {width : Nat} {cycle cycle' : Cycle θ} (h : cycle.Indexed width)
    (h' : cycle'.Indexed width) : (cycle == cycle') = (cycle.operations == cycle'.operations) := by
  rw [Cycle.beq_eq]
  cases hops : cycle.operations == cycle'.operations with
  | false => rfl
  | true => rw [h.slots_eq h' (Operation.map_wires_eq_of_beq hops), beq_self_eq_true, Bool.and_true]

/-- Lists compare as their images if their members do. -/
theorem beq_eq_map_beq {α β : Type} [BEq α] [BEq β] {f : α → β} {l l' : List α}
    (h : ∀ a ∈ l, ∀ b ∈ l', (a == b) = (f a == f b)) : (l == l') = (l.map f == l'.map f) := by
  induction l generalizing l' with
  | nil => cases l' <;> rfl
  | cons a l ih =>
      cases l' with
      | nil => rfl
      | cons b l' =>
          have hrest := ih fun x hx y hy =>
            h x (List.mem_cons_of_mem _ hx) y (List.mem_cons_of_mem _ hy)
          rw [List.map_cons, List.map_cons, List.cons_beq_cons, List.cons_beq_cons, hrest,
            h a List.mem_cons_self b List.mem_cons_self]

/-- Well-formed circuits compare as their registers and their operations cycle by cycle. -/
theorem Circuit.WellFormed.beq_eq {c d : Circuit θ} (hc : c.WellFormed) (hd : d.WellFormed) :
    (c == d) = (c.register == d.register &&
      c.cycles.map Cycle.operations == d.cycles.map Cycle.operations) := by
  rw [Circuit.beq_eq]
  cases hregister : c.register == d.register with
  | false => rfl
  | true =>
      have hwidth : d.numWires = c.numWires :=
        congrArg Register.width (eq_of_beq hregister).symm
      rw [beq_eq_map_beq fun cycle hcycle cycle' hcycle' =>
        (hc.indexed cycle hcycle).beq_eq (hwidth ▸ hd.indexed cycle' hcycle')]

end Equality

/-! ## Bodies inside a circuit -/

/-- The circuits inside a circuit: itself, and the bodies of the blocks inside it at any depth. -/
inductive Circuit.Encloses (c : Circuit θ) : Circuit θ → Prop
  | self : Encloses c c
  | body {d body : Circuit θ} {op : Operation θ} :
      Encloses c d → op ∈ d.operations → op.gate.body? = some body → Encloses c body

theorem Gate.WellFormed.of_body? {gate : Gate θ} (h : gate.WellFormed) {body : Circuit θ}
    (hbody : gate.body? = some body) : body.WellFormed := by
  cases gate with
  | primitive gate => cases hbody
  | block name inner =>
      cases hbody
      exact (wellFormed_block name _).mp h

theorem Circuit.WellFormed.of_encloses {c d : Circuit θ} (h : c.WellFormed) (hd : c.Encloses d) :
    d.WellFormed := by
  induction hd with
  | self => exact h
  | body _ hop hbody ih => exact (ih.members _ hop).gate.of_body? hbody

/-! ## Coherence -/

/-- Operations fit the register, do not meet within a cycle, and are found by looking points up. -/
structure Circuit.Coherent (c : Circuit θ) : Prop where
  wires_ne_nil : ∀ op ∈ c.operations, op.wires ≠ []
  nodup_wires : ∀ op ∈ c.operations, op.wires.Nodup
  lt_numWires : ∀ op ∈ c.operations, ∀ wire ∈ op.wires, wire < c.numWires
  levels : ∀ op ∈ c.operations,
    op.wires.map c.register.levelsOf? = op.gate.register.levels.map some
  length_params : ∀ op ∈ c.operations, op.params.length = op.gate.numParams
  disjoint : ∀ cycle ∈ c.cycles,
    cycle.operations.Pairwise fun op op' => List.Disjoint op.wires op'.wires
  /-- A wire has a slot exactly if an operation of the cycle acts on it, and it is the slot of that
  operation. -/
  slot?_eq_some_iff : ∀ cycle ∈ c.cycles, ∀ wire slot, cycle.slot? wire = some slot ↔
    ∃ op, cycle.operations[slot]? = some op ∧ wire ∈ op.wires
  /-- A point finds the operation of its cycle that acts on its wire. -/
  get?_eq_some_iff : ∀ point op, c.get? point = some op ↔
    ∃ cycle, c.cycles[point.cycle]? = some cycle ∧ op ∈ cycle.operations ∧ point.wire ∈ op.wires

theorem Circuit.WellFormed.get?_eq_some_iff {c : Circuit θ} (h : c.WellFormed) {point : Point}
    {op : Operation θ} : c.get? point = some op ↔ ∃ cycle, c.cycles[point.cycle]? = some cycle ∧
      op ∈ cycle.operations ∧ point.wire ∈ op.wires := by
  rw [Circuit.get?_eq_some_iff]
  simp only [h.locate?_eq_some_iff, operationAt_eq_some_iff, List.mem_iff_getElem?]
  constructor
  · rintro ⟨slot, ⟨cycle, hcycle, hslot⟩, hwire⟩
    exact ⟨cycle, hcycle, ⟨slot, hslot⟩, hwire⟩
  · rintro ⟨cycle, hcycle, ⟨slot, hslot⟩, hwire⟩
    exact ⟨slot, ⟨cycle, hcycle, hslot⟩, hwire⟩

theorem Circuit.WellFormed.coherent {c : Circuit θ} (h : c.WellFormed) : c.Coherent where
  wires_ne_nil op hop := (h.members op hop).wires_ne_nil
  nodup_wires op hop := (h.members op hop).placement.nodup
  lt_numWires op hop _ hwire := (h.members op hop).lt_width hwire
  levels op hop := (h.members op hop).placement.levels
  length_params op hop := (h.members op hop).length_params
  disjoint cycle hcycle := (h.indexed cycle hcycle).pairwise_disjoint
  slot?_eq_some_iff cycle hcycle := (h.indexed cycle hcycle).slot?_eq_some_iff
  get?_eq_some_iff _ _ := h.get?_eq_some_iff

/-! ## Following a wire -/

/-- What is found on a wire when its points are looked up cycle by cycle. -/
def Circuit.along (c : Circuit θ) (wire : Wire) : List (Operation θ) :=
  (List.range c.numCycles).filterMap fun k => c.get? ⟨k, wire⟩

theorem filterMap_range_getElem? {α β : Type} (f : α → Option β) (l : List α) :
    ((List.range l.length).filterMap fun k => l[k]?.bind f) = l.filterMap f := by
  induction l with
  | nil => rfl
  | cons a l ih =>
      rw [List.length_cons, List.range_succ_eq_map, List.filterMap_cons, List.filterMap_map,
        List.filterMap_cons, ← ih]
      rfl

/-- On a wire, a cycle shows the operation in the wire's slot and no other. -/
theorem Cycle.Indexed.sequenceOn_eq {width : Nat} {cycle : Cycle θ} (h : cycle.Indexed width)
    (wire : Wire) : sequenceOn wire cycle.operations =
      ((cycle.slot? wire).bind fun slot => cycle.operations[slot]?).toList := by
  cases hslot : cycle.slot? wire with
  | none => exact sequenceOn_eq_nil_iff.mpr ((h.slot?_eq_none_iff wire).mp hslot)
  | some slot =>
      obtain ⟨op, hop, hwire⟩ := (h.slot?_eq_some_iff wire slot).mp hslot
      have hmem : op ∈ sequenceOn wire cycle.operations :=
        mem_sequenceOn_iff.mpr ⟨List.mem_of_getElem? hop, hwire⟩
      -- Two operations of the sequence would have the wire in common.
      have hpairwise := h.pairwise_disjoint.filter fun op => op.actsOn wire
      change (sequenceOn wire cycle.operations).Pairwise _ at hpairwise
      cases hseq : sequenceOn wire cycle.operations with
      | nil => simp [hseq] at hmem
      | cons first rest =>
          have hon : ∀ other ∈ first :: rest, wire ∈ other.wires :=
            fun other hother => (mem_sequenceOn_iff.mp (hseq ▸ hother)).2
          rw [hseq, List.pairwise_cons] at hpairwise
          have hrest : rest = [] := List.eq_nil_iff_forall_not_mem.mpr fun other hother =>
            hpairwise.1 other hother (hon first List.mem_cons_self)
              (hon other (List.mem_cons_of_mem _ hother))
          subst hrest
          obtain rfl : op = first := List.mem_singleton.mp (hseq ▸ hmem)
          simp [hop]

/-- Along a wire, looking points up cycle by cycle gives the sequence on the wire. -/
theorem Circuit.WellFormed.along_eq {c : Circuit θ} (h : c.WellFormed) (wire : Wire) :
    c.along wire = sequenceOn wire c.operations := by
  have hget : ∀ k, c.get? ⟨k, wire⟩ = c.cycles[k]?.bind fun cycle =>
      (cycle.slot? wire).bind fun slot => cycle.operations[slot]? := by
    intro k
    apply Option.ext
    intro op
    simp [get?, locate?, Option.bind_eq_some_iff]
  rw [along, numCycles, operations, sequenceOn_flatMap]
  simp only [hget]
  rw [filterMap_range_getElem?, List.filterMap_eq_flatMap_toList]
  refine List.flatMap_congr fun cycle hcycle => ?_
  exact ((h.indexed cycle hcycle).sequenceOn_eq wire).symm

end QuditCircuits
