import QuditCircuits.Circuit.Schedule
import QuditCircuits.Proofs.Register.Placement

/-!
# What every circuit keeps to

A circuit that was built by its own operations satisfies three conditions (`Circuit.WellFormed`):

* every operation fits the register: it is placed on distinct wires with the levels of its gate, it
  acts on at least one wire, and it holds as many parameters as its gate takes;
* the slots of every cycle say, for each wire, which operation of the cycle acts on it;
* the body of every block, at any depth, satisfies the same conditions.

The second condition makes the operations of one cycle pairwise disjoint, so it is the only thing
that is ever needed about slots.
-/

namespace QuditCircuits

variable {θ : Type}

/-! ## Operations that fit -/

/-- What a register asks of an operation. -/
structure Operation.Fits (R : Register) (op : Operation θ) : Prop where
  /-- The gate's wires lie on distinct wires with the same levels. -/
  placement : Placement op.gate.register R op.wires
  /-- Some wire is acted on. -/
  wires_ne_nil : op.wires ≠ []
  /-- Every parameter of the gate is bound. -/
  length_params : op.params.length = op.gate.numParams

namespace Operation

@[simp]
theorem actsOn_eq_true_iff {op : Operation θ} {wire : Wire} :
    op.actsOn wire = true ↔ wire ∈ op.wires := by
  simp [actsOn]

theorem Fits.lt_width {R : Register} {op : Operation θ} (h : op.Fits R) {wire : Wire}
    (hwire : wire ∈ op.wires) : wire < R.width :=
  h.placement.lt_width hwire

theorem firstRepeat?_eq_none_iff {earlier wires : List Wire} :
    firstRepeat? earlier wires = none ↔ wires.Nodup ∧ ∀ wire ∈ wires, wire ∉ earlier := by
  induction wires generalizing earlier with
  | nil => simp [firstRepeat?]
  | cons wire wires ih =>
      by_cases hmem : wire ∈ earlier
      · simp [firstRepeat?, hmem]
      · rw [firstRepeat?, if_neg hmem, ih, List.nodup_cons, List.forall_mem_cons]
        simp only [List.mem_cons, not_or]
        constructor
        · rintro ⟨hnodup, hrest⟩
          exact ⟨⟨fun hin => (hrest wire hin).1 rfl, hnodup⟩, hmem, fun w hw => (hrest w hw).2⟩
        · rintro ⟨⟨hfresh, hnodup⟩, -, hrest⟩
          exact ⟨hnodup, fun w hw => ⟨fun heq => hfresh (heq ▸ hw), hrest w hw⟩⟩

/-- The operations that can be made: as many distinct wires as the gate has, and its parameters. -/
theorem make?_eq_ok_iff {gate : Gate θ} {wires : List Wire} {params : List θ} {op : Operation θ} :
    make? gate wires params = .ok op ↔
      wires.length = gate.numWires ∧ wires.Nodup ∧ params.length = gate.numParams ∧
        op = ⟨gate, wires, params⟩ := by
  have hnodup : wires.Nodup ↔ firstRepeat? [] wires = none := by
    simp [firstRepeat?_eq_none_iff]
  rw [hnodup]
  cases hrepeat : firstRepeat? [] wires with
  | none =>
      simp only [make?, hrepeat, guard_eq_ok_iff, not_not, bind_eq_ok_iff,
        checkParameters_eq_ok_iff, pure_eq_ok_iff, exists_const, true_and, eq_comm (a := op)]
  | some wire => simp [make?, hrepeat]

/-- An operation that `make?` returns. -/
def Made (op : Operation θ) : Prop :=
  make? op.gate op.wires op.params = .ok op

theorem made_iff {op : Operation θ} :
    op.Made ↔ op.wires.length = op.gate.numWires ∧ op.wires.Nodup ∧
      op.params.length = op.gate.numParams := by
  rw [Made, make?_eq_ok_iff]
  cases op
  simp

instance (op : Operation θ) : Decidable op.Made :=
  decidable_of_iff _ made_iff.symm

theorem made_of_make? {gate : Gate θ} {wires : List Wire} {params : List θ} {op : Operation θ}
    (h : make? gate wires params = .ok op) : op.Made := by
  obtain ⟨-, -, -, rfl⟩ := make?_eq_ok_iff.mp h
  exact h

end Operation

/-! ## Slots of a cycle -/

/-- The slots of a cycle over `width` wires name, for each wire, the operation that acts on it. -/
structure Cycle.Indexed (width : Nat) (cycle : Cycle θ) : Prop where
  /-- Every wire has an entry. -/
  length_slots : cycle.slots.length = width
  /-- A wire's entry is the position of the operation on the wire. -/
  slot?_eq_some_iff : ∀ wire slot, cycle.slot? wire = some slot ↔
    ∃ op, cycle.operations[slot]? = some op ∧ wire ∈ op.wires

namespace Cycle.Indexed

variable {width : Nat} {cycle : Cycle θ} (h : cycle.Indexed width)
include h

/-- A wire carries one operation of the cycle at most. -/
theorem slot_unique {wire : Wire} {i j : Nat} {op op' : Operation θ}
    (hi : cycle.operations[i]? = some op) (hj : cycle.operations[j]? = some op')
    (hop : wire ∈ op.wires) (hop' : wire ∈ op'.wires) : i = j := by
  have hslot := (h.slot?_eq_some_iff wire i).mpr ⟨op, hi, hop⟩
  have hslot' := (h.slot?_eq_some_iff wire j).mpr ⟨op', hj, hop'⟩
  exact Option.some.inj (hslot.symm.trans hslot')

/-- The operations of a cycle have no wire in common. -/
theorem pairwise_disjoint :
    cycle.operations.Pairwise fun op op' => List.Disjoint op.wires op'.wires := by
  refine List.pairwise_iff_getElem.mpr fun i j hi hj hlt wire hop hop' => ?_
  have := h.slot_unique (List.getElem?_eq_getElem hi) (List.getElem?_eq_getElem hj) hop hop'
  omega

theorem slot?_eq_none_iff (wire : Wire) :
    cycle.slot? wire = none ↔ ∀ op ∈ cycle.operations, wire ∉ op.wires := by
  rw [← not_iff_not, ← ne_eq, Option.ne_none_iff_exists']
  simp only [h.slot?_eq_some_iff, List.mem_iff_getElem?]
  grind

theorem isFree_iff (wires : List Wire) :
    cycle.isFree wires = true ↔ ∀ op ∈ cycle.operations, List.Disjoint wires op.wires := by
  simp only [isFree, List.all_eq_true, Option.isNone_iff_eq_none, h.slot?_eq_none_iff]
  constructor
  · exact fun hfree op hop wire hwire => hfree wire hwire op hop
  · exact fun hdisjoint wire hwire op hop => hdisjoint op hop hwire

end Cycle.Indexed

/-! ## Circuits -/

/-- The bodies of a gate satisfy at every depth what is asked of circuits. -/
def Gate.WellFormed (gate : Gate θ) : Prop :=
  gate.fold (fun _ => True) fun _ body parts =>
    (∀ part ∈ parts, part.1.Fits body.register ∧ part.2) ∧
      ∀ cycle ∈ body.cycles, cycle.Indexed body.numWires

/-- What a well-formed circuit over `R` asks of one operation. -/
structure Operation.WellFormed (R : Register) (op : Operation θ) : Prop extends op.Fits R where
  /-- A block has a well-formed body. -/
  gate : op.gate.WellFormed

/-- What every circuit keeps to. -/
structure Circuit.WellFormed (c : Circuit θ) : Prop where
  /-- The operations fit the register, and their blocks have well-formed bodies. -/
  members : ∀ op ∈ c.operations, op.WellFormed c.register
  /-- Slots and operations of each cycle agree. -/
  indexed : ∀ cycle ∈ c.cycles, cycle.Indexed c.numWires

@[simp]
theorem Gate.wellFormed_primitive (gate : Primitive) :
    (Gate.primitive gate : Gate θ).WellFormed := trivial

@[simp]
theorem Gate.wellFormed_block (name : String) (body : Circuit θ) :
    (Gate.block name body).WellFormed ↔ body.WellFormed := by
  rw [WellFormed, fold_block]
  simp only [List.forall_mem_map]
  constructor
  · rintro ⟨hparts, hindexed⟩
    exact ⟨fun op hop => ⟨(hparts op hop).1, (hparts op hop).2⟩, hindexed⟩
  · rintro ⟨hmembers, hindexed⟩
    exact ⟨fun op hop => ⟨(hmembers op hop).toFits, (hmembers op hop).gate⟩, hindexed⟩

namespace Operation.WellFormed

variable {R : Register} {op : Operation θ} (h : op.WellFormed R)
include h

theorem of_primitive {gate : Primitive} (hop : op.gate = .primitive gate) :
    Placement gate.register R op.wires ∧ op.params.length = gate.numParams := by
  obtain ⟨⟨hplacement, -, hparams⟩, -⟩ := h
  rw [hop] at hplacement hparams
  exact ⟨hplacement, hparams⟩

theorem of_block {name : String} {body : Circuit θ} (hop : op.gate = .block name body) :
    Placement body.register R op.wires ∧ op.params.length = body.numParams ∧ body.WellFormed := by
  obtain ⟨⟨hplacement, -, hparams⟩, hgate⟩ := h
  rw [hop] at hplacement hparams hgate
  exact ⟨hplacement, hparams, (Gate.wellFormed_block name body).mp hgate⟩

end Operation.WellFormed

/-- What a well-formed circuit over `R` asks of one cycle. -/
structure Cycle.WellFormed (R : Register) (cycle : Cycle θ) : Prop where
  /-- The operations fit the register, and their blocks have well-formed bodies. -/
  members : ∀ op ∈ cycle.operations, op.WellFormed R
  /-- Slots and operations agree. -/
  indexed : cycle.Indexed R.width

theorem Circuit.wellFormed_iff_cycles {c : Circuit θ} :
    c.WellFormed ↔ ∀ cycle ∈ c.cycles, cycle.WellFormed c.register := by
  constructor
  · intro h cycle hcycle
    refine ⟨fun op hop => h.members op ?_, h.indexed cycle hcycle⟩
    exact List.mem_flatMap.mpr ⟨cycle, hcycle, hop⟩
  · intro h
    refine ⟨fun op hop => ?_, fun cycle hcycle => (h cycle hcycle).indexed⟩
    obtain ⟨cycle, hcycle, hop⟩ := List.mem_flatMap.mp hop
    exact (h cycle hcycle).members op hop

theorem Circuit.wellFormed_empty (R : Register) : (Circuit.empty R : Circuit θ).WellFormed :=
  wellFormed_iff_cycles.mpr (by simp [empty])

end QuditCircuits
