import Mathlib.Order.Bounds.Basic
import QuditCircuits.Proofs.Circuit.Appending
import QuditCircuits.Proofs.Circuit.Parameters
import QuditCircuits.Proofs.Wrapping

/-!
# Where opening a level puts operations

Opening a level turns every cycle into a run, and the runs follow each other.  So the run of a cycle
starts behind the runs of the cycles before it (`Circuit.runStart`), and an operation that is opened
into cycle `j` of its run is found `j` cycles further on.

The argument goes from lists to look-ups.  What is scheduled in the opened circuit is read off the runs
(`Circuit.mem_scheduled_openBlocks`); a point finds what is scheduled in its cycle on its wire.  A point
where nothing is laid out therefore finds nothing, and no operation gets lost.
-/

namespace QuditCircuits

variable {θ : Type}

/-! ## Runs one behind the other -/

/-- A position in lists that follow each other is a position in one of them, behind those before it. -/
theorem getElem?_flatMap_eq_some_iff {α β : Type} {f : α → List β} {l : List α} {m : Nat} {b : β} :
    (l.flatMap f)[m]? = some b ↔ ∃ k a j, l[k]? = some a ∧ (f a)[j]? = some b ∧
      m = ((l.take k).map fun a => (f a).length).sum + j := by
  induction l generalizing m with
  | nil => simp
  | cons head rest ih =>
      rw [List.flatMap_cons]
      constructor
      · intro hget
        by_cases hm : m < (f head).length
        · rw [List.getElem?_append_left hm] at hget
          exact ⟨0, head, m, rfl, hget, (Nat.zero_add m).symm⟩
        · rw [List.getElem?_append_right (Nat.le_of_not_lt hm)] at hget
          obtain ⟨k, a, j, hk, hj, hsum⟩ := ih.mp hget
          refine ⟨k + 1, a, j, hk, hj, ?_⟩
          rw [List.take_succ_cons, List.map_cons, List.sum_cons]
          omega
      · rintro ⟨k, a, j, hk, hj, rfl⟩
        cases k with
        | zero =>
            obtain rfl : head = a := Option.some.inj hk
            have hlt : j < (f head).length := (List.getElem?_eq_some_iff.mp hj).1
            rw [List.take_zero, List.map_nil, List.sum_nil, Nat.zero_add,
              List.getElem?_append_left hlt]
            exact hj
        | succ k =>
            rw [List.take_succ_cons, List.map_cons, List.sum_cons, Nat.add_assoc,
              List.getElem?_append_right (Nat.le_add_right ..), Nat.add_sub_cancel_left]
            exact ih.mpr ⟨k, a, j, hk, hj, rfl⟩

/-- A maximum over a list is its base or one of the members. -/
theorem foldr_max_eq_or_mem (base : Nat) (ns : List Nat) :
    ns.foldr max base = base ∨ ns.foldr max base ∈ ns := by
  induction ns with
  | nil => exact .inl rfl
  | cons n ns ih =>
      rw [List.foldr_cons, List.mem_cons]
      rcases Nat.le_total n (ns.foldr max base) with hle | hle
      · rw [Nat.max_eq_right hle]
        exact ih.imp_right .inr
      · rw [Nat.max_eq_left hle]
        exact .inr (.inl rfl)

namespace Cycle

/-- A run has one cycle or is as long as one of the bodies. -/
theorem height_eq_one_or (cycle : Cycle θ) : cycle.height = 1 ∨
    ∃ op ∈ cycle.operations, ∃ body, op.gate.body? = some body ∧ body.numCycles = cycle.height := by
  refine (foldr_max_eq_or_mem 1 _).imp_right fun hmem => ?_
  obtain ⟨op, hop, hheight⟩ := List.mem_filterMap.mp hmem
  obtain ⟨body, hbody, hlen⟩ := Option.map_eq_some_iff.mp hheight
  exact ⟨op, hop, body, hbody, hlen⟩

/-- The length of a run is the largest length of a body, but at least one. -/
theorem isGreatest_height (cycle : Cycle θ) :
    IsGreatest ({1} ∪ {n | ∃ op ∈ cycle.operations, ∃ body, op.gate.body? = some body ∧
      body.numCycles = n}) cycle.height := by
  refine ⟨cycle.height_eq_one_or, ?_⟩
  rintro n (rfl | ⟨op, hop, body, hbody, rfl⟩)
  · exact cycle.height_pos
  · exact numCycles_le_height hop hbody

theorem getElem?_opened_eq_some_iff {width j : Nat} {cycle new : Cycle θ} :
    (cycle.opened width)[j]? = some new ↔ j < cycle.height ∧
      new = (layer j (cycle.operations.flatMap Operation.opened)).foldl insert (empty width) := by
  rw [opened_eq_map, List.getElem?_map]
  by_cases hj : j < cycle.height <;> simp [hj, eq_comm]

@[simp]
theorem length_opened (width : Nat) (cycle : Cycle θ) :
    (cycle.opened width).length = cycle.height := by
  rw [opened_eq_map, List.length_map, List.length_range]

end Cycle

namespace Circuit

/-- The cycle in which the run of cycle `k` starts. -/
def runStart (c : Circuit θ) (k : Nat) : Nat :=
  ((c.cycles.take k).map Cycle.height).sum

/-- Opening a level, a circuit gets as many cycles as its runs have together. -/
theorem numCycles_openBlocks (c : Circuit θ) :
    c.openBlocks.numCycles = (c.cycles.map Cycle.height).sum := by
  rw [numCycles, openBlocks, List.length_flatMap]
  simp only [Cycle.length_opened]

/-- The cycles of the opened circuit are those of the runs, one run behind the other. -/
theorem getElem?_cycles_openBlocks {c : Circuit θ} {m : Nat} {new : Cycle θ} :
    c.openBlocks.cycles[m]? = some new ↔ ∃ k cycle j, c.cycles[k]? = some cycle ∧
      (j < cycle.height ∧ new = (layer j (cycle.operations.flatMap Operation.opened)).foldl
        Cycle.insert (.empty c.numWires)) ∧ m = c.runStart k + j := by
  have hstart : ∀ k, ((c.cycles.take k).map fun cycle => (cycle.opened c.numWires).length).sum =
      c.runStart k := by
    intro k
    simp only [Cycle.length_opened]
    rfl
  simp only [openBlocks, getElem?_flatMap_eq_some_iff, hstart, Cycle.getElem?_opened_eq_some_iff]

/-- Every cycle of the opened circuit lies in a run. -/
theorem exists_of_lt_numCycles_openBlocks {c : Circuit θ} {m : Nat}
    (hm : m < c.openBlocks.numCycles) :
    ∃ k cycle j, c.cycles[k]? = some cycle ∧ j < cycle.height ∧ m = c.runStart k + j := by
  obtain ⟨k, cycle, j, hcycle, ⟨hj, -⟩, hstart⟩ :=
    getElem?_cycles_openBlocks.mp (List.getElem?_eq_getElem hm)
  exact ⟨k, cycle, j, hcycle, hj, hstart⟩

/-- Every operation is scheduled where its run starts, as many cycles further on as it was opened. -/
theorem mem_scheduled_openBlocks {c : Circuit θ} {m : Nat} {sub : Operation θ} :
    (m, sub) ∈ c.openBlocks.scheduled ↔
      ∃ k op j, (k, op) ∈ c.scheduled ∧ (j, sub) ∈ op.opened ∧ m = c.runStart k + j := by
  simp only [mem_scheduled_iff_mem_cycle, getElem?_cycles_openBlocks]
  constructor
  · rintro ⟨_, ⟨k, cycle, j, hk, ⟨-, rfl⟩, hm⟩, hsub⟩
    rw [Cycle.operations_foldl_insert, List.mem_append, mem_layer_iff, List.mem_flatMap] at hsub
    obtain ⟨op, hop, hopened⟩ := hsub.resolve_left List.not_mem_nil
    exact ⟨k, op, j, ⟨cycle, hk, hop⟩, hopened, hm⟩
  · rintro ⟨k, op, j, ⟨cycle, hk, hop⟩, hopened, hm⟩
    refine ⟨_, ⟨k, cycle, j, hk, ⟨Cycle.lt_height_of_mem_opened hop hopened, rfl⟩, hm⟩, ?_⟩
    rw [Cycle.operations_foldl_insert, List.mem_append, mem_layer_iff, List.mem_flatMap]
    exact .inr ⟨op, hop, hopened⟩

end Circuit

/-! ## What one operation becomes -/

theorem Operation.mem_opened_of_primitive {op sub : Operation θ} (h : op.gate.body? = none) {j : Nat} :
    (j, sub) ∈ op.opened ↔ j = 0 ∧ sub = op := by
  obtain ⟨gate, wires, params⟩ := op
  cases gate with
  | primitive gate => simp [opened]
  | block name body => cases h

/-- The operations of a body go to the wires of its block, each with its share of the parameters. -/
theorem Operation.mem_opened_of_block {op sub : Operation θ} {body : Circuit θ}
    (h : op.gate.body? = some body) {j : Nat} :
    (j, sub) ∈ op.opened ↔ ∃ slot inner, body.operationAt j slot = some inner ∧
      sub = inner.rebind op.wires
        ((op.params.drop (body.paramsBefore j slot)).take inner.params.length) := by
  obtain ⟨gate, wires, params⟩ := op
  cases gate with
  | primitive gate => cases h
  | block name inner =>
      obtain rfl : inner = body := Option.some.inj h
      show (j, sub) ∈ bindBody wires inner.scheduled params ↔ _
      rw [bindBody_scheduled, List.mem_map]
      constructor
      · rintro ⟨⟨k, given⟩, hgiven, heq⟩
        obtain ⟨rfl, rfl⟩ := Prod.mk.inj heq
        obtain ⟨slot, hslot⟩ := Circuit.mem_scheduled_iff.mp hgiven
        rw [Circuit.operationAt_withParams] at hslot
        obtain ⟨own, hown, rfl⟩ := Option.map_eq_some_iff.mp hslot
        exact ⟨slot, own, hown, rfl⟩
      · rintro ⟨slot, own, hown, rfl⟩
        have hgiven := Circuit.operationAt_withParams inner params j slot
        rw [hown, Option.map_some] at hgiven
        exact ⟨_, Circuit.mem_scheduled_iff.mpr ⟨slot, hgiven⟩, rfl⟩

/-! ## Look-ups after opening a level -/

/-- What opening a level puts at which point. -/
inductive Circuit.LaidOut (c : Circuit θ) : Point → Operation θ → Prop
  /-- A primitive operation stays as it is, at the start of its run. -/
  | primitive {k : Nat} {op : Operation θ} {wire : Wire} : (k, op) ∈ c.scheduled →
      op.gate.body? = none → wire ∈ op.wires → LaidOut c ⟨c.runStart k, wire⟩ op
  /-- What the body of a block has at a point goes as far behind the start of the run, to the wire that
  the block gives for the wire of the point.  It gets the block's wires for its own, and of the
  parameters of the block those behind the ones for the operations scheduled before it. -/
  | inBody {k j slot : Nat} {op inner : Operation θ} {body : Circuit θ} {w wire : Wire} :
      (k, op) ∈ c.scheduled → op.gate.body? = some body →
      body.locate? ⟨j, w⟩ = some (slot, inner) → op.wires[w]? = some wire →
      LaidOut c ⟨c.runStart k + j, wire⟩ (inner.rebind op.wires
        ((op.params.drop (body.paramsBefore j slot)).take inner.params.length))

namespace Circuit

variable {c : Circuit θ}

theorem WellFormed.wellFormed_body (h : c.WellFormed) {k : Nat} {op : Operation θ}
    (hop : (k, op) ∈ c.scheduled) {body : Circuit θ} (hbody : op.gate.body? = some body) :
    body.WellFormed :=
  (h.members op (mem_operations_of_mem_scheduled hop)).gate.of_body? hbody

/-- A block has a wire for every wire on which its body has an operation. -/
theorem WellFormed.lt_length_wires (h : c.WellFormed) {k : Nat} {op : Operation θ}
    (hop : (k, op) ∈ c.scheduled) {body : Circuit θ} (hbody : op.gate.body? = some body)
    {j slot : Nat} {w : Wire} {inner : Operation θ}
    (hlocate : body.locate? ⟨j, w⟩ = some (slot, inner)) : w < op.wires.length := by
  have hwell := h.members op (mem_operations_of_mem_scheduled hop)
  have hbodywell := h.wellFormed_body hop hbody
  have hw := (hbodywell.locate?_eq_some_iff.mp hlocate).2
  obtain ⟨gate, wires, params⟩ := op
  cases gate with
  | primitive gate => cases hbody
  | block name own =>
      obtain rfl : own = body := Option.some.inj hbody
      have hlen : wires.length = own.register.width := hwell.placement.length_eq
      exact hlen ▸ (hbodywell.wellFormed_of_locate? hlocate).lt_width hw

/-- A point finds what is laid out there. -/
theorem WellFormed.get?_openBlocks (h : c.WellFormed) {point : Point} {sub : Operation θ} :
    c.openBlocks.get? point = some sub ↔ c.LaidOut point sub := by
  rw [h.openBlocks.get?_eq_some_iff_mem_scheduled, mem_scheduled_openBlocks]
  obtain ⟨m, wire⟩ := point
  constructor
  · rintro ⟨⟨k, op, j, hop, hopened, rfl⟩, hwire⟩
    cases hbody : op.gate.body? with
    | none =>
        obtain ⟨rfl, rfl⟩ := (Operation.mem_opened_of_primitive hbody).mp hopened
        exact .primitive hop hbody hwire
    | some body =>
        obtain ⟨slot, inner, hinner, rfl⟩ := (Operation.mem_opened_of_block hbody).mp hopened
        obtain ⟨w, hw, rfl⟩ := List.mem_map.mp hwire
        have hlocate : body.locate? ⟨j, w⟩ = some (slot, inner) :=
          (h.wellFormed_body hop hbody).locate?_eq_some_iff.mpr ⟨hinner, hw⟩
        refine .inBody hop hbody hlocate ?_
        rw [List.getD_eq_getElem?_getD,
          List.getElem?_eq_getElem (h.lt_length_wires hop hbody hlocate)]
        rfl
  · rintro (⟨hop, hbody, hwire⟩ | ⟨hop, hbody, hlocate, hwire⟩)
    · exact ⟨⟨_, _, 0, hop, (Operation.mem_opened_of_primitive hbody).mpr ⟨rfl, rfl⟩, rfl⟩, hwire⟩
    · obtain ⟨hinner, hw⟩ := (h.wellFormed_body hop hbody).locate?_eq_some_iff.mp hlocate
      refine ⟨⟨_, _, _, hop, (Operation.mem_opened_of_block hbody).mpr ⟨_, _, hinner, rfl⟩, rfl⟩, ?_⟩
      refine List.mem_map.mpr ⟨_, hw, ?_⟩
      rw [List.getD_eq_getElem?_getD, hwire]
      rfl

/-- The layout that opening a level produces.  The run of a cycle is as long as the longest body in the
cycle, but at least one cycle long, and there are as many cycles as the runs have together.  A point finds
what is laid out there: a primitive operation at the start of its run on each of its wires, and what the
body of a block has at a point as far behind the start of the run, on the wire of the block for the wire
of the point.  Every operation of a body is laid out on each of its wires, and where nothing is laid out
nothing is found. -/
theorem Reachable.openBlocks_layout (h : c.Reachable) :
    (∀ cycle ∈ c.cycles, IsGreatest ({1} ∪ {n | ∃ op ∈ cycle.operations, ∃ body,
      op.gate.body? = some body ∧ body.numCycles = n}) cycle.height) ∧
    c.openBlocks.numCycles = (c.cycles.map Cycle.height).sum ∧
    (∀ k op, (k, op) ∈ c.scheduled → op.gate.body? = none → ∀ wire ∈ op.wires,
      c.openBlocks.get? ⟨c.runStart k, wire⟩ = some op) ∧
    (∀ k op body, (k, op) ∈ c.scheduled → op.gate.body? = some body →
      ∀ j w slot inner, body.locate? ⟨j, w⟩ = some (slot, inner) →
        ∃ wire, op.wires[w]? = some wire ∧
          c.openBlocks.get? ⟨c.runStart k + j, wire⟩ = some (inner.rebind op.wires
            ((op.params.drop (body.paramsBefore j slot)).take inner.params.length))) ∧
    ∀ point, (∀ op, ¬ c.LaidOut point op) → c.openBlocks.get? point = none := by
  have hwell := h.wellFormed
  refine ⟨fun cycle _ => cycle.isGreatest_height, c.numCycles_openBlocks, ?_, ?_, ?_⟩
  · intro k op hop hbody wire hwire
    exact hwell.get?_openBlocks.mpr (.primitive hop hbody hwire)
  · intro k op body hop hbody j w slot inner hlocate
    have hlt := hwell.lt_length_wires hop hbody hlocate
    have hwire : op.wires[w]? = some op.wires[w] := List.getElem?_eq_getElem hlt
    exact ⟨_, hwire, hwell.get?_openBlocks.mpr (.inBody hop hbody hlocate hwire)⟩
  · intro point hnone
    refine Option.eq_none_iff_forall_ne_some.mpr fun op hop => ?_
    exact hnone op (hwell.get?_openBlocks.mp hop)

end Circuit

/-- Blocks with bodies of three cycles, of two and of none in the first cycle, a cycle from which both
operations are taken out, and a block beside a rotation in the last one. -/
def stackedBlocks : Circuit Nat :=
  (Circuit.ofOperations (.qubits 6)
    [⟨.block "gapped" gappedCircuit, [3, 0, 2], [1, 2, 3, 4, 5]⟩, ⟨rotatedPair, [4, 1], [6]⟩,
      ⟨.block "hollow" (.empty (.qubits 1)), [5], []⟩, ⟨.primitive (.qubit .x), [0], []⟩,
      ⟨rotatedPair, [0, 1], [7]⟩, ⟨.primitive (.qubit .x), [5], []⟩,
      ⟨.primitive (.qubit .rz), [5], [8]⟩]).after [.remove ⟨1, 0⟩, .remove ⟨1, 5⟩]

theorem reachable_stackedBlocks : stackedBlocks.Reachable := by
  refine (Circuit.Reachable.ofOperations _ (by decide) ?_).after (by simp [Call.Admissible])
  simpa [Gate.body?] using
    ⟨reachable_gappedCircuit, reachable_of_body?_rotatedPair, Circuit.Reachable.empty _,
      reachable_of_body?_rotatedPair⟩

set_option maxRecDepth 1000 in
theorem openBlocks_layout_stackedBlocks :
    stackedBlocks.Reachable ∧ stackedBlocks.cycles.map Cycle.height = [3, 1, 2] ∧
      stackedBlocks.openBlocks.numCycles = 6 ∧
      stackedBlocks.openBlocks.get? ⟨4, 5⟩ = some ⟨.primitive (.qubit .rz), [5], [8]⟩ ∧
      stackedBlocks.openBlocks.get? ⟨2, 2⟩ = some ⟨.primitive (.qubit .rz), [2], [5]⟩ ∧
      stackedBlocks.openBlocks.get? ⟨1, 1⟩ = some ⟨.primitive (.qubit .cx), [4, 1], []⟩ ∧
      stackedBlocks.openBlocks.get? ⟨5, 1⟩ = some ⟨.primitive (.qubit .cx), [0, 1], []⟩ ∧
      stackedBlocks.openBlocks.get? ⟨3, 0⟩ = none := by
  obtain ⟨-, hcycles, hprimitive, hbody, hnone⟩ := reachable_stackedBlocks.openBlocks_layout
  have hat : ∀ {k op}, (∃ slot, stackedBlocks.operationAt k slot = some op) →
      (k, op) ∈ stackedBlocks.scheduled := Circuit.mem_scheduled_iff.mpr
  refine ⟨reachable_stackedBlocks, by decide, hcycles, ?_, ?_, ?_, ?_, ?_⟩
  · exact hprimitive 2 _ (hat ⟨1, rfl⟩) rfl 5 (by decide)
  · obtain ⟨wire, hwire, hget⟩ := hbody 0 _ _ (hat ⟨0, rfl⟩) rfl 2 2 0 _ rfl
    cases hwire
    exact hget
  · obtain ⟨wire, hwire, hget⟩ := hbody 0 _ _ (hat ⟨1, rfl⟩) rfl 1 1 0 _ rfl
    cases hwire
    exact hget
  · obtain ⟨wire, hwire, hget⟩ := hbody 2 _ _ (hat ⟨0, rfl⟩) rfl 1 1 0 _ rfl
    cases hwire
    exact hget
  · -- The run of the cycle without operations starts at cycle 3, and every other run lies elsewhere.
    have hrows : stackedBlocks.scheduled.map
        (fun entry => (entry.1, entry.2.gate.body?.map Circuit.numCycles)) =
          [(0, some 3), (0, some 2), (0, some 0), (2, some 2), (2, none)] := by decide
    refine hnone ⟨3, 0⟩ fun op hop => ?_
    generalize hpoint : (⟨3, 0⟩ : Point) = point at hop
    have hzero : stackedBlocks.runStart 0 = 0 := rfl
    have htwo : stackedBlocks.runStart 2 = 4 := by decide
    cases hop with
    | @primitive k op wire hop hbody hwire =>
        have hrow := hrows ▸ List.mem_map_of_mem hop
        obtain rfl : k = 2 := by simpa [hbody] using hrow
        injection hpoint
        omega
    | @inBody k j slot op inner body w wire hop hbody hlocate hwire =>
        have hrow := hrows ▸ List.mem_map_of_mem hop
        obtain ⟨cycle, hcycle, -⟩ := Circuit.locate?_eq_some_iff.mp hlocate
        have hlt : j < body.numCycles := (List.getElem?_eq_some_iff.mp hcycle).1
        injection hpoint
        have hk : k = 0 ∧ body.numCycles ≤ 3 ∨ k = 2 := by
          simp only [hbody, Option.map_some, List.mem_cons, Prod.mk.injEq, Option.some.injEq,
            reduceCtorEq, and_false, List.not_mem_nil, or_false] at hrow
          omega
        rcases hk with ⟨rfl, hheight⟩ | rfl <;> omega

end QuditCircuits
