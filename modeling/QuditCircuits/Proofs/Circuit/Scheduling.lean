import QuditCircuits.Proofs.Circuit.Invariant
import QuditCircuits.Proofs.Programs

/-!
# Scheduling keeps circuits well-formed

The three changes of a cycle are followed through its slots: adding an operation on free wires, taking
one out, and putting one in the place of another on the same wires.  Each keeps slots and operations
in agreement.  Appending and removing are such a change of one cycle of the circuit.
-/

namespace QuditCircuits

variable {θ : Type}

/-! ## Slots after a change -/

namespace Cycle

@[simp]
theorem length_mark (slots : List (Option Nat)) (wires : List Wire) (slot : Nat) :
    (mark slots wires slot).length = slots.length := by
  unfold mark
  induction wires generalizing slots with
  | nil => rfl
  | cons wire wires ih => rw [List.foldl_cons, ih, List.length_set]

/-- Marked wires have the new slot, the others keep theirs. -/
theorem join_getElem?_mark {slots : List (Option Nat)} {wires : List Wire}
    (hlt : ∀ wire ∈ wires, wire < slots.length) (slot : Nat) (wire : Wire) :
    (mark slots wires slot)[wire]?.join = if wire ∈ wires then some slot else slots[wire]?.join := by
  unfold mark
  induction wires generalizing slots with
  | nil => simp
  | cons head wires ih =>
      obtain ⟨hhead, hrest⟩ := List.forall_mem_cons.mp hlt
      rw [List.foldl_cons, ih (by simpa using hrest)]
      by_cases hmem : wire ∈ wires
      · simp [hmem]
      · rcases eq_or_ne wire head with rfl | hne
        · simp [hmem, hhead]
        · simp [hmem, hne, List.getElem?_set_ne hne.symm]

theorem slot?_insert {cycle : Cycle θ} {op : Operation θ}
    (hlt : ∀ wire ∈ op.wires, wire < cycle.slots.length) (wire : Wire) :
    (cycle.insert op).slot? wire =
      if wire ∈ op.wires then some cycle.operations.length else cycle.slot? wire :=
  join_getElem?_mark hlt _ wire

theorem slot?_overwrite {cycle : Cycle θ} {slot : Nat} {op : Operation θ}
    (hlt : ∀ wire ∈ op.wires, wire < cycle.slots.length) (wire : Wire) :
    (cycle.overwrite slot op).slot? wire =
      if wire ∈ op.wires then some slot else cycle.slot? wire :=
  join_getElem?_mark hlt _ wire

theorem slot?_erase (cycle : Cycle θ) (slot : Nat) (wire : Wire) :
    (cycle.erase slot).slot? wire = (cycle.slot? wire).bind (shiftSlot slot) := by
  rw [slot?, erase, List.getElem?_map, slot?]
  cases cycle.slots[wire]? <;> rfl

/-- A slot moves down when it lies behind the one that is taken out. -/
theorem shiftSlot_eq_some_iff {removed slot slot' : Nat} :
    shiftSlot removed slot = some slot' ↔ slot = if slot' < removed then slot' else slot' + 1 := by
  unfold shiftSlot
  grind

/-! ## Slots and operations stay in agreement -/

theorem indexed_empty (width : Nat) : (empty width : Cycle θ).Indexed width := by
  refine ⟨List.length_replicate, fun wire slot => ?_⟩
  have hnone : (empty width : Cycle θ).slot? wire = none := by
    rw [slot?, empty, List.getElem?_replicate]
    split <;> rfl
  rw [hnone]
  simp [empty]

namespace Indexed

variable {width : Nat} {cycle : Cycle θ} (h : cycle.Indexed width)
include h

theorem insert {op : Operation θ} (hlt : ∀ wire ∈ op.wires, wire < width)
    (hfree : cycle.isFree op.wires = true) : (cycle.insert op).Indexed width := by
  have hdisjoint := (h.isFree_iff op.wires).mp hfree
  refine ⟨(length_mark _ _ _).trans h.length_slots, fun wire slot => ?_⟩
  rw [slot?_insert (h.length_slots ▸ hlt), Cycle.insert, List.getElem?_append]
  by_cases hwire : wire ∈ op.wires
  · rw [if_pos hwire, Option.some.injEq]
    constructor
    · rintro rfl
      exact ⟨op, by simp, hwire⟩
    · rintro ⟨op', hget, hwire'⟩
      -- The wires were free, so no operation that was there before acts on them.
      by_cases hslot : slot < cycle.operations.length
      · rw [if_pos hslot] at hget
        exact absurd hwire' (hdisjoint op' (List.mem_of_getElem? hget) hwire)
      · rw [if_neg hslot, List.getElem?_singleton] at hget
        split at hget
        · omega
        · simp at hget
  · rw [if_neg hwire, h.slot?_eq_some_iff]
    by_cases hslot : slot < cycle.operations.length
    · rw [if_pos hslot]
    · rw [if_neg hslot, List.getElem?_eq_none (Nat.le_of_not_lt hslot), List.getElem?_singleton]
      grind

theorem erase (slot : Nat) : (cycle.erase slot).Indexed width := by
  refine ⟨List.length_map _ |>.trans h.length_slots, fun wire slot' => ?_⟩
  -- Slots move down by the same rule as positions in the list of operations.
  rw [slot?_erase, Option.bind_eq_some_iff, Cycle.erase, List.getElem?_eraseIdx]
  simp only [shiftSlot_eq_some_iff, exists_eq_right, h.slot?_eq_some_iff]
  split <;> rfl

/-- The new operation has the wires of the old one. -/
theorem overwrite {slot : Nat} {old op : Operation θ} (hold : cycle.operations[slot]? = some old)
    (hwires : ∀ wire, wire ∈ old.wires ↔ wire ∈ op.wires) :
    (cycle.overwrite slot op).Indexed width := by
  have hslot := (List.getElem?_eq_some_iff.mp hold).1
  have hat : ∀ wire ∈ op.wires, cycle.slot? wire = some slot :=
    fun wire hwire => (h.slot?_eq_some_iff wire slot).mpr ⟨old, hold, (hwires wire).mpr hwire⟩
  have hlt : ∀ wire ∈ op.wires, wire < cycle.slots.length := by
    intro wire hwire
    have hjoin := hat wire hwire
    rw [slot?, Option.join_eq_some_iff] at hjoin
    exact (List.getElem?_eq_some_iff.mp hjoin).1
  -- The marked wires had this slot already, so no slot changes.
  refine ⟨(length_mark _ _ _).trans h.length_slots, fun wire slot' => ?_⟩
  rw [slot?_overwrite hlt, ite_eq_right_iff.mpr fun hwire => (hat wire hwire).symm ▸ rfl,
    h.slot?_eq_some_iff, Cycle.overwrite]
  rcases eq_or_ne slot slot' with rfl | hne
  · rw [List.getElem?_set_self hslot, hold]
    simp [hwires]
  · rw [List.getElem?_set_ne hne]

end Indexed

/-! ## Well-formed cycles -/

theorem wellFormed_empty (R : Register) : (empty R.width : Cycle θ).WellFormed R where
  members := by simp [empty]
  indexed := indexed_empty R.width

namespace WellFormed

variable {R : Register} {cycle : Cycle θ} (h : cycle.WellFormed R)
include h

theorem insert {op : Operation θ} (hop : op.WellFormed R)
    (hfree : cycle.isFree op.wires = true) : (cycle.insert op).WellFormed R where
  members := List.forall_mem_append.mpr ⟨h.members, List.forall_mem_singleton.mpr hop⟩
  indexed := h.indexed.insert (fun _ => hop.lt_width) hfree

theorem erase (slot : Nat) : (cycle.erase slot).WellFormed R where
  members := fun op hop => h.members op (List.mem_of_mem_eraseIdx hop)
  indexed := h.indexed.erase slot

theorem overwrite {slot : Nat} {old op : Operation θ} (hop : op.WellFormed R)
    (hold : cycle.operations[slot]? = some old)
    (hwires : ∀ wire, wire ∈ old.wires ↔ wire ∈ op.wires) :
    (cycle.overwrite slot op).WellFormed R where
  members := fun op' hop' =>
    (List.mem_or_eq_of_mem_set hop').elim (h.members op') fun heq => heq ▸ hop
  indexed := h.indexed.overwrite hold hwires

end WellFormed
end Cycle

/-! ## Appending and removing -/

/-- Changing one member of a list keeps what holds of all members if the change does. -/
theorem forall_mem_modify {α : Type} {l : List α} {k : Nat} {f : α → α} {P : α → Prop}
    (hl : ∀ a ∈ l, P a) (hf : ∀ a, l[k]? = some a → P (f a)) : ∀ a ∈ l.modify k f, P a := by
  intro a ha
  obtain ⟨i, hi⟩ := List.mem_iff_getElem?.mp ha
  rw [List.getElem?_modify] at hi
  obtain ⟨b, hb, hab⟩ := Option.map_eq_some_iff.mp hi
  split at hab
  · next heq => exact hab ▸ hf b (heq ▸ hb)
  · exact hab ▸ hl b (List.mem_of_getElem? hb)

namespace Circuit

theorem landing_le_length (wires : List Wire) (cycles : List (Cycle θ)) :
    landing wires cycles ≤ cycles.length := by
  induction cycles with
  | nil => exact Nat.le_refl 0
  | cons cycle cycles ih =>
      rw [landing, List.length_cons]
      split
      · split <;> omega
      · omega

/-- From the landing cycle onwards all wires are free. -/
theorem isFree_of_landing_le {wires : List Wire} {cycles : List (Cycle θ)} {k : Nat}
    {cycle : Cycle θ} (hle : landing wires cycles ≤ k) (hget : cycles[k]? = some cycle) :
    cycle.isFree wires = true := by
  -- A cycle lies at or behind the landing cycle only if it was found free on the way back.
  induction cycles generalizing k with
  | nil => simp at hget
  | cons head rest ih =>
      rw [landing] at hle
      cases k with
      | zero =>
          obtain rfl : head = cycle := by simpa using hget
          split at hle
          · split at hle
            · assumption
            · omega
          · omega
      | succ k =>
          refine ih ?_ (by simpa using hget)
          split at hle <;> omega

theorem checkOperation_eq_ok_iff {c : Circuit θ} {op : Operation θ}
    (hlen : op.wires.length = op.gate.numWires) :
    c.checkOperation op = .ok () ↔
      op.wires.map c.register.levelsOf? = op.gate.register.levels.map some := by
  rw [checkOperation, forM_eq_ok_iff, Register.map_levelsOf?_eq_iff hlen]
  simp only [Register.checkWire_eq_ok_iff]

/-- An operation that was made and checked fits the register. -/
theorem wellFormed_of_made {c : Circuit θ} {op : Operation θ} (hmade : op.Made)
    (hgate : op.gate.WellFormed) (hcheck : c.checkOperation op = .ok ()) (hne : op.wires ≠ []) :
    op.WellFormed c.register := by
  obtain ⟨hlen, hnodup, hparams⟩ := Operation.made_iff.mp hmade
  exact ⟨⟨⟨hnodup, (checkOperation_eq_ok_iff hlen).mp hcheck⟩, hne, hparams⟩, hgate⟩

/-- The circuit with an operation added to a cycle that exists or is the next one. -/
def insertAt (c : Circuit θ) (k : Nat) (op : Operation θ) : Circuit θ :=
  let cycles := if k = c.cycles.length then c.cycles ++ [Cycle.empty c.numWires] else c.cycles
  { c with cycles := cycles.modify k fun cycle => cycle.insert op }

theorem run_land {ε : Type} (c : Circuit θ) (op : Operation θ) :
    (Mutation.land op : Mutation θ ε Nat) c =
      .ok (landing op.wires c.cycles) (c.insertAt (landing op.wires c.cycles) op) := by
  refine (Program.bind_of_ok rfl).trans ?_
  unfold insertAt numCycles
  dsimp only
  split <;> rfl

theorem append?_eq (c : Circuit θ) (op : Operation θ) :
    c.append? op = c.checkOperation op >>= fun _ =>
      match op.wires with
      | [] => throw (.wireCount op.gate.name 1 0)
      | anchor :: _ => pure (⟨landing op.wires c.cycles, anchor⟩,
          c.insertAt (landing op.wires c.cycles) op) := by
  refine (Program.outcome_query_bind _ _ c).trans (congrArg _ (funext fun _ => ?_))
  have hland := run_land (ε := ShapeError) c op
  cases hwires : op.wires with
  | nil => rfl
  | cons anchor wires =>
      rw [hwires] at hland
      exact Program.outcome_eq_ok_iff.mpr (Program.bind_of_ok hland)

/-- An operation that is refused leaves the circuit as it was. -/
theorem atomic_append (op : Operation θ) : (Mutation.append op).Atomic := by
  refine .query_bind fun _ => ?_
  split
  · exact .throw _
  · exact .of_forall_ok fun c => ⟨_, _, Program.bind_of_ok (run_land c op)⟩

theorem append?_eq_ok_iff {c c' : Circuit θ} {op : Operation θ} {point : Point} :
    c.append? op = .ok (point, c') ↔ c.checkOperation op = .ok () ∧
      ∃ anchor, op.wires.head? = some anchor ∧ point = ⟨landing op.wires c.cycles, anchor⟩ ∧
        c' = c.insertAt (landing op.wires c.cycles) op := by
  rw [append?_eq, check_bind_eq_ok_iff]
  cases hwires : op.wires with
  | nil => simp
  | cons anchor wires =>
      simp only [pure_eq_ok_iff, Prod.mk.injEq, List.head?_cons, Option.some.injEq,
        exists_eq_left', eq_comm (a := point), eq_comm (a := c')]

theorem appendGate?_eq (c : Circuit θ) (gate : Gate θ) (wires : List Wire) (params : List θ) :
    c.appendGate? gate wires params = Operation.make? gate wires params >>= c.append? :=
  Program.outcome_query_bind _ _ c

theorem atomic_appendGate (gate : Gate θ) (wires : List Wire) (params : List θ) :
    (Mutation.appendGate gate wires params).Atomic :=
  .query_bind atomic_append

/-- Appending a gate is appending the operation that is made of it. -/
theorem append?_of_appendGate? {c c' : Circuit θ} {gate : Gate θ} {wires : List Wire}
    {params : List θ} {point : Point} (h : c.appendGate? gate wires params = .ok (point, c')) :
    (⟨gate, wires, params⟩ : Operation θ).Made ∧ c.append? ⟨gate, wires, params⟩ = .ok (point, c') := by
  rw [appendGate?_eq] at h
  obtain ⟨op, hmake, happend⟩ := bind_eq_ok_iff.mp h
  obtain ⟨-, -, -, rfl⟩ := Operation.make?_eq_ok_iff.mp hmake
  exact ⟨Operation.made_of_make? hmake, happend⟩

/-- An operation that was made and is appended fits. -/
theorem wellFormed_of_append? {c c' : Circuit θ} {op : Operation θ} {point : Point}
    (hmade : op.Made) (hgate : op.gate.WellFormed) (happend : c.append? op = .ok (point, c')) :
    op.WellFormed c.register := by
  obtain ⟨hcheck, anchor, hanchor, -, -⟩ := append?_eq_ok_iff.mp happend
  refine wellFormed_of_made hmade hgate hcheck ?_
  rintro hnil
  simp [hnil] at hanchor

/-- The circuit with a cycle for an operation on the given wires. -/
def roomFor (c : Circuit θ) (wires : List Wire) : Circuit θ :=
  if landing wires c.cycles = c.numCycles then c.extended else c

/-- Only cycles are added. -/
theorem roomFor_eq (c : Circuit θ) (wires : List Wire) :
    c.roomFor wires = ⟨c.register, (c.roomFor wires).cycles⟩ := by
  obtain ⟨R, cycles⟩ := c
  unfold roomFor
  split <;> rfl

/-- An operation is added to a cycle of the circuit that has room for it. -/
theorem insertAt_landing (c : Circuit θ) (op : Operation θ) :
    c.insertAt (landing op.wires c.cycles) op =
      ⟨c.register, (c.roomFor op.wires).cycles.modify (landing op.wires c.cycles)
        fun cycle => cycle.insert op⟩ := by
  unfold insertAt roomFor extended numCycles
  split <;> rfl

namespace WellFormed

variable {c : Circuit θ} (h : c.WellFormed)
include h

theorem forall_mem_roomFor (wires : List Wire) :
    ∀ cycle ∈ (c.roomFor wires).cycles, cycle.WellFormed c.register := by
  have hcycles := wellFormed_iff_cycles.mp h
  unfold roomFor
  split
  · exact List.forall_mem_append.mpr
      ⟨hcycles, List.forall_mem_singleton.mpr (Cycle.wellFormed_empty c.register)⟩
  · exact hcycles

/-- The wires are free in the cycle where an operation on them lands. -/
theorem exists_cycle_roomFor (wires : List Wire) :
    ∃ cycle, (c.roomFor wires).cycles[landing wires c.cycles]? = some cycle ∧
      cycle.WellFormed c.register ∧ cycle.isFree wires = true := by
  unfold roomFor
  split
  -- A cycle that is added for the operation is empty.
  · next hlast =>
      have hempty : (Cycle.empty c.numWires : Cycle θ).WellFormed c.register :=
        Cycle.wellFormed_empty c.register
      refine ⟨.empty c.numWires, ?_, hempty,
        (hempty.indexed.isFree_iff wires).mpr (by simp [Cycle.empty])⟩
      rw [hlast]
      exact List.getElem?_concat_length
  · next hlast =>
      have hlt : landing wires c.cycles < c.cycles.length :=
        Nat.lt_of_le_of_ne (landing_le_length wires c.cycles) hlast
      have hget := List.getElem?_eq_getElem hlt
      exact ⟨_, hget, wellFormed_iff_cycles.mp h _ (List.mem_of_getElem? hget),
        isFree_of_landing_le (Nat.le_refl _) hget⟩

/-- Adding an operation to its landing cycle. -/
theorem insertAt {op : Operation θ} (hop : op.WellFormed c.register) :
    (c.insertAt (landing op.wires c.cycles) op).WellFormed := by
  obtain ⟨cycle, hcycle, hwell, hfree⟩ := h.exists_cycle_roomFor op.wires
  rw [insertAt_landing]
  refine wellFormed_iff_cycles.mpr
    (forall_mem_modify (h.forall_mem_roomFor op.wires) fun cycle' hget => ?_)
  obtain rfl : cycle = cycle' := Option.some.inj (hcycle.symm.trans hget)
  exact hwell.insert hop hfree

end WellFormed

theorem WellFormed.append {c c' : Circuit θ} (h : c.WellFormed) {op : Operation θ} {point : Point}
    (hmade : op.Made) (hgate : op.gate.WellFormed) (happend : c.append? op = .ok (point, c')) :
    c'.WellFormed := by
  have hop := wellFormed_of_append? hmade hgate happend
  obtain ⟨-, anchor, -, -, rfl⟩ := append?_eq_ok_iff.mp happend
  exact h.insertAt hop

theorem locate?_eq_some_iff {c : Circuit θ} {point : Point} {slot : Nat} {op : Operation θ} :
    c.locate? point = some (slot, op) ↔ ∃ cycle, c.cycles[point.cycle]? = some cycle ∧
      cycle.slot? point.wire = some slot ∧ cycle.operations[slot]? = some op := by
  simp [locate?, Option.bind_eq_some_iff]

theorem remove?_eq (c : Circuit θ) (point : Point) :
    c.remove? point = c.locateOrFail point >>= fun found =>
      pure (found.2, c.eraseFrom point.cycle found.1) :=
  Program.outcome_query_bind _ _ c

/-- A removal that is refused leaves the circuit as it was. -/
theorem atomic_remove (point : Point) : (Mutation.remove point : Mutation θ _ _).Atomic :=
  .query_bind fun _ => .of_forall_ok fun _ => ⟨_, _, rfl⟩

theorem locateOrFail_eq_ok_iff {c : Circuit θ} {point : Point} {found : Nat × Operation θ} :
    c.locateOrFail point = .ok found ↔ c.locate? point = some found := by
  unfold locateOrFail
  split <;> simp [*]

theorem remove?_eq_ok_iff {c c' : Circuit θ} {point : Point} {op : Operation θ} :
    c.remove? point = .ok (op, c') ↔ ∃ slot, c.locate? point = some (slot, op) ∧
      c' = { c with cycles := c.cycles.modify point.cycle fun cycle => cycle.erase slot } := by
  rw [remove?_eq, bind_eq_ok_iff]
  simp only [locateOrFail_eq_ok_iff, pure_eq_ok_iff, Prod.mk.injEq]
  constructor
  · rintro ⟨⟨slot, _⟩, hlocate, rfl, rfl⟩
    exact ⟨slot, hlocate, rfl⟩
  · rintro ⟨slot, hlocate, rfl⟩
    exact ⟨(slot, op), hlocate, rfl, rfl⟩

theorem WellFormed.remove {c c' : Circuit θ} (h : c.WellFormed) {point : Point}
    {op : Operation θ} (hremove : c.remove? point = .ok (op, c')) : c'.WellFormed := by
  obtain ⟨slot, -, rfl⟩ := remove?_eq_ok_iff.mp hremove
  have hcycles := wellFormed_iff_cycles.mp h
  refine wellFormed_iff_cycles.mpr (forall_mem_modify hcycles fun cycle hget => ?_)
  exact (hcycles cycle (List.mem_of_getElem? hget)).erase slot

end Circuit
end QuditCircuits
