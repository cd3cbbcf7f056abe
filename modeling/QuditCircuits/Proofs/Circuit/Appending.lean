import QuditCircuits.Proofs.Circuit.Coherence

/-!
# What an appended operation changes

The landing cycle is the first one from which all wires of the operation are free: in a well-formed
circuit, the least number of a cycle such that neither it nor a later one has an operation on one of the
wires (`Circuit.WellFormed.landing_le_iff`).

What is added there is said in terms of the scheduled operations.  Look-ups follow, because in a
well-formed circuit a point finds the operation of its cycle on its wire: the points of the new operation
find it, and no other point finds anything else than before (`Circuit.WellFormed.get?_insertAt`).
-/

namespace QuditCircuits
namespace Circuit

variable {θ : Type}

/-! ## The landing cycle -/

/-- A cycle lies at or behind the landing cycle exactly if all wires are free from there on. -/
theorem landing_le_iff_isFree {wires : List Wire} {cycles : List (Cycle θ)} {k : Nat} :
    landing wires cycles ≤ k ↔
      ∀ j cycle, k ≤ j → cycles[j]? = some cycle → cycle.isFree wires = true := by
  refine ⟨fun hle j cycle hj hget => isFree_of_landing_le (Nat.le_trans hle hj) hget, fun hfree => ?_⟩
  -- The bound moves on with the cycles, so the induction is over all bounds.
  induction cycles generalizing k with
  | nil => exact Nat.zero_le k
  | cons head rest ih =>
      cases k with
      | zero =>
          have hrest : landing wires rest = 0 := Nat.le_zero.mp <| ih fun j cycle _ hget =>
            hfree (j + 1) cycle (Nat.zero_le _) hget
          have hhead : head.isFree wires = true := hfree 0 head (Nat.le_refl 0) rfl
          simp [landing, hrest, hhead]
      | succ k =>
          have hrest : landing wires rest ≤ k := ih fun j cycle hj hget =>
            hfree (j + 1) cycle (Nat.succ_le_succ hj) hget
          rw [landing]
          split
          · split <;> omega
          · omega

/-- The scheduled operations of a cycle are those that it lists. -/
theorem mem_scheduled_iff_mem_cycle {c : Circuit θ} {k : Nat} {op : Operation θ} :
    (k, op) ∈ c.scheduled ↔ ∃ cycle, c.cycles[k]? = some cycle ∧ op ∈ cycle.operations := by
  rw [mem_scheduled_iff]
  simp only [operationAt_eq_some_iff, List.mem_iff_getElem?]
  constructor
  · rintro ⟨slot, cycle, hcycle, hslot⟩
    exact ⟨cycle, hcycle, slot, hslot⟩
  · rintro ⟨cycle, hcycle, slot, hslot⟩
    exact ⟨slot, cycle, hcycle, hslot⟩

/-- A cycle lies at or behind the landing cycle exactly if no operation from there on has one of the
wires. -/
theorem WellFormed.landing_le_iff {c : Circuit θ} (h : c.WellFormed) {wires : List Wire} {k : Nat} :
    landing wires c.cycles ≤ k ↔
      ∀ j op, (j, op) ∈ c.scheduled → k ≤ j → List.Disjoint wires op.wires := by
  rw [landing_le_iff_isFree]
  constructor
  · intro hfree j op hop hj
    obtain ⟨cycle, hcycle, hmem⟩ := mem_scheduled_iff_mem_cycle.mp hop
    have hindexed := h.indexed cycle (List.mem_of_getElem? hcycle)
    exact (hindexed.isFree_iff wires).mp (hfree j cycle hj hcycle) op hmem
  · intro hdisjoint j cycle hj hcycle
    have hindexed := h.indexed cycle (List.mem_of_getElem? hcycle)
    exact (hindexed.isFree_iff wires).mpr fun op hop =>
      hdisjoint j op (mem_scheduled_iff_mem_cycle.mpr ⟨cycle, hcycle, hop⟩) hj

/-! ## Operations that are accepted -/

/-- An operation that fits is appended at its landing cycle and named by its first wire. -/
theorem append?_eq_ok {c : Circuit θ} {op : Operation θ} (hop : op.WellFormed c.register)
    {anchor : Wire} (hanchor : op.wires.head? = some anchor) :
    c.append? op = .ok (⟨landing op.wires c.cycles, anchor⟩,
      c.insertAt (landing op.wires c.cycles) op) :=
  append?_eq_ok_iff.mpr ⟨(checkOperation_eq_ok_iff hop.placement.length_eq).mpr hop.placement.levels,
    anchor, hanchor, rfl, rfl⟩

/-! ## Cycles and scheduled operations -/

section InsertAt

variable {c : Circuit θ} {k : Nat} {op : Operation θ}

theorem numCycles_insertAt (c : Circuit θ) (k : Nat) (op : Operation θ) :
    (c.insertAt k op).numCycles = if k = c.numCycles then c.numCycles + 1 else c.numCycles := by
  rw [insertAt, numCycles, List.length_modify]
  by_cases hk : k = c.cycles.length <;> simp [numCycles, hk]

/-- Only cycle `k` changes; it is empty before if it is added. -/
theorem getElem?_cycles_insertAt (hk : k ≤ c.numCycles) (j : Nat) :
    (c.insertAt k op).cycles[j]? =
      if j = k then some ((c.cycles[k]?.getD (.empty c.numWires)).insert op) else c.cycles[j]? := by
  have hk : k ≤ c.cycles.length := hk
  rw [insertAt, List.getElem?_modify]
  grind

theorem mem_scheduled_insertAt (hk : k ≤ c.numCycles) {j : Nat} {other : Operation θ} :
    (j, other) ∈ (c.insertAt k op).scheduled ↔
      (j, other) ∈ c.scheduled ∨ j = k ∧ other = op := by
  rw [mem_scheduled_iff_mem_cycle, mem_scheduled_iff_mem_cycle, getElem?_cycles_insertAt hk]
  by_cases hj : j = k
  · subst hj
    cases hcycle : c.cycles[j]? with
    | none => simp [Cycle.insert, Cycle.empty]
    | some cycle => simp [Cycle.insert]
  · simp [hj]

end InsertAt

/-! ## Look-ups -/

/-- A point finds the operation that is scheduled in its cycle and acts on its wire. -/
theorem WellFormed.get?_eq_some_iff_mem_scheduled {c : Circuit θ} (h : c.WellFormed) {point : Point}
    {op : Operation θ} :
    c.get? point = some op ↔ (point.cycle, op) ∈ c.scheduled ∧ point.wire ∈ op.wires := by
  rw [h.get?_eq_some_iff, mem_scheduled_iff_mem_cycle]
  constructor
  · rintro ⟨cycle, hcycle, hop, hwire⟩
    exact ⟨⟨cycle, hcycle, hop⟩, hwire⟩
  · rintro ⟨⟨cycle, hcycle, hop⟩, hwire⟩
    exact ⟨cycle, hcycle, hop, hwire⟩

/-- After an operation was added at its landing cycle, its points find it and the others find what they
found before. -/
theorem WellFormed.get?_insertAt {c : Circuit θ} (h : c.WellFormed) {op : Operation θ}
    (hop : op.WellFormed c.register) (point : Point) :
    (c.insertAt (landing op.wires c.cycles) op).get? point =
      if point.cycle = landing op.wires c.cycles ∧ point.wire ∈ op.wires then some op
      else c.get? point := by
  have hk : landing op.wires c.cycles ≤ c.numCycles := landing_le_length _ _
  apply Option.ext
  intro other
  rw [(h.insertAt hop).get?_eq_some_iff_mem_scheduled, mem_scheduled_insertAt hk]
  split
  · next hpoint =>
      obtain ⟨hcycle, hwire⟩ := hpoint
      rw [Option.some.injEq]
      constructor
      · rintro ⟨hmem | ⟨-, rfl⟩, hother⟩
        -- The wire was free in the landing cycle.
        · have hdisjoint := h.landing_le_iff.mp (Nat.le_refl _) _ _ hmem (Nat.le_of_eq hcycle.symm)
          exact absurd hother (hdisjoint hwire)
        · rfl
      · rintro rfl
        exact ⟨.inr ⟨hcycle, rfl⟩, hwire⟩
  · next hpoint =>
      rw [h.get?_eq_some_iff_mem_scheduled]
      refine and_congr_left fun hother => or_iff_left ?_
      rintro ⟨hcycle, rfl⟩
      exact hpoint ⟨hcycle, hother⟩

end Circuit
end QuditCircuits
