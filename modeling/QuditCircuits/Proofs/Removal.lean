import QuditCircuits.Proofs.EarliestCycles

/-!
# Removing takes out one operation and undoes appending

Taking the operation out of a slot moves the slots behind it down, so the look-ups of a cycle have to be
followed through the change.  In a well-formed circuit they need not be: look-ups are determined by the
schedule, and of the schedule one entry is dropped (`Circuit.exists_scheduled_of_remove?`).  No other
operation of that cycle has one of its wires, so its points find nothing afterwards, and all other points
find what they found before (`Circuit.WellFormed.get?_of_remove?`).

An operation that was just appended has the last slot of its cycle.  Taking it out leaves the operations
of the cycle as they were, and with them the slots.  Only a cycle that was added for it stays behind,
empty.
-/

namespace QuditCircuits

variable {θ : Type}

/-! ## One entry of the schedule -/

namespace Circuit

/-- The entries of one cycle lie together in the schedule, between those of the cycles around it. -/
theorem scheduled_eq_of_cycles {c : Circuit θ} {front rest : List (Cycle θ)} {cycle : Cycle θ}
    (hcycles : c.cycles = front ++ cycle :: rest) :
    c.scheduled =
      (front.zipIdx.flatMap fun (cycle, k) => cycle.operations.map fun op => (k, op)) ++
        (cycle.operations.map (fun op => (front.length, op)) ++
          (rest.zipIdx (front.length + 1)).flatMap
            fun (cycle, k) => cycle.operations.map fun op => (k, op)) := by
  rw [scheduled, hcycles, List.zipIdx_append, List.zipIdx_cons, List.flatMap_append,
    List.flatMap_cons, Nat.zero_add]

/-- Removing drops one entry of the schedule and leaves the others in their order. -/
theorem exists_scheduled_of_remove? {c c' : Circuit θ} {point : Point} {op : Operation θ}
    (hremove : c.remove? point = .ok (op, c')) :
    ∃ earlier later, c.scheduled = earlier ++ (point.cycle, op) :: later ∧
      c'.scheduled = earlier ++ later := by
  obtain ⟨slot, hlocate, rfl⟩ := remove?_eq_ok_iff.mp hremove
  obtain ⟨cycle, hcycle, -, hslot⟩ := locate?_eq_some_iff.mp hlocate
  obtain ⟨front, head, rest, hcycles, hlength, hmodify⟩ :=
    List.exists_of_modify (fun cycle => Cycle.erase cycle slot) (List.getElem?_eq_some_iff.mp hcycle).1
  obtain rfl : cycle = head := by simpa [hcycles, ← hlength] using hcycle.symm
  obtain ⟨hlt, rfl⟩ := List.getElem?_eq_some_iff.mp hslot
  -- Within the cycle, the entry is the one in the slot.
  have hops : cycle.operations =
      cycle.operations.take slot ++ cycle.operations[slot] :: cycle.operations.drop (slot + 1) := by
    rw [List.getElem_cons_drop, List.take_append_drop]
  have hrest : (cycle.erase slot).operations =
      cycle.operations.take slot ++ cycle.operations.drop (slot + 1) :=
    List.eraseIdx_eq_take_drop_succ _ _
  rw [scheduled_eq_of_cycles hcycles, scheduled_eq_of_cycles hmodify, hrest, hlength]
  nth_rewrite 1 [hops]
  simp only [List.map_append, List.map_cons, List.append_assoc, List.cons_append]
  exact ⟨_ ++ _, _, (List.append_assoc _ _ _).symm, (List.append_assoc _ _ _).symm⟩

/-- The points of the removed operation find nothing, and the others find what they found before. -/
theorem WellFormed.get?_of_remove? {c c' : Circuit θ} (h : c.WellFormed) {point : Point}
    {op : Operation θ} (hremove : c.remove? point = .ok (op, c')) (q : Point) :
    c'.get? q = if q.cycle = point.cycle ∧ q.wire ∈ op.wires then none else c.get? q := by
  obtain ⟨earlier, later, hbefore, hafter⟩ := exists_scheduled_of_remove? hremove
  apply Option.ext
  intro other
  rw [(h.remove hremove).get?_eq_some_iff_mem_scheduled, hafter, List.mem_append]
  split
  · next hq =>
      obtain ⟨hcycle, hwire⟩ := hq
      -- Entries of one cycle have no wire in common with the dropped one.
      have hlayered := h.layered_scheduled
      rw [hbefore, Layered, List.pairwise_append] at hlayered
      obtain ⟨-, hlater, hearlier⟩ := hlayered
      refine iff_of_false ?_ (by simp)
      rintro ⟨hmem | hmem, hother⟩
      · rcases hearlier _ hmem _ List.mem_cons_self with hlt | hdisjoint
        · exact Nat.ne_of_lt hlt hcycle
        · exact hdisjoint hother hwire
      · rcases List.rel_of_pairwise_cons hlater hmem with hlt | hdisjoint
        · exact Nat.ne_of_gt hlt hcycle
        · exact hdisjoint hwire hother
  · next hq =>
      rw [h.get?_eq_some_iff_mem_scheduled, hbefore, List.mem_append, List.mem_cons, Prod.mk.injEq]
      refine and_congr_left fun hother => ?_
      have hne : ¬ (q.cycle = point.cycle ∧ other = op) := by
        rintro ⟨hcycle, rfl⟩
        exact hq ⟨hcycle, hother⟩
      rw [or_iff_right hne]

/-! ## Points with and without an operation -/

theorem remove?_eq_error_of_get? {c : Circuit θ} {point : Point} (hget : c.get? point = none) :
    c.remove? point = .error (.noOperation point) := by
  rw [remove?_eq, locateOrFail, Option.map_eq_none_iff.mp hget]
  rfl

theorem exists_remove?_of_get? {c : Circuit θ} {point : Point} {op : Operation θ}
    (hget : c.get? point = some op) : ∃ c', c.remove? point = .ok (op, c') := by
  obtain ⟨slot, hlocate⟩ := get?_eq_some_iff.mp hget
  exact ⟨_, remove?_eq_ok_iff.mpr ⟨slot, hlocate, rfl⟩⟩

end Circuit

/-! ## Taking out what was just added -/

/-- Adding an operation on free wires and taking it out again gives the cycle back, slots included. -/
theorem Cycle.Indexed.erase_insert {width : Nat} {cycle : Cycle θ} (h : cycle.Indexed width)
    {op : Operation θ} (hlt : ∀ wire ∈ op.wires, wire < width)
    (hfree : cycle.isFree op.wires = true) :
    (cycle.insert op).erase cycle.operations.length = cycle := by
  refine ((h.insert hlt hfree).erase _).ext h ?_
  rw [Cycle.erase, Cycle.insert, List.eraseIdx_append_of_length_le (Nat.le_refl _), Nat.sub_self]
  exact List.append_nil _

/-- Changing a member to itself changes nothing. -/
theorem modify_eq_of_getElem? {α : Type} {l : List α} {k : Nat} {a : α} {f : α → α}
    (ha : l[k]? = some a) (hf : f a = a) : l.modify k f = l := by
  obtain ⟨front, head, rest, rfl, rfl, hmodify⟩ :=
    List.exists_of_modify f (List.getElem?_eq_some_iff.mp ha).1
  obtain rfl : head = a := by simpa using ha
  rw [hmodify, hf]

namespace Circuit

/-- An operation that was added at its landing cycle can be taken out on any of its wires there.  What is
left is the circuit before, with the cycle that was added for the operation. -/
theorem WellFormed.remove?_insertAt {c : Circuit θ} (h : c.WellFormed) {op : Operation θ}
    (hop : op.WellFormed c.register) {wire : Wire} (hwire : wire ∈ op.wires) :
    (c.insertAt (landing op.wires c.cycles) op).remove? ⟨landing op.wires c.cycles, wire⟩ =
      .ok (op, c.roomFor op.wires) := by
  obtain ⟨cycle, hcycle, ⟨-, hindexed⟩, hfree⟩ := h.exists_cycle_roomFor op.wires
  have hlt : ∀ wire ∈ op.wires, wire < c.register.width := fun _ => hop.lt_width
  rw [insertAt_landing]
  refine remove?_eq_ok_iff.mpr ⟨cycle.operations.length, ?_, ?_⟩
  -- The operation has the last slot of the cycle.
  · refine Circuit.locate?_eq_some_iff.mpr
      ⟨cycle.insert op, by simp [hcycle], ?_, List.getElem?_concat_length⟩
    rw [Cycle.slot?_insert (hindexed.length_slots.symm ▸ hlt), if_pos hwire]
  · have hback : (c.roomFor op.wires).cycles.modify (landing op.wires c.cycles)
        (fun cycle' => (cycle'.insert op).erase cycle.operations.length) =
          (c.roomFor op.wires).cycles :=
      modify_eq_of_getElem? hcycle (hindexed.erase_insert hlt hfree)
    simp only [List.modify_modify_eq, Function.comp_def, hback]
    exact roomFor_eq c op.wires

/-- Removing is exact, and undoes appending.  At a point without an operation nothing can be removed, and
the circuit stays as it is.  At a point with an operation, that operation is taken out: its points find
nothing afterwards, the others find what they found before, and the remaining operations stay in their
cycles and in their order.  An operation that was appended can be removed at any of its wires, which
gives the circuit back as it was, with an empty cycle at the end if one was added. -/
theorem Reachable.remove?_exact {c : Circuit θ} (h : c.Reachable) :
    (∀ point, c.get? point = none →
      c.remove? point = .error (.noOperation point) ∧ (Call.remove point).perform c = c) ∧
    (∀ point op, c.get? point = some op → ∃ c', c.remove? point = .ok (op, c') ∧
      c'.register = c.register ∧ c'.numCycles = c.numCycles ∧
      (∀ q, c'.get? q =
        if q.cycle = point.cycle ∧ q.wire ∈ op.wires then none else c.get? q) ∧
      ∃ earlier later, c.scheduled = earlier ++ (point.cycle, op) :: later ∧
        c'.scheduled = earlier ++ later) ∧
    ∀ op point c', (Call.append op).Admissible → c.append? op = .ok (point, c') →
      point.wire ∈ op.wires ∧ ∀ wire ∈ op.wires, c'.remove? ⟨point.cycle, wire⟩ =
        .ok (op, if c'.numCycles = c.numCycles then c else c.extended) := by
  have hwell := h.wellFormed
  refine ⟨fun point hget => ?_, fun point op hget => ?_, ?_⟩
  · have herror := remove?_eq_error_of_get? hget
    exact ⟨herror, (atomic_remove point).after_of_error herror⟩
  · obtain ⟨c', hremove⟩ := exists_remove?_of_get? hget
    obtain ⟨slot, -, hc'⟩ := remove?_eq_ok_iff.mp hremove
    refine ⟨c', hremove, ?_, ?_, hwell.get?_of_remove? hremove, exists_scheduled_of_remove? hremove⟩
    · rw [hc']
    · rw [hc', numCycles, List.length_modify, numCycles]
  · rintro op point c' ⟨hmade, hbody⟩ happend
    have hop : op.WellFormed c.register :=
      wellFormed_of_append? hmade (Gate.wellFormed_of_reachable hbody) happend
    obtain ⟨-, anchor, hanchor, rfl, rfl⟩ := append?_eq_ok_iff.mp happend
    refine ⟨List.mem_of_head? hanchor, fun wire hwire => ?_⟩
    rw [hwell.remove?_insertAt hop hwire, numCycles_insertAt, roomFor]
    split <;> simp

end Circuit

theorem remove?_exact_thinnedCircuit :
    thinnedCircuit.Reachable ∧
      thinnedCircuit.remove? ⟨1, 1⟩ = .error (.noOperation ⟨1, 1⟩) ∧
      (∃ c', thinnedCircuit.remove? ⟨0, 0⟩ = .ok (⟨.primitive (.qubit .h), [0], []⟩, c') ∧
        c'.numCycles = 3 ∧ c'.get? ⟨0, 0⟩ = none ∧
        c'.get? ⟨0, 2⟩ = some ⟨.primitive (.shift ⟨3, by decide⟩), [2], []⟩) ∧
      (∃ c', thinnedCircuit.append? ⟨.primitive (.qubit .x), [0], []⟩ = .ok (⟨1, 0⟩, c') ∧
        c'.remove? ⟨1, 0⟩ = .ok (⟨.primitive (.qubit .x), [0], []⟩, thinnedCircuit)) ∧
      ∃ c', thinnedCircuit.append? ⟨.primitive (.qubit .cx), [0, 1], []⟩ = .ok (⟨3, 0⟩, c') ∧
        c'.remove? ⟨3, 1⟩ = .ok (⟨.primitive (.qubit .cx), [0, 1], []⟩, thinnedCircuit.extended) := by
  obtain ⟨hnone, hsome, hundo⟩ := reachable_thinnedCircuit.remove?_exact
  refine ⟨reachable_thinnedCircuit, (hnone _ rfl).1, ?_, ?_, ?_⟩
  · obtain ⟨c', hremove, -, hcycles, hget, -⟩ := hsome ⟨0, 0⟩ _ rfl
    exact ⟨c', hremove, hcycles, hget ⟨0, 0⟩, hget ⟨0, 2⟩⟩
  · obtain ⟨-, hundo⟩ := hundo ⟨.primitive (.qubit .x), [0], []⟩ ⟨1, 0⟩ _
      ⟨by decide, by simp [Gate.body?]⟩ rfl
    exact ⟨_, rfl, hundo 0 (by decide)⟩
  · obtain ⟨-, hundo⟩ := hundo ⟨.primitive (.qubit .cx), [0, 1], []⟩ ⟨3, 0⟩ _
      ⟨by decide, by simp [Gate.body?]⟩ rfl
    exact ⟨_, rfl, hundo 1 (by decide)⟩

end QuditCircuits
