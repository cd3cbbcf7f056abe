import Mathlib.Data.List.Chain
import Mathlib.Order.Bounds.Basic
import QuditCircuits.Proofs.Circuit.Appending
import QuditCircuits.Proofs.Runs

/-!
# Operations are scheduled as early as possible

Operations that are appended one after the other to a circuit without cycles land in the earliest cycles
that their order on each wire allows (`earliestCycles`): an operation comes in the first cycle behind all
earlier operations with which it has a wire in common.  So the circuit is as long as the longest chain of
operations each of which has a wire in common with the next, and none of its cycles is empty.

On any other circuit an operation lands in the first cycle from which its wires are free, which may be
one that lost its operations.  Only the look-ups at the points of the new operation change
(`Circuit.append?_earliest`).
-/

namespace QuditCircuits

variable {θ : Type}

/-! ## Earliest cycles -/

/-- Two operations meet if they have a wire in common. -/
def Operation.Meets (op op' : Operation θ) : Prop :=
  ∃ wire ∈ op.wires, wire ∈ op'.wires

instance (op op' : Operation θ) : Decidable (op.Meets op') :=
  inferInstanceAs (Decidable (∃ wire ∈ op.wires, wire ∈ op'.wires))

/-- The cycles of the earlier operations that an operation meets. -/
def metCycles (placed : List (Operation θ × Nat)) (op : Operation θ) : List Nat :=
  (placed.filter fun earlier => op.Meets earlier.1).map Prod.snd

/-- The earliest cycle of an operation behind others, given with their cycles: the first cycle if it meets
none of them, and otherwise the one after the last cycle of those that it meets. -/
def earliestBehind (placed : List (Operation θ × Nat)) (op : Operation θ) : Nat :=
  match (metCycles placed op).max? with
  | none => 0
  | some last => last + 1

/-- Places operations behind others, one after the other, each in its earliest cycle. -/
def placeBehind (placed : List (Operation θ × Nat)) (ops : List (Operation θ)) :
    List (Operation θ × Nat) :=
  ops.foldl (fun placed op => placed ++ [(op, earliestBehind placed op)]) placed

/-- The earliest cycle of each operation of a list. -/
def earliestCycles (ops : List (Operation θ)) : List Nat :=
  (placeBehind [] ops).map Prod.snd

theorem Operation.Meets.symm {op op' : Operation θ} (h : op.Meets op') : op'.Meets op := by
  obtain ⟨wire, hwire, hwire'⟩ := h
  exact ⟨wire, hwire', hwire⟩

theorem Operation.not_meets_iff {op op' : Operation θ} :
    ¬ op.Meets op' ↔ List.Disjoint op.wires op'.wires := by
  simp [Meets, List.Disjoint]

section Placed

variable {placed : List (Operation θ × Nat)} {op : Operation θ} {k : Nat}

theorem mem_metCycles_iff :
    k ∈ metCycles placed op ↔ ∃ earlier, (earlier, k) ∈ placed ∧ op.Meets earlier := by
  simp [metCycles]

theorem earliestBehind_le_iff :
    earliestBehind placed op ≤ k ↔ ∀ j ∈ metCycles placed op, j < k := by
  rw [earliestBehind]
  cases hmax : (metCycles placed op).max? with
  | none => simp [List.max?_eq_none_iff.mp hmax]
  | some last =>
      obtain ⟨hlast, hle⟩ := List.max?_eq_some_iff.mp hmax
      exact ⟨fun hk j hj => Nat.lt_of_le_of_lt (hle j hj) hk, fun hlt => hlt last hlast⟩

/-- An operation that does not come in the first cycle meets one in the cycle before its own. -/
theorem mem_metCycles_of_earliestBehind (h : earliestBehind placed op = k + 1) :
    k ∈ metCycles placed op := by
  rw [earliestBehind] at h
  cases hmax : (metCycles placed op).max? with
  | none => simp [hmax] at h
  | some last =>
      obtain rfl : last = k := by simpa [hmax] using h
      exact (List.max?_eq_some_iff.mp hmax).1

@[simp]
theorem placeBehind_nil (placed : List (Operation θ × Nat)) : placeBehind placed [] = placed := rfl

@[simp]
theorem placeBehind_cons (placed : List (Operation θ × Nat)) (op : Operation θ)
    (ops : List (Operation θ)) :
    placeBehind placed (op :: ops) =
      placeBehind (placed ++ [(op, earliestBehind placed op)]) ops := rfl

theorem map_fst_placeBehind (placed : List (Operation θ × Nat)) (ops : List (Operation θ)) :
    (placeBehind placed ops).map Prod.fst = placed.map Prod.fst ++ ops := by
  induction ops generalizing placed with
  | nil => simp
  | cons op ops ih => simp [ih]

end Placed

/-! ## Chains -/

/-- The lengths of the chains in a list of operations: of its subsequences in which each operation meets
the next. -/
def chainLengths (ops : List (Operation θ)) : Set Nat :=
  {n | ∃ chain : List (Operation θ), chain.Sublist ops ∧ chain.IsChain Operation.Meets ∧
    chain.length = n}

/-- Operations that meet come in different cycles, in their order, and to every operation leads a chain
that passes through all cycles before its own. -/
structure Tiered (placed : List (Operation θ × Nat)) : Prop where
  increasing : placed.Pairwise fun earlier later => earlier.1.Meets later.1 → earlier.2 < later.2
  reached : ∀ last ∈ placed, ∃ chain : List (Operation θ), chain.Sublist (placed.map Prod.fst) ∧
    chain.IsChain Operation.Meets ∧ chain.getLast? = some last.1 ∧ chain.length = last.2 + 1

namespace Tiered

variable {placed : List (Operation θ × Nat)}

theorem nil : Tiered ([] : List (Operation θ × Nat)) where
  increasing := .nil
  reached := by simp

/-- An operation that does not come first extends a chain to one that it meets in the cycle before. -/
theorem reached_earliestBehind (h : Tiered placed) (op : Operation θ) :
    ∃ chain : List (Operation θ), chain.Sublist (placed.map Prod.fst ++ [op]) ∧
      chain.IsChain Operation.Meets ∧ chain.getLast? = some op ∧
      chain.length = earliestBehind placed op + 1 := by
  cases hk : earliestBehind placed op with
  | zero => exact ⟨[op], List.sublist_append_right _ _, .singleton op, rfl, rfl⟩
  | succ k =>
      obtain ⟨earlier, hmem, hmeets⟩ :=
        mem_metCycles_iff.mp (mem_metCycles_of_earliestBehind hk)
      obtain ⟨chain, hsub, hchain, hlast, hlen⟩ := h.reached _ hmem
      refine ⟨chain ++ [op], hsub.append_right _, ?_, by simp, by simp [hlen]⟩
      refine hchain.append (.singleton op) fun x hx y hy => ?_
      obtain rfl : earlier = x := by simpa [hlast] using hx
      obtain rfl : op = y := by simpa using hy
      exact hmeets.symm

theorem concat (h : Tiered placed) (op : Operation θ) :
    Tiered (placed ++ [(op, earliestBehind placed op)]) where
  increasing := by
    refine List.pairwise_append.mpr ⟨h.increasing, List.pairwise_singleton _ _, ?_⟩
    rintro ⟨earlier, k⟩ hearlier _ hlater hmeets
    obtain rfl := List.mem_singleton.mp hlater
    exact earliestBehind_le_iff.mp (Nat.le_refl _) k
      (mem_metCycles_iff.mpr ⟨earlier, hearlier, hmeets.symm⟩)
  reached := by
    rw [List.map_append, List.forall_mem_append]
    constructor
    · intro last hlast
      obtain ⟨chain, hsub, hchain⟩ := h.reached last hlast
      exact ⟨chain, hsub.trans (List.sublist_append_left _ _), hchain⟩
    · exact List.forall_mem_singleton.mpr (h.reached_earliestBehind op)

theorem placeBehind (h : Tiered placed) (ops : List (Operation θ)) :
    Tiered (placeBehind placed ops) :=
  List.foldlRecOn ops _ h fun _ hplaced op _ => hplaced.concat op

/-- A chain passes through as many cycles as it has operations. -/
theorem length_add_lt {n : Nat} {first : Operation θ × Nat} {rest : List (Operation θ × Nat)}
    (hincreasing : (first :: rest).Pairwise fun earlier later =>
      earlier.1.Meets later.1 → earlier.2 < later.2)
    (hchain : ((first :: rest).map Prod.fst).IsChain Operation.Meets)
    (hlt : ∀ placed ∈ first :: rest, placed.2 < n) : first.2 + rest.length < n := by
  induction rest generalizing first with
  | nil => exact hlt first List.mem_cons_self
  | cons second rest ih =>
      obtain ⟨hfirst, hincreasing⟩ := List.pairwise_cons.mp hincreasing
      obtain ⟨hmeets, hchain⟩ := List.isChain_cons_cons.mp hchain
      have hnext : first.2 < second.2 := hfirst second List.mem_cons_self hmeets
      have hrest := ih hincreasing hchain fun placed hplaced =>
        hlt placed (List.mem_cons_of_mem _ hplaced)
      rw [List.length_cons]
      omega

theorem le_of_mem_chainLengths (h : Tiered placed) {n m : Nat} (hlt : ∀ p ∈ placed, p.2 < n)
    (hm : m ∈ chainLengths (placed.map Prod.fst)) : m ≤ n := by
  obtain ⟨chain, hchainsub, hchain, rfl⟩ := hm
  obtain ⟨sub, hsub, rfl⟩ := List.sublist_map_iff.mp hchainsub
  cases sub with
  | nil => exact Nat.zero_le n
  | cons first rest =>
      have hlength := length_add_lt (h.increasing.sublist hsub) hchain fun p hp =>
        hlt p (hsub.subset hp)
      rw [List.length_map, List.length_cons]
      omega

/-- The longest chain has as many operations as there are cycles, if none of the cycles is empty. -/
theorem isGreatest_chainLengths (h : Tiered placed) {n : Nat} (hlt : ∀ p ∈ placed, p.2 < n)
    (hfilled : ∀ k < n, ∃ op, (op, k) ∈ placed) :
    IsGreatest (chainLengths (placed.map Prod.fst)) n := by
  refine ⟨?_, fun m hm => h.le_of_mem_chainLengths hlt hm⟩
  cases n with
  | zero => exact ⟨[], List.nil_sublist _, .nil, rfl⟩
  | succ n =>
      obtain ⟨op, hop⟩ := hfilled n (Nat.lt_succ_self n)
      obtain ⟨chain, hsub, hchain, -, hlen⟩ := h.reached _ hop
      exact ⟨chain, hsub, hchain, hlen⟩

end Tiered

/-! ## Appending one after the other -/

namespace Circuit

/-- Appends operations one after the other, none of which may be refused.  The points at which they land
are listed in the same order. -/
def appendEach? (c : Circuit θ) : List (Operation θ) → Except ShapeError (List Point × Circuit θ)
  | [] => .ok ([], c)
  | op :: ops => do
      let (point, longer) ← c.append? op
      let (points, last) ← longer.appendEach? ops
      return (point :: points, last)

/-- The circuit holds the placed operations, each in its cycle, and no cycle is empty. -/
structure Holds (c : Circuit θ) (placed : List (Operation θ × Nat)) : Prop where
  wellFormed : c.WellFormed
  mem_scheduled_iff : ∀ k op, (k, op) ∈ c.scheduled ↔ (op, k) ∈ placed
  filled : ∀ k < c.numCycles, ∃ op, (op, k) ∈ placed

namespace Holds

variable {c c' : Circuit θ} {placed : List (Operation θ × Nat)}

theorem empty (R : Register) : (Circuit.empty R : Circuit θ).Holds [] where
  wellFormed := wellFormed_empty R
  mem_scheduled_iff := by simp [scheduled, Circuit.empty]
  filled := by simp [numCycles, Circuit.empty]

theorem landing_eq (h : c.Holds placed) (op : Operation θ) :
    landing op.wires c.cycles = earliestBehind placed op := by
  refine eq_of_forall_ge_iff fun k => ?_
  rw [h.wellFormed.landing_le_iff, earliestBehind_le_iff]
  constructor
  · intro hdisjoint j hj
    obtain ⟨earlier, hmem, hmeets⟩ := mem_metCycles_iff.mp hj
    by_contra hle
    exact Operation.not_meets_iff.mpr
      (hdisjoint j earlier ((h.mem_scheduled_iff j earlier).mpr hmem) (Nat.le_of_not_lt hle)) hmeets
  · intro hlt j earlier hmem hle
    refine Operation.not_meets_iff.mp fun hmeets => Nat.not_lt_of_le hle (hlt j ?_)
    exact mem_metCycles_iff.mpr ⟨earlier, (h.mem_scheduled_iff j earlier).mp hmem, hmeets⟩

/-- An operation lands in its earliest cycle, which is either not empty or new. -/
theorem append (h : c.Holds placed) {op : Operation θ} {point : Point} (hmade : op.Made)
    (hgate : op.gate.WellFormed) (happend : c.append? op = .ok (point, c')) :
    point.cycle = earliestBehind placed op ∧
      c'.Holds (placed ++ [(op, earliestBehind placed op)]) := by
  have hwell := h.wellFormed.append hmade hgate happend
  obtain ⟨-, anchor, -, rfl, rfl⟩ := append?_eq_ok_iff.mp happend
  have hle : landing op.wires c.cycles ≤ c.numCycles := landing_le_length _ _
  rw [← h.landing_eq op]
  refine ⟨rfl, hwell, fun k other => ?_, fun k hk => ?_⟩
  · rw [mem_scheduled_insertAt hle, h.mem_scheduled_iff, List.mem_append, List.mem_singleton,
      Prod.mk.injEq, and_comm (a := k = _)]
  · rw [numCycles_insertAt] at hk
    rcases Nat.lt_or_ge k c.numCycles with hlt | hge
    · obtain ⟨other, hother⟩ := h.filled k hlt
      exact ⟨other, List.mem_append_left _ hother⟩
    · refine ⟨op, List.mem_append_right _ ?_⟩
      split at hk
      · next heq =>
          have hlast : k = landing op.wires c.cycles := by omega
          rw [hlast, List.mem_singleton]
      · omega

/-- A run of appended operations places each behind those before it. -/
theorem appendEach (h : c.Holds placed) {ops : List (Operation θ)} {points : List Point}
    (hops : ∀ op ∈ ops, op.Made ∧ op.gate.WellFormed)
    (happend : c.appendEach? ops = .ok (points, c')) :
    c'.Holds (placeBehind placed ops) ∧
      (placeBehind placed ops).map Prod.snd = placed.map Prod.snd ++ points.map Point.cycle := by
  induction ops generalizing c placed points with
  | nil =>
      cases happend
      exact ⟨h, by simp⟩
  | cons op ops ih =>
      obtain ⟨⟨hmade, hgate⟩, hops⟩ := List.forall_mem_cons.mp hops
      obtain ⟨⟨point, longer⟩, hpoint, happend⟩ := bind_eq_ok_iff.mp happend
      obtain ⟨⟨others, last⟩, hothers, hlast⟩ := bind_eq_ok_iff.mp happend
      cases hlast
      obtain ⟨hcycle, hholds⟩ := h.append hmade hgate hpoint
      obtain ⟨hholds, hcycles⟩ := ih hholds hops hothers
      refine ⟨hholds, ?_⟩
      rw [placeBehind_cons, hcycles, List.map_cons, hcycle]
      simp

theorem depth_eq (h : c.Holds placed) : c.depth = c.numCycles := by
  refine List.countP_eq_length.mpr fun cycle hcycle => ?_
  obtain ⟨k, hk⟩ := List.mem_iff_getElem?.mp hcycle
  obtain ⟨op, hop⟩ := h.filled k (List.getElem?_eq_some_iff.mp hk).1
  obtain ⟨cycle', hk', hmem⟩ := mem_scheduled_iff_mem_cycle.mp ((h.mem_scheduled_iff k op).mpr hop)
  obtain rfl : cycle = cycle' := Option.some.inj (hk.symm.trans hk')
  simpa using List.ne_nil_of_mem hmem

theorem lt_numCycles (h : c.Holds placed) : ∀ p ∈ placed, p.2 < c.numCycles :=
  fun p hp => lt_numCycles_of_mem_scheduled ((h.mem_scheduled_iff p.2 p.1).mpr hp)

end Holds

/-- Appending is scheduling as soon as possible.  On a circuit without cycles every operation lands in the
earliest cycle behind those before it, and the circuit has as many cycles as its longest chain has
operations.  On every circuit an operation lands, by its first wire, in the first cycle from which its
wires are free; its points then find it, the others find what they found before, and a cycle is added
only if it lands behind the last one.  A refused operation leaves the circuit as it is. -/
theorem append?_earliest :
    (∀ (R : Register) (ops : List (Operation θ)) (points : List Point) (c : Circuit θ),
      (∀ op ∈ ops, (Call.append op).Admissible) →
      (Circuit.empty R).appendEach? ops = .ok (points, c) →
      points.map Point.cycle = earliestCycles ops ∧ c.depth = c.numCycles ∧
        IsGreatest (chainLengths ops) c.numCycles) ∧
    ∀ (c : Circuit θ) (op : Operation θ), c.Reachable → (Call.append op).Admissible →
      (∀ point c', c.append? op = .ok (point, c') →
        op.wires.head? = some point.wire ∧
        IsLeast {k | ∀ j other, (j, other) ∈ c.scheduled → k ≤ j →
          List.Disjoint op.wires other.wires} point.cycle ∧
        (∀ q, c'.get? q =
          if q.cycle = point.cycle ∧ q.wire ∈ op.wires then some op else c.get? q) ∧
        c'.numCycles = if point.cycle = c.numCycles then c.numCycles + 1 else c.numCycles) ∧
      ∀ e, c.append? op = .error e → (Call.append op).perform c = c := by
  constructor
  · intro R ops points c hops happend
    have hmembers : ∀ op ∈ ops, op.Made ∧ op.gate.WellFormed := fun op hop =>
      ⟨(hops op hop).1, Gate.wellFormed_of_reachable (hops op hop).2⟩
    obtain ⟨hholds, hcycles⟩ := (Holds.empty R).appendEach hmembers happend
    have hops : (placeBehind [] ops).map Prod.fst = ops := map_fst_placeBehind [] ops
    have hgreatest := (Tiered.nil.placeBehind ops).isGreatest_chainLengths hholds.lt_numCycles
      hholds.filled
    rw [hops] at hgreatest
    exact ⟨hcycles.symm, hholds.depth_eq, hgreatest⟩
  · rintro c op hc ⟨hmade, hbody⟩
    have hwell := hc.wellFormed
    refine ⟨fun point c' happend => ?_, fun e herror => ?_⟩
    · obtain ⟨hcheck, anchor, hanchor, rfl, rfl⟩ := append?_eq_ok_iff.mp happend
      have hne : op.wires ≠ [] := fun hnil => by simp [hnil] at hanchor
      have hop : op.WellFormed c.register :=
        wellFormed_of_made hmade (Gate.wellFormed_of_reachable hbody) hcheck hne
      refine ⟨hanchor, ⟨?_, fun k hk => ?_⟩, hwell.get?_insertAt hop, numCycles_insertAt c _ op⟩
      · exact hwell.landing_le_iff.mp (Nat.le_refl _)
      · exact hwell.landing_le_iff.mpr hk
    · exact (atomic_append op).after_of_error herror

end Circuit

/-- Two qubits and a wire of three levels. -/
def qubitsAndQutrit : Register :=
  ⟨[2, 2, 3], by decide⟩

/-- A flip on both qubits between gates on one of them, and two gates on the third wire. -/
def flipAndTurns : List (Operation Nat) :=
  [⟨.primitive (.qubit .h), [0], []⟩, ⟨.primitive (.shift ⟨3, by decide⟩), [2], []⟩,
    ⟨.primitive (.qubit .cx), [1, 0], []⟩, ⟨.primitive (.clock ⟨3, by decide⟩), [2], []⟩,
    ⟨.primitive (.qubit .rz), [1], [5]⟩]

/-- The flip is taken out again, so that its cycle has room for an operation on the first wire. -/
def thinnedCircuit : Circuit Nat :=
  (Circuit.ofOperations qubitsAndQutrit flipAndTurns).after [.remove ⟨1, 0⟩]

theorem admissible_flipAndTurns : ∀ op ∈ flipAndTurns, (Call.append op).Admissible := by
  have hmade : ∀ op ∈ flipAndTurns, op.Made := by decide
  have hbody : ∀ op ∈ flipAndTurns, op.gate.body? = none := by simp [flipAndTurns, Gate.body?]
  exact fun op hop => ⟨hmade op hop, by simp [hbody op hop]⟩

theorem reachable_thinnedCircuit : thinnedCircuit.Reachable := by
  have hbuilt : (Circuit.ofOperations qubitsAndQutrit flipAndTurns).Reachable :=
    .ofOperations _ (fun op hop => (admissible_flipAndTurns op hop).1) fun op hop =>
      (admissible_flipAndTurns op hop).2
  exact hbuilt.after (by simp [Call.Admissible])

theorem append?_earliest_thinnedCircuit :
    (∃ points c, (Circuit.empty qubitsAndQutrit).appendEach? flipAndTurns = .ok (points, c) ∧
        points.map Point.cycle = [0, 0, 1, 1, 2] ∧ earliestCycles flipAndTurns = [0, 0, 1, 1, 2] ∧
        c.depth = 3 ∧ IsGreatest (chainLengths flipAndTurns) 3) ∧
      thinnedCircuit.Reachable ∧ thinnedCircuit.numCycles = 3 ∧ thinnedCircuit.get? ⟨1, 1⟩ = none ∧
      ∃ c', thinnedCircuit.append? ⟨.primitive (.qubit .x), [0], []⟩ = .ok (⟨1, 0⟩, c') ∧
        c'.get? ⟨1, 0⟩ = some ⟨.primitive (.qubit .x), [0], []⟩ ∧
        c'.get? ⟨2, 1⟩ = thinnedCircuit.get? ⟨2, 1⟩ ∧ c'.numCycles = 3 := by
  obtain ⟨hruns, hsteps⟩ := Circuit.append?_earliest (θ := Nat)
  refine ⟨⟨_, _, rfl, by decide, ?_⟩, reachable_thinnedCircuit, by decide, rfl, _, rfl, ?_⟩
  · obtain ⟨hcycles, hdepth, hgreatest⟩ := hruns qubitsAndQutrit _ _ _ admissible_flipAndTurns rfl
    exact ⟨hcycles.symm, hdepth, hgreatest⟩
  · obtain ⟨hstep, -⟩ := hsteps thinnedCircuit ⟨.primitive (.qubit .x), [0], []⟩
      reachable_thinnedCircuit ⟨by decide, by simp [Gate.body?]⟩
    obtain ⟨-, -, hget, hcycles⟩ := hstep _ _ rfl
    exact ⟨hget ⟨1, 0⟩, hget ⟨2, 1⟩, hcycles⟩

end QuditCircuits
