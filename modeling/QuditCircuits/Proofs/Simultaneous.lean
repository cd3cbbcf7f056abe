import QuditCircuits.Proofs.Circuit.Coherence
import QuditCircuits.Proofs.Circuit.Faults
import QuditCircuits.Proofs.Runs

/-!
# Replacing all at once

A replacement in one step succeeds or is refused as a whole.  When it succeeds, every pair of a point
and an operation has taken effect and nothing else has changed (`Circuit.Replaced`), and the result
does not depend on the order of the pairs; it is also what comes out when the pairs are given one at a
time, in any order.  The reason is that a replacement takes over the wires of the operation it
replaces, so a point names the same slot before and after, and pairs with different slots do not see
each other.

`replace?_simultaneous` puts this together with the condition under which a replacement succeeds and
the error of one that is refused.
-/

namespace QuditCircuits

variable {θ : Type}

namespace Circuit

/-- Replaces the operations at points one after the other, each in a step of its own. -/
def replaceEach? (c : Circuit θ) (pairs : List (Point × Operation θ))
    (accepts : Operation θ → Bool) : Except (SiteError θ) (Circuit θ) :=
  pairs.foldlM (fun d pair => d.replace? [pair.1] [pair.2] accepts) c

/-- The point finds an accepted operation, and the new operation lies on the wires of that one, with
the levels that the register has there. -/
def Takes (c : Circuit θ) (accepts : Operation θ → Bool) (point : Point) (op : Operation θ) : Prop :=
  ∃ current, c.get? point = some current ∧ accepts current = true ∧
    op.wires.map c.register.levelsOf? = op.gate.register.levels.map some ∧
    ∀ wire, wire ∈ current.wires ↔ wire ∈ op.wires

/-- What a replacement in one step does to a circuit. -/
structure Replaced (c : Circuit θ) (points : List Point) (ops : List (Operation θ))
    (c' : Circuit θ) : Prop where
  register_eq : c'.register = c.register
  numCycles_eq : c'.numCycles = c.numCycles
  /-- Every point names the slot that it named before. -/
  slotOf?_eq : ∀ point, c'.slotOf? point = c.slotOf? point
  /-- The `i`-th operation takes the slot that the `i`-th point names, and is found there on each of
  its wires. -/
  filled : ∀ (i : Nat) point op, points[i]? = some point → ops[i]? = some op →
    ∃ slot, c.slotOf? point = some (point.cycle, slot) ∧ c'.operationAt point.cycle slot = some op ∧
      ∀ wire ∈ op.wires, c'.get? ⟨point.cycle, wire⟩ = some op
  operationAt_eq : ∀ k slot, (∀ point ∈ points, c.slotOf? point ≠ some (k, slot)) →
    c'.operationAt k slot = c.operationAt k slot
  get?_eq : ∀ other, (∀ point ∈ points, c.slotOf? point ≠ c.slotOf? other) →
    c'.get? other = c.get? other

section OneStep

variable {c c' : Circuit θ} (h : c.WellFormed) {points : List Point} {ops : List (Operation θ)}
  {accepts : Operation θ → Bool} (hmade : ∀ op ∈ ops, op.Made)
  (hgates : ∀ op ∈ ops, op.gate.WellFormed) (hreplace : c.replace? points ops accepts = .ok c')

theorem admits_iff_takes {point : Point} {op : Operation θ} (hop : op.Made) :
    c.Admits accepts (point, op) ↔ c.Takes accepts point op := by
  simp only [Admits, Takes, checkOperation_eq_ok_iff (Operation.made_iff.mp hop).1, get?_eq_some_iff]
  constructor
  · rintro ⟨hlevels, slot, current, hlocate, haccepts, hwires⟩
    exact ⟨current, ⟨slot, hlocate⟩, haccepts, hlevels, hwires⟩
  · rintro ⟨current, ⟨slot, hlocate⟩, haccepts, hlevels, hwires⟩
    exact ⟨hlevels, slot, current, hlocate, haccepts, hwires⟩

include h hmade hgates hreplace

theorem WellFormed.replaced : c.Replaced points ops c' where
  register_eq := register_of_replace? hreplace
  numCycles_eq := length_cycles_of_replace? hreplace
  slotOf?_eq := h.slotOf?_replace hmade hgates hreplace
  filled i point op hpoint hop := by
    have hmem : (point, op) ∈ points.zip ops :=
      List.mem_of_getElem? (List.getElem?_zip_eq_some.mpr ⟨hpoint, hop⟩)
    obtain ⟨-, hadmits, -⟩ := exists_replace?_eq_ok_iff.mp ⟨c', hreplace⟩
    obtain ⟨-, slot, current, hlocate, -⟩ := hadmits (point, op) hmem
    have hslot := slotOf?_of_locate? hlocate
    have hat := operationAt_of_replace? hreplace hmem hslot
    refine ⟨slot, hslot, hat, fun wire hwire => Circuit.get?_eq_some_iff.mpr ⟨slot, ?_⟩⟩
    exact (h.replace hmade hgates hreplace).locate?_eq_some_iff.mpr ⟨hat, hwire⟩
  operationAt_eq k slot := operationAt_of_replace?_of_not_mem hreplace
  get?_eq other hother := by
    rw [get?_eq_bind, get?_eq_bind, h.slotOf?_replace hmade hgates hreplace]
    cases hslot : c.slotOf? other with
    | none => rfl
    | some key => exact operationAt_of_replace?_of_not_mem hreplace (hslot ▸ hother)

end OneStep

/-! ## The order of the pairs -/

section Order

variable {c c' : Circuit θ} {points : List Point} {ops : List (Operation θ)}
  {accepts : Operation θ → Bool} (hreplace : c.replace? points ops accepts = .ok c')
include hreplace

/-- Replacements with the same pairs put the same operation into every slot. -/
theorem operationAt_eq_of_perm {d : Circuit θ} {points' : List Point} {ops' : List (Operation θ)}
    (hd : c.replace? points' ops' accepts = .ok d)
    (hperm : (points'.zip ops').Perm (points.zip ops)) (k slot : Nat) :
    d.operationAt k slot = c'.operationAt k slot := by
  have hfst : (points.zip ops).map Prod.fst = points :=
    List.map_fst_zip (Nat.le_of_eq (replace?_eq_ok_iff.mp hreplace).1)
  have hfst' : (points'.zip ops').map Prod.fst = points' :=
    List.map_fst_zip (Nat.le_of_eq (replace?_eq_ok_iff.mp hd).1)
  have hpoints : points'.Perm points := by
    rw [← hfst, ← hfst']
    exact hperm.map Prod.fst
  by_cases hnamed : ∃ point ∈ points, c.slotOf? point = some (k, slot)
  · obtain ⟨point, hpoint, hslot⟩ := hnamed
    rw [← hfst, List.mem_map] at hpoint
    obtain ⟨⟨point, op⟩, hmem, rfl⟩ := hpoint
    rw [operationAt_of_replace? hd (hperm.mem_iff.mpr hmem) hslot,
      operationAt_of_replace? hreplace hmem hslot]
  · have hother : ∀ point ∈ points, c.slotOf? point ≠ some (k, slot) :=
      fun point hpoint hslot => hnamed ⟨point, hpoint, hslot⟩
    have hother' : ∀ point ∈ points', c.slotOf? point ≠ some (k, slot) :=
      fun point hpoint => hother point (hpoints.mem_iff.mp hpoint)
    rw [operationAt_of_replace?_of_not_mem hreplace hother,
      operationAt_of_replace?_of_not_mem hd hother']

/-- A replacement succeeds whatever the order of the pairs. -/
theorem exists_replace?_of_perm {pairs : List (Point × Operation θ)}
    (hperm : pairs.Perm (points.zip ops)) :
    ∃ d, c.replace? (pairs.map Prod.fst) (pairs.map Prod.snd) accepts = .ok d := by
  obtain ⟨hlen, hadmits, hnodup⟩ := exists_replace?_eq_ok_iff.mp ⟨c', hreplace⟩
  have hpoints : (pairs.map Prod.fst).Perm points := by
    simpa [List.map_fst_zip (Nat.le_of_eq hlen)] using hperm.map Prod.fst
  refine exists_replace?_eq_ok_iff.mpr ⟨by simp, ?_, (hpoints.map _).nodup_iff.mpr hnodup⟩
  rw [← List.zip_of_prod rfl rfl]
  exact fun pair hpair => hadmits pair (hperm.mem_iff.mp hpair)

/-- Well-formed circuits are equal if all slots hold the same, so the result is the same as well. -/
theorem WellFormed.replace?_of_perm (h : c.WellFormed) (hmade : ∀ op ∈ ops, op.Made)
    (hgates : ∀ op ∈ ops, op.gate.WellFormed) {pairs : List (Point × Operation θ)}
    (hperm : pairs.Perm (points.zip ops)) :
    c.replace? (pairs.map Prod.fst) (pairs.map Prod.snd) accepts = .ok c' := by
  obtain ⟨d, hd⟩ := exists_replace?_of_perm hreplace hperm
  have hops : ∀ op ∈ pairs.map Prod.snd, op ∈ ops := by
    intro op hop
    obtain ⟨pair, hpair, rfl⟩ := List.mem_map.mp hop
    exact (List.of_mem_zip (hperm.mem_iff.mp hpair)).2
  have hwell : d.WellFormed :=
    h.replace (fun op hop => hmade op (hops op hop)) (fun op hop => hgates op (hops op hop)) hd
  have hzip : ((pairs.map Prod.fst).zip (pairs.map Prod.snd)).Perm (points.zip ops) := by
    rwa [← List.zip_of_prod rfl rfl]
  have heq : d = c' := by
    refine hwell.ext_operationAt (h.replace hmade hgates hreplace) ?_ ?_
      (operationAt_eq_of_perm hreplace hd hzip)
    · rw [register_of_replace? hd, register_of_replace? hreplace]
    · rw [length_cycles_of_replace? hd, length_cycles_of_replace? hreplace]
  rw [hd, heq]

end Order

/-! ## One pair at a time -/

theorem Resolves.replace?_eq {c : Circuit θ} {accepts : Operation θ → Bool}
    {pair : Point × Operation θ} {r : Replacement θ} (h : c.Resolves accepts pair r) :
    c.replace? [pair.1] [pair.2] accepts = .ok (c.overwrite r) :=
  replace?_eq_ok_iff.mpr ⟨rfl, [r], .cons h .nil, List.nodup_singleton _, rfl⟩

/-- A pair does not see the replacement of another one. -/
theorem WellFormed.resolves_overwrite {c : Circuit θ} (h : c.WellFormed)
    {accepts : Operation θ → Bool} {pair : Point × Operation θ} {r s : Replacement θ}
    (hfills : c.Fills r) (hresolves : c.Resolves accepts pair s) (hne : s.key ≠ r.key) :
    (c.overwrite r).Resolves accepts pair s := by
  obtain ⟨hcycle, hop, ⟨current, hlocate, hcurrent⟩, hcheck⟩ := hresolves
  have hne' : (pair.1.cycle, s.slot) ≠ r.key := hcycle ▸ hne
  refine ⟨hcycle, hop, ⟨current, ?_, hcurrent⟩, hcheck⟩
  rw [(h.overwrite hfills).locate?_eq_some_iff, operationAt_overwrite, if_neg hne']
  exact h.locate?_eq_some_iff.mp hlocate

theorem WellFormed.replaceEach?_eq_foldl {c : Circuit θ} (h : c.WellFormed)
    {accepts : Operation θ → Bool} {pairs : List (Point × Operation θ)}
    {plan : List (Replacement θ)} (hplan : List.Forall₂ (c.Resolves accepts) pairs plan)
    (hnodup : (plan.map Replacement.key).Nodup)
    (hops : ∀ pair ∈ pairs, pair.2.Made ∧ pair.2.gate.WellFormed) :
    c.replaceEach? pairs accepts = .ok (plan.foldl Circuit.overwrite c) := by
  induction pairs generalizing c plan with
  | nil =>
      cases hplan
      rfl
  | cons pair pairs ih =>
      obtain ⟨r, others, hresolves, hothers, rfl⟩ := List.forall₂_cons_left_iff.mp hplan
      obtain ⟨⟨hmade, hgate⟩, hops⟩ := List.forall_mem_cons.mp hops
      obtain ⟨hhead, hnodup⟩ := List.nodup_cons.mp hnodup
      have hfills : c.Fills r := h.fills hresolves hmade hgate
      -- The slots of the other pairs are different from that of the first.
      have hothers' : List.Forall₂ ((c.overwrite r).Resolves accepts) pairs others := by
        rw [List.forall₂_iff_zip] at hothers ⊢
        refine ⟨hothers.1, fun hmem => h.resolves_overwrite hfills (hothers.2 hmem) fun heq => ?_⟩
        exact hhead (List.mem_map.mpr ⟨_, (List.of_mem_zip hmem).2, heq⟩)
      rw [replaceEach?, List.foldlM_cons, hresolves.replace?_eq]
      exact ih (h.overwrite hfills) hothers' hnodup hops

theorem WellFormed.replaceEach?_eq {c c' : Circuit θ} (h : c.WellFormed)
    {pairs : List (Point × Operation θ)} {accepts : Operation θ → Bool}
    (hops : ∀ pair ∈ pairs, pair.2.Made ∧ pair.2.gate.WellFormed)
    (hreplace : c.replace? (pairs.map Prod.fst) (pairs.map Prod.snd) accepts = .ok c') :
    c.replaceEach? pairs accepts = .ok c' := by
  obtain ⟨-, plan, hplan, hnodup, rfl⟩ := replace?_eq_ok_iff.mp hreplace
  rw [← List.zip_of_prod rfl rfl] at hplan
  exact h.replaceEach?_eq_foldl hplan hnodup hops

/-! ## All at once -/

/-- A replacement in one step is simultaneous and all or nothing.  It succeeds exactly if every pair is
taken and no two points name the same slot; then all pairs take effect and nothing else changes, in
whatever order they are given and also one at a time.  Otherwise the circuit stays as it is, and the
error is that of the first pair with a fault. -/
theorem Reachable.replace?_simultaneous {c : Circuit θ} (h : c.Reachable) {points : List Point}
    {ops : List (Operation θ)} {accepts : Operation θ → Bool}
    (hcall : (Call.replace points ops accepts).Admissible) :
    ((∃ c', c.replace? points ops accepts = .ok c') ↔ points.length = ops.length ∧
        (∀ pair ∈ points.zip ops, c.Takes accepts pair.1 pair.2) ∧ (points.map c.slotOf?).Nodup) ∧
      (∀ c', c.replace? points ops accepts = .ok c' → c.Replaced points ops c' ∧
        ∀ pairs, pairs.Perm (points.zip ops) →
          c.replace? (pairs.map Prod.fst) (pairs.map Prod.snd) accepts = .ok c' ∧
            c.replaceEach? pairs accepts = .ok c') ∧
      ∀ e, (c.replace? points ops accepts = .error e ↔
          points.length ≠ ops.length ∧ e = .countMismatch points.length ops.length ∨
          points.length = ops.length ∧ ∃ i, c.FaultAt accepts points ops i e ∧
            ∀ j < i, ∀ e', ¬ c.FaultAt accepts points ops j e') ∧
        (c.replace? points ops accepts = .error e →
          (Call.replace points ops accepts).perform c = c) := by
  have hmade : ∀ op ∈ ops, op.Made := fun op hop => (hcall op hop).1
  have hgates : ∀ op ∈ ops, op.gate.WellFormed := fun op hop =>
    Gate.wellFormed_of_reachable (hcall op hop).2
  refine ⟨?_, fun c' hreplace => ?_, fun e => ⟨replace?_eq_error_iff, fun hreplace => ?_⟩⟩
  · rw [exists_replace?_eq_ok_iff]
    refine and_congr_right fun _ => and_congr_left fun _ => forall₂_congr fun pair hpair => ?_
    exact admits_iff_takes (hmade _ (List.of_mem_zip hpair).2)
  · refine ⟨h.wellFormed.replaced hmade hgates hreplace, fun pairs hperm => ?_⟩
    have hreplace' := h.wellFormed.replace?_of_perm hreplace hmade hgates hperm
    refine ⟨hreplace', h.wellFormed.replaceEach?_eq (fun pair hpair => ?_) hreplace'⟩
    have hop : pair.2 ∈ ops := (List.of_mem_zip (hperm.mem_iff.mp hpair)).2
    exact ⟨hmade _ hop, hgates _ hop⟩
  · exact (atomic_replace points ops accepts).after_of_changed?_eq_error hreplace

end Circuit

/-- A controlled flip beside a Hadamard gate, and a block after both. -/
def flipThenBlock : Circuit Nat :=
  .ofOperations (.qubits 3)
    [⟨.primitive (.qubit .cx), [0, 1], []⟩, ⟨.primitive (.qubit .h), [2], []⟩,
      ⟨turnedFlip, [2, 0], [7]⟩]

/-- A point of the flip and one of the block, neither by the first wire. -/
def crossingPoints : List Point :=
  [⟨0, 1⟩, ⟨1, 0⟩]

/-- A block for the flip and a flip for the block, each with the wires exchanged. -/
def crossingOperations : List (Operation Nat) :=
  [⟨turnedFlip, [1, 0], [5]⟩, ⟨.primitive (.qubit .cx), [0, 2], []⟩]

/-- Accepts what is replaced, and the new operations as well. -/
def onTwoWires (op : Operation Nat) : Bool :=
  op.wires.length == 2

theorem reachable_flipThenBlock : flipThenBlock.Reachable :=
  .ofOperations _ (by decide) (by simpa [Gate.body?] using reachable_of_body?_turnedFlip)

theorem admissible_crossing :
    (Call.replace crossingPoints crossingOperations onTwoWires).Admissible := by
  have hmade : ∀ op ∈ crossingOperations, op.Made := by decide
  refine fun op hop => ⟨hmade op hop, fun body hbody => ?_⟩
  simp only [crossingOperations, List.mem_cons, List.not_mem_nil, or_false] at hop
  rcases hop with rfl | rfl
  · exact reachable_of_body?_turnedFlip body hbody
  · cases hbody

theorem replace?_simultaneous_crossing :
    flipThenBlock.Reachable ∧ (Call.replace crossingPoints crossingOperations onTwoWires).Admissible ∧
      ∃ c', flipThenBlock.replace? crossingPoints crossingOperations onTwoWires = .ok c' ∧
        (c'.cycles.map fun cycle => cycle.operations.map fun op => (op.gate.name, op.wires)) =
          [[("turned_flip", [1, 0]), ("h", [2])], [("cx", [0, 2])]] ∧
        flipThenBlock.Replaced crossingPoints crossingOperations c' ∧
        flipThenBlock.replaceEach? (crossingPoints.zip crossingOperations).reverse onTwoWires =
          .ok c' := by
  refine ⟨reachable_flipThenBlock, admissible_crossing, ?_⟩
  obtain ⟨-, hok, -⟩ := reachable_flipThenBlock.replace?_simultaneous admissible_crossing
  refine ⟨_, rfl, by decide, ?_⟩
  obtain ⟨hreplaced, horder⟩ := hok _ rfl
  exact ⟨hreplaced, (horder _ (List.reverse_perm _)).2⟩

-- The second pair names the flip again, and the third names nothing.
example : flipThenBlock.replace? [⟨0, 0⟩, ⟨0, 1⟩, ⟨5, 0⟩]
    (List.replicate 3 ⟨.primitive (.qubit .cx), [1, 0], []⟩) onTwoWires =
      .error (.sameOperation ⟨0, 1⟩ ⟨0, 0⟩) := rfl

end QuditCircuits
