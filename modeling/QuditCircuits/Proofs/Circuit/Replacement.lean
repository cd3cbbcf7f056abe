import QuditCircuits.Circuit.Replace
import QuditCircuits.Proofs.Circuit.Scheduling

/-!
# What a replacement in one step does

`replace?_eq_ok_iff` reads the checks of a replacement back: it succeeds exactly when every pair of a
point and an operation resolves against the circuit as it was (`Circuit.Resolves`) and no slot is
named twice.  What the result holds is then said slot by slot (`Circuit.operationAt`): a slot that is
named holds its new operation, every other slot what it held before.
-/

namespace QuditCircuits

variable {θ : Type}

/-- The slot that a replacement fills, with its cycle. -/
def Replacement.key (r : Replacement θ) : Nat × Nat :=
  (r.cycle, r.slot)

theorem sameWires_iff {wires wires' : List Wire} :
    sameWires wires wires' = true ↔ ∀ wire, wire ∈ wires ↔ wire ∈ wires' := by
  simp only [sameWires, Bool.and_eq_true, List.all_eq_true, List.contains_iff_mem]
  exact ⟨fun h wire => ⟨h.1 wire, h.2 wire⟩, fun h => ⟨fun w => (h w).mp, fun w => (h w).mpr⟩⟩

namespace Circuit

/-! ## Slot by slot -/

/-- The operation in a slot of a cycle. -/
def operationAt (c : Circuit θ) (k slot : Nat) : Option (Operation θ) :=
  c.cycles[k]?.bind fun cycle => cycle.operations[slot]?

theorem operationAt_eq_some_iff {c : Circuit θ} {k slot : Nat} {op : Operation θ} :
    c.operationAt k slot = some op ↔
      ∃ cycle, c.cycles[k]? = some cycle ∧ cycle.operations[slot]? = some op :=
  Option.bind_eq_some_iff

theorem mem_operations_iff {c : Circuit θ} {op : Operation θ} :
    op ∈ c.operations ↔ ∃ k slot, c.operationAt k slot = some op := by
  rw [operations, List.mem_flatMap]
  constructor
  · rintro ⟨cycle, hcycle, hop⟩
    obtain ⟨k, hk⟩ := List.mem_iff_getElem?.mp hcycle
    obtain ⟨slot, hslot⟩ := List.mem_iff_getElem?.mp hop
    exact ⟨k, slot, operationAt_eq_some_iff.mpr ⟨cycle, hk, hslot⟩⟩
  · rintro ⟨k, slot, hat⟩
    obtain ⟨cycle, hk, hslot⟩ := operationAt_eq_some_iff.mp hat
    exact ⟨cycle, List.mem_of_getElem? hk, List.mem_of_getElem? hslot⟩

/-- The scheduled operations of a cycle are those in its slots. -/
theorem mem_scheduled_iff {c : Circuit θ} {k : Nat} {op : Operation θ} :
    (k, op) ∈ c.scheduled ↔ ∃ slot, c.operationAt k slot = some op := by
  rw [scheduled, List.mem_flatMap]
  constructor
  · rintro ⟨⟨cycle, j⟩, hcycle, hop⟩
    obtain ⟨op', hop', heq⟩ := List.mem_map.mp hop
    cases heq
    obtain ⟨slot, hslot⟩ := List.mem_iff_getElem?.mp hop'
    exact ⟨slot, operationAt_eq_some_iff.mpr
      ⟨cycle, List.mem_zipIdx_iff_getElem?.mp hcycle, hslot⟩⟩
  · rintro ⟨slot, hat⟩
    obtain ⟨cycle, hcycle, hslot⟩ := operationAt_eq_some_iff.mp hat
    exact ⟨(cycle, k), List.mem_zipIdx_iff_getElem?.mpr hcycle,
      List.mem_map_of_mem (List.mem_of_getElem? hslot)⟩

/-- In a well-formed circuit a point finds the operation of its cycle that acts on its wire. -/
theorem WellFormed.locate?_eq_some_iff {c : Circuit θ} (h : c.WellFormed) {point : Point}
    {slot : Nat} {op : Operation θ} :
    c.locate? point = some (slot, op) ↔
      c.operationAt point.cycle slot = some op ∧ point.wire ∈ op.wires := by
  rw [Circuit.locate?_eq_some_iff, operationAt_eq_some_iff]
  constructor
  · rintro ⟨cycle, hget, hslot, hop⟩
    have hindexed := h.indexed cycle (List.mem_of_getElem? hget)
    obtain ⟨op', hop', hwire⟩ := (hindexed.slot?_eq_some_iff point.wire slot).mp hslot
    cases hop.symm.trans hop'
    exact ⟨⟨cycle, hget, hop⟩, hwire⟩
  · rintro ⟨⟨cycle, hget, hop⟩, hwire⟩
    have hindexed := h.indexed cycle (List.mem_of_getElem? hget)
    exact ⟨cycle, hget, (hindexed.slot?_eq_some_iff point.wire slot).mpr ⟨op, hop, hwire⟩, hop⟩

theorem get?_eq_some_iff {c : Circuit θ} {point : Point} {op : Operation θ} :
    c.get? point = some op ↔ ∃ slot, c.locate? point = some (slot, op) := by
  simp [get?]

/-- What a point finds is one of the operations, so it is well-formed. -/
theorem WellFormed.wellFormed_of_locate? {c : Circuit θ} (h : c.WellFormed) {point : Point}
    {slot : Nat} {op : Operation θ} (hlocate : c.locate? point = some (slot, op)) :
    op.WellFormed c.register := by
  have hat := (h.locate?_eq_some_iff.mp hlocate).1
  exact h.members op (mem_operations_iff.mpr ⟨_, _, hat⟩)

/-- Sending the operation of every slot through a function is sending the lists of operations. -/
theorem map_operations_eq_map {c c' : Circuit θ} {f : Operation θ → Operation θ}
    (hlen : c'.cycles.length = c.cycles.length)
    (hat : ∀ k slot, c'.operationAt k slot = (c.operationAt k slot).map f) :
    c'.cycles.map Cycle.operations = c.cycles.map fun cycle => cycle.operations.map f := by
  apply List.ext_getElem (by simpa using hlen)
  intro k hk hk'
  simp only [List.length_map] at hk hk'
  apply List.ext_getElem?
  intro slot
  simpa [operationAt, hk, hk'] using hat k slot

theorem operations_eq_map {c c' : Circuit θ} {f : Operation θ → Operation θ}
    (hlen : c'.cycles.length = c.cycles.length)
    (hat : ∀ k slot, c'.operationAt k slot = (c.operationAt k slot).map f) :
    c'.operations = c.operations.map f := by
  rw [operations, operations, List.map_flatMap, List.flatMap_def, map_operations_eq_map hlen hat]
  rfl

/-! ## Filling slots -/

@[simp]
theorem register_overwrite (c : Circuit θ) (r : Replacement θ) :
    (c.overwrite r).register = c.register := rfl

@[simp]
theorem length_cycles_overwrite (c : Circuit θ) (r : Replacement θ) :
    (c.overwrite r).cycles.length = c.cycles.length :=
  List.length_modify _ _ _

/-- An occupied slot holds its new operation. -/
theorem operationAt_overwrite (c : Circuit θ) (r : Replacement θ) (k slot : Nat) :
    (c.overwrite r).operationAt k slot =
      if (k, slot) = r.key then (c.operationAt k slot).map fun _ => r.operation
      else c.operationAt k slot := by
  rw [operationAt, overwrite, List.getElem?_modify, operationAt, Replacement.key]
  cases c.cycles[k]? with
  | none => simp
  | some cycle =>
      by_cases hk : r.cycle = k
      · subst hk
        by_cases hslot : r.slot = slot
        · subst hslot
          cases hop : cycle.operations[r.slot]? <;>
            simp [Cycle.overwrite, List.getElem?_set, hop] <;> grind
        · simp [Cycle.overwrite, List.getElem?_set_ne hslot, Ne.symm hslot]
      · simp [hk, Ne.symm hk]

section Plan

variable {plan : List (Replacement θ)}

@[simp]
theorem register_foldl_overwrite (c : Circuit θ) (plan : List (Replacement θ)) :
    (plan.foldl overwrite c).register = c.register := by
  induction plan generalizing c with
  | nil => rfl
  | cons r plan ih => rw [List.foldl_cons, ih, register_overwrite]

@[simp]
theorem length_cycles_foldl_overwrite (c : Circuit θ) (plan : List (Replacement θ)) :
    (plan.foldl overwrite c).cycles.length = c.cycles.length := by
  induction plan generalizing c with
  | nil => rfl
  | cons r plan ih => rw [List.foldl_cons, ih, length_cycles_overwrite]

theorem operationAt_foldl_overwrite_of_not_mem {c : Circuit θ} {k slot : Nat}
    (hkey : ∀ r ∈ plan, (k, slot) ≠ r.key) :
    (plan.foldl overwrite c).operationAt k slot = c.operationAt k slot := by
  induction plan generalizing c with
  | nil => rfl
  | cons r plan ih =>
      obtain ⟨hhead, hrest⟩ := List.forall_mem_cons.mp hkey
      rw [List.foldl_cons, ih hrest, operationAt_overwrite, if_neg hhead]

/-- A slot that the plan names holds what the plan puts there. -/
theorem operationAt_foldl_overwrite {c : Circuit θ} (hnodup : (plan.map Replacement.key).Nodup)
    {r : Replacement θ} (hr : r ∈ plan) :
    (plan.foldl overwrite c).operationAt r.cycle r.slot =
      (c.operationAt r.cycle r.slot).map fun _ => r.operation := by
  induction plan generalizing c with
  | nil => simp at hr
  | cons head plan ih =>
      rw [List.map_cons, List.nodup_cons] at hnodup
      obtain ⟨hhead, hrest⟩ := hnodup
      have hfresh : ∀ s ∈ plan, head.key ≠ s.key :=
        fun s hs heq => hhead (heq ▸ List.mem_map_of_mem hs)
      rw [List.foldl_cons]
      -- No slot is named twice, so the other replacements leave the slot of `r` alone.
      rcases List.mem_cons.mp hr with rfl | hmem
      · rw [operationAt_foldl_overwrite_of_not_mem hfresh, operationAt_overwrite]
        exact if_pos rfl
      · rw [ih hrest hmem, operationAt_overwrite]
        exact congrArg _ (if_neg (hfresh r hmem).symm)

end Plan

/-! ## The checks -/

/-- A pair of a point and an operation passes its own checks and gives the replacement `r`. -/
structure Resolves (c : Circuit θ) (accepts : Operation θ → Bool) (pair : Point × Operation θ)
    (r : Replacement θ) : Prop where
  /-- The replacement is made in the cycle of the point. -/
  cycle_eq : r.cycle = pair.1.cycle
  /-- The new operation is the given one. -/
  operation_eq : r.operation = pair.2
  /-- The point finds an accepted operation on the wires of the new one. -/
  current : ∃ current, c.locate? pair.1 = some (r.slot, current) ∧ accepts current = true ∧
    ∀ wire, wire ∈ current.wires ↔ wire ∈ pair.2.wires
  /-- The new operation has wires of the register with their levels. -/
  check : c.checkOperation pair.2 = .ok ()

theorem lookup_eq_none_iff {earlier : List ((Nat × Nat) × Point)} {key : Nat × Nat} :
    earlier.lookup key = none ↔ key ∉ earlier.map Prod.fst := by
  simp only [List.lookup_eq_none_iff, List.mem_map, not_exists, not_and, bne_iff_ne, ne_eq]
  exact forall₂_congr fun _ _ => not_congr eq_comm

theorem resolve_eq_ok_iff {c : Circuit θ} {accepts : Operation θ → Bool}
    {earlier : List ((Nat × Nat) × Point)} {point : Point} {op : Operation θ} {slot : Nat} :
    c.resolve accepts earlier point op = .ok slot ↔
      c.Resolves accepts (point, op) ⟨point.cycle, slot, op⟩ ∧
        (point.cycle, slot) ∉ earlier.map Prod.fst := by
  rw [← lookup_eq_none_iff, resolve]
  constructor
  -- The checks fire in the order: point, acceptance, slots named before, shape, wires.
  · intro h
    split at h
    · exact absurd h throw_ne_ok
    · next found current hfound =>
        rw [guard_eq_ok_iff] at h
        obtain ⟨haccepts, h⟩ := h
        split at h
        · exact absurd h throw_ne_ok
        · next hlookup =>
            rw [check_bind_eq_ok_iff, guard_eq_ok_iff, SiteError.ofShape_eq_ok_iff] at h
            obtain ⟨hcheck, hwires, hslot⟩ := h
            obtain rfl : found = slot := pure_eq_ok_iff.mp hslot
            refine ⟨⟨rfl, rfl, ⟨current, hfound, by simpa using haccepts, ?_⟩, hcheck⟩, hlookup⟩
            exact sameWires_iff.mp (by simpa using hwires)
  · rintro ⟨⟨-, -, ⟨current, hfound, haccepts, hwires⟩, hcheck⟩, hlookup⟩
    have hsame : sameWires current.wires op.wires = true := sameWires_iff.mpr hwires
    have hcheck' : c.checkOperation op = .ok () := hcheck
    have hfound' : c.locate? point = some (slot, current) := hfound
    simp [hfound', haccepts, hlookup, hsame, hcheck', SiteError.ofShape, Except.mapError]

/-- The plan of a replacement: every pair resolves, and no slot is named twice. -/
theorem planReplacements_eq_ok_iff {c : Circuit θ} {accepts : Operation θ → Bool}
    {earlier : List ((Nat × Nat) × Point)} {pairs : List (Point × Operation θ)}
    {plan : List (Replacement θ)} :
    c.planReplacements accepts earlier pairs = .ok plan ↔
      List.Forall₂ (c.Resolves accepts) pairs plan ∧ (plan.map Replacement.key).Nodup ∧
        ∀ r ∈ plan, r.key ∉ earlier.map Prod.fst := by
  -- Every pair adds its slot to those named before, so the induction is over all of `earlier`.
  induction pairs generalizing earlier plan with
  | nil =>
      rw [planReplacements, List.forall₂_nil_left_iff]
      constructor
      · rintro ⟨⟩
        simp
      · rintro ⟨rfl, -⟩
        rfl
  | cons pair pairs ih =>
      obtain ⟨point, op⟩ := pair
      rw [planReplacements, bind_eq_ok_iff]
      simp only [bind_eq_ok_iff, pure_eq_ok_iff, resolve_eq_ok_iff, ih]
      constructor
      · rintro ⟨slot, ⟨hresolves, hfresh⟩, others, ⟨hothers, hnodup, hearlier⟩, rfl⟩
        refine ⟨.cons hresolves hothers, ?_, List.forall_mem_cons.mpr ⟨hfresh, fun r hr => ?_⟩⟩
        · refine List.nodup_cons.mpr ⟨fun hmem => ?_, hnodup⟩
          obtain ⟨r, hr, hkey⟩ := List.mem_map.mp hmem
          exact hearlier r hr (hkey ▸ List.mem_cons_self)
        · exact fun hmem => hearlier r hr (List.mem_cons_of_mem _ hmem)
      · rintro ⟨hall, hnodup, hearlier⟩
        obtain ⟨r, others, hresolves, hothers, rfl⟩ := List.forall₂_cons_left_iff.mp hall
        obtain ⟨hfresh, hfresh'⟩ := List.forall_mem_cons.mp hearlier
        obtain ⟨hhead, htail⟩ := List.nodup_cons.mp hnodup
        obtain ⟨cycle, slot, new⟩ := r
        obtain rfl : cycle = point.cycle := hresolves.cycle_eq
        obtain rfl : new = op := hresolves.operation_eq
        refine ⟨slot, ⟨hresolves, hfresh⟩, others, ⟨hothers, htail, fun r hr hmem => ?_⟩, rfl⟩
        rcases List.mem_cons.mp hmem with heq | hmem
        · exact hhead (List.mem_map.mpr ⟨r, hr, heq⟩)
        · exact hfresh' r hr hmem

/-- The operations of a plan are written one after the other. -/
theorem run_forM_overwrite {ε : Type} (plan : List (Replacement θ)) (c : Circuit θ) :
    (plan.forM (fun r => modify fun c => c.overwrite r) : Mutation θ ε Unit) c =
      .ok () (plan.foldl overwrite c) := by
  induction plan generalizing c with
  | nil => rfl
  | cons r plan ih => exact (Program.bind_of_ok rfl).trans (ih _)

theorem replace?_eq (c : Circuit θ) (points : List Point) (ops : List (Operation θ))
    (accepts : Operation θ → Bool) :
    c.replace? points ops accepts =
      if points.length ≠ ops.length then .error (.countMismatch points.length ops.length)
      else c.planReplacements accepts [] (points.zip ops) >>= fun plan =>
        pure (plan.foldl overwrite c) := by
  unfold replace? Mutation.replace
  split
  · rfl
  · refine (Program.changed?_query_bind _ _ c).trans (congrArg _ (funext fun plan => ?_))
    rw [Program.changed?, Program.outcome, run_forM_overwrite]
    rfl

/-- A replacement that is refused leaves the circuit as it was. -/
theorem atomic_replace (points : List Point) (ops : List (Operation θ))
    (accepts : Operation θ → Bool) : (Mutation.replace points ops accepts).Atomic := by
  unfold Mutation.replace
  split
  · exact fun _ _ _ herror => by cases herror; rfl
  · exact .query_bind fun plan => .of_forall_ok fun c => ⟨_, _, run_forM_overwrite plan c⟩

/-- When a replacement in one step succeeds, and its result. -/
theorem replace?_eq_ok_iff {c c' : Circuit θ} {points : List Point} {ops : List (Operation θ)}
    {accepts : Operation θ → Bool} :
    c.replace? points ops accepts = .ok c' ↔ points.length = ops.length ∧
      ∃ plan, List.Forall₂ (c.Resolves accepts) (points.zip ops) plan ∧
        (plan.map Replacement.key).Nodup ∧ c' = plan.foldl overwrite c := by
  rw [replace?_eq]
  by_cases hlen : points.length = ops.length
  · simp only [hlen, ne_eq, not_true_eq_false, if_false, bind_eq_ok_iff, pure_eq_ok_iff,
      planReplacements_eq_ok_iff, List.map_nil, List.not_mem_nil, not_false_eq_true, implies_true,
      and_true, true_and, and_assoc, eq_comm (a := c')]
  · simp [hlen]

/-! ## When a replacement succeeds, and what it does -/

/-- The cycle and the slot of the operation that a point names. -/
def slotOf? (c : Circuit θ) (point : Point) : Option (Nat × Nat) :=
  (c.locate? point).map fun found => (point.cycle, found.1)

theorem slotOf?_of_locate? {c : Circuit θ} {point : Point} {slot : Nat} {op : Operation θ}
    (h : c.locate? point = some (slot, op)) : c.slotOf? point = some (point.cycle, slot) := by
  rw [slotOf?, h]
  rfl

/-- A point finds what is in the slot that it names. -/
theorem get?_eq_bind (c : Circuit θ) (point : Point) :
    c.get? point = (c.slotOf? point).bind fun key => c.operationAt key.1 key.2 := by
  cases hlocate : c.locate? point with
  | none => simp [get?, slotOf?, hlocate]
  | some found =>
      obtain ⟨slot, op⟩ := found
      obtain ⟨cycle, hcycle, -, hop⟩ := locate?_eq_some_iff.mp hlocate
      rw [slotOf?_of_locate? hlocate, get?_eq_some_iff.mpr ⟨slot, hlocate⟩]
      exact (operationAt_eq_some_iff.mpr ⟨cycle, hcycle, hop⟩).symm

/-- A pair of a point and an operation that a replacement takes. -/
def Admits (c : Circuit θ) (accepts : Operation θ → Bool) (pair : Point × Operation θ) : Prop :=
  c.checkOperation pair.2 = .ok () ∧ ∃ slot current, c.locate? pair.1 = some (slot, current) ∧
    accepts current = true ∧ ∀ wire, wire ∈ current.wires ↔ wire ∈ pair.2.wires

theorem Resolves.slotOf?_eq {c : Circuit θ} {accepts : Operation θ → Bool}
    {pair : Point × Operation θ} {r : Replacement θ} (h : c.Resolves accepts pair r) :
    c.slotOf? pair.1 = some r.key := by
  obtain ⟨current, hlocate, -⟩ := h.current
  rw [slotOf?_of_locate? hlocate, Replacement.key, h.cycle_eq]

theorem admits_iff {c : Circuit θ} {accepts : Operation θ → Bool} {pair : Point × Operation θ} :
    c.Admits accepts pair ↔ ∃ r, c.Resolves accepts pair r := by
  constructor
  · rintro ⟨hcheck, slot, current, hcurrent⟩
    exact ⟨⟨pair.1.cycle, slot, pair.2⟩, rfl, rfl, ⟨current, hcurrent⟩, hcheck⟩
  · rintro ⟨r, -, -, ⟨current, hcurrent⟩, hcheck⟩
    exact ⟨hcheck, r.slot, current, hcurrent⟩

theorem map_slotOf?_eq {c : Circuit θ} {accepts : Operation θ → Bool}
    {pairs : List (Point × Operation θ)} {plan : List (Replacement θ)}
    (h : List.Forall₂ (c.Resolves accepts) pairs plan) :
    pairs.map (fun pair => c.slotOf? pair.1) = plan.map fun r => some r.key := by
  induction h with
  | nil => rfl
  | cons hpair _ ih => rw [List.map_cons, List.map_cons, hpair.slotOf?_eq, ih]

/-- The replacements of a plan name different slots exactly when the points do. -/
theorem nodup_key_iff {c : Circuit θ} {accepts : Operation θ → Bool} {points : List Point}
    {ops : List (Operation θ)} {plan : List (Replacement θ)} (hlen : points.length = ops.length)
    (h : List.Forall₂ (c.Resolves accepts) (points.zip ops) plan) :
    (plan.map Replacement.key).Nodup ↔ (points.map c.slotOf?).Nodup := by
  have hpoints : points.map c.slotOf? = (plan.map Replacement.key).map some := by
    rw [List.map_map, ← List.map_fst_zip (Nat.le_of_eq hlen), List.map_map]
    exact map_slotOf?_eq h
  rw [hpoints]
  exact (List.nodup_map_iff (Option.some_injective _)).symm

/-- If every member of a list has a partner, the list has a list of partners. -/
theorem exists_forall₂_iff {α β : Type} {R : α → β → Prop} {l : List α} :
    (∃ l', List.Forall₂ R l l') ↔ ∀ a ∈ l, ∃ b, R a b := by
  induction l with
  | nil => simp
  | cons a l ih =>
      rw [List.forall_mem_cons, ← ih]
      simp only [List.forall₂_cons_left_iff]
      constructor
      · rintro ⟨_, b, l', hb, hl', -⟩
        exact ⟨⟨b, hb⟩, l', hl'⟩
      · rintro ⟨⟨b, hb⟩, l', hl'⟩
        exact ⟨_, b, l', hb, hl', rfl⟩

/-- A replacement in one step succeeds exactly when there are as many operations as points, the
circuit admits every pair and no two points name the same operation. -/
theorem exists_replace?_eq_ok_iff {c : Circuit θ} {points : List Point} {ops : List (Operation θ)}
    {accepts : Operation θ → Bool} :
    (∃ c', c.replace? points ops accepts = .ok c') ↔ points.length = ops.length ∧
      (∀ pair ∈ points.zip ops, c.Admits accepts pair) ∧ (points.map c.slotOf?).Nodup := by
  simp only [replace?_eq_ok_iff, admits_iff]
  rw [← exists_forall₂_iff]
  constructor
  · rintro ⟨c', hlen, plan, hplan, hnodup, -⟩
    exact ⟨hlen, ⟨plan, hplan⟩, (nodup_key_iff hlen hplan).mp hnodup⟩
  · rintro ⟨hlen, ⟨plan, hplan⟩, hnodup⟩
    exact ⟨_, hlen, plan, hplan, (nodup_key_iff hlen hplan).mpr hnodup, rfl⟩

section Effect

variable {c c' : Circuit θ} {points : List Point} {ops : List (Operation θ)}
  {accepts : Operation θ → Bool} (h : c.replace? points ops accepts = .ok c')
include h

theorem register_of_replace? : c'.register = c.register := by
  obtain ⟨-, plan, -, -, rfl⟩ := replace?_eq_ok_iff.mp h
  exact register_foldl_overwrite c plan

theorem length_cycles_of_replace? : c'.cycles.length = c.cycles.length := by
  obtain ⟨-, plan, -, -, rfl⟩ := replace?_eq_ok_iff.mp h
  exact length_cycles_foldl_overwrite c plan

/-- The slot that a point names holds the operation that goes with the point. -/
theorem operationAt_of_replace? {point : Point} {op : Operation θ}
    (hmem : (point, op) ∈ points.zip ops) {k slot : Nat}
    (hslot : c.slotOf? point = some (k, slot)) : c'.operationAt k slot = some op := by
  obtain ⟨-, plan, hplan, hnodup, rfl⟩ := replace?_eq_ok_iff.mp h
  obtain ⟨i, hi, heq⟩ := List.mem_iff_getElem.mp hmem
  have hi' : i < plan.length := hplan.length_eq ▸ hi
  have hresolves : c.Resolves accepts (point, op) plan[i] :=
    heq ▸ (List.forall₂_iff_get.mp hplan).2 i hi hi'
  obtain ⟨rfl, rfl⟩ : plan[i].cycle = k ∧ plan[i].slot = slot := by
    have hkey : plan[i].key = (k, slot) := Option.some.inj (hresolves.slotOf?_eq.symm.trans hslot)
    exact Prod.mk.inj hkey
  obtain ⟨current, hlocate, -⟩ := hresolves.current
  obtain ⟨cycle, hcycle, -, hcurrent⟩ := Circuit.locate?_eq_some_iff.mp hlocate
  have hat : c.operationAt plan[i].cycle plan[i].slot = some current :=
    operationAt_eq_some_iff.mpr ⟨cycle, hresolves.cycle_eq ▸ hcycle, hcurrent⟩
  rw [operationAt_foldl_overwrite hnodup (List.getElem_mem hi'), hat, hresolves.operation_eq]
  rfl

/-- All other slots hold what they held before. -/
theorem operationAt_of_replace?_of_not_mem {k slot : Nat}
    (hslot : ∀ point ∈ points, c.slotOf? point ≠ some (k, slot)) :
    c'.operationAt k slot = c.operationAt k slot := by
  obtain ⟨-, plan, hplan, -, rfl⟩ := replace?_eq_ok_iff.mp h
  refine operationAt_foldl_overwrite_of_not_mem fun r hr heq => ?_
  have hmem : some r.key ∈ (points.zip ops).map fun pair => c.slotOf? pair.1 := by
    rw [map_slotOf?_eq hplan]
    exact List.mem_map.mpr ⟨r, hr, rfl⟩
  obtain ⟨pair, hpair, hkey⟩ := List.mem_map.mp hmem
  exact hslot pair.1 (List.of_mem_zip hpair).1 (hkey.trans (congrArg some heq.symm))

end Effect

/-! ## Replacing keeps circuits well-formed -/

/-- Every replacement of a plan puts one of the new operations in. -/
theorem exists_resolves_of_mem_plan {c : Circuit θ} {accepts : Operation θ → Bool}
    {points : List Point} {ops : List (Operation θ)} {plan : List (Replacement θ)}
    (h : List.Forall₂ (c.Resolves accepts) (points.zip ops) plan) {r : Replacement θ} (hr : r ∈ plan) :
    ∃ pair, pair.2 ∈ ops ∧ c.Resolves accepts pair r := by
  obtain ⟨i, hi, rfl⟩ := List.mem_iff_getElem.mp hr
  have hi' : i < (points.zip ops).length := h.length_eq ▸ hi
  have hop : (points.zip ops)[i].2 ∈ ops := (List.of_mem_zip (List.getElem_mem hi')).2
  exact ⟨_, hop, (List.forall₂_iff_get.mp h).2 i hi' hi⟩

/-- The new operation of a replacement fits the register and takes over the wires of the operation
in its slot. -/
structure Fills (c : Circuit θ) (r : Replacement θ) : Prop where
  wellFormed : r.operation.WellFormed c.register
  current : ∃ old, c.operationAt r.cycle r.slot = some old ∧
    ∀ wire, wire ∈ old.wires ↔ wire ∈ r.operation.wires

theorem WellFormed.fills {c : Circuit θ} (h : c.WellFormed) {accepts : Operation θ → Bool}
    {pair : Point × Operation θ} {r : Replacement θ} (hresolves : c.Resolves accepts pair r)
    (hmade : pair.2.Made) (hgate : pair.2.gate.WellFormed) : c.Fills r := by
  obtain ⟨hcycle, hop, ⟨old, hlocate, -, hwires⟩, hcheck⟩ := hresolves
  have hat : c.operationAt r.cycle r.slot = some old :=
    hcycle ▸ (h.locate?_eq_some_iff.mp hlocate).1
  refine ⟨hop ▸ wellFormed_of_made hmade hgate hcheck fun hnil => ?_, old, hat, hop ▸ hwires⟩
  have hmember := h.members old (mem_operations_iff.mpr ⟨_, _, hat⟩)
  obtain ⟨wire, hwire⟩ := List.exists_mem_of_ne_nil _ hmember.wires_ne_nil
  simpa [hnil] using (hwires wire).mp hwire

/-- Another slot holds after a replacement what it held before. -/
theorem Fills.overwrite {c : Circuit θ} {r s : Replacement θ} (hs : c.Fills s)
    (hne : s.key ≠ r.key) : (c.overwrite r).Fills s := by
  have hne' : (s.cycle, s.slot) ≠ r.key := hne
  refine ⟨hs.wellFormed, ?_⟩
  rw [operationAt_overwrite, if_neg hne']
  exact hs.current

theorem WellFormed.overwrite {c : Circuit θ} (h : c.WellFormed) {r : Replacement θ}
    (hfills : c.Fills r) : (c.overwrite r).WellFormed := by
  have hcycles := wellFormed_iff_cycles.mp h
  obtain ⟨old, hold, hwires⟩ := hfills.current
  refine wellFormed_iff_cycles.mpr (forall_mem_modify hcycles fun cycle hget => ?_)
  obtain ⟨found, hfound, hat⟩ := operationAt_eq_some_iff.mp hold
  cases hget.symm.trans hfound
  exact (hcycles cycle (List.mem_of_getElem? hget)).overwrite hfills.wellFormed hat hwires

theorem WellFormed.slotOf?_eq_some_iff {c : Circuit θ} (h : c.WellFormed) {point : Point}
    {k slot : Nat} : c.slotOf? point = some (k, slot) ↔
      point.cycle = k ∧ ∃ op, c.operationAt k slot = some op ∧ point.wire ∈ op.wires := by
  simp only [slotOf?, Option.map_eq_some_iff, Prod.exists, h.locate?_eq_some_iff, Prod.mk.injEq]
  constructor
  · rintro ⟨slot, op, hop, rfl, rfl⟩
    exact ⟨rfl, op, hop⟩
  · rintro ⟨rfl, op, hop⟩
    exact ⟨slot, op, hop, rfl, rfl⟩

/-- A replacement does not change which slot a point names. -/
theorem WellFormed.slotOf?_overwrite {c : Circuit θ} (h : c.WellFormed) {r : Replacement θ}
    (hfills : c.Fills r) (point : Point) : (c.overwrite r).slotOf? point = c.slotOf? point := by
  obtain ⟨old, hold, hwires⟩ := hfills.current
  apply Option.ext
  rintro ⟨k, slot⟩
  rw [(h.overwrite hfills).slotOf?_eq_some_iff, h.slotOf?_eq_some_iff, operationAt_overwrite]
  by_cases hkey : (k, slot) = r.key
  · obtain ⟨rfl, rfl⟩ : k = r.cycle ∧ slot = r.slot := Prod.mk.inj hkey
    simp [Replacement.key, hold, hwires]
  · rw [if_neg hkey]

/-- Replacements in different slots keep the circuit well-formed, and every point keeps its slot. -/
theorem WellFormed.foldl_overwrite {c : Circuit θ} (h : c.WellFormed)
    {plan : List (Replacement θ)} (hnodup : (plan.map Replacement.key).Nodup)
    (hfills : ∀ r ∈ plan, c.Fills r) :
    (plan.foldl Circuit.overwrite c).WellFormed ∧
      ∀ point, (plan.foldl Circuit.overwrite c).slotOf? point = c.slotOf? point := by
  induction plan generalizing c with
  | nil => exact ⟨h, fun _ => rfl⟩
  | cons r plan ih =>
      obtain ⟨hr, hrest⟩ := List.forall_mem_cons.mp hfills
      obtain ⟨hhead, hnodup⟩ := List.nodup_cons.mp hnodup
      have hfills' : ∀ s ∈ plan, (c.overwrite r).Fills s := fun s hs =>
        (hrest s hs).overwrite fun heq => hhead (List.mem_map.mpr ⟨s, hs, heq⟩)
      obtain ⟨hwell, hslots⟩ := ih (h.overwrite hr) hnodup hfills'
      exact ⟨hwell, fun point => (hslots point).trans (h.slotOf?_overwrite hr point)⟩

section Keeps

variable {c c' : Circuit θ} (h : c.WellFormed) {points : List Point} {ops : List (Operation θ)}
  {accepts : Operation θ → Bool} (hmade : ∀ op ∈ ops, op.Made)
  (hgates : ∀ op ∈ ops, op.gate.WellFormed) (hreplace : c.replace? points ops accepts = .ok c')
include h hmade hgates hreplace

theorem WellFormed.replace_slotOf? :
    c'.WellFormed ∧ ∀ point, c'.slotOf? point = c.slotOf? point := by
  obtain ⟨-, plan, hplan, hnodup, rfl⟩ := replace?_eq_ok_iff.mp hreplace
  refine h.foldl_overwrite hnodup fun r hr => ?_
  obtain ⟨pair, hop, hresolves⟩ := exists_resolves_of_mem_plan hplan hr
  exact h.fills hresolves (hmade _ hop) (hgates _ hop)

theorem WellFormed.replace : c'.WellFormed :=
  (h.replace_slotOf? hmade hgates hreplace).1

theorem WellFormed.slotOf?_replace (point : Point) : c'.slotOf? point = c.slotOf? point :=
  (h.replace_slotOf? hmade hgates hreplace).2 point

end Keeps

end Circuit
end QuditCircuits
