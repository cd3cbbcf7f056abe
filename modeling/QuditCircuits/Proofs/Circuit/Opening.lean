import QuditCircuits.Proofs.Circuit.Binding
import QuditCircuits.Proofs.Circuit.Scheduling
import QuditCircuits.Proofs.Circuit.WireOrder

/-!
# Opening blocks keeps the order along the wires

Opening a level lays the bodies of a cycle out side by side, so operations of different bodies change
places.  What is kept is that operations with a common wire stay in their order and never meet in
one cycle: lists of operations with their cycles that have this property are called `Layered`.

* The schedule of a well-formed circuit is layered, and so is what a cycle becomes.
* Filling a run of cycles from a layered list gives well-formed cycles with the same sequence of
  operations on every wire.

`WellFormed.reordered_openBlocks` is the result for one level: the operations after opening are those
that the operations become, up to swaps without a common wire.  `Circuit.flatten_induct` lifts what
one level keeps to all of them.
-/

namespace QuditCircuits

variable {θ : Type}

/-! ## Layered lists -/

/-- Later operations lie in later cycles or have no wire in common with earlier ones. -/
def Layered (entries : List (Nat × Operation θ)) : Prop :=
  entries.Pairwise fun a b => a.1 < b.1 ∨ List.Disjoint a.2.wires b.2.wires

/-- The operations of one cycle. -/
def layer (k : Nat) (entries : List (Nat × Operation θ)) : List (Operation θ) :=
  (entries.filter fun entry => entry.1 = k).map Prod.snd

theorem mem_layer_iff {k : Nat} {entries : List (Nat × Operation θ)} {op : Operation θ} :
    op ∈ layer k entries ↔ (k, op) ∈ entries := by
  simp [layer]

namespace Layered

variable {entries : List (Nat × Operation θ)}

/-- Operations of one cycle have no wire in common. -/
theorem disjoint_layer (h : Layered entries) (k : Nat) :
    (layer k entries).Pairwise fun op op' => List.Disjoint op.wires op'.wires := by
  refine List.pairwise_map.mpr ((h.filter _).imp_of_mem ?_)
  intro a b ha hb hab
  have hka : a.1 = k := by simpa using (List.mem_filter.mp ha).2
  have hkb : b.1 = k := by simpa using (List.mem_filter.mp hb).2
  exact hab.resolve_left (by omega)

/-- Whether a list is layered depends on cycles and wires alone. -/
theorem iff_map {entries : List (Nat × Operation θ)} :
    Layered entries ↔ (entries.map fun entry => (entry.1, entry.2.wires)).Pairwise
      fun a b => a.1 < b.1 ∨ List.Disjoint a.2 b.2 := by
  rw [Layered, List.pairwise_map]

end Layered

/-- A list sorted by cycles is the list of its members below a bound and then those at it. -/
theorem filter_lt_append_filter_eq {entries : List (Nat × Operation θ)} {n : Nat}
    (hsorted : entries.Pairwise fun a b => a.1 ≤ b.1) (hle : ∀ entry ∈ entries, entry.1 < n + 1) :
    (entries.filter fun entry => entry.1 < n) ++ (entries.filter fun entry => entry.1 = n) =
      entries := by
  induction entries with
  | nil => rfl
  | cons entry entries ih =>
      obtain ⟨hhead, htail⟩ := List.pairwise_cons.mp hsorted
      obtain ⟨hentry, hrest⟩ := List.forall_mem_cons.mp hle
      by_cases hlt : entry.1 < n
      · have hne : entry.1 ≠ n := by omega
        simpa [hlt, hne] using ih htail hrest
      · have heq : entry.1 = n := by omega
        -- From the first member at the bound onwards all members lie there.
        have hat : ∀ other ∈ entries, other.1 = n := by
          intro other hother
          have := hhead other hother
          have := hrest other hother
          omega
        have hnone : (entries.filter fun entry => entry.1 < n) = [] :=
          List.filter_eq_nil_iff.mpr fun other hother => by simp [hat other hother]
        have hall : (entries.filter fun entry => entry.1 = n) = entries :=
          List.filter_eq_self.mpr fun other hother => by simp [hat other hother]
        simp [heq, hnone, hall]

/-- Reading a list sorted by cycles cycle by cycle gives the list back. -/
theorem flatMap_layer_of_sorted {entries : List (Nat × Operation θ)} {n : Nat}
    (hsorted : entries.Pairwise fun a b => a.1 ≤ b.1) (hlt : ∀ entry ∈ entries, entry.1 < n) :
    ((List.range n).flatMap fun k => layer k entries) = entries.map Prod.snd := by
  induction n generalizing entries with
  | zero =>
      cases entries with
      | nil => rfl
      | cons entry entries => simpa using hlt entry
  | succ n ih =>
      -- The induction is on the number of cycles; cycles below `n` do not see the members at `n`.
      have hbelow : ∀ k ∈ List.range n,
          layer k entries = layer k (entries.filter fun entry => entry.1 < n) := by
        intro k hk
        rw [layer, layer, List.filter_filter]
        congr 1
        refine List.filter_congr fun entry _ => ?_
        have := List.mem_range.mp hk
        grind
      rw [List.range_succ, List.flatMap_append, List.flatMap_singleton,
        List.flatMap_congr hbelow, ih (hsorted.filter _) (by simp), layer, ← List.map_append,
        filter_lt_append_filter_eq hsorted hlt]

/-- Reading a layered list cycle by cycle keeps the sequence on every wire. -/
theorem Layered.sequenceOn_flatMap_layer {entries : List (Nat × Operation θ)} (h : Layered entries)
    {n : Nat} (hlt : ∀ entry ∈ entries, entry.1 < n) (wire : Wire) :
    sequenceOn wire ((List.range n).flatMap fun k => layer k entries) =
      sequenceOn wire (entries.map Prod.snd) := by
  -- On one wire the list is sorted by cycles.
  have hsorted : (entries.filter fun entry => entry.2.actsOn wire).Pairwise
      fun a b => a.1 ≤ b.1 := by
    refine (h.filter _).imp_of_mem ?_
    intro a b ha hb hab
    have hwire : wire ∈ a.2.wires := Operation.actsOn_eq_true_iff.mp (List.mem_filter.mp ha).2
    have hwire' : wire ∈ b.2.wires := Operation.actsOn_eq_true_iff.mp (List.mem_filter.mp hb).2
    exact Nat.le_of_lt (hab.resolve_right fun hdisjoint => hdisjoint hwire hwire')
  have hlayer : ∀ k, sequenceOn wire (layer k entries) =
      layer k (entries.filter fun entry => entry.2.actsOn wire) := by
    intro k
    rw [sequenceOn, layer, layer, List.filter_map, List.filter_filter, List.filter_filter]
    congr 1
    exact List.filter_congr fun entry _ => Bool.and_comm ..
  rw [sequenceOn_flatMap]
  simp only [hlayer]
  rw [flatMap_layer_of_sorted hsorted fun entry hentry => hlt entry (List.mem_filter.mp hentry).1,
    sequenceOn, List.filter_map]
  rfl

/-! ## Schedules are layered -/

theorem Circuit.lt_numCycles_of_mem_scheduled {c : Circuit θ} {k : Nat} {op : Operation θ}
    (h : (k, op) ∈ c.scheduled) : k < c.numCycles := by
  obtain ⟨⟨cycle, j⟩, hcycle, hop⟩ := List.mem_flatMap.mp h
  obtain ⟨op', -, heq⟩ := List.mem_map.mp hop
  cases heq
  simpa [numCycles] using List.snd_lt_add_of_mem_zipIdx hcycle

/-- The schedule of a well-formed circuit is layered: along a wire its cycles increase. -/
theorem Circuit.WellFormed.layered_scheduled {c : Circuit θ} (h : c.WellFormed) :
    Layered c.scheduled := by
  rw [Layered, scheduled, List.pairwise_flatMap]
  constructor
  · rintro ⟨cycle, k⟩ hcycle
    have hindexed := h.indexed cycle (List.fst_mem_of_mem_zipIdx hcycle)
    exact List.pairwise_map.mpr (hindexed.pairwise_disjoint.imp .inr)
  · refine List.pairwise_iff_getElem.mpr fun i j hi hj hlt a ha b hb => .inl ?_
    obtain ⟨op, -, rfl⟩ := List.mem_map.mp ha
    obtain ⟨op', -, rfl⟩ := List.mem_map.mp hb
    simpa using hlt

/-! ## What a cycle becomes is layered -/

theorem map_wires_bindBody (outer : List Wire) (body : List (Nat × Operation θ))
    (params : List θ) :
    (bindBody outer body params).map (fun entry => (entry.1, entry.2.wires)) =
      body.map fun entry => (entry.1, (entry.2.onto outer).wires) := by
  induction body generalizing params with
  | nil => rfl
  | cons entry body ih =>
      simp only [bindBody, List.map_cons, ih]
      rfl

theorem Operation.WellFormed.layered_opened {R : Register} {op : Operation θ}
    (h : op.WellFormed R) : Layered op.opened := by
  unfold Operation.opened
  split
  · exact List.pairwise_singleton ..
  · next name body heq =>
      obtain ⟨hplacement, -, hbody⟩ := h.of_block heq
      rw [Layered.iff_map, map_wires_bindBody, List.pairwise_map]
      refine hbody.layered_scheduled.imp_of_mem ?_
      intro a b ha hb hab
      refine hab.imp_right fun hdisjoint => Operation.disjoint_onto hplacement ?_ ?_ hdisjoint
      · exact (hbody.members _ (Circuit.mem_operations_of_mem_scheduled ha)).toFits
      · exact (hbody.members _ (Circuit.mem_operations_of_mem_scheduled hb)).toFits

theorem Operation.mem_parts_of_mem_opened {op : Operation θ} {entry : Nat × Operation θ}
    (h : entry ∈ op.opened) : entry.2 ∈ op.parts :=
  List.mem_map_of_mem h

theorem Cycle.WellFormed.layered_flatMap_opened {R : Register} {cycle : Cycle θ}
    (h : cycle.WellFormed R) : Layered (cycle.operations.flatMap Operation.opened) := by
  rw [Layered, List.pairwise_flatMap]
  constructor
  · exact fun op hop => (h.members op hop).layered_opened
  · refine h.indexed.pairwise_disjoint.imp_of_mem ?_
    intro op op' hop hop' hdisjoint a ha b hb
    -- What different operations become keeps to the wires of these operations.
    refine .inr fun wire hwire hwire' => hdisjoint (a := wire) ?_ ?_
    · exact ((h.members op hop).of_mem_parts
        (Operation.mem_parts_of_mem_opened ha)).2 wire hwire
    · exact ((h.members op' hop').of_mem_parts
        (Operation.mem_parts_of_mem_opened hb)).2 wire hwire'

/-! ## The height of a run -/

theorem le_foldr_max (base : Nat) (ns : List Nat) :
    base ≤ ns.foldr max base ∧ ∀ n ∈ ns, n ≤ ns.foldr max base := by
  induction ns with
  | nil => simp
  | cons n ns ih =>
      rw [List.foldr_cons, List.forall_mem_cons]
      exact ⟨by omega, by omega, fun m hm => Nat.le_trans (ih.2 m hm) (Nat.le_max_right ..)⟩

theorem Cycle.height_pos (cycle : Cycle θ) : 0 < cycle.height :=
  (le_foldr_max 1 _).1

theorem Cycle.numCycles_le_height {cycle : Cycle θ} {op : Operation θ} (hop : op ∈ cycle.operations)
    {body : Circuit θ} (hbody : op.gate.body? = some body) : body.numCycles ≤ cycle.height := by
  refine (le_foldr_max 1 _).2 _ (List.mem_filterMap.mpr ⟨op, hop, ?_⟩)
  rw [hbody]
  rfl

/-- A run is as long as the longest body, so everything that a cycle becomes lies in its run. -/
theorem Cycle.lt_height_of_mem_opened {cycle : Cycle θ} {op : Operation θ}
    (hop : op ∈ cycle.operations) {entry : Nat × Operation θ} (hentry : entry ∈ op.opened) :
    entry.1 < cycle.height := by
  unfold Operation.opened at hentry
  split at hentry
  · rw [List.mem_singleton.mp hentry]
    exact cycle.height_pos
  · next name body heq =>
      obtain ⟨k, sub⟩ := entry
      obtain ⟨inner, hinner, -⟩ := exists_of_mem_bindBody hentry
      exact Nat.lt_of_lt_of_le (Circuit.lt_numCycles_of_mem_scheduled hinner)
        (numCycles_le_height hop (heq ▸ rfl))

/-! ## Filling a run -/

/-- Each cycle of a run gets the operations that are meant for it, in their order. -/
theorem getElem?_insertAll (run : List (Cycle θ)) (entries : List (Nat × Operation θ)) (k : Nat) :
    (insertAll run entries)[k]? =
      run[k]?.map fun cycle => (layer k entries).foldl Cycle.insert cycle := by
  induction entries generalizing run with
  | nil => simp [insertAll, layer]
  | cons entry entries ih =>
      obtain ⟨j, op⟩ := entry
      have hstep : insertAll run ((j, op) :: entries) =
          insertAll (run.modify j fun cycle => cycle.insert op) entries := rfl
      rw [hstep, ih, List.getElem?_modify]
      by_cases hjk : j = k
      · subst hjk
        simp [layer, Function.comp_def]
      · simp [layer, hjk]

/-- A cycle becomes a run in which cycle `k` holds the operations meant for it. -/
theorem Cycle.opened_eq_map (width : Nat) (cycle : Cycle θ) :
    cycle.opened width = (List.range cycle.height).map fun k =>
      (layer k (cycle.operations.flatMap Operation.opened)).foldl insert (empty width) := by
  apply List.ext_getElem?
  intro k
  rw [opened, getElem?_insertAll, List.getElem?_map, List.getElem?_replicate]
  by_cases hk : k < cycle.height
  · rw [if_pos hk, List.getElem?_range hk]
    rfl
  · rw [if_neg hk, List.getElem?_eq_none (by simpa using hk)]
    rfl

theorem Cycle.operations_foldl_insert (cycle : Cycle θ) (ops : List (Operation θ)) :
    (ops.foldl insert cycle).operations = cycle.operations ++ ops := by
  induction ops generalizing cycle with
  | nil => simp
  | cons op ops ih => simp [ih, insert]

/-- The operations of the run that a cycle becomes. -/
theorem Cycle.flatMap_operations_opened (width : Nat) (cycle : Cycle θ) :
    (cycle.opened width).flatMap operations = (List.range cycle.height).flatMap fun k =>
      layer k (cycle.operations.flatMap Operation.opened) := by
  rw [opened_eq_map, List.flatMap_map]
  refine List.flatMap_congr fun k _ => ?_
  rw [operations_foldl_insert]
  rfl

/-- Operations without common wires can be added one after the other. -/
theorem Cycle.WellFormed.foldl_insert {R : Register} {cycle : Cycle θ} (h : cycle.WellFormed R)
    {ops : List (Operation θ)} (hops : ∀ op ∈ ops, op.WellFormed R)
    (hdisjoint : ops.Pairwise fun op op' => List.Disjoint op.wires op'.wires)
    (hfree : ∀ op ∈ ops, ∀ old ∈ cycle.operations, List.Disjoint op.wires old.wires) :
    (ops.foldl Cycle.insert cycle).WellFormed R := by
  induction ops generalizing cycle with
  | nil => exact h
  | cons op ops ih =>
      obtain ⟨hop, hrest⟩ := List.forall_mem_cons.mp hops
      obtain ⟨hhead, htail⟩ := List.pairwise_cons.mp hdisjoint
      obtain ⟨hopfree, hrestfree⟩ := List.forall_mem_cons.mp hfree
      -- The cycle grows by `op`, which has no wire in common with the operations still to come.
      have hinsert := h.insert hop ((h.indexed.isFree_iff _).mpr hopfree)
      refine ih hinsert hrest htail fun op' hop' => List.forall_mem_append.mpr ?_
      exact ⟨hrestfree op' hop', List.forall_mem_singleton.mpr (hhead op' hop').symm⟩

/-! ## Opening one level -/

theorem Cycle.WellFormed.opened {R : Register} {cycle : Cycle θ} (h : cycle.WellFormed R) :
    ∀ new ∈ cycle.opened R.width, new.WellFormed R := by
  intro new hnew
  rw [Cycle.opened_eq_map] at hnew
  obtain ⟨k, -, rfl⟩ := List.mem_map.mp hnew
  refine (wellFormed_empty R).foldl_insert (fun sub hsub => ?_)
    (h.layered_flatMap_opened.disjoint_layer k) (by simp [empty])
  obtain ⟨op, hop, hopened⟩ := List.mem_flatMap.mp (mem_layer_iff.mp hsub)
  exact ((h.members op hop).of_mem_parts (Operation.mem_parts_of_mem_opened hopened)).1

/-- Along every wire a run shows what the operations of its cycle become. -/
theorem Cycle.WellFormed.sequenceOn_opened {R : Register} {cycle : Cycle θ}
    (h : cycle.WellFormed R) (width : Nat) (wire : Wire) :
    sequenceOn wire ((cycle.opened width).flatMap operations) =
      sequenceOn wire (cycle.operations.flatMap Operation.parts) := by
  have hlt : ∀ entry ∈ cycle.operations.flatMap Operation.opened, entry.1 < cycle.height := by
    intro entry hentry
    obtain ⟨op, hop, hopened⟩ := List.mem_flatMap.mp hentry
    exact lt_height_of_mem_opened hop hopened
  rw [flatMap_operations_opened, h.layered_flatMap_opened.sequenceOn_flatMap_layer hlt,
    List.map_flatMap]
  rfl

namespace Circuit

@[simp]
theorem register_openBlocks (c : Circuit θ) : c.openBlocks.register = c.register := rfl

theorem WellFormed.openBlocks {c : Circuit θ} (h : c.WellFormed) : c.openBlocks.WellFormed := by
  refine wellFormed_iff_cycles.mpr fun new hnew => ?_
  obtain ⟨cycle, hcycle, hmem⟩ := List.mem_flatMap.mp hnew
  exact (wellFormed_iff_cycles.mp h cycle hcycle).opened new hmem

/-- Opening one level replaces every operation by its parts, up to swaps of neighbours that have no
wire in common. -/
theorem WellFormed.reordered_openBlocks {c : Circuit θ} (h : c.WellFormed) :
    Reordered c.openBlocks.operations (c.operations.flatMap Operation.parts) := by
  refine .of_sequenceOn_eq (fun op hop => (h.openBlocks.members op hop).wires_ne_nil) ?_ fun wire => ?_
  · intro sub hsub
    obtain ⟨op, hop, hparts⟩ := List.mem_flatMap.mp hsub
    exact ((h.members op hop).of_mem_parts hparts).1.wires_ne_nil
  · rw [operations, Circuit.openBlocks, List.flatMap_assoc, sequenceOn_flatMap, operations,
      List.flatMap_assoc, sequenceOn_flatMap]
    refine List.flatMap_congr fun cycle hcycle => ?_
    exact (wellFormed_iff_cycles.mp h cycle hcycle).sequenceOn_opened _ wire

/-! ## Opening all levels -/

theorem flatten_of_any_isBlock {c : Circuit θ} (h : c.operations.any Operation.isBlock = true) :
    c.flatten = (c.openBlocks.flatten.1, c.numBlocks + c.openBlocks.flatten.2) := by
  rw [flatten, dif_pos h]

theorem flatten_eq_self {c : Circuit θ} (h : ¬ c.operations.any Operation.isBlock = true) :
    c.flatten = (c, 0) := by
  rw [flatten, dif_neg h]

theorem any_isBlock_iff {c : Circuit θ} :
    c.operations.any Operation.isBlock = true ↔ 0 < c.numBlocks := by
  rw [List.any_eq_true, numBlocks, List.countP_pos_iff]

/-- A circuit without blocks is left as it is, with its empty cycles. -/
theorem flatten_of_numBlocks_eq_zero {c : Circuit θ} (h : c.numBlocks = 0) : c.flatten = (c, 0) :=
  flatten_eq_self fun hany => absurd (any_isBlock_iff.mp hany) (by omega)

/-- What opening a level keeps is kept by flattening. -/
theorem flatten_induct {P : Circuit θ → Prop} (hstep : ∀ c, P c → P c.openBlocks) {c : Circuit θ}
    (h : P c) : P c.flatten.1 := by
  induction c using Circuit.flatten.induct with
  | case1 c hblock _ _ _ ih =>
      rw [flatten_of_any_isBlock hblock]
      exact ih (hstep c h)
  | case2 c hblock =>
      rw [flatten_eq_self hblock]
      exact h

/-- A flattened circuit has no block. -/
theorem isBlock_of_mem_flatten (c : Circuit θ) :
    ∀ op ∈ c.flatten.1.operations, op.isBlock = false := by
  induction c using Circuit.flatten.induct with
  | case1 c hblock _ _ _ ih =>
      rw [flatten_of_any_isBlock hblock]
      exact ih
  | case2 c hblock =>
      rw [flatten_eq_self hblock]
      simpa using hblock

theorem WellFormed.flatten {c : Circuit θ} (h : c.WellFormed) : c.flatten.1.WellFormed :=
  flatten_induct (P := WellFormed) (fun _ hwell => hwell.openBlocks) h

@[simp]
theorem register_flatten (c : Circuit θ) : c.flatten.1.register = c.register :=
  flatten_induct (P := fun d => d.register = c.register) (fun _ => id) rfl

end Circuit
end QuditCircuits
