import QuditCircuits.Proofs.Circuit.Coherence
import QuditCircuits.Proofs.Circuit.Opening

/-!
# Circuits on other wires

A circuit over `S` is *relabelled* by placing the wires of `S` on distinct wires of another register
with the same levels.  Every operation stays in its cycle and in its place there, with its gate and its
parameters, and moves to the new wires; the slots follow.

A well-formed circuit is determined by its register and the operations of its cycles, so relabelling
commutes with a change of circuits as soon as it does so for these operations (`WellFormed.eq_relabel`).
Bodies of blocks are not relabelled: their wires are their own, and only the wires of the outermost
blocks move.
-/

namespace QuditCircuits

variable {θ : Type} {S R : Register} {wires : List Wire}

/-! ## Where wires go -/

namespace Placement

/-- A wire is reached exactly from the wire that is placed on it. -/
theorem idxOf?_eq_some_iff (h : Placement S R wires) {wire v : Wire} :
    wires.idxOf? wire = some v ↔ v < S.width ∧ wires.getD v v = wire := by
  rw [List.idxOf?_eq_some_iff]
  constructor
  · rintro ⟨hlt, hwire, -⟩
    exact ⟨h.length_eq ▸ hlt, by simpa [List.getD_eq_getElem?_getD, hlt] using hwire⟩
  · rintro ⟨hlt, rfl⟩
    have hlen : v < wires.length := h.length_eq ▸ hlt
    have hget : wires[v] = wires.getD v v := by simp [List.getD_eq_getElem?_getD, hlen]
    refine ⟨hlen, hget, fun j hj heq => ?_⟩
    have hinj := (List.Nodup.getElem_inj_iff h.nodup).mp (heq.trans hget.symm)
    omega

theorem idxOf?_getD (h : Placement S R wires) {v : Wire} (hv : v < S.width) :
    wires.idxOf? (wires.getD v v) = some v :=
  h.idxOf?_eq_some_iff.mpr ⟨hv, rfl⟩

end Placement

namespace Operation

/-- A moved operation acts on a wire if the operation acts on the wire that is placed there. -/
theorem Fits.mem_wires_onto_iff {op : Operation θ} (h : op.Fits S) (hwires : Placement S R wires)
    {wire : Wire} : wire ∈ (op.onto wires).wires ↔
      ∃ v, wires.idxOf? wire = some v ∧ v ∈ op.wires := by
  rw [wires_onto, List.mem_map]
  simp only [hwires.idxOf?_eq_some_iff]
  constructor
  · rintro ⟨v, hv, rfl⟩
    exact ⟨v, ⟨h.lt_width hv, rfl⟩, hv⟩
  · rintro ⟨v, ⟨-, rfl⟩, hv⟩
    exact ⟨v, hv, rfl⟩

end Operation

/-! ## Relabelled cycles -/

namespace Cycle

/-- The cycle on other wires.  A wire on which no wire is placed has no operation. -/
def relabel (width : Nat) (wires : List Wire) (cycle : Cycle θ) : Cycle θ where
  operations := cycle.operations.map (Operation.onto wires)
  slots := (List.range width).map fun wire => (wires.idxOf? wire).bind cycle.slot?

@[simp]
theorem operations_relabel (width : Nat) (wires : List Wire) (cycle : Cycle θ) :
    (cycle.relabel width wires).operations = cycle.operations.map (Operation.onto wires) := rfl

theorem slot?_relabel (hwires : Placement S R wires) (cycle : Cycle θ) (wire : Wire) :
    (cycle.relabel R.width wires).slot? wire = (wires.idxOf? wire).bind cycle.slot? := by
  rw [slot?, relabel, List.getElem?_map]
  by_cases hlt : wire < R.width
  · rw [List.getElem?_range hlt, Option.map_some, Option.join_some]
  · have hnone : wires.idxOf? wire = none :=
      List.idxOf?_eq_none_iff.mpr fun hmem => hlt (hwires.lt_width hmem)
    rw [hnone, List.getElem?_eq_none (by simpa using hlt)]
    rfl

/-- The wire on which a wire is placed has the slot of that wire. -/
theorem slot?_relabel_getD (hwires : Placement S R wires) (cycle : Cycle θ) {v : Wire}
    (hv : v < S.width) : (cycle.relabel R.width wires).slot? (wires.getD v v) = cycle.slot? v := by
  rw [slot?_relabel hwires, hwires.idxOf?_getD hv, Option.bind_some]

theorem WellFormed.relabel {cycle : Cycle θ} (h : cycle.WellFormed S)
    (hwires : Placement S R wires) : (cycle.relabel R.width wires).WellFormed R where
  members := List.forall_mem_map.mpr fun op hop => (h.members op hop).onto hwires
  indexed := by
    refine ⟨by simp [Cycle.relabel], fun wire slot => ?_⟩
    simp only [slot?_relabel hwires, Option.bind_eq_some_iff, h.indexed.slot?_eq_some_iff,
      operations_relabel, List.getElem?_map, Option.map_eq_some_iff]
    constructor
    · rintro ⟨v, hv, op, hop, hmem⟩
      have hfits := (h.members op (List.mem_of_getElem? hop)).toFits
      exact ⟨_, ⟨op, hop, rfl⟩, (hfits.mem_wires_onto_iff hwires).mpr ⟨v, hv, hmem⟩⟩
    · rintro ⟨_, ⟨op, hop, rfl⟩, hmem⟩
      have hfits := (h.members op (List.mem_of_getElem? hop)).toFits
      obtain ⟨v, hv, hmem⟩ := (hfits.mem_wires_onto_iff hwires).mp hmem
      exact ⟨v, hv, op, hop, hmem⟩

/-- Wires are free in a relabelled cycle where they were free before. -/
theorem isFree_relabel (hwires : Placement S R wires) (cycle : Cycle θ) {inner : List Wire}
    (hinner : ∀ v ∈ inner, v < S.width) :
    (cycle.relabel R.width wires).isFree (inner.map fun v => wires.getD v v) =
      cycle.isFree inner := by
  rw [isFree, isFree, List.all_map, Bool.eq_iff_iff, List.all_eq_true, List.all_eq_true]
  refine forall₂_congr fun v hv => ?_
  rw [Function.comp_apply, slot?_relabel_getD hwires cycle (hinner v hv)]

end Cycle

/-! ## Relabelled circuits -/

/-- The point of the same cycle on the wire where its wire is placed. -/
def Point.relabel (wires : List Wire) (point : Point) : Point where
  cycle := point.cycle
  wire := wires.getD point.wire point.wire

namespace Circuit

/-- The circuit on other wires, over the register `R` that has them. -/
def relabel (R : Register) (wires : List Wire) (c : Circuit θ) : Circuit θ where
  register := R
  cycles := c.cycles.map (Cycle.relabel R.width wires)

@[simp]
theorem length_cycles_relabel (R : Register) (wires : List Wire) (c : Circuit θ) :
    (c.relabel R wires).cycles.length = c.cycles.length :=
  List.length_map _

/-- The operations of each cycle. -/
def layers (c : Circuit θ) : List (List (Operation θ)) :=
  c.cycles.map Cycle.operations

theorem operations_eq_flatten_layers (c : Circuit θ) : c.operations = c.layers.flatten := rfl

@[simp]
theorem layers_relabel (R : Register) (wires : List Wire) (c : Circuit θ) :
    (c.relabel R wires).layers = c.layers.map (List.map (Operation.onto wires)) := by
  rw [layers, relabel, List.map_map, layers, List.map_map]
  rfl

@[simp]
theorem operations_relabel (R : Register) (wires : List Wire) (c : Circuit θ) :
    (c.relabel R wires).operations = c.operations.map (Operation.onto wires) := by
  rw [operations_eq_flatten_layers, layers_relabel, operations_eq_flatten_layers, List.map_flatten]

/-- Sending the operation of every slot through a function is sending the layers. -/
theorem layers_eq_map {c d : Circuit θ} {f : Operation θ → Operation θ}
    (hlen : d.cycles.length = c.cycles.length)
    (hat : ∀ k slot, d.operationAt k slot = (c.operationAt k slot).map f) :
    d.layers = c.layers.map (List.map f) := by
  rw [layers, map_operations_eq_map hlen hat, layers, List.map_map]
  rfl

theorem operationAt_relabel (R : Register) (wires : List Wire) (c : Circuit θ) (k slot : Nat) :
    (c.relabel R wires).operationAt k slot = (c.operationAt k slot).map (Operation.onto wires) := by
  rw [operationAt, relabel, List.getElem?_map, operationAt]
  cases c.cycles[k]? with
  | none => rfl
  | some cycle => simp [Cycle.relabel]

theorem scheduled_relabel (R : Register) (wires : List Wire) (c : Circuit θ) :
    (c.relabel R wires).scheduled = c.scheduled.map fun (k, op) => (k, op.onto wires) := by
  rw [scheduled, relabel, List.zipIdx_map, List.flatMap_map, scheduled, List.map_flatMap]
  refine List.flatMap_congr fun entry _ => ?_
  simp [Cycle.relabel]

/-- A point finds on its new wire what it found before. -/
theorem locate?_relabel {c : Circuit θ} (hwires : Placement c.register R wires) {point : Point}
    (hpoint : point.wire < c.numWires) :
    (c.relabel R wires).locate? (point.relabel wires) =
      (c.locate? point).map fun (slot, op) => (slot, op.onto wires) := by
  rw [locate?, locate?, Point.relabel, relabel, List.getElem?_map]
  cases c.cycles[point.cycle]? with
  | none => rfl
  | some cycle =>
      simp only [Option.map_some, Option.bind_eq_bind, Option.bind_some,
        Cycle.slot?_relabel_getD hwires cycle hpoint]
      cases cycle.slot? point.wire with
      | none => rfl
      | some slot => cases hop : cycle.operations[slot]? <;> simp [hop]

section Placed

variable {c : Circuit θ} (h : c.WellFormed) (hwires : Placement c.register R wires)
include h hwires

theorem WellFormed.relabel : (c.relabel R wires).WellFormed :=
  wellFormed_iff_cycles.mpr <| List.forall_mem_map.mpr fun cycle hcycle =>
    (wellFormed_iff_cycles.mp h cycle hcycle).relabel hwires

/-- The relabelled circuit is the only well-formed one with the relabelled operations. -/
theorem WellFormed.eq_relabel {d : Circuit θ} (hd : d.WellFormed) (hregister : d.register = R)
    (hlayers : d.layers = c.layers.map (List.map (Operation.onto wires))) :
    d = c.relabel R wires :=
  hd.ext (h.relabel hwires) hregister (hlayers.trans (layers_relabel R wires c).symm)

end Placed

end Circuit

/-! ## Opening blocks -/

/-- A body on moved wires is the body on the wires, moved. -/
theorem bindBody_onto {inner outer : List Wire} {body : List (Nat × Operation θ)}
    (hbody : ∀ entry ∈ body, ∀ wire ∈ entry.2.wires, wire < inner.length) (params : List θ) :
    bindBody (inner.map fun wire => outer.getD wire wire) body params =
      (bindBody inner body params).map fun (k, op) => (k, op.onto outer) := by
  induction body generalizing params with
  | nil => rfl
  | cons entry body ih =>
      obtain ⟨k, op⟩ := entry
      obtain ⟨hop, hrest⟩ := List.forall_mem_cons.mp hbody
      -- Moving looks at wires only, so it does not matter which parameters are bound.
      have hbound : ∀ wire ∈ ({ op with params := params.take op.params.length } : Operation θ).wires,
          wire < inner.length := hop
      have hmoved : op.rebind (inner.map fun wire => outer.getD wire wire)
          (params.take op.params.length) =
          (op.rebind inner (params.take op.params.length)).onto outer :=
        (Operation.onto_onto hbound outer).symm
      rw [bindBody, bindBody, List.map_cons, ih hrest, hmoved]

/-- A moved operation is opened into the same cycles. -/
theorem Operation.WellFormed.opened_onto {op : Operation θ} (h : op.WellFormed S)
    (outer : List Wire) :
    (op.onto outer).opened = op.opened.map fun (k, sub) => (k, sub.onto outer) := by
  cases hgate : op.gate with
  | primitive gate =>
      have honto : (op.onto outer).gate = .primitive gate := hgate
      rw [opened, opened, honto, hgate]
      rfl
  | block name body =>
      have honto : (op.onto outer).gate = .block name body := hgate
      obtain ⟨hplacement, -, hbody⟩ := h.of_block hgate
      rw [opened, opened, honto, hgate]
      refine bindBody_onto (fun entry hentry wire hwire => ?_) op.params
      rw [hplacement.length_eq]
      exact (hbody.members _ (Circuit.mem_operations_of_mem_scheduled hentry)).lt_width hwire

theorem layer_map_onto (k : Nat) (entries : List (Nat × Operation θ)) :
    layer k (entries.map fun (j, op) => (j, op.onto wires)) =
      (layer k entries).map (Operation.onto wires) := by
  rw [layer, layer, List.filter_map, List.map_map, List.map_map]
  rfl

theorem Cycle.height_relabel (width : Nat) (wires : List Wire) (cycle : Cycle θ) :
    (cycle.relabel width wires).height = cycle.height := by
  rw [height, height, operations_relabel, List.filterMap_map]
  rfl

/-- The run of a relabelled cycle holds the operations of the run, moved. -/
theorem Cycle.WellFormed.map_operations_opened_relabel {cycle : Cycle θ} (h : cycle.WellFormed S)
    (width : Nat) (wires : List Wire) :
    ((cycle.relabel width wires).opened width).map Cycle.operations =
      ((cycle.opened S.width).map Cycle.operations).map (List.map (Operation.onto wires)) := by
  have hopened : (cycle.operations.map (Operation.onto wires)).flatMap Operation.opened =
      (cycle.operations.flatMap Operation.opened).map fun (k, op) => (k, op.onto wires) := by
    rw [List.flatMap_map, List.map_flatMap]
    exact List.flatMap_congr fun op hop => (h.members op hop).opened_onto wires
  rw [opened_eq_map, opened_eq_map, List.map_map, List.map_map, List.map_map, height_relabel]
  refine List.map_congr_left fun k _ => ?_
  simp only [Function.comp_apply, operations_foldl_insert, operations_relabel, hopened,
    layer_map_onto]
  rfl

namespace Circuit

variable {c : Circuit θ}

theorem layers_openBlocks (c : Circuit θ) : c.openBlocks.layers =
    c.cycles.flatMap fun cycle => (cycle.opened c.numWires).map Cycle.operations := by
  rw [layers, openBlocks, List.map_flatMap]

theorem WellFormed.openBlocks_relabel (h : c.WellFormed) (hwires : Placement c.register R wires) :
    (c.relabel R wires).openBlocks = c.openBlocks.relabel R wires := by
  refine h.openBlocks.eq_relabel hwires (h.relabel hwires).openBlocks rfl ?_
  rw [layers_openBlocks, layers_openBlocks, Circuit.relabel, List.flatMap_map, List.map_flatMap]
  exact List.flatMap_congr fun cycle hcycle =>
    (wellFormed_iff_cycles.mp h cycle hcycle).map_operations_opened_relabel R.width wires

/-- Flattening a relabelled circuit opens as many blocks and gives the flattened circuit, relabelled. -/
theorem WellFormed.flatten_relabel (h : c.WellFormed) (hwires : Placement c.register R wires) :
    (c.relabel R wires).flatten = (c.flatten.1.relabel R wires, c.flatten.2) := by
  have hblocks : ∀ d : Circuit θ, (d.relabel R wires).operations.any Operation.isBlock =
      d.operations.any Operation.isBlock := by
    intro d
    rw [operations_relabel, List.any_map]
    rfl
  have hcount : ∀ d : Circuit θ, (d.relabel R wires).numBlocks = d.numBlocks := by
    intro d
    rw [numBlocks, operations_relabel, List.countP_map]
    rfl
  induction c using Circuit.flatten.induct with
  | case1 c hblock _ _ _ ih =>
      rw [flatten_of_any_isBlock ((hblocks c).trans hblock), flatten_of_any_isBlock hblock, hcount,
        h.openBlocks_relabel hwires, ih h.openBlocks hwires]
  | case2 c hblock =>
      rw [flatten_eq_self hblock, flatten_eq_self (by rwa [hblocks])]

/-! ## Appending, removing and replacing -/

/-- Changing one member of a list and sending all members through a function. -/
theorem map_modify_of_comm {α β : Type} {f : α → α} {g : β → β} {p : α → β}
    (hcomm : ∀ a, p (f a) = g (p a)) (l : List α) (k : Nat) :
    (l.modify k f).map p = (l.map p).modify k g := by
  apply List.ext_getElem?
  intro i
  rw [List.getElem?_map, List.getElem?_modify, List.getElem?_modify, List.getElem?_map]
  cases l[i]? with
  | none => rfl
  | some a =>
      by_cases hk : k = i
      · simp [hk, hcomm]
      · simp [hk]

section Checks

variable {op : Operation θ} (hmade : op.Made) (hcheck : c.checkOperation op = .ok ())
include hmade hcheck

theorem placement_of_made : Placement op.gate.register c.register op.wires := by
  obtain ⟨hlen, hnodup, -⟩ := Operation.made_iff.mp hmade
  exact ⟨hnodup, (checkOperation_eq_ok_iff hlen).mp hcheck⟩

/-- A moved operation can be made and passes the checks of the other register. -/
theorem made_onto_and_check (hwires : Placement c.register R wires) :
    (op.onto wires).Made ∧ (c.relabel R wires).checkOperation (op.onto wires) = .ok () := by
  have hmoved := (placement_of_made hmade hcheck).trans hwires
  have hparams := (Operation.made_iff.mp hmade).2.2
  exact ⟨Operation.made_iff.mpr ⟨hmoved.length_eq, hmoved.nodup, hparams⟩,
    (checkOperation_eq_ok_iff hmoved.length_eq).mpr hmoved.levels⟩

end Checks

theorem landing_relabel {S : Register} (hwires : Placement S R wires) {inner : List Wire}
    (hinner : ∀ v ∈ inner, v < S.width) (cycles : List (Cycle θ)) :
    landing (inner.map fun v => wires.getD v v) (cycles.map (Cycle.relabel R.width wires)) =
      landing inner cycles := by
  induction cycles with
  | nil => rfl
  | cons cycle cycles ih =>
      rw [List.map_cons, landing, ih, Cycle.isFree_relabel hwires cycle hinner, landing]

theorem layers_insertAt (c : Circuit θ) (k : Nat) (op : Operation θ) :
    (c.insertAt k op).layers =
      (if k = c.layers.length then c.layers ++ [[]] else c.layers).modify k fun ops =>
        ops ++ [op] := by
  rw [layers, insertAt, map_modify_of_comm (g := fun ops => ops ++ [op]) (fun _ => rfl), layers,
    List.length_map]
  split <;> simp [Cycle.empty]

theorem layers_erase (c : Circuit θ) (k slot : Nat) :
    layers { c with cycles := c.cycles.modify k fun cycle => cycle.erase slot } =
      c.layers.modify k fun ops => ops.eraseIdx slot :=
  map_modify_of_comm (f := fun cycle : Cycle θ => cycle.erase slot)
    (g := fun ops : List (Operation θ) => ops.eraseIdx slot) (p := Cycle.operations)
    (fun _ => rfl) c.cycles k

section Changes

variable (h : c.WellFormed) (hwires : Placement c.register R wires)
include h hwires

theorem WellFormed.insertAt_relabel {op : Operation θ} (hop : op.WellFormed c.register) :
    (c.relabel R wires).insertAt (landing op.wires c.cycles) (op.onto wires) =
      (c.insertAt (landing op.wires c.cycles) op).relabel R wires := by
  have hlanding : landing op.wires c.cycles =
      landing (op.onto wires).wires (c.relabel R wires).cycles :=
    (landing_relabel hwires (fun _ => hop.lt_width) c.cycles).symm
  have hwell : ((c.relabel R wires).insertAt (landing op.wires c.cycles)
      (op.onto wires)).WellFormed := by
    rw [hlanding]
    exact (h.relabel hwires).insertAt (hop.onto hwires)
  refine (h.insertAt hop).eq_relabel hwires hwell rfl ?_
  rw [layers_insertAt, layers_insertAt, layers_relabel, List.length_map,
    map_modify_of_comm (g := fun ops => ops ++ [op.onto wires]) (by simp)]
  split <;> simp

/-- What can be appended can be appended after relabelling, and lands in the same cycle. -/
theorem WellFormed.append?_relabel {c' : Circuit θ} {op : Operation θ} {point : Point}
    (hmade : op.Made) (hgate : op.gate.WellFormed) (happend : c.append? op = .ok (point, c')) :
    (c.relabel R wires).append? (op.onto wires) = .ok (point.relabel wires, c'.relabel R wires) := by
  obtain ⟨hcheck, anchor, hanchor, rfl, rfl⟩ := append?_eq_ok_iff.mp happend
  have hop : op.WellFormed c.register :=
    wellFormed_of_made hmade hgate hcheck fun hnil => by simp [hnil] at hanchor
  have hlanding : landing (op.onto wires).wires (c.relabel R wires).cycles =
      landing op.wires c.cycles := landing_relabel hwires (fun _ => hop.lt_width) c.cycles
  refine append?_eq_ok_iff.mpr ⟨(made_onto_and_check hmade hcheck hwires).2,
    wires.getD anchor anchor, ?_, ?_, ?_⟩
  · rw [Operation.wires_onto, List.head?_map, hanchor, Option.map_some]
  · rw [hlanding]
    rfl
  · rw [hlanding, h.insertAt_relabel hwires hop]

/-- A point that names an operation names it after relabelling, in the same slot. -/
theorem WellFormed.locate?_relabel_of_eq_some {point : Point} {slot : Nat} {op : Operation θ}
    (hlocate : c.locate? point = some (slot, op)) :
    (c.relabel R wires).locate? (point.relabel wires) = some (slot, op.onto wires) := by
  have hpoint : point.wire < c.numWires :=
    (h.wellFormed_of_locate? hlocate).lt_width (h.locate?_eq_some_iff.mp hlocate).2
  rw [locate?_relabel hwires hpoint, hlocate, Option.map_some]

theorem WellFormed.remove?_relabel {c' : Circuit θ} {op : Operation θ} {point : Point}
    (hremove : c.remove? point = .ok (op, c')) :
    (c.relabel R wires).remove? (point.relabel wires) = .ok (op.onto wires, c'.relabel R wires) := by
  obtain ⟨slot, hlocate, rfl⟩ := remove?_eq_ok_iff.mp hremove
  have hremoved := remove?_eq_ok_iff.mpr ⟨slot, h.locate?_relabel_of_eq_some hwires hlocate, rfl⟩
  rw [hremoved, (h.remove hremove).eq_relabel hwires ((h.relabel hwires).remove hremoved) rfl]
  rw [layers_erase, layers_erase, layers_relabel]
  exact (map_modify_of_comm (fun ops => (List.eraseIdx_map ..).symm) c.layers point.cycle).symm

end Changes

section Replaced

variable {c' : Circuit θ} {points : List Point} {ops : List (Operation θ)}
  {accepts : Operation θ → Bool} (h : c.WellFormed) (hwires : Placement c.register R wires)
  (hreplace : c.replace? points ops accepts = .ok c')
include hreplace

/-- Every point of a replacement comes with an operation and finds one. -/
theorem exists_of_mem_points {point : Point} (hpoint : point ∈ points) :
    ∃ op, (point, op) ∈ points.zip ops ∧ ∃ found, c.locate? point = some found := by
  obtain ⟨hlen, hadmits, -⟩ := exists_replace?_eq_ok_iff.mp ⟨c', hreplace⟩
  rw [← List.map_fst_zip (Nat.le_of_eq hlen)] at hpoint
  obtain ⟨⟨_, op⟩, hpair, rfl⟩ := List.mem_map.mp hpoint
  obtain ⟨-, slot, current, hlocate, -⟩ := hadmits _ hpair
  exact ⟨op, hpair, _, hlocate⟩

include hwires in
theorem made_onto_of_replace? (hmade : ∀ op ∈ ops, op.Made) {op : Operation θ} (hop : op ∈ ops) :
    (op.onto wires).Made := by
  obtain ⟨hlen, hadmits, -⟩ := exists_replace?_eq_ok_iff.mp ⟨c', hreplace⟩
  have hop' := hop
  rw [← List.map_snd_zip (Nat.le_of_eq hlen.symm)] at hop'
  obtain ⟨pair, hpair, rfl⟩ := List.mem_map.mp hop'
  exact (made_onto_and_check (hmade _ hop) (hadmits pair hpair).1 hwires).1

include h hwires

theorem WellFormed.slotOf?_relabel_of_mem {point : Point} (hpoint : point ∈ points) :
    (c.relabel R wires).slotOf? (point.relabel wires) = c.slotOf? point := by
  obtain ⟨-, -, ⟨slot, current⟩, hlocate⟩ := exists_of_mem_points hreplace hpoint
  rw [slotOf?_of_locate? hlocate,
    slotOf?_of_locate? (h.locate?_relabel_of_eq_some hwires hlocate), Point.relabel]

/-- What can be replaced can be replaced after relabelling.  Whatever the caller asked of the
operations, they are the same ones, so nothing has to be asked again. -/
theorem WellFormed.exists_replace?_relabel (hmade : ∀ op ∈ ops, op.Made) :
    ∃ d, (c.relabel R wires).replace? (points.map (Point.relabel wires))
      (ops.map (Operation.onto wires)) (fun _ => true) = .ok d := by
  obtain ⟨hlen, hadmits, hnodup⟩ := exists_replace?_eq_ok_iff.mp ⟨c', hreplace⟩
  refine exists_replace?_eq_ok_iff.mpr ⟨by simpa using hlen, ?_, ?_⟩
  · rw [List.zip_map]
    refine List.forall_mem_map.mpr fun pair hpair => ?_
    obtain ⟨hcheck, slot, current, hlocate, -, hsame⟩ := hadmits pair hpair
    refine ⟨(made_onto_and_check (hmade _ (List.of_mem_zip hpair).2) hcheck hwires).2, slot,
      current.onto wires, h.locate?_relabel_of_eq_some hwires hlocate, rfl, fun wire => ?_⟩
    simp [Operation.wires_onto, hsame]
  · rw [List.map_map]
    exact List.map_congr_left (fun _ => h.slotOf?_relabel_of_mem hwires hreplace) ▸ hnodup

theorem WellFormed.replace?_relabel (hmade : ∀ op ∈ ops, op.Made)
    (hgates : ∀ op ∈ ops, op.gate.WellFormed) :
    (c.relabel R wires).replace? (points.map (Point.relabel wires))
      (ops.map (Operation.onto wires)) (fun _ => true) = .ok (c'.relabel R wires) := by
  obtain ⟨d, hd⟩ := h.exists_replace?_relabel hwires hreplace hmade
  have hwell : d.WellFormed :=
    (h.relabel hwires).replace
      (List.forall_mem_map.mpr fun _ => made_onto_of_replace? hwires hreplace hmade)
      (List.forall_mem_map.mpr hgates) hd
  have hregister : Placement c'.register R wires := by
    rwa [register_of_replace? hreplace]
  have hlen : d.cycles.length = c'.cycles.length := by
    rw [length_cycles_of_replace? hd, length_cycles_relabel, length_cycles_of_replace? hreplace]
  rw [hd, (h.replace hmade hgates hreplace).eq_relabel hregister hwell (register_of_replace? hd)
    (layers_eq_map hlen fun k slot => ?_)]
  by_cases hnamed : ∃ point ∈ points, c.slotOf? point = some (k, slot)
  -- A slot that is named holds the operation that goes with the point, moved.
  · obtain ⟨point, hpoint, hslot⟩ := hnamed
    obtain ⟨op, hpair, -⟩ := exists_of_mem_points hreplace hpoint
    have hpair' : (point.relabel wires, op.onto wires) ∈
        (points.map (Point.relabel wires)).zip (ops.map (Operation.onto wires)) := by
      rw [List.zip_map]
      exact List.mem_map.mpr ⟨(point, op), hpair, rfl⟩
    rw [operationAt_of_replace? hd hpair'
        ((h.slotOf?_relabel_of_mem hwires hreplace hpoint).trans hslot),
      operationAt_of_replace? hreplace hpair hslot, Option.map_some]
  -- Every other slot holds what it held.
  · have hothers : ∀ point ∈ points, c.slotOf? point ≠ some (k, slot) :=
      fun point hpoint hslot => hnamed ⟨point, hpoint, hslot⟩
    have hothers' : ∀ point ∈ points.map (Point.relabel wires),
        (c.relabel R wires).slotOf? point ≠ some (k, slot) := by
      refine List.forall_mem_map.mpr fun point hpoint => ?_
      rw [h.slotOf?_relabel_of_mem hwires hreplace hpoint]
      exact hothers point hpoint
    rw [operationAt_of_replace?_of_not_mem hd hothers', operationAt_relabel,
      operationAt_of_replace?_of_not_mem hreplace hothers]

end Replaced

end Circuit
end QuditCircuits
