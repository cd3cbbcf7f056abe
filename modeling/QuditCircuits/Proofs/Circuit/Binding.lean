import QuditCircuits.Circuit.Flatten
import QuditCircuits.Proofs.Circuit.Invariant

/-!
# Parameters handed down to a body

The parameters of a block are cut up along the operations of its body in schedule order.  Evaluation,
flattening and the list of leaves all do so, each in a recursion of its own; `assignParams` is the one
function of lists that they share.  Opening a block is then handing down its parameters and moving
every operation of the body to the wires of the block (`Operation.parts_block`).
-/

namespace QuditCircuits

variable {θ : Type}

/-! ## Cutting up parameters -/

/-- The operations with other parameters, each taking as many from the front as it holds itself. -/
def assignParams : List (Operation θ) → List θ → List (Operation θ)
  | [], _ => []
  | op :: ops, params =>
      { op with params := params.take op.params.length } ::
        assignParams ops (params.drop op.params.length)

/-- Operations get their own parameters back. -/
@[simp]
theorem assignParams_flatMap_params (ops : List (Operation θ)) :
    assignParams ops (ops.flatMap Operation.params) = ops := by
  induction ops with
  | nil => rfl
  | cons op ops ih =>
      cases op
      simp [assignParams, ih]

/-- If there are enough parameters, every operation keeps its gate, its wires and the number of its
parameters. -/
theorem exists_of_mem_assignParams {ops : List (Operation θ)} {params : List θ}
    (hlen : (ops.flatMap Operation.params).length ≤ params.length) {op : Operation θ}
    (hop : op ∈ assignParams ops params) : ∃ inner ∈ ops, op.gate = inner.gate ∧
      op.wires = inner.wires ∧ op.params.length = inner.params.length := by
  induction ops generalizing params with
  | nil => simp [assignParams] at hop
  | cons head ops ih =>
      rw [List.flatMap_cons, List.length_append] at hlen
      rcases List.mem_cons.mp hop with rfl | hmem
      · exact ⟨head, List.mem_cons_self, rfl, rfl, List.length_take_of_le (by omega)⟩
      · obtain ⟨inner, hinner, hsame⟩ := ih (by rw [List.length_drop]; omega) hmem
        exact ⟨inner, List.mem_cons_of_mem _ hinner, hsame⟩

theorem map_gate_assignParams (ops : List (Operation θ)) (params : List θ) :
    (assignParams ops params).map Operation.gate = ops.map Operation.gate := by
  induction ops generalizing params with
  | nil => rfl
  | cons op ops ih => rw [assignParams, List.map_cons, List.map_cons, ih]

/-- The number of parameters that a circuit takes is the number that it holds. -/
theorem Circuit.length_params (c : Circuit θ) : c.params.length = c.numParams := by
  rw [params, numParams, List.length_flatMap, List.sum_eq_foldr]

/-- The operations of a well-formed circuit still fit when its parameters are exchanged. -/
theorem Circuit.WellFormed.wellFormed_of_mem_assignParams {c : Circuit θ} (h : c.WellFormed)
    {params : List θ} (hlen : params.length = c.numParams) {op : Operation θ}
    (hop : op ∈ assignParams c.operations params) : op.WellFormed c.register := by
  have henough : (c.operations.flatMap Operation.params).length ≤ params.length :=
    Nat.le_of_eq (c.length_params.trans hlen.symm)
  obtain ⟨inner, hinner, hgate, hwires, hparams⟩ := exists_of_mem_assignParams henough hop
  obtain ⟨⟨hplacement, hne, hcount⟩, hwell⟩ := h.members inner hinner
  refine ⟨⟨?_, hwires ▸ hne, hparams.trans (hgate ▸ hcount)⟩, hgate ▸ hwell⟩
  rw [hgate, hwires]
  exact hplacement

/-! ## Moving operations to the wires of a block -/

namespace Operation

/-- An operation over a small register, moved to the wires on which that register lies. -/
def onto (outer : List Wire) (op : Operation θ) : Operation θ :=
  op.rebind outer op.params

theorem wires_onto (outer : List Wire) (op : Operation θ) :
    (op.onto outer).wires = op.wires.map fun wire => outer.getD wire wire := rfl

/-- On the wires `0`, `1`, … an operation stays where it is. -/
theorem onto_range (n : Nat) (op : Operation θ) : op.onto (List.range n) = op := by
  have hwire : ∀ wire, (List.range n).getD wire wire = wire := by
    intro wire
    rw [List.getD_eq_getElem?_getD]
    rcases Nat.lt_or_ge wire n with hlt | hge
    · rw [List.getElem?_range hlt, Option.getD_some]
    · rw [List.getElem?_eq_none (by simpa using hge), Option.getD_none]
  cases op
  simp only [onto, rebind, hwire, List.map_id']

theorem WellFormed.onto {S R : Register} {outer : List Wire} (houter : Placement S R outer)
    {op : Operation θ} (h : op.WellFormed S) : (op.onto outer).WellFormed R where
  placement := h.placement.trans houter
  wires_ne_nil := by simpa [wires_onto] using h.wires_ne_nil
  length_params := h.length_params
  gate := h.gate

/-- A moved operation acts on wires of the block only. -/
theorem mem_outer_of_mem_onto {S R : Register} {outer : List Wire} (houter : Placement S R outer)
    {op : Operation θ} (h : op.Fits S) {wire : Wire} (hwire : wire ∈ (op.onto outer).wires) :
    wire ∈ outer := by
  obtain ⟨inner, hinner, rfl⟩ := List.mem_map.mp hwire
  exact List.mem_of_getElem? (houter.getElem?_getD (h.lt_width hinner))

/-- Operations without a common wire have none after being moved. -/
theorem disjoint_onto {S R : Register} {outer : List Wire} (houter : Placement S R outer)
    {op op' : Operation θ} (h : op.Fits S) (h' : op'.Fits S)
    (hdisjoint : List.Disjoint op.wires op'.wires) :
    List.Disjoint (op.onto outer).wires (op'.onto outer).wires := by
  intro wire hwire hwire'
  obtain ⟨v, hv, rfl⟩ := List.mem_map.mp hwire
  obtain ⟨v', hv', heq⟩ := List.mem_map.mp hwire'
  have hget := houter.getElem?_getD (h.lt_width hv)
  have hget' := houter.getElem?_getD (h'.lt_width hv')
  have hlt : v < outer.length := (List.getElem?_eq_some_iff.mp hget).1
  rw [heq, ← hget] at hget'
  exact hdisjoint hv ((List.getElem?_inj hlt houter.nodup).mp hget'.symm ▸ hv')

/-- Moving twice is moving once, to the wires on which the wires of the smaller block lie. -/
theorem onto_onto {inner : List Wire} {op : Operation θ} (h : ∀ wire ∈ op.wires, wire < inner.length)
    (outer : List Wire) :
    (op.onto inner).onto outer = op.onto (inner.map fun wire => outer.getD wire wire) := by
  have hwires : ((op.onto inner).onto outer).wires =
      (op.onto (inner.map fun wire => outer.getD wire wire)).wires := by
    rw [wires_onto, wires_onto, wires_onto, List.map_map]
    refine List.map_congr_left fun wire hwire => ?_
    simp [List.getD_eq_getElem?_getD, h wire hwire]
  cases op
  simpa [onto, rebind] using hwires

/-! ## Opening an operation -/

/-- The operations that an operation becomes when its level is opened. -/
def parts (op : Operation θ) : List (Operation θ) :=
  op.opened.map Prod.snd

end Operation

theorem map_snd_bindBody (outer : List Wire) (body : List (Nat × Operation θ)) (params : List θ) :
    (bindBody outer body params).map Prod.snd =
      (assignParams (body.map Prod.snd) params).map (Operation.onto outer) := by
  induction body generalizing params with
  | nil => rfl
  | cons entry body ih =>
      simp only [bindBody, List.map_cons, assignParams, ih]
      rfl

@[simp]
theorem Circuit.map_snd_scheduled (c : Circuit θ) : c.scheduled.map Prod.snd = c.operations := by
  have hcycle : ∀ entry : Cycle θ × Nat,
      (entry.1.operations.map fun op => (entry.2, op)).map Prod.snd = entry.1.operations := by
    intro entry
    simp [List.map_map, Function.comp_def]
  rw [scheduled, List.map_flatMap, operations]
  simp only [hcycle]
  rw [← List.flatMap_map, List.zipIdx_map_fst]

namespace Operation

theorem parts_primitive {op : Operation θ} {gate : Primitive} (h : op.gate = .primitive gate) :
    op.parts = [op] := by
  rw [parts, opened, h]
  rfl

/-- A block becomes the operations of its body, with its parameters and on its wires. -/
theorem parts_block {op : Operation θ} {name : String} {body : Circuit θ}
    (h : op.gate = .block name body) :
    op.parts = (assignParams body.operations op.params).map (onto op.wires) := by
  rw [parts, opened, h]
  simp only [map_snd_bindBody, Circuit.map_snd_scheduled]

/-- The parts of a block have the gates of its body. -/
theorem map_gate_parts {op : Operation θ} {name : String} {body : Circuit θ}
    (h : op.gate = .block name body) : op.parts.map gate = body.operations.map gate := by
  rw [parts_block h, List.map_map, ← map_gate_assignParams body.operations op.params]
  rfl

/-- A moved operation becomes what the operation becomes, moved. -/
theorem WellFormed.parts_onto {S : Register} {op : Operation θ} (h : op.WellFormed S)
    (outer : List Wire) : (op.onto outer).parts = op.parts.map (Operation.onto outer) := by
  cases heq : op.gate with
  | primitive gate =>
      rw [parts_primitive heq, parts_primitive (show (op.onto outer).gate = _ from heq), List.map_singleton]
  | block name body =>
      obtain ⟨hplacement, hparams, hbody⟩ := h.of_block heq
      rw [parts_block heq, parts_block (show (op.onto outer).gate = _ from heq), List.map_map]
      refine List.map_congr_left fun sub hsub => (onto_onto (fun wire hwire => ?_) outer).symm
      rw [hplacement.length_eq]
      exact (hbody.wellFormed_of_mem_assignParams hparams hsub).lt_width hwire

/-- What an operation becomes fits where the operation did, on wires of the operation. -/
theorem WellFormed.of_mem_parts {R : Register} {op sub : Operation θ} (h : op.WellFormed R)
    (hsub : sub ∈ op.parts) : sub.WellFormed R ∧ ∀ wire ∈ sub.wires, wire ∈ op.wires := by
  cases heq : op.gate with
  | primitive gate =>
      rw [parts_primitive heq, List.mem_singleton] at hsub
      subst hsub
      exact ⟨h, fun _ => id⟩
  | block name body =>
      rw [parts_block heq] at hsub
      obtain ⟨hplacement, hparams, hbody⟩ := h.of_block heq
      obtain ⟨inner, hinner, rfl⟩ := List.mem_map.mp hsub
      have hwell := hbody.wellFormed_of_mem_assignParams hparams hinner
      exact ⟨hwell.onto hplacement, fun wire => mem_outer_of_mem_onto hplacement hwell.toFits⟩

end Operation
end QuditCircuits
