import QuditCircuits.Circuit.Unitary
import QuditCircuits.Proofs.Circuit.Opening
import QuditCircuits.Proofs.Circuit.Replacement
import QuditCircuits.Substitution.Rule

/-!
# Accesses that have to be in range

The functions of the library are total: a slot without an operation is no operation, taking parameters
stops at the end of the list, and an operation is added to a cycle whether or not its wires are free.
Here the same steps are taken by functions that stop with a fault wherever such a case occurs, in the
order in which look-up, scanning, flattening and evaluation take them.

On well-formed circuits there is no fault and the results are those of the library.  For look-up and
for the cells of a run this comes from the slots of the cycles, for wires and for the parameters of
blocks from the members of the circuit and of the bodies.
-/

namespace QuditCircuits

variable {θ K : Type}

/-- An access that is out of range. -/
inductive AccessFault
  /-- A slot is named in which its cycle has no operation. -/
  | emptySlot (slot : Nat)
  /-- More parameters are to be split off than are left. -/
  | missingParameters (count left : Nat)
  /-- Parameters are left over behind the last operation. -/
  | unusedParameters (left : Nat)
  /-- A wire of a body is not among the wires of its block. -/
  | unknownWire (wire : Wire)
  /-- An operation is to be put behind the end of its run. -/
  | beyondRun (cycle : Nat)
  /-- An operation is to be put on wires that are in use in its cycle. -/
  | occupiedCell (cycle : Nat) (wires : List Wire)
  /-- The first wire is asked of an operation without wires. -/
  | noFirstWire
  deriving DecidableEq

/-- A step for every member of a list, when no step fails. -/
theorem mapM_eq_ok_filterMap {ε α β : Type} {f : α → Except ε β} {g : α → Option β} {l : List α}
    (h : ∀ a ∈ l, ∃ b, f a = .ok b ∧ g a = some b) : l.mapM f = .ok (l.filterMap g) := by
  induction l with
  | nil => rfl
  | cons a l ih =>
      obtain ⟨⟨b, hb, hg⟩, hrest⟩ := List.forall_mem_cons.mp h
      rw [List.mapM_cons, hb, ih hrest, List.filterMap_cons_some hg]
      rfl

/-! ## Looking up and scanning -/

/-- The operation in a slot. -/
def Cycle.readSlot (cycle : Cycle θ) (slot : Nat) : Except AccessFault (Operation θ) :=
  match cycle.operations[slot]? with
  | none => .error (.emptySlot slot)
  | some op => .ok op

/-- Looks up a point; the slot that its cycle names for the wire has to hold an operation. -/
def Circuit.getStrict (c : Circuit θ) (point : Point) :
    Except AccessFault (Option (Operation θ)) :=
  match c.cycles[point.cycle]? with
  | none => .ok none
  | some cycle =>
      match cycle.slot? point.wire with
      | none => .ok none
      | some slot => (cycle.readSlot slot).map some

theorem Circuit.WellFormed.getStrict_eq_ok {c : Circuit θ} (h : c.WellFormed) (point : Point) :
    c.getStrict point = .ok (c.get? point) := by
  rw [getStrict, get?, locate?]
  cases hcycle : c.cycles[point.cycle]? with
  | none => rfl
  | some cycle =>
      cases hslot : cycle.slot? point.wire with
      | none => simp [hslot]
      | some slot =>
          have hindexed := h.indexed cycle (List.mem_of_getElem? hcycle)
          obtain ⟨op, hop, -⟩ := (hindexed.slot?_eq_some_iff point.wire slot).mp hslot
          simp [hslot, Cycle.readSlot, hop, Except.map]

/-- The first wire of an operation. -/
def Operation.readAnchor (op : Operation θ) : Except AccessFault Wire :=
  match op.wires with
  | [] => .error .noFirstWire
  | anchor :: _ => .ok anchor

theorem Operation.Fits.exists_anchor {R : Register} {op : Operation θ} (h : op.Fits R) :
    ∃ anchor, op.readAnchor = .ok anchor ∧ op.wires.head? = some anchor := by
  obtain ⟨anchor, others, hwires⟩ := List.exists_cons_of_ne_nil h.wires_ne_nil
  exact ⟨anchor, by rw [readAnchor, hwires], by rw [hwires, List.head?_cons]⟩

/-- Scans for the operations that are accepted; each is named by its first wire. -/
def Circuit.scanStrict (c : Circuit θ) (accepts : Operation θ → Bool) :
    Except AccessFault (List Site) :=
  (c.scheduled.filter fun (_, op) => accepts op).mapM fun (k, op) =>
    op.readAnchor.map fun anchor => ⟨⟨k, anchor⟩, op.wires⟩

/-- Every operation has a first wire, so every operation that is accepted gets its site. -/
theorem Circuit.WellFormed.scanStrict_eq_ok {c : Circuit θ} (h : c.WellFormed)
    (accepts : Operation θ → Bool) :
    c.scanStrict accepts = .ok ((c.scheduled.filter fun (_, op) => accepts op).filterMap
      fun (k, op) => SubstitutionRule.siteOf? k op) := by
  refine mapM_eq_ok_filterMap fun (k, op) hentry => ?_
  have hmember := mem_operations_of_mem_scheduled (List.mem_of_mem_filter hentry)
  obtain ⟨anchor, hanchor, hhead⟩ := (h.members op hmember).exists_anchor
  have hsite : SubstitutionRule.siteOf? k op = some ⟨⟨k, anchor⟩, op.wires⟩ := by
    rw [SubstitutionRule.siteOf?, hhead, Option.map_some]
  exact ⟨_, congrArg (Except.map _) hanchor, hsite⟩

/-! ## Opening a level -/

/-- Splits parameters, with at least as many as asked for. -/
def splitStrict (count : Nat) (params : List θ) : Except AccessFault (List θ × List θ) :=
  if count ≤ params.length then .ok (params.take count, params.drop count)
  else .error (.missingParameters count params.length)

/-- Moves an operation of a body to the wires of its block, which has to have them all. -/
def Operation.rebindStrict (op : Operation θ) (outer : List Wire) (params : List θ) :
    Except AccessFault (Operation θ) := do
  let wires ← op.wires.mapM fun wire =>
    match outer[wire]? with
    | none => .error (.unknownWire wire)
    | some moved => .ok moved
  return ⟨op.gate, wires, params⟩

/-- Adds an operation to a cycle of a run, which has to have the cycle with the wires free. -/
def insertStrict (run : List (Cycle θ)) (k : Nat) (op : Operation θ) :
    Except AccessFault (List (Cycle θ)) :=
  match run[k]? with
  | none => .error (.beyondRun k)
  | some cycle =>
      if cycle.isFree op.wires then .ok (run.modify k fun cycle => cycle.insert op)
      else .error (.occupiedCell k op.wires)

/-- Lays a body out on the wires of its block.  The parameters of the block have to be used up. -/
def layBodyStrict (outer : List Wire) : List (Nat × Operation θ) → List θ → List (Cycle θ) →
    Except AccessFault (List (Cycle θ))
  | [], params, run =>
      if params.isEmpty then .ok run else .error (.unusedParameters params.length)
  | (k, op) :: rest, params, run => do
      let (own, others) ← splitStrict op.params.length params
      let moved ← op.rebindStrict outer own
      layBodyStrict outer rest others (← insertStrict run k moved)

/-- Puts what an operation becomes into a run. -/
def layStrict (run : List (Cycle θ)) (op : Operation θ) : Except AccessFault (List (Cycle θ)) :=
  match op.gate with
  | .primitive _ => insertStrict run 0 op
  | .block _ body => layBodyStrict op.wires body.scheduled op.params run

/-- The run that a cycle becomes. -/
def Cycle.openedStrict (width : Nat) (cycle : Cycle θ) : Except AccessFault (List (Cycle θ)) :=
  cycle.operations.foldlM layStrict (List.replicate cycle.height (Cycle.empty width))

/-- The circuit with the outermost blocks opened. -/
def Circuit.openBlocksStrict (c : Circuit θ) : Except AccessFault (Circuit θ) := do
  let runs ← c.cycles.mapM (Cycle.openedStrict c.numWires)
  return { c with cycles := runs.flatten }

/-- Opens at most `levels` levels of blocks. -/
def Circuit.openLevelsStrict : (levels : Nat) → Circuit θ → Except AccessFault (Circuit θ × Nat)
  | 0, c => .ok (c, 0)
  | levels + 1, c =>
      if c.operations.any Operation.isBlock then do
        let (flat, opened) ← openLevelsStrict levels (← c.openBlocksStrict)
        return (flat, c.numBlocks + opened)
      else .ok (c, 0)

/-- Opens all blocks; there are as many levels as the blocks are deep. -/
def Circuit.flattenStrict (c : Circuit θ) : Except AccessFault (Circuit θ × Nat) :=
  openLevelsStrict c.nesting c

/-! ### Wires and parameters of a body -/

theorem splitStrict_eq_ok {count : Nat} {params : List θ} (h : count ≤ params.length) :
    splitStrict count params = .ok (params.take count, params.drop count) :=
  if_pos h

theorem Operation.rebindStrict_eq_ok {op : Operation θ} {outer : List Wire}
    (h : ∀ wire ∈ op.wires, wire < outer.length) (params : List θ) :
    op.rebindStrict outer params = .ok (op.rebind outer params) := by
  have hread : ∀ wire moved, (match outer[wire]? with
      | none => .error (.unknownWire wire)
      | some moved => .ok moved : Except AccessFault Wire) = .ok moved ↔
        wire < outer.length ∧ moved = outer.getD wire wire := by
    intro wire moved
    by_cases hlt : wire < outer.length
    · simp [hlt, List.getD_eq_getElem?_getD, eq_comm]
    · simp [hlt]
  rw [rebindStrict, (mapM_eq_ok_iff hread).mpr ⟨h, rfl⟩]
  rfl

/-- Adds operations to the cycles of a run, one after the other. -/
def insertAllStrict (run : List (Cycle θ)) (entries : List (Nat × Operation θ)) :
    Except AccessFault (List (Cycle θ)) :=
  entries.foldlM (fun run (k, op) => insertStrict run k op) run

theorem insertAllStrict_cons (run : List (Cycle θ)) (k : Nat) (op : Operation θ)
    (entries : List (Nat × Operation θ)) :
    insertAllStrict run ((k, op) :: entries) =
      insertStrict run k op >>= fun run => insertAllStrict run entries :=
  List.foldlM_cons

theorem insertAllStrict_append (run : List (Cycle θ)) (entries entries' : List (Nat × Operation θ)) :
    insertAllStrict run (entries ++ entries') =
      insertAllStrict run entries >>= fun run => insertAllStrict run entries' :=
  List.foldlM_append

/-- Laying out a body is adding its operations, moved, as soon as the block has all the wires and
exactly as many parameters as the body. -/
theorem layBodyStrict_eq {outer : List Wire} {body : List (Nat × Operation θ)}
    (hwires : ∀ entry ∈ body, ∀ wire ∈ entry.2.wires, wire < outer.length) {params : List θ}
    (hparams : params.length = (body.map fun entry => entry.2.params.length).sum)
    (run : List (Cycle θ)) :
    layBodyStrict outer body params run = insertAllStrict run (bindBody outer body params) := by
  induction body generalizing params run with
  | nil =>
      obtain rfl : params = [] := List.length_eq_zero_iff.mp hparams
      rfl
  | cons entry body ih =>
      obtain ⟨k, op⟩ := entry
      obtain ⟨hop, hrest⟩ := List.forall_mem_cons.mp hwires
      have hsum : params.length =
          op.params.length + (body.map fun entry => entry.2.params.length).sum := hparams
      have hdrop : (params.drop op.params.length).length =
          (body.map fun entry => entry.2.params.length).sum := by
        rw [List.length_drop]
        omega
      rw [layBodyStrict, splitStrict_eq_ok (by omega)]
      show (op.rebindStrict outer _ >>= fun moved => insertStrict run k moved >>= _) = _
      rw [Operation.rebindStrict_eq_ok hop, bindBody, insertAllStrict_cons]
      exact bind_congr fun run' => ih hrest hdrop run'

theorem Operation.WellFormed.layStrict_eq {R : Register} {op : Operation θ} (h : op.WellFormed R)
    (run : List (Cycle θ)) : layStrict run op = insertAllStrict run op.opened := by
  cases hgate : op.gate with
  | primitive gate =>
      rw [layStrict, Operation.opened, hgate]
      exact (bind_pure _).symm
  | block name body =>
      obtain ⟨hplacement, hparams, hbody⟩ := h.of_block hgate
      rw [layStrict, Operation.opened, hgate]
      refine layBodyStrict_eq (fun entry hentry wire hwire => ?_) ?_ run
      · rw [hplacement.length_eq]
        exact (hbody.members _ (Circuit.mem_operations_of_mem_scheduled hentry)).lt_width hwire
      · rw [hparams, Circuit.numParams, ← Circuit.map_snd_scheduled, List.map_map]
        rfl

/-! ### Cells of a run -/

theorem Cycle.getElem?_mark_of_not_mem {slots : List (Option Nat)} {wires : List Wire} {slot : Nat}
    {wire : Wire} (h : wire ∉ wires) : (mark slots wires slot)[wire]? = slots[wire]? := by
  unfold mark
  induction wires generalizing slots with
  | nil => rfl
  | cons head wires ih =>
      obtain ⟨hhead, hrest⟩ := List.ne_and_not_mem_of_not_mem_cons h
      rw [List.foldl_cons, ih hrest, List.getElem?_set_ne (Ne.symm hhead)]

/-- Wires stay free when an operation without any of them is added. -/
theorem Cycle.isFree_insert {cycle : Cycle θ} {wires : List Wire} (h : cycle.isFree wires = true)
    {op : Operation θ} (hdisjoint : List.Disjoint op.wires wires) :
    (cycle.insert op).isFree wires = true := by
  rw [isFree, List.all_eq_true] at h ⊢
  intro wire hwire
  have hslot : (cycle.insert op).slot? wire = cycle.slot? wire :=
    congrArg Option.join (getElem?_mark_of_not_mem fun hmem => hdisjoint hmem hwire)
  rw [hslot]
  exact h wire hwire

/-- Entries that find their cycles in a run, with all their wires free. -/
def Room (run : List (Cycle θ)) (entries : List (Nat × Operation θ)) : Prop :=
  ∀ entry ∈ entries, ∃ cycle, run[entry.1]? = some cycle ∧ cycle.isFree entry.2.wires = true

/-- Adding an operation leaves room for later ones, which lie in other cycles or on other wires. -/
theorem Room.modify {run : List (Cycle θ)} {entries : List (Nat × Operation θ)}
    (h : Room run entries) {k : Nat} {op : Operation θ}
    (hlayered : ∀ entry ∈ entries, k < entry.1 ∨ List.Disjoint op.wires entry.2.wires) :
    Room (run.modify k fun cycle => cycle.insert op) entries := by
  intro entry hentry
  obtain ⟨cycle, hcycle, hfree⟩ := h entry hentry
  rw [List.getElem?_modify, hcycle]
  rcases hlayered entry hentry with hlt | hdisjoint
  · exact ⟨cycle, by simp [Nat.ne_of_lt hlt], hfree⟩
  · by_cases hk : k = entry.1
    · exact ⟨cycle.insert op, by simp [hk], Cycle.isFree_insert hfree hdisjoint⟩
    · exact ⟨cycle, by simp [hk], hfree⟩

/-- A layered list of operations for which there is room is added without a fault. -/
theorem Layered.insertAllStrict_eq_ok {entries : List (Nat × Operation θ)} (h : Layered entries)
    {run : List (Cycle θ)} (hroom : Room run entries) :
    insertAllStrict run entries = .ok (insertAll run entries) := by
  induction entries generalizing run with
  | nil => rfl
  | cons entry entries ih =>
      obtain ⟨k, op⟩ := entry
      obtain ⟨hhead, htail⟩ := List.pairwise_cons.mp h
      obtain ⟨⟨cycle, hcycle, hfree⟩, hrest⟩ := List.forall_mem_cons.mp hroom
      have hcycle' : run[k]? = some cycle := hcycle
      have hinsert : insertStrict run k op = .ok (run.modify k fun cycle => cycle.insert op) := by
        rw [insertStrict, hcycle']
        exact if_pos hfree
      rw [insertAllStrict_cons, hinsert]
      exact ih htail (Room.modify hrest hhead)

theorem foldlM_layStrict_eq {R : Register} {ops : List (Operation θ)}
    (h : ∀ op ∈ ops, op.WellFormed R) (run : List (Cycle θ)) :
    ops.foldlM layStrict run = insertAllStrict run (ops.flatMap Operation.opened) := by
  induction ops generalizing run with
  | nil => rfl
  | cons op ops ih =>
      obtain ⟨hop, hrest⟩ := List.forall_mem_cons.mp h
      rw [List.foldlM_cons, hop.layStrict_eq, List.flatMap_cons, insertAllStrict_append]
      exact bind_congr fun run' => ih hrest run'

theorem Cycle.WellFormed.openedStrict_eq_ok {R : Register} {cycle : Cycle θ}
    (h : cycle.WellFormed R) (width : Nat) :
    cycle.openedStrict width = .ok (cycle.opened width) := by
  rw [openedStrict, foldlM_layStrict_eq h.members]
  refine h.layered_flatMap_opened.insertAllStrict_eq_ok fun entry hentry => ?_
  obtain ⟨op, hop, hopened⟩ := List.mem_flatMap.mp hentry
  have hlt := lt_height_of_mem_opened hop hopened
  refine ⟨empty width, by simp [hlt], ?_⟩
  exact ((indexed_empty width).isFree_iff _).mpr (by simp [empty])

namespace Circuit

variable {c : Circuit θ}

theorem WellFormed.openBlocksStrict_eq_ok (h : c.WellFormed) :
    c.openBlocksStrict = .ok c.openBlocks := by
  have hruns : c.cycles.mapM (Cycle.openedStrict c.numWires) =
      .ok (c.cycles.map (Cycle.opened c.numWires)) := by
    rw [← List.filterMap_eq_map]
    exact mapM_eq_ok_filterMap fun cycle hcycle => ⟨_,
      (wellFormed_iff_cycles.mp h cycle hcycle).openedStrict_eq_ok c.numWires, rfl⟩
  rw [openBlocksStrict, hruns, Circuit.openBlocks, List.flatMap_def]
  rfl

/-- Opening as many levels as the blocks are deep opens all of them. -/
theorem WellFormed.openLevelsStrict_eq_ok (h : c.WellFormed) {levels : Nat}
    (hlevels : c.nesting ≤ levels) : openLevelsStrict levels c = .ok c.flatten := by
  induction levels generalizing c with
  | zero =>
      have hnone : ¬ c.operations.any Operation.isBlock = true := fun hblock => by
        have := nesting_pos hblock
        omega
      rw [openLevelsStrict, flatten_eq_self hnone]
  | succ levels ih =>
      rw [openLevelsStrict]
      by_cases hblock : c.operations.any Operation.isBlock = true
      · have hle : c.openBlocks.nesting ≤ levels := by
          have := c.nesting_openBlocks_le
          omega
        rw [if_pos hblock, h.openBlocksStrict_eq_ok, flatten_of_any_isBlock hblock]
        show (openLevelsStrict levels c.openBlocks >>= _) = _
        rw [ih h.openBlocks hle]
        rfl
      · rw [if_neg hblock, flatten_eq_self hblock]

theorem WellFormed.flattenStrict_eq_ok (h : c.WellFormed) : c.flattenStrict = .ok c.flatten :=
  h.openLevelsStrict_eq_ok (Nat.le_refl _)

end Circuit

/-! ## Evaluating -/

section Evaluation

variable [Zero K] [One K] [Add K] [Mul K] [AddProduct K]

/-- The operator of a gate as a function of its parameters, or the error of its evaluation, unless
there is a fault. -/
abbrev StrictEvaluation (θ K : Type) : Type :=
  List θ → Except AccessFault (Except ShapeError (Operator K))

/-- Multiplies the operators of a list of operations onto `acc`.  Each takes its share of the
parameters, and together they have to use them up. -/
def evolveStrict (R : Register) : List (Operation θ × StrictEvaluation θ K) → List θ →
    Operator K → Except AccessFault (Except ShapeError (Operator K))
  | [], params, acc =>
      if params.isEmpty then .ok (.ok acc) else .error (.unusedParameters params.length)
  | (op, evaluation) :: rest, params, acc => do
      let (own, others) ← splitStrict op.params.length params
      match ← evaluation own with
      | .error error => return .error error
      | .ok operator =>
          match operator.place? op.wires R >>= fun placed => placed.mul? acc with
          | .error error => return .error error
          | .ok next => evolveStrict R rest others next

/-- The operator of a circuit, from those of the gates of its operations.  The number of parameters is
checked before any is taken. -/
def Circuit.evaluateStrict (c : Circuit θ) (parts : List (Operation θ × StrictEvaluation θ K)) :
    StrictEvaluation θ K := fun params =>
  match checkParameters "circuit" c.numParams params with
  | .error error => .ok (.error error)
  | .ok () =>
      match Operator.identity? c.register with
      | .error error => .ok (.error error)
      | .ok start => evolveStrict c.register parts params start

def Gate.unitaryStrict (model : GateModel θ K) (gate : Gate θ) : StrictEvaluation θ K :=
  gate.fold (fun gate params => .ok (model.unitary? gate params))
    fun _ body parts => body.evaluateStrict parts

def Circuit.unitaryStrict (model : GateModel θ K) (c : Circuit θ) : StrictEvaluation θ K :=
  c.evaluateStrict (c.operations.map fun op => (op, op.gate.unitaryStrict model))

variable {model : GateModel θ K}

theorem evolveStrict_eq_ok {R : Register} {ops : List (Operation θ)}
    (hops : ∀ op ∈ ops, ∀ params, op.gate.unitaryStrict model params =
      .ok (op.gate.unitary? model params))
    {params : List θ} (hparams : params.length = (ops.map fun op => op.params.length).sum)
    (acc : Operator K) :
    evolveStrict R (ops.map fun op => (op, op.gate.unitaryStrict model)) params acc =
      .ok (evolve R (ops.map fun op => (op, op.gate.unitary? model)) params acc) := by
  induction ops generalizing params acc with
  | nil =>
      obtain rfl : params = [] := List.length_eq_zero_iff.mp hparams
      rfl
  | cons op ops ih =>
      obtain ⟨hop, hrest⟩ := List.forall_mem_cons.mp hops
      have hsum : params.length =
          op.params.length + (ops.map fun op => op.params.length).sum := hparams
      have hdrop : (params.drop op.params.length).length =
          (ops.map fun op => op.params.length).sum := by
        rw [List.length_drop]
        omega
      rw [List.map_cons, List.map_cons, evolveStrict, splitStrict_eq_ok (by omega), evolve]
      show (op.gate.unitaryStrict model (params.take op.params.length) >>= _) = _
      rw [hop]
      -- An error of the gate, the placement or the product ends both evaluations.
      cases op.gate.unitary? model (params.take op.params.length) with
      | error => rfl
      | ok operator =>
          show (match operator.place? op.wires R >>= fun placed => placed.mul? acc with
              | .error error => Except.ok (.error error)
              | .ok next => evolveStrict R (ops.map fun op => (op, op.gate.unitaryStrict model))
                  (params.drop op.params.length) next) =
            Except.ok (operator.place? op.wires R >>= fun placed => placed.mul? acc >>= fun next =>
              evolve R (ops.map fun op => (op, op.gate.unitary? model))
                (params.drop op.params.length) next)
          rw [← bind_assoc]
          cases operator.place? op.wires R >>= fun placed => placed.mul? acc with
          | error => rfl
          | ok next => exact ih hrest hdrop next

theorem Circuit.evaluateStrict_eq_ok {c : Circuit θ}
    (hops : ∀ op ∈ c.operations, ∀ params, op.gate.unitaryStrict model params =
      .ok (op.gate.unitary? model params)) (params : List θ) :
    c.unitaryStrict model params = .ok (c.unitaryWith? model params) := by
  rw [unitaryStrict, evaluateStrict, unitaryWith?, evaluate]
  cases hcheck : checkParameters "circuit" c.numParams params with
  | error => rfl
  | ok =>
      have hlen := checkParameters_eq_ok_iff.mp hcheck
      cases Operator.identity? (K := K) c.register with
      | error => rfl
      | ok start => exact evolveStrict_eq_ok hops hlen start

/-- The operations of a body take all its parameters and no more, so evaluation has no fault, at
whatever parameters and also where it ends with an error. -/
theorem Gate.unitaryStrict_eq_ok (model : GateModel θ K) (gate : Gate θ) (params : List θ) :
    gate.unitaryStrict model params = .ok (gate.unitary? model params) := by
  induction gate using Gate.induct generalizing params with
  | primitive gate => rfl
  | block name body ih =>
      rw [Gate.unitary?_block, ← Circuit.evaluateStrict_eq_ok fun op hop => ih op hop, unitaryStrict,
        Gate.fold_block]
      rfl

theorem Circuit.unitaryStrict_eq_ok (model : GateModel θ K) (c : Circuit θ) (params : List θ) :
    c.unitaryStrict model params = .ok (c.unitaryWith? model params) :=
  evaluateStrict_eq_ok (fun op _ => op.gate.unitaryStrict_eq_ok model) params

end Evaluation

end QuditCircuits
