import QuditCircuits.Proofs.EarliestCycles

/-!
# Appending operations that share no wire

Two lists of operations without a common wire can be appended in any order that keeps each list in its
own: every operation lands where it lands if the other list is not there, and the circuit at the end
shows what the two circuits show to which only one list was appended
(`Circuit.Reachable.appendEach?_interleaving`).

An operation lands behind the operations on its own wires, so what the other list adds does not move it.
It may be the other list, though, that adds the cycle in which it lands.  `Circuit.Overlay` keeps account
of this: the circuit is as long as the longer of the two.
-/

namespace QuditCircuits

variable {θ : Type}

/-! ## Interleavings -/

/-- A list made of the members of two others, each of which keeps its order. -/
inductive Interleaving {α : Type} : List α → List α → List α → Prop
  | nil : Interleaving [] [] []
  | left {a : α} {l l' merged : List α} :
      Interleaving l l' merged → Interleaving (a :: l) l' (a :: merged)
  | right {b : α} {l l' merged : List α} :
      Interleaving l l' merged → Interleaving l (b :: l') (b :: merged)

namespace Interleaving

variable {α : Type} {l l' merged : List α}

theorem symm (h : Interleaving l l' merged) : Interleaving l' l merged := by
  induction h with
  | nil => exact .nil
  | left _ ih => exact .right ih
  | right _ ih => exact .left ih

/-- One list after the other. -/
theorem append (l l' : List α) : Interleaving l l' (l ++ l') := by
  induction l with
  | nil =>
      induction l' with
      | nil => exact .nil
      | cons b l' ih => exact .right ih
  | cons a l ih => exact .left ih

end Interleaving

namespace Circuit

/-! ## Circuits on top of each other -/

/-- A circuit that shows what two others show, and is as long as the longer one. -/
structure Overlay (a b d : Circuit θ) : Prop where
  wellFormed_left : a.WellFormed
  wellFormed_right : b.WellFormed
  wellFormed : d.WellFormed
  register_left : a.register = d.register
  register_right : b.register = d.register
  numCycles : d.numCycles = max a.numCycles b.numCycles
  mem_scheduled_iff : ∀ k op,
    (k, op) ∈ d.scheduled ↔ (k, op) ∈ a.scheduled ∨ (k, op) ∈ b.scheduled

/-- Whatever a circuit holds on the wires of some operations, another one holds as well. -/
def Covers (a b : Circuit θ) (ops : List (Operation θ)) : Prop :=
  ∀ op ∈ ops, ∀ k other, (k, other) ∈ b.scheduled →
    (k, other) ∈ a.scheduled ∨ List.Disjoint op.wires other.wires

namespace Overlay

variable {a b d : Circuit θ}

theorem refl (h : d.WellFormed) : Overlay d d d where
  wellFormed_left := h
  wellFormed_right := h
  wellFormed := h
  register_left := rfl
  register_right := rfl
  numCycles := (Nat.max_self _).symm
  mem_scheduled_iff _ _ := (or_self_iff).symm

theorem symm (h : Overlay a b d) : Overlay b a d where
  wellFormed_left := h.wellFormed_right
  wellFormed_right := h.wellFormed_left
  wellFormed := h.wellFormed
  register_left := h.register_right
  register_right := h.register_left
  numCycles := h.numCycles.trans (Nat.max_comm _ _)
  mem_scheduled_iff k op := (h.mem_scheduled_iff k op).trans or_comm

/-- Looking a point up finds what one of the two circuits has there. -/
theorem get?_eq (h : Overlay a b d) (q : Point) : d.get? q = (a.get? q).or (b.get? q) := by
  have hfound : ∀ op, d.get? q = some op ↔ a.get? q = some op ∨ b.get? q = some op := by
    intro op
    rw [h.wellFormed.get?_eq_some_iff_mem_scheduled, h.mem_scheduled_iff, or_and_right,
      h.wellFormed_left.get?_eq_some_iff_mem_scheduled,
      h.wellFormed_right.get?_eq_some_iff_mem_scheduled]
  cases ha : a.get? q with
  | some op => exact (hfound op).mpr (.inl ha)
  | none =>
      apply Option.ext
      intro op
      rw [hfound, ha]
      simp

/-- An operation lands behind what the left circuit holds on its wires, if that is all there is. -/
theorem landing_eq (h : Overlay a b d) {op : Operation θ} {ops : List (Operation θ)}
    (hcovers : Covers a b (op :: ops)) :
    landing op.wires d.cycles = landing op.wires a.cycles := by
  refine eq_of_forall_ge_iff fun k => ?_
  rw [h.wellFormed.landing_le_iff, h.wellFormed_left.landing_le_iff]
  constructor
  · exact fun hfree j other hother => hfree j other ((h.mem_scheduled_iff j other).mpr (.inl hother))
  · intro hfree j other hother hj
    rcases (h.mem_scheduled_iff j other).mp hother with hleft | hright
    · exact hfree j other hleft hj
    · rcases hcovers op List.mem_cons_self j other hright with hleft | hdisjoint
      · exact hfree j other hleft hj
      · exact hdisjoint

/-- An operation on wires of the left list is appended to the left circuit and to the overlay.  It lands
at the same point, and what it adds is on no wire of the right list. -/
theorem append (h : Overlay a b d) {op : Operation θ} {ops ops' : List (Operation θ)}
    (hop : op.WellFormed d.register) (hdisjoint : ∀ op' ∈ ops', List.Disjoint op.wires op'.wires)
    (hcovers : Covers a b (op :: ops)) (hcovers' : Covers b a ops') :
    ∃ point a' d', a.append? op = .ok (point, a') ∧ d.append? op = .ok (point, d') ∧
      Overlay a' b d' ∧ Covers a' b ops ∧ Covers b a' ops' := by
  have hopleft : op.WellFormed a.register := h.register_left.symm ▸ hop
  obtain ⟨anchor, hanchor⟩ := Option.isSome_iff_exists.mp (List.isSome_head?.mpr hop.wires_ne_nil)
  have hleft := append?_eq_ok hopleft hanchor
  have hlands := append?_eq_ok hop hanchor
  have hinsert := h.wellFormed.insertAt hop
  rw [h.landing_eq hcovers] at hlands hinsert
  have hle : landing op.wires a.cycles ≤ a.numCycles := landing_le_length _ _
  have hle' : landing op.wires a.cycles ≤ d.numCycles := by
    rw [h.numCycles]
    exact Nat.le_trans hle (Nat.le_max_left _ _)
  refine ⟨_, _, _, hleft, hlands, ?_, fun op' hop' k other hother => ?_,
    fun op' hop' k other hother => ?_⟩
  · exact {
      wellFormed_left := h.wellFormed_left.insertAt hopleft
      wellFormed_right := h.wellFormed_right
      wellFormed := hinsert
      register_left := h.register_left
      register_right := h.register_right
      -- If the left circuit gets a new cycle, the overlay may have it already.
      numCycles := by
        have hlen := h.numCycles
        rw [numCycles_insertAt, numCycles_insertAt]
        split <;> split <;> omega
      mem_scheduled_iff := fun k other => by
        rw [mem_scheduled_insertAt hle', mem_scheduled_insertAt hle, h.mem_scheduled_iff]
        exact or_right_comm }
  · exact (hcovers op' (List.mem_cons_of_mem _ hop') k other hother).imp_left fun hmem =>
      (mem_scheduled_insertAt hle).mpr (.inl hmem)
  · rcases (mem_scheduled_insertAt hle).mp hother with hmem | ⟨-, rfl⟩
    · exact hcovers' op' hop' k other hmem
    · exact .inr (hdisjoint op' hop').symm

end Overlay

/-! ## Appending merged lists -/

theorem appendEach?_cons {c c₁ c' : Circuit θ} {op : Operation θ} {ops : List (Operation θ)}
    {point : Point} {points : List Point} (happend : c.append? op = .ok (point, c₁))
    (hrest : c₁.appendEach? ops = .ok (points, c')) :
    c.appendEach? (op :: ops) = .ok (point :: points, c') := by
  rw [appendEach?, happend]
  show (c₁.appendEach? ops >>= _) = _
  rw [hrest]
  rfl

/-- There is a point for each operation. -/
theorem length_of_appendEach? {c c' : Circuit θ} {ops : List (Operation θ)} {points : List Point}
    (h : c.appendEach? ops = .ok (points, c')) : points.length = ops.length := by
  induction ops generalizing c points with
  | nil =>
      cases h
      rfl
  | cons op ops ih =>
      obtain ⟨⟨point, longer⟩, -, h⟩ := bind_eq_ok_iff.mp h
      obtain ⟨⟨others, last⟩, hothers, hlast⟩ := bind_eq_ok_iff.mp h
      cases hlast
      rw [List.length_cons, List.length_cons, ih hothers]

/-- Two lists are appended to a circuit each, and merged to a third one.  Every operation lands at the same
point in both places, and the third circuit is an overlay of the others at the end. -/
def MergesTo (a b d : Circuit θ) (ops ops' merged : List (Operation θ)) : Prop :=
  ∃ points points' landed a' b' d', a.appendEach? ops = .ok (points, a') ∧
    b.appendEach? ops' = .ok (points', b') ∧ d.appendEach? merged = .ok (landed, d') ∧
    Interleaving (ops.zip points) (ops'.zip points') (merged.zip landed) ∧ Overlay a' b' d'

namespace MergesTo

variable {a b d : Circuit θ} {ops ops' merged : List (Operation θ)}

theorem symm (h : MergesTo a b d ops ops' merged) : MergesTo b a d ops' ops merged := by
  obtain ⟨points, points', landed, a', b', d', ha, hb, hd, hpoints, hoverlay⟩ := h
  exact ⟨points', points, landed, b', a', d', hb, ha, hd, hpoints.symm, hoverlay.symm⟩

theorem cons {a₁ d₁ : Circuit θ} {op : Operation θ} {point : Point}
    (hleft : a.append? op = .ok (point, a₁)) (hlands : d.append? op = .ok (point, d₁))
    (h : MergesTo a₁ b d₁ ops ops' merged) : MergesTo a b d (op :: ops) ops' (op :: merged) := by
  obtain ⟨points, points', landed, a', b', d', ha, hb, hd, hpoints, hoverlay⟩ := h
  exact ⟨point :: points, points', point :: landed, a', b', d', appendEach?_cons hleft ha, hb,
    appendEach?_cons hlands hd, hpoints.left, hoverlay⟩

end MergesTo

/-- However two lists without a common wire are merged, the merged list can be appended to an overlay of
circuits to which the two lists are appended. -/
theorem Overlay.appendEach {a b d : Circuit θ} (h : Overlay a b d)
    {ops ops' merged : List (Operation θ)} (hmerged : Interleaving ops ops' merged)
    (hops : ∀ op ∈ ops, op.WellFormed d.register) (hops' : ∀ op ∈ ops', op.WellFormed d.register)
    (hdisjoint : ∀ op ∈ ops, ∀ op' ∈ ops', List.Disjoint op.wires op'.wires)
    (hcovers : Covers a b ops) (hcovers' : Covers b a ops') : MergesTo a b d ops ops' merged := by
  induction hmerged generalizing a b d with
  | nil => exact ⟨[], [], [], a, b, d, rfl, rfl, rfl, .nil, h⟩
  | @left op ops ops' merged _ ih =>
      obtain ⟨hop, hops⟩ := List.forall_mem_cons.mp hops
      obtain ⟨hapart, hdisjoint⟩ := List.forall_mem_cons.mp hdisjoint
      obtain ⟨point, a₁, d₁, hleft, hlands, hnext, hcovers, hcovers'⟩ :=
        h.append hop hapart hcovers hcovers'
      have hregister : d₁.register = d.register := hnext.register_right.symm.trans h.register_right
      rw [← hregister] at hops hops'
      exact .cons hleft hlands (ih hnext hops hops' hdisjoint hcovers hcovers')
  | @right op ops ops' merged _ ih =>
      obtain ⟨hop, hops'⟩ := List.forall_mem_cons.mp hops'
      have hapart : ∀ op' ∈ ops, List.Disjoint op.wires op'.wires :=
        fun op' hop' => (hdisjoint op' hop' op List.mem_cons_self).symm
      obtain ⟨point, b₁, d₁, hright, hlands, hnext, hcovers', hcovers⟩ :=
        h.symm.append hop hapart hcovers' hcovers
      have hregister : d₁.register = d.register := hnext.register_right.symm.trans h.register_left
      rw [← hregister] at hops hops'
      have hrest := ih hnext.symm hops hops' (fun op hop op' hop' =>
        hdisjoint op hop op' (List.mem_cons_of_mem _ hop')) hcovers hcovers'
      exact (MergesTo.cons hright hlands hrest.symm).symm

/-- Operations on one side of a circuit do not see those on the other.  Two lists of operations that the
circuit accepts and that have no wire in common can be appended in any order that keeps each list in its
own.  Every operation then lands where it lands if its list is appended alone; the circuit is as long as
the longer of those two, and at every point it shows what they show. -/
theorem Reachable.appendEach?_interleaving {c : Circuit θ} (h : c.Reachable)
    {ops ops' : List (Operation θ)}
    (hops : ∀ op ∈ ops ++ ops', (Call.append op).Admissible ∧ ∃ landed, c.append? op = .ok landed)
    (hdisjoint : ∀ op ∈ ops, ∀ op' ∈ ops', List.Disjoint op.wires op'.wires) :
    ∃ points points' d d', c.appendEach? ops = .ok (points, d) ∧
      c.appendEach? ops' = .ok (points', d') ∧
      ∀ merged, Interleaving ops ops' merged →
        ∃ landed e, c.appendEach? merged = .ok (landed, e) ∧ landed.length = merged.length ∧
          Interleaving (ops.zip points) (ops'.zip points') (merged.zip landed) ∧
          e.numCycles = max d.numCycles d'.numCycles ∧
          ∀ q, e.get? q = (d.get? q).or (d'.get? q) := by
  have hwell : ∀ op ∈ ops ++ ops', op.WellFormed c.register := by
    intro op hop
    obtain ⟨⟨hmade, hbody⟩, ⟨point, c'⟩, happend⟩ := hops op hop
    exact wellFormed_of_append? hmade (Gate.wellFormed_of_reachable hbody) happend
  obtain ⟨hwell, hwell'⟩ := List.forall_mem_append.mp hwell
  have hmerges : ∀ merged, Interleaving ops ops' merged → MergesTo c c c ops ops' merged :=
    fun merged hmerged => (Overlay.refl h.wellFormed).appendEach hmerged hwell hwell' hdisjoint
      (fun _ _ _ _ => .inl) fun _ _ _ _ => .inl
  obtain ⟨points, points', -, d, d', -, hd, hd', -⟩ := hmerges _ (.append ops ops')
  refine ⟨points, points', d, d', hd, hd', fun merged hmerged => ?_⟩
  obtain ⟨_, _, landed, _, _, e, hleft, hright, he, hpoints, hoverlay⟩ := hmerges merged hmerged
  cases hd.symm.trans hleft
  cases hd'.symm.trans hright
  exact ⟨landed, e, he, length_of_appendEach? he, hpoints, hoverlay.numCycles, hoverlay.get?_eq⟩

end Circuit

/-- Gates on the two qubits.  The last two come behind the end of the thinned circuit. -/
def qubitTurns : List (Operation Nat) :=
  [⟨.primitive (.qubit .x), [0], []⟩, ⟨.primitive (.qubit .cx), [0, 1], []⟩,
    ⟨.primitive (.qubit .rz), [0], [7]⟩]

/-- Phases on the third wire.  The last one comes behind the end of the thinned circuit. -/
def qutritTurns : List (Operation Nat) :=
  [⟨.primitive (.levelPhase ⟨3, 1, by decide⟩), [2], []⟩, ⟨.primitive (.levelPhase ⟨3, 2, by decide⟩), [2], []⟩]

/-- The two lists merged, so that the third wire comes first to the new cycle. -/
def mergedTurns : List (Operation Nat) :=
  [⟨.primitive (.levelPhase ⟨3, 1, by decide⟩), [2], []⟩, ⟨.primitive (.qubit .x), [0], []⟩,
    ⟨.primitive (.levelPhase ⟨3, 2, by decide⟩), [2], []⟩, ⟨.primitive (.qubit .cx), [0, 1], []⟩,
    ⟨.primitive (.qubit .rz), [0], [7]⟩]

theorem appendEach?_interleaving_thinnedCircuit :
    thinnedCircuit.Reachable ∧ Interleaving qubitTurns qutritTurns mergedTurns ∧
      (∃ e, thinnedCircuit.appendEach? mergedTurns =
          .ok ([⟨2, 2⟩, ⟨1, 0⟩, ⟨3, 2⟩, ⟨3, 0⟩, ⟨4, 0⟩], e) ∧ e.numCycles = 5 ∧
        e.get? ⟨3, 2⟩ = some ⟨.primitive (.levelPhase ⟨3, 2, by decide⟩), [2], []⟩ ∧
        e.get? ⟨2, 1⟩ = thinnedCircuit.get? ⟨2, 1⟩) ∧
      ∃ e, thinnedCircuit.appendEach? (qubitTurns ++ qutritTurns) =
          .ok ([⟨1, 0⟩, ⟨3, 0⟩, ⟨4, 0⟩, ⟨2, 2⟩, ⟨3, 2⟩], e) ∧ e.numCycles = 5 ∧
        e.get? ⟨3, 2⟩ = some ⟨.primitive (.levelPhase ⟨3, 2, by decide⟩), [2], []⟩ := by
  have hmerged : Interleaving qubitTurns qutritTurns mergedTurns :=
    .right (.left (.right (.left (.left .nil))))
  have hops : ∀ op ∈ qubitTurns ++ qutritTurns,
      (Call.append op).Admissible ∧ ∃ landed, thinnedCircuit.append? op = .ok landed := by
    have hmade : ∀ op ∈ qubitTurns ++ qutritTurns, op.Made := by decide
    have hbody : ∀ op ∈ qubitTurns ++ qutritTurns, op.gate.body? = none := by
      simp [qubitTurns, qutritTurns, Gate.body?]
    have haccepted : ∀ op ∈ qubitTurns ++ qutritTurns,
        ∃ landed, thinnedCircuit.append? op = .ok landed := by
      simp only [qubitTurns, qutritTurns, List.cons_append, List.nil_append, List.forall_mem_cons]
      exact ⟨⟨_, rfl⟩, ⟨_, rfl⟩, ⟨_, rfl⟩, ⟨_, rfl⟩, ⟨_, rfl⟩, by simp⟩
    exact fun op hop => ⟨⟨hmade op hop, by simp [hbody op hop]⟩, haccepted op hop⟩
  have hdisjoint : ∀ op ∈ qubitTurns, ∀ op' ∈ qutritTurns, List.Disjoint op.wires op'.wires := by
    simp [qubitTurns, qutritTurns]
  obtain ⟨points, points', d, d', hd, hd', hmerges⟩ :=
    reachable_thinnedCircuit.appendEach?_interleaving hops hdisjoint
  cases hd.symm.trans (show _ = Except.ok ([⟨1, 0⟩, ⟨3, 0⟩, ⟨4, 0⟩], _) from rfl)
  cases hd'.symm.trans (show _ = Except.ok ([⟨2, 2⟩, ⟨3, 2⟩], _) from rfl)
  obtain ⟨landed, e, he, -, -, hcycles, hget⟩ := hmerges _ hmerged
  obtain ⟨landed', e', he', -, -, hcycles', hget'⟩ := hmerges _ (.append _ _)
  refine ⟨reachable_thinnedCircuit, hmerged, ⟨e, ?_, hcycles, hget ⟨3, 2⟩, hget ⟨2, 1⟩⟩,
    e', ?_, hcycles', hget' ⟨3, 2⟩⟩
  · cases he.symm.trans (show _ = Except.ok ([⟨2, 2⟩, ⟨1, 0⟩, ⟨3, 2⟩, ⟨3, 0⟩, ⟨4, 0⟩], _) from rfl)
    exact he
  · cases he'.symm.trans (show _ = Except.ok ([⟨1, 0⟩, ⟨3, 0⟩, ⟨4, 0⟩, ⟨2, 2⟩, ⟨3, 2⟩], _) from rfl)
    exact he'

end QuditCircuits
