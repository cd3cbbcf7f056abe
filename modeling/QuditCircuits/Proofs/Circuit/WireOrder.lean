import Mathlib.Algebra.BigOperators.Group.List.Basic
import Mathlib.Algebra.Group.Commute.Defs
import QuditCircuits.Proofs.Circuit.Invariant

/-!
# The order of operations along the wires

The operations of a circuit are listed in schedule order, but only their order along each wire has a
meaning.  Two lists that show the same sequence on every wire are the same up to swaps of neighbours
without a common wire (`Reordered`), provided that every operation acts on some wire.  Whatever
such swaps do not change is therefore a function of the sequences on the wires: the operations with
their multiplicities, and the product in any monoid where disjoint operations commute.
-/

namespace QuditCircuits

variable {θ : Type}

/-- The operations that act on a wire, in their order. -/
def sequenceOn (wire : Wire) (ops : List (Operation θ)) : List (Operation θ) :=
  ops.filter fun op => op.actsOn wire

/-- Two lists of operations differ by swaps of neighbours that have no wire in common. -/
inductive Reordered : List (Operation θ) → List (Operation θ) → Prop
  /-- Nothing to swap. -/
  | nil : Reordered [] []
  /-- Swaps behind the first operation. -/
  | cons (op : Operation θ) {ops ops' : List (Operation θ)} :
      Reordered ops ops' → Reordered (op :: ops) (op :: ops')
  /-- One swap of the first two operations. -/
  | swap {op op' : Operation θ} (ops : List (Operation θ)) :
      List.Disjoint op.wires op'.wires → Reordered (op :: op' :: ops) (op' :: op :: ops)
  /-- Swaps one after the other. -/
  | trans {ops ops' ops'' : List (Operation θ)} :
      Reordered ops ops' → Reordered ops' ops'' → Reordered ops ops''

/-! ## Sequences on a wire -/

section Sequence

@[simp]
theorem sequenceOn_nil (wire : Wire) : sequenceOn wire ([] : List (Operation θ)) = [] := rfl

theorem sequenceOn_append (wire : Wire) (ops ops' : List (Operation θ)) :
    sequenceOn wire (ops ++ ops') = sequenceOn wire ops ++ sequenceOn wire ops' :=
  List.filter_append ..

theorem sequenceOn_flatMap {α : Type} (wire : Wire) (l : List α) (f : α → List (Operation θ)) :
    sequenceOn wire (l.flatMap f) = l.flatMap fun a => sequenceOn wire (f a) :=
  List.filter_flatMap

theorem sequenceOn_cons_of_mem {wire : Wire} {op : Operation θ} (h : wire ∈ op.wires)
    (ops : List (Operation θ)) : sequenceOn wire (op :: ops) = op :: sequenceOn wire ops :=
  List.filter_cons_of_pos (Operation.actsOn_eq_true_iff.mpr h)

theorem sequenceOn_cons_of_not_mem {wire : Wire} {op : Operation θ} (h : wire ∉ op.wires)
    (ops : List (Operation θ)) : sequenceOn wire (op :: ops) = sequenceOn wire ops :=
  List.filter_cons_of_neg (by simpa using h)

theorem sequenceOn_eq_nil_iff {wire : Wire} {ops : List (Operation θ)} :
    sequenceOn wire ops = [] ↔ ∀ op ∈ ops, wire ∉ op.wires := by
  simp [sequenceOn, List.filter_eq_nil_iff]

theorem mem_sequenceOn_iff {wire : Wire} {ops : List (Operation θ)} {op : Operation θ} :
    op ∈ sequenceOn wire ops ↔ op ∈ ops ∧ wire ∈ op.wires := by
  simp [sequenceOn, List.mem_filter]

/-- The first operation does not matter for equality of sequences. -/
theorem sequenceOn_cons_inj {wire : Wire} {op : Operation θ} {ops ops' : List (Operation θ)} :
    sequenceOn wire (op :: ops) = sequenceOn wire (op :: ops') ↔
      sequenceOn wire ops = sequenceOn wire ops' := by
  by_cases h : wire ∈ op.wires
  · rw [sequenceOn_cons_of_mem h, sequenceOn_cons_of_mem h, List.cons_inj_right]
  · rw [sequenceOn_cons_of_not_mem h, sequenceOn_cons_of_not_mem h]

end Sequence

/-! ## Reordering -/

namespace Reordered

variable {ops ops' : List (Operation θ)}

theorem refl (ops : List (Operation θ)) : Reordered ops ops := by
  induction ops with
  | nil => exact .nil
  | cons op ops ih => exact .cons op ih

theorem symm (h : Reordered ops ops') : Reordered ops' ops := by
  induction h with
  | nil => exact .nil
  | cons op _ ih => exact .cons op ih
  | swap ops hdisjoint => exact .swap ops hdisjoint.symm
  | trans _ _ ih ih' => exact .trans ih' ih

theorem perm (h : Reordered ops ops') : ops.Perm ops' := by
  induction h with
  | nil => exact .nil
  | cons op _ ih => exact ih.cons op
  | swap ops _ => exact .swap ..
  | trans _ _ ih ih' => exact ih.trans ih'

/-- Swaps without a common wire are not seen on any wire. -/
theorem sequenceOn_eq (h : Reordered ops ops') (wire : Wire) :
    sequenceOn wire ops = sequenceOn wire ops' := by
  induction h with
  | nil => rfl
  | cons op _ ih => exact sequenceOn_cons_inj.mpr ih
  | @swap op op' ops hdisjoint =>
      by_cases hop : wire ∈ op.wires
      · have hop' : wire ∉ op'.wires := fun hin => hdisjoint hop hin
        rw [sequenceOn_cons_of_mem hop, sequenceOn_cons_of_not_mem hop',
          sequenceOn_cons_of_not_mem hop', sequenceOn_cons_of_mem hop]
      · rw [sequenceOn_cons_of_not_mem hop, sequenceOn_cons_inj, sequenceOn_cons_of_not_mem hop]
  | trans _ _ ih ih' => exact ih.trans ih'

theorem append_right (h : Reordered ops ops') (rest : List (Operation θ)) :
    Reordered (ops ++ rest) (ops' ++ rest) := by
  induction h with
  | nil => exact refl rest
  | cons op _ ih => exact .cons op ih
  | swap ops hdisjoint => exact .swap _ hdisjoint
  | trans _ _ ih ih' => exact .trans ih ih'

theorem append_left (first : List (Operation θ)) (h : Reordered ops ops') :
    Reordered (first ++ ops) (first ++ ops') := by
  induction first with
  | nil => exact h
  | cons op first ih => exact .cons op ih

/-- An operation moves in front of operations that have no wire in common with it. -/
theorem move_front {op : Operation θ} (before after : List (Operation θ))
    (hdisjoint : ∀ b ∈ before, List.Disjoint b.wires op.wires) :
    Reordered (before ++ op :: after) (op :: (before ++ after)) := by
  induction before with
  | nil => exact refl _
  | cons head before ih =>
      obtain ⟨hhead, hrest⟩ := List.forall_mem_cons.mp hdisjoint
      exact .trans (.cons head (ih hrest)) (.swap _ hhead)

/-- Two blocks of operations without a common wire change places. -/
theorem append_comm (hdisjoint : ∀ op ∈ ops, ∀ op' ∈ ops', List.Disjoint op.wires op'.wires) :
    Reordered (ops ++ ops') (ops' ++ ops) := by
  induction ops' with
  | nil => simpa using refl ops
  | cons op' ops' ih =>
      have hhead : ∀ op ∈ ops, List.Disjoint op.wires op'.wires :=
        fun op hop => hdisjoint op hop op' List.mem_cons_self
      have hrest := ih fun op hop b hb => hdisjoint op hop b (List.mem_cons_of_mem _ hb)
      exact .trans (move_front ops ops' hhead) (.cons op' hrest)

/-- Replacing every operation by operations on its own wires keeps swaps possible. -/
theorem flatMap {f : Operation θ → List (Operation θ)} (h : Reordered ops ops')
    (hf : ∀ op ∈ ops, ∀ sub ∈ f op, ∀ wire ∈ sub.wires, wire ∈ op.wires) :
    Reordered (ops.flatMap f) (ops'.flatMap f) := by
  induction h with
  | nil => exact .nil
  | cons op _ ih =>
      rw [List.flatMap_cons, List.flatMap_cons]
      exact append_left _ (ih (List.forall_mem_cons.mp hf).2)
  | @swap op op' ops hdisjoint =>
      -- What the two operations become keeps to their wires, so it changes places as a whole.
      obtain ⟨hop, hrest⟩ := List.forall_mem_cons.mp hf
      obtain ⟨hop', -⟩ := List.forall_mem_cons.mp hrest
      simp only [List.flatMap_cons, ← List.append_assoc]
      refine append_right (append_comm fun sub hsub sub' hsub' wire hwire hwire' => ?_) _
      exact hdisjoint (hop sub hsub wire hwire) (hop' sub' hsub' wire hwire')
  | trans hfirst _ ih ih' =>
      exact .trans (ih hf) (ih' fun op hop => hf op (hfirst.perm.mem_iff.mpr hop))

/-- The product of values of the operations, the later ones on the left, does not see swaps of
operations whose values commute. -/
theorem prod_reverse_eq {M : Type} [Monoid M] {f : Operation θ → M} (h : Reordered ops ops')
    (hf : ∀ op ∈ ops, ∀ op' ∈ ops, List.Disjoint op.wires op'.wires → Commute (f op) (f op')) :
    (ops.map f).reverse.prod = (ops'.map f).reverse.prod := by
  induction h with
  | nil => rfl
  | cons op _ ih =>
      have hrest := ih fun a ha b hb => hf a (List.mem_cons_of_mem _ ha) b (List.mem_cons_of_mem _ hb)
      simp only [List.map_cons, List.reverse_cons, List.prod_append, hrest]
  | @swap op op' ops hdisjoint =>
      have hcommute : Commute (f op) (f op') :=
        hf op (by simp) op' (by simp) hdisjoint
      simp only [List.map_cons, List.reverse_cons, List.prod_append, List.prod_singleton, mul_assoc,
        hcommute.eq]
  | trans hfirst _ ih ih' =>
      refine (ih hf).trans (ih' fun a ha b hb => ?_)
      exact hf a (hfirst.perm.mem_iff.mpr ha) b (hfirst.perm.mem_iff.mpr hb)

/-! ## Sequences determine the order up to swaps -/

/-- The first operation of a list that acts on one of some wires. -/
theorem exists_first_touch {wires : List Wire} {ops : List (Operation θ)}
    (h : ∃ op ∈ ops, ∃ wire ∈ wires, wire ∈ op.wires) :
    ∃ before op after, ops = before ++ op :: after ∧ (∃ wire ∈ wires, wire ∈ op.wires) ∧
      ∀ b ∈ before, List.Disjoint b.wires wires := by
  induction ops with
  | nil => simp at h
  | cons head ops ih =>
      by_cases hhead : ∃ wire ∈ wires, wire ∈ head.wires
      · exact ⟨[], head, ops, rfl, hhead, by simp⟩
      · obtain ⟨op, hop, htouch⟩ := h
        have hne : op ≠ head := fun heq => hhead (heq ▸ htouch)
        obtain ⟨before, op', after, rfl, hop', hbefore⟩ :=
          ih ⟨op, (List.mem_cons.mp hop).resolve_left hne, htouch⟩
        refine ⟨head :: before, op', after, rfl, hop', List.forall_mem_cons.mpr ⟨?_, hbefore⟩⟩
        exact fun wire hwire hwires => hhead ⟨wire, hwires, hwire⟩

/-- Equal sequences on all wires come from swaps, if every operation acts on some wire. -/
theorem of_sequenceOn_eq (hne : ∀ op ∈ ops, op.wires ≠ []) (hne' : ∀ op ∈ ops', op.wires ≠ [])
    (h : ∀ wire, sequenceOn wire ops = sequenceOn wire ops') : Reordered ops ops' := by
  induction ops generalizing ops' with
  | nil =>
      cases ops' with
      | nil => exact .nil
      | cons op' ops' =>
          obtain ⟨wire, hwire⟩ := List.exists_mem_of_ne_nil _ (hne' op' List.mem_cons_self)
          have hseq := h wire
          rw [sequenceOn_cons_of_mem hwire] at hseq
          simp at hseq
  | cons op ops ih =>
      obtain ⟨hop, hne⟩ := List.forall_mem_cons.mp hne
      -- The first operation of `ops'` that touches `op` is `op` itself, so it can be moved to the
      -- front.
      have htouch : ∃ b ∈ ops', ∃ wire ∈ op.wires, wire ∈ b.wires := by
        obtain ⟨wire, hwire⟩ := List.exists_mem_of_ne_nil _ hop
        have hmem : op ∈ sequenceOn wire ops' := by
          rw [← h wire, sequenceOn_cons_of_mem hwire]
          exact List.mem_cons_self
        exact ⟨op, (mem_sequenceOn_iff.mp hmem).1, wire, hwire, hwire⟩
      obtain ⟨before, b, after, rfl, ⟨wire, hwire, hwireb⟩, hbefore⟩ := exists_first_touch htouch
      have hseq := h wire
      have hnone : sequenceOn wire before = [] :=
        sequenceOn_eq_nil_iff.mpr fun a ha hwirea => hbefore a ha hwirea hwire
      rw [sequenceOn_cons_of_mem hwire, sequenceOn_append, hnone, List.nil_append,
        sequenceOn_cons_of_mem hwireb] at hseq
      obtain rfl : op = b := (List.cons.inj hseq).1
      have hfront : Reordered (before ++ op :: after) (op :: (before ++ after)) :=
        move_front before after hbefore
      refine .trans (.cons op (ih hne ?_ fun wire => ?_)) hfront.symm
      · intro b hb
        exact hne' b (hfront.perm.mem_iff.mpr (List.mem_cons_of_mem _ hb))
      · exact sequenceOn_cons_inj.mp ((h wire).trans (hfront.sequenceOn_eq wire))

end Reordered

theorem reordered_iff {ops ops' : List (Operation θ)} (hne : ∀ op ∈ ops, op.wires ≠ [])
    (hne' : ∀ op ∈ ops', op.wires ≠ []) :
    Reordered ops ops' ↔ ∀ wire, sequenceOn wire ops = sequenceOn wire ops' :=
  ⟨fun h wire => h.sequenceOn_eq wire, Reordered.of_sequenceOn_eq hne hne'⟩

end QuditCircuits
