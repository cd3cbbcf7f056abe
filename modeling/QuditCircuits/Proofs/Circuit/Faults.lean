import QuditCircuits.Proofs.Circuit.Replacement

/-!
# Why a replacement is refused

Each pair of a point and an operation is checked against the circuit as it is and against the points
of the pairs before it.  `Circuit.Fault` lists what may be wrong with a pair, each fault under the
condition that the checks before it pass.  `replace?_eq_error_iff` says that a replacement is refused
for the first pair that has a fault, and for none of them if there are not as many operations as
points.

The checks pass the slots that were found along as a list with the points that named them.  All that
matters about this list is what it finds for a slot, which is `Circuit.Notes`.
-/

namespace QuditCircuits

variable {θ : Type}

namespace Circuit

section Fault

variable (c : Circuit θ) (accepts : Operation θ → Bool) (earlier : List Point) (point : Point)
  (op : Operation θ)

/-- What is wrong with a pair of a point and an operation, given the points of the pairs before.  Each
case says that the checks before it pass. -/
inductive Fault : SiteError θ → Prop
  | noOperation : c.get? point = none → Fault (.noOperation point)
  | unexpectedOperation {current : Operation θ} : c.get? point = some current →
      accepts current = false → Fault (.unexpectedOperation point current)
  | sameOperation {current : Operation θ} {other : Point} : c.get? point = some current →
      accepts current = true → other ∈ earlier → c.slotOf? other = c.slotOf? point →
      Fault (.sameOperation point other)
  | shape {current : Operation θ} {error : ShapeError} : c.get? point = some current →
      accepts current = true → (∀ other ∈ earlier, c.slotOf? other ≠ c.slotOf? point) →
      c.checkOperation op = .error error → Fault (.shape error)
  | otherWires {current : Operation θ} : c.get? point = some current →
      accepts current = true → (∀ other ∈ earlier, c.slotOf? other ≠ c.slotOf? point) →
      c.checkOperation op = .ok () → (¬ ∀ wire, wire ∈ current.wires ↔ wire ∈ op.wires) →
      Fault (.otherWires point op.gate.name current.wires op.wires)

end Fault

/-- What is wrong with the pair of the `i`-th point and the `i`-th operation. -/
def FaultAt (c : Circuit θ) (accepts : Operation θ → Bool) (points : List Point)
    (ops : List (Operation θ)) (i : Nat) (e : SiteError θ) : Prop :=
  ∃ point op, points[i]? = some point ∧ ops[i]? = some op ∧
    c.Fault accepts (points.take i) point op e

/-! ## One pair -/

/-- The list of slots names, for the slot of each point, that point, and nothing else. -/
def Notes (c : Circuit θ) (points : List Point) (earlier : List ((Nat × Nat) × Point)) : Prop :=
  ∀ key other, earlier.lookup key = some other ↔ other ∈ points ∧ c.slotOf? other = some key

variable {c : Circuit θ} {accepts : Operation θ → Bool} {points : List Point}
  {earlier : List ((Nat × Nat) × Point)}

theorem notes_nil : c.Notes [] [] := by
  simp [Notes]

/-- A point whose slot is new is added at the front of the list. -/
theorem Notes.cons (h : c.Notes points earlier) {point : Point} {key : Nat × Nat}
    (hkey : c.slotOf? point = some key) (hfresh : key ∉ earlier.map Prod.fst) :
    c.Notes (points ++ [point]) ((key, point) :: earlier) := by
  have hnone : ∀ other ∈ points, c.slotOf? other ≠ some key := by
    intro other hother hslot
    have hlookup := (h key other).mpr ⟨hother, hslot⟩
    simp [lookup_eq_none_iff.mpr hfresh] at hlookup
  intro key' other
  rw [List.lookup_cons, List.mem_append, List.mem_singleton]
  by_cases heq : key' = key
  · subst heq
    simp only [beq_self_eq_true, Option.some.injEq]
    constructor
    · rintro rfl
      exact ⟨.inr rfl, hkey⟩
    · rintro ⟨hother | rfl, hslot⟩
      · exact absurd hslot (hnone other hother)
      · rfl
  · simp only [beq_false_of_ne heq, h key' other]
    constructor
    · rintro ⟨hother, hslot⟩
      exact ⟨.inl hother, hslot⟩
    · rintro ⟨hother | rfl, hslot⟩
      · exact ⟨hother, hslot⟩
      · exact absurd (Option.some.inj (hslot.symm.trans hkey)) heq

/-- The faults of a pair whose point finds an operation, in the order of the checks. -/
theorem fault_iff_of_get? {point : Point} {op current : Operation θ} {e : SiteError θ}
    (hget : c.get? point = some current) :
    c.Fault accepts points point op e ↔
      accepts current = false ∧ e = .unexpectedOperation point current ∨
      accepts current = true ∧
        ((∃ other ∈ points, c.slotOf? other = c.slotOf? point ∧ e = .sameOperation point other) ∨
        (∀ other ∈ points, c.slotOf? other ≠ c.slotOf? point) ∧
          ((∃ error, c.checkOperation op = .error error ∧ e = .shape error) ∨
          c.checkOperation op = .ok () ∧ sameWires current.wires op.wires = false ∧
            e = .otherWires point op.gate.name current.wires op.wires)) := by
  rw [← Bool.not_eq_true (sameWires _ _), sameWires_iff]
  constructor
  · intro hfault
    cases hfault with
    | noOperation hnone => cases hget.symm.trans hnone
    | unexpectedOperation hfound haccepts =>
        cases hget.symm.trans hfound
        exact .inl ⟨haccepts, rfl⟩
    | sameOperation hfound haccepts hother hsame =>
        cases hget.symm.trans hfound
        exact .inr ⟨haccepts, .inl ⟨_, hother, hsame, rfl⟩⟩
    | shape hfound haccepts hfresh hcheck =>
        cases hget.symm.trans hfound
        exact .inr ⟨haccepts, .inr ⟨hfresh, .inl ⟨_, hcheck, rfl⟩⟩⟩
    | otherWires hfound haccepts hfresh hcheck hwires =>
        cases hget.symm.trans hfound
        exact .inr ⟨haccepts, .inr ⟨hfresh, .inr ⟨hcheck, hwires, rfl⟩⟩⟩
  · rintro (⟨haccepts, rfl⟩ | ⟨haccepts, ⟨other, hother, hsame, rfl⟩ |
      ⟨hfresh, ⟨error, hcheck, rfl⟩ | ⟨hcheck, hwires, rfl⟩⟩⟩)
    · exact .unexpectedOperation hget haccepts
    · exact .sameOperation hget haccepts hother hsame
    · exact .shape hget haccepts hfresh hcheck
    · exact .otherWires hget haccepts hfresh hcheck hwires

theorem resolve_eq_error_iff (h : c.Notes points earlier) {point : Point} {op : Operation θ}
    {e : SiteError θ} :
    c.resolve accepts earlier point op = .error e ↔ c.Fault accepts points point op e := by
  rw [resolve]
  cases hlocate : c.locate? point with
  | none =>
      have hget : c.get? point = none := by simp [get?, hlocate]
      constructor
      · rintro ⟨⟩
        exact .noOperation hget
      · intro hfault
        cases hfault with
        | noOperation => rfl
        | _ => simp_all
  | some found =>
      obtain ⟨slot, current⟩ := found
      have hslot : c.slotOf? point = some (point.cycle, slot) := slotOf?_of_locate? hlocate
      rw [fault_iff_of_get? (get?_eq_some_iff.mpr ⟨slot, hlocate⟩), hslot, guard_eq_error_iff,
        Bool.not_eq_true', Bool.not_eq_false]
      refine or_congr Iff.rfl (and_congr_right fun _ => ?_)
      cases hlookup : earlier.lookup (point.cycle, slot) with
      | some other =>
          obtain ⟨hother, hsame⟩ := (h _ other).mp hlookup
          constructor
          · rintro ⟨⟩
            exact .inl ⟨other, hother, hsame, rfl⟩
          · rintro (⟨other', hother', hsame', rfl⟩ | ⟨hfresh, -⟩)
            · cases hlookup.symm.trans ((h _ other').mpr ⟨hother', hsame'⟩)
              rfl
            · exact absurd hsame (hfresh other hother)
      | none =>
          have hfresh : ∀ other ∈ points, c.slotOf? other ≠ some (point.cycle, slot) := by
            intro other hother hsame
            simp [(h _ other).mpr ⟨hother, hsame⟩] at hlookup
          rw [or_iff_right (by grind), and_iff_right hfresh]
          simp only [check_bind_eq_error_iff, guard_eq_error_iff, SiteError.ofShape,
            mapError_eq_error_iff, mapError_eq_ok_iff, Bool.not_eq_true', pure_ne_error, and_false,
            or_false]

/-! ## The first fault -/

/-- What is wrong with the `i`-th of some pairs, when the pairs before them have the given points. -/
def FaultAfter (c : Circuit θ) (accepts : Operation θ → Bool) (points : List Point)
    (pairs : List (Point × Operation θ)) (i : Nat) (e : SiteError θ) : Prop :=
  ∃ pair, pairs[i]? = some pair ∧
    c.Fault accepts (points ++ (pairs.take i).map Prod.fst) pair.1 pair.2 e

@[simp]
theorem faultAfter_zero {pair : Point × Operation θ} {pairs : List (Point × Operation θ)}
    {e : SiteError θ} :
    c.FaultAfter accepts points (pair :: pairs) 0 e ↔ c.Fault accepts points pair.1 pair.2 e := by
  simp [FaultAfter]

@[simp]
theorem faultAfter_succ {pair : Point × Operation θ} {pairs : List (Point × Operation θ)} {i : Nat}
    {e : SiteError θ} : c.FaultAfter accepts points (pair :: pairs) (i + 1) e ↔
      c.FaultAfter accepts (points ++ [pair.1]) pairs i e := by
  simp [FaultAfter]

/-- The plan fails with the fault of the first pair that has one. -/
theorem planReplacements_eq_error_iff (h : c.Notes points earlier)
    {pairs : List (Point × Operation θ)} {e : SiteError θ} :
    c.planReplacements accepts earlier pairs = .error e ↔
      ∃ i, c.FaultAfter accepts points pairs i e ∧
        ∀ j < i, ∀ e', ¬ c.FaultAfter accepts points pairs j e' := by
  -- Each pair that passes moves its point to those before the others.
  induction pairs generalizing points earlier with
  | nil => simp [planReplacements, FaultAfter]
  | cons pair pairs ih =>
      obtain ⟨point, op⟩ := pair
      rw [planReplacements]
      cases hresolve : c.resolve accepts earlier point op with
      | error first =>
          have hfault : c.Fault accepts points point op first := (resolve_eq_error_iff h).mp hresolve
          constructor
          · rintro ⟨⟩
            exact ⟨0, faultAfter_zero.mpr hfault, by simp⟩
          · rintro ⟨i, hi, hbefore⟩
            cases i with
            | zero =>
                have hresolve' := (resolve_eq_error_iff h).mpr (faultAfter_zero.mp hi)
                cases hresolve.symm.trans hresolve'
                rfl
            | succ i => exact absurd (faultAfter_zero.mpr hfault) (hbefore 0 (by omega) first)
      | ok slot =>
          obtain ⟨hresolves, hfresh⟩ := resolve_eq_ok_iff.mp hresolve
          have hpasses : ∀ e', ¬ c.Fault accepts points point op e' := fun e' hfault => by
            cases hresolve.symm.trans ((resolve_eq_error_iff h).mpr hfault)
          have hslot : c.slotOf? point = some (point.cycle, slot) := hresolves.slotOf?_eq
          have hrest := ih (h.cons hslot hfresh)
          simp only [bind_eq_error_iff, Except.ok.injEq, exists_eq_left', pure_ne_error, and_false,
            exists_const, or_false, reduceCtorEq, false_or, hrest]
          constructor
          · rintro ⟨i, hi, hbefore⟩
            refine ⟨i + 1, faultAfter_succ.mpr hi, fun j hj e' hfault => ?_⟩
            cases j with
            | zero => exact hpasses e' (faultAfter_zero.mp hfault)
            | succ j => exact hbefore j (by omega) e' (faultAfter_succ.mp hfault)
          · rintro ⟨i, hi, hbefore⟩
            cases i with
            | zero => exact absurd (faultAfter_zero.mp hi) (hpasses e)
            | succ i =>
                exact ⟨i, faultAfter_succ.mp hi, fun j hj e' hfault =>
                  hbefore (j + 1) (by omega) e' (faultAfter_succ.mpr hfault)⟩

theorem faultAfter_nil_iff {points : List Point} {ops : List (Operation θ)} {i : Nat}
    {e : SiteError θ} (hlen : points.length = ops.length) :
    c.FaultAfter accepts [] (points.zip ops) i e ↔ c.FaultAt accepts points ops i e := by
  have htake : ((points.zip ops).take i).map Prod.fst = points.take i := by
    rw [List.map_take, List.map_fst_zip (Nat.le_of_eq hlen)]
  simp only [FaultAfter, FaultAt, htake, List.nil_append, List.getElem?_zip_eq_some, Prod.exists,
    and_assoc]

/-- A replacement is refused because the counts differ, else because of the first pair with a
fault. -/
theorem replace?_eq_error_iff {points : List Point} {ops : List (Operation θ)} {e : SiteError θ} :
    c.replace? points ops accepts = .error e ↔
      points.length ≠ ops.length ∧ e = .countMismatch points.length ops.length ∨
      points.length = ops.length ∧ ∃ i, c.FaultAt accepts points ops i e ∧
        ∀ j < i, ∀ e', ¬ c.FaultAt accepts points ops j e' := by
  rw [replace?_eq]
  by_cases hlen : points.length = ops.length
  · simp only [hlen, ne_eq, not_true_eq_false, if_false, false_and, false_or, true_and,
      bind_eq_error_iff, pure_ne_error, and_false, exists_const, or_false,
      planReplacements_eq_error_iff notes_nil, faultAfter_nil_iff hlen]
  · simp [hlen, eq_comm]

end Circuit
end QuditCircuits
