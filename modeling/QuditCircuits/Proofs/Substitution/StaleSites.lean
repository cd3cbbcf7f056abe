import QuditCircuits.Proofs.Reachable

/-!
# Sites of an earlier scan

Sites may be kept while the circuit is changed, so a substitution has to find out whether they still
hold.  What it checks is that the source is found at each point and that the wires are those of the
site as a *set*: the order of the wires is not compared.  So a site also passes when the source was put
back on its wires in another order (`Reorders`).  The template then takes the roles of the wires from
the scan and not from the operation that it replaces (`get?_of_substitute`).

`substitute_stale_iff` is the exact account of success, and of when success means that all sites hold.
A site on one wire has one order only, so sources on one wire are safe.
-/

namespace QuditCircuits

variable {θ : Type}

namespace SubstitutionRule

variable {rule : SubstitutionRule θ} {c : Circuit θ} {sites : List Site}

/-- After a substitution every site's point finds the template, on the wires of the site. -/
theorem get?_of_substitute (h : c.WellFormed) (htemplate : rule.templateBody.WellFormed)
    {c' : Circuit θ} (hsubstitute : rule.substitute c sites = .ok c') {site : Site}
    (hsite : site ∈ sites) : c'.get? site.point = some (rule.templateOn site.wires) := by
  obtain ⟨op, hget, -, hperm⟩ :=
    ((exists_substitute_iff h rule sites).mp ⟨c', hsubstitute⟩).1 site hsite
  obtain ⟨slot, hlocate⟩ := Circuit.get?_eq_some_iff.mp hget
  have hat := operationAt_of_substitute hsubstitute hsite (Circuit.slotOf?_of_locate? hlocate)
  have hwire := hperm.mem_iff.mp (h.locate?_eq_some_iff.mp hlocate).2
  have hafter := h.substitute htemplate hsubstitute
  exact Circuit.get?_eq_some_iff.mpr ⟨slot, hafter.locate?_eq_some_iff.mpr ⟨hat, hwire⟩⟩

/-! ## A rule whose source has two roles -/

/-- A controlled flip with control and target exchanged between Hadamard gates. -/
def reversedFlip : SubstitutionRule Nat where
  name := "cx_reversal"
  source := .qubit .cx
  templateName := "hh_xc_hh"
  templateBody := .ofOperations (.qubits 2)
    [⟨.primitive (.qubit .h), [0], []⟩, ⟨.primitive (.qubit .h), [1], []⟩,
      ⟨.primitive (.qubit .cx), [1, 0], []⟩, ⟨.primitive (.qubit .h), [0], []⟩,
      ⟨.primitive (.qubit .h), [1], []⟩]
  source_numParams := rfl
  template_register := by decide

/-- A controlled flip on some wires. -/
def flipOn (wires : List Wire) : Operation Nat where
  gate := .primitive (.qubit .cx)
  wires := wires
  params := []

/-- Two qubits with one controlled flip on the given wires. -/
def flipCircuit (wires : List Wire) : Circuit Nat :=
  .ofOperations (.qubits 2) [flipOn wires]

theorem reachable_flipCircuit (wires : List Wire) (hmade : (flipOn wires).Made) :
    (flipCircuit wires).Reachable :=
  .ofOperations _ (by simpa using hmade) (by simp [flipOn, Gate.body?])

theorem reachable_reversedFlip : reversedFlip.templateBody.Reachable :=
  .ofOperations _ (by decide) (by simp [Gate.body?])

/-! ## When success means that the sites hold -/

/-- The source was put back on the wires of a site, in another order. -/
def Reorders (rule : SubstitutionRule θ) (c : Circuit θ) (site : Site) : Prop :=
  ∃ op, c.get? site.point = some op ∧ op.gate = .primitive rule.source ∧
    op.wires.Perm site.wires ∧ op.wires ≠ site.wires

theorem holdsUpToOrder_iff {site : Site} :
    rule.HoldsUpToOrder c site ↔ rule.HoldsAt c site ∨ rule.Reorders c site := by
  constructor
  · rintro ⟨op, hget, hsource, hperm⟩
    by_cases hwires : op.wires = site.wires
    · exact .inl ⟨op, hget, hsource, hwires⟩
    · exact .inr ⟨op, hget, hsource, hperm, hwires⟩
  · rintro (hholds | ⟨op, hget, hsource, hperm, -⟩)
    · exact hholds.upToOrder
    · exact ⟨op, hget, hsource, hperm⟩

/-- A site whose wires come in another order does not hold. -/
theorem Reorders.not_holdsAt {site : Site} (h : rule.Reorders c site) : ¬ rule.HoldsAt c site := by
  rintro ⟨op', hget', -, hwires'⟩
  obtain ⟨op, hget, -, -, hwires⟩ := h
  cases hget.symm.trans hget'
  exact hwires hwires'

/-- A substitution succeeds exactly when every site holds or has its wires in another order, and no
two sites name the same operation.  When it succeeds, all sites hold exactly if none has its wires in
another order; either way the template is put on the wires of the site. -/
theorem substitute_stale_iff (h : c.Reachable) (htemplate : rule.templateBody.Reachable)
    (sites : List Site) :
    ((∃ c', rule.substitute c sites = .ok c') ↔
        (∀ site ∈ sites, rule.HoldsAt c site ∨ rule.Reorders c site) ∧
          (sites.map fun site => c.slotOf? site.point).Nodup) ∧
      ∀ c', rule.substitute c sites = .ok c' →
        ((∀ site ∈ sites, rule.HoldsAt c site) ↔ ∀ site ∈ sites, ¬ rule.Reorders c site) ∧
          ∀ site ∈ sites, c'.get? site.point = some (rule.templateOn site.wires) := by
  have hwell := h.wellFormed
  have hexists := exists_substitute_iff hwell rule sites
  simp only [holdsUpToOrder_iff] at hexists
  refine ⟨hexists, fun c' hc' => ⟨⟨fun hholds site hsite hreorders => ?_, fun hnot site hsite => ?_⟩,
    fun site hsite => get?_of_substitute hwell htemplate.wellFormed hc' hsite⟩⟩
  · exact hreorders.not_holdsAt (hholds site hsite)
  · exact ((hexists.mp ⟨c', hc'⟩).1 site hsite).resolve_right (hnot site hsite)

theorem substitute_stale_flip :
    (flipCircuit [0, 1]).Reachable ∧ reversedFlip.templateBody.Reachable ∧
      ∃ c', reversedFlip.substitute (flipCircuit [0, 1]) [⟨⟨0, 0⟩, [0, 1]⟩] = .ok c' ∧
        c'.get? ⟨0, 0⟩ = some (reversedFlip.templateOn [0, 1]) := by
  have hreachable := reachable_flipCircuit [0, 1] (by decide)
  have hstale := substitute_stale_iff hreachable reachable_reversedFlip [⟨⟨0, 0⟩, [0, 1]⟩]
  obtain ⟨c', hc'⟩ : ∃ c', reversedFlip.substitute (flipCircuit [0, 1]) [⟨⟨0, 0⟩, [0, 1]⟩] = .ok c' :=
    ⟨_, rfl⟩
  exact ⟨hreachable, reachable_reversedFlip, c', hc',
    (hstale.2 c' hc').2 _ (List.mem_singleton_self _)⟩

/-- A site of a scan, used after the controlled flip was taken out and put back with its wires
exchanged: it does not hold, and yet the substitution puts the template on the scanned wires, with
control and target exchanged. -/
theorem substitute_exchanged_wires :
    reversedFlip.templateBody.Reachable ∧ (flipCircuit [1, 0]).Reachable ∧
      reversedFlip.sites (flipCircuit [0, 1]) = [⟨⟨0, 0⟩, [0, 1]⟩] ∧
      (∃ removed point, (flipCircuit [0, 1]).remove? ⟨0, 0⟩ = .ok (flipOn [0, 1], removed) ∧
        removed.append? (flipOn [1, 0]) = .ok (point, flipCircuit [1, 0])) ∧
      (∃ c', reversedFlip.substitute (flipCircuit [1, 0]) [⟨⟨0, 0⟩, [0, 1]⟩] = .ok c' ∧
        c'.get? ⟨0, 0⟩ = some (reversedFlip.templateOn [0, 1])) ∧
      ¬ reversedFlip.HoldsAt (flipCircuit [1, 0]) ⟨⟨0, 0⟩, [0, 1]⟩ := by
  refine ⟨reachable_reversedFlip, reachable_flipCircuit [1, 0] (by decide), by decide,
    ⟨_, _, rfl, rfl⟩, ⟨_, rfl, rfl⟩, ?_⟩
  -- The point still finds a controlled flip, but with the roles of its wires exchanged.
  rintro ⟨op, hget, -, hwires⟩
  have hfound : (flipCircuit [1, 0]).get? ⟨0, 0⟩ = some (flipOn [1, 0]) := rfl
  cases hfound.symm.trans hget
  exact absurd hwires (by decide)

end SubstitutionRule
end QuditCircuits
