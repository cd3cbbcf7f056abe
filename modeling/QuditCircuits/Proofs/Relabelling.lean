import QuditCircuits.Proofs.Circuit.Relabelling
import QuditCircuits.Proofs.Substitution.Expansion

/-!
# Rules and circuits on other wires

Scanning, substituting and flattening look at gates and at cycles, and at wires only to tell which of
them are the same.  So a rule does to a relabelled circuit what it does to the circuit, and the
relabelled circuit can be built as well.
-/

namespace QuditCircuits

variable {θ : Type} {R : Register} {wires : List Wire}

/-- The site of the same operation on the wires where its wires are placed. -/
def Site.relabel (wires : List Wire) (site : Site) : Site where
  point := site.point.relabel wires
  wires := site.wires.map fun wire => wires.getD wire wire

namespace SubstitutionRule

variable {rule : SubstitutionRule θ} {c c' : Circuit θ}

theorem siteOf?_onto (wires : List Wire) (k : Nat) (op : Operation θ) :
    siteOf? k (op.onto wires) = (siteOf? k op).map (Site.relabel wires) := by
  rw [siteOf?, siteOf?, Operation.wires_onto, List.head?_map, Option.map_map, Option.map_map]
  rfl

theorem exchange_onto (rule : SubstitutionRule θ) (wires : List Wire) (op : Operation θ) :
    rule.exchange (op.onto wires) = (rule.exchange op).onto wires := by
  have hholds : rule.holdsSource (op.onto wires) = rule.holdsSource op := rfl
  rw [exchange, exchange, hholds]
  split <;> rfl

/-- A scan of the relabelled circuit finds the same sites, on other wires. -/
theorem sites_relabel (rule : SubstitutionRule θ) (R : Register) (wires : List Wire)
    (c : Circuit θ) : rule.sites (c.relabel R wires) = (rule.sites c).map (Site.relabel wires) := by
  rw [sites, sites, Circuit.scheduled_relabel, List.filter_map, List.filterMap_map,
    List.map_filterMap]
  exact List.filterMap_congr fun entry _ => siteOf?_onto wires entry.1 entry.2

theorem layers_of_substitute_sites (h : c.WellFormed)
    (hsubstitute : rule.substitute c (rule.sites c) = .ok c') :
    c'.layers = c.layers.map (List.map rule.exchange) :=
  Circuit.layers_eq_map (length_cycles_of_substitute hsubstitute)
    (operationAt_of_substitute_sites h hsubstitute)

section Placed

variable (h : c.WellFormed) (htemplate : rule.templateBody.WellFormed)
  (hwires : Placement c.register R wires)
include h htemplate hwires

theorem substitute_sites_relabel (hsubstitute : rule.substitute c (rule.sites c) = .ok c') :
    rule.substitute (c.relabel R wires) (rule.sites (c.relabel R wires)) =
      .ok (c'.relabel R wires) := by
  have hmoved := h.relabel hwires
  obtain ⟨d, hd⟩ := exists_substitute_sites hmoved rule
  have hwires' : Placement c'.register R wires := by
    rwa [register_of_substitute hsubstitute]
  rw [hd, (h.substitute htemplate hsubstitute).eq_relabel hwires' (hmoved.substitute htemplate hd)
    (register_of_substitute hd)]
  -- The template is put on the wires of the operation, whether they are moved before or after.
  rw [layers_of_substitute_sites hmoved hd, Circuit.layers_relabel,
    layers_of_substitute_sites h hsubstitute, List.map_map, List.map_map]
  refine List.map_congr_left fun ops _ => ?_
  simp [Function.comp_def, exchange_onto]

/-- Applying a rule to the relabelled circuit replaces as many operations and gives the result of the
rule, relabelled. -/
theorem apply_relabel {n : Nat} (happly : rule.apply c = .ok (c', n)) :
    rule.apply (c.relabel R wires) = .ok (c'.relabel R wires, n) := by
  obtain ⟨d, hsubstitute, rfl, rfl⟩ := apply_eq_ok_iff.mp happly
  have hwires' : Placement d.register R wires := by
    rwa [register_of_substitute hsubstitute]
  refine apply_eq_ok_iff.mpr
    ⟨d.relabel R wires, substitute_sites_relabel h htemplate hwires hsubstitute, ?_, ?_⟩
  · rw [(h.substitute htemplate hsubstitute).flatten_relabel hwires']
  · rw [sites_relabel, List.length_map]

end Placed

end SubstitutionRule

namespace Circuit.Reachable

variable {F : PropertyFamily} {c : Circuit θ}

/-- The relabelled circuit can be built: every step can be made on the new wires. -/
theorem relabel (h : c.Reachable) (hwires : Placement c.register R wires) :
    (c.relabel R wires).Reachable := by
  induction h with
  | empty S => exact .empty R
  | @append c c' op point h hmade hbody happend ih =>
      obtain ⟨hcheck, -, -, -, rfl⟩ := append?_eq_ok_iff.mp happend
      have hgate := Gate.wellFormed_of_reachable hbody
      exact .append (ih hwires) (made_onto_and_check hmade hcheck hwires).1 hbody
        (h.wellFormed.append?_relabel hwires hmade hgate happend)
  | @remove c c' op point h hremove ih =>
      obtain ⟨slot, -, rfl⟩ := remove?_eq_ok_iff.mp hremove
      exact .remove (ih hwires) (h.wellFormed.remove?_relabel hwires hremove)
  | @replace c c' points ops accepts h hmade hbody hreplace ih =>
      rw [register_of_replace? hreplace] at hwires
      have hmoved : ∀ op ∈ ops.map (Operation.onto wires), op.Made :=
        List.forall_mem_map.mpr fun _ => made_onto_of_replace? hwires hreplace hmade
      have hbody' : ∀ op ∈ ops.map (Operation.onto wires), ∀ body,
          op.gate.body? = some body → body.Reachable := List.forall_mem_map.mpr hbody
      exact .replace (ih hwires) hmoved hbody' (h.wellFormed.replace?_relabel hwires hreplace hmade
        fun op hop => Gate.wellFormed_of_reachable (hbody op hop))
  | @flatten c h ih =>
      rw [register_flatten] at hwires
      have hflat := (ih hwires).flatten
      rwa [h.wellFormed.flatten_relabel hwires] at hflat
  | @apply c c' rule replaced h htemplate happly ih =>
      obtain ⟨d, hsubstitute, rfl, -⟩ := SubstitutionRule.apply_eq_ok_iff.mp happly
      rw [register_flatten, SubstitutionRule.register_of_substitute hsubstitute] at hwires
      exact .apply (ih hwires) htemplate
        (SubstitutionRule.apply_relabel h.wellFormed htemplate.wellFormed hwires happly)

/-- Flattening, rules and appending do the same on other wires: the relabelled circuit can be built;
it is flattened into the flattened circuit, relabelled, with as many blocks opened; a rule finds its
sites in the same cycles, leaves the relabelled result and records the same; and an operation that can
be appended can be appended on its new wires and lands in the same cycle. -/
theorem equivariant (h : c.Reachable) (hwires : Placement c.register R wires) :
    (c.relabel R wires).Reachable ∧
      (c.relabel R wires).flatten = (c.flatten.1.relabel R wires, c.flatten.2) ∧
      (∀ rule : SubstitutionRule θ, rule.templateBody.Reachable →
        rule.sites (c.relabel R wires) = (rule.sites c).map (Site.relabel wires) ∧
        ∀ properties : Properties F, ∃ c' properties',
          (rule.pass F).run ⟨c, properties⟩ = .ok () ⟨c', properties'⟩ ∧
          (rule.pass F).run ⟨c.relabel R wires, properties⟩ =
            .ok () ⟨c'.relabel R wires, properties'⟩) ∧
      ∀ (op : Operation θ) point c', op.Made →
        (∀ body, op.gate.body? = some body → body.Reachable) →
        c.append? op = .ok (point, c') →
        (c.relabel R wires).append? (op.onto wires) =
          .ok (point.relabel wires, c'.relabel R wires) := by
  have hwell := h.wellFormed
  refine ⟨h.relabel hwires, hwell.flatten_relabel hwires, fun rule htemplate => ⟨?_, ?_⟩, ?_⟩
  · exact rule.sites_relabel R wires c
  · intro properties
    obtain ⟨d, happly, -⟩ := SubstitutionRule.exists_apply_eq_ok hwell rule
    exact ⟨_, _, SubstitutionRule.run_pass_eq_ok properties happly,
      SubstitutionRule.run_pass_eq_ok properties
        (SubstitutionRule.apply_relabel hwell htemplate.wellFormed hwires happly)⟩
  · intro op point c' hmade hbody happend
    exact hwell.append?_relabel hwires hmade (Gate.wellFormed_of_reachable hbody) happend

end Circuit.Reachable

/-- A qutrit between two qubits. -/
def aroundQutrit : Register where
  levels := [2, 3, 2]
  levels_pos := by decide

/-- A controlled flip from the second qubit to the first. -/
def reversedControl : Operation Nat :=
  ⟨.primitive (.qubit .cx), [1, 0], []⟩

/-- The first qubit goes behind the qutrit and the second one before it. -/
theorem equivariant_phaseCircuit :
    SubstitutionRule.phaseCircuit.Reachable ∧
      Placement SubstitutionRule.phaseCircuit.register aroundQutrit [2, 0] ∧
      reversedControl.Made ∧
      SubstitutionRule.turnedPhase.sites (SubstitutionRule.phaseCircuit.relabel aroundQutrit [2, 0]) =
        [⟨⟨0, 0⟩, [0]⟩, ⟨⟨2, 2⟩, [2]⟩] ∧
      (∃ c' properties',
        SubstitutionRule.turnedPhase.pass.run ⟨SubstitutionRule.phaseCircuit, .empty⟩ =
          .ok () ⟨c', properties'⟩ ∧
        SubstitutionRule.turnedPhase.pass.run
            ⟨SubstitutionRule.phaseCircuit.relabel aroundQutrit [2, 0], .empty⟩ =
          .ok () ⟨c'.relabel aroundQutrit [2, 0], properties'⟩) ∧
      ∃ c', SubstitutionRule.phaseCircuit.append? reversedControl = .ok (⟨3, 1⟩, c') ∧
        (SubstitutionRule.phaseCircuit.relabel aroundQutrit [2, 0]).append?
            ⟨.primitive (.qubit .cx), [0, 2], []⟩ =
          .ok (⟨3, 0⟩, c'.relabel aroundQutrit [2, 0]) := by
  have hwires : Placement SubstitutionRule.phaseCircuit.register aroundQutrit [2, 0] :=
    ⟨by decide, by decide⟩
  have hmade : reversedControl.Made := by decide
  have happend : ∃ c', SubstitutionRule.phaseCircuit.append? reversedControl = .ok (⟨3, 1⟩, c') :=
    ⟨_, rfl⟩
  obtain ⟨c', hc'⟩ := happend
  obtain ⟨-, -, hrules, hoperations⟩ :=
    Circuit.Reachable.equivariant SubstitutionRule.reachable_phaseCircuit hwires
  obtain ⟨hsites, hruns⟩ := hrules _ SubstitutionRule.reachable_turnedPhase
  exact ⟨SubstitutionRule.reachable_phaseCircuit, hwires, hmade, hsites.trans (by decide),
    hruns .empty, c', hc', hoperations _ _ c' hmade (by simp [reversedControl, Gate.body?]) hc'⟩

end QuditCircuits
