import QuditCircuits.Proofs.Circuit.Opening
import QuditCircuits.Proofs.Circuit.Replacement
import QuditCircuits.Substitution.Rule

/-!
# Sites and their substitution

A substitution is a replacement in one step whose new operations are the template on the wires of each
site.  A site *holds* when the circuit has the rule's source at its point, on the wires of the site and
in their order (`HoldsAt`); it holds *up to order* when the wires may come in another order.  A
substitution succeeds exactly when every site holds up to order and no two of them name one operation
(`exists_substitute_iff`).

The sites of a scan hold in the circuit that was scanned and name different operations.  Substituting
them exchanges the source for the template wherever it occurs (`operations_of_substitute_sites`), and
applying a rule is doing so and flattening the result.
-/

namespace QuditCircuits

variable {θ : Type}

/-! ## Primitive gates on permuted wires -/

/-- All wires of a primitive gate have the same number of levels. -/
theorem Primitive.exists_levels_eq_replicate (gate : Primitive) :
    ∃ n d, gate.register.levels = List.replicate n d := by
  cases gate with
  | qubit gate => exact ⟨_, _, rfl⟩
  | levelPhase gate => exact ⟨_, _, rfl⟩
  | clock gate => exact ⟨_, _, rfl⟩
  | shift gate => exact ⟨_, _, rfl⟩

/-- A primitive gate can be put on its wires in any other order. -/
theorem Placement.of_perm {gate : Primitive} {R : Register} {wires wires' : List Wire}
    (h : Placement gate.register R wires) (hperm : wires.Perm wires') :
    Placement gate.register R wires' := by
  refine ⟨hperm.nodup_iff.mp h.nodup, ?_⟩
  obtain ⟨n, d, hlevels⟩ := gate.exists_levels_eq_replicate
  have hmap := h.levels
  rw [hlevels, List.map_replicate] at hmap ⊢
  exact List.perm_replicate.mp (hmap ▸ (hperm.map R.levelsOf?).symm)

namespace SubstitutionRule

section Definitions

variable (rule : SubstitutionRule θ)

/-- The template on some wires, with the parameters that it holds itself. -/
def templateOn (wires : List Wire) : Operation θ where
  gate := rule.template
  wires := wires
  params := rule.templateBody.params

/-- What a substitution makes of an operation that holds the source or does not. -/
def exchange (op : Operation θ) : Operation θ :=
  if rule.holdsSource op then rule.templateOn op.wires else op

/-- A site holds: the source is found at its point, on its wires and in their order. -/
def HoldsAt (c : Circuit θ) (site : Site) : Prop :=
  ∃ op, c.get? site.point = some op ∧ op.gate = .primitive rule.source ∧ op.wires = site.wires

/-- A site holds up to order: the source is found at its point, on its wires in some order. -/
def HoldsUpToOrder (c : Circuit θ) (site : Site) : Prop :=
  ∃ op, c.get? site.point = some op ∧ op.gate = .primitive rule.source ∧ op.wires.Perm site.wires

end Definitions

variable {rule : SubstitutionRule θ} {c c' : Circuit θ}

theorem HoldsAt.upToOrder {site : Site} (h : rule.HoldsAt c site) : rule.HoldsUpToOrder c site := by
  obtain ⟨op, hget, hsource, hwires⟩ := h
  exact ⟨op, hget, hsource, .of_eq hwires⟩

theorem holdsSource_iff {op : Operation θ} :
    rule.holdsSource op = true ↔ op.gate = .primitive rule.source := by
  rw [holdsSource]
  cases op.gate <;> simp

theorem made_templateOn_iff {wires : List Wire} :
    (rule.templateOn wires).Made ↔ wires.length = rule.source.register.width ∧ wires.Nodup := by
  rw [Operation.made_iff]
  have hwidth : rule.template.numWires = rule.source.register.width :=
    congrArg Register.width rule.template_register
  have hparams : rule.templateBody.params.length = rule.template.numParams :=
    rule.templateBody.length_params
  simp [templateOn, hwidth, hparams]

theorem replacements_eq_ok_iff {sites : List Site} {ops : List (Operation θ)} :
    rule.replacements sites = .ok ops ↔ (∀ site ∈ sites, (rule.templateOn site.wires).Made) ∧
      ops = sites.map fun site => rule.templateOn site.wires := by
  refine mapM_eq_ok_iff fun site op => ?_
  rw [PassError.ofShape_eq_ok_iff, Operation.make?_eq_ok_iff, Operation.made_iff]
  simp only [templateOn, and_assoc]

theorem substitute_eq (rule : SubstitutionRule θ) (c : Circuit θ) (sites : List Site) :
    rule.substitute c sites = rule.replacements sites >>= fun ops =>
      (c.replace? (sites.map Site.point) ops rule.holdsSource).mapError .circuit := by
  refine (Program.changed?_query_bind _ _ c).trans (congrArg _ (funext fun ops => ?_))
  exact Program.changed?_adaptExcept _ _ c

/-- A substitution that is refused leaves the circuit as it was. -/
theorem atomic_substitute (rule : SubstitutionRule θ) (sites : List Site) :
    (Mutation.substitute rule sites).Atomic :=
  .query_bind fun _ => (Circuit.atomic_replace _ _ _).adaptExcept _

theorem substitute_eq_ok_iff {sites : List Site} :
    rule.substitute c sites = .ok c' ↔ (∀ site ∈ sites, (rule.templateOn site.wires).Made) ∧
      c.replace? (sites.map Site.point) (sites.map fun site => rule.templateOn site.wires)
        rule.holdsSource = .ok c' := by
  simp only [substitute_eq, bind_eq_ok_iff, replacements_eq_ok_iff, mapError_eq_ok_iff]
  constructor
  · rintro ⟨_, ⟨hmade, rfl⟩, hreplace⟩
    exact ⟨hmade, hreplace⟩
  · rintro ⟨hmade, hreplace⟩
    exact ⟨_, ⟨hmade, rfl⟩, hreplace⟩

/-- The checks at one site: they pass exactly when the site holds up to order. -/
theorem admits_site_iff (h : c.WellFormed) {site : Site} :
    (rule.templateOn site.wires).Made ∧
        c.Admits rule.holdsSource (site.point, rule.templateOn site.wires) ↔
      rule.HoldsUpToOrder c site := by
  constructor
  · rintro ⟨hmade, -, slot, op, hlocate, hholds, hwires⟩
    refine ⟨op, Circuit.get?_eq_some_iff.mpr ⟨slot, hlocate⟩, holdsSource_iff.mp hholds, ?_⟩
    -- Wires are compared as sets, which without repetitions is equality up to order.
    have hnodup := (h.wellFormed_of_locate? hlocate).placement.nodup
    exact (List.perm_ext_iff_of_nodup hnodup (made_templateOn_iff.mp hmade).2).mpr hwires
  · rintro ⟨op, hget, hsource, hperm⟩
    obtain ⟨slot, hlocate⟩ := Circuit.get?_eq_some_iff.mp hget
    have hsite : Placement rule.source.register c.register site.wires :=
      ((h.wellFormed_of_locate? hlocate).of_primitive hsource).1.of_perm hperm
    have hmade : (rule.templateOn site.wires).Made :=
      made_templateOn_iff.mpr ⟨hsite.length_eq, hsite.nodup⟩
    refine ⟨hmade, ?_, slot, op, hlocate, holdsSource_iff.mpr hsource, fun _ => hperm.mem_iff⟩
    have hregister : (rule.templateOn site.wires).gate.register = rule.source.register :=
      rule.template_register
    rw [Circuit.checkOperation_eq_ok_iff (Operation.made_iff.mp hmade).1, hregister]
    exact hsite.levels

/-- A substitution succeeds exactly when every site holds up to the order of its wires and no two
sites name the same operation. -/
theorem exists_substitute_iff (h : c.WellFormed) (rule : SubstitutionRule θ) (sites : List Site) :
    (∃ c', rule.substitute c sites = .ok c') ↔ (∀ site ∈ sites, rule.HoldsUpToOrder c site) ∧
      (sites.map fun site => c.slotOf? site.point).Nodup := by
  have hzip : (sites.map Site.point).zip (sites.map fun site => rule.templateOn site.wires) =
      sites.map fun site => (site.point, rule.templateOn site.wires) := List.zip_map' ..
  simp only [← admits_site_iff h, substitute_eq_ok_iff, exists_and_left,
    Circuit.exists_replace?_eq_ok_iff, hzip, List.length_map, true_and, List.forall_mem_map,
    List.map_map, Function.comp_def]
  constructor
  · rintro ⟨hmade, hadmits, hnodup⟩
    exact ⟨fun site hsite => ⟨hmade site hsite, hadmits site hsite⟩, hnodup⟩
  · rintro ⟨hsites, hnodup⟩
    exact ⟨fun site hsite => (hsites site hsite).1, fun site hsite => (hsites site hsite).2, hnodup⟩

/-- The slot that a site names holds the template afterwards, on the wires of the site. -/
theorem operationAt_of_substitute {sites : List Site} (hsubstitute : rule.substitute c sites = .ok c')
    {site : Site} (hsite : site ∈ sites) {k slot : Nat}
    (hslot : c.slotOf? site.point = some (k, slot)) :
    c'.operationAt k slot = some (rule.templateOn site.wires) := by
  refine Circuit.operationAt_of_replace? (substitute_eq_ok_iff.mp hsubstitute).2 ?_ hslot
  rw [List.zip_map']
  exact List.mem_map.mpr ⟨site, hsite, rfl⟩

/-! ## Scanning -/

theorem mem_sites_iff {site : Site} : site ∈ rule.sites c ↔
    ∃ op, (site.point.cycle, op) ∈ c.scheduled ∧ op.gate = .primitive rule.source ∧
      op.wires.head? = some site.point.wire ∧ site.wires = op.wires := by
  simp only [sites, siteOf?, List.mem_filterMap, List.mem_filter, holdsSource_iff,
    Option.map_eq_some_iff, Prod.exists]
  constructor
  · rintro ⟨k, op, ⟨hop, hsource⟩, anchor, hanchor, rfl⟩
    exact ⟨op, hop, hsource, hanchor, rfl⟩
  · rintro ⟨op, hop, hsource, hanchor, hwires⟩
    refine ⟨site.point.cycle, op, ⟨hop, hsource⟩, site.point.wire, hanchor, ?_⟩
    rw [← hwires]

/-- Sites of later operations lie in later cycles or have no wire in common with earlier ones. -/
theorem pairwise_sites (h : c.WellFormed) : (rule.sites c).Pairwise fun site site' =>
    site.point.cycle < site'.point.cycle ∨ List.Disjoint site.wires site'.wires := by
  refine List.pairwise_filterMap.mpr ((h.layered_scheduled.filter _).imp ?_)
  rintro ⟨k, op⟩ ⟨k', op'⟩ hlayered site hsite site' hsite'
  obtain ⟨anchor, -, rfl⟩ := Option.map_eq_some_iff.mp hsite
  obtain ⟨anchor', -, rfl⟩ := Option.map_eq_some_iff.mp hsite'
  exact hlayered

/-- In the scanned circuit a site's point finds the operation that the site was made of. -/
theorem locate?_of_mem_sites (h : c.WellFormed) {site : Site} (hsite : site ∈ rule.sites c) :
    ∃ slot op, c.locate? site.point = some (slot, op) ∧ op.gate = .primitive rule.source ∧
      op.wires = site.wires := by
  obtain ⟨op, hop, hsource, hanchor, hwires⟩ := mem_sites_iff.mp hsite
  obtain ⟨slot, hat⟩ := Circuit.mem_scheduled_iff.mp hop
  exact ⟨slot, op, h.locate?_eq_some_iff.mpr ⟨hat, List.mem_of_head? hanchor⟩, hsource, hwires.symm⟩

/-- The sites of a scan hold in the circuit that was scanned. -/
theorem holdsAt_of_mem_sites (h : c.WellFormed) {site : Site} (hsite : site ∈ rule.sites c) :
    rule.HoldsAt c site := by
  obtain ⟨slot, op, hlocate, hsource, hwires⟩ := locate?_of_mem_sites h hsite
  exact ⟨op, Circuit.get?_eq_some_iff.mpr ⟨slot, hlocate⟩, hsource, hwires⟩

/-- No two sites of a scan name the same operation. -/
theorem nodup_slotOf?_sites (h : c.WellFormed) :
    ((rule.sites c).map fun site => c.slotOf? site.point).Nodup := by
  refine List.pairwise_map.mpr ((pairwise_sites h).imp_of_mem ?_)
  intro site site' hsite hsite' hapart heq
  obtain ⟨slot, op, hlocate, -, hwires⟩ := locate?_of_mem_sites h hsite
  obtain ⟨slot', op', hlocate', -, hwires'⟩ := locate?_of_mem_sites h hsite'
  rw [Circuit.slotOf?_of_locate? hlocate, Circuit.slotOf?_of_locate? hlocate', Option.some.injEq,
    Prod.mk.injEq] at heq
  obtain ⟨hcycle, rfl⟩ := heq
  -- Both points name one operation, so the two sites have its wires in common.
  have hat := (h.locate?_eq_some_iff.mp hlocate).1
  have hat' := (h.locate?_eq_some_iff.mp hlocate').1
  rw [hcycle] at hat
  cases hat.symm.trans hat'
  have hmember := h.wellFormed_of_locate? hlocate
  obtain ⟨wire, hwire⟩ := List.exists_mem_of_ne_nil _ hmember.wires_ne_nil
  exact hapart.resolve_left (by omega) (hwires ▸ hwire) (hwires' ▸ hwire)

/-- There is one site for every operation that holds the source. -/
theorem length_sites {c : Circuit θ} (h : c.WellFormed) :
    (rule.sites c).length = c.operations.countP rule.holdsSource := by
  -- Every operation has a first wire to name it by, so each match gives a site.
  have hhead : ∀ entry ∈ c.scheduled, (siteOf? entry.1 entry.2).isSome = true := by
    intro entry hentry
    have hmember := h.members entry.2 (Circuit.mem_operations_of_mem_scheduled hentry)
    simpa [siteOf?] using hmember.wires_ne_nil
  have hall : ∀ entries : List (Nat × Operation θ),
      (∀ entry ∈ entries, (siteOf? entry.1 entry.2).isSome = true) →
      (entries.filterMap fun entry => siteOf? entry.1 entry.2).length = entries.length := by
    intro entries hentries
    rw [List.length_filterMap_eq_countP, List.countP_eq_length]
    exact hentries
  calc (rule.sites c).length
      = (c.scheduled.filter fun entry => rule.holdsSource entry.2).length :=
        hall _ fun entry hentry => hhead entry (List.mem_of_mem_filter hentry)
    _ = c.scheduled.countP fun entry => rule.holdsSource entry.2 := List.countP_eq_length_filter.symm
    _ = (c.scheduled.map Prod.snd).countP rule.holdsSource := by
        rw [List.countP_map]
        rfl
    _ = c.operations.countP rule.holdsSource := by rw [Circuit.map_snd_scheduled]

/-- The sites of a scan can be substituted in the circuit that was scanned. -/
theorem exists_substitute_sites (h : c.WellFormed) (rule : SubstitutionRule θ) :
    ∃ c', rule.substitute c (rule.sites c) = .ok c' :=
  (exists_substitute_iff h rule _).mpr
    ⟨fun _ hsite => (holdsAt_of_mem_sites h hsite).upToOrder, nodup_slotOf?_sites h⟩

/-- Every slot with the source is named by a site. -/
theorem exists_site_of_operationAt (h : c.WellFormed) {k slot : Nat} {op : Operation θ}
    (hat : c.operationAt k slot = some op) (hsource : op.gate = .primitive rule.source) :
    ∃ site ∈ rule.sites c, c.slotOf? site.point = some (k, slot) := by
  have hmember := h.members op (Circuit.mem_operations_iff.mpr ⟨k, slot, hat⟩)
  obtain ⟨anchor, hanchor⟩ := Option.isSome_iff_exists.mp
    (List.isSome_head?.mpr hmember.wires_ne_nil)
  have hlocate : c.locate? ⟨k, anchor⟩ = some (slot, op) :=
    h.locate?_eq_some_iff.mpr ⟨hat, List.mem_of_head? hanchor⟩
  refine ⟨⟨⟨k, anchor⟩, op.wires⟩, mem_sites_iff.mpr ?_, Circuit.slotOf?_of_locate? hlocate⟩
  exact ⟨op, Circuit.mem_scheduled_iff.mpr ⟨slot, hat⟩, hsource, hanchor, rfl⟩

/-- Substituting the sites of a scan exchanges the source for the template, slot by slot. -/
theorem operationAt_of_substitute_sites (h : c.WellFormed)
    (hsubstitute : rule.substitute c (rule.sites c) = .ok c') (k slot : Nat) :
    c'.operationAt k slot = (c.operationAt k slot).map rule.exchange := by
  obtain ⟨-, hreplace⟩ := substitute_eq_ok_iff.mp hsubstitute
  -- The slots that are named by a site are those that hold the source.
  by_cases hnamed : ∃ site ∈ rule.sites c, c.slotOf? site.point = some (k, slot)
  · obtain ⟨site, hsite, hslot⟩ := hnamed
    obtain ⟨found, op, hlocate, hsource, hwires⟩ := locate?_of_mem_sites h hsite
    rw [operationAt_of_substitute hsubstitute hsite hslot]
    rw [Circuit.slotOf?_of_locate? hlocate, Option.some.injEq, Prod.mk.injEq] at hslot
    obtain ⟨rfl, rfl⟩ := hslot
    rw [(h.locate?_eq_some_iff.mp hlocate).1, Option.map_some, exchange,
      if_pos (holdsSource_iff.mpr hsource), hwires]
  · have hothers : ∀ point ∈ (rule.sites c).map Site.point, c.slotOf? point ≠ some (k, slot) :=
      List.forall_mem_map.mpr fun site hsite hslot => hnamed ⟨site, hsite, hslot⟩
    rw [Circuit.operationAt_of_replace?_of_not_mem hreplace hothers]
    cases hat : c.operationAt k slot with
    | none => rfl
    | some op =>
        have hnot : ¬ rule.holdsSource op = true :=
          fun hholds => hnamed (exists_site_of_operationAt h hat (holdsSource_iff.mp hholds))
        rw [Option.map_some, exchange, if_neg hnot]

theorem length_cycles_of_substitute {sites : List Site}
    (hsubstitute : rule.substitute c sites = .ok c') : c'.cycles.length = c.cycles.length :=
  Circuit.length_cycles_of_replace? (substitute_eq_ok_iff.mp hsubstitute).2

theorem register_of_substitute {sites : List Site}
    (hsubstitute : rule.substitute c sites = .ok c') : c'.register = c.register :=
  Circuit.register_of_replace? (substitute_eq_ok_iff.mp hsubstitute).2

/-- Substituting the sites of a scan exchanges the source for the template wherever it occurs. -/
theorem operations_of_substitute_sites (h : c.WellFormed)
    (hsubstitute : rule.substitute c (rule.sites c) = .ok c') :
    c'.operations = c.operations.map rule.exchange :=
  Circuit.operations_eq_map (length_cycles_of_substitute hsubstitute)
    (operationAt_of_substitute_sites h hsubstitute)

/-! ## Applying a rule -/

/-- Without sites nothing is substituted, which is what a substitution of no site does. -/
theorem run_apply (rule : SubstitutionRule θ) (c : Circuit θ) :
    Mutation.apply rule c =
      (do
        Mutation.substitute rule (rule.sites c)
        let _ ← Mutation.flatten
        return (rule.sites c).length : Mutation θ (PassError θ) Nat) c := by
  refine (Program.bind_of_ok rfl).trans ?_
  cases hsites : rule.sites c with
  | nil => rfl
  | cons site sites => rfl

/-- A rule that is refused leaves the circuit as it was: flattening, which comes last, cannot fail. -/
theorem atomic_apply (rule : SubstitutionRule θ) : (Mutation.apply rule).Atomic := by
  intro c e left herror
  rw [run_apply] at herror
  exact (rule.atomic_substitute _).bind_ok (fun _ _ => ⟨_, _, rfl⟩) c e left herror

theorem apply_eq (rule : SubstitutionRule θ) (c : Circuit θ) :
    rule.apply c = rule.substitute c (rule.sites c) >>= fun substituted =>
      pure (substituted.flatten.1, (rule.sites c).length) := by
  rw [apply, Program.outcome, run_apply, substitute, Program.changed?, Program.outcome]
  cases hrun : Mutation.substitute rule (rule.sites c) c with
  | ok _ substituted =>
      rw [Program.bind_of_ok hrun]
      rfl
  | error e left =>
      rw [Program.bind_of_error hrun]
      rfl

/-- Applying a rule is substituting the sites of a scan and flattening the result. -/
theorem apply_eq_ok_iff {d : Circuit θ} {n : Nat} : rule.apply c = .ok (d, n) ↔
    ∃ c', rule.substitute c (rule.sites c) = .ok c' ∧ d = c'.flatten.1 ∧
      n = (rule.sites c).length := by
  rw [apply_eq]
  simp only [bind_eq_ok_iff, pure_eq_ok_iff, Prod.mk.injEq, eq_comm (b := d), eq_comm (b := n)]

theorem exists_apply_eq_ok (h : c.WellFormed) (rule : SubstitutionRule θ) :
    ∃ c', rule.apply c = .ok (c'.flatten.1, (rule.sites c).length) ∧
      rule.substitute c (rule.sites c) = .ok c' := by
  obtain ⟨c', hc'⟩ := exists_substitute_sites h rule
  exact ⟨c', apply_eq_ok_iff.mpr ⟨c', hc', rfl, rfl⟩, hc'⟩

end SubstitutionRule

/-! ## Substituting keeps circuits well-formed -/

namespace Circuit.WellFormed

variable {rule : SubstitutionRule θ} {c c' : Circuit θ} (h : c.WellFormed)
  (htemplate : rule.templateBody.WellFormed)
include h htemplate

theorem substitute {sites : List Site} (hsubstitute : rule.substitute c sites = .ok c') :
    c'.WellFormed := by
  obtain ⟨hmade, hreplace⟩ := SubstitutionRule.substitute_eq_ok_iff.mp hsubstitute
  refine h.replace (List.forall_mem_map.mpr hmade) (List.forall_mem_map.mpr fun site _ => ?_)
    hreplace
  exact (Gate.wellFormed_block _ _).mpr htemplate

theorem apply {n : Nat} (happly : rule.apply c = .ok (c', n)) : c'.WellFormed := by
  obtain ⟨d, hsubstitute, rfl, -⟩ := SubstitutionRule.apply_eq_ok_iff.mp happly
  exact (h.substitute htemplate hsubstitute).flatten

end Circuit.WellFormed
end QuditCircuits
