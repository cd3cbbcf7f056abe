import QuditCircuits.Proofs.Runs
import QuditCircuits.Proofs.Substitution.Expansion

/-!
# What a pipeline of the library's passes accounts for

A stage is one of the two passes of the library: flattening, or running a rule.  On a circuit that can
be built no stage fails, the circuit it leaves can be built again and has no block, and it adds its one
record to the log, or none if it only flattens (`Stage.run_eq_ok`).  So a pipeline of stages never fails
either, and its records follow those that were there, in the order of the stages.

Flattening asks to be run only if there is a block.  Where it is skipped it would have changed nothing,
so asking makes no difference to what a pipeline leaves behind.
-/

namespace QuditCircuits

variable {θ : Type} {F : PropertyFamily}

/-! ## Records in a set of properties -/

namespace Properties

/-- Records applications of rules one after the other. -/
def recordAll (properties : Properties F) (entries : List SubstitutionEntry) : Properties F :=
  entries.foldl (fun properties entry => properties.record entry.rule entry.replaced) properties

theorem recordAll_append (properties : Properties F) (entries entries' : List SubstitutionEntry) :
    properties.recordAll (entries ++ entries') = (properties.recordAll entries).recordAll entries' :=
  List.foldl_append

theorem find?_record_self (properties : Properties F) (entry : SubstitutionEntry) :
    (properties.record entry.rule entry.replaced).find? .substitutions =
      some ⟨properties.substitutionLog.entries ++ [entry]⟩ := by
  rw [record, find?_insert_self]
  rfl

theorem find?_record_of_ne (properties : Properties F) (rule : String) (replaced : Nat)
    {key : PropertyKey F} (h : key ≠ .substitutions) :
    (properties.record rule replaced).find? key = properties.find? key :=
  properties.find?_insert_of_ne h.symm _

theorem find?_recordAll_of_ne (properties : Properties F) (entries : List SubstitutionEntry)
    {key : PropertyKey F} (h : key ≠ .substitutions) :
    (properties.recordAll entries).find? key = properties.find? key := by
  induction entries generalizing properties with
  | nil => rfl
  | cons entry entries ih => exact (ih _).trans (find?_record_of_ne properties _ _ h)

/-- The log after some records: it goes on where it was, and it is started by the first record. -/
theorem find?_recordAll (properties : Properties F) (entries : List SubstitutionEntry) :
    (properties.recordAll entries).find? .substitutions =
      if entries = [] then properties.find? .substitutions
      else some ⟨properties.substitutionLog.entries ++ entries⟩ := by
  induction entries generalizing properties with
  | nil => rfl
  | cons entry entries ih =>
      have hlog := find?_record_self properties entry
      have hstep : (properties.recordAll (entry :: entries)).find? .substitutions =
          ((properties.record entry.rule entry.replaced).recordAll entries).find? .substitutions := rfl
      rw [hstep, ih, if_neg (List.cons_ne_nil entry entries), substitutionLog, hlog]
      split
      · next hnil => rw [hnil]
      · simp

end Properties

/-! ## One stage -/

/-- A pass of the library. -/
inductive Stage (θ : Type) : Type
  | flatten
  | substitution (rule : SubstitutionRule θ)

namespace Stage

/-- The pass of a stage. -/
def pass : Stage θ → Pass θ F
  | flatten => .flatten
  | substitution rule => rule.pass F

/-- The template of a stage's rule has to be a circuit that can be built. -/
def Admissible : Stage θ → Prop
  | flatten => True
  | substitution rule => rule.templateBody.Reachable

/-- Whether the stage runs a rule. -/
def substitutes : Stage θ → Bool
  | flatten => false
  | substitution _ => true

/-- The record of a stage that starts on a circuit: how many operations of the top level hold the
source of its rule. -/
def record? (c : Circuit θ) : Stage θ → Option SubstitutionEntry
  | flatten => none
  | substitution rule => some ⟨rule.name, c.operations.countP rule.holdsSource⟩

theorem isSome_record? (c : Circuit θ) (stage : Stage θ) :
    (stage.record? c).isSome = stage.substitutes := by
  cases stage <;> rfl

end Stage

/-- A stage never fails, whether or not it is asked before it is run, and it leaves a circuit without
blocks. -/
theorem Stage.run_eq_ok {c : Circuit θ} (h : c.Reachable) {stage : Stage θ}
    (hstage : stage.Admissible) (properties : Properties F) :
    ∃ c', c'.Reachable ∧ (∀ op ∈ c'.operations, op.isBlock = false) ∧
      stage.pass.run ⟨c, properties⟩ =
        .ok () ⟨c', properties.recordAll (stage.record? c).toList⟩ ∧
      Pipeline.runPass stage.pass ⟨c, properties⟩ =
        .ok () ⟨c', properties.recordAll (stage.record? c).toList⟩ := by
  cases stage with
  | flatten =>
      refine ⟨c.flatten.1, .flatten h, c.isBlock_of_mem_flatten, rfl, ?_⟩
      show (if decide (0 < c.numBlocks) = true then Pass.flatten.run else pure ())
        ⟨c, properties⟩ = _
      by_cases hblocks : 0 < c.numBlocks
      · rw [if_pos (decide_eq_true hblocks)]
        rfl
      · have hnone : c.numBlocks = 0 := Nat.eq_zero_of_not_pos hblocks
        rw [if_neg (by simpa using hblocks), Circuit.flatten_of_numBlocks_eq_zero hnone]
        rfl
  | substitution rule =>
      obtain ⟨c', happly, -, -, hblocks⟩ :=
        SubstitutionRule.exists_apply_expansion h.wellFormed hstage.wellFormed
      -- A rule always asks to be run.
      have hrun := SubstitutionRule.run_pass_eq_ok properties happly
      exact ⟨c', .apply h hstage happly, hblocks, hrun, hrun⟩

/-! ## A pipeline of stages -/

namespace Pipeline

/-- The pipeline of some stages. -/
def ofStages (stages : List (Stage θ)) : Pipeline θ F where
  passes := stages.map Stage.pass

/-- The circuit on which stage `i` of a pipeline starts: the one that the stages before it leave. -/
def startOf (stages : List (Stage θ)) (workspace : Workspace θ F) (i : Nat) : Circuit θ :=
  ((ofStages (stages.take i)).run.after workspace).circuit

/-- The records of the stages, each for the circuit on which the stage starts. -/
def records (stages : List (Stage θ)) (workspace : Workspace θ F) : List SubstitutionEntry :=
  stages.zipIdx.filterMap fun (stage, i) => stage.record? (startOf stages workspace i)

theorem run_ofStages_concat (stages : List (Stage θ)) (stage : Stage θ) :
    (ofStages (stages ++ [stage])).run =
      (do (ofStages stages).run; runPass stage.pass : PassM θ Unit F) := by
  simp only [run, ofStages, List.map_append, List.map_cons, List.map_nil]
  show forM (List.map Stage.pass stages ++ [stage.pass]) runPass = _
  rw [List.forM_append]
  simp

/-- The last stage starts on what the others leave, and they start on what they started on before. -/
theorem records_concat {stages : List (Stage θ)} {workspace left : Workspace θ F}
    (hrun : (ofStages stages).run workspace = .ok () left) (stage : Stage θ) :
    records (stages ++ [stage]) workspace =
      records stages workspace ++ (stage.record? left.circuit).toList := by
  have hearlier : ∀ entry ∈ stages.zipIdx,
      entry.1.record? (startOf (stages ++ [stage]) workspace entry.2) =
        entry.1.record? (startOf stages workspace entry.2) := by
    intro entry hentry
    have hlt : entry.2 < stages.length := by simpa using List.snd_lt_add_of_mem_zipIdx hentry
    rw [startOf, startOf, List.take_append_of_le_length (Nat.le_of_lt hlt)]
  have hlast : startOf (stages ++ [stage]) workspace stages.length = left.circuit := by
    rw [startOf, List.take_left, Program.after, hrun]
  rw [records, List.zipIdx_append, List.filterMap_append, List.filterMap_congr hearlier]
  congr 1
  simp only [Nat.zero_add, List.zipIdx_singleton, List.filterMap_cons, List.filterMap_nil, hlast]
  cases stage.record? left.circuit <;> rfl

/-- The stages in order, none of them asked whether it is to be run. -/
def runAll (stages : List (Stage θ)) : PassM θ Unit F :=
  stages.forM fun stage => stage.pass.run

theorem runAll_concat (stages : List (Stage θ)) (stage : Stage θ) :
    runAll (stages ++ [stage]) = (do runAll stages; stage.pass.run : PassM θ Unit F) := by
  show forM (stages ++ [stage]) (fun stage : Stage θ => stage.pass.run) = _
  rw [List.forM_append]
  simp [runAll]

/-- A pipeline records nothing only if it runs no rule. -/
theorem records_eq_nil_iff {stages : List (Stage θ)} {workspace : Workspace θ F} :
    records stages workspace = [] ↔ stages.any Stage.substitutes = false := by
  have hnone : ∀ entry : Stage θ × Nat,
      entry.1.record? (startOf stages workspace entry.2) = none ↔ entry.1.substitutes = false := by
    intro entry
    rw [← Stage.isSome_record? (startOf stages workspace entry.2), Option.isSome_eq_false_iff,
      Option.isNone_iff_eq_none]
  rw [records, List.filterMap_eq_nil_iff, List.any_eq_false]
  constructor
  · intro h stage hstage
    obtain ⟨i, hi⟩ := List.getElem?_of_mem hstage
    have hmem : (stage, i) ∈ stages.zipIdx := List.mk_mem_zipIdx_iff_getElem?.mpr hi
    simpa using (hnone (stage, i)).mp (h (stage, i) hmem)
  · intro h entry hentry
    exact (hnone entry).mpr (by simpa using h entry.1 (List.fst_mem_of_mem_zipIdx hentry))

/-- Stages run one after the other, asked or not, and what they record adds up. -/
theorem run_ofStages_eq_ok {c : Circuit θ} (h : c.Reachable) {stages : List (Stage θ)}
    (hstages : ∀ stage ∈ stages, stage.Admissible) (properties : Properties F) :
    ∃ c', c'.Reachable ∧ (stages ≠ [] → ∀ op ∈ c'.operations, op.isBlock = false) ∧
      (ofStages stages).run ⟨c, properties⟩ =
        .ok () ⟨c', properties.recordAll (records stages ⟨c, properties⟩)⟩ ∧
      runAll stages ⟨c, properties⟩ =
        .ok () ⟨c', properties.recordAll (records stages ⟨c, properties⟩)⟩ := by
  -- The induction adds a stage at the end, which is where its record goes.
  induction stages using List.reverseRecOn with
  | nil => exact ⟨c, h, fun hne => absurd rfl hne, rfl, rfl⟩
  | append_singleton stages stage ih =>
      obtain ⟨hstages, hstage⟩ := List.forall_mem_append.mp hstages
      obtain ⟨d, hd, -, hrun, hall⟩ := ih hstages
      obtain ⟨c', hc', hblocks, hpass, hask⟩ := Stage.run_eq_ok hd
        (List.forall_mem_singleton.mp hstage)
        (properties.recordAll (records stages ⟨c, properties⟩))
      refine ⟨c', hc', fun _ => hblocks, ?_, ?_⟩
      · rw [run_ofStages_concat, Program.bind_of_ok hrun, hask, records_concat hrun,
          Properties.recordAll_append]
      · rw [runAll_concat, Program.bind_of_ok hall, hpass, records_concat hrun,
          Properties.recordAll_append]

/-- A pipeline of the library's passes does not fail on a circuit that can be built, and passes that
do not ask to be run make no difference.  A pipeline with a pass leaves no block.  One that runs a rule
goes on with the log, or starts it, and adds for each rule in turn how many operations of the top level
held its source when it came to be run; nothing else is noted. -/
theorem run_ofStages {c : Circuit θ} (h : c.Reachable) {stages : List (Stage θ)}
    (hstages : ∀ stage ∈ stages, stage.Admissible) (properties : Properties F) :
    ∃ c' properties',
      (ofStages stages).run ⟨c, properties⟩ = .ok () ⟨c', properties'⟩ ∧
      runAll stages ⟨c, properties⟩ = .ok () ⟨c', properties'⟩ ∧
      (stages ≠ [] → ∀ op ∈ c'.operations, op.isBlock = false) ∧
      properties'.find? .substitutions =
        (if stages.any Stage.substitutes then
          some ⟨properties.substitutionLog.entries ++ records stages ⟨c, properties⟩⟩
        else properties.find? .substitutions) ∧
      ∀ key, key ≠ .substitutions → properties'.find? key = properties.find? key := by
  obtain ⟨c', -, hblocks, hrun, hall⟩ := run_ofStages_eq_ok h hstages properties
  refine ⟨c', _, hrun, hall, hblocks, ?_, fun _ => Properties.find?_recordAll_of_ne _ _⟩
  rw [Properties.find?_recordAll]
  by_cases hrules : stages.any Stage.substitutes = true
  · have hne : records stages ⟨c, properties⟩ ≠ [] := fun hnil => by
      simp [records_eq_nil_iff.mp hnil] at hrules
    rw [if_neg hne, if_pos hrules]
  · rw [if_pos (records_eq_nil_iff.mpr (by simpa using hrules)), if_neg hrules]

/-- A rule is run twice, with a flattening between that has nothing left to do. -/
def repeatedPhase : List (Stage Nat) :=
  [.substitution .turnedPhase, .flatten, .substitution .turnedPhase]

/-- A text that a pass left. -/
def draft : Properties :=
  Properties.empty.insert .text "draft"

theorem run_repeatedPhase :
    SubstitutionRule.phaseCircuit.Reachable ∧ (∀ stage ∈ repeatedPhase, stage.Admissible) ∧
      repeatedPhase ≠ [] ∧ repeatedPhase.any Stage.substitutes = true ∧
      records repeatedPhase ⟨SubstitutionRule.phaseCircuit, draft⟩ =
        [⟨"z_to_xtxtz", 2⟩, ⟨"z_to_xtxtz", 3⟩] ∧
      ∃ c' properties',
        (ofStages repeatedPhase).run ⟨SubstitutionRule.phaseCircuit, draft⟩ =
          .ok () ⟨c', properties'⟩ ∧
        (∀ op ∈ c'.operations, op.isBlock = false) ∧
        properties'.find? .substitutions = some ⟨[⟨"z_to_xtxtz", 2⟩, ⟨"z_to_xtxtz", 3⟩]⟩ ∧
        properties'.find? .text = some "draft" ∧ properties'.find? .number = none := by
  have hstages : ∀ stage ∈ repeatedPhase, stage.Admissible := by
    simp [repeatedPhase, Stage.Admissible, SubstitutionRule.reachable_turnedPhase]
  have hrecords : records repeatedPhase ⟨SubstitutionRule.phaseCircuit, draft⟩ =
      [⟨"z_to_xtxtz", 2⟩, ⟨"z_to_xtxtz", 3⟩] := by
    decide +kernel
  obtain ⟨c', properties', hrun, -, hblocks, hlog, hothers⟩ :=
    run_ofStages SubstitutionRule.reachable_phaseCircuit hstages draft
  rw [if_pos (show repeatedPhase.any Stage.substitutes = true from rfl), hrecords] at hlog
  exact ⟨SubstitutionRule.reachable_phaseCircuit, hstages, by simp [repeatedPhase], rfl, hrecords,
    c', properties', hrun, hblocks (by simp [repeatedPhase]), hlog, hothers _ (by decide),
    hothers _ (by decide)⟩

end Pipeline

end QuditCircuits
