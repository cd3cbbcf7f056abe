import QuditCircuits.Program
import QuditCircuits.Proofs.Checks

/-!
# All or nothing

An error keeps the changes made before it, so a program that fails need not leave the state as it was.  It
does if it asks all its questions before it writes (`Program.Atomic`): a question changes nothing, and a
program that goes on with steps that cannot fail has nothing left to be undone.

The functional form of a program that starts with a question is a chain of checks
(`Program.outcome_query_bind`).
-/

namespace QuditCircuits.Program

variable {ε ε' σ α β : Type} {program : Program ε σ α} {s left : σ}

/-! ## One step after the other -/

/-- After a program that succeeds, the next one starts on what it left behind. -/
theorem bind_of_ok {next : α → Program ε σ β} {a : α} (h : program s = .ok a left) :
    (program >>= next) s = next a left := by
  show EStateM.bind program next s = _
  rw [EStateM.bind, h]

/-- After a program that fails, nothing is run. -/
theorem bind_of_error {next : α → Program ε σ β} {e : ε} (h : program s = .error e left) :
    (program >>= next) s = .error e left := by
  show EStateM.bind program next s = _
  rw [EStateM.bind, h]

theorem query_of_ok {question : σ → Except ε α} {a : α} (h : question s = .ok a) :
    query question s = .ok a s := by
  refine (bind_of_ok rfl).trans ?_
  rw [h]
  rfl

theorem query_of_error {question : σ → Except ε α} {e : ε} (h : question s = .error e) :
    query question s = .error e s := by
  refine (bind_of_ok rfl).trans ?_
  rw [h]
  rfl

/-- A question at the front is a check of the functional form. -/
theorem outcome_query_bind (question : σ → Except ε α) (next : α → Program ε σ β) (s : σ) :
    (query question >>= next).outcome s = question s >>= fun a => (next a).outcome s := by
  cases hanswer : question s with
  | ok a =>
      rw [outcome, bind_of_ok (query_of_ok hanswer)]
      rfl
  | error e =>
      rw [outcome, bind_of_error (query_of_error hanswer)]
      rfl

theorem outcome_eq_ok_iff {a : α} : program.outcome s = .ok (a, left) ↔ program s = .ok a left := by
  unfold outcome
  cases program s with
  | ok b t => simp
  | error e t => simp

theorem outcome_eq_error_iff {e : ε} :
    program.outcome s = .error e ↔ ∃ left, program s = .error e left := by
  unfold outcome
  cases program s with
  | ok b t => simp
  | error e' t => simp

theorem changed?_eq_ok_iff :
    program.changed? s = .ok left ↔ ∃ a, program.outcome s = .ok (a, left) :=
  map_snd_eq_ok_iff

theorem changed?_eq_error_iff {e : ε} :
    program.changed? s = .error e ↔ program.outcome s = .error e := by
  rw [changed?]
  cases program.outcome s with
  | ok result => simp [Except.map]
  | error e' => simp [Except.map]

theorem changed?_query_bind (question : σ → Except ε α) (next : α → Program ε σ β) (s : σ) :
    (query question >>= next).changed? s = question s >>= fun a => (next a).changed? s := by
  rw [changed?, outcome_query_bind]
  cases question s <;> rfl

theorem changed?_adaptExcept (f : ε → ε') (program : Program ε σ α) (s : σ) :
    changed? (ε := ε') (EStateM.adaptExcept f program) s = (program.changed? s).mapError f := by
  unfold changed? outcome EStateM.adaptExcept
  cases program s <;> rfl

theorem changed?_discard_eq_ok_iff :
    changed? (discard program) s = .ok left ↔ ∃ a, program.outcome s = .ok (a, left) := by
  rw [← changed?_eq_ok_iff]
  have h : discard program s = EStateM.map (fun _ => ()) program s := rfl
  unfold changed? outcome
  rw [h, EStateM.map]
  cases program s <;> rfl

/-! ## What is left behind -/

theorem after_of_ok {a : α} (h : program.outcome s = .ok (a, left)) : program.after s = left := by
  rw [after, outcome_eq_ok_iff.mp h]

/-- If the program fails, it leaves the state as it found it. -/
def Atomic (program : Program ε σ α) : Prop :=
  ∀ s e left, program s = .error e left → left = s

namespace Atomic

theorem after_of_error (h : program.Atomic) {e : ε} (herror : program.outcome s = .error e) :
    program.after s = s := by
  obtain ⟨left, hrun⟩ := outcome_eq_error_iff.mp herror
  rw [after, hrun]
  exact h s e left hrun

/-- What holds before, and after a success, holds after the program. -/
theorem after_induction (h : program.Atomic) {P : σ → Prop} (hbefore : P s)
    (hok : ∀ a left, program.outcome s = .ok (a, left) → P left) : P (program.after s) := by
  cases hrun : program.outcome s with
  | ok result =>
      rw [after_of_ok hrun]
      exact hok _ _ hrun
  | error e =>
      rw [h.after_of_error hrun]
      exact hbefore

theorem after_of_changed?_eq_error (h : program.Atomic) {e : ε}
    (herror : program.changed? s = .error e) : program.after s = s :=
  h.after_of_error (changed?_eq_error_iff.mp herror)

theorem after_induction_changed? (h : program.Atomic) {P : σ → Prop} (hbefore : P s)
    (hok : ∀ left, program.changed? s = .ok left → P left) : P (program.after s) :=
  h.after_induction hbefore fun a left hrun => hok left (changed?_eq_ok_iff.mpr ⟨a, hrun⟩)

theorem throw (e : ε) : (throw e : Program ε σ α).Atomic := by
  rintro s _ left ⟨⟩
  rfl

/-- Steps that cannot fail. -/
theorem of_forall_ok (h : ∀ s, ∃ a left, program s = .ok a left) : program.Atomic := by
  intro s e left herror
  obtain ⟨a, t, hok⟩ := h s
  rw [hok] at herror
  cases herror

/-- A question changes nothing, so it may come first. -/
theorem query_bind {question : σ → Except ε α} {next : α → Program ε σ β}
    (h : ∀ a, (next a).Atomic) : (query question >>= next).Atomic := by
  intro s e left herror
  cases hanswer : question s with
  | ok a =>
      rw [bind_of_ok (query_of_ok hanswer)] at herror
      exact h a s e left herror
  | error e' =>
      rw [bind_of_error (query_of_error hanswer)] at herror
      cases herror
      rfl

/-- Steps that cannot fail may come last. -/
theorem bind_ok (h : program.Atomic) {next : α → Program ε σ β}
    (hnext : ∀ a s, ∃ b left, next a s = .ok b left) : (program >>= next).Atomic := by
  intro s e left herror
  cases hrun : program s with
  | ok a t =>
      obtain ⟨b, t', hok⟩ := hnext a t
      rw [bind_of_ok hrun, hok] at herror
      cases herror
  | error e' t =>
      rw [bind_of_error hrun] at herror
      cases herror
      exact h s e left hrun

theorem discard (h : program.Atomic) : Atomic (discard program) :=
  h.bind_ok fun _ s => ⟨(), s, rfl⟩

theorem adaptExcept (h : program.Atomic) (f : ε → ε') :
    Atomic (ε := ε') (EStateM.adaptExcept f program) := by
  intro s e left herror
  unfold EStateM.adaptExcept at herror
  cases hrun : program s with
  | ok a t => rw [hrun] at herror; cases herror
  | error e' t =>
      rw [hrun] at herror
      cases herror
      exact h s e' left hrun

end Atomic

/-! ## What a program keeps -/

/-- What holds of a state holds of what the program leaves behind. -/
def Keeps (P : σ → Prop) (program : Program ε σ α) : Prop :=
  ∀ s, P s → P (program.after s)

/-- The second program starts on what the first leaves behind, unless the first one fails. -/
theorem Keeps.bind {P : σ → Prop} {next : α → Program ε σ β} (hfirst : program.Keeps P)
    (hnext : ∀ a, (next a).Keeps P) : (program >>= next).Keeps P := by
  intro s h
  have hleft := hfirst s h
  unfold after at hleft ⊢
  cases hrun : program s with
  | ok a left =>
      rw [hrun] at hleft
      rw [bind_of_ok hrun]
      exact hnext a left hleft
  | error e left =>
      rw [hrun] at hleft
      rw [bind_of_error hrun]
      exact hleft

end QuditCircuits.Program
