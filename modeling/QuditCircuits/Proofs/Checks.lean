import QuditCircuits.Circuit.SiteError
import QuditCircuits.Pipeline.Error

/-!
# Chains of checks

Everything that can be refused is a chain of steps in `Except`: a step that may fail, a guard that
refuses outright, an error carried over to a wider type.  One lemma for each says when the chain
succeeds, so a refused input is read back check by check and no proof opens the chain itself.
-/

namespace QuditCircuits

variable {ε ε' α β : Type}

/-- Two steps succeed exactly when the first does and the second does on its result. -/
@[simp]
theorem bind_eq_ok_iff {x : Except ε α} {f : α → Except ε β} {b : β} :
    x >>= f = .ok b ↔ ∃ a, x = .ok a ∧ f a = .ok b := by
  cases x with
  | error e => simp [bind, Except.bind]
  | ok a => simp [bind, Except.bind]

/-- Two steps fail with the error of the first one that fails. -/
theorem bind_eq_error_iff {x : Except ε α} {f : α → Except ε β} {e : ε} :
    x >>= f = .error e ↔ x = .error e ∨ ∃ a, x = .ok a ∧ f a = .error e := by
  cases x with
  | error e' => simp [bind, Except.bind]
  | ok a => simp [bind, Except.bind]

/-- A check succeeds without a result of its own. -/
theorem check_bind_eq_ok_iff {x : Except ε Unit} {f : Unit → Except ε β} {b : β} :
    x >>= f = .ok b ↔ x = .ok () ∧ f () = .ok b := by
  rw [bind_eq_ok_iff]
  exact ⟨fun ⟨_, hx, hf⟩ => ⟨hx, hf⟩, fun ⟨hx, hf⟩ => ⟨(), hx, hf⟩⟩

theorem check_bind_eq_error_iff {x : Except ε Unit} {f : Unit → Except ε β} {e : ε} :
    x >>= f = .error e ↔ x = .error e ∨ x = .ok () ∧ f () = .error e := by
  rw [bind_eq_error_iff]
  exact or_congr_right ⟨fun ⟨_, hx, hf⟩ => ⟨hx, hf⟩, fun ⟨hx, hf⟩ => ⟨(), hx, hf⟩⟩

@[simp]
theorem pure_ne_error {a : α} {e : ε} : (pure a : Except ε α) ≠ .error e := by
  simp [pure, Except.pure]

@[simp]
theorem pure_eq_ok_iff {a b : α} : (pure a : Except ε α) = .ok b ↔ a = b := by
  simp [pure, Except.pure]

@[simp]
theorem throw_ne_ok {e : ε} {b : β} : (throw e : Except ε β) ≠ .ok b := by
  simp [throw, throwThe, MonadExceptOf.throw]

/-- A guard lets the rest of the chain run exactly when it does not fire. -/
@[simp]
theorem guard_eq_ok_iff {p : Prop} [Decidable p] {e : ε} {f : α → Except ε β} {x : Except ε β}
    {b : β} : (if p then (throw e >>= f) else x) = .ok b ↔ ¬ p ∧ x = .ok b := by
  by_cases hp : p <;> simp [hp]

theorem guard_eq_error_iff {p : Prop} [Decidable p] {e e' : ε} {f : α → Except ε β}
    {x : Except ε β} : (if p then (throw e >>= f) else x) = .error e' ↔
      p ∧ e' = e ∨ ¬ p ∧ x = .error e' := by
  by_cases hp : p
  · simp [hp, throw, throwThe, MonadExceptOf.throw, bind, Except.bind, eq_comm]
  · simp [hp]

theorem map_snd_eq_ok_iff {x : Except ε (α × β)} {b : β} :
    x.map Prod.snd = .ok b ↔ ∃ a, x = .ok (a, b) := by
  cases x with
  | error e => simp [Except.map]
  | ok pair => simp [Except.map, Prod.ext_iff]

theorem map_swap_eq_ok_iff {x : Except ε (α × β)} {a : α} {b : β} :
    x.map Prod.swap = .ok (b, a) ↔ x = .ok (a, b) := by
  cases x with
  | error e => simp [Except.map]
  | ok pair => simp [Except.map, Prod.ext_iff, and_comm]

theorem map_swap_eq_error_iff {x : Except ε (α × β)} {e : ε} :
    x.map Prod.swap = .error e ↔ x = .error e := by
  cases x with
  | error e' => simp [Except.map]
  | ok pair => simp [Except.map]

@[simp]
theorem mapError_eq_ok_iff {f : ε → ε'} {x : Except ε α} {a : α} :
    x.mapError f = .ok a ↔ x = .ok a := by
  cases x with
  | error e => exact iff_of_false nofun nofun
  | ok b =>
      show (Except.ok b : Except ε' α) = .ok a ↔ _
      rw [Except.ok.injEq, Except.ok.injEq]

theorem mapError_eq_error_iff {f : ε → ε'} {x : Except ε α} {e' : ε'} :
    x.mapError f = .error e' ↔ ∃ e, x = .error e ∧ e' = f e := by
  cases x with
  | error e =>
      constructor
      · rintro ⟨rfl⟩
        exact ⟨e, rfl, rfl⟩
      · rintro ⟨_, ⟨rfl⟩, rfl⟩
        rfl
  | ok a => exact iff_of_false nofun fun ⟨_, h, _⟩ => nomatch h

@[simp]
theorem SiteError.ofShape_eq_ok_iff {θ : Type} {x : Except ShapeError α} {a : α} :
    (SiteError.ofShape x : Except (SiteError θ) α) = .ok a ↔ x = .ok a :=
  mapError_eq_ok_iff

@[simp]
theorem PassError.ofShape_eq_ok_iff {θ : Type} {x : Except ShapeError α} {a : α} :
    (PassError.ofShape x : Except (PassError θ) α) = .ok a ↔ x = .ok a :=
  mapError_eq_ok_iff

theorem checkParameters_eq_ok_iff {θ : Type} {name : String} {expected : Nat} {params : List θ}
    {u : Unit} : checkParameters name expected params = .ok u ↔ params.length = expected := by
  by_cases h : params.length = expected <;> simp [checkParameters, h]

/-- A check of every member of a list passes exactly when it passes for each. -/
theorem forM_eq_ok_iff {l : List α} {f : α → Except ε Unit} :
    l.forM f = .ok () ↔ ∀ a ∈ l, f a = .ok () := by
  induction l with
  | nil => simp
  | cons a l ih =>
      show (f a >>= fun _ => l.forM f) = .ok () ↔ _
      rw [check_bind_eq_ok_iff, List.forall_mem_cons, ih]

/-- A step for every member of a list, for steps that succeed under a condition with a known
result. -/
theorem mapM_eq_ok_iff {f : α → Except ε β} {p : α → Prop} {g : α → β}
    (hf : ∀ a b, f a = .ok b ↔ p a ∧ b = g a) {l : List α} {bs : List β} :
    l.mapM f = .ok bs ↔ (∀ a ∈ l, p a) ∧ bs = l.map g := by
  induction l generalizing bs with
  | nil =>
      rw [List.mapM_nil, pure_eq_ok_iff, eq_comm]
      simp
  | cons a l ih =>
      rw [List.mapM_cons, List.forall_mem_cons]
      simp only [bind_eq_ok_iff, pure_eq_ok_iff, hf, ih]
      constructor
      · rintro ⟨b, ⟨ha, rfl⟩, bs, ⟨hrest, rfl⟩, rfl⟩
        exact ⟨⟨ha, hrest⟩, rfl⟩
      · rintro ⟨⟨ha, hrest⟩, rfl⟩
        exact ⟨g a, ⟨ha, rfl⟩, l.map g, ⟨hrest, rfl⟩, rfl⟩

end QuditCircuits
