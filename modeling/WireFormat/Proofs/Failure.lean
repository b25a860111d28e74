import WireFormat.Proofs.Outcome

/-!
# Failing outcomes

A run that has failed has failed in one of its steps, after all steps before have succeeded.  The
lemmas of this file find that step.

* `bind_eq_error_iff`, `mapError_eq_error_iff` — in a computation in `Except`;
* `FailsOnly` — a computation all failures of which are of one kind;
* `run_bind_eq_error_iff`, `run_adaptExcept_eq_error_iff` — in one with a state.
-/

namespace WireFormat

variable {ε ε' σ α β : Type}

/-! ## Without a state -/

theorem bind_eq_error_iff {x : Except ε α} {f : α → Except ε β} {e : ε} :
    x >>= f = .error e ↔ x = .error e ∨ ∃ a, x = .ok a ∧ f a = .error e := by
  cases x with
  | error e => simp [bind, Except.bind]
  | ok a => simp [bind, Except.bind]

@[simp] theorem mapError_eq_error_iff {x : Except ε α} {f : ε → ε'} {e' : ε'} :
    x.mapError f = .error e' ↔ ∃ e, x = .error e ∧ f e = e' := by
  cases x with
  | error e =>
    change Except.error (f e) = .error e' ↔ _
    simp
  | ok a =>
    change Except.ok a = .error e' ↔ _
    simp

/-- If the result is a failure, then one of those that are allowed. -/
def FailsOnly (allowed : ε → Prop) (result : Except ε α) : Prop :=
  ∀ failure, result = .error failure → allowed failure

namespace FailsOnly

variable {allowed : ε → Prop} {allowed' : ε' → Prop} {result : Except ε α}
  {f : α → Except ε β}

theorem ok (a : α) : FailsOnly allowed (.ok a : Except ε α) := nofun

theorem error {failure : ε} (h : allowed failure) :
    FailsOnly allowed (.error failure : Except ε α) := by
  rintro _ ⟨⟩
  exact h

theorem bind (h : FailsOnly allowed result) (hmore : ∀ a, FailsOnly allowed (f a)) :
    FailsOnly allowed (result >>= f) := by
  intro failure hfailure
  obtain hfailure | ⟨a, -, hfailure⟩ := bind_eq_error_iff.1 hfailure
  · exact h failure hfailure
  · exact hmore a failure hfailure

theorem map {g : α → β} (h : FailsOnly allowed result) : FailsOnly allowed (result.map g) := by
  cases result with
  | ok a => exact .ok _
  | error failure => exact .error (h failure rfl)

theorem mapError {g : ε → ε'} (h : FailsOnly (fun failure ↦ allowed' (g failure)) result) :
    FailsOnly allowed' (result.mapError g) := by
  intro failure hfailure
  obtain ⟨cause, hcause, rfl⟩ := mapError_eq_error_iff.1 hfailure
  exact h cause hcause

end FailsOnly

/-! ## With a state -/

theorem run_bind_eq_error_iff {x : EStateM ε σ α} {f : α → EStateM ε σ β} {s s' : σ} {e : ε} :
    (x >>= f) s = .error e s' ↔
      x s = .error e s' ∨ ∃ a s₁, x s = .ok a s₁ ∧ f a s₁ = .error e s' := by
  change EStateM.bind x f s = _ ↔ _
  unfold EStateM.bind
  cases x s with
  | error e s₁ => simp
  | ok a s₁ =>
    constructor
    · exact fun h ↦ .inr ⟨a, s₁, rfl, h⟩
    · rintro (h | ⟨_, _, h, hnext⟩)
      · cases h
      · cases h
        exact hnext

@[simp] theorem run_pure_ne_error {a : α} {s s' : σ} {e : ε} :
    (pure a : EStateM ε σ α) s ≠ .error e s' := nofun

/-- Nothing fails after a computation whose result is only looked at. -/
@[simp] theorem run_bind_pure_eq_error_iff {x : EStateM ε σ α} {f : α → β} {s s' : σ} {e : ε} :
    (x >>= fun a ↦ pure (f a)) s = .error e s' ↔ x s = .error e s' := by
  rw [run_bind_eq_error_iff]
  constructor
  · rintro (h | ⟨_, _, _, hpure⟩)
    · exact h
    · cases hpure
  · exact .inl

@[simp] theorem run_throw_eq_error_iff {e e' : ε} {s s' : σ} :
    (throw e : EStateM ε σ α) s = .error e' s' ↔ e = e' ∧ s = s' := by
  change EStateM.Result.error e s = _ ↔ _
  simp

@[simp] theorem run_get_ne_error {s s' : σ} {e : ε} :
    (get : EStateM ε σ σ) s ≠ .error e s' := nofun

@[simp] theorem run_modify_ne_error {f : σ → σ} {s s' : σ} {e : ε} :
    (modify f : EStateM ε σ PUnit) s ≠ .error e s' := nofun

@[simp] theorem run_adaptExcept_eq_error_iff {x : EStateM ε σ α} {f : ε → ε'} {s s' : σ} {e' : ε'} :
    EStateM.adaptExcept f x s = .error e' s' ↔ ∃ e, x s = .error e s' ∧ f e = e' := by
  unfold EStateM.adaptExcept
  cases x s <;> simp [and_comm]

end WireFormat
