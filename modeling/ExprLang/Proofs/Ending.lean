/-!
# How a step ends

A step from a state ends with a result or with a fault, and in a new state either way. `Ends` says
what holds then, and its equations run a step symbolically: a statement about a step becomes one
about the steps that it is made of.
-/

namespace ExprLang

variable {ε σ α β : Type} {s : σ} {onResult onResult' : α → σ → Prop}
variable {onFault onFault' : ε → σ → Prop}

/-- A step from a state ends with a result of one property or with a fault of another. -/
def Ends (step : EStateM ε σ α) (s : σ) (onResult : α → σ → Prop) (onFault : ε → σ → Prop) :
    Prop :=
  match step s with
  | .ok a s' => onResult a s'
  | .error fault s' => onFault fault s'

theorem Ends.mono {step : EStateM ε σ α} (h : Ends step s onResult onFault)
    (hr : ∀ a s', onResult a s' → onResult' a s')
    (hf : ∀ fault s', onFault fault s' → onFault' fault s') :
    Ends step s onResult' onFault' := by
  unfold Ends at h ⊢
  cases hs : step s with
  | ok a s' => rw [hs] at h; exact hr a s' h
  | error fault s' => rw [hs] at h; exact hf fault s' h

/-- Properties of the result follow from others whatever is known of faults. -/
theorem Ends.imp {step : EStateM ε σ α} (h : Ends step s onResult onFault)
    (hr : ∀ a s', onResult a s' → onResult' a s') : Ends step s onResult' onFault :=
  h.mono hr fun _ _ hf => hf

theorem Ends.and {step : EStateM ε σ α} (h : Ends step s onResult onFault)
    (h' : Ends step s onResult' onFault') :
    Ends step s (fun a s' => onResult a s' ∧ onResult' a s')
      (fun fault s' => onFault fault s' ∧ onFault' fault s') := by
  unfold Ends at h h' ⊢
  cases hs : step s with
  | ok a s' => rw [hs] at h h'; exact ⟨h, h'⟩
  | error fault s' => rw [hs] at h h'; exact ⟨h, h'⟩

theorem ends_congr {step : EStateM ε σ α} (hr : ∀ a s', onResult a s' ↔ onResult' a s') :
    Ends step s onResult onFault ↔ Ends step s onResult' onFault :=
  ⟨fun h => h.imp fun a s' => (hr a s').mp, fun h => h.imp fun a s' => (hr a s').mpr⟩

theorem Ends.ok {step : EStateM ε σ α} {a : α} {s' : σ} (h : Ends step s onResult onFault)
    (hs : step s = .ok a s') : onResult a s' := by
  rw [Ends, hs] at h
  exact h

theorem Ends.error {step : EStateM ε σ α} {fault : ε} {s' : σ}
    (h : Ends step s onResult onFault) (hs : step s = .error fault s') : onFault fault s' := by
  rw [Ends, hs] at h
  exact h

theorem Ends.of_ok {step : EStateM ε σ α} {a : α} {s' : σ} (hs : step s = .ok a s')
    (ha : onResult a s') : Ends step s onResult onFault := by
  rw [Ends, hs]
  exact ha

/-- How a step ends is how it runs. -/
theorem ends_run (step : EStateM ε σ α) (s : σ) :
    Ends step s (fun a s' => step s = .ok a s') (fun fault s' => step s = .error fault s') := by
  unfold Ends
  cases step s <;> rfl

/-- A second step is run on what the first one gave. -/
theorem bind_of_ok {step : EStateM ε σ α} {f : α → EStateM ε σ β} {a : α} {s' : σ}
    (hs : step s = .ok a s') : (step >>= f) s = f a s' := by
  simp only [bind, EStateM.bind, hs]

/-- A second step is not run behind a fault. -/
theorem bind_of_error {step : EStateM ε σ α} {f : α → EStateM ε σ β} {fault : ε} {s' : σ}
    (hs : step s = .error fault s') : (step >>= f) s = .error fault s' := by
  simp only [bind, EStateM.bind, hs]

/-! ### Equations -/

@[simp] theorem ends_pure (a : α) :
    Ends (pure a : EStateM ε σ α) s onResult onFault ↔ onResult a s := Iff.rfl

@[simp] theorem ends_throw (fault : ε) :
    Ends (throw fault : EStateM ε σ α) s onResult onFault ↔ onFault fault s := Iff.rfl

@[simp] theorem ends_bind {onResult : β → σ → Prop} (step : EStateM ε σ α)
    (f : α → EStateM ε σ β) :
    Ends (step >>= f) s onResult onFault ↔
      Ends step s (fun a s' => Ends (f a) s' onResult onFault) onFault := by
  unfold Ends
  simp only [bind, EStateM.bind]
  cases step s <;> rfl

@[simp] theorem ends_map {onResult : β → σ → Prop} (step : EStateM ε σ α) (f : α → β) :
    Ends (f <$> step) s onResult onFault ↔
      Ends step s (fun a s' => onResult (f a) s') onFault := by
  unfold Ends
  simp only [Functor.map, EStateM.map]
  cases step s <;> rfl

@[simp] theorem ends_ite {p : Prop} [Decidable p] (step step' : EStateM ε σ α) :
    Ends (if p then step else step') s onResult onFault ↔
      if p then Ends step s onResult onFault else Ends step' s onResult onFault := by
  split <;> rfl

end ExprLang
