import Mathlib.Init

/-!
# Run — computations that may fail

Sequencing of computations on a state, read forwards from the result of the first part and backwards
from the result of the whole, and two ways to say how a computation ends.

* `Finishes` : with a result that has a property, or with a failure that is allowed
* `Ensures`  : in a state that has a property, and so has the result if there is one
-/

namespace Codegen

variable {ε σ α β : Type}

theorem run_bind_of_ok {x : EStateM ε σ α} {f : α → EStateM ε σ β} {s s₁ : σ} {a : α}
    (h : x.run s = .ok a s₁) : (x >>= f).run s = (f a).run s₁ := by
  rw [EStateM.run_bind, h]

theorem run_bind_of_error {x : EStateM ε σ α} {f : α → EStateM ε σ β} {s s₁ : σ} {e : ε}
    (h : x.run s = .error e s₁) : (x >>= f).run s = .error e s₁ := by
  rw [EStateM.run_bind, h]

theorem run_bind_eq_ok {x : EStateM ε σ α} {f : α → EStateM ε σ β} {s s' : σ} {b : β} :
    (x >>= f).run s = .ok b s' ↔ ∃ a s₁, x.run s = .ok a s₁ ∧ (f a).run s₁ = .ok b s' := by
  rw [EStateM.run_bind]
  cases x.run s with
  | ok a s₁ =>
      constructor
      · intro h
        exact ⟨a, s₁, rfl, h⟩
      · rintro ⟨a', s', heq, h⟩
        cases heq
        exact h
  | error e s₁ => simp

/-- The state in which a run ends that succeeds. -/
def endState? : EStateM.Result ε σ α → Option σ
  | .ok _ s => some s
  | .error _ _ => none

/-- The value of a run that succeeds. -/
def endValue? : EStateM.Result ε σ α → Option α
  | .ok v _ => some v
  | .error _ _ => none

/-! ## How runs finish -/

/-- A run finishes with a result that has the property `Q`, or with a failure that is allowed. -/
def Finishes (allowed : ε → Prop) (Q : α → σ → Prop) : EStateM.Result ε σ α → Prop
  | .ok v s => Q v s
  | .error f _ => allowed f

namespace Finishes

variable {allowed : ε → Prop} {Q : α → σ → Prop} {Q' : β → σ → Prop} {x : EStateM ε σ α}
  {f : α → EStateM ε σ β} {s : σ} {result : EStateM.Result ε σ α}

theorem bind (hx : Finishes allowed Q (x.run s))
    (hf : ∀ v s₁, Q v s₁ → Finishes allowed Q' ((f v).run s₁)) :
    Finishes allowed Q' ((x >>= f).run s) := by
  rw [EStateM.run_bind]
  cases hrun : x.run s with
  | ok v s₁ =>
      rw [hrun] at hx
      exact hf v s₁ hx
  | error e s₁ =>
      rw [hrun] at hx
      exact hx

theorem mono {P : α → σ → Prop} (h : Finishes allowed Q result) (hQ : ∀ v s, Q v s → P v s) :
    Finishes allowed P result := by
  cases result with
  | ok v s => exact hQ v s h
  | error f s => exact h

/-- The result is the one of the run. -/
theorem attach (h : Finishes allowed Q result) :
    Finishes allowed (fun v s => result = .ok v s ∧ Q v s) result := by
  cases result with
  | ok v s => exact ⟨rfl, h⟩
  | error f s => exact h

/-- A run that must not fail succeeds. -/
theorem exists_ok (h : Finishes (fun _ => False) Q result) : ∃ v s, result = .ok v s ∧ Q v s := by
  cases result with
  | ok v s => exact ⟨v, s, rfl, h⟩
  | error f s => exact h.elim

end Finishes

/-! ## What runs ensure -/

/-- A run ends in a state that has the property `P`, and its result, if it has one, has `Q`. -/
def Ensures (P : σ → Prop) (Q : α → σ → Prop) : EStateM.Result ε σ α → Prop
  | .ok v s => P s ∧ Q v s
  | .error _ s => P s

namespace Ensures

variable {P P' : σ → Prop} {Q : α → σ → Prop} {Q' : β → σ → Prop} {x : EStateM ε σ α}
  {f : α → EStateM ε σ β} {s : σ} {result : EStateM.Result ε σ α}

theorem mono {K : α → σ → Prop} (h : Ensures P Q result) (hP : ∀ s', P s' → P' s')
    (hQ : ∀ v s', P s' → Q v s' → K v s') : Ensures P' K result := by
  cases result with
  | ok v s' => exact ⟨hP s' h.1, hQ v s' h.1 h.2⟩
  | error e s' => exact hP s' h

theorem bind (hx : Ensures P Q (x.run s))
    (hf : ∀ v s₁, P s₁ → Q v s₁ → Ensures P Q' ((f v).run s₁)) :
    Ensures P Q' ((x >>= f).run s) := by
  rw [EStateM.run_bind]
  cases hrun : x.run s with
  | ok v s₁ =>
      rw [hrun] at hx
      exact hf v s₁ hx.1 hx.2
  | error e s₁ =>
      rw [hrun] at hx
      exact hx

/-- A first part that only reads leaves the state to the rest. -/
theorem read (hx : Ensures (· = s) Q (x.run s)) (hs : P s)
    (hf : ∀ v, Q v s → Ensures P Q' ((f v).run s)) : Ensures P Q' ((x >>= f).run s) := by
  rw [EStateM.run_bind]
  cases hrun : x.run s with
  | ok v s₁ =>
      rw [hrun] at hx
      rcases hx with ⟨rfl, hv⟩
      exact hf v hv
  | error e s₁ =>
      rw [hrun] at hx
      cases hx
      exact hs

end Ensures

end Codegen
