import Mathlib
/-! # Specifications of computations with a state and errors

`Triple P x Q E`: from a state that meets `P`, the computation `x` returns with `Q`, or raises an error with `E`. -/

namespace Firebird.Lib

variable {ε σ α β : Type} {P P' : σ → Prop} {Q Q' : α → σ → Prop} {E E' : ε → σ → Prop} {x : EStateM ε σ α}

def Ends (Q : α → σ → Prop) (E : ε → σ → Prop) : EStateM.Result ε σ α → Prop
  | .ok a s => Q a s
  | .error e s => E e s

def Triple (P : σ → Prop) (x : EStateM ε σ α) (Q : α → σ → Prop) (E : ε → σ → Prop) : Prop := ∀ s, P s → Ends Q E (x s)

theorem Ends.weaken {result : EStateM.Result ε σ α} (h : Ends Q E result) (hQ : ∀ a s, Q a s → Q' a s)
    (hE : ∀ e s, E e s → E' e s) : Ends Q' E' result := by
  cases result with
  | ok a s => exact hQ a s h
  | error e s => exact hE e s h

namespace Triple

theorem weaken (h : Triple P x Q E) (hP : ∀ s, P' s → P s) (hQ : ∀ a s, Q a s → Q' a s) (hE : ∀ e s, E e s → E' e s) :
    Triple P' x Q' E' := fun s hs => (h s (hP s hs)).weaken hQ hE

theorem post (h : Triple P x Q E) (hQ : ∀ a s, Q a s → Q' a s) : Triple P x Q' E :=
  h.weaken (fun _ => id) hQ fun _ _ => id

theorem pure {a : α} (h : ∀ s, P s → Q a s) : Triple P (Pure.pure a) Q (E : ε → σ → Prop) := fun s hs => h s hs

theorem raise {e : ε} (h : ∀ s, P s → E e s) : Triple P (throw e) Q E := fun s hs => h s hs

theorem bind {R : β → σ → Prop} {f : α → EStateM ε σ β} (hx : Triple P x Q E) (hf : ∀ a, Triple (Q a) (f a) R E) :
    Triple P (x >>= f) R E := by
  intro s hs
  have hfirst := hx s hs
  show Ends R E (EStateM.bind x f s)
  unfold EStateM.bind
  cases hrun : x s with
  | ok a t =>
    rw [hrun] at hfirst
    exact hf a t hfirst
  | error e t =>
    rw [hrun] at hfirst
    exact hfirst

theorem seq {R : β → σ → Prop} {P₁ : σ → Prop} {y : EStateM ε σ β} (hx : Triple P x (fun _ => P₁) E)
    (hy : Triple P₁ y R E) : Triple P (x >>= fun _ => y) R E := hx.bind fun _ => hy

theorem assume {p : Prop} (h : p → Triple P x Q E) : Triple (fun s => p ∧ P s) x Q E := fun s hs => h hs.1 s hs.2

theorem choose {ι : Type} {P : ι → σ → Prop} (h : ∀ i, Triple (P i) x Q E) : Triple (fun s => ∃ i, P i s) x Q E :=
  fun s ⟨i, hs⟩ => h i s hs

theorem ite {c : Prop} [Decidable c] {y : EStateM ε σ α} (hx : c → Triple P x Q E) (hy : ¬ c → Triple P y Q E) :
    Triple P (if c then x else y) Q E := by
  split
  case isTrue h => exact hx h
  case isFalse h => exact hy h

/-- An error handler starts from the state in which the error was raised. -/
theorem tryCatch {handle : ε → EStateM ε σ α} (hx : Triple P x Q E') (hhandle : ∀ e, Triple (E' e) (handle e) Q E) :
    Triple P (MonadExcept.tryCatch x handle) Q E := by
  intro s hs
  have h := hx s hs
  show Ends Q E (EStateM.tryCatch x handle s)
  unfold EStateM.tryCatch
  cases hrun : x s with
  | ok a t =>
    rw [hrun] at h
    exact h
  | error e t =>
    rw [hrun] at h
    exact hhandle e t h

end Triple
end Firebird.Lib
