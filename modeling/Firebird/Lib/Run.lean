import Mathlib

/-! # Runs of a transition system

A step relation `step s a t` says that operation `a` may lead from `s` to `t`. A run is a list of
operations done one after another; what every step keeps, a run keeps. -/

namespace Firebird.Lib

variable {σ α : Type*}

/-- The operations `as`, one after another, lead from the first state to the second. -/
inductive Run (step : σ → α → σ → Prop) : σ → List α → σ → Prop
  | nil (s : σ) : Run step s [] s
  | cons {s t u : σ} {a : α} {as : List α} : step s a t → Run step t as u → Run step s (a :: as) u

namespace Run
variable {step step' : σ → α → σ → Prop} {s t u : σ} {a : α} {as bs : List α}

theorem single (h : step s a t) : Run step s [a] t := .cons h (.nil t)

theorem append (h₁ : Run step s as t) (h₂ : Run step t bs u) : Run step s (as ++ bs) u := by
  induction h₁ with
  | nil => exact h₂
  | cons hs _ ih => exact .cons hs (ih h₂)

theorem invariant {I : σ → Prop} (keep : ∀ s a t, I s → step s a t → I t) (h : Run step s as t) (hs : I s) : I t := by
  induction h with
  | nil => exact hs
  | cons hstep _ ih => exact ih (keep _ _ _ hs hstep)

/-- A relation kept from the start of a run while an invariant holds. -/
theorem rel_of_invariant {I : σ → Prop} {R : σ → σ → Prop} (refl : ∀ s, R s s)
    (trans : ∀ {s t u}, R s t → R t u → R s u) (keep : ∀ s a t, I s → step s a t → I t ∧ R s t)
    (h : Run step s as t) (hs : I s) : R s t := by
  induction h with
  | nil s => exact refl s
  | cons hstep _ ih =>
    obtain ⟨ht, hr⟩ := keep _ _ _ hs hstep
    exact trans hr (ih ht)

theorem mono (h : ∀ s a t, step s a t → step' s a t) (hr : Run step s as t) : Run step' s as t := by
  induction hr with
  | nil s => exact .nil s
  | cons hs _ ih => exact .cons (h _ _ _ hs) ih

end Run

/-- `exec` as a step relation: an operation allowed in the first state succeeds and leads to the second. -/
def Steps {ε : Type*} (allowed : σ → α → Prop) (exec : σ → α → Except ε σ) (s : σ) (a : α) (t : σ) : Prop :=
  allowed s a ∧ exec s a = .ok t

/-- `exec` as a step relation: an operation allowed in the first state leads to the second. -/
def Does (allowed : σ → α → Prop) (exec : σ → α → σ) (s : σ) (a : α) (t : σ) : Prop :=
  allowed s a ∧ t = exec s a

/-- Every operation of the list is allowed when its turn comes. -/
def AllAllowed (allowed : σ → α → Prop) (exec : σ → α → σ) : σ → List α → Prop
  | _, [] => True
  | s, a :: as => allowed s a ∧ AllAllowed allowed exec (exec s a) as

instance AllAllowed.decidable (allowed : σ → α → Prop) [∀ s a, Decidable (allowed s a)] (exec : σ → α → σ) :
    ∀ s as, Decidable (AllAllowed allowed exec s as)
  | _, [] => isTrue trivial
  | s, a :: as =>
    have := AllAllowed.decidable allowed exec (exec s a) as
    inferInstanceAs (Decidable (allowed s a ∧ AllAllowed allowed exec (exec s a) as))

theorem run_of_allAllowed {allowed : σ → α → Prop} {exec : σ → α → σ} {s : σ} {as : List α}
    (h : AllAllowed allowed exec s as) : Run (Does allowed exec) s as (as.foldl exec s) := by
  induction as generalizing s with
  | nil => exact .nil s
  | cons a as ih => exact .cons ⟨h.1, rfl⟩ (ih h.2)

def execAll {ε : Type*} (exec : σ → α → Except ε σ) : σ → List α → Except ε σ
  | s, [] => .ok s
  | s, a :: as =>
    match exec s a with
    | .ok t => execAll exec t as
    | .error e => .error e

variable {ε : Type*} {allowed : σ → α → Prop} {exec : σ → α → Except ε σ} {s t : σ}

theorem eq_ok_of_toOption {r : Except ε σ} (h : r.toOption = some s) : r = .ok s := by
  cases r with
  | error e => cases h
  | ok t =>
    cases h
    rfl

theorem run_of_execAll {as : List α} (hall : ∀ a ∈ as, ∀ s, allowed s a) (h : execAll exec s as = .ok t) :
    Run (Steps allowed exec) s as t := by
  induction as generalizing s with
  | nil =>
    cases h
    exact .nil _
  | cons a as ih =>
    rw [List.forall_mem_cons] at hall
    cases hs : exec s a with
    | error e =>
      rw [execAll, hs] at h
      cases h
    | ok u =>
      rw [execAll, hs] at h
      exact .cons ⟨hall.1 s, hs⟩ (ih hall.2 h)

theorem exists_run_of_execAll (exec : σ → α → Except ε σ) (s : σ) (as : List α) (p : σ → Bool)
    (hall : ∀ a ∈ as, ∀ s, allowed s a)
    (h : (execAll exec s as).toOption.any p = true) : ∃ t, Run (Steps allowed exec) s as t ∧ p t = true := by
  cases he : execAll exec s as with
  | error e =>
    rw [he] at h
    cases h
  | ok t =>
    rw [he] at h
    exact ⟨t, run_of_execAll hall he, h⟩

end Firebird.Lib
