import Mathlib
/-! # Loops with fuel

A computation that is given fuel and has no result when it runs out. `Returns` says that it has the same
result with any fuel from some amount on. -/

namespace Firebird.Lib

universe u v

variable {ρ : Type u} {τ : Type v} {run run' : Nat → Option ρ} {P P' : ρ → Prop} {Q : τ → Prop}

/-- Enough fuel gives a result, and it satisfies `P`. -/
def Returns (run : Nat → Option ρ) (P : ρ → Prop) : Prop :=
  ∃ n result, (∀ fuel, n ≤ fuel → run fuel = some result) ∧ P result

namespace Returns

theorem pure {result : ρ} (h : P result) : Returns (fun _ => some result) P := ⟨0, result, fun _ _ => rfl, h⟩

section
variable (h : Returns run P)
include h

theorem mono (hle : ∀ result, P result → P' result) : Returns run P' := by
  obtain ⟨n, result, hrun, hresult⟩ := h
  exact ⟨n, result, hrun, hle result hresult⟩

theorem congr (heq : ∀ fuel, run' fuel = run fuel) : Returns run' P := by
  obtain ⟨n, result, hrun, hresult⟩ := h
  exact ⟨n, result, fun fuel hfuel => (heq fuel).trans (hrun fuel hfuel), hresult⟩

theorem succ (heq : ∀ fuel, run' (fuel + 1) = run fuel) : Returns run' P := by
  obtain ⟨n, result, hrun, hresult⟩ := h
  refine ⟨n + 1, result, fun fuel hfuel => ?_, hresult⟩
  obtain ⟨fuel, rfl⟩ := Nat.exists_eq_add_of_le' (Nat.le_of_add_left_le hfuel)
  exact (heq fuel).trans (hrun fuel (by omega))

/-- One computation after another, on the same fuel. -/
theorem bind {next : Nat → ρ → Option τ}
    (hnext : ∀ result, P result → Returns (fun fuel => next fuel result) Q) :
    Returns (fun fuel => (run fuel).bind (next fuel)) Q := by
  obtain ⟨n, result, hrun, hresult⟩ := h
  obtain ⟨n', result', hrun', hresult'⟩ := hnext result hresult
  refine ⟨max n n', result', fun fuel hfuel => ?_, hresult'⟩
  simp only [hrun fuel (by omega), Option.bind_some]
  exact hrun' fuel (by omega)

end

end Returns

end Firebird.Lib
