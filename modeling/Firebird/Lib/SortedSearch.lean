import Mathlib

/-! # Search by halves

The interval between two places is halved until the first place is found whose key is not below the one looked for. -/

namespace Firebird.Lib

open List

variable {α κ : Type} {low high n : Nat}

/-- The first place between the two at which `below` does not hold. -/
def bisect (below : Nat → Bool) (low high : Nat) : Nat :=
  if low < high then
    if below ((high + low) / 2) then bisect below ((high + low) / 2 + 1) high else bisect below low ((high + low) / 2)
  else low
termination_by high - low
decreasing_by all_goals omega

theorem bisect_eq {below : Nat → Bool} (hlow : low ≤ n) (hhigh : n ≤ high)
    (h : ∀ i, low ≤ i → i < high → (below i = true ↔ i < n)) : bisect below low high = n := by
  fun_induction bisect below low high with
  | case1 low high hlt hbelow ih =>
    have hmid : (high + low) / 2 < n := (h _ (by omega) (by omega)).mp hbelow
    exact ih hmid hhigh fun i hi hi' => h i (by omega) hi'
  | case2 low high hlt hbelow ih =>
    have hmid : n ≤ (high + low) / 2 := Nat.not_lt.mp fun hlt' => hbelow ((h _ (by omega) (by omega)).mpr hlt')
    exact ih hlow hmid fun i hi hi' => h i hi (by omega)
  | case3 low high hge => omega

variable [LinearOrder κ] {key : α → κ} {k : κ} {A B : List α} {d : α}

/-- The search in a row whose keys are below `k` as far as `A` goes and no longer from there on. -/
theorem bisect_append (hA : ∀ a ∈ A, key a < k) (hB : ∀ b ∈ B, k ≤ key b) :
    bisect (fun i => decide (key ((A ++ B).getD i d) < k)) 0 (A ++ B).length = A.length := by
  refine bisect_eq (Nat.zero_le _) (by rw [length_append]; exact Nat.le_add_right _ _) fun i _ hi => ?_
  rw [decide_eq_true_iff]
  constructor
  · intro hlt
    by_contra hge
    have hmem : (A ++ B).getD i d ∈ B := by
      rw [getD_append_right A B d i (Nat.not_lt.mp hge)]
      rw [length_append] at hi
      rw [getD_eq_getElem _ _ (by omega)]
      exact getElem_mem _
    exact absurd hlt (not_lt.mpr (hB _ hmem))
  · intro hlt
    rw [getD_append A B d i hlt, getD_eq_getElem _ _ hlt]
    exact hA _ (getElem_mem hlt)

/-- A row with ascending keys splits at any key: either some element has it or none does. -/
theorem exists_split (key : α → κ) (k : κ) (row : List α) (h : row.Pairwise fun a b => key a < key b) :
    (∃ A b B, row = A ++ b :: B ∧ key b = k ∧ (∀ a ∈ A, key a < k) ∧ ∀ c ∈ B, k < key c) ∨
      ∃ A B, row = A ++ B ∧ (∀ a ∈ A, key a < k) ∧ ∀ c ∈ B, k < key c := by
  induction row with
  | nil => exact .inr ⟨[], [], rfl, nofun, nofun⟩
  | cons a row ih =>
    obtain ⟨ha, hrow⟩ := pairwise_cons.mp h
    rcases lt_trichotomy (key a) k with hlt | heq | hgt
    · rcases ih hrow with ⟨A, b, B, rfl, hb, hA, hB⟩ | ⟨A, B, rfl, hA, hB⟩
      · exact .inl ⟨a :: A, b, B, rfl, hb, forall_mem_cons.mpr ⟨hlt, hA⟩, hB⟩
      · exact .inr ⟨a :: A, B, rfl, forall_mem_cons.mpr ⟨hlt, hA⟩, hB⟩
    · exact .inl ⟨[], a, row, rfl, heq, nofun, fun c hc => heq ▸ ha c hc⟩
    · exact .inr ⟨[], a :: row, rfl, nofun, forall_mem_cons.mpr ⟨hgt, fun c hc => hgt.trans (ha c hc)⟩⟩

end Firebird.Lib
