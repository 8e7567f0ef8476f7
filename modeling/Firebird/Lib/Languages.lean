import Mathlib

/-! # Languages of words by their length

What is said of words of any letters: `exactly n` of them, or `atLeast n`. -/

namespace Firebird.Lib

variable {α : Type*} {L : Language α} {u w : List α} {m n : Nat}

def exactly (n : Nat) : Language α := {w | w.length = n}

def atLeast (n : Nat) : Language α := {w | n ≤ w.length}

@[simp] theorem mem_exactly : w ∈ (exactly n : Language α) ↔ w.length = n := Iff.rfl

@[simp] theorem mem_atLeast : w ∈ (atLeast n : Language α) ↔ n ≤ w.length := Iff.rfl

@[simp] theorem mem_anything : w ∈ (⊤ : Language α) := trivial

theorem mem_singleton_mul : w ∈ ({u} : Language α) * L ↔ ∃ v ∈ L, u ++ v = w := by
  exact ⟨fun ⟨u', hu', v, hv, heq⟩ => ⟨v, hv, (show u' = u from hu') ▸ heq⟩, fun ⟨v, hv, heq⟩ => ⟨u, rfl, v, hv, heq⟩⟩

theorem mem_top_mul : w ∈ ⊤ * L ↔ ∃ u, ∃ v ∈ L, u ++ v = w := by
  exact ⟨fun ⟨u, _, v, hv, heq⟩ => ⟨u, v, hv, heq⟩, fun ⟨u, v, hv, heq⟩ => ⟨u, mem_anything, v, hv, heq⟩⟩

theorem singleton_mul_singleton {v : List α} : ({u} : Language α) * {v} = {u ++ v} := by
  ext w
  rw [mem_singleton_mul]
  constructor
  · rintro ⟨v', hv', rfl⟩
    obtain rfl : v' = v := hv'
    rfl
  · intro hw
    exact ⟨v, rfl, (show w = u ++ v from hw).symm⟩

theorem exactly_zero : (exactly 0 : Language α) = 1 := by
  ext w
  simp

theorem atLeast_zero : (atLeast 0 : Language α) = ⊤ := by
  ext w
  simp

theorem exactly_mul : (exactly m : Language α) * exactly n = exactly (m + n) := by
  ext w
  rw [Language.mem_mul]
  constructor
  · rintro ⟨u, hu, v, hv, rfl⟩
    simp_all
  · intro hw
    rw [mem_exactly] at hw
    exact ⟨w.take m, by simp [hw], w.drop m, by simp [hw], List.take_append_drop m w⟩

theorem atLeast_mul : (atLeast m : Language α) * exactly n = atLeast (m + n) := by
  ext w
  rw [Language.mem_mul]
  constructor
  · rintro ⟨u, hu, v, hv, rfl⟩
    simp_all
  · intro hw
    rw [mem_atLeast] at hw
    exact ⟨w.take (w.length - n), by simp; omega, w.drop (w.length - n), by simp; omega, List.take_append_drop _ w⟩

theorem exactly_mul_top : (exactly n : Language α) * ⊤ = atLeast n := by
  ext w
  rw [Language.mem_mul]
  constructor
  · rintro ⟨u, hu, v, _, rfl⟩
    rw [mem_exactly] at hu
    simp [hu]
  · intro hw
    rw [mem_atLeast] at hw
    exact ⟨w.take n, by simp [hw], w.drop n, mem_anything, List.take_append_drop n w⟩

@[simp] theorem top_mul_top : (⊤ : Language α) * ⊤ = ⊤ := by
  ext w
  rw [mem_top_mul]
  exact ⟨fun _ => mem_anything, fun _ => ⟨[], w, mem_anything, rfl⟩⟩

theorem atLeast_mul_top : (atLeast n : Language α) * ⊤ = atLeast n := by
  rw [← exactly_mul_top, mul_assoc, top_mul_top]

theorem append_mem_top_mul (h : w ∈ ⊤ * L) : u ++ w ∈ ⊤ * L := by
  rw [mem_top_mul] at h ⊢
  obtain ⟨u', v, hv, rfl⟩ := h
  exact ⟨u ++ u', v, hv, List.append_assoc u u' v⟩

end Firebird.Lib
