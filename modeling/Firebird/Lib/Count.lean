import Mathlib

/-! # Counting over a finite family -/

namespace Firebird.Lib

open Function
variable {T α : Type} [Fintype T] {is : α → Bool} {f : T → α} {t : T}

def count (is : α → Bool) (f : T → α) : Nat := (Finset.univ.filter fun t => is (f t) = true).card

theorem count_congr {g : T → α} (h : ∀ t, is (f t) = is (g t)) : count is f = count is g := by
  unfold count
  simp only [h]

theorem count_eq_zero (h : ∀ t, is (f t) = false) : count is f = 0 := by
  simp [count, h]

theorem count_pos (h : is (f t) = true) : 0 < count is f := Finset.card_pos.mpr ⟨t, by simpa using h⟩

theorem eq_false_of_count (h : count is f = 0) (t : T) : is (f t) = false :=
  Bool.eq_false_iff.mpr fun ht => (count_pos ht).ne' h

theorem eq_of_count_le_one (h : count is f ≤ 1) {u : T} (ht : is (f t) = true) (hu : is (f u) = true) : u = t :=
  Finset.card_le_one.mp h u (by simpa using hu) t (by simpa using ht)

theorem count_lt (h : is (f t) = false) : count is f < Fintype.card T :=
  Finset.card_lt_univ_of_notMem (x := t) (by simp [h])

theorem count_update [DecidableEq T] (t : T) (a : α) :
    count is (update f t a) + (is (f t)).toNat = count is f + (is a).toNat := by
  have hsum : ∀ g : T → α, count is g = (is (g t)).toNat + ∑ u ∈ Finset.univ.erase t, (is (g u)).toNat := by
    intro g
    unfold count
    rw [Finset.card_filter, Finset.add_sum_erase _ (fun u => (is (g u)).toNat) (Finset.mem_univ t)]
    refine Finset.sum_congr rfl fun u _ => ?_
    cases is (g u) <;> rfl
  have hrest : ∑ u ∈ Finset.univ.erase t, (is (update f t a u)).toNat =
      ∑ u ∈ Finset.univ.erase t, (is (f u)).toNat :=
    Finset.sum_congr rfl fun u hu => by rw [update_of_ne (Finset.ne_of_mem_erase hu)]
  rw [hsum, hsum f, update_self]
  omega

end Firebird.Lib
