import Mathlib

/-! # Cells of a memory -/

namespace Firebird.Lib

open List

variable {α : Type*} {mem mem' : Nat → α} {a b x m n : Nat} {xs : List α}

def cells (mem : Nat → α) (a n : Nat) : List α := (List.range n).map fun i => mem (a + i)

def store (mem : Nat → α) (a : Nat) (xs : List α) : Nat → α := fun x =>
  if a ≤ x then xs[x - a]?.getD (mem x) else mem x

@[simp] theorem length_cells (mem : Nat → α) (a n : Nat) : (cells mem a n).length = n := by simp [cells]

theorem cells_add (mem : Nat → α) (a m n : Nat) : cells mem a (m + n) = cells mem a m ++ cells mem (a + m) n := by
  simp [cells, range_add, Nat.add_assoc, Function.comp_def]

theorem cells_succ (mem : Nat → α) (a n : Nat) : cells mem a (n + 1) = mem a :: cells mem (a + 1) n := by
  rw [Nat.add_comm, cells_add]
  rfl

theorem cells_congr (h : ∀ x, a ≤ x → x < a + n → mem x = mem' x) : cells mem a n = cells mem' a n := by
  refine map_congr_left fun i hi => ?_
  rw [mem_range] at hi
  exact h (a + i) (by omega) (by omega)

theorem store_of_lt (h : x < a) : store mem a xs x = mem x := by
  rw [store, if_neg (by omega)]

theorem store_of_ge (h : a + xs.length ≤ x) : store mem a xs x = mem x := by
  rw [store, getElem?_eq_none (by omega)]
  simp

theorem store_at (h : x < xs.length) : store mem a xs (a + x) = xs[x] := by
  rw [store, if_pos (by omega), Nat.add_sub_cancel_left, getElem?_eq_getElem h]
  rfl

theorem cells_store_of_disjoint (h : b + n ≤ a ∨ a + xs.length ≤ b) : cells (store mem a xs) b n = cells mem b n := by
  refine cells_congr fun x hbx hxn => ?_
  rcases h with h | h
  · exact store_of_lt (by omega)
  · exact store_of_ge (by omega)

theorem cells_store_self (mem : Nat → α) (a : Nat) (xs : List α) : cells (store mem a xs) a xs.length = xs := by
  refine ext_getElem (length_cells _ _ _) fun i hi hi' => ?_
  simp [cells, store_at hi']

section Zones

variable {κ : Type*} {zone : κ → Nat → Prop} {f : κ → (Nat → α) → Nat → α} {keys : List κ}

/-- A property of some cells. -/
def OfCells (cell : Nat → Prop) (P : (Nat → α) → Prop) : Prop :=
  ∀ mem mem' : Nat → α, (∀ x, cell x → mem' x = mem x) → P mem → P mem'

theorem foldl_zones (before after : κ → (Nat → α) → Prop)
    (hdisjoint : keys.Pairwise fun k k' => ∀ x, zone k x → ¬zone k' x)
    (hbefore : ∀ k ∈ keys, OfCells (zone k) (before k)) (hafter : ∀ k ∈ keys, OfCells (zone k) (after k))
    (hstep : ∀ k ∈ keys, ∀ mem, before k mem → after k (f k mem) ∧ ∀ x, ¬zone k x → f k mem x = mem x)
    (h : ∀ k ∈ keys, before k mem) :
    (∀ k ∈ keys, after k (keys.foldl (fun mem k => f k mem) mem)) ∧
      ∀ x, (∀ k ∈ keys, ¬zone k x) → keys.foldl (fun mem k => f k mem) mem x = mem x := by
  induction keys generalizing mem with
  | nil => exact ⟨fun k hk => absurd hk not_mem_nil, fun _ _ => rfl⟩
  | cons k keys ih =>
    obtain ⟨hfirst, hdisjoint⟩ := pairwise_cons.mp hdisjoint
    obtain ⟨hdone, houtside⟩ := hstep k mem_cons_self mem (h k mem_cons_self)
    have hrest : ∀ k' ∈ keys, before k' (f k mem) := by
      intro k' hk'
      refine hbefore k' (mem_cons_of_mem k hk') mem _ (fun x hx => houtside x fun hzone => ?_)
        (h k' (mem_cons_of_mem k hk'))
      exact hfirst k' hk' x hzone hx
    obtain ⟨hkeys, hkept⟩ := ih hdisjoint (fun k' hk' => hbefore k' (mem_cons_of_mem k hk'))
      (fun k' hk' => hafter k' (mem_cons_of_mem k hk')) (fun k' hk' => hstep k' (mem_cons_of_mem k hk')) hrest
    refine ⟨fun k' hk' => ?_, fun x hx => ?_⟩
    · rcases mem_cons.mp hk' with rfl | hk'
      · refine hafter k' mem_cons_self _ _ (fun x hx => hkept x fun k'' hk'' => ?_) hdone
        exact hfirst k'' hk'' x hx
      · exact hkeys k' hk'
    · have hlater := hkept x fun k' hk' => hx k' (mem_cons_of_mem k hk')
      exact hlater.trans (houtside x (hx k mem_cons_self))

end Zones

end Firebird.Lib
