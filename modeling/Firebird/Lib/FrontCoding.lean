import Mathlib

/-! # Sorted strings that share prefixes

How long a prefix two strings have in common, and how this length behaves along sorted strings. -/

namespace Firebird.Lib
open List

variable {α : Type*} [DecidableEq α] {a b c : List α} {n : Nat}

def commonPrefix : List α → List α → Nat
  | x :: a, y :: b => if x = y then commonPrefix a b + 1 else 0
  | _, _ => 0

@[simp] theorem commonPrefix_nil_left (a : List α) : commonPrefix [] a = 0 := by
  cases a <;> rfl

@[simp] theorem commonPrefix_nil_right (a : List α) : commonPrefix a [] = 0 := by
  cases a <;> rfl

section
variable (a b : List α)

theorem commonPrefix_comm : commonPrefix a b = commonPrefix b a := by
  induction a generalizing b with
  | nil => rw [commonPrefix_nil_left, commonPrefix_nil_right]
  | cons x a ih =>
    cases b with
    | nil => rfl
    | cons y b =>
      rw [commonPrefix, commonPrefix, ih]
      by_cases h : x = y
      · rw [if_pos h, if_pos h.symm]
      · rw [if_neg h, if_neg (Ne.symm h)]

theorem commonPrefix_le_left : commonPrefix a b ≤ a.length := by
  induction a generalizing b with
  | nil => exact Nat.le_refl _
  | cons x a ih =>
    cases b with
    | nil => exact Nat.zero_le _
    | cons y b =>
      rw [commonPrefix]
      split
      · exact Nat.succ_le_succ (ih b)
      · exact Nat.zero_le _

theorem commonPrefix_le_right : commonPrefix a b ≤ b.length :=
  commonPrefix_comm a b ▸ commonPrefix_le_left b a

theorem take_commonPrefix : a.take (commonPrefix a b) = b.take (commonPrefix a b) := by
  induction a generalizing b with
  | nil => rw [commonPrefix_nil_left, take_zero, take_zero]
  | cons x a ih =>
    cases b with
    | nil => rfl
    | cons y b =>
      rw [commonPrefix]
      split
      case isTrue h => rw [take_succ_cons, take_succ_cons, ih, h]
      case isFalse => rfl

end

theorem le_commonPrefix (ha : n ≤ a.length) (hb : n ≤ b.length) (h : a.take n = b.take n) : n ≤ commonPrefix a b := by
  induction n generalizing a b with
  | zero => exact Nat.zero_le _
  | succ n ih =>
    cases a with
    | nil => exact absurd ha (Nat.not_succ_le_zero n)
    | cons x a =>
      cases b with
      | nil => exact absurd hb (Nat.not_succ_le_zero n)
      | cons y b =>
        injection h with hxy hrest
        rw [commonPrefix, if_pos hxy]
        exact Nat.succ_le_succ (ih (Nat.le_of_succ_le_succ ha) (Nat.le_of_succ_le_succ hb) hrest)

theorem take_eq_of_le (h : n ≤ commonPrefix a b) : a.take n = b.take n := by
  have htake := congrArg (take n) (take_commonPrefix a b)
  rw [take_take, take_take, Nat.min_eq_left h] at htake
  exact htake

theorem commonPrefix_drop (h : n ≤ commonPrefix a b) : n + commonPrefix (a.drop n) (b.drop n) = commonPrefix a b := by
  induction n generalizing a b with
  | zero => rw [Nat.zero_add, drop_zero, drop_zero]
  | succ n ih =>
    cases a with
    | nil => exact absurd h (Nat.not_succ_le_zero n)
    | cons x a =>
      cases b with
      | nil => exact absurd h (Nat.not_succ_le_zero n)
      | cons y b =>
        rw [commonPrefix] at h ⊢
        split at h
        case isTrue hxy =>
          rw [if_pos hxy, drop_succ_cons, drop_succ_cons, ← ih (Nat.le_of_succ_le_succ h)]
          omega
        case isFalse => exact absurd h (Nat.not_succ_le_zero n)

@[simp] theorem commonPrefix_self (a : List α) : commonPrefix a a = a.length := by
  induction a with
  | nil => rfl
  | cons x a ih => rw [commonPrefix, if_pos rfl, ih, length_cons]

/-- Lexicographic order, where a string stands before its continuations or, with `behind`, after them. -/
def StringLe [LT α] (behind : Bool) : List α → List α → Prop
  | [], b => b = [] ∨ behind = false
  | _ :: _, [] => behind = true
  | x :: a, y :: b => x < y ∨ x = y ∧ StringLe behind a b

variable {behind : Bool}

instance decidableStringLe [LT α] [DecidableLT α] : (a b : List α) → Decidable (StringLe behind a b)
  | [], b => inferInstanceAs (Decidable (b = [] ∨ behind = false))
  | _ :: _, [] => inferInstanceAs (Decidable (behind = true))
  | x :: a, y :: b =>
    have := decidableStringLe a b
    inferInstanceAs (Decidable (x < y ∨ x = y ∧ StringLe behind a b))

omit [DecidableEq α] in
theorem StringLe.refl [LT α] (a : List α) : StringLe behind a a := by
  induction a with
  | nil => exact .inl rfl
  | cons x a ih => exact .inr ⟨rfl, ih⟩

section Sorted
variable [LE α] [LT α] [Std.IsLinearOrder α] [Std.LawfulOrderLT α]

omit [DecidableEq α] in
theorem StringLe.trans (hab : StringLe behind a b) (hbc : StringLe behind b c) : StringLe behind a c := by
  induction a generalizing b c with
  | nil =>
    rcases hab with rfl | hab
    · exact hbc
    · exact .inr hab
  | cons x a ih =>
    cases b with
    | nil =>
      cases c with
      | nil => exact hab
      | cons z c => exact absurd hab (Bool.eq_false_iff.mp (hbc.resolve_left (cons_ne_nil z c)))
    | cons y b =>
      cases c with
      | nil => exact hbc
      | cons z c =>
        rcases hab with hxy | ⟨rfl, hab⟩
        · rcases hbc with hyz | ⟨rfl, -⟩
          · exact .inl (Std.lt_trans hxy hyz)
          · exact .inl hxy
        · rcases hbc with hyz | ⟨rfl, hbc⟩
          · exact .inl hyz
          · exact .inr ⟨rfl, ih hab hbc⟩

omit [DecidableEq α] in
theorem StringLe.antisymm (hab : StringLe behind a b) (hba : StringLe behind b a) : a = b := by
  induction a generalizing b with
  | nil =>
    cases b with
    | nil => rfl
    | cons y b => exact absurd hba (Bool.eq_false_iff.mp (hab.resolve_left (cons_ne_nil y b)))
  | cons x a ih =>
    cases b with
    | nil => exact absurd hab (Bool.eq_false_iff.mp (hba.resolve_left (cons_ne_nil x a)))
    | cons y b =>
      rcases hab with hxy | ⟨rfl, hab⟩
      · rcases hba with hyx | ⟨rfl, -⟩
        · exact absurd (Std.lt_trans hxy hyx) Std.lt_irrefl
        · exact absurd hxy Std.lt_irrefl
      · rcases hba with hxx | ⟨-, hba⟩
        · exact absurd hxx Std.lt_irrefl
        · rw [ih hab hba]

omit [DecidableEq α] in
theorem StringLe.total (a b : List α) : StringLe behind a b ∨ StringLe behind b a := by
  induction a generalizing b with
  | nil =>
    cases behind with
    | false => exact .inl (.inr rfl)
    | true =>
      cases b with
      | nil => exact .inl (.inl rfl)
      | cons y b => exact .inr rfl
  | cons x a ih =>
    cases b with
    | nil =>
      cases behind with
      | false => exact .inr (.inr rfl)
      | true => exact .inl rfl
    | cons y b =>
      rcases Std.lt_trichotomy x y with hxy | rfl | hyx
      · exact .inl (.inl hxy)
      · exact (ih b).imp (fun h => .inr ⟨rfl, h⟩) fun h => .inr ⟨rfl, h⟩
      · exact .inr (.inl hyx)

/-- A string between two others shares with each of them what these share. -/
theorem commonPrefix_between (hab : StringLe behind a b) (hbc : StringLe behind b c) :
    commonPrefix a c = min (commonPrefix a b) (commonPrefix b c) := by
  induction a generalizing b c with
  | nil => rw [commonPrefix_nil_left, commonPrefix_nil_left, Nat.zero_min]
  | cons x a ih =>
    cases b with
    | nil =>
      cases c with
      | nil => rw [commonPrefix_nil_right, Nat.zero_min]
      | cons z c => exact absurd hab (Bool.eq_false_iff.mp (hbc.resolve_left (cons_ne_nil z c)))
    | cons y b =>
      cases c with
      | nil => rw [commonPrefix_nil_right, commonPrefix_nil_right, Nat.min_zero]
      | cons z c =>
        rw [commonPrefix, commonPrefix, commonPrefix]
        rcases hab with hxy | ⟨rfl, hab⟩
        · have hne : x ≠ y := fun h => Std.lt_irrefl (h ▸ hxy)
          have hne' : x ≠ z := by
            rcases hbc with hyz | ⟨rfl, -⟩
            · exact fun h => Std.lt_irrefl (Std.lt_trans hxy (h ▸ hyz))
            · exact hne
          rw [if_neg hne, if_neg hne', Nat.zero_min]
        · rcases hbc with hyz | ⟨rfl, hbc⟩
          · have hne : x ≠ z := fun h => Std.lt_irrefl (h ▸ hyz)
            rw [if_neg hne, if_neg hne, Nat.min_zero]
          · rw [if_pos rfl, if_pos rfl, if_pos rfl, ih hab hbc, Nat.succ_min_succ]

end Sorted
end Firebird.Lib
