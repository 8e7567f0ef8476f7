import Firebird.Lib.FrontCoding
import Firebird.Lib.Stuffing
import Firebird.Lib.Wire

/-! # The order of byte strings

Strings compared with padding, strings of complemented bytes, and numbers of a fixed size with the highest byte first.
-/

namespace Firebird.Lib

open Function List

variable {α : Type*} {a b : List α} {x y pad : α}

def compareRest [Ord α] (pad : α) : List α → Ordering
  | [] => .eq
  | x :: a => (compare x pad).then (compareRest pad a)

def comparePadded [Ord α] (pad : α) : List α → List α → Ordering
  | [], b => (compareRest pad b).swap
  | a, [] => compareRest pad a
  | x :: a, y :: b => (compare x y).then (comparePadded pad a b)

theorem comparePadded_of_length_eq [Ord α] (pad : α) (h : a.length = b.length) :
    comparePadded pad a b = compare a b := by
  induction a generalizing b with
  | nil =>
    rw [length_eq_zero_iff.mp h.symm]
    rfl
  | cons x a ih =>
    cases b with
    | nil => exact nomatch h
    | cons y b => rw [comparePadded, ih (Nat.succ.inj h), List.compare_cons_cons]

section Stripped
variable [DecidableEq α]

def stripped (pad : α) (l : List α) : List α := l.rdropWhile (· == pad)

@[simp] theorem stripped_nil (pad : α) : stripped pad [] = [] := rfl

theorem stripped_cons (pad x : α) (a : List α) :
    stripped pad (x :: a) = if x = pad ∧ stripped pad a = [] then [] else x :: stripped pad a := by
  unfold stripped rdropWhile
  rw [reverse_cons, dropWhile_append]
  by_cases hrest : dropWhile (· == pad) a.reverse = []
  · by_cases hx : x = pad
    all_goals simp [hrest, hx]
  · simp [hrest]

theorem stripped_cons_of_ne (h : x ≠ pad) (a : List α) : stripped pad (x :: a) = x :: stripped pad a := by
  rw [stripped_cons, if_neg fun hboth => h hboth.1]

variable [Ord α] [Std.OrientedOrd α] [Std.LawfulEqOrd α]

omit [DecidableEq α] [Std.OrientedOrd α] in
theorem compare_pad (hpad : Least pad) (h : ¬(x = pad ∧ a = [])) : (compare pad x).then (compare [] a) = .lt := by
  rcases hpad x with hlt | heq
  · rw [hlt]
    rfl
  · obtain ⟨y, rest, rfl⟩ := exists_cons_of_ne_nil fun ha => h ⟨(Std.LawfulEqCmp.eq_of_compare heq).symm, ha⟩
    rw [heq]
    rfl

theorem compare_stripped_cons (hpad : Least pad) (x y : α) (a b : List α) :
    compare (stripped pad (x :: a)) (stripped pad (y :: b)) = (compare x y).then
    (compare (stripped pad a) (stripped pad b)) := by
  rw [stripped_cons, stripped_cons]
  by_cases ha : x = pad ∧ stripped pad a = []
  · rw [if_pos ha, ha.1, ha.2]
    by_cases hb : y = pad ∧ stripped pad b = []
    · rw [if_pos hb, hb.1, hb.2]
      show Ordering.eq = (compare pad pad).then Ordering.eq
      rw [compare_refl]
      rfl
    · rw [if_neg hb, compare_pad hpad hb]
      rfl
  · rw [if_neg ha]
    by_cases hb : y = pad ∧ stripped pad b = []
    · rw [if_pos hb, hb.1, hb.2, compare_swap x, compare_swap (stripped pad a),
        ← Ordering.swap_then, compare_pad hpad ha]
      rfl
    · rw [if_neg hb, List.compare_cons_cons]

theorem compareRest_eq (hpad : Least pad) (a : List α) : compareRest pad a = compare (stripped pad a) [] := by
  induction a with
  | nil => rfl
  | cons x a ih =>
    have hcons := compare_stripped_cons hpad x pad a []
    rw [stripped_cons pad pad [], if_pos ⟨rfl, stripped_nil pad⟩, stripped_nil] at hcons
    rw [compareRest, ih, hcons]

/-- Padding with the least element compares what is left without it. -/
theorem comparePadded_eq (hpad : Least pad) (a b : List α) :
    comparePadded pad a b = compare (stripped pad a) (stripped pad b) := by
  induction a generalizing b with
  | nil => rw [comparePadded, compareRest_eq hpad, stripped_nil, ← compare_swap]
  | cons x a ih =>
    cases b with
    | nil =>
      rw [comparePadded, compareRest_eq hpad, stripped_nil]
      exact cons_ne_nil x a
    | cons y b => rw [comparePadded, ih, compare_stripped_cons hpad]

end Stripped

/-- A map that turns the order of elements around turns that of strings around, and where a string stands among its
    continuations. -/
theorem stringLe_map_iff [LT α] {f : α → α} (hlt : ∀ x y, f x < f y ↔ y < x) (hf : Injective f) (a b : List α) :
    StringLe true (a.map f) (b.map f) ↔ StringLe false b a := by
  induction a generalizing b with
  | nil =>
    cases b with
    | nil => exact ⟨fun _ => .inl rfl, fun _ => .inl rfl⟩
    | cons y b => exact iff_of_false (by simp [StringLe]) (by simp [StringLe])
  | cons x a ih =>
    cases b with
    | nil => exact ⟨fun _ => .inr rfl, fun _ => rfl⟩
    | cons y b =>
      show f x < f y ∨ f x = f y ∧ StringLe true (a.map f) (b.map f) ↔ y < x ∨ y = x ∧ StringLe false b a
      rw [hlt, hf.eq_iff, ih, eq_comm]

theorem stringLe_false_iff [LT α] [LE α] [Ord α] [Std.LawfulOrderOrd α] [Std.IsLinearOrder α] [Std.LawfulOrderLT α]
    (a b : List α) : StringLe false a b ↔ compare a b ≠ .gt := by
  induction a generalizing b with
  | nil =>
    cases b with
    | nil => exact iff_of_true (.inl rfl) nofun
    | cons y b => exact iff_of_true (.inr rfl) nofun
  | cons x a ih =>
    cases b with
    | nil => exact iff_of_false nofun (· rfl)
    | cons y b =>
      show x < y ∨ x = y ∧ StringLe false a b ↔ _
      rw [ih, List.compare_cons_cons]
      cases hxy : compare x y with
      | lt => exact iff_of_true (.inl (Std.compare_eq_lt.mp hxy)) nofun
      | eq =>
        obtain rfl : x = y := Std.LawfulEqCmp.eq_of_compare hxy
        exact ⟨fun h => h.elim (fun hlt => absurd hlt Std.lt_irrefl) (·.2), fun h => .inr ⟨rfl, h⟩⟩
      | gt =>
        have hlt : y < x := Std.compare_eq_gt.mp hxy
        refine iff_of_false (fun h => ?_) (· rfl)
        rcases h with h | ⟨rfl, -⟩
        · exact Std.lt_irrefl (Std.lt_trans h hlt)
        · exact Std.lt_irrefl hlt

theorem toNat_complement (x : UInt8) : (~~~x).toNat = 255 - x.toNat := UInt8.toNat_not x

theorem complement_lt_iff (x y : UInt8) : ~~~x < ~~~y ↔ y < x := by
  have hx := x.toNat_lt
  rw [UInt8.lt_iff_toNat_lt, UInt8.lt_iff_toNat_lt, toNat_complement, toNat_complement]
  omega

theorem complement_injective : Injective fun x : UInt8 => ~~~x := fun x y h => by
  have hx := x.toNat_lt
  have hy := y.toNat_lt
  have hvalue := congrArg UInt8.toNat h
  rw [toNat_complement, toNat_complement] at hvalue
  exact UInt8.toNat_inj.mp (by omega)

/-- The number that these bytes stand for, the highest one first. -/
def beValue : List UInt8 → Nat
  | [] => 0
  | x :: l => x.toNat * 256 ^ l.length + beValue l

theorem beValue_lt (l : List UInt8) : beValue l < 256 ^ l.length := by
  induction l with
  | nil => exact Nat.one_pos
  | cons x l ih =>
    have hx := x.toNat_lt
    calc x.toNat * 256 ^ l.length + beValue l < (x.toNat + 1) * 256 ^ l.length := by
          rw [Nat.succ_mul]
          exact Nat.add_lt_add_left ih _
      _ ≤ 256 * 256 ^ l.length := Nat.mul_le_mul_right _ hx
      _ = 256 ^ (x :: l).length := by rw [length_cons, Nat.pow_succ']

theorem beValue_append (l : List UInt8) (x : UInt8) : beValue (l ++ [x]) = beValue l * 256 + x.toNat := by
  induction l with
  | nil => simp [beValue]
  | cons y l ih =>
    rw [cons_append, beValue, ih, beValue, length_append, length_singleton]
    ring

theorem beValue_reverse (l : List UInt8) : beValue l.reverse = leValue l := by
  induction l with
  | nil => rfl
  | cons x l ih => rw [reverse_cons, beValue_append, ih, leValue, Nat.mul_comm, Nat.add_comm]

/-- Of two numbers the higher digits decide. -/
theorem compare_digits {m n r r' base : Nat} (hr : r < base) (hr' : r' < base) :
    compare (m * base + r) (n * base + r') = (compare m n).then (compare r r') := by
  have hless : ∀ {m n r r' : Nat}, r < base → m < n → m * base + r < n * base + r' := by
    intro m n r r' hr hmn
    calc m * base + r < (m + 1) * base := by
          rw [Nat.succ_mul]
          exact Nat.add_lt_add_left hr _
      _ ≤ n * base := Nat.mul_le_mul_right _ hmn
      _ ≤ n * base + r' := Nat.le_add_right ..
  cases hmn : compare m n with
  | lt => exact Std.compare_eq_lt.mpr (hless hr (Std.compare_eq_lt.mp hmn))
  | eq =>
    obtain rfl : m = n := Std.LawfulEqCmp.eq_of_compare hmn
    rw [Ordering.then]
    cases hrest : compare r r' with
    | lt => exact Std.compare_eq_lt.mpr (Nat.add_lt_add_left (Std.compare_eq_lt.mp hrest) _)
    | eq => rw [show r = r' from Std.LawfulEqCmp.eq_of_compare hrest, compare_refl]
    | gt => exact Std.compare_eq_gt.mpr (Nat.add_lt_add_left (Std.compare_eq_gt.mp hrest) _)
  | gt => exact Std.compare_eq_gt.mpr (hless hr' (Std.compare_eq_gt.mp hmn))

theorem compare_toNat (x y : UInt8) : compare x y = compare x.toNat y.toNat := by
  cases hxy : compare x y with
  | lt => exact (Std.compare_eq_lt.mpr (UInt8.lt_iff_toNat_lt.mp (Std.compare_eq_lt.mp hxy))).symm
  | eq => rw [show x = y from Std.LawfulEqCmp.eq_of_compare hxy, compare_refl]
  | gt => exact (Std.compare_eq_gt.mpr (UInt8.lt_iff_toNat_lt.mp (Std.compare_eq_gt.mp hxy))).symm

theorem compare_beValue {l l' : List UInt8} (h : l.length = l'.length) : compare l l' = compare (beValue l)
    (beValue l') := by
  induction l generalizing l' with
  | nil =>
    obtain rfl := length_eq_zero_iff.mp h.symm
    rfl
  | cons x l ih =>
    cases l' with
    | nil => exact nomatch h
    | cons y l' =>
      have hlength : l.length = l'.length := Nat.succ.inj h
      have hlt := beValue_lt l
      rw [hlength] at hlt
      rw [List.compare_cons_cons, ih hlength, beValue, beValue, hlength, compare_digits hlt
        (beValue_lt l'), compare_toNat]

theorem toNat_xor_128 (byte : UInt8) :
    (byte ^^^ 128).toNat = if byte.toNat < 128 then byte.toNat + 128 else byte.toNat - 128 := by
  have hall : ∀ n < 256, n ^^^ 128 = if n < 128 then n + 128 else n - 128 := by decide +kernel
  exact hall byte.toNat byte.toNat_lt

theorem compare_natCast (m n : Nat) : compare (m : Int) (n : Int) = compare m n := by
  cases hmn : compare m n with
  | lt => exact Std.compare_eq_lt.mpr (Int.ofNat_lt.mpr (Std.compare_eq_lt.mp hmn))
  | eq => rw [show m = n from Std.LawfulEqCmp.eq_of_compare hmn, compare_refl]
  | gt => exact Std.compare_eq_gt.mpr (Int.ofNat_lt.mpr (Std.compare_eq_gt.mp hmn))

end Firebird.Lib
