import Firebird.Lib.ByteOrder

/-! # Byte strings as longwords

A byte string read as unsigned longwords, the lowest byte first, is compared as the string with every group of four
bytes turned around. -/

namespace Firebird.Lib
open List

variable {α : Type*} {a b a' b' : List α}

/-- Every group of four is turned around. -/
def swapEach : List α → List α
  | a :: b :: c :: d :: rest => d :: c :: b :: a :: swapEach rest
  | rest => rest

def longwords : List UInt8 → List Nat
  | a :: b :: c :: d :: rest => leValue [a, b, c, d] :: longwords rest
  | _ => []

theorem fours_induction {motive : (l : List α) → 4 ∣ l.length → Prop} (nil : motive [] (Nat.dvd_zero 4))
    (four : ∀ a b c d rest (h : 4 ∣ rest.length), motive rest h →
      motive (a :: b :: c :: d :: rest) (by simpa using h)) :
    ∀ (l : List α) (h : 4 ∣ l.length), motive l h
  | [], _ => nil
  | [_], h | [_, _], h | [_, _, _], h => absurd h (by simp)
  | a :: b :: c :: d :: rest, h => four a b c d rest (by simpa using h)
      (fours_induction nil four rest (by simpa using h))

@[simp] theorem length_swapEach (l : List α) : (swapEach l).length = l.length := by
  fun_induction swapEach l with
  | case1 a b c d rest ih => simp [ih]
  | case2 => rfl

@[simp] theorem swapEach_swapEach (l : List α) : swapEach (swapEach l) = l := by
  fun_induction swapEach l with
  | case1 a b c d rest ih => simp [swapEach, ih]
  | case2 rest h => simp [swapEach]

theorem swapEach_append (h : 4 ∣ a.length) (b : List α) : swapEach (a ++ b) = swapEach a ++ swapEach b := by
  induction a, h using fours_induction with
  | nil => rfl
  | four w x y z rest _ ih => simp [swapEach, ih]

theorem swapEach_map {β : Type*} (f : α → β) (l : List α) : swapEach (l.map f) = (swapEach l).map f := by
  fun_induction swapEach l with
  | case1 a b c d rest ih => simp [swapEach, ih]
  | case2 rest h =>
    match rest, h with
    | [], _ | [_], _ | [_, _], _ | [_, _, _], _ => rfl
    | w :: x :: y :: z :: rest, h => exact absurd rfl (h w x y z rest)

theorem compare_append [Ord α] (h : a.length = a'.length) :
    compare (a ++ b) (a' ++ b') = (compare a a').then (compare b b') := by
  induction a generalizing a' with
  | nil =>
    obtain rfl := length_eq_zero_iff.mp h.symm
    rfl
  | cons x a ih =>
    cases a' with
    | nil => exact nomatch h
    | cons y a' =>
      rw [cons_append, cons_append, List.compare_cons_cons, List.compare_cons_cons,
        ih (Nat.succ.inj h), Ordering.then_assoc]

theorem compare_longwords {l l' : List UInt8} (hfour : 4 ∣ l.length) (h : l.length = l'.length) :
    compare (longwords l) (longwords l') = compare (swapEach l) (swapEach l') := by
  induction l, hfour using fours_induction generalizing l' with
  | nil =>
    obtain rfl := length_eq_zero_iff.mp h.symm
    rfl
  | four a b c d rest _ ih =>
    match l', h with
    | a' :: b' :: c' :: d' :: rest', h =>
      have hfirst : compare (leValue [a, b, c, d]) (leValue [a', b', c', d']) = compare [d, c, b,
          a] [d', c', b', a'] := by
        rw [← beValue_reverse, ← beValue_reverse, ← compare_beValue (by simp)]
        rfl
      rw [longwords, longwords, List.compare_cons_cons, hfirst, ih (by simpa using h)]
      have hlength : [d, c, b, a].length = [d', c', b', a'].length := rfl
      exact (compare_append hlength).symm

theorem compare_complement {l l' : List UInt8} (h : l.length = l'.length) :
    compare (l.map (~~~·)) (l'.map (~~~·)) = (compare l l').swap := by
  have hbyte : ∀ x y : UInt8, compare (~~~x) (~~~y) = (compare x y).swap := by
    intro x y
    rw [← compare_swap]
    cases hxy : compare y x with
    | lt => exact Std.compare_eq_lt.mpr ((complement_lt_iff x y).mpr (Std.compare_eq_lt.mp hxy))
    | eq => rw [show y = x from Std.LawfulEqCmp.eq_of_compare hxy, compare_refl]
    | gt => exact Std.compare_eq_gt.mpr ((complement_lt_iff y x).mpr (Std.compare_eq_gt.mp hxy))
  induction l generalizing l' with
  | nil =>
    obtain rfl := length_eq_zero_iff.mp h.symm
    rfl
  | cons x l ih =>
    cases l' with
    | nil => exact nomatch h
    | cons y l' =>
      rw [map_cons, map_cons, List.compare_cons_cons, List.compare_cons_cons, hbyte,
        ih (Nat.succ.inj h), Ordering.swap_then]

/-- The highest bit of the first byte, turned over. -/
def flipHead : List UInt8 → List UInt8
  | [] => []
  | x :: l => (x ^^^ 128) :: l

@[simp] theorem length_flipHead (l : List UInt8) : (flipHead l).length = l.length := by
  cases l <;> rfl

theorem xor_128_xor_128 (x : UInt8) : x ^^^ 128 ^^^ 128 = x := by simp

@[simp] theorem flipHead_flipHead (l : List UInt8) : flipHead (flipHead l) = l := by
  cases l with
  | nil => rfl
  | cons x l => rw [flipHead, flipHead, xor_128_xor_128]

theorem flipHead_complement (l : List UInt8) : flipHead (l.map (~~~·)) = (flipHead l).map (~~~·) := by
  cases l with
  | nil => rfl
  | cons x l => simp [flipHead, UInt8.not_xor]

/-- The signed number that these bytes stand for, the lowest one first. -/
def signedValue (l : List UInt8) : Int :=
  if 2 * leValue l < 256 ^ l.length then leValue l else leValue l - 256 ^ l.length

theorem beValue_flipHead (x : UInt8) (l : List UInt8) :
    (beValue (flipHead (x :: l)) : Int) = signedValue (x :: l).reverse + 128 * 256 ^ l.length := by
  have hvalue : leValue (x :: l).reverse = beValue (x :: l) := by rw [← beValue_reverse, reverse_reverse]
  have hlt := beValue_lt l
  have hlength : (x :: l).reverse.length = l.length + 1 := by simp
  rw [signedValue, hvalue, hlength, flipHead, beValue, beValue, toNat_xor_128]
  generalize hbase : 256 ^ l.length = base at hlt
  have hcast : (256 : Int) ^ (l.length + 1) = (base * 256 : Nat) := by rw [← hbase]; norm_cast
  have hcast' : (256 : Int) ^ l.length = (base : Nat) := by rw [← hbase]; norm_cast
  rw [hcast, hcast']
  by_cases hsmall : x.toNat < 128
  · have htop : x.toNat * base ≤ 127 * base := Nat.mul_le_mul_right _ (by omega)
    rw [if_pos hsmall, if_pos (by omega)]
    push_cast
    ring
  · have htop : 128 * base ≤ x.toNat * base := Nat.mul_le_mul_right _ (by omega)
    rw [if_neg hsmall, if_neg (by omega), Nat.sub_mul]
    push_cast [Nat.cast_sub htop]
    ring

/-- Signed numbers of the same size, by their bytes. -/
theorem compare_signedValue {l l' : List UInt8} (h : l.length = l'.length) :
    compare (flipHead l.reverse) (flipHead l'.reverse) = compare (signedValue l) (signedValue l') := by
  cases hl : l.reverse with
  | nil =>
    obtain rfl : l = [] := by simpa using hl
    obtain rfl := length_eq_zero_iff.mp h.symm
    rfl
  | cons x t =>
    cases hl' : l'.reverse with
    | nil =>
      obtain rfl : l' = [] := by simpa using hl'
      obtain rfl := length_eq_zero_iff.mp h
      simp at hl
    | cons y t' =>
      have hlength : t.length = t'.length := by
        have ht := congrArg length hl
        have ht' := congrArg length hl'
        simp at ht ht'
        omega
      have hvalue := beValue_flipHead x t
      have hvalue' := beValue_flipHead y t'
      rw [← hl, reverse_reverse] at hvalue
      rw [← hl', reverse_reverse] at hvalue'
      have hequal : (flipHead l.reverse).length = (flipHead l'.reverse).length := by simp [hl, hl', flipHead, hlength]
      rw [← hl, ← hl', compare_beValue hequal, ← compare_natCast, hvalue, hvalue', hlength]
      cases hcompare : compare (signedValue l) (signedValue l') with
      | lt => exact Std.compare_eq_lt.mpr (Int.add_lt_add_right (Std.compare_eq_lt.mp hcompare) _)
      | eq => rw [show signedValue l = signedValue l' from Std.LawfulEqCmp.eq_of_compare hcompare, compare_refl]
      | gt => exact Std.compare_eq_gt.mpr (Int.add_lt_add_right (Std.compare_eq_gt.mp hcompare) _)

variable [Ord α]

theorem compareRest_replicate (pad : α) (a : List α) : compareRest pad a = compare a (replicate a.length pad) := by
  induction a with
  | nil => rfl
  | cons x a ih => rw [compareRest, ih, length_cons, replicate_succ, List.compare_cons_cons]

variable [Std.OrientedOrd α]

theorem compare_replicate (pad : α) {n : Nat} (h : a.length ≤ n) :
    compare (a ++ replicate (n - a.length) pad) (replicate n pad) = compareRest pad a := by
  have hsame : replicate n pad = replicate a.length pad ++ replicate (n - a.length) pad := by
    rw [← replicate_add, Nat.add_sub_cancel' h]
  rw [hsame, compare_append (by simp), compare_refl, Ordering.then_eq, compareRest_replicate]

/-- Padding both strings to the same length compares them as strings with padding. -/
theorem compare_padded (pad : α) {n : Nat} (ha : a.length ≤ n) (hb : b.length ≤ n) :
    compare (a ++ replicate (n - a.length) pad) (b ++ replicate (n - b.length) pad) = comparePadded pad a b := by
  induction a generalizing b n with
  | nil =>
    rw [comparePadded, ← compare_replicate pad hb, ← compare_swap]
    simp
  | cons x a ih =>
    cases b with
    | nil =>
      rw [comparePadded, ← compare_replicate pad ha]
      · simp
      · simp
    | cons y b =>
      obtain ⟨n, rfl⟩ : ∃ m, n = m + 1 := Nat.exists_eq_add_of_le' (Nat.le_trans (Nat.succ_pos _) ha)
      rw [comparePadded, ← ih (Nat.le_of_succ_le_succ ha) (Nat.le_of_succ_le_succ hb), cons_append, cons_append]
      simp

end Firebird.Lib
