import Mathlib

/-! # Integers of any size

`BigInteger` (`src/common/BigInteger.cpp`) over the functions of `extern/libtommath`. -/

namespace Firebird.Auth

open List

abbrev Bytes := List UInt8

/-- Only the difference in the client's session key may be negative. -/
abbrev BigInteger := Int

namespace BigInteger

/-- `mp_mod`: the result has the sign of the modulus. -/
def mod (t val : BigInteger) : BigInteger := t.fmod val

/-- `mp_exptmod` for an exponent that is not negative. -/
def modPow (t pow val : BigInteger) : BigInteger := mod (t ^ pow.toNat) val

/-- `mp_from_ubin`. -/
def assign (bytes : Bytes) : BigInteger :=
  (bytes.foldl (fun t byte => t * 256 + byte.toNat) 0 : Nat)

/-- `mp_to_ubin`: the sign is left out. -/
def getBytes (t : BigInteger) : Bytes := ((Nat.digits 256 t.natAbs).map UInt8.ofNat).reverse

/-- The first of the characters `mp_s_rmap`. -/
def rmap : List Char := ['0', '1', '2', '3', '4', '5', '6', '7', '8', '9', 'A', 'B', 'C', 'D', 'E', 'F']

/-- `mp_to_radix` for the radix 16, the only one of the keys. -/
def getText (t : BigInteger) : List Char :=
  if t = 0 then ['0']
  else (if t < 0 then ['-'] else []) ++ ((Nat.digits 16 t.natAbs).map fun d => rmap.getD d '0').reverse

def readDigits : Nat → List Char → Option Nat
  | t, [] => some t
  | t, ch :: str =>
    let y := rmap.idxOf ch.toUpper
    if y < 16 then readDigits (t * 16 + y) str
    else if ch = '\r' ∨ ch = '\n' then some t
    else none

/-- `mp_read_radix` for the radix 16. -/
def ofText (text : List Char) : Option BigInteger :=
  if text.head? = some '-' then (readDigits 0 text.tail).map fun t => -(t : Int)
  else (readDigits 0 text).map (↑)

theorem foldl_digits {base : Nat} {f : Nat → Nat} (hbase : 1 < base) (hf : ∀ d < base, f d = d) (n : Nat) :
    (Nat.digits base n).reverse.foldl (fun t d => t * base + f d) 0 = n := by
  have hdigits : ∀ l : List Nat, (∀ d ∈ l, d < base) →
      l.foldr (fun d t => t * base + f d) 0 = Nat.ofDigits base l := fun l hl => by
    induction l with
    | nil => rfl
    | cons d l ih =>
      rw [foldr_cons, ih fun d hd => hl d (mem_cons_of_mem _ hd), hf d (hl d mem_cons_self), Nat.ofDigits_cons]
      ring
  rw [foldl_reverse, hdigits _ fun d hd => Nat.digits_lt_base hbase hd, Nat.ofDigits_digits]

theorem assign_getBytes {t : BigInteger} (ht : 0 ≤ t) : assign (getBytes t) = t := by
  have hbytes : ∀ d < 256, (UInt8.ofNat d).toNat = d := fun d hd => UInt8.toNat_ofNat_of_lt hd
  unfold assign getBytes
  rw [← map_reverse, foldl_map, foldl_digits (by decide) hbytes]
  exact Int.natAbs_of_nonneg ht

theorem rmap_spec : ∀ d < 16, rmap.idxOf (rmap.getD d '0').toUpper = d ∧ rmap.getD d '0' ≠ '-' := by
  decide

theorem readDigits_map {l : List Nat} (hl : ∀ d ∈ l, d < 16) (t : Nat) :
    readDigits t (l.map fun d => rmap.getD d '0') = some (l.foldl (fun t d => t * 16 + d) t) := by
  induction l generalizing t with
  | nil => rfl
  | cons d l ih =>
    have hd := hl d mem_cons_self
    simp only [map_cons, readDigits, (rmap_spec d hd).1, if_pos hd, foldl_cons]
    exact ih (fun d hd => hl d (mem_cons_of_mem _ hd)) _

theorem ofText_getText {t : BigInteger} (ht : 0 ≤ t) : ofText (getText t) = some t := by
  unfold getText
  split
  · subst t
    rfl
  · have hdigits : ∀ d ∈ (Nat.digits 16 t.natAbs).reverse, d < 16 := fun d hd =>
      Nat.digits_lt_base (by decide) (mem_reverse.mp hd)
    rw [if_neg ht.not_gt, nil_append, ← map_reverse, ofText, if_neg, readDigits_map hdigits,
      foldl_digits (by decide) fun _ _ => rfl, Option.map_some, Int.natAbs_of_nonneg ht]
    intro hminus
    rw [head?_map, Option.map_eq_some_iff] at hminus
    obtain ⟨d, hd, hchar⟩ := hminus
    exact (rmap_spec d (hdigits d (mem_of_head? hd))).2 hchar

end BigInteger

end Firebird.Auth
