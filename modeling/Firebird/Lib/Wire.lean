import Mathlib

/-! Numbers and byte strings on the wire: little-endian numbers, and readers that take what they read from the front
    of the bytes. -/

namespace Firebird.Lib

open List

/-- The lowest `k` bytes of a number, the lowest one first. -/
def leBytes : Nat → Nat → List UInt8
  | 0, _ => []
  | k + 1, n => UInt8.ofNat n :: leBytes k (n / 256)

def leValue : List UInt8 → Nat
  | [] => 0
  | byte :: bytes => byte.toNat + 256 * leValue bytes

@[simp] theorem leBytes_length (k n : Nat) : (leBytes k n).length = k := by
  induction k generalizing n with
  | zero => rfl
  | succ k ih => rw [leBytes, length_cons, ih]

theorem leValue_leBytes (k n : Nat) : leValue (leBytes k n) = n % 256 ^ k := by
  induction k generalizing n with
  | zero => rw [leBytes, leValue, Nat.pow_zero, Nat.mod_one]
  | succ k ih =>
    have hbyte : (UInt8.ofNat n).toNat = n % 256 := UInt8.toNat_ofNat'
    rw [leBytes, leValue, ih, Nat.pow_succ']
    exact Nat.mod_mul.symm

theorem leValue_leBytes_of_lt {k n : Nat} (h : n < 256 ^ k) : leValue (leBytes k n) = n := by
  rw [leValue_leBytes, Nat.mod_eq_of_lt h]

/-- A reader fails when the bytes do not suffice. -/
abbrev Reader (α : Type) := StateT (List UInt8) Option α

/-- What `reader` gives, and which bytes it leaves. -/
def Reader.run {α : Type} (reader : Reader α) (bytes : List UInt8) : Option (α × List UInt8) := reader bytes

/-- `reader` takes exactly `bytes` whatever follows them, and gives `a`. -/
def Reads {α : Type} (reader : Reader α) (bytes : List UInt8) (a : α) : Prop :=
  ∀ rest, reader.run (bytes ++ rest) = some (a, rest)

theorem reads_pure {α : Type} (a : α) : Reads (pure a : Reader α) [] a := fun _ => rfl

theorem Reads.bind {α β : Type} {reader : Reader α} {next : α → Reader β} {bytes bytes' : List UInt8} {a : α} {b : β}
    (h : Reads reader bytes a) (h' : Reads (next a) bytes' b) : Reads (reader >>= next) (bytes ++ bytes') b := by
  intro rest
  have hfirst : reader (bytes ++ (bytes' ++ rest)) = some (a, bytes' ++ rest) := h (bytes' ++ rest)
  show (reader (bytes ++ bytes' ++ rest) >>= fun p => next p.1 p.2) = _
  rw [append_assoc, hfirst]
  exact h' rest

theorem Reads.map {α β : Type} {reader : Reader α} {bytes : List UInt8} {a : α} (f : α → β) (h : Reads reader bytes a) :
    Reads (reader >>= fun a => pure (f a)) bytes (f a) := by
  intro rest
  have hfirst : reader (bytes ++ rest) = some (a, rest) := h rest
  show (reader (bytes ++ rest) >>= fun p => some (f p.1, p.2)) = _
  rw [hfirst]
  rfl

def takeBytes (n : Nat) : Reader (List UInt8) := fun bytes =>
  if n ≤ bytes.length then some (bytes.take n, bytes.drop n) else none

theorem reads_takeBytes (bytes : List UInt8) : Reads (takeBytes bytes.length) bytes bytes := by
  intro rest
  show (if bytes.length ≤ (bytes ++ rest).length then some ((bytes ++ rest).take bytes.length,
    (bytes ++ rest).drop bytes.length) else none) = _
  rw [if_pos (by rw [length_append]; exact Nat.le_add_right ..), take_left, drop_left]

def takeNumber (k : Nat) : Reader Nat := do
  let bytes ← takeBytes k
  return leValue bytes

theorem reads_takeNumber {k n : Nat} (h : n < 256 ^ k) : Reads (takeNumber k) (leBytes k n) n := by
  have hbytes : Reads (takeBytes k) (leBytes k n) (leBytes k n) := by
    have hall := reads_takeBytes (leBytes k n)
    rwa [leBytes_length] at hall
  have hvalue := hbytes.map leValue
  rwa [leValue_leBytes_of_lt h] at hvalue

end Firebird.Lib
