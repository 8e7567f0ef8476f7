import Firebird.Sqz.Compressor

/-! # Differences of records

A difference turns one record into another (`class Difference` of `src/jrd/sqz.cpp`). -/

namespace Firebird.Sqz

open List

def maxDifferences : Nat := 1024

inductive DifferenceError
  | badDifference | willNotFit
  deriving DecidableEq

namespace Difference

/-- The control strings one after another, the output filled up to `p`. -/
def applyFrom (outLength : Nat) : List UInt8 → Nat → List UInt8 → Except DifferenceError (Nat × List UInt8)
  | [], p, output => .ok (p, output)
  | c :: differences, p, output =>
    if p < outLength then
      if 0 < signedChar c then
        if outLength < p + (signedChar c).toNat then .error .willNotFit
        else if differences.length < (signedChar c).toNat then .error .badDifference
        else applyFrom outLength (differences.drop (signedChar c).toNat) (p + (signedChar c).toNat)
          (output.take p ++ differences.take (signedChar c).toNat ++ output.drop (p + (signedChar c).toNat))
      else applyFrom outLength differences (p + (-signedChar c).toNat) output
    -- the record is complete: only zeros may follow
    else if (c :: differences).all (· = 0) then .ok (p, output)
    else .error .willNotFit
termination_by differences => differences.length
decreasing_by
  · simp only [length_drop, length_cons]
    omega
  · simp

/-- Apply a difference to the first `outLength` bytes of the output; the result is the new length. -/
def apply (differences : List UInt8) (outLength : Nat) (output : List UInt8) :
    Except DifferenceError (Nat × List UInt8) :=
  if maxDifferences < differences.length then .error .badDifference
  else
    match applyFrom outLength differences 0 output with
    | .error e => .error e
    | .ok (length, output) => if outLength < length then .error .willNotFit else .ok (length, output)

/-- The control bytes for `length` bytes that stay, if they fit. -/
def skips (length : Nat) (output : List UInt8) : Option (List UInt8) :=
  if length = 0 then some output
  else if maxDifferences ≤ output.length then none
  else skips (length - min length 127) (output ++ [uchar (-(min length 127 : Nat))])
termination_by length
decreasing_by omega

def literal (bytes output : List UInt8) : Option (List UInt8) :=
  if maxDifferences < output.length + 1 + bytes.length then none
  else some (output ++ uchar bytes.length :: bytes)

/-- The length of a literal run, at most `n`: up to two equal bytes, or one at the end of the run. -/
def literalLength : Nat → List UInt8 → List UInt8 → Nat
  | n + 1, x :: xs, y :: ys =>
    if x ≠ y ∨ (0 < n ∧ xs.head? ≠ ys.head?) then literalLength n xs ys + 1 else 0
  | _, _, _ => 0

def equalLength : List UInt8 → List UInt8 → Nat
  | x :: xs, y :: ys => if x = y then equalLength xs ys + 1 else 0
  | _, _ => 0

/-- The bytes at the end, in literal runs of at most 127. -/
def makeTail (rec2 output : List UInt8) : Option (List UInt8) :=
  if _h : rec2 = [] then some output
  else
    match literal (rec2.take 127) output with
    | none => none
    | some output => makeTail (rec2.drop 127) output
termination_by rec2.length
decreasing_by
  have := length_pos_iff.mpr _h
  simp only [length_drop]
  omega

theorem literalLength_pos {n : Nat} {x x' y y' : UInt8} {xs ys : List UInt8} (hn : 1 < n) (h : x ≠ y ∨ x' ≠ y') :
    0 < literalLength n (x :: x' :: xs) (y :: y' :: ys) := by
  obtain ⟨n, rfl⟩ : ∃ k, n = k + 1 := ⟨n - 1, by omega⟩
  have hcond : x ≠ y ∨ (0 < n ∧ (x' :: xs).head? ≠ (y' :: ys).head?) :=
    h.imp id fun h => ⟨by omega, by simpa using h⟩
  rw [literalLength, if_pos hcond]
  exact Nat.succ_pos _

theorem equalLength_pos {x y : UInt8} {xs ys : List UInt8} (h : x = y) : 0 < equalLength (x :: xs) (y :: ys) := by
  rw [equalLength, if_pos h]
  exact Nat.succ_pos _

/-- The common part of both records, `rec1` cut to it, and then the rest of `rec2`. -/
def makeFrom (rec1 rec2 output : List UInt8) : Option (List UInt8) :=
  match rec1, rec2 with
  | x :: x' :: x'' :: rec1, y :: y' :: rec2 =>
    if _h : x ≠ y ∨ x' ≠ y' then
      match literal ((y :: y' :: rec2).take
        (literalLength (min (rec1.length + 3) 127) (x :: x' :: x'' :: rec1) (y :: y' :: rec2))) output with
      | none => none
      | some output =>
        makeFrom
          ((x :: x' :: x'' :: rec1).drop
            (literalLength (min (rec1.length + 3) 127) (x :: x' :: x'' :: rec1) (y :: y' :: rec2)))
          ((y :: y' :: rec2).drop
            (literalLength (min (rec1.length + 3) 127) (x :: x' :: x'' :: rec1) (y :: y' :: rec2))) output
    else
      match skips (equalLength (x :: x' :: x'' :: rec1) (y :: y' :: rec2)) output with
      | none => none
      | some output =>
        makeFrom ((x :: x' :: x'' :: rec1).drop (equalLength (x :: x' :: x'' :: rec1) (y :: y' :: rec2)))
          ((y :: y' :: rec2).drop (equalLength (x :: x' :: x'' :: rec1) (y :: y' :: rec2))) output
  | _, rec2 => makeTail rec2 output
termination_by rec1.length
decreasing_by
  · have : 0 < literalLength (min (rec1.length + 3) 127) (x :: x' :: x'' :: rec1) (y :: y' :: rec2) :=
      literalLength_pos (by omega) _h
    simp only [length_drop, length_cons]
    omega
  · have : 0 < equalLength (x :: x' :: x'' :: rec1) (y :: y' :: rec2) :=
      equalLength_pos (not_not.mp fun hne => _h (.inl hne))
    simp only [length_drop, length_cons]
    omega

def make (rec1 rec2 : List UInt8) : Option (List UInt8) :=
  makeFrom (rec1.take (min rec1.length rec2.length)) rec2 []

end Difference
end Firebird.Sqz
