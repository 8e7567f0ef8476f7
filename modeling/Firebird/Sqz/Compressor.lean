import Mathlib

/-! # Record compression

The run-length encoder and decoder of records (`src/jrd/sqz.cpp`). A packed record is a sequence of
runs: a positive length and as many bytes, or a negative length and one byte to repeat. The lengths
-1 and -2 announce a counter of two and of four bytes. -/

namespace Firebird.Sqz

open List

def minCompressRun : Nat := 8
def maxNoncompRun : Nat := 127
def maxShortRun : Nat := 128
def maxMediumRun : Nat := 65535
def maxLongRun : Nat := 2 ^ 31 - 1
/-- The largest value of `SLONG`. -/
def maxSlong : Nat := 2 ^ 31 - 1
def ulongSize : Nat := 2 ^ 32

def uchar (n : Int) : UInt8 := UInt8.ofNat (n % 256).toNat

def signedChar (b : UInt8) : Int := if b.toNat < 128 then b.toNat else (b.toNat : Int) - 256

def putShort (n : Nat) : List UInt8 := [UInt8.ofNat (n % 256), UInt8.ofNat (n / 256 % 256)]

def putLong (n : Nat) : List UInt8 := putShort (n % 65536) ++ putShort (n / 65536 % 65536)

def getShort (input : List UInt8) : Nat := (input.getD 0 0).toNat + 256 * (input.getD 1 0).toNat

def getLong (input : List UInt8) : Nat := getShort input + 65536 * getShort (input.drop 2)

/-! ### The encoder -/

def adjustRunLength (length : Nat) : Nat :=
  if length ≤ maxShortRun then 0 else if length ≤ maxMediumRun then 2 else 4

/-- The runs found so far and their length once packed. -/
structure Scan where
  runs : List Int
  length : Nat

def nonCompressableRun (s : Scan) (length : Nat) : Scan :=
  match s.runs.getLast? with
  | some back =>
    if 0 < back ∧ back < maxNoncompRun then
      let max := min (maxNoncompRun - back.toNat) length
      let runs := s.runs.dropLast ++ [back + max]
      if length - max = 0 then { runs, length := s.length + length }
      else { runs := runs ++ [((length - max : Nat) : Int)], length := s.length + (length + 1) }
    else { runs := s.runs ++ [(length : Int)], length := s.length + (length + 1) }
  | none => { runs := s.runs ++ [(length : Int)], length := s.length + (length + 1) }

def storeNonCompressable (s : Scan) (count : Nat) : Scan :=
  if count = 0 then s
  else storeNonCompressable (nonCompressableRun s (min count maxNoncompRun)) (count - min count maxNoncompRun)
termination_by count
decreasing_by
  simp only [maxNoncompRun]
  omega

/-- The position of the first three equal bytes, or the length. -/
def firstTriple : List UInt8 → Nat
  | a :: b :: c :: data => if a = b ∧ a = c then 0 else firstTriple (b :: c :: data) + 1
  | data => data.length

def nonCompressableLength (data : List UInt8) : Nat :=
  if minCompressRun ≤ data.length then firstTriple data else data.length

def repeatLength : List UInt8 → Nat
  | [] => 0
  | c :: data => (data.takeWhile (· = c)).length + 1

/-- Store a repetition in pieces of at most 128 bytes; a rest of one or two bytes is not stored. -/
def storeShortRuns (s : Scan) (count : Nat) : Scan × Nat :=
  if count = 0 then (s, 0)
  else if min count maxShortRun < 3 then (s, min count maxShortRun)
  else
    storeShortRuns { runs := s.runs ++ [-((min count maxShortRun : Nat) : Int)], length := s.length + 2 }
      (count - min count maxShortRun)
termination_by count
decreasing_by
  simp only [maxShortRun]
  omega

def scanStep (allowLongRuns : Bool) (s : Scan) (data : List UInt8) : Scan × List UInt8 :=
  let count := nonCompressableLength data
  let s := storeNonCompressable s count
  let data := data.drop count
  if data.length < minCompressRun then (s, data)
  else
    let count := repeatLength data
    if count < minCompressRun then (nonCompressableRun s count, data.drop count)
    else if allowLongRuns then
      ({ runs := s.runs ++ [-(count : Int)], length := s.length + (2 + adjustRunLength count) }, data.drop count)
    else
      let (s, rest) := storeShortRuns s count
      (s, data.drop (count - rest))

theorem storeShortRuns_rest (s : Scan) (count : Nat) :
    (storeShortRuns s count).2 < 3 ∧ (storeShortRuns s count).2 ≤ count := by
  fun_induction storeShortRuns s count with
  | case1 => simp
  | case2 s count hne hmax => exact ⟨hmax, Nat.min_le_left _ _⟩
  | case3 s count hne hmax ih => exact ⟨ih.1, Nat.le_trans ih.2 (Nat.sub_le _ _)⟩

theorem scanStep_length_lt (allowLongRuns : Bool) (s : Scan) {data : List UInt8} (h : data ≠ []) :
    (scanStep allowLongRuns s data).2.length < data.length := by
  have hpos : 0 < data.length := length_pos_iff.mpr h
  unfold scanStep
  dsimp only
  by_cases hshort : (data.drop (nonCompressableLength data)).length < minCompressRun
  · rw [if_pos hshort]
    by_cases hlen : minCompressRun ≤ data.length
    · exact Nat.lt_of_lt_of_le hshort hlen
    · simp [nonCompressableLength, hlen, hpos]
  · rw [if_neg hshort]
    have hle : (data.drop (nonCompressableLength data)).length ≤ data.length := by simp
    cases hd : data.drop (nonCompressableLength data) with
    | nil => simp [hd, minCompressRun] at hshort
    | cons c rest =>
      have hrep : 0 < repeatLength (c :: rest) := Nat.succ_pos _
      rw [hd] at hle
      split
      · simp only [length_drop]
        omega
      · rename_i hmin
        split
        · simp only [length_drop]
          omega
        · have hrest := storeShortRuns_rest (storeNonCompressable s (nonCompressableLength data))
            (repeatLength (c :: rest))
          simp only [length_drop, minCompressRun] at hmin ⊢
          omega

def scan (allowLongRuns : Bool) (s : Scan) (data : List UInt8) : Scan :=
  if h : data = [] then s
  else
    have := scanStep_length_lt allowLongRuns s h
    scan allowLongRuns (scanStep allowLongRuns s data).1 (scanStep allowLongRuns s data).2
termination_by data.length

structure Compressor where
  runs : List Int
  length : Nat

/-- The constructor. Without runs the data is stored as it is. -/
def compressor (allowLongRuns allowUnpacked : Bool) (data : List UInt8) : Compressor :=
  let s := scan allowLongRuns { runs := [], length := 0 } data
  if allowUnpacked ∧ data.length ≤ s.length then { runs := [], length := data.length }
  else { runs := s.runs, length := s.length }

namespace Compressor

def getPackedLength (dcc : Compressor) : Nat := dcc.length

def isPacked (dcc : Compressor) : Bool := !dcc.runs.isEmpty

def runHeader (zipLength : Nat) : List UInt8 :=
  if zipLength ≤ maxShortRun then [uchar (-zipLength)]
  else if zipLength ≤ maxMediumRun then uchar (-1) :: putShort zipLength
  else if zipLength ≤ maxLongRun then uchar (-2) :: putLong zipLength
  else []

def packRuns : List Int → List UInt8 → List UInt8
  | [], _ => []
  | length :: runs, input =>
    if length < 0 then
      runHeader length.natAbs ++ input.take 1 ++ packRuns runs (input.drop length.natAbs)
    else uchar length :: input.take length.toNat ++ packRuns runs (input.drop length.toNat)

def pack (dcc : Compressor) (input : List UInt8) : List UInt8 :=
  if dcc.runs = [] then input.take dcc.length else packRuns dcc.runs input

/-- The message of `BUGCHECK(179)`. -/
inductive SqzError
  | decompressionOverranBuffer

def zipLength (length : Int) (input : List UInt8) : Nat × List UInt8 :=
  if length = -1 then (getShort input, input.drop 2)
  else if length = -2 then (getLong input, input.drop 4)
  else (length.natAbs, input)

theorem zipLength_length_le (length : Int) (input : List UInt8) : (zipLength length input).2.length ≤ input.length := by
  unfold zipLength
  split
  · simp
  · split <;> simp

def sumLengths (input : List UInt8) : Option Nat :=
  match input with
  | [] => some 0
  | head :: input =>
    if signedChar head < 0 then
      match _h : zipLength (signedChar head) input with
      | (_, []) => none
      | (zip, _ :: rest) => (sumLengths rest).map (zip + ·)
    else (sumLengths (input.drop (signedChar head).toNat)).map ((signedChar head).toNat + ·)
termination_by input.length
decreasing_by
  · have := zipLength_length_le (signedChar head) input
    simp only [_h, length_cons] at this ⊢
    omega
  · simp only [length_drop, length_cons]
    omega

def getUnpackedLength (input : List UInt8) : Nat := (sumLengths input).getD 0 % ulongSize

def unpack (input : List UInt8) (room : Nat) : Except SqzError (List UInt8) :=
  match input with
  | [] => .ok []
  | head :: input =>
    if signedChar head < 0 then
      match _h : zipLength (signedChar head) input with
      | (_, []) => .error .decompressionOverranBuffer
      | (zip, c :: rest) =>
        if room < zip then .error .decompressionOverranBuffer
        else (unpack rest (room - zip)).map (replicate zip c ++ ·)
    else
      let length := (signedChar head).toNat
      if input.length < length ∨ room < length then .error .decompressionOverranBuffer
      else (unpack (input.drop length) (room - length)).map (input.take length ++ ·)
termination_by input.length
decreasing_by
  · have := zipLength_length_le (signedChar head) input
    simp only [_h, length_cons] at this ⊢
    omega
  · simp only [length_drop, length_cons]
    omega

end Compressor
end Firebird.Sqz
