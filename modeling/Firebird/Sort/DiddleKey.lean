import Firebird.Lib.Cells
import Firebird.Lib.Longwords

/-! # Keys of sort records

`Sort::diddleKey` for integer keys, dates, timestamps and strings, on a little-endian machine. A record is a memory of
bytes, and the floating, decimal and time zone types are left out. -/

namespace Firebird.Sort
open List Lib

abbrev SortBytes := Nat → UInt8

/-- `skd_dtype` -/
inductive KeyType
  | skdLong
  | skdUlong
  | skdInt64
  | skdInt128
  | skdSqlDate
  | skdTimestamp
  | skdText
  | skdBytes
  | skdVarying
  | skdCstring
  deriving DecidableEq

structure SortKeyDef where
  skdDtype : KeyType
  /-- `skd_flags` -/
  skdDescending : Bool := false
  skdBinary : Bool := false
  skdSeparateData : Bool := false
  skdLength : Nat
  skdOffset : Nat
  skdVaryOffset : Nat := 0

namespace SortKeyDef

/-- `USHORT n = ROUNDUP(key->getSkdLength(), sizeof(SLONG))` -/
def rounded (key : SortKeyDef) : Nat := (key.skdLength + 3) / 4 * 4 % 65536

def fillChar (key : SortKeyDef) : UInt8 := if key.skdBinary then 0 else 32

end SortKeyDef

def getUShort (r : SortBytes) (a : Nat) : Nat := leValue (cells r a 2)

def putUShort (r : SortBytes) (a n : Nat) : SortBytes := store r a (leBytes 2 n)

def flipSign (r : SortBytes) (a : Nat) : SortBytes := store r a [r a ^^^ 128]

def swapLongs (r : SortBytes) (a b : Nat) : SortBytes := store (store r a (cells r b 4)) b (cells r a 4)

def swapBytes (r : SortBytes) (p n : Nat) : SortBytes := store r p (swapEach (cells r p n))

def complement (r : SortBytes) (p n : Nat) : SortBytes := store r p ((cells r p n).map (~~~·))

def strlen (r : SortBytes) (a : Nat) : Nat → Nat
  | 0 => 0
  | n + 1 => if r a = 0 then 0 else strlen r (a + 1) n + 1

/-- Stash embedded control info for non-fixed data types in the sort record and zap it. `vlen` is a reference into the
record. -/
def stashVarying (sorted : Bool) (key : SortKeyDef) (r : SortBytes) : SortBytes :=
  let p := key.skdOffset
  if sorted then
    putUShort r p 0
  else
    let r := putUShort r key.skdVaryOffset (getUShort r p)
    let vlen := getUShort r p
    let fill := (key.rounded + 2 * 65536 - 2 - vlen) % 65536
    putUShort (store r (p + 2 + vlen) (replicate fill key.fillChar)) p 0

def stashCstring (sorted : Bool) (key : SortKeyDef) (r : SortBytes) : SortBytes :=
  let p := key.skdOffset
  if sorted then
    store r (p + getUShort r key.skdVaryOffset) [key.fillChar]
  else
    let l := strlen r p key.rounded
    let r := putUShort r key.skdVaryOffset l
    store r (p + l) (replicate ((key.rounded + 65536 - l) % 65536) key.fillChar)

def diddleType (sorted direction duplicateHandling : Bool) (key : SortKeyDef) (r : SortBytes) : SortBytes :=
  let p := key.skdOffset
  match key.skdDtype with
  | .skdTimestamp | .skdSqlDate | .skdLong => flipSign r (p + 3)
  | .skdUlong => r
  | .skdText | .skdBytes | .skdCstring | .skdVarying =>
    let r :=
      match direction, key.skdDtype with
      | true, .skdVarying => stashVarying sorted key r
      | true, .skdCstring => stashCstring sorted key r
      | _, _ => r
    if (direction && !duplicateHandling) || !key.skdSeparateData then swapBytes r p key.rounded else r
  | .skdInt64 =>
    if direction then
      swapLongs (flipSign r (p + 7)) p (p + 4)
    else
      flipSign (swapLongs r p (p + 4)) (p + 7)
  | .skdInt128 =>
    if direction then
      swapLongs (swapLongs (flipSign r (p + 15)) p (p + 12)) (p + 4) (p + 8)
    else
      flipSign (swapLongs (swapLongs r p (p + 12)) (p + 4) (p + 8)) (p + 15)

/-- Flatter but don't complement control info for non-fixed data types when restoring the data. -/
def restoreControl (key : SortKeyDef) (r : SortBytes) : SortBytes :=
  match key.skdDtype with
  | .skdVarying => putUShort r key.skdOffset (getUShort r key.skdVaryOffset)
  | .skdCstring => store r (key.skdOffset + getUShort r key.skdVaryOffset) [0]
  | _ => r

def diddleOne (sorted direction duplicateHandling : Bool) (key : SortKeyDef) (r : SortBytes) : SortBytes :=
  let r := diddleType sorted direction duplicateHandling key r
  let r := if key.skdDescending then complement r key.skdOffset key.rounded else r
  if direction then r else restoreControl key r

def diddleKey (sorted direction duplicateHandling : Bool) (description : List SortKeyDef) (r : SortBytes) : SortBytes :=
  description.foldl (fun r key => diddleOne sorted direction duplicateHandling key r) r

/-- `m_key_length`, in longwords. -/
def keyLength (description : List SortKeyDef) : Nat :=
  match description.getLast? with
  | none => 0
  | some key => (key.skdOffset + key.skdLength + 3) / 4

def keyLongwords (description : List SortKeyDef) (r : SortBytes) : List Nat :=
  longwords (cells r 0 (4 * keyLength description))

namespace SortKeyDef

variable (key : SortKeyDef)

def isVariable : Bool := key.skdDtype = .skdVarying || key.skdDtype = .skdCstring

def area (r : SortBytes) : List UInt8 := cells r key.skdOffset key.rounded

def text (area : List UInt8) : List UInt8 :=
  match key.skdDtype with
  | .skdVarying => (area.drop 2).take (leValue (area.take 2))
  | .skdCstring => area.takeWhile (· ≠ 0)
  | _ => area.take key.skdLength

/-- How many bytes of the area are the value: a length and the characters, or the characters and the zero byte behind
them. -/
def valueLength (area : List UInt8) : Nat :=
  match key.skdDtype with
  | .skdVarying => 2 + leValue (area.take 2)
  | .skdCstring => (area.takeWhile (· ≠ 0)).length + 1
  | _ => key.skdLength

def value (r : SortBytes) : List UInt8 := (key.area r).take (key.valueLength (key.area r))

def compareAreas (area area' : List UInt8) : Ordering :=
  match key.skdDtype with
  | .skdLong | .skdInt64 | .skdInt128 | .skdSqlDate => compare (signedValue area) (signedValue area')
  | .skdUlong => compare (leValue area) (leValue area')
  | .skdTimestamp =>
    (compare (signedValue (area.take 4)) (signedValue (area'.take 4))).then (compare (leValue (area.drop 4))
      (leValue (area'.drop 4)))
  | .skdText | .skdBytes => compare (key.text area) (key.text area')
  | .skdVarying | .skdCstring => comparePadded key.fillChar (key.text area) (key.text area')

def compareValues (r r' : SortBytes) : Ordering :=
  if key.skdDescending then (key.compareAreas (key.area r) (key.area r')).swap else key.compareAreas
    (key.area r) (key.area r')

end SortKeyDef

def compareKeys : List SortKeyDef → SortBytes → SortBytes → Ordering
  | [], _, _ => .eq
  | key :: keys, r, r' => (key.compareValues r r').then (compareKeys keys r r')

/-! ### The sorted form of a key -/

open Lib List

variable {key : SortKeyDef} {r r' : SortBytes} {a b p n x : Nat} {area : List UInt8}

/-! ### Cells -/

theorem cells_take (r : SortBytes) (a : Nat) {m n : Nat} (h : m ≤ n) : (cells r a n).take m = cells r a m := by
  obtain ⟨k, rfl⟩ := Nat.exists_eq_add_of_le h
  rw [cells_add, take_left' (by simp)]

theorem cells_drop (r : SortBytes) (a m n : Nat) : (cells r a (m + n)).drop m = cells r (a + m) n := by
  rw [cells_add, drop_left' (by simp)]

theorem cells_four (r : SortBytes) (a : Nat) : cells r a 4 = [r a, r (a + 1), r (a + 2), r (a + 3)] := rfl

theorem swapEach_four (r : SortBytes) (a : Nat) : swapEach (cells r a 4) = (cells r a 4).reverse := rfl

theorem cells_store (r : SortBytes) (a : Nat) {xs : List UInt8} (h : xs.length = n) :
    cells (store r a xs) a n = xs := by
  subst h
  exact cells_store_self r a xs

theorem cells_flipSign (r : SortBytes) (a : Nat) : (cells (flipSign r (a + 3)) a 4).reverse = flipHead
    (cells r a 4).reverse := by
  have hcell : (0 : Nat) < [r (a + 3) ^^^ 128].length := Nat.one_pos
  have hlast : flipSign r (a + 3) (a + 3) = r (a + 3) ^^^ 128 := store_at hcell
  have hrest : ∀ x, x < a + 3 → flipSign r (a + 3) x = r x := fun x hx => store_of_lt hx
  simp [cells_four, hlast, hrest, flipHead]

theorem flipSign_of_ne (h : x ≠ a) : flipSign r a x = r x := by
  rcases Nat.lt_or_gt_of_ne h with hlt | hgt
  · exact store_of_lt hlt
  · exact store_of_ge hgt

theorem cells_flipSign_of_disjoint (h : b + n ≤ a ∨ a < b) : cells (flipSign r a) b n = cells r b n :=
  cells_store_of_disjoint h

theorem cells_swapLongs_left (h : a + 4 ≤ b) : cells (swapLongs r a b) a 4 = cells r b 4 := by
  rw [swapLongs, cells_store_of_disjoint (Or.inl h), cells_store r a (by simp)]

theorem cells_swapLongs_right : cells (swapLongs r a b) b 4 = cells r a 4 := cells_store _ b (by simp)

theorem cells_swapLongs_of_disjoint (ha : p + n ≤ a ∨ a + 4 ≤ p) (hb : p + n ≤ b ∨ b + 4 ≤ p) :
    cells (swapLongs r a b) p n = cells r p n := by
  rw [swapLongs, cells_store_of_disjoint (by simp [hb]), cells_store_of_disjoint (by simp [ha])]

theorem swapLongs_of_disjoint (ha : x < a ∨ a + 4 ≤ x) (hb : x < b ∨ b + 4 ≤ x) : swapLongs r a b x = r x := by
  have hstore : ∀ (r : SortBytes) (c : Nat) (xs : List UInt8), xs.length = 4 → x < c ∨ c + 4 ≤ x →
      store r c xs x = r x := by
    intro r c xs hxs h
    rcases h with h | h
    · exact store_of_lt h
    · exact store_of_ge (by omega)
  rw [swapLongs, hstore _ b _ (by simp) hb, hstore _ a _ (by simp) ha]

theorem cells_swapBytes (r : SortBytes) (p n : Nat) : cells (swapBytes r p n) p n = swapEach (cells r p n) :=
  cells_store r p (by simp)

theorem cells_complement (r : SortBytes) (p n : Nat) : cells (complement r p n) p n = (cells r p n).map (~~~·) :=
  cells_store r p (by simp)

theorem store_outside {xs : List UInt8} (hxs : xs.length ≤ n) (h : x < p ∨ p + n ≤ x) : store r p xs x = r x := by
  rcases h with h | h
  · exact store_of_lt h
  · exact store_of_ge (by omega)

theorem getUShort_putUShort (r : SortBytes) (a : Nat) (h : n < 65536) : getUShort (putUShort r a n) a = n := by
  rw [getUShort, putUShort, cells_store r a (leBytes_length 2 n), leValue_leBytes_of_lt h]

theorem getUShort_lt (r : SortBytes) (a : Nat) : getUShort r a < 65536 := by
  have h : ∀ x y : UInt8, leValue [x, y] < 65536 := by
    intro x y
    have hx := x.toNat_lt
    have hy := y.toNat_lt
    simp only [leValue]
    omega
  exact h (r a) (r (a + 1))

theorem leBytes_leValue (r : SortBytes) (a : Nat) : leBytes 2 (getUShort r a) = cells r a 2 := by
  have h : ∀ x y : UInt8, leBytes 2 (leValue [x, y]) = [x, y] := by
    intro x y
    have hx := x.toNat_lt
    have hsecond : (x.toNat + 256 * y.toNat) / 256 = y.toNat := by omega
    simp only [leValue, leBytes, Nat.mul_zero, Nat.add_zero, hsecond, cons.injEq, and_true]
    exact ⟨UInt8.toNat_inj.mp (by simp), UInt8.toNat_inj.mp (by simp)⟩
  exact h (r a) (r (a + 1))

theorem strlen_eq (r : SortBytes) (a n : Nat) : strlen r a n = ((cells r a n).takeWhile (· ≠ 0)).length := by
  induction n generalizing a with
  | zero => rfl
  | succ n ih =>
    rw [strlen, cells_succ]
    by_cases hzero : r a = 0
    · simp [hzero]
    · simp [hzero, ih]

def KeyType.FitsLength (length : Nat) : KeyType → Prop
  | .skdLong | .skdUlong | .skdSqlDate => length = 4
  | .skdInt64 | .skdTimestamp => length = 8
  | .skdInt128 => length = 16
  | .skdText | .skdBytes => True
  | .skdVarying => 2 ≤ length
  | .skdCstring => 0 < length

/-- The length of a key is rounded up in 16 bits, and the length of a string stashed outside of it. -/
structure KeyOk (key : SortKeyDef) : Prop where
  fits : key.skdDtype.FitsLength key.skdLength
  short : key.skdLength ≤ 65532
  apart : key.isVariable = true →
    key.skdVaryOffset + 2 ≤ key.skdOffset ∨ key.skdOffset + key.rounded ≤ key.skdVaryOffset

/-- The bytes of a value: a string of varying length has room in its key. -/
def Fits (key : SortKeyDef) (area : List UInt8) : Prop :=
  match key.skdDtype with
  | .skdVarying => 2 + leValue (area.take 2) ≤ key.skdLength
  | .skdCstring => (area.takeWhile (· ≠ 0)).length < key.skdLength
  | _ => True

theorem KeyOk.le_rounded (h : KeyOk key) : key.skdLength ≤ key.rounded := by
  have hshort := h.short
  unfold SortKeyDef.rounded
  omega

theorem four_dvd_rounded : 4 ∣ key.rounded := by
  unfold SortKeyDef.rounded
  omega

theorem rounded_lt : key.rounded < 65536 := by
  unfold SortKeyDef.rounded
  omega

def stashed (key : SortKeyDef) (area : List UInt8) : Nat :=
  match key.skdDtype with
  | .skdVarying => leValue (area.take 2)
  | .skdCstring => (area.takeWhile (· ≠ 0)).length
  | _ => 0

def plainForm (key : SortKeyDef) (area : List UInt8) : List UInt8 :=
  match key.skdDtype with
  | .skdLong | .skdInt64 | .skdInt128 | .skdSqlDate => flipHead area.reverse
  | .skdUlong => area.reverse
  | .skdTimestamp => flipHead (area.take 4).reverse ++ (area.drop 4).reverse
  | .skdText | .skdBytes => area
  | .skdVarying => [0, 0] ++ (key.text area ++ replicate (area.length - 2 - (key.text area).length) key.fillChar)
  | .skdCstring => key.text area ++ replicate (area.length - (key.text area).length) key.fillChar

def sortedForm (key : SortKeyDef) (area : List UInt8) : List UInt8 :=
  if key.skdDescending then (plainForm key area).map (~~~·) else plainForm key area

def InZone (key : SortKeyDef) (x : Nat) : Prop :=
  (key.skdOffset ≤ x ∧ x < key.skdOffset + key.rounded) ∨
    (key.isVariable = true ∧ key.skdVaryOffset ≤ x ∧ x < key.skdVaryOffset + 2)

theorem area_length (key : SortKeyDef) (r : SortBytes) : (key.area r).length = key.rounded := length_cells _ _ _

theorem KeyOk.two_le (h : KeyOk key) (htype : key.skdDtype = .skdVarying) : 2 ≤ key.skdLength := by
  have hfits := h.fits
  rwa [htype] at hfits

theorem KeyOk.vary_apart (h : KeyOk key) (htype : key.skdDtype = .skdVarying ∨ key.skdDtype = .skdCstring) :
    key.skdVaryOffset + 2 ≤ key.skdOffset ∨ key.skdOffset + key.rounded ≤ key.skdVaryOffset :=
  h.apart (by rcases htype with htype | htype <;> simp [SortKeyDef.isVariable, htype])

theorem take_two_area (h : KeyOk key) (htype : key.skdDtype = .skdVarying) (r : SortBytes) :
    (key.area r).take 2 = cells r key.skdOffset 2 := cells_take r _ ((h.two_le htype).trans h.le_rounded)

theorem varying_fits (h : KeyOk key) (htype : key.skdDtype = .skdVarying) (hfits : Fits key (key.area r)) :
    2 + getUShort r key.skdOffset ≤ key.skdLength := by
  simp only [Fits, htype, take_two_area h htype] at hfits
  exact hfits

theorem text_varying (h : KeyOk key) (htype : key.skdDtype = .skdVarying) (hfits : Fits key (key.area r)) :
    key.text (key.area r) = cells r (key.skdOffset + 2) (getUShort r key.skdOffset) := by
  have hroom := varying_fits h htype hfits
  have hle := h.le_rounded
  have hdrop : (key.area r).drop 2 = cells r (key.skdOffset + 2) (key.rounded - 2) := by
    have hsplit : key.rounded = 2 + (key.rounded - 2) := by omega
    rw [SortKeyDef.area, hsplit, cells_drop, Nat.add_sub_cancel_left]
  simp only [SortKeyDef.text, htype, take_two_area h htype, hdrop]
  exact cells_take r _ (by unfold getUShort at hroom; omega)

theorem strlen_area (htype : key.skdDtype = .skdCstring) (r : SortBytes) :
    strlen r key.skdOffset key.rounded = (key.text (key.area r)).length := by
  rw [strlen_eq]
  simp only [SortKeyDef.text, htype, SortKeyDef.area]

theorem cstring_fits (htype : key.skdDtype = .skdCstring) (hfits : Fits key (key.area r)) :
    (key.text (key.area r)).length < key.skdLength := by
  simpa only [Fits, htype, SortKeyDef.text] using hfits

theorem text_cstring (h : KeyOk key) (htype : key.skdDtype = .skdCstring) (hfits : Fits key (key.area r)) :
    key.text (key.area r) = cells r key.skdOffset (key.text (key.area r)).length := by
  have hlt := cstring_fits htype hfits
  have hle := h.le_rounded
  have hprefix : key.text (key.area r) <+: key.area r := by
    simp only [SortKeyDef.text, htype]
    exact takeWhile_prefix _
  have htake := prefix_iff_eq_take.mp hprefix
  rwa [SortKeyDef.area, cells_take r _ (by unfold SortKeyDef.area at hlt; omega)] at htake

structure Stashed (key : SortKeyDef) (r r' : SortBytes) : Prop where
  area : key.area r' = plainForm key (key.area r)
  length : getUShort r' key.skdVaryOffset = stashed key (key.area r)
  outside : ∀ x, ¬InZone key x → r' x = r x

theorem putUShort_outside (h : x < a ∨ a + 2 ≤ x) : putUShort r a n x = r x := store_outside (by simp) h

theorem not_inZone (h : ¬InZone key x) (hvariable : key.isVariable = true) :
    (x < key.skdOffset ∨ key.skdOffset + key.rounded ≤ x) ∧ (x < key.skdVaryOffset ∨ key.skdVaryOffset + 2 ≤ x) := by
  simp only [InZone, hvariable, true_and] at h
  omega

theorem stashVarying_spec (h : KeyOk key) (htype : key.skdDtype = .skdVarying) (hfits : Fits key (key.area r)) :
    Stashed key r (stashVarying false key r) := by
  have hroom := varying_fits h htype hfits
  have hle := h.le_rounded
  have hlt := @rounded_lt key
  have hapart := h.vary_apart (Or.inl htype)
  have htext := text_varying h htype hfits
  have hshort := getUShort_lt r key.skdOffset
  have hvlen : getUShort (putUShort r key.skdVaryOffset (getUShort r key.skdOffset)) key.skdOffset =
      getUShort r key.skdOffset :=
    congrArg leValue (cells_store_of_disjoint (by rw [leBytes_length]; omega))
  have hfill : (key.rounded + 2 * 65536 - 2 - getUShort r key.skdOffset) % 65536 =
      key.rounded - 2 - getUShort r key.skdOffset := by
    omega
  simp only [stashVarying, Bool.false_eq_true, if_false, hvlen, hfill]
  generalize hlength : getUShort r key.skdOffset = vlen at *
  generalize hpadding : replicate (key.rounded - 2 - vlen) key.fillChar = padding
  have hpaddingLength : padding.length = key.rounded - 2 - vlen := by rw [← hpadding, length_replicate]
  refine ⟨?_, ?_, fun x hx => ?_⟩
  · have hsplit : key.rounded = 2 + (vlen + (key.rounded - 2 - vlen)) := by omega
    have hform : plainForm key (key.area r) = [0, 0] ++ (cells r (key.skdOffset + 2) vlen ++ padding) := by
      simp only [plainForm, htype, htext, length_cells, area_length, hpadding]
    rw [hform, SortKeyDef.area, hsplit, cells_add, cells_add]
    congr 1
    · exact cells_store _ _ (by simp)
    · congr 1
      · rw [putUShort, cells_store_of_disjoint (by simp), cells_store_of_disjoint (by omega), putUShort,
          cells_store_of_disjoint (by simp; omega)]
      · rw [putUShort, cells_store_of_disjoint (by simp), cells_store _ _ hpaddingLength]
  · have hstash : stashed key (key.area r) = vlen := by
      simp only [stashed, htype, take_two_area h htype]
      exact hlength
    rw [hstash, getUShort, putUShort, cells_store_of_disjoint (by simp; omega), cells_store_of_disjoint (by omega)]
    exact getUShort_putUShort r _ hshort
  · obtain ⟨hzone, hstash⟩ := not_inZone hx (by simp [SortKeyDef.isVariable, htype])
    rw [putUShort_outside (by omega), store_outside (le_refl _) (by omega), putUShort_outside hstash]

theorem stashCstring_spec (h : KeyOk key) (htype : key.skdDtype = .skdCstring) (hfits : Fits key (key.area r)) :
    Stashed key r (stashCstring false key r) := by
  have hroom := cstring_fits htype hfits
  have hle := h.le_rounded
  have hlt := @rounded_lt key
  have hapart := h.vary_apart (Or.inr htype)
  have htext := text_cstring h htype hfits
  have hfill : (key.rounded + 65536 - (key.text (key.area r)).length) % 65536 =
      key.rounded - (key.text (key.area r)).length := by
    omega
  simp only [stashCstring, Bool.false_eq_true, if_false, strlen_area htype, hfill]
  generalize hlength : (key.text (key.area r)).length = l at *
  generalize hpadding : replicate (key.rounded - l) key.fillChar = padding
  have hpaddingLength : padding.length = key.rounded - l := by rw [← hpadding, length_replicate]
  refine ⟨?_, ?_, fun x hx => ?_⟩
  · have hsplit : key.rounded = l + (key.rounded - l) := by omega
    have hform : plainForm key (key.area r) = cells r key.skdOffset l ++ padding := by
      simp only [plainForm, htype, hlength, area_length, hpadding]
      rw [htext]
    rw [hform, SortKeyDef.area, hsplit, cells_add]
    congr 1
    · rw [cells_store_of_disjoint (by omega), putUShort, cells_store_of_disjoint (by simp; omega)]
    · exact cells_store _ _ hpaddingLength
  · have hstash : stashed key (key.area r) = l := by
      rw [← hlength]
      simp only [stashed, htype, SortKeyDef.text]
    rw [hstash, getUShort, cells_store_of_disjoint (by omega)]
    exact getUShort_putUShort r _ (by omega)
  · obtain ⟨hzone, hstash⟩ := not_inZone hx (by simp [SortKeyDef.isVariable, htype])
    rw [store_outside (le_refl _) (by omega), putUShort_outside hstash]

end Firebird.Sort
