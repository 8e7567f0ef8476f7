import Firebird.Sort.DiddleKey

/-! # The step of one key -/

namespace Firebird.Sort
open Lib List

variable {key : SortKeyDef} {r r' : SortBytes} {p x : Nat} {area : List UInt8}
  {sorted direction duplicateHandling : Bool}

section
variable (r : SortBytes) (p : Nat)

/-- Wide keys are moved by longs of four bytes. -/
theorem cells_eight : cells r p 8 = cells r p 4 ++ cells r (p + 4) 4 := cells_add r p 4 4

theorem cells_sixteen :
    cells r p 16 = cells r p 4 ++ (cells r (p + 4) 4 ++ (cells r (p + 8) 4 ++ cells r (p + 12) 4)) := by
  rw [cells_add r p 4 12, cells_add r (p + 4) 4 8, cells_add r (p + 8) 4 4]

theorem swapEach_eight : swapEach (cells r p 8) = (cells r p 4).reverse ++ (cells r (p + 4) 4).reverse := by
  rw [cells_eight, swapEach_append (by simp), swapEach_four, swapEach_four]

theorem swapEach_sixteen : swapEach (cells r p 16) =
    (cells r p 4).reverse ++ ((cells r (p + 4) 4).reverse ++ ((cells r (p + 8) 4).reverse ++
      (cells r (p + 12) 4).reverse)) := by
  rw [cells_sixteen, swapEach_append (by simp), swapEach_append (by simp), swapEach_append (by simp), swapEach_four,
    swapEach_four, swapEach_four, swapEach_four]

/-- Swapping the longs of a wide key and then their bytes reverses it. -/
theorem cells_swapLongs_eight : cells (swapLongs r p (p + 4)) p 8 = cells r (p + 4) 4 ++ cells r p 4 := by
  rw [cells_eight, cells_swapLongs_left (le_refl _), cells_swapLongs_right]

theorem cells_swapLongs_sixteen :
    cells (swapLongs (swapLongs r p (p + 12)) (p + 4) (p + 8)) p 16 =
      cells r (p + 12) 4 ++ (cells r (p + 8) 4 ++ (cells r (p + 4) 4 ++ cells r p 4)) := by
  rw [cells_sixteen, cells_swapLongs_of_disjoint (by omega) (by omega), cells_swapLongs_left (by omega),
    cells_swapLongs_left (by omega), cells_swapLongs_of_disjoint (by omega) (by omega), cells_swapLongs_right,
    cells_swapLongs_of_disjoint (by omega) (by omega), cells_swapLongs_of_disjoint (by omega)
    (by omega), cells_swapLongs_right]

end

/-- The sign is in the last byte, which comes first in the sort. -/
theorem cells_flipSign_last (r : SortBytes) (p n : Nat) :
    (cells (flipSign r (p + n)) p (n + 1)).reverse = flipHead (cells r p (n + 1)).reverse := by
  have hlast : flipSign r (p + n) (p + n) = r (p + n) ^^^ 128 :=
    @store_at _ r (p + n) 0 [r (p + n) ^^^ 128] Nat.one_pos
  rw [cells_add, cells_add, cells_flipSign_of_disjoint (Or.inl (le_refl _))]
  simp [cells, hlast, flipHead]

/-- The integer types whose keys are compared as they are, but for their sign -/
def KeyType.signedSize : KeyType → Option Nat
  | .skdLong | .skdSqlDate => some 4
  | .skdInt64 => some 8
  | .skdInt128 => some 16
  | _ => none

theorem signed_cases {type : KeyType} {size : Nat} (h : type.signedSize = some size) :
    (type = .skdLong ∨ type = .skdSqlDate) ∧ 4 = size ∨ type = .skdInt64 ∧ 8 = size ∨
    type = .skdInt128 ∧ 16 = size := by
  cases type <;> simp_all [KeyType.signedSize]

section
variable {size : Nat} (h : KeyOk key) (hsize : key.skdDtype.signedSize = some size)
include h hsize

theorem rounded_of_signed : key.rounded = size := by
  have hfits := h.fits
  have hlength : key.skdLength = size := by
    obtain ⟨htype | htype, rfl⟩ | ⟨htype, rfl⟩ | ⟨htype, rfl⟩ := signed_cases hsize <;> rwa [htype] at hfits
  rw [SortKeyDef.rounded, hlength]
  obtain ⟨-, rfl⟩ | ⟨-, rfl⟩ | ⟨-, rfl⟩ := signed_cases hsize <;> rfl

/-- Going in, the bytes are reversed when they are swapped for the comparison. -/
theorem diddleType_signed :
    swapEach (key.area (diddleType sorted true duplicateHandling key r)) = flipHead (key.area r).reverse := by
  have hrounded := rounded_of_signed h hsize
  obtain ⟨htype, rfl⟩ | ⟨htype, rfl⟩ | ⟨htype, rfl⟩ := signed_cases hsize
  · rcases htype with htype | htype <;>
      simp only [SortKeyDef.area, diddleType, htype, hrounded, swapEach_four, cells_flipSign]
  · simp only [SortKeyDef.area, diddleType, htype, hrounded, if_true]
    rw [cells_swapLongs_eight, swapEach_append (by simp), swapEach_four, swapEach_four, ← reverse_append, ← cells_eight,
      cells_flipSign_last r _ 7]
  · simp only [SortKeyDef.area, diddleType, htype, hrounded, if_true]
    rw [cells_swapLongs_sixteen, swapEach_append (by simp), swapEach_append (by simp), swapEach_append (by simp)]
    simp only [swapEach_four, ← reverse_append]
    rw [append_assoc, append_assoc, ← cells_sixteen, cells_flipSign_last r _ 15]

/-- Coming out, the same steps undo themselves. -/
theorem diddleType_signed_back :
    (key.area (diddleType sorted false duplicateHandling key r)).reverse = flipHead (swapEach (key.area r)) := by
  have hrounded := rounded_of_signed h hsize
  obtain ⟨htype, rfl⟩ | ⟨htype, rfl⟩ | ⟨htype, rfl⟩ := signed_cases hsize
  · rcases htype with htype | htype <;>
      simp only [SortKeyDef.area, diddleType, htype, hrounded, swapEach_four, cells_flipSign]
  · simp only [SortKeyDef.area, diddleType, htype, hrounded, Bool.false_eq_true, if_false]
    rw [cells_flipSign_last _ _ 7, cells_swapLongs_eight, reverse_append, swapEach_eight]
  · simp only [SortKeyDef.area, diddleType, htype, hrounded, Bool.false_eq_true, if_false]
    rw [cells_flipSign_last _ _ 15, cells_swapLongs_sixteen, swapEach_sixteen]
    simp

theorem diddleType_signed_outside (hx : x < key.skdOffset ∨ key.skdOffset + key.rounded ≤ x) :
    diddleType sorted direction duplicateHandling key r x = r x := by
  have hrounded := rounded_of_signed h hsize
  obtain ⟨htype, rfl⟩ | ⟨htype, rfl⟩ | ⟨htype, rfl⟩ := signed_cases hsize
  · have hflip := flipSign_of_ne (r := r) (a := key.skdOffset + 3) (x := x) (by omega)
    rcases htype with htype | htype <;> simp only [diddleType, htype, hflip]
  · cases direction with
    | true =>
      simp only [diddleType, htype, if_true]
      rw [swapLongs_of_disjoint (by omega) (by omega), flipSign_of_ne (by omega)]
    | false =>
      simp only [diddleType, htype, Bool.false_eq_true, if_false]
      rw [flipSign_of_ne (by omega), swapLongs_of_disjoint (by omega) (by omega)]
  · cases direction with
    | true =>
      simp only [diddleType, htype, if_true]
      rw [swapLongs_of_disjoint (by omega) (by omega), swapLongs_of_disjoint (by omega) (by omega),
        flipSign_of_ne (by omega)]
    | false =>
      simp only [diddleType, htype, Bool.false_eq_true, if_false]
      rw [flipSign_of_ne (by omega), swapLongs_of_disjoint (by omega) (by omega),
        swapLongs_of_disjoint (by omega) (by omega)]

end

theorem rounded_of_fits {n : Nat} (hlength : key.skdLength = n) (hn : n = 4 ∨ n = 8) : key.rounded = n := by
  rw [SortKeyDef.rounded, hlength]
  rcases hn with rfl | rfl <;> rfl

/-- The area of the key has this form, and outside of it only the length of a string is put away. -/
structure Formed (key : SortKeyDef) (area : List UInt8) (form : List UInt8) (r r' : SortBytes) : Prop where
  form : swapEach (key.area r') = form
  length : key.isVariable = true → getUShort r' key.skdVaryOffset = stashed key area
  outside : ∀ x, ¬InZone key x → r' x = r x

theorem not_inZone_area (h : ¬InZone key x) : x < key.skdOffset ∨ key.skdOffset + key.rounded ≤ x := by
  simp only [InZone] at h
  omega

/-- A string goes in as its bytes, filled up, with its length put away. -/
theorem Stashed.swapped (h : KeyOk key) (hvariable : key.isVariable = true) (hstashed : Stashed key r r') :
    Formed key (key.area r) (plainForm key (key.area r)) r (swapBytes r' key.skdOffset key.rounded) where
  form := by
    rw [SortKeyDef.area, cells_swapBytes, swapEach_swapEach]
    exact hstashed.area
  length _ := by
    have hapart := h.apart hvariable
    rw [← hstashed.length, getUShort, swapBytes, cells_store_of_disjoint (by simp; omega), getUShort]
  outside x hx := by
    rw [swapBytes, store_outside (by simp) (not_inZone_area hx)]
    exact hstashed.outside x hx

/-- By cases on the type of the key. -/
theorem diddleType_forward (h : KeyOk key) (hfits : Fits key (key.area r))
    (hwhole : duplicateHandling = false ∨ key.skdSeparateData = false) :
    Formed key (key.area r) (plainForm key (key.area r)) r (diddleType false true duplicateHandling key r) := by
  have hswap : ((true && !duplicateHandling) || !key.skdSeparateData) = true := by
    rcases hwhole with hdup | hseparate
    · simp [hdup]
    · simp [hseparate]
  have hsigned : ∀ size, key.skdDtype.signedSize = some size → plainForm key (key.area r) =
      flipHead (key.area r).reverse →
      Formed key (key.area r) (plainForm key (key.area r)) r (diddleType false true duplicateHandling key r) := by
    intro size hsize hform
    refine ⟨by rw [hform, diddleType_signed h hsize], fun hvariable => ?_, fun x hx => ?_⟩
    · cases htype : key.skdDtype <;> simp [SortKeyDef.isVariable, KeyType.signedSize, htype] at hvariable hsize
    · exact diddleType_signed_outside h hsize (not_inZone_area hx)
  have hfixed : plainForm key (key.area r) = key.area r → key.isVariable ≠ true →
      Formed key (key.area r) (plainForm key (key.area r)) r (swapBytes r key.skdOffset key.rounded) := by
    intro hform hno
    refine ⟨?_, fun hvariable => absurd hvariable hno, fun x hx => store_outside (by simp) (not_inZone_area hx)⟩
    rw [hform, SortKeyDef.area, cells_swapBytes, swapEach_swapEach]
    rfl
  cases htype : key.skdDtype with
  | skdLong | skdSqlDate | skdInt64 | skdInt128 =>
      exact hsigned _ (by rw [htype]; rfl) (by simp only [plainForm, htype])
  | skdUlong =>
    have hlength := h.fits
    rw [htype] at hlength
    have hrounded := rounded_of_fits hlength (Or.inl rfl)
    refine ⟨?_, by simp [SortKeyDef.isVariable, htype], fun x _ => by simp [diddleType, htype]⟩
    simp only [diddleType, plainForm, htype, SortKeyDef.area, hrounded, swapEach_four]
  | skdTimestamp =>
    have hlength := h.fits
    rw [htype] at hlength
    have hrounded := rounded_of_fits hlength (Or.inr rfl)
    refine ⟨?_, by simp [SortKeyDef.isVariable, htype], fun x hx => ?_⟩
    · simp only [diddleType, plainForm, htype, SortKeyDef.area, hrounded, swapEach_eight, cells_flipSign]
      rw [cells_flipSign_of_disjoint (Or.inr (by omega)), cells_eight, take_left' (by simp), drop_left' (by simp)]
    · have hx := not_inZone_area hx
      simp only [diddleType, htype]
      exact flipSign_of_ne (by omega)
  | skdText | skdBytes =>
    simp only [diddleType, htype, hswap, if_true]
    exact hfixed (by simp only [plainForm, htype]) (by simp [SortKeyDef.isVariable, htype])
  | skdVarying =>
    simp only [diddleType, htype, hswap, if_true]
    exact (stashVarying_spec h htype hfits).swapped h (by simp [SortKeyDef.isVariable, htype])
  | skdCstring =>
    simp only [diddleType, htype, hswap, if_true]
    exact (stashCstring_spec h htype hfits).swapped h (by simp [SortKeyDef.isVariable, htype])

/-- A descending key is complemented in the end. -/
theorem diddleOne_forward (h : KeyOk key) (hfits : Fits key (key.area r))
    (hwhole : duplicateHandling = false ∨ key.skdSeparateData = false) :
    Formed key (key.area r) (sortedForm key (key.area r)) r (diddleOne false true duplicateHandling key r) := by
  have hstep := diddleType_forward h hfits hwhole
  cases hdescending : key.skdDescending with
  | false =>
    simp only [diddleOne, hdescending, sortedForm, Bool.false_eq_true, if_false, if_true]
    exact hstep
  | true =>
    simp only [diddleOne, hdescending, sortedForm, if_true]
    refine ⟨?_, fun hvariable => ?_, fun x hx => ?_⟩
    · rw [SortKeyDef.area, cells_complement, swapEach_map]
      exact congrArg _ hstep.form
    · have hapart := h.apart hvariable
      rw [← hstep.length hvariable, getUShort, complement, cells_store_of_disjoint (by simp; omega), getUShort]
    · rw [complement, store_outside (by simp) (not_inZone_area hx)]
      exact hstep.outside x hx

/-! ### Coming out -/

/-- The bytes of a key that are not needed to keep its value are those behind a string. -/
def restoredForm (key : SortKeyDef) (area : List UInt8) : List UInt8 :=
  if key.isVariable then plainForm key area else area

/-- What descending keys are stored as -/
def complementIf (descending : Bool) (l : List UInt8) : List UInt8 := if descending then l.map (~~~·) else l

@[simp] theorem complementIf_complementIf (descending : Bool) (l : List UInt8) :
    complementIf descending (complementIf descending l) = l := by
  cases descending <;> simp [complementIf, Function.comp_def]

theorem sortedForm_eq (key : SortKeyDef) (area : List UInt8) :
    sortedForm key area = complementIf key.skdDescending (plainForm key area) := rfl

section
variable (descending : Bool)

@[simp] theorem length_complementIf (l : List UInt8) : (complementIf descending l).length = l.length := by
  cases descending <;> simp [complementIf]

theorem complementIf_append (l t : List UInt8) :
    complementIf descending (l ++ t) = complementIf descending l ++ complementIf descending t := by
  cases descending <;> simp [complementIf]

theorem complementIf_reverse (l : List UInt8) :
    (complementIf descending l).reverse = complementIf descending l.reverse := by
  cases descending <;> simp [complementIf]

/-- Complements and sign flips may be exchanged. -/
theorem flipHead_complementIf (l : List UInt8) :
    flipHead (complementIf descending l) = complementIf descending (flipHead l) := by
  cases descending
  · rfl
  · exact flipHead_complement l

end

/-- By cases on the type; the complement of a descending key is still there. -/
theorem diddleType_back (sorted duplicateHandling : Bool) (h : KeyOk key) (hlength : area.length = key.rounded)
    (hform : swapEach (key.area r) = sortedForm key area) (hwhole : key.skdSeparateData = false) :
    key.area (diddleType sorted false duplicateHandling key r) = complementIf key.skdDescending
    (restoredForm key area) := by
  rw [sortedForm_eq] at hform
  have hsigned : ∀ size, key.skdDtype.signedSize = some size → plainForm key area = flipHead area.reverse →
      restoredForm key area = area →
      key.area (diddleType sorted false duplicateHandling key r) = complementIf key.skdDescending
      (restoredForm key area) := by
    intro size hsize hplain hrestored
    refine reverse_injective ?_
    rw [diddleType_signed_back h hsize, hform, hplain, hrestored, flipHead_complementIf,
      flipHead_flipHead, complementIf_reverse]
  have hstring : plainForm key area = restoredForm key area →
      key.area (swapBytes r key.skdOffset key.rounded) = complementIf key.skdDescending (restoredForm key area) := by
    intro hplain
    rw [SortKeyDef.area, cells_swapBytes, ← hplain]
    exact hform
  cases htype : key.skdDtype with
  | skdLong | skdSqlDate | skdInt64 | skdInt128 =>
    exact hsigned _ (by rw [htype]; rfl) (by simp only [plainForm, htype])
      (by simp [restoredForm, SortKeyDef.isVariable, htype])
  | skdUlong =>
    have hsize := h.fits
    rw [htype] at hsize
    have hrounded := rounded_of_fits hsize (Or.inl rfl)
    have hrestored : restoredForm key area = area := by simp [restoredForm, SortKeyDef.isVariable, htype]
    simp only [plainForm, htype, SortKeyDef.area, hrounded, swapEach_four] at hform
    refine reverse_injective ?_
    rw [hrestored, complementIf_reverse, ← hform]
    simp only [diddleType, htype, SortKeyDef.area, hrounded]
  | skdTimestamp =>
    have hsize := h.fits
    rw [htype] at hsize
    have hrounded := rounded_of_fits hsize (Or.inr rfl)
    have hrestored : restoredForm key area = area := by simp [restoredForm, SortKeyDef.isVariable, htype]
    simp only [plainForm, htype, SortKeyDef.area, hrounded, swapEach_eight, complementIf_append] at hform
    have hfour : (area.take 4).length = 4 := by simp [hlength, hrounded]
    obtain ⟨hdate, htime⟩ := append_inj hform (by simp [hfour])
    have hfirst : cells (flipSign r (key.skdOffset + 3)) key.skdOffset 4 = complementIf
        key.skdDescending (area.take 4) := by
      refine reverse_injective ?_
      rw [cells_flipSign, hdate, flipHead_complementIf, flipHead_flipHead, complementIf_reverse]
    have hsecond : cells (flipSign r (key.skdOffset + 3)) (key.skdOffset + 4) 4 = complementIf
        key.skdDescending (area.drop 4) := by
      refine reverse_injective ?_
      rw [cells_flipSign_of_disjoint (Or.inr (by omega)), htime, complementIf_reverse]
    simp only [diddleType, htype, SortKeyDef.area, hrounded]
    rw [hrestored, cells_eight, hfirst, hsecond, ← complementIf_append, take_append_drop]
  | skdText | skdBytes =>
    simp only [diddleType, htype, hwhole, Bool.not_false, Bool.or_true, if_true]
    exact hstring (by simp [plainForm, restoredForm, SortKeyDef.isVariable, htype])
  | skdVarying | skdCstring =>
    simp only [diddleType, htype, hwhole, Bool.not_false, Bool.or_true, if_true]
    exact hstring (by simp [restoredForm, SortKeyDef.isVariable, htype])

theorem diddleType_back_outside (sorted duplicateHandling : Bool) (h : KeyOk key)
    (hx : x < key.skdOffset ∨ key.skdOffset + key.rounded ≤ x) :
    diddleType sorted false duplicateHandling key r x = r x := by
  have hswap : ∀ b : Bool, (if b then swapBytes r key.skdOffset key.rounded else r) x = r x := by
    intro b
    cases b with
    | true => exact store_outside (by simp) hx
    | false => rfl
  match htype : key.skdDtype with
  | .skdLong | .skdSqlDate | .skdInt64 | .skdInt128 => exact diddleType_signed_outside h (by rw [htype]; rfl) hx
  | .skdUlong => simp only [diddleType, htype]
  | .skdTimestamp =>
    have hsize := h.fits
    rw [htype] at hsize
    have hrounded := rounded_of_fits hsize (Or.inr rfl)
    simp only [diddleType, htype]
    exact flipSign_of_ne (by omega)
  | .skdText | .skdBytes | .skdVarying | .skdCstring =>
    simp only [diddleType, htype]
    exact hswap _

/-- A C string ends with its first zero byte. -/
theorem take_zero_behind (hlt : (area.takeWhile (· ≠ 0)).length < area.length) :
    area.take ((area.takeWhile (· ≠ 0)).length + 1) = area.takeWhile (· ≠ 0) ++ [0] := by
  induction area with
  | nil => exact absurd hlt (Nat.not_lt_zero _)
  | cons x area ih =>
    by_cases hx : x = 0
    · simp [hx]
    · have htext : (x :: area).takeWhile (· ≠ 0) = x :: area.takeWhile (· ≠ 0) :=
        takeWhile_cons_of_pos (by simpa using hx)
      rw [htext] at hlt ⊢
      rw [length_cons, take_succ_cons, ih (Nat.lt_of_succ_lt_succ hlt), cons_append]

/-- The record has the value of the key back. -/
def HasValue (key : SortKeyDef) (area : List UInt8) (r : SortBytes) : Prop :=
  (key.area r).take (key.valueLength area) = area.take (key.valueLength area)

theorem leBytes_take_two (h : 2 ≤ area.length) : leBytes 2 (leValue (area.take 2)) = area.take 2 := by
  match area, h with
  | x :: y :: _, _ =>
    have hcells := leBytes_leValue (fun a => if a = 0 then x else y) 0
    exact hcells

section
variable (hfits : Fits key area) (hstash : key.isVariable = true → getUShort r key.skdVaryOffset = stashed key area)
include hfits hstash

/-- The length put away is that of the string. -/
theorem varying_room (htype : key.skdDtype = .skdVarying) :
    2 + leValue (area.take 2) ≤ key.skdLength ∧ getUShort r key.skdVaryOffset = leValue (area.take 2) :=
  ⟨by simpa only [Fits, htype] using hfits, by simpa [stashed, htype, SortKeyDef.isVariable] using hstash⟩

theorem cstring_room (htype : key.skdDtype = .skdCstring) : (area.takeWhile (· ≠ 0)).length < key.skdLength ∧
    getUShort r key.skdVaryOffset = (area.takeWhile (· ≠ 0)).length :=
  ⟨by simpa only [Fits, htype] using hfits,
    by simpa only [stashed, htype] using hstash (by simp [SortKeyDef.isVariable, htype])⟩

theorem restoreControl_outside (h : KeyOk key)
    (hx : x < key.skdOffset ∨ key.skdOffset + key.rounded ≤ x) : restoreControl key r x = r x := by
  have hle := h.le_rounded
  match htype : key.skdDtype with
  | .skdVarying =>
    have htwo := h.two_le htype
    simp only [restoreControl, htype]
    exact putUShort_outside (by omega)
  | .skdCstring =>
    obtain ⟨hroom, hlen⟩ := cstring_room hfits hstash htype
    simp only [restoreControl, htype, hlen]
    exact store_outside (n := 1) (le_refl _) (by omega)
  | .skdLong | .skdUlong | .skdInt64 | .skdInt128 | .skdSqlDate | .skdTimestamp | .skdText | .skdBytes =>
    simp only [restoreControl, htype]

theorem restoreControl_back (h : KeyOk key) (hlength : area.length = key.rounded)
    (harea : key.area r = restoredForm key area) : HasValue key area (restoreControl key r) := by
  have hle := h.le_rounded
  match htype : key.skdDtype with
  | .skdVarying =>
    obtain ⟨hroom, hlen⟩ := varying_room hfits hstash htype
    simp only [restoredForm, SortKeyDef.isVariable, plainForm, htype] at harea
    have hsplit : key.rounded = 2 + (key.rounded - 2) := by omega
    have hbehind : cells r (key.skdOffset + 2) (key.rounded - 2) =
        key.text area ++ replicate (area.length - 2 - (key.text area).length) key.fillChar := by
      rw [SortKeyDef.area, hsplit, cells_add] at harea
      exact (append_inj harea (by simp)).2
    have hnew : key.area (putUShort r key.skdOffset (leValue (area.take 2))) =
        area.take 2 ++ (key.text area ++ replicate (area.length - 2 - (key.text area).length) key.fillChar) := by
      rw [SortKeyDef.area, hsplit, cells_add, putUShort, cells_store r _ (leBytes_length 2 _),
        cells_store_of_disjoint (by rw [leBytes_length]; omega), hbehind, leBytes_take_two (by omega)]
    have hfirst : (area.take 2).length = 2 := by rw [length_take]; omega
    have htext : key.text area = (area.drop 2).take (leValue (area.take 2)) := by simp only [SortKeyDef.text, htype]
    have htextLength : (key.text area).length = leValue (area.take 2) := by
      rw [htext, length_take, length_drop]
      omega
    simp only [HasValue, SortKeyDef.valueLength, restoreControl, htype, hlen]
    rw [hnew, take_append, hfirst, Nat.add_sub_cancel_left, take_left' htextLength, htext,
      take_of_length_le (by omega), ← take_add]
  | .skdCstring =>
    obtain ⟨hroom, hlen⟩ := cstring_room hfits hstash htype
    have hzero : area.take ((area.takeWhile (· ≠ 0)).length + 1) = area.takeWhile (· ≠ 0) ++ [0] :=
      take_zero_behind (by omega)
    simp only [restoredForm, SortKeyDef.isVariable, plainForm, htype, SortKeyDef.text] at harea
    simp only [HasValue, SortKeyDef.valueLength, restoreControl, htype, hlen]
    generalize htext : area.takeWhile (· ≠ 0) = text at *
    have hsplit : key.rounded = text.length + (1 + (key.rounded - text.length - 1)) := by omega
    have hcells : cells r key.skdOffset text.length = text := by
      rw [SortKeyDef.area, hsplit, cells_add] at harea
      exact (append_inj harea (by simp)).1
    rw [hzero, SortKeyDef.area, hsplit, cells_add, cells_add, cells_store_of_disjoint (Or.inl (le_refl _)), hcells,
      cells_store r _ (by simp), ← append_assoc, take_left' (by simp)]
  | .skdLong | .skdUlong | .skdInt64 | .skdInt128 | .skdSqlDate | .skdTimestamp | .skdText | .skdBytes =>
    have hvalue : key.area r = area := by simpa [restoredForm, SortKeyDef.isVariable, htype] using harea
    simp only [HasValue, restoreControl, htype, hvalue]

end

section
variable (sorted duplicateHandling : Bool) (h : KeyOk key)
include h

/-- Coming out, the complement is undone before the length of a string is restored. -/
theorem exists_plain (r : SortBytes) :
    ∃ plain, diddleOne sorted false duplicateHandling key r = restoreControl key plain ∧
      key.area plain = complementIf key.skdDescending (key.area (diddleType sorted false duplicateHandling key r)) ∧
      (∀ x, x < key.skdOffset ∨ key.skdOffset + key.rounded ≤ x → plain x = r x) ∧
      (key.isVariable = true → getUShort plain key.skdVaryOffset = getUShort r key.skdVaryOffset) := by
  refine ⟨if key.skdDescending then
      complement (diddleType sorted false duplicateHandling key r) key.skdOffset key.rounded
    else diddleType sorted false duplicateHandling key r, rfl, ?_, ?_⟩
  · cases key.skdDescending with
    | true => simp only [if_true, SortKeyDef.area, cells_complement, complementIf]
    | false => simp [complementIf]
  · generalize hplain : (if key.skdDescending then
      complement (diddleType sorted false duplicateHandling key r) key.skdOffset key.rounded
      else diddleType sorted false duplicateHandling key r) = plain
    have hkept : ∀ x, x < key.skdOffset ∨ key.skdOffset + key.rounded ≤ x → plain x = r x := by
      intro x hx
      have hstep := diddleType_back_outside (r := r) sorted duplicateHandling h hx
      rw [← hstep, ← hplain]
      cases key.skdDescending with
      | true => exact store_outside (by simp) hx
      | false => rfl
    refine ⟨hkept, fun hvariable => ?_⟩
    have hapart := h.apart hvariable
    exact congrArg leValue (cells_congr fun x hx hx' => hkept x (by omega))

variable (hfits : Fits key area) (hstash : key.isVariable = true → getUShort r key.skdVaryOffset = stashed key area)
include hfits hstash

theorem diddleOne_back_outside
    (hx : x < key.skdOffset ∨ key.skdOffset + key.rounded ≤ x) :
    diddleOne sorted false duplicateHandling key r x = r x := by
  obtain ⟨plain, hone, -, hkept, hlength⟩ := exists_plain sorted duplicateHandling h r
  have hplain : restoreControl key plain x = plain x :=
    restoreControl_outside hfits (fun hvariable => (hlength hvariable).trans (hstash hvariable)) h hx
  rw [hone, hplain, hkept x hx]

theorem diddleOne_back (hlength : area.length = key.rounded) (hform : swapEach (key.area r) = sortedForm key area)
    (hwhole : key.skdSeparateData = false) :
    HasValue key area (diddleOne sorted false duplicateHandling key r) := by
  obtain ⟨plain, hone, harea, -, hplain⟩ := exists_plain sorted duplicateHandling h r
  rw [diddleType_back sorted duplicateHandling h hlength hform hwhole, complementIf_complementIf] at harea
  rw [hone]
  exact restoreControl_back hfits (fun hvariable => (hplain hvariable).trans (hstash hvariable)) h hlength harea

end

end Firebird.Sort
