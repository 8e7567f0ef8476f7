import Firebird.Sort.DiddleStep

/-! # The keys of a record

A record that is put has all its keys diddled, one after the other, and a record that is got has them diddled back. -/

namespace Firebird.Sort
open List Lib

variable {key : SortKeyDef} {description : List SortKeyDef} {r r' : SortBytes} {x : Nat} {area : List UInt8}

/-- Keys that keep to bytes of their own. -/
structure DescriptionOk (description : List SortKeyDef) : Prop where
  keys : ∀ key ∈ description, KeyOk key
  apart : description.Pairwise fun key key' => ∀ x, InZone key x → ¬InZone key' x

def RecordFits (description : List SortKeyDef) (r : SortBytes) : Prop := ∀ key ∈ description, Fits key (key.area r)

/-- The key is in the form that is compared, and the length of its string at the other place. -/
structure InSortedForm (key : SortKeyDef) (area : List UInt8) (r : SortBytes) : Prop where
  form : swapEach (key.area r) = sortedForm key area
  length : key.isVariable = true → getUShort r key.skdVaryOffset = stashed key area

theorem area_congr (h : ∀ x, InZone key x → r' x = r x) : key.area r' = key.area r :=
  cells_congr fun x hx hx' => h x (Or.inl ⟨hx, hx'⟩)

theorem stash_congr (h : ∀ x, InZone key x → r' x = r x) (hvariable : key.isVariable = true) :
    getUShort r' key.skdVaryOffset = getUShort r key.skdVaryOffset :=
  congrArg leValue (cells_congr fun x hx hx' => h x (Or.inr ⟨hvariable, hx, hx'⟩))

theorem ofCells_area (P : List UInt8 → Prop) : OfCells (InZone key) fun r => P (key.area r) := by
  intro r r' h hP
  rwa [← area_congr h] at hP

theorem ofCells_inSortedForm : OfCells (InZone key) (InSortedForm key area) := by
  intro r r' h hform
  refine ⟨?_, fun hvariable => ?_⟩
  · rw [area_congr h]
    exact hform.form
  · rw [stash_congr h hvariable]
    exact hform.length hvariable

theorem diddleKey_forward (h : DescriptionOk description) (hfits : RecordFits description r) :
    (∀ key ∈ description, InSortedForm key (key.area r) (diddleKey false true false description r)) ∧
      ∀ x, (∀ key ∈ description, ¬InZone key x) → diddleKey false true false description r x = r x := by
  refine foldl_zones (fun key mem => key.area mem = key.area r) (fun key => InSortedForm key (key.area r)) h.apart
    (fun key _ => ofCells_area fun area => area = key.area r) (fun key _ => ofCells_inSortedForm)
    (fun key hkey mem hmem => ?_) fun _ _ => rfl
  have hfit := hfits key hkey
  rw [← hmem] at hfit
  have hstep : Formed key (key.area mem) (sortedForm key (key.area mem)) mem (diddleOne false true false key mem) :=
    diddleOne_forward (h.keys key hkey) hfit (Or.inl rfl)
  rw [← hmem]
  exact ⟨⟨hstep.form, hstep.length⟩, hstep.outside⟩

theorem diddleKey_back (sorted duplicateHandling : Bool) (h : DescriptionOk description)
    (hfits : RecordFits description r)
    (hform : ∀ key ∈ description, InSortedForm key (key.area r) r') (hkey : key ∈ description)
    (hwhole : key.skdSeparateData = false) : HasValue key (key.area r)
    (diddleKey sorted false duplicateHandling description r') := by
  have hfold := foldl_zones (fun key => InSortedForm key (key.area r))
    (fun key mem => key.skdSeparateData = false → HasValue key (key.area r) mem) h.apart
    (f := diddleOne sorted false duplicateHandling) (fun key _ => ofCells_inSortedForm) (fun key _ => ?_)
    (fun key hkey mem hmem => ?_) hform
  · exact hfold.1 key hkey hwhole
  · exact ofCells_area fun area => key.skdSeparateData = false → area.take (key.valueLength (key.area r)) = _
  · refine ⟨fun hwhole => ?_, fun x hx => ?_⟩
    · exact diddleOne_back sorted duplicateHandling (h.keys key hkey) (hfits key hkey) hmem.length (area_length key r)
        hmem.form hwhole
    · exact diddleOne_back_outside sorted duplicateHandling (h.keys key hkey) (hfits key hkey)
        hmem.length (not_inZone_area hx)

theorem valueLength_eq (h : KeyOk key) (hfits : Fits key area) (hlength : area.length = key.rounded)
    (hvalue : HasValue key area r) : key.valueLength (key.area r) = key.valueLength area := by
  have hle := h.le_rounded
  match htype : key.skdDtype with
  | .skdVarying =>
    simp only [HasValue, SortKeyDef.valueLength, htype] at hvalue ⊢
    have htake := congrArg (take 2) hvalue
    rw [take_take, take_take, Nat.min_eq_left (Nat.le_add_right _ _)] at htake
    rw [htake]
  | .skdCstring =>
    have hroom : (area.takeWhile (· ≠ 0)).length < key.skdLength := by simpa only [Fits, htype] using hfits
    have hzero : area.take ((area.takeWhile (· ≠ 0)).length + 1) = area.takeWhile (· ≠ 0) ++ [0] :=
      take_zero_behind (by omega)
    simp only [HasValue, SortKeyDef.valueLength, htype] at hvalue ⊢
    have hnonzero : ∀ x ∈ area.takeWhile (· ≠ 0), decide (x ≠ 0) = true := by
      intro x hx
      have hmem := mem_takeWhile_imp hx
      simpa using hmem
    have hsplit := take_append_drop ((area.takeWhile (· ≠ 0)).length + 1) (key.area r)
    rw [hvalue, hzero] at hsplit
    rw [← hsplit, append_assoc, takeWhile_append_of_pos hnonzero]
    simp
  | .skdLong | .skdUlong | .skdInt64 | .skdInt128 | .skdSqlDate | .skdTimestamp | .skdText | .skdBytes =>
    simp only [SortKeyDef.valueLength, htype]

theorem HasValue.value_eq (h : KeyOk key) (hfits : Fits key (key.area r)) (hvalue : HasValue key (key.area r) r') :
    key.value r' = key.value r := by
  rw [SortKeyDef.value, valueLength_eq h hfits (area_length key r) hvalue]
  exact hvalue

theorem value_diddleKey (sorted duplicateHandling : Bool) (h : DescriptionOk description)
    (hfits : RecordFits description r) (hkey : key ∈ description) (hwhole : key.skdSeparateData = false) :
    key.value (diddleKey sorted false duplicateHandling description (diddleKey false true false description r)) =
    key.value r := by
  obtain ⟨hform, -⟩ := diddleKey_forward h hfits
  have hvalue := diddleKey_back sorted duplicateHandling h hfits hform hkey hwhole
  exact hvalue.value_eq (h.keys key hkey) (hfits key hkey)

end Firebird.Sort
