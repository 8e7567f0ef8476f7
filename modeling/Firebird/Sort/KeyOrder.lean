import Firebird.Sort.KeyValues

/-! # The order of records

Records whose keys are in their sorted form are compared longword by longword as unsigned numbers. -/

namespace Firebird.Sort
open Lib List

variable {key : SortKeyDef} {keys description : List SortKeyDef} {r r' R R' : SortBytes} {a e : Nat}
  {area area' : List UInt8}

/-- The bytes of a key that a value of it can be told by: padding fills up the key of a string of varying length. -/
def SortKeyDef.extent (key : SortKeyDef) : Nat := if key.isVariable then key.rounded else key.skdLength

structure InOrder (description : List SortKeyDef) : Prop where
  ascending : description.Pairwise fun key key' => key.skdOffset + key.rounded ≤ key'.skdOffset
  aligned : ∀ key ∈ description, 4 ∣ key.skdOffset
  behind : ∀ key ∈ description, key.isVariable = true → 4 * keyLength description ≤ key.skdVaryOffset

/-- The compared bytes that are in no value are the same in both records. -/
def SameFill (description : List SortKeyDef) (r r' : SortBytes) : Prop :=
  ∀ x, x < 4 * keyLength description →
    (∀ key ∈ description, ¬(key.skdOffset ≤ x ∧ x < key.skdOffset + key.extent)) → r x = r' x

theorem compare_reverse (h : area.length = area'.length) :
    compare area.reverse area'.reverse = compare (leValue area) (leValue area') := by
  rw [compare_beValue (by simpa using h), beValue_reverse, beValue_reverse]

theorem compare_plainForm (hlength : area.length = key.rounded) (hlength' : area'.length = key.rounded)
    (hfill : area.drop key.extent = area'.drop key.extent) :
    compare (plainForm key area) (plainForm key area') = key.compareAreas area area' := by
  have hsame := hlength.trans hlength'.symm
  match htype : key.skdDtype with
  | .skdLong | .skdInt64 | .skdInt128 | .skdSqlDate =>
    simp only [plainForm, SortKeyDef.compareAreas, htype]
    exact compare_signedValue hsame
  | .skdUlong =>
    simp only [plainForm, SortKeyDef.compareAreas, htype]
    exact compare_reverse hsame
  | .skdTimestamp =>
    simp only [plainForm, SortKeyDef.compareAreas, htype]
    rw [compare_append (by simp [hsame]), compare_signedValue (by simp [hsame]), compare_reverse (by simp [hsame])]
  | .skdText | .skdBytes =>
    have hextent : key.extent = key.skdLength := by simp [SortKeyDef.extent, SortKeyDef.isVariable, htype]
    rw [hextent] at hfill
    simp only [plainForm, SortKeyDef.compareAreas, SortKeyDef.text, htype]
    have hsplit : compare (area.take key.skdLength ++ area.drop key.skdLength) (area'.take key.skdLength ++
        area'.drop key.skdLength) = (compare (area.take key.skdLength) (area'.take key.skdLength)).then
          (compare (area.drop key.skdLength) (area'.drop key.skdLength)) := compare_append (by simp [hsame])
    rwa [take_append_drop, take_append_drop, hfill, compare_refl, Ordering.then_eq] at hsplit
  | .skdVarying =>
    have htext : ∀ area, (key.text area).length ≤ area.length - 2 := by
      intro area
      simp only [SortKeyDef.text, htype, length_take, length_drop]
      exact Nat.min_le_right _ _
    have hroom := htext area'
    rw [← hsame] at hroom
    simp only [plainForm, SortKeyDef.compareAreas, htype]
    rw [compare_append rfl, compare_refl, Ordering.eq_then, ← hsame, compare_padded _ (htext area) hroom]
  | .skdCstring =>
    have htext : ∀ area, (key.text area).length ≤ area.length := by
      intro area
      simp only [SortKeyDef.text, htype]
      exact (List.takeWhile_prefix _).length_le
    have hroom := htext area'
    rw [← hsame] at hroom
    simp only [plainForm, SortKeyDef.compareAreas, htype]
    rw [← hsame, compare_padded _ (htext area) hroom]

theorem compare_sortedForm (hfill : (key.area r).drop key.extent = (key.area r').drop key.extent)
    (hplain : (plainForm key (key.area r)).length = (plainForm key (key.area r')).length) :
    compare (sortedForm key (key.area r)) (sortedForm key (key.area r')) = key.compareValues r r' := by
  have hcompare := compare_plainForm (area_length key r) (area_length key r') hfill
  cases hdescending : key.skdDescending with
  | false =>
    simp only [sortedForm, SortKeyDef.compareValues, hdescending, Bool.false_eq_true, if_false]
    exact hcompare
  | true =>
    simp only [sortedForm, SortKeyDef.compareValues, hdescending, if_true]
    rw [compare_complement hplain, hcompare]

/-! ### All keys -/

theorem extent_le (h : KeyOk key) : key.extent ≤ key.rounded := by
  unfold SortKeyDef.extent
  split
  · exact le_refl _
  · exact h.le_rounded

theorem InSortedForm.length_plainForm (hform : InSortedForm key area R) :
    (plainForm key area).length = key.rounded := by
  have hlength := congrArg List.length hform.form
  rw [length_swapEach, area_length, sortedForm_eq, length_complementIf] at hlength
  exact hlength.symm

theorem compare_keys (haligned : 4 ∣ a) (hkeys : ∀ key ∈ keys, KeyOk key ∧ 4 ∣ key.skdOffset)
    (hascending : keys.Pairwise fun key key' => key.skdOffset + key.rounded ≤ key'.skdOffset)
    (hbetween : ∀ key ∈ keys, a ≤ key.skdOffset ∧ key.skdOffset + key.rounded ≤ e)
    (hform : ∀ key ∈ keys, InSortedForm key (key.area r) R ∧ InSortedForm key (key.area r') R')
    (hfill : ∀ key ∈ keys, (key.area r).drop key.extent = (key.area r').drop key.extent)
    (hgap : ∀ x, a ≤ x → x < e → (∀ key ∈ keys, ¬(key.skdOffset ≤ x ∧ x < key.skdOffset + key.rounded)) → R x = R' x) :
    compare (swapEach (cells R a (e - a))) (swapEach (cells R' a (e - a))) = compareKeys keys r r' := by
  induction keys generalizing a with
  | nil =>
    rw [cells_congr fun x hx hx' => hgap x hx (by omega) (by simp), compare_refl]
    rfl
  | cons key keys ih =>
    obtain ⟨hok, hoffset⟩ := hkeys key mem_cons_self
    obtain ⟨hstart, hend⟩ := hbetween key mem_cons_self
    obtain ⟨hR, hR'⟩ := hform key mem_cons_self
    obtain ⟨hafter, hascending⟩ := pairwise_cons.mp hascending
    have hfour := @four_dvd_rounded key
    have hsplit : e - a = (key.skdOffset - a) + (key.rounded + (e - (key.skdOffset + key.rounded))) := by omega
    have hbytes : ∀ mem : SortBytes, swapEach (cells mem a (e - a)) =
        swapEach (cells mem a (key.skdOffset - a)) ++ (swapEach (key.area mem) ++
          swapEach (cells mem (key.skdOffset + key.rounded) (e - (key.skdOffset + key.rounded)))) := by
      intro mem
      rw [hsplit, cells_add, cells_add, swapEach_append (by rw [length_cells]; exact Nat.dvd_sub hoffset haligned),
        swapEach_append (by rw [length_cells]; exact hfour), Nat.add_sub_cancel' hstart]
      rfl
    have hbefore : cells R a (key.skdOffset - a) = cells R' a (key.skdOffset - a) := by
      refine cells_congr fun x hx hx' => hgap x hx (by omega) fun key' hkey' => ?_
      rcases mem_cons.mp hkey' with rfl | hkey'
      · omega
      · have hlater := hafter key' hkey'
        omega
    have hvalue := compare_sortedForm (hfill key mem_cons_self) (hR.length_plainForm.trans hR'.length_plainForm.symm)
    rw [hbytes R, hbytes R', compare_append (by simp), compare_append (by simp [area_length]), hbefore, compare_refl,
      Ordering.eq_then, hR.form, hR'.form, hvalue]
    refine congrArg _ (ih (Nat.dvd_add hoffset hfour) (fun key' hkey' => hkeys key' (mem_cons_of_mem _ hkey'))
      hascending (fun key' hkey' => ⟨hafter key' hkey', (hbetween key' (mem_cons_of_mem _ hkey')).2⟩)
      (fun key' hkey' => hform key' (mem_cons_of_mem _ hkey')) (fun key' hkey' => hfill key' (mem_cons_of_mem _ hkey'))
      fun x hx hx' hnone => hgap x (by omega) hx' fun key' hkey' => ?_)
    rcases mem_cons.mp hkey' with rfl | hkey'
    · omega
    · exact hnone key' hkey'

theorem le_keyLength (hascending : description.Pairwise fun key key' => key.skdOffset + key.rounded ≤ key'.skdOffset)
    (hkeys : ∀ key ∈ description, KeyOk key ∧ 4 ∣ key.skdOffset) (hkey : key ∈ description) :
    key.skdOffset + key.rounded ≤ 4 * keyLength description := by
  obtain ⟨first, last, rfl⟩ := eq_nil_or_concat description |>.resolve_left (ne_nil_of_mem hkey)
  rw [concat_eq_append] at *
  obtain ⟨hok, hoffset⟩ := hkeys last (by simp)
  have hshort := hok.short
  have hlength : 4 * keyLength (first ++ [last]) = last.skdOffset + last.rounded := by
    simp only [keyLength, getLast?_append, getLast?_singleton, Option.some_or, SortKeyDef.rounded]
    omega
  rw [hlength]
  rcases mem_append.mp hkey with hfirst | hlast
  · have hbefore := (pairwise_append.mp hascending).2.2 key hfirst last (by simp)
    omega
  · obtain rfl := mem_singleton.mp hlast
    exact le_refl _

theorem eq_of_mem_areas (hascending : description.Pairwise fun key key' => key.skdOffset + key.rounded ≤ key'.skdOffset)
    {key key' : SortKeyDef} (hkey : key ∈ description) (hkey' : key' ∈ description) {x : Nat}
    (hx : key.skdOffset ≤ x ∧ x < key.skdOffset + key.rounded)
    (hx' : key'.skdOffset ≤ x ∧ x < key'.skdOffset + key'.rounded) : key = key' := by
  induction description with
  | nil => exact absurd hkey not_mem_nil
  | cons first rest ih =>
    obtain ⟨hafter, hascending⟩ := pairwise_cons.mp hascending
    rcases mem_cons.mp hkey with rfl | hrest
    · rcases mem_cons.mp hkey' with rfl | hrest'
      · rfl
      · have hlater := hafter key' hrest'
        omega
    · rcases mem_cons.mp hkey' with rfl | hrest'
      · have hlater := hafter key hrest
        omega
      · exact ih hascending hrest hrest'

theorem compare_diddleKey (h : DescriptionOk description) (horder : InOrder description)
    (hfits : RecordFits description r) (hfits' : RecordFits description r') (hfill : SameFill description r r') :
    compare (keyLongwords description (diddleKey false true false description r))
      (keyLongwords description (diddleKey false true false description r')) = compareKeys description r r' := by
  obtain ⟨hform, houtside⟩ := diddleKey_forward h hfits
  obtain ⟨hform', houtside'⟩ := diddleKey_forward h hfits'
  have hkeys : ∀ key ∈ description, KeyOk key ∧ 4 ∣ key.skdOffset :=
    fun key hkey => ⟨h.keys key hkey, horder.aligned key hkey⟩
  rw [keyLongwords, keyLongwords, compare_longwords (by simp) (by simp)]
  refine compare_keys (Nat.dvd_zero 4) hkeys horder.ascending
    (fun key hkey => ⟨Nat.zero_le _, le_keyLength horder.ascending hkeys hkey⟩)
    (fun key hkey => ⟨hform key hkey, hform' key hkey⟩) (fun key hkey => ?_) fun x _ hx hnone => ?_
  · have hextent := extent_le (h.keys key hkey)
    have hroom := le_keyLength horder.ascending hkeys hkey
    obtain ⟨fill, hfillLength⟩ := Nat.exists_eq_add_of_le hextent
    rw [SortKeyDef.area, SortKeyDef.area, hfillLength, cells_drop, cells_drop]
    refine cells_congr fun x hx hx' => hfill x (by omega) fun key' hkey' hvalue => ?_
    have hextent' := extent_le (h.keys key' hkey')
    obtain rfl := eq_of_mem_areas horder.ascending hkey hkey' (x := x) (by omega) (by omega)
    omega
  · have hzone : ∀ key ∈ description, ¬InZone key x := by
      rintro key hkey (harea | ⟨hvariable, hstash⟩)
      · exact hnone key hkey harea
      · have hbehind : x < key.skdVaryOffset := lt_of_lt_of_le hx (horder.behind key hkey hvariable)
        omega
    rw [houtside x hzone, houtside' x hzone]
    refine hfill x hx fun key hkey hvalue => hnone key hkey ?_
    have hextent := extent_le (h.keys key hkey)
    omega

/-- Records are compared by the values of their keys, and have them again when they come out. -/
theorem sorted_records (h : DescriptionOk description) (hfits : RecordFits description r) :
    (∀ sorted duplicateHandling, ∀ key ∈ description, key.skdSeparateData = false →
      key.value (diddleKey sorted false duplicateHandling description (diddleKey false true false description r)) =
      key.value r) ∧
    (InOrder description → ∀ r', RecordFits description r' → SameFill description r r' →
      compare (keyLongwords description (diddleKey false true false description r))
        (keyLongwords description (diddleKey false true false description r')) = compareKeys description r r') :=
  ⟨fun sorted duplicateHandling _ hkey hwhole => value_diddleKey sorted duplicateHandling h hfits hkey hwhole,
    fun horder _ hfits' hfill => compare_diddleKey h horder hfits hfits' hfill⟩

def recordBytes (bytes : List UInt8) : SortBytes := fun x => bytes.getD x 0

def nameAndAge : List SortKeyDef :=
  [{ skdDtype := .skdVarying, skdLength := 6, skdOffset := 0, skdVaryOffset := 12 },
    { skdDtype := .skdLong, skdLength := 4, skdOffset := 8, skdDescending := true }]

theorem sorted_records_of_names :
    (∀ sorted duplicateHandling, ∀ key ∈ nameAndAge, key.skdSeparateData = false →
      key.value (diddleKey sorted false duplicateHandling nameAndAge
        (diddleKey false true false nameAndAge (recordBytes [2, 0, 65, 66, 0, 0, 0, 0, 255, 255, 255, 255]))) =
          key.value (recordBytes [2, 0, 65, 66, 0, 0, 0, 0, 255, 255, 255, 255])) ∧
    compare
      (keyLongwords nameAndAge (diddleKey false true false nameAndAge
        (recordBytes [2, 0, 65, 66, 0, 0, 0, 0, 255, 255, 255, 255])))
      (keyLongwords nameAndAge (diddleKey false true false nameAndAge (recordBytes [3, 0, 65, 66, 32, 7, 0, 0,
        1, 0, 0, 0]))) = .gt := by
  have hkeys : ∀ key ∈ nameAndAge, KeyOk key := by
    intro key hkey
    rcases mem_cons.mp hkey with rfl | hkey
    · exact ⟨by simp [KeyType.FitsLength], by simp, fun _ => Or.inr (by decide)⟩
    · obtain rfl := mem_singleton.mp hkey
      exact ⟨by simp [KeyType.FitsLength], by simp, fun hvariable => absurd hvariable (by decide)⟩
  have hapart : DescriptionOk nameAndAge := by
    refine ⟨hkeys, ?_⟩
    simp [nameAndAge, InZone, SortKeyDef.rounded, SortKeyDef.isVariable]
    omega
  have hfits : ∀ bytes : List UInt8, bytes.getD 0 0 ≤ 4 → bytes.getD 1 0 = 0 →
      RecordFits nameAndAge (recordBytes bytes) := by
    intro bytes hlow hhigh key hkey
    rcases mem_cons.mp hkey with rfl | hkey
    · have hsmall : (bytes.getD 0 0).toNat ≤ 4 := hlow
      have hlength : leValue ((cells (recordBytes bytes) 0 8).take 2) =
          (bytes.getD 0 0).toNat + 256 * ((bytes.getD 1 0).toNat + 256 * 0) := rfl
      rw [hhigh] at hlength
      have hroom : 2 + leValue ((cells (recordBytes bytes) 0 8).take 2) ≤ 6 := by
        have hzero : (0 : UInt8).toNat = 0 := rfl
        omega
      exact hroom
    · obtain rfl := mem_singleton.mp hkey
      trivial
  have horder : InOrder nameAndAge := by
    refine ⟨by simp [nameAndAge, SortKeyDef.rounded], ?_, ?_⟩ <;> simp [nameAndAge, keyLength, SortKeyDef.isVariable]
  obtain ⟨hvalues, hcompare⟩ :=
    sorted_records hapart (hfits [2, 0, 65, 66, 0, 0, 0, 0, 255, 255, 255, 255] (by decide) rfl)
  have horder' := hcompare horder (recordBytes [3, 0, 65, 66, 32, 7, 0, 0, 1, 0, 0, 0]) (hfits _ (by decide) rfl)
  refine ⟨hvalues, (horder' ?_).trans (by decide)⟩
  intro x hx hnone
  have hfirst := hnone _ mem_cons_self
  have hsecond := hnone _ (mem_cons_of_mem _ mem_cons_self)
  simp [nameAndAge, keyLength, SortKeyDef.extent, SortKeyDef.rounded, SortKeyDef.isVariable] at hx hfirst hsecond
  omega

def keptApart : SortKeyDef := { skdDtype := .skdText, skdLength := 4, skdOffset := 0, skdSeparateData := true }

def stashedWithin : SortKeyDef := { skdDtype := .skdVarying, skdLength := 18, skdOffset := 4, skdVaryOffset := 16 }

def ulongAt (offset : Nat) : SortKeyDef := { skdDtype := .skdUlong, skdLength := 4, skdOffset := offset }

def longText : SortKeyDef := { skdDtype := .skdText, skdLength := 65533, skdOffset := 0 }

theorem longText_not_sorted :
    compare (keyLongwords [longText] (diddleKey false true false [longText] (recordBytes [98, 97])))
      (keyLongwords [longText] (diddleKey false true false [longText] (recordBytes [97, 98]))) = .lt ∧
    compare (cells (recordBytes [98, 97]) 0 65533) (cells (recordBytes [97, 98]) 0 65533) = .gt := by
  have hfour : ∀ (r : SortBytes) n, longwords (cells r 0 (n + 4)) = leValue (cells r 0 4) ::
      longwords (cells r 4 n) := by
    intro r n
    rw [Nat.add_comm, cells_add]
    rfl
  have hlongwords : ∀ r : SortBytes, keyLongwords [longText] r = leValue (cells r 0 4) ::
      longwords (cells r 4 65532) := by
    intro r
    have hlength : 4 * keyLength [longText] = 65532 + 4 := by decide
    rw [keyLongwords, hlength, hfour]
  have hcells : ∀ r : SortBytes, cells r 0 65533 = r 0 :: cells r 1 65532 := fun r => cells_succ r 0 65532
  refine ⟨?_, ?_⟩
  · have hfirst : compare (leValue (cells (diddleKey false true false [longText] (recordBytes [98, 97])) 0 4))
        (leValue (cells (diddleKey false true false [longText] (recordBytes [97, 98])) 0 4)) = .lt := by decide
    rw [hlongwords, hlongwords, List.compare_cons_cons, hfirst, Ordering.lt_then]
  · have hfirst : compare (recordBytes [98, 97] 0) (recordBytes [97, 98] 0) = .gt := by decide
    rw [hcells, hcells, List.compare_cons_cons, hfirst, Ordering.gt_then]

/-- Keys with data apart and the longest texts are not turned around, keys must be listed by their offsets, bytes
    between keys are compared, and so is a length that is stashed in its own key. -/
theorem records_not_sorted :
    keptApart.value (diddleKey false false false [keptApart] (diddleKey false true false [keptApart]
      (recordBytes [97, 98, 99, 100]))) ≠ keptApart.value (recordBytes [97, 98, 99, 100]) ∧
    (compare (keyLongwords [ulongAt 4, ulongAt 0] (diddleKey false true false [ulongAt 4, ulongAt 0]
      (recordBytes [1, 0, 0, 0, 2])))
        (keyLongwords [ulongAt 4, ulongAt 0] (diddleKey false true false [ulongAt 4, ulongAt 0]
          (recordBytes [2, 0, 0, 0, 1]))) = .lt ∧
      compareKeys [ulongAt 4, ulongAt 0] (recordBytes [1, 0, 0, 0, 2]) (recordBytes [2, 0, 0, 0, 1]) = .gt) ∧
    (compare (keyLongwords [ulongAt 0, ulongAt 8] (diddleKey false true false [ulongAt 0, ulongAt 8]
      (recordBytes [1, 0, 0, 0, 0])))
        (keyLongwords [ulongAt 0, ulongAt 8] (diddleKey false true false [ulongAt 0, ulongAt 8]
          (recordBytes [1, 0, 0, 0, 1]))) = .lt ∧
      compareKeys [ulongAt 0, ulongAt 8] (recordBytes [1, 0, 0, 0, 0]) (recordBytes [1, 0, 0, 0, 1]) = .eq) ∧
    stashedWithin.value (diddleKey true false false [stashedWithin]
        (diddleKey false true false [stashedWithin] (recordBytes [0, 0, 0, 0, 1, 0, 65]))) ≠
      stashedWithin.value (recordBytes [0, 0, 0, 0, 1, 0, 65]) ∧
    (compare (keyLongwords [longText] (diddleKey false true false [longText] (recordBytes [98, 97])))
        (keyLongwords [longText] (diddleKey false true false [longText] (recordBytes [97, 98]))) = .lt ∧
      compare (cells (recordBytes [98, 97]) 0 65533) (cells (recordBytes [97, 98]) 0 65533) = .gt) :=
  ⟨by decide, by decide, by decide, by decide, longText_not_sorted⟩

end Firebird.Sort
