import Firebird.Dpm.PageOperations

/-! # The layout of a data page -/

namespace Firebird.Dpm
open List

variable {dbb : Dbb} {page page' : DataPage} {lines lines' rest : List DpgRepeat} {index index' r s : DpgRepeat}
  {line slot i j n space size used : Nat} {content : Bytes} {x : Int}

/-- A number that the field can hold is stored as it is. -/
theorem ushort_ok (h : 0 ≤ x) (hle : x ≤ 65535) : ushort x = .ok x.toNat := if_pos ⟨h, hle⟩

theorem sshort_ok (h : -32768 ≤ x) (hle : x ≤ 32767) : sshort x = .ok x := if_pos ⟨h, hle⟩

theorem fbAssert_ok {p : Prop} [Decidable p] (h : p) : fbAssert p = .ok () := if_pos h

theorem highWater_eq (x : Nat) : highWater x = 24 + 4 * x := by
  simp only [highWater, sizeofDataPage, sizeofDpgRepeat]
  omega

theorem roundUp_eq (n : Nat) : roundUp n = (n + 3) / 4 * 4 := rfl

theorem le_roundUp (n : Nat) : n ≤ roundUp n := by
  rw [roundUp_eq]
  omega

theorem roundUp_mono (h : i ≤ j) : roundUp i ≤ roundUp j := by
  rw [roundUp_eq, roundUp_eq]
  omega

theorem roundUp_zero : roundUp 0 = 0 := by decide

theorem roundUp_of_dvd (h : 4 ∣ n) : roundUp n = n := by
  rw [roundUp_eq]
  omega

/-- The page sizes that a database may have -/
theorem Dbb.bounds (dbb : Dbb) : 8192 ≤ dbb.pageSize ∧ dbb.pageSize ≤ 32768 ∧ 4 ∣ dbb.pageSize :=
  ⟨dbb.pageSize_min, dbb.pageSize_max, dbb.pageSize_aligned⟩

/-- The bytes that a line takes on the page -/
def DpgRepeat.extent (index : DpgRepeat) : Nat := if index.dpgOffset ≠ 0 then roundUp index.dpgLength else 0

def inUse (lines : List DpgRepeat) : Nat := (lines.map DpgRepeat.extent).sum

theorem extent_of_used (h : index.dpgOffset ≠ 0) : index.extent = roundUp index.dpgLength := if_pos h

theorem extent_of_unused (h : index.dpgOffset = 0) : index.extent = 0 := if_neg (not_not.mpr h)

theorem four_dvd_extent (index : DpgRepeat) : 4 ∣ index.extent := by
  unfold DpgRepeat.extent
  split
  · exact ⟨_, Nat.mul_comm _ 4⟩
  · exact ⟨0, rfl⟩

@[simp] theorem inUse_nil : inUse [] = 0 := rfl

@[simp] theorem inUse_cons (index : DpgRepeat) (lines : List DpgRepeat) :
    inUse (index :: lines) = index.extent + inUse lines := by
  simp [inUse]

@[simp] theorem inUse_append (lines rest : List DpgRepeat) : inUse (lines ++ rest) = inUse lines + inUse rest := by
  simp [inUse]

theorem four_dvd_inUse (lines : List DpgRepeat) : 4 ∣ inUse lines := by
  induction lines with
  | nil => exact ⟨0, rfl⟩
  | cons index lines ih => exact inUse_cons index lines ▸ Nat.dvd_add (four_dvd_extent index) ih

/-- The space in use changes by that of the line replaced. -/
theorem inUse_set (h : lines[i]? = some index) (index' : DpgRepeat) :
    inUse (lines.set i index') + index.extent = inUse lines + index'.extent := by
  induction lines generalizing i with
  | nil => simp at h
  | cons head lines ih =>
    cases i with
    | zero =>
      simp only [getElem?_cons_zero, Option.some.injEq] at h
      subst h
      simp only [set_cons_zero, inUse_cons]
      omega
    | succ i =>
      have := ih (i := i) (by simpa using h)
      simp only [set_cons_succ, inUse_cons]
      omega

theorem extent_le_inUse (h : lines[i]? = some index) : index.extent ≤ inUse lines := by
  have hset := inUse_set h { dpgOffset := 0, dpgLength := 0 }
  have hzero : ({ dpgOffset := 0, dpgLength := 0 } : DpgRepeat).extent = 0 := extent_of_unused rfl
  omega

/-- Lines that are not used may be cut off. -/
theorem inUse_take (h : ∀ i r, n ≤ i → lines[i]? = some r → r.dpgOffset = 0) : inUse (lines.take n) = inUse lines := by
  have hdrop : inUse (lines.drop n) = 0 := by
    have hall : ∀ r ∈ lines.drop n, r.dpgOffset = 0 := by
      intro r hr
      obtain ⟨i, hi⟩ := getElem?_of_mem hr
      rw [getElem?_drop] at hi
      exact h _ r (Nat.le_add_right n i) hi
    generalize lines.drop n = dropped at hall
    induction dropped with
    | nil => rfl
    | cons r dropped ih =>
      rw [inUse_cons, extent_of_unused (hall r mem_cons_self), ih fun s hs => hall s (mem_cons_of_mem _ hs)]
  have := inUse_append (lines.take n) (lines.drop n)
  rw [take_append_drop] at this
  omega

/-- Where the space of a line ends -/
def DpgRepeat.stop (index : DpgRepeat) : Nat := index.dpgOffset + roundUp index.dpgLength

/-- Used lines lie apart from each other between the index and the end of the page, and there is room
for all. -/
structure Packed (dbb : Dbb) (page : DataPage) : Prop where
  above : ∀ (i : Nat) (r : DpgRepeat), page.dpgRpt[i]? = some r → r.dpgOffset ≠ 0 →
    highWater page.dpgCount ≤ r.dpgOffset
  inside : ∀ (i : Nat) (r : DpgRepeat), page.dpgRpt[i]? = some r → r.dpgOffset ≠ 0 → r.stop ≤ dbb.pageSize
  disjoint : ∀ (i j : Nat) (r s : DpgRepeat), page.dpgRpt[i]? = some r → page.dpgRpt[j]? = some s → i ≠ j →
    r.dpgOffset ≠ 0 → s.dpgOffset ≠ 0 → r.stop ≤ s.dpgOffset ∨ s.stop ≤ r.dpgOffset
  room : highWater page.dpgCount + inUse page.dpgRpt ≤ dbb.pageSize

/-- Lines not used are empty, used ones hold a header, and the last line is used. -/
structure Layout (dbb : Dbb) (page : DataPage) : Prop extends Packed dbb page where
  unused : ∀ (i : Nat) (r : DpgRepeat), page.dpgRpt[i]? = some r → r.dpgOffset = 0 → r.dpgLength = 0
  minimum : ∀ (i : Nat) (r : DpgRepeat), page.dpgRpt[i]? = some r → r.dpgOffset ≠ 0 → rhdfSize ≤ r.dpgLength
  last : ∀ r : DpgRepeat, page.dpgRpt.getLast? = some r → r.dpgOffset ≠ 0

/-- A line is free with length zero or holds at least a header. -/
def DpgRepeat.Sized (r : DpgRepeat) : Prop :=
  (r.dpgOffset = 0 ∧ r.dpgLength = 0) ∨ (r.dpgOffset ≠ 0 ∧ rhdfSize ≤ r.dpgLength)

theorem Layout.lengths (h : Layout dbb page) (hr : page.dpgRpt[i]? = some r) : r.Sized := by
  by_cases hused : r.dpgOffset = 0
  · exact .inl ⟨hused, h.unused i r hr hused⟩
  · exact .inr ⟨hused, h.minimum i r hr hused⟩

/-- The number of lines is bounded by the page size. -/
theorem Packed.count_le (h : Packed dbb page) : 24 + 4 * page.dpgCount + inUse page.dpgRpt ≤ dbb.pageSize := by
  have := h.room
  rw [highWater_eq] at this
  omega

theorem Packed.congr (h : Packed dbb page) (hlines : page'.dpgRpt = page.dpgRpt) : Packed dbb page' := by
  have hcount : page'.dpgCount = page.dpgCount := congrArg length hlines
  constructor
  · rw [hlines, hcount]
    exact h.above
  · rw [hlines]
    exact h.inside
  · rw [hlines]
    exact h.disjoint
  · rw [hlines, hcount]
    exact h.room

theorem Layout.congr (h : Layout dbb page) (hlines : page'.dpgRpt = page.dpgRpt) : Layout dbb page' where
  toPacked := h.toPacked.congr hlines
  unused := hlines ▸ h.unused
  minimum := hlines ▸ h.minimum
  last := hlines ▸ h.last

/-- Lines may be moved in the index, given up and made shorter. -/
theorem Packed.reindex (h : Packed dbb page) (f : Nat → Nat) (hcount : page'.dpgCount ≤ page.dpgCount)
    (hsum : inUse page'.dpgRpt ≤ inUse page.dpgRpt)
    (hinj : ∀ i j r s, page'.dpgRpt[i]? = some r → page'.dpgRpt[j]? = some s → r.dpgOffset ≠ 0 → s.dpgOffset ≠ 0 →
      f i = f j → i = j)
    (hlines : ∀ i r, page'.dpgRpt[i]? = some r → r.dpgOffset ≠ 0 →
      ∃ r', page.dpgRpt[f i]? = some r' ∧ r'.dpgOffset = r.dpgOffset ∧ r.dpgLength ≤ r'.dpgLength) :
      Packed dbb page' where
  above i r hr hused := by
    obtain ⟨r', hr', hoff, -⟩ := hlines i r hr hused
    have := h.above _ r' hr' (hoff ▸ hused)
    rw [highWater_eq] at this ⊢
    omega
  inside i r hr hused := by
    obtain ⟨r', hr', hoff, hlen⟩ := hlines i r hr hused
    have := h.inside _ r' hr' (hoff ▸ hused)
    have := roundUp_mono hlen
    unfold DpgRepeat.stop at *
    omega
  disjoint i j r s hr hs hne hrused hsused := by
    obtain ⟨r', hr', hroff, hrlen⟩ := hlines i r hr hrused
    obtain ⟨s', hs', hsoff, hslen⟩ := hlines j s hs hsused
    have := h.disjoint _ _ r' s' hr' hs' (fun heq => hne (hinj i j r s hr hs hrused hsused heq)) (hroff ▸ hrused)
      (hsoff ▸ hsused)
    have := roundUp_mono hrlen
    have := roundUp_mono hslen
    unfold DpgRepeat.stop at *
    omega
  room := by
    have := h.room
    rw [highWater_eq] at this ⊢
    omega

/-- No line begins below `space`. -/
def FreeBelow (lines : List DpgRepeat) (space : Nat) : Prop :=
  ∀ (i : Nat) (r : DpgRepeat), lines[i]? = some r → r.dpgOffset ≠ 0 → space ≤ r.dpgOffset

/-- A line is stored in its slot, which may be the one behind the last. -/
theorem getElem?_putLine (h : slot ≤ page.dpgCount) (index : DpgRepeat) (i : Nat) :
    (page.putLine slot index).dpgRpt[i]? = if i = slot then some index else page.dpgRpt[i]? := by
  unfold DataPage.putLine DataPage.dpgCount at *
  split
  · rename_i heq
    subst heq
    by_cases hi : i = page.dpgRpt.length
    · subst hi
      simp
    · rw [if_neg hi]
      rcases Nat.lt_or_gt_of_ne hi with hlt | hgt
      · rw [getElem?_append_left hlt]
      · rw [getElem?_eq_none (by simp; omega), getElem?_eq_none (by omega)]
  · rw [DataPage.setLine, getElem?_set]
    by_cases hi : i = slot
    · subst hi
      rw [if_pos rfl, if_pos rfl, if_pos (by omega)]
    · rw [if_neg (Ne.symm hi), if_neg hi]

theorem dpgCount_putLine (page : DataPage) (slot : Nat) (index : DpgRepeat) :
    (page.putLine slot index).dpgCount = if slot = page.dpgCount then page.dpgCount + 1 else page.dpgCount := by
  unfold DataPage.putLine
  split
  · simp [DataPage.dpgCount]
  · simp [DataPage.dpgCount, DataPage.setLine]

/-- The space of all lines but one -/
def inUseBut (page : DataPage) (slot : Nat) : Nat :=
  inUse page.dpgRpt - (page.dpgRpt[slot]?.map DpgRepeat.extent).getD 0

theorem inUse_putLine (h : slot ≤ page.dpgCount) (index : DpgRepeat) :
    inUse (page.putLine slot index).dpgRpt = inUseBut page slot + index.extent := by
  unfold DataPage.putLine inUseBut
  split
  · rename_i heq
    rw [heq, DataPage.dpgCount]
    simp
  · rename_i hne
    have hlt : slot < page.dpgRpt.length := Nat.lt_of_le_of_ne h hne
    have hold := getElem?_eq_getElem hlt
    have hset := inUse_set hold index
    have hle := extent_le_inUse hold
    rw [DataPage.setLine, hold, Option.map_some, Option.getD_some]
    dsimp only
    omega

/-- A record is put below all others. -/
theorem Packed.putLine (h : Packed dbb page) (hslot : slot ≤ page.dpgCount)
    (hfree : FreeBelow page.dpgRpt (space + roundUp size)) (hend : space + roundUp size ≤ dbb.pageSize)
    (htop : highWater (page.putLine slot { dpgOffset := space, dpgLength := size }).dpgCount ≤ space)
    (hroom : highWater (page.putLine slot { dpgOffset := space, dpgLength := size }).dpgCount +
      (inUseBut page slot + roundUp size : Nat) ≤ dbb.pageSize) :
    Packed dbb (page.putLine slot { dpgOffset := space, dpgLength := size }) where
  above i r hr hused := by
    rw [getElem?_putLine hslot] at hr
    split at hr
    · cases hr
      exact htop
    · have := hfree i r hr hused
      omega
  inside i r hr hused := by
    rw [getElem?_putLine hslot] at hr
    split at hr
    · cases hr
      exact hend
    · exact h.inside i r hr hused
  disjoint i j r s hr hs hne hrused hsused := by
    rw [getElem?_putLine hslot] at hr hs
    split at hr
    · cases hr
      rw [if_neg fun hj => hne (by omega)] at hs
      exact .inl (hfree j s hs hsused)
    · split at hs
      · cases hs
        exact .inr (hfree i r hr hrused)
      · exact h.disjoint i j r s hr hs hne hrused hsused
  room := by
    rw [inUse_putLine hslot]
    have : ({ dpgOffset := space, dpgLength := size } : DpgRepeat).extent ≤ roundUp size := by
      unfold DpgRepeat.extent
      split
      · exact Nat.le_refl _
      · exact Nat.zero_le _
    omega

theorem record_eq_some (h : page.dpgRpt[line]? = some index) (hused : index.dpgOffset ≠ 0) :
    page.record line = some ((range index.dpgLength).map fun i => page.bytes (index.dpgOffset + i)) := by
  rw [DataPage.record, h]
  exact if_neg hused

theorem record_eq_none (h : ∀ r, page.dpgRpt[line]? = some r → r.dpgOffset = 0) : page.record line = none := by
  unfold DataPage.record
  split
  · rfl
  · rename_i r hr
    exact if_pos (h r hr)

theorem record_eq_of_unused (h : ∀ r, page.dpgRpt[i]? = some r → r.dpgOffset = 0)
    (h' : ∀ r, page'.dpgRpt[j]? = some r → r.dpgOffset = 0) : page'.record j = page.record i := by
  rw [record_eq_none h, record_eq_none h']

/-- A record is the bytes of its line, wherever they are. -/
theorem record_eq (hr : page.dpgRpt[i]? = some r) (hs : page'.dpgRpt[j]? = some s) (hrused : r.dpgOffset ≠ 0)
    (hsused : s.dpgOffset ≠ 0) (hlen : s.dpgLength = r.dpgLength)
    (hbytes : ∀ k < r.dpgLength, page'.bytes (s.dpgOffset + k) = page.bytes (r.dpgOffset + k)) :
    page'.record j = page.record i := by
  rw [record_eq_some hr hrused, record_eq_some hs hsused, hlen]
  congr 1
  exact map_congr_left fun k hk => hbytes k (mem_range.mp hk)

/-- The line and its bytes decide about the record. -/
theorem record_of_line (hline : page'.dpgRpt[j]? = page.dpgRpt[i]?)
    (hbytes : ∀ r : DpgRepeat, page.dpgRpt[i]? = some r → r.dpgOffset ≠ 0 → ∀ k < r.dpgLength,
      page'.bytes (r.dpgOffset + k) = page.bytes (r.dpgOffset + k)) : page'.record j = page.record i := by
  by_cases hused : ∃ r, page.dpgRpt[i]? = some r ∧ r.dpgOffset ≠ 0
  · obtain ⟨r, hr, hused⟩ := hused
    exact record_eq hr (hline.trans hr) hused hused rfl (hbytes r hr hused)
  · have hunused : ∀ r : DpgRepeat, page.dpgRpt[i]? = some r → r.dpgOffset = 0 :=
      fun r hr => by_contra fun hne => hused ⟨r, hr, hne⟩
    exact record_eq_of_unused hunused fun r hr => hunused r (hline.symm.trans hr)

theorem write_dpgRpt (page : DataPage) (offset : Nat) (content : Bytes) :
    (page.write offset content).dpgRpt = page.dpgRpt := rfl

/-- A write leaves the bytes around it. -/
theorem bytes_write_of_not_mem (h : i < n ∨ n + content.length ≤ i) :
    (page.write n content).bytes i = page.bytes i := by
  unfold DataPage.write
  dsimp only
  split
  · rw [getElem?_eq_none (by omega), Option.getD_none]
  · rfl

theorem bytes_write_of_lt (h : i < content.length) : (page.write n content).bytes (n + i) = content[i] := by
  unfold DataPage.write
  dsimp only
  rw [if_pos (Nat.le_add_right n i), Nat.add_sub_cancel_left, getElem?_eq_getElem h, Option.getD_some]

theorem record_write_self (hr : page.dpgRpt[line]? = some r) (hused : r.dpgOffset ≠ 0)
    (hlen : content.length = r.dpgLength) : (page.write r.dpgOffset content).record line = some content := by
  rw [record_eq_some (write_dpgRpt page r.dpgOffset content ▸ hr) hused]
  congr 1
  refine ext_getElem (by simp [hlen]) fun k hk hk' => ?_
  rw [getElem_map, getElem_range, bytes_write_of_lt hk']

/-- Only the bytes from `start` to `stop` may differ. -/
def BytesKept (page page' : DataPage) (start stop : Nat) : Prop :=
  ∀ i, i < start ∨ stop ≤ i → page'.bytes i = page.bytes i

namespace BytesKept
variable {start stop header : Nat}

theorem refl (page : DataPage) (start stop : Nat) : BytesKept page page start stop := fun _ _ => rfl

theorem write (h : BytesKept page page' start stop) (hstart : start ≤ n) (hstop : n + content.length ≤ stop) :
    BytesKept page (page'.write n content) start stop :=
  fun i hi => (bytes_write_of_not_mem (by omega)).trans (h i hi)

theorem setLine (h : BytesKept page page' start stop) (line : Nat) (index : DpgRepeat) :
    BytesKept page (page'.setLine line index) start stop := h

section
variable (h : BytesKept page page' header (header + rhdfSize))
include h

theorem writeU16 {offset : Nat} (hroom : offset + 2 ≤ rhdfSize) (value : Nat) :
    BytesKept page (page'.write (header + offset) (DataPage.u16Bytes value)) header (header + rhdfSize) :=
  h.write (Nat.le_add_right ..) (by
    have hlength : (DataPage.u16Bytes value).length = 2 := rfl
    omega)

theorem writeU32 {offset : Nat} (hroom : offset + 4 ≤ rhdfSize) (value : Nat) :
    BytesKept page (page'.write (header + offset) (DataPage.u32Bytes value)) header (header + rhdfSize) :=
  h.write (Nat.le_add_right ..) (by
    have hlength : (DataPage.u32Bytes value).length = 4 := rfl
    omega)

theorem setRhdFlags (flags : Nat) : BytesKept page (page'.setRhdFlags header flags) header (header + rhdfSize) :=
  h.writeU16 (by decide) flags

theorem setRhdBPage (bPage : Nat) : BytesKept page (page'.setRhdBPage header bPage) header (header + rhdfSize) :=
  h.writeU32 (by decide) bPage

theorem setRhdBLine (bLine : Nat) : BytesKept page (page'.setRhdBLine header bLine) header (header + rhdfSize) :=
  h.writeU16 (by decide) bLine

theorem clearRhdfF : BytesKept page (page'.clearRhdfF header) header (header + rhdfSize) :=
  (h.writeU32 (by decide) 0).writeU16 (by decide) 0

theorem writeTraNum (traNumber : Nat) :
    BytesKept page (page'.writeTraNum header traNumber) header (header + rhdfSize) := by
  have hlow := h.writeU32 (Nat.le_add_left 4 18) traNumber
  have hhigh : ∀ flagged : DataPage, BytesKept page flagged header (header + rhdfSize) →
      BytesKept page (if flagged.rhdFlags header &&& rhdLongTranum ≠ 0 then
        flagged.write (header + 14) (DataPage.u16Bytes (traNumber / 4294967296)) else flagged)
        header (header + rhdfSize) := by
    intro flagged hflagged
    split
    · exact hflagged.writeU16 (by decide) _
    · exact hflagged
  refine hhigh _ ?_
  split
  · exact hlow.setRhdFlags _
  · exact hlow

end

/-- The records outside stay. -/
theorem record (h : BytesKept page page' start stop) (hline : page'.dpgRpt[line]? = page.dpgRpt[line]?)
    (houtside : ∀ r : DpgRepeat, page.dpgRpt[line]? = some r → r.dpgOffset ≠ 0 →
      r.dpgOffset + r.dpgLength ≤ start ∨ stop ≤ r.dpgOffset) : page'.record line = page.record line := by
  refine record_of_line hline fun r hr hused k hk => h _ ?_
  have := houtside r hr hused
  omega

end BytesKept

@[simp] theorem dpgRpt_writeTraNum (page : DataPage) (header traNumber : Nat) :
    (page.writeTraNum header traNumber).dpgRpt = page.dpgRpt := by
  unfold DataPage.writeTraNum
  dsimp only
  split <;> split <;> rfl

/-- A line with its bytes has been moved to the temporary page. -/
structure MovedLine (bytes tempPage : Nat → UInt8) (low high : Nat) (index index' : DpgRepeat) : Prop where
  length : index'.dpgLength = index.dpgLength
  unused : index.dpgOffset = 0 → index' = index
  used : index.dpgOffset ≠ 0 → low ≤ index'.dpgOffset ∧ index'.stop ≤ high
  same : index.dpgOffset ≠ 0 → ∀ k < roundUp index.dpgLength, tempPage (index'.dpgOffset + k) =
    bytes (index.dpgOffset + k)

theorem exists_movedLine {bytes tempPage : Nat → UInt8} {low high : Nat}
    (h : Forall₂ (MovedLine bytes tempPage low high) lines lines') (hs : s ∈ lines') :
    ∃ r ∈ lines, MovedLine bytes tempPage low high r s := by
  obtain ⟨i, hi, rfl⟩ := getElem_of_mem hs
  have hi' : i < lines.length := h.length_eq ▸ hi
  exact ⟨lines[i], getElem_mem _, h.get hi' hi⟩

section
variable {bytes tempPage : Nat → UInt8} {low high : Nat} (h : MovedLine bytes tempPage low high r s)
include h

theorem MovedLine.used_of (hused : s.dpgOffset ≠ 0) : r.dpgOffset ≠ 0 := fun hr => hused (h.unused hr ▸ hr)

theorem MovedLine.used_iff (hlow : 0 < low) : s.dpgOffset = 0 ↔ r.dpgOffset = 0 := by
  refine ⟨fun hs => ?_, fun hr => h.unused hr ▸ hr⟩
  by_contra hr
  have := (h.used hr).1
  omega

theorem MovedLine.extent (hlow : 0 < low) : s.extent = r.extent := by
  unfold DpgRepeat.extent
  simp only [ne_eq, h.used_iff hlow, h.length]

end

/-- The lines are laid down from the end of the page, one below the other. -/
theorem compressLines_spec (bytes tempPage : Nat → UInt8) (h : inUse lines ≤ space) (hspace : space ≤ 65535) :
    ∃ lines' free tempPage', compressLines bytes lines space tempPage = .ok (lines', free, tempPage') ∧
      free + inUse lines = space ∧ Forall₂ (MovedLine bytes tempPage' free space) lines lines' ∧
      lines'.Pairwise (fun r s => r.dpgOffset ≠ 0 → s.dpgOffset ≠ 0 → s.stop ≤ r.dpgOffset) ∧
      ∀ i, space ≤ i → tempPage' i = tempPage i := by
  induction lines generalizing space tempPage with
  | nil => exact ⟨[], space, tempPage, rfl, rfl, .nil, .nil, fun _ _ => rfl⟩
  | cons index lines ih =>
    rw [inUse_cons] at h
    by_cases hused : index.dpgOffset = 0
    · have hextent := extent_of_unused hused
      obtain ⟨lines', free, tempPage', hgo, hfree, hmoved, hpairs, htemp⟩ := ih tempPage (by omega) hspace
      refine ⟨index :: lines', free, tempPage', ?_, by rw [inUse_cons]; omega, .cons ?_ hmoved, .cons ?_ hpairs, htemp⟩
      · rw [compressLines, if_neg (not_not.mpr hused), hgo]
      · exact ⟨rfl, fun _ => rfl, fun hne => absurd hused hne, fun hne => absurd hused hne⟩
      · exact fun _ _ hne => absurd hused hne
    · have hextent := extent_of_used hused
      obtain ⟨lines', free, tempPage', hgo, hfree, hmoved, hpairs, htemp⟩ := @ih (space - roundUp index.dpgLength)
        (fun i => if space - roundUp index.dpgLength ≤ i ∧ i < space - roundUp index.dpgLength + roundUp index.dpgLength
          then bytes (index.dpgOffset + (i - (space - roundUp index.dpgLength))) else tempPage i) (by omega) (by omega)
      have hushort : ushort ((space : Int) - roundUp index.dpgLength) = .ok (space - roundUp index.dpgLength) := by
        rw [ushort_ok (by omega) (by omega)]
        congr 1
        omega
      refine ⟨{ index with dpgOffset := space - roundUp index.dpgLength } :: lines', free, tempPage', ?_,
        by rw [inUse_cons]; omega, .cons ?_ ?_, .cons ?_ hpairs, fun i hi => ?_⟩
      · rw [compressLines, if_pos hused, hushort]
        dsimp only
        rw [hgo]
      · refine ⟨rfl, fun he => absurd he hused, fun _ =>
          ⟨by dsimp only; omega, by unfold DpgRepeat.stop; dsimp only; omega⟩, fun _ k hk => ?_⟩
        rw [htemp _ (by dsimp only; omega)]
        dsimp only
        rw [if_pos (by omega), Nat.add_sub_cancel_left]
      · exact hmoved.imp fun r s hrs => ⟨hrs.length, hrs.unused, fun hne => ⟨(hrs.used hne).1,
          Nat.le_trans (hrs.used hne).2 (Nat.sub_le ..)⟩, hrs.same⟩
      · intro s hs _ hsused
        obtain ⟨r, -, hrs⟩ := exists_movedLine hmoved hs
        exact (hrs.used (hrs.used_of hsused)).2
      · rw [htemp i (by omega), if_neg (by omega)]

/-- The lines are the same, at other places perhaps, with the same records. -/
structure Rearranged (dbb : Dbb) (page page' : DataPage) : Prop where
  packed : Packed dbb page'
  lines : ∀ (i : Nat) (r : DpgRepeat), page'.dpgRpt[i]? = some r → ∃ r', page.dpgRpt[i]? = some r' ∧
    r.dpgLength = r'.dpgLength ∧ (r.dpgOffset = 0 ↔ r'.dpgOffset = 0)
  count : page'.dpgCount = page.dpgCount
  extents : page'.dpgRpt.map DpgRepeat.extent = page.dpgRpt.map DpgRepeat.extent
  record : ∀ i, page'.record i = page.record i
  secondary : page'.secondary = page.secondary
  full : page'.full = page.full

theorem Rearranged.refl (h : Packed dbb page) : Rearranged dbb page page :=
  ⟨h, fun _ r hr => ⟨r, hr, rfl, Iff.rfl⟩, rfl, rfl, fun _ => rfl, rfl, rfl⟩

section
variable (h : Rearranged dbb page page')
include h

theorem Rearranged.inUse_eq : inUse page'.dpgRpt = inUse page.dpgRpt :=
  congrArg sum h.extents

theorem Rearranged.getLast? (hr : page'.dpgRpt.getLast? = some r) :
    ∃ r', page.dpgRpt.getLast? = some r' ∧ (r.dpgOffset = 0 ↔ r'.dpgOffset = 0) := by
  rw [getLast?_eq_getElem?] at hr
  obtain ⟨r', hr', -, hiff⟩ := h.lines _ r hr
  have hcount : page'.dpgRpt.length = page.dpgRpt.length := h.count
  rw [hcount, ← getLast?_eq_getElem?] at hr'
  exact ⟨r', hr', hiff⟩

/-- Which lines are used decides about the layout. -/
theorem Rearranged.layout (hlayout : Layout dbb page) : Layout dbb page' where
  toPacked := h.packed
  unused i r hr hused := by
    obtain ⟨r', hr', hlen, hiff⟩ := h.lines i r hr
    exact hlen.trans (hlayout.unused i r' hr' (hiff.mp hused))
  minimum i r hr hused := by
    obtain ⟨r', hr', hlen, hiff⟩ := h.lines i r hr
    exact hlen ▸ hlayout.minimum i r' hr' fun hr => hused (hiff.mpr hr)
  last r hr := by
    obtain ⟨r', hr', hiff⟩ := h.getLast? hr
    exact fun hused => hlayout.last r' hr' (hiff.mp hused)

end

/-- A page can be compressed: its lines end up at its end, with their bytes. -/
theorem compress_spec (h : Packed dbb page) : ∃ page' space, compress dbb page = .ok (page', space) ∧
    Rearranged dbb page page' ∧ FreeBelow page'.dpgRpt space ∧ space + inUse page.dpgRpt = dbb.pageSize := by
  have hroom := h.count_le
  have hbounds := dbb.bounds
  obtain ⟨lines, free, tempPage, hgo, hfree, hmoved, hpairs, -⟩ := compressLines_spec page.bytes (fun _ => 0)
    (show inUse page.dpgRpt ≤ dbb.pageSize by omega) (by omega)
  have hlength : page.dpgRpt.length = lines.length := hmoved.length_eq
  have hline : ∀ (i : Nat) (r : DpgRepeat), lines[i]? = some r → ∃ r', page.dpgRpt[i]? = some r' ∧
      MovedLine page.bytes tempPage free dbb.pageSize r' r := by
    intro i r hr
    obtain ⟨hi, rfl⟩ := List.getElem?_eq_some_iff.mp hr
    exact ⟨_, getElem?_eq_getElem (hlength ▸ hi), hmoved.get (hlength ▸ hi) hi⟩
  refine ⟨{ page with dpgRpt := lines, bytes := fun i => if free ≤ i then tempPage i else page.bytes i }, free, ?_, ?_⟩
  · rw [compress, hgo]
  have hlow : 0 < free := by omega
  have hextents : lines.map DpgRepeat.extent = page.dpgRpt.map DpgRepeat.extent := by
    clear hgo hfree hpairs hline hlength hroom
    generalize page.dpgRpt = old at hmoved
    induction hmoved with
    | nil => rfl
    | cons hrs _ ih => rw [map_cons, map_cons, hrs.extent hlow, ih]
  have hsum : inUse lines = inUse page.dpgRpt := congrArg sum hextents
  have hbelow : FreeBelow lines free := by
    intro i r hr hused
    obtain ⟨r', -, hrs⟩ := hline i r hr
    exact (hrs.used (hrs.used_of hused)).1
  refine ⟨⟨⟨?_, ?_, ?_, ?_⟩, ?_, hlength.symm, hextents, ?_, rfl, rfl⟩, hbelow, hfree⟩
  · intro i r hr hused
    have hle := hbelow i r hr hused
    rw [highWater_eq, DataPage.dpgCount, ← hlength]
    unfold DataPage.dpgCount at hroom
    omega
  · intro i r hr hused
    obtain ⟨r', -, hrs⟩ := hline i r hr
    exact (hrs.used (hrs.used_of hused)).2
  · intro i j r s hr hs hne hrused hsused
    obtain ⟨hi, rfl⟩ := List.getElem?_eq_some_iff.mp hr
    obtain ⟨hj, rfl⟩ := List.getElem?_eq_some_iff.mp hs
    rcases Nat.lt_or_gt_of_ne hne with hlt | hgt
    · exact .inr (pairwise_iff_getElem.mp hpairs i j hi hj hlt hrused hsused)
    · exact .inl (pairwise_iff_getElem.mp hpairs j i hj hi hgt hsused hrused)
  · show highWater lines.length + inUse lines ≤ dbb.pageSize
    rw [highWater_eq]
    unfold DataPage.dpgCount at hroom
    omega
  · intro i r hr
    obtain ⟨r', hr', hrs⟩ := hline i r hr
    exact ⟨r', hr', hrs.length, hrs.used_iff hlow⟩
  · intro i
    by_cases hused : ∃ r, page.dpgRpt[i]? = some r ∧ r.dpgOffset ≠ 0
    · obtain ⟨r, hr, hused⟩ := hused
      have hi := (List.getElem?_eq_some_iff.mp hr).1
      obtain ⟨r', hr', hrs⟩ := hline i _ (getElem?_eq_getElem (hlength ▸ hi))
      cases hr.symm.trans hr'
      refine record_eq hr (getElem?_eq_getElem (hlength ▸ hi)) hused (fun hs => hused ((hrs.used_iff hlow).mp hs))
        hrs.length fun k hk => ?_
      have := (hrs.used hused).1
      dsimp only
      rw [if_pos (by omega)]
      exact hrs.same hused k (Nat.lt_of_lt_of_le hk (le_roundUp _))
    · refine record_eq_of_unused (fun r hr => by_contra fun hr' => hused ⟨r, hr, hr'⟩) fun r hr => ?_
      obtain ⟨r', hr', hrs⟩ := hline i r hr
      exact (hrs.used_iff hlow).mpr (by_contra fun hne => hused ⟨r', hr', hne⟩)

/-- A page that has the room in all is compressed where it has not got it in one piece. -/
theorem makeRoom_spec {top length : Nat} (h : Packed dbb page) (hfree : FreeBelow page.dpgRpt space)
    (hspace : space ≤ dbb.pageSize) (hroom : top + inUse page.dpgRpt + length ≤ dbb.pageSize) :
    ∃ page' space', makeRoom dbb top length page space = .ok (page', space') ∧ Rearranged dbb page page' ∧
      FreeBelow page'.dpgRpt space' ∧ top + length ≤ space' ∧ space' ≤ dbb.pageSize := by
  unfold makeRoom
  split
  · obtain ⟨page', space', hcompress, hmoved, hbelow, hsum⟩ := compress_spec h
    exact ⟨page', space', hcompress, hmoved, hbelow, by omega, by omega⟩
  · exact ⟨page, space, rfl, .refl h, hfree, by omega, hspace⟩

end Firebird.Dpm
