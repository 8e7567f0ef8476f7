import Firebird.Dpm.PageLayout

/-! # Storing and updating on a page -/

namespace Firebird.Dpm

open List

variable {dbb : Dbb} {page page' : DataPage} {lines rest : List DpgRepeat} {index r : DpgRepeat}
  {line slot i n space used : Nat} {content : Bytes} {type : RecordStorageType}

theorem ok_bind {α β ε : Type} (a : α) (f : α → Except ε β) : (Except.ok a >>= f) = f a := rfl

theorem ushort_natCast (h : n ≤ 65535) : ushort n = .ok n := by
  rw [ushort_ok (by omega) (by omega), Int.toNat_natCast]

theorem ushort_eq {x : Int} (hx : x = n) (h : n ≤ 65535) : ushort x = .ok n := hx ▸ ushort_natCast h

structure Put (page page' : DataPage) (slot : Nat) (content : Bytes) : Prop where
  self : page'.record slot = some content
  others : ∀ i, i ≠ slot → page'.record i = page.record i

structure LinesBut (page : DataPage) (slot : Nat) : Prop where
  lengths : ∀ (i : Nat) (r : DpgRepeat), i ≠ slot → page.dpgRpt[i]? = some r →
    (r.dpgOffset = 0 ∧ r.dpgLength = 0) ∨ (r.dpgOffset ≠ 0 ∧ rhdfSize ≤ r.dpgLength)
  last : ∀ r : DpgRepeat, page.dpgRpt.getLast? = some r → r.dpgOffset ≠ 0

theorem Layout.linesBut (h : Layout dbb page) (slot : Nat) : LinesBut page slot :=
  ⟨fun _ _ _ hr => h.lengths hr, h.last⟩

theorem Rearranged.linesBut (h : Rearranged dbb page page') (hbut : LinesBut page slot) : LinesBut page' slot where
  lengths i r hi hr := by
    obtain ⟨r', hr', hlen, hiff⟩ := h.lines i r hr
    rw [hlen, Ne, hiff]
    exact hbut.lengths i r' hi hr'
  last r hr := by
    obtain ⟨r', hr', hiff⟩ := h.getLast? hr
    exact fun hused => hbut.last r' hr' (hiff.mp hused)

theorem layout_of_lengths (h : Packed dbb page)
    (hlengths : ∀ (i : Nat) (r : DpgRepeat), page.dpgRpt[i]? = some r → r.Sized)
    (hlast : ∀ r : DpgRepeat, page.dpgRpt.getLast? = some r → r.dpgOffset ≠ 0) : Layout dbb page where
  toPacked := h
  unused i r hr hused := ((hlengths i r hr).resolve_right fun hne => hne.1 hused).2
  minimum i r hr hused := ((hlengths i r hr).resolve_left fun he => hused he.1).2
  last := hlast

theorem getLast?_putLine (hslot : slot ≤ page.dpgCount) (hr : (page.putLine slot index).dpgRpt.getLast? = some r) :
    r = index ∨ page.dpgRpt.getLast? = some r := by
  rw [getLast?_eq_getElem?] at hr
  have hcount := dpgCount_putLine page slot index
  unfold DataPage.dpgCount at hcount hslot
  rw [hcount, getElem?_putLine hslot] at hr
  by_cases heq : slot = page.dpgRpt.length
  · rw [if_pos heq, if_pos (by omega)] at hr
    exact .inl (Option.some.inj hr).symm
  · rw [if_neg heq] at hr
    split at hr
    · exact .inl (Option.some.inj hr).symm
    · exact .inr (getLast?_eq_getElem? ▸ hr)

@[simp] theorem bytes_putLine (page : DataPage) (slot : Nat) (index : DpgRepeat) :
    (page.putLine slot index).bytes = page.bytes := by
  unfold DataPage.putLine
  split <;> rfl

section
variable (slot space size : Nat) (h : Packed dbb page) (hbut : LinesBut page slot) (hslot : slot ≤ page.dpgCount)
  (hfree : FreeBelow page.dpgRpt (space + roundUp size)) (hend : space + roundUp size ≤ dbb.pageSize)
  (htop : 24 + 4 * (if slot = page.dpgCount then page.dpgCount + 1 else page.dpgCount) ≤ space)
  (hroom : 24 + 4 * (if slot = page.dpgCount then page.dpgCount + 1 else page.dpgCount) + inUseBut page slot +
    roundUp size ≤ dbb.pageSize)
  (hmin : rhdfSize ≤ size)
include h hbut hslot hfree hend htop hroom hmin

theorem layout_putLine : Layout dbb (page.putLine slot { dpgOffset := space, dpgLength := size }) := by
  have hcount := dpgCount_putLine page slot { dpgOffset := space, dpgLength := size }
  have hput := h.putLine hslot hfree hend (by rw [highWater_eq]; omega) (by rw [highWater_eq]; omega)
  have hused : space ≠ 0 := by omega
  refine layout_of_lengths hput (fun i r hr => ?_) fun r hr => ?_
  · rw [getElem?_putLine hslot] at hr
    split at hr
    · cases hr
      exact .inr ⟨hused, hmin⟩
    · rename_i hne
      exact hbut.lengths i r hne hr
  · rcases getLast?_putLine hslot hr with rfl | hr
    · exact hused
    · exact hbut.last r hr

end

theorem put_write (slot space : Nat) (content : Bytes) (hslot : slot ≤ page.dpgCount)
    (hfree : FreeBelow page.dpgRpt (space + roundUp content.length)) (hused : space ≠ 0) :
    Put page ((page.putLine slot { dpgOffset := space, dpgLength := content.length }).write space content) slot
    content where
  self := record_write_self (r := { dpgOffset := space, dpgLength := content.length })
    ((getElem?_putLine hslot _ slot).trans (if_pos rfl)) hused rfl
  others i hi := by
    have hle := le_roundUp content.length
    refine record_of_line ((getElem?_putLine hslot _ i).trans (if_neg hi)) fun r hr hrused k hk => ?_
    rw [bytes_write_of_not_mem, bytes_putLine]
    have := hfree i r hr hrused
    omega

theorem record_congr (hlines : page'.dpgRpt = page.dpgRpt) (hbytes : page'.bytes = page.bytes) (i : Nat) :
    page'.record i = page.record i := by
  unfold DataPage.record
  rw [hlines, hbytes]

theorem Put.congr {page₁ : DataPage} (h : Put page page' slot content) (hlines : page₁.dpgRpt = page'.dpgRpt)
    (hbytes : page₁.bytes = page'.bytes) : Put page page₁ slot content where
  self := (record_congr hlines hbytes slot).trans h.self
  others i hi := (record_congr hlines hbytes i).trans (h.others i hi)

theorem Put.of_rearranged {page₁ : DataPage} (h : Put page' page₁ slot content) (hmoved : Rearranged dbb page page') :
    Put page page₁ slot content where
  self := h.self
  others i hi := (h.others i hi).trans (hmoved.record i)

theorem freeBelow_cons (h : index.dpgOffset ≠ 0 → space ≤ index.dpgOffset) (hrest : FreeBelow rest space) :
    FreeBelow (index :: rest) space := by
  intro i r hr hused
  cases i with
  | zero =>
    cases hr
    exact h hused
  | succ i => exact hrest i r hr hused

theorem FreeBelow.mono (h : FreeBelow lines space) (hle : n ≤ space) : FreeBelow lines n :=
  fun i r hr hused => Nat.le_trans hle (h i r hr hused)

def SlotFound (lines : List DpgRepeat) (i slot slot' : Nat) : Prop :=
  slot' = slot ∨ ∃ k, slot' = i + k ∧ ∃ r : DpgRepeat, lines[k]? = some r ∧ r.dpgOffset = 0

theorem SlotFound.cons {slot' : Nat} (h : SlotFound rest (i + 1) slot slot') : SlotFound (index :: rest) i slot slot' :=
  h.imp_right fun ⟨k, hk, hr⟩ => ⟨k + 1, by omega, hr⟩

/-- Every record takes at least the space that is held back for it once more, less a line. -/
theorem findSpaceScan_spec (page : DataPage) (reserving : Bool)
    (hmin : ∀ (k : Nat) (r : DpgRepeat), lines[k]? = some r → r.dpgOffset ≠ 0 → rhdfSize ≤ r.dpgLength)
    (hused : used + 2 * inUse lines + 4 * lines.length ≤ 65535) :
    ∃ space' slot' used', page.findSpaceScan reserving lines i space slot used = .ok (space', slot', used') ∧
      space' ≤ space ∧ FreeBelow lines space' ∧ SlotFound lines i slot slot' ∧ used + inUse lines ≤ used' ∧
      used' ≤ used + 2 * inUse lines + 4 * lines.length := by
  induction lines generalizing i space slot used with
  | nil => exact ⟨space, slot, used, rfl, Nat.le_refl _, nofun, .inl rfl, Nat.le_refl _, Nat.le_add_right ..⟩
  | cons index lines ih =>
    have hrest : ∀ (k : Nat) (r : DpgRepeat), lines[k]? = some r → r.dpgOffset ≠ 0 → rhdfSize ≤ r.dpgLength :=
      fun k r hr => hmin (k + 1) r hr
    rw [inUse_cons, length_cons] at hused
    by_cases hoff : index.dpgOffset = 0
    · have hextent := extent_of_unused hoff
      obtain ⟨space', slot', used', hscan, hspace, hfree, hslot, hlow, hhigh⟩ := @ih
        (if slot = 0 then i else slot) (i + 1) space used hrest (by omega)
      refine ⟨space', slot', used', ?_, hspace, freeBelow_cons (fun hne => absurd hoff hne) hfree, ?_, ?_, ?_⟩
      · rw [DataPage.findSpaceScan, if_neg (not_not.mpr hoff), hscan]
      · by_cases hzero : slot = 0
        · rw [if_pos hzero] at hslot
          rcases hslot with rfl | hslot
          · exact .inr ⟨0, rfl, index, rfl, hoff⟩
          · exact SlotFound.cons (.inr hslot)
        · rw [if_neg hzero] at hslot
          exact hslot.cons
      · rw [inUse_cons]
        omega
      · rw [inUse_cons, length_cons]
        omega
    · have hextent := extent_of_used hoff
      have hlength := hmin 0 index rfl hoff
      have hround := le_roundUp index.dpgLength
      have hdvd := four_dvd_extent index
      have hfudge : spaceFudge ≤ index.extent + 4 := by
        have : spaceFudge = 28 := rfl
        unfold rhdfSize at hlength
        omega
      obtain ⟨used₁, hfudged, hlow₁, hhigh₁⟩ : ∃ used₁,
          (if reserving ∧ page.reserves index.dpgOffset then ushort (used + roundUp index.dpgLength + spaceFudge : Nat)
            else .ok (used + roundUp index.dpgLength)) = .ok used₁ ∧ used + index.extent ≤ used₁ ∧
          used₁ ≤ used + 2 * index.extent + 4 := by
        split
        · exact ⟨_, ushort_natCast (by omega), by omega, by omega⟩
        · exact ⟨_, rfl, by omega, by omega⟩
      obtain ⟨space', slot', used', hscan, hspace, hfree, hslot, hlow, hhigh⟩ := @ih slot (i + 1)
        (min space index.dpgOffset) used₁ hrest (by omega)
      refine ⟨space', slot', used', ?_, by omega, freeBelow_cons (fun _ => by omega) hfree, hslot.cons, ?_, ?_⟩
      · rw [DataPage.findSpaceScan, if_pos hoff, ushort_natCast (by omega)]
        dsimp only
        rw [hfudged]
        exact hscan
      · rw [inUse_cons]
        omega
      · rw [inUse_cons, length_cons]
        omega

/-- The operation found a line for the record, not in use before, or left the records as they are. -/
def PutOrNot (page page' : DataPage) (content : Bytes) : Option Nat → Prop
  | none => ∀ i, page'.record i = page.record i
  | some slot => page.record slot = none ∧ Put page page' slot content

theorem Layout.lines_count (h : Layout dbb page) : 24 + 4 * page.dpgCount + 2 * inUse page.dpgRpt + 4 *
    page.dpgCount ≤ 65512 := by
  have := h.count_le
  have := dbb.bounds
  omega

theorem inUseBut_le (page : DataPage) (slot : Nat) : inUseBut page slot ≤ inUse page.dpgRpt := Nat.sub_le ..

theorem record_of_count_le (h : page.dpgCount ≤ i) : page.record i = none :=
  record_eq_none fun r hr => by
    rw [getElem?_eq_none h] at hr
    cases hr

theorem findSpace_spec (type : RecordStorageType) (h : Layout dbb page) (hmin : rhdfSize ≤ content.length)
    (hmax : content.length ≤ dbb.pageSize - sizeofDataPage) :
    ∃ page' slot, page.findSpace dbb type content = .ok (page', slot) ∧ Layout dbb page' ∧
    PutOrNot page page' content slot := by
  have hbounds := dbb.bounds
  have hlines := h.lines_count
  have hround := roundUp_eq content.length
  have hdata : sizeofDataPage = 28 := rfl
  unfold DataPage.findSpace
  rw [sshort_ok (by omega) (by omega), ok_bind, Int.toNat_natCast, sshort_ok (by omega) (by omega), ok_bind]
  split
  · exact ⟨page, none, rfl, h, fun _ => rfl⟩
  obtain ⟨space, slot, used, hscan, hspace, hfree, hslot, hlow, hhigh⟩ :=
    @findSpaceScan_spec page.dpgRpt 0 0 dbb.pageSize
    (24 + 4 * page.dpgCount) page (type = .primary ∧ ¬dbb.noReserve) h.minimum (by unfold DataPage.dpgCount at *; omega)
  rw [ushort_eq (n := 24 + 4 * page.dpgCount) (by rw [highWater_eq]; omega) (by omega), ok_bind, hscan, ok_bind]
  dsimp only
  have hlength : page.dpgRpt.length = page.dpgCount := rfl
  obtain ⟨grown, hgrown⟩ : ∃ grown, (if slot = 0 then 1 else 0) = grown := ⟨_, rfl⟩
  obtain ⟨slot', hslot'⟩ : ∃ slot', (if slot = 0 then page.dpgCount else slot) = slot' := ⟨_, rfl⟩
  have hnew : slot' ≤ page.dpgCount ∧ page.dpgCount + grown = (if slot' = page.dpgCount then page.dpgCount +
      1 else page.dpgCount) ∧ page.record slot' = none ∧ 0 < page.dpgCount + grown := by
    by_cases hzero : slot = 0
    · rw [if_pos hzero] at hgrown hslot'
      subst hgrown hslot'
      exact ⟨Nat.le_refl _, (if_pos rfl).symm, record_of_count_le (Nat.le_refl _), Nat.succ_pos _⟩
    · rw [if_neg hzero] at hgrown hslot'
      subst hgrown hslot'
      obtain ⟨k, rfl, r, hr, hunused⟩ := hslot.resolve_left hzero
      rw [Nat.zero_add] at *
      have hlt : k < page.dpgCount := (List.getElem?_eq_some_iff.mp hr).1
      refine ⟨by omega, (if_neg (by omega)).symm, record_eq_none fun r' hr' => ?_, by omega⟩
      cases hr.symm.trans hr'
      exact hunused
  obtain ⟨hle, hsegments, hnone, hpos⟩ := hnew
  have hgrownle : grown ≤ 1 := by
    rw [← hgrown]
    split <;> omega
  rw [hgrown, ushort_natCast (by unfold sizeofDpgRepeat; omega), ok_bind]
  split
  · exact ⟨_, none, rfl, h.congr rfl, fun _ => rfl⟩
  rename_i hfits
  rw [ushort_natCast (by omega), ok_bind, fbAssert_ok (by omega), ok_bind]
  obtain ⟨page', space', hroom, hmoved, hbelow, hspace', hend⟩ := @makeRoom_spec dbb page space
    (24 + 4 * (page.dpgCount + grown)) (roundUp content.length) h.toPacked hfree hspace
    (by unfold sizeofDpgRepeat at hfits; omega)
  have htop : highWater (page.dpgCount + grown) = (24 + 4 * (page.dpgCount + grown) : Nat) :=
    by rw [highWater_eq]; omega
  rw [htop, hroom, ok_bind]
  rw [fbAssert_ok (by omega), ok_bind, ushort_eq (n := space' - roundUp content.length) (by omega) (by omega), ok_bind,
    hmoved.count, hslot']
  have hbut := inUseBut_le page' slot'
  rw [hmoved.inUse_eq] at hbut
  have hlayout := layout_putLine slot' (space' - roundUp content.length) content.length hmoved.packed
    (hmoved.linesBut (h.linesBut slot')) (hmoved.count ▸ hle) (hbelow.mono (by omega)) (by omega)
    (by rw [hmoved.count, ← hsegments]; omega)
    (by rw [hmoved.count]; unfold sizeofDpgRepeat at hfits; omega) hmin
  have hput := put_write slot' (space' - roundUp content.length) content
    (hmoved.count ▸ hle) (hbelow.mono (by omega)) (by omega)
  -- the flag of a first record is the only other change
  refine ⟨_, some slot', rfl, hlayout.congr ?_, hnone, (hput.congr ?_ ?_).of_rearranged hmoved⟩
  · rw [write_dpgRpt]
    split <;> rfl
  all_goals split <;> rfl

/-! ### Replacing a record -/

theorem rhdfSize_le_content (record : NewRecord) : rhdfSize ≤ record.content.length := by
  simp only [NewRecord.content, length_append, length_replicate]
  omega

theorem sshort_eq {x : Int} (hx : x = n) (h : n ≤ 32767) : sshort x = .ok (n : Int) := by
  rw [hx, sshort_ok (by omega) (by omega)]

theorem line_eq (h : page.dpgRpt[line]? = some index) : page.line line = .ok index := by
  rw [DataPage.line, h]

theorem putLine_of_lt (h : line < page.dpgCount) (index : DpgRepeat) :
    page.putLine line index = page.setLine line index :=
  if_neg (Nat.ne_of_lt h)

theorem updateScan_spec {available : Nat} (h : inUse lines ≤ available) (hle : available ≤ 32767) :
    ∃ space', DataPage.updateScan lines available space = .ok ((available - inUse lines : Nat), space') ∧
    space' ≤ space ∧
      FreeBelow lines space' := by
  induction lines generalizing available space with
  | nil => exact ⟨space, rfl, Nat.le_refl _, nofun⟩
  | cons index lines ih =>
    rw [inUse_cons] at h
    by_cases hoff : index.dpgOffset = 0
    · have hextent := extent_of_unused hoff
      obtain ⟨space', hscan, hspace, hfree⟩ := @ih space available (by omega) hle
      refine ⟨space', ?_, hspace, freeBelow_cons (fun hne => absurd hoff hne) hfree⟩
      rw [DataPage.updateScan, if_neg (not_not.mpr hoff), hscan, inUse_cons, hextent, Nat.zero_add]
    · have hextent := extent_of_used hoff
      obtain ⟨space', hscan, hspace, hfree⟩ :=
        @ih (min space index.dpgOffset) (available - index.extent) (by omega) (by omega)
      refine ⟨space', ?_, by omega, freeBelow_cons (fun _ => by omega) hfree⟩
      rw [DataPage.updateScan, if_pos hoff, sshort_eq (n := available - index.extent) (by omega) (by omega)]
      dsimp only
      rw [hscan, inUse_cons, Nat.sub_sub]

theorem Layout.shrunk (h : Layout dbb page) (hr : page.dpgRpt[line]? = some index) (hused : index.dpgOffset ≠ 0) :
    Packed dbb (page.setLine line { index with dpgLength := 0 }) ∧
      LinesBut (page.setLine line { index with dpgLength := 0 }) line ∧
      inUse (page.setLine line { index with dpgLength := 0 }).dpgRpt = inUseBut page line ∧
      inUseBut page line + index.extent = inUse page.dpgRpt := by
  have hlt : line < page.dpgRpt.length := (List.getElem?_eq_some_iff.mp hr).1
  have hget : ∀ i, (page.setLine line { index with dpgLength := 0 }).dpgRpt[i]? =
      if i = line then some { index with dpgLength := 0 } else page.dpgRpt[i]? := by
    intro i
    rw [← putLine_of_lt hlt]
    exact getElem?_putLine (Nat.le_of_lt hlt) _ i
  have hset := inUse_set hr { index with dpgLength := 0 }
  have hzero : ({ index with dpgLength := 0 } : DpgRepeat).extent = 0 := by
    unfold DpgRepeat.extent
    rw [roundUp_zero, ite_self]
  have hbut : inUseBut page line + index.extent = inUse page.dpgRpt := by
    rw [inUseBut, hr, Option.map_some, Option.getD_some]
    omega
  have hsum : inUse (page.setLine line { index with dpgLength := 0 }).dpgRpt = inUseBut page line := by
    rw [DataPage.setLine]
    dsimp only
    omega
  refine ⟨h.toPacked.reindex id (by simp [DataPage.dpgCount, DataPage.setLine]) (by omega) (fun i j r s _ _ _ _ heq =>
    heq) ?_, ⟨fun i r hi hr' => ?_, fun r hr' => ?_⟩, hsum, hbut⟩
  · intro i r hr' hused'
    rw [hget] at hr'
    split at hr'
    · rename_i hi
      cases hr'
      exact ⟨index, hi ▸ hr, rfl, Nat.zero_le _⟩
    · exact ⟨r, hr', rfl, Nat.le_refl _⟩
  · rw [hget, if_neg hi] at hr'
    exact h.lengths hr'
  · rw [getLast?_eq_getElem?, hget] at hr'
    split at hr'
    · cases hr'
      exact hused
    · refine h.last r ?_
      rw [getLast?_eq_getElem?]
      simpa [DataPage.setLine] using hr'

theorem Layout.headerWritten (h : Layout dbb page) (hr : page.dpgRpt[line]? = some index) (hused : index.dpgOffset ≠ 0)
    (hlines : page'.dpgRpt = page.dpgRpt) (hbytes : BytesKept page page' index.dpgOffset (index.dpgOffset + rhdfSize)) :
    Layout dbb page' ∧ ∀ i, i ≠ line → page'.record i = page.record i := by
  refine ⟨h.congr hlines, fun i hi => hbytes.record (congrArg (·[i]?) hlines) fun r hr' hrused => ?_⟩
  have hmin := h.minimum line index hr hused
  have := le_roundUp r.dpgLength
  have := le_roundUp index.dpgLength
  have hdisjoint := h.disjoint i line r index hr' hr hi hrused hused
  unfold DpgRepeat.stop at hdisjoint
  omega

theorem fragmentClaim_spec {rpb : UpdateParam} (h : Layout dbb page) (hr : page.dpgRpt[rpb.line]? = some index)
    (hused : index.dpgOffset ≠ 0) (available : Nat)
    (havailable : 24 + 4 * page.dpgCount + inUseBut page rpb.line + available = dbb.pageSize) :
    ∃ page', (page.setLine rpb.line { index with dpgLength := 0 }).fragmentClaim dbb rpb available index.dpgLength =
    .ok page' ∧
      Layout dbb page' ∧ ∀ i, i ≠ rpb.line → page'.record i = page.record i := by
  obtain ⟨hpacked, hbut, hsum, hextent⟩ := h.shrunk hr hused
  have hcount := h.count_le
  have hbounds := dbb.bounds
  have hmin := h.minimum _ _ hr hused
  have hround := le_roundUp index.dpgLength
  have hext := extent_of_used hused
  have hlt : rpb.line < page.dpgRpt.length := (List.getElem?_eq_some_iff.mp hr).1
  have hline : (page.setLine rpb.line { index with dpgLength := 0 }).dpgRpt[rpb.line]? =
      some { index with dpgLength := 0 } := by
    simp [DataPage.setLine, hlt]
  have hback : (page.dpgRpt.set rpb.line { index with dpgLength := 0 }).set rpb.line index = page.dpgRpt := by
    rw [set_set, ← (List.getElem?_eq_some_iff.mp hr).2, set_getElem_self]
  unfold DataPage.fragmentClaim
  rw [line_eq hline, ok_bind]
  have hkeep : sshort index.dpgLength = .ok (index.dpgLength : Int) := sshort_eq rfl (by omega)
  split
  · rw [hkeep, ok_bind, ushort_eq (n := index.dpgLength - rhdfSize) (by omega) (by omega)]
    exact ⟨_, rfl, h.headerWritten hr hused hback ((BytesKept.refl page _ _).setRhdFlags _)⟩
  split
  · rw [hkeep, ok_bind, ushort_eq (n := index.dpgLength - rhdfSize) (by omega) (by omega)]
    exact ⟨_, rfl, h.headerWritten hr hused hback
      ((((BytesKept.refl page _ _).setRhdFlags _).setRhdBPage _).setRhdBLine _ |>.setRhdFlags _)⟩
  · obtain ⟨page₂, space, hcompress, hmoved, hfree, hspace⟩ := compress_spec hpacked
    have hdvd := four_dvd_inUse (page.setLine rpb.line { index with dpgLength := 0 }).dpgRpt
    have hroundup : roundUp available = available := roundUp_of_dvd (by omega)
    have hlt₂ : rpb.line < page₂.dpgCount := hmoved.count ▸ (by simpa [DataPage.dpgCount, DataPage.setLine] using hlt)
    have hcount₂ : page₂.dpgCount = page.dpgCount := hmoved.count.trans (by simp [DataPage.dpgCount, DataPage.setLine])
    have hnotNew : rpb.line ≠ page₂.dpgCount := Nat.ne_of_lt hlt₂
    have hbutle := inUseBut_le page₂ rpb.line
    rw [hmoved.inUse_eq] at hbutle
    have hlayout := layout_putLine rpb.line (24 + 4 * page.dpgCount) available hmoved.packed (hmoved.linesBut hbut)
      (Nat.le_of_lt hlt₂) (hfree.mono (by omega)) (by omega) (by rw [if_neg hnotNew]; omega)
      (by rw [if_neg hnotNew]; omega) (by omega)
    rw [putLine_of_lt hlt₂] at hlayout
    rw [hcompress, ok_bind]
    dsimp only
    rw [ushort_eq (n := 24 + 4 * page.dpgCount) (by omega) (by omega), ushort_eq (n := available - rhdfSize) (by omega)
      (by omega)]
    have hflags : BytesKept page₂ _ (24 + 4 * page.dpgCount) (24 + 4 * page.dpgCount + rhdfSize) :=
      (BytesKept.refl page₂ _ _).setRhdFlags rhdDeleted
    have hkept := (((hflags.clearRhdfF.writeTraNum rpb.traNumber).setLine rpb.line
      { dpgOffset := 24 + 4 * page.dpgCount, dpgLength := available }).setRhdBPage rpb.bPage).setRhdBLine rpb.bLine
    have hlines : ((((page₂.setRhdFlags (24 + 4 * page.dpgCount) rhdDeleted).clearRhdfF
        (24 + 4 * page.dpgCount)).writeTraNum (24 + 4 * page.dpgCount) rpb.traNumber).setLine rpb.line
          { dpgOffset := 24 + 4 * page.dpgCount, dpgLength := available }).dpgRpt =
        (page₂.setLine rpb.line { dpgOffset := 24 + 4 * page.dpgCount, dpgLength := available }).dpgRpt := by
      rw [DataPage.setLine, dpgRpt_writeTraNum]
      rfl
    refine ⟨_, rfl, hlayout.congr hlines, fun i hi => ?_⟩
    have hline₂ : (page₂.setLine rpb.line { dpgOffset := 24 + 4 * page.dpgCount, dpgLength := available }).dpgRpt[i]? =
        page₂.dpgRpt[i]? := by
      rw [DataPage.setLine, getElem?_set_ne (Ne.symm hi)]
    refine ((hkept.setRhdFlags _).record ((congrArg (·[i]?) hlines).trans hline₂) fun r hr' hrused => ?_).trans
      ((hmoved.record i).trans (record_of_line ?_ fun _ _ _ _ _ => rfl))
    · have := hfree i r hr' hrused
      omega
    · rw [DataPage.setLine, getElem?_set_ne (Ne.symm hi)]

theorem dpmUpdate_spec {rpb : UpdateParam} (h : Layout dbb page) (hr : page.dpgRpt[rpb.line]? = some index)
    (hused : index.dpgOffset ≠ 0) :
    ∃ page', page.dpmUpdate dbb rpb = .ok page' ∧ Layout dbb page' ∧
    (∀ i, i ≠ rpb.line → page'.record i = page.record i) ∧
      (24 + 4 * page.dpgCount + inUseBut page rpb.line + roundUp rpb.record.content.length ≤ dbb.pageSize →
        page'.record rpb.line = some rpb.record.content) := by
  obtain ⟨hpacked, hbut, hsum, hextent⟩ := h.shrunk hr hused
  have hcount := h.count_le
  have hbounds := dbb.bounds
  have hmin := rhdfSize_le_content rpb.record
  have hlt : rpb.line < page.dpgCount := (List.getElem?_eq_some_iff.mp hr).1
  obtain ⟨space, hscan, hspace, hfree⟩ := @updateScan_spec (page.setLine rpb.line { index with dpgLength := 0 }).dpgRpt
    dbb.pageSize (dbb.pageSize - (24 + 4 * page.dpgCount)) (by omega) (by omega)
  rw [hsum] at hscan
  unfold DataPage.dpmUpdate
  dsimp only
  rw [ushort_eq (n := 24 + 4 * page.dpgCount) (by rw [highWater_eq]; omega) (by omega), ok_bind,
    sshort_eq (n := dbb.pageSize - (24 + 4 * page.dpgCount)) (by omega) (by omega), ok_bind,
    line_eq hr, ok_bind, hscan, ok_bind]
  split
  · obtain ⟨page', hclaim, hlayout, hothers⟩ := fragmentClaim_spec h hr hused
      (dbb.pageSize - (24 + 4 * page.dpgCount) - inUseBut page rpb.line) (by omega)
    exact ⟨page', hclaim, hlayout, hothers, fun hfits => by omega⟩
  · obtain ⟨page₂, space₂, hroom, hmoved, hbelow, hspace₂, hend⟩ := @makeRoom_spec dbb
      (page.setLine rpb.line { index with dpgLength := 0 }) space (24 + 4 * page.dpgCount)
      (roundUp rpb.record.content.length) hpacked hfree hspace (by omega)
    have hcount₂ : page₂.dpgCount = page.dpgCount := hmoved.count.trans (by simp [DataPage.dpgCount, DataPage.setLine])
    have hlt₂ : rpb.line < page₂.dpgCount := hcount₂ ▸ hlt
    have hnotNew : rpb.line ≠ page₂.dpgCount := Nat.ne_of_lt hlt₂
    have hbutle := inUseBut_le page₂ rpb.line
    rw [hmoved.inUse_eq] at hbutle
    have hlayout := layout_putLine rpb.line (space₂ - roundUp rpb.record.content.length)
      rpb.record.content.length hmoved.packed
      (hmoved.linesBut hbut) (Nat.le_of_lt hlt₂) (hbelow.mono (by omega)) (by omega) (by rw [if_neg hnotNew]; omega)
      (by rw [if_neg hnotNew]; omega) hmin
    have hput := put_write rpb.line (space₂ - roundUp rpb.record.content.length) rpb.record.content (Nat.le_of_lt hlt₂)
      (hbelow.mono (by omega)) (by omega)
    rw [putLine_of_lt hlt₂] at hlayout hput
    rw [hroom, ok_bind]
    rw [fbAssert_ok (by omega), ok_bind,
      ushort_eq (n := space₂ - roundUp rpb.record.content.length) (by omega) (by omega),
      ok_bind, fbAssert_ok (by omega)]
    refine ⟨_, rfl, hlayout.congr (write_dpgRpt ..), fun i hi => ?_, fun _ => hput.self⟩
    refine (hput.others i hi).trans ((hmoved.record i).trans (record_of_line ?_ fun _ _ _ _ _ => rfl))
    rw [DataPage.setLine, getElem?_set_ne (Ne.symm hi)]

theorem fragmentFill_spec (h : Layout dbb page) (hr : page.dpgRpt[line]? = some index) (hused : index.dpgOffset ≠ 0)
    (hlen : content.length = index.dpgLength) :
    ∃ page', page.fragmentFill line content = .ok page' ∧ Layout dbb page' ∧ Put page page' line content := by
  unfold DataPage.fragmentFill
  rw [line_eq hr]
  refine ⟨_, rfl, h.congr (write_dpgRpt ..), record_write_self hr hused hlen, fun i hi => ?_⟩
  refine BytesKept.record ((BytesKept.refl page index.dpgOffset (index.dpgOffset + content.length)).write
    (Nat.le_refl _) (Nat.le_refl _)) rfl fun r hr' hrused => ?_
  have := le_roundUp r.dpgLength
  have := le_roundUp index.dpgLength
  have hdisjoint := h.disjoint i line r index hr' hr hi hrused hused
  unfold DpgRepeat.stop at hdisjoint
  omega

end Firebird.Dpm
