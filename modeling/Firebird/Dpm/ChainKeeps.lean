import Firebird.Dpm.PageKeeps

/-! # Chaining and deleting on a page -/

namespace Firebird.Dpm
open List

variable {dbb : Dbb} {page page' : DataPage} {lines : List DpgRepeat} {index r s : DpgRepeat}
  {line bLine slot n space : Nat} {content : Bytes}

/-! ### Chaining a new version -/

theorem chainScan_spec {count available : Nat}
    (hlengths : ∀ (k : Nat) (r : DpgRepeat), lines[k]? = some r → r.Sized)
    (h : inUse lines ≤ available) (hle : available ≤ 32767) :
    ∃ slot' space', DataPage.chainScan count lines n slot available space =
        .ok (slot', (available - inUse lines : Nat), space') ∧ space' ≤ space ∧ FreeBelow lines space' ∧
      SlotFound lines n slot slot' := by
  induction lines generalizing n slot available space with
  | nil => exact ⟨slot, space, rfl, Nat.le_refl _, nofun, .inl rfl⟩
  | cons index lines ih =>
    rw [inUse_cons] at h
    have hrest := fun k r hr => hlengths (k + 1) r hr
    obtain ⟨hoff, hlen⟩ | ⟨hoff, hlen⟩ := hlengths 0 index rfl
    · have hextent := extent_of_unused hoff
      obtain ⟨slot', space', hscan, hspace, hfree, hslot⟩ :=
        @ih (if slot = count then n else slot) (n + 1) space available hrest (by omega) hle
      refine ⟨slot', space', ?_, hspace, freeBelow_cons (fun hne => absurd hoff hne) hfree, ?_⟩
      · rw [DataPage.chainScan]
        simp only [hlen, hoff, ne_eq, not_true_eq_false, false_and, if_false, true_and]
        rw [hscan, inUse_cons, hextent, Nat.zero_add]
      · rcases hslot with hslot | hslot
        · by_cases hcount : slot = count
          · rw [if_pos hcount] at hslot
            exact .inr ⟨0, hslot, index, rfl, hoff⟩
          · rw [if_neg hcount] at hslot
            exact .inl hslot
        · exact SlotFound.cons (.inr hslot)
    · have hextent := extent_of_used hoff
      have hlenne : index.dpgLength ≠ 0 := by
        unfold rhdfSize at hlen
        omega
      obtain ⟨slot', space', hscan, hspace, hfree, hslot⟩ := @ih slot (n + 1) (min space index.dpgOffset)
        (available - index.extent) hrest (by omega) (by omega)
      refine ⟨slot', space', ?_, by omega, freeBelow_cons (fun _ => by omega) hfree, hslot.cons⟩
      rw [DataPage.chainScan, if_pos ⟨hlenne, hoff⟩, sshort_eq (n := available - index.extent) (by omega) (by omega),
        if_neg fun he => hlenne he.1]
      dsimp only
      rw [hscan, inUse_cons, Nat.sub_sub]

theorem Layout.swap (h : Layout dbb page) (hr : page.dpgRpt[line]? = some r) (hs : page.dpgRpt[slot]? = some s)
    (hne : line ≠ slot) (hrused : r.dpgOffset ≠ 0) (hsused : s.dpgOffset ≠ 0)
    (hlines : page'.dpgRpt = (page.dpgRpt.set slot r).set line s) : Layout dbb page' := by
  have hline : line < page.dpgRpt.length := (List.getElem?_eq_some_iff.mp hr).1
  have hslot : slot < page.dpgRpt.length := (List.getElem?_eq_some_iff.mp hs).1
  have hget : ∀ i, page'.dpgRpt[i]? = if i = line then some s else if i = slot then some r else page.dpgRpt[i]? := by
    intro i
    rw [hlines, getElem?_set, getElem?_set, length_set, if_pos hline, if_pos hslot]
    simp only [eq_comm (a := line), eq_comm (a := slot)]
  have hcount : page'.dpgCount = page.dpgCount := by
    unfold DataPage.dpgCount
    rw [hlines, length_set, length_set]
  have hfrom : ∀ (i : Nat) (t : DpgRepeat), page'.dpgRpt[i]? = some t →
      page.dpgRpt[if i = line then slot else if i = slot then line else i]? = some t := by
    intro i t ht
    rw [hget] at ht
    split
    · rename_i hi
      rw [if_pos hi] at ht
      exact hs.trans ht
    · rename_i hi
      rw [if_neg hi] at ht
      split
      · rename_i hi'
        rw [if_pos hi'] at ht
        exact hr.trans ht
      · rename_i hi'
        rwa [if_neg hi'] at ht
  have hsum : inUse page'.dpgRpt = inUse page.dpgRpt := by
    have h₁ := inUse_set hs r
    have hr' : (page.dpgRpt.set slot r)[line]? = some r := by rw [getElem?_set_ne (Ne.symm hne), hr]
    have h₂ := inUse_set hr' s
    rw [hlines]
    omega
  refine layout_of_lengths (h.toPacked.reindex (fun i => if i = line then slot else if i = slot then line else i)
    (Nat.le_of_eq hcount) (Nat.le_of_eq hsum) (fun i j _ _ _ _ _ _ heq => ?_) fun i t ht _ =>
    ⟨t, hfrom i t ht, rfl, Nat.le_refl _⟩) (fun i t ht => h.lengths (hfrom i t ht)) fun t ht => ?_
  · grind
  · rw [getLast?_eq_getElem?, hget] at ht
    split at ht
    · cases ht
      exact hsused
    · split at ht
      · cases ht
        exact hrused
      · refine h.last t ?_
        rw [getLast?_eq_getElem?]
        have hlength : page'.dpgRpt.length = page.dpgRpt.length := hcount
        rwa [hlength] at ht

theorem setLine_putLine (page : DataPage) (slot : Nat) (a b : DpgRepeat) :
    (page.putLine slot a).dpgRpt.set slot b = (page.putLine slot b).dpgRpt := by
  unfold DataPage.putLine DataPage.dpgCount
  split
  · rename_i heq
    rw [heq, set_append_right _ _ (Nat.le_refl _), Nat.sub_self]
    rfl
  · exact set_set ..

theorem dpgRpt_putLine (page : DataPage) (slot : Nat) (index : DpgRepeat) : (page.putLine slot index).dpgRpt =
    if slot = page.dpgRpt.length then page.dpgRpt ++ [index] else page.dpgRpt.set slot index := by
  unfold DataPage.putLine DataPage.dpgCount
  split <;> rfl

/-- The new version takes the line, the old one goes to the slot. -/
structure Chained (page page' : DataPage) (line slot : Nat) (content : Bytes) : Prop where
  free : page.record slot = none
  self : page'.record line = some content
  others : ∀ i, i ≠ line → i ≠ slot → page'.record i = page.record i

theorem dpmChain_spec (record : NewRecord) (h : Layout dbb page) (hr : page.dpgRpt[line]? = some index)
    (hused : index.dpgOffset ≠ 0) :
    ∃ page' slot, page.dpmChain dbb line record = .ok (page', slot) ∧ Layout dbb page' ∧
      match slot with
      | none => page' = page
      | some slot => Chained page page' line slot record.content := by
  have hcount := h.count_le
  have hbounds := dbb.bounds
  have hmin := rhdfSize_le_content record
  obtain ⟨slot, space, hscan, hspace, hfree, hslot⟩ := @chainScan_spec page.dpgRpt page.dpgCount 0 dbb.pageSize
    page.dpgCount
    (dbb.pageSize - (24 + 4 * page.dpgCount)) (fun k r hr => h.lengths hr) (by omega) (by omega)
  unfold DataPage.dpmChain
  split
  · exact ⟨page, none, rfl, h, rfl⟩
  rw [ushort_eq (n := 24 + 4 * page.dpgCount) (by rw [highWater_eq]; omega) (by omega), ok_bind,
    sshort_eq (n := dbb.pageSize - (24 + 4 * page.dpgCount)) (by omega) (by omega), ok_bind, hscan, ok_bind]
  dsimp only
  obtain ⟨grown, hgrown⟩ : ∃ grown, (if slot = page.dpgCount then 1 else 0) = grown := ⟨_, rfl⟩
  have hnew : slot ≤ page.dpgCount ∧
      page.dpgCount + grown = (if slot = page.dpgCount then page.dpgCount + 1 else page.dpgCount) ∧
      page.record slot = none ∧ slot ≠ line ∧ grown ≤ 1 := by
    have hlt : line < page.dpgCount := (List.getElem?_eq_some_iff.mp hr).1
    by_cases heq : slot = page.dpgCount
    · rw [if_pos heq] at hgrown ⊢
      exact ⟨by omega, by omega, record_of_count_le (by omega), by omega, by omega⟩
    · rw [if_neg heq] at hgrown ⊢
      obtain ⟨k, rfl, r, hr', hunused⟩ := hslot.resolve_left heq
      rw [Nat.zero_add] at *
      have hlt : k < page.dpgCount := (List.getElem?_eq_some_iff.mp hr').1
      refine ⟨by omega, by omega, record_eq_none fun r' hr'' => ?_, fun heq => ?_, by omega⟩
      · cases hr'.symm.trans hr''
        exact hunused
      · subst heq
        cases hr.symm.trans hr'
        exact hused hunused
  obtain ⟨hle, hsegments, hnone, hne, hgrownle⟩ := hnew
  have hfour : sizeofDpgRepeat = 4 := rfl
  rw [hgrown, hfour, ushort_natCast (by omega), ok_bind, sshort_ok (by omega) (by omega), ok_bind]
  split
  · exact ⟨page, none, rfl, h, rfl⟩
  obtain ⟨page₂, space₂, hroom, hmoved, hbelow, hspace₂, hend⟩ := @makeRoom_spec dbb page space
    (24 + 4 * page.dpgCount + 4 * grown) (roundUp record.content.length) h.toPacked hfree hspace (by omega)
  rw [hroom, ok_bind]
  rw [fbAssert_ok (by omega), ok_bind,
    ushort_eq (n := space₂ - roundUp record.content.length) (by omega) (by omega),
    ok_bind, fbAssert_ok (by omega), ok_bind]
  have hcount₂ := hmoved.count
  have hlt₂ : line < page₂.dpgRpt.length := Nat.lt_of_lt_of_eq (List.getElem?_eq_some_iff.mp hr).1 hcount₂.symm
  obtain ⟨index₂, hr₂⟩ : ∃ index₂, page₂.dpgRpt[line]? = some index₂ := ⟨_, getElem?_eq_getElem hlt₂⟩
  rw [line_eq hr₂, ok_bind]
  have hused₂ : index₂.dpgOffset ≠ 0 := by
    obtain ⟨r', hr', -, hiff⟩ := hmoved.lines line index₂ hr₂
    cases hr.symm.trans hr'
    exact fun he => hused (hiff.mp he)
  have hle₂ : slot ≤ page₂.dpgCount := hcount₂ ▸ hle
  have hbutle := inUseBut_le page₂ slot
  rw [hmoved.inUse_eq] at hbutle
  have hlayout := layout_putLine slot (space₂ - roundUp record.content.length) record.content.length hmoved.packed
    (hmoved.linesBut (h.linesBut slot)) hle₂ (hbelow.mono (by omega)) (by omega) (by rw [hcount₂]; omega)
    (by rw [hcount₂]; omega) hmin
  have hnewLine := getElem?_putLine hle₂ { dpgOffset := space₂ - roundUp record.content.length, dpgLength :=
    record.content.length }
  have hoff : space₂ - roundUp record.content.length ≠ 0 := by omega
  generalize hflags : page₂.rhdFlags index₂.dpgOffset ||| rhdChain = flags
  have hputLine : ((page₂.setRhdFlags index₂.dpgOffset flags).putLine slot index₂).dpgRpt = (page₂.putLine
      slot index₂).dpgRpt := by
    rw [dpgRpt_putLine, dpgRpt_putLine]
    rfl
  have hline : ∀ i, (((page₂.setRhdFlags index₂.dpgOffset flags).putLine slot index₂).dpgRpt.set line
      { dpgOffset := space₂ - roundUp record.content.length, dpgLength := record.content.length })[i]? =
      if i = line then some { dpgOffset := space₂ - roundUp record.content.length, dpgLength := record.content.length }
      else if i = slot then some index₂ else page₂.dpgRpt[i]? := by
    intro i
    have hlt : line < (page₂.putLine slot index₂).dpgRpt.length := by
      have := dpgCount_putLine page₂ slot index₂
      unfold DataPage.dpgCount at this
      split at this <;> omega
    rw [hputLine, getElem?_set, if_pos hlt, getElem?_putLine hle₂]
    simp only [eq_comm (a := line)]
  refine ⟨_, some slot, rfl, ?_, hnone, ?_, fun i hi hi' => ?_⟩
  · refine hlayout.swap ((hnewLine line).trans ((if_neg (Ne.symm hne)).trans hr₂))
      ((hnewLine slot).trans (if_pos rfl)) (Ne.symm hne)
      hused₂ hoff ?_
    rw [setLine_putLine, ← hputLine]
    rfl
  · exact record_write_self (r := { dpgOffset := space₂ - roundUp record.content.length, dpgLength :=
      record.content.length })
      ((hline line).trans (if_pos rfl)) hoff rfl
  · refine (record_of_line ((hline i).trans ((if_neg hi).trans (if_neg hi'))) fun r hr' hrused k hk => ?_).trans
      (hmoved.record i)
    have hfree' := hbelow i r hr' hrused
    have hround := le_roundUp record.content.length
    have hmin₂ := hmoved.layout h |>.minimum line index₂ hr₂ hused₂
    have hdisjoint := hmoved.packed.disjoint i line r index₂ hr' hr₂ hi hrused hused₂
    have := le_roundUp r.dpgLength
    have := le_roundUp index₂.dpgLength
    unfold DpgRepeat.stop at hdisjoint
    rw [bytes_write_of_not_mem (by omega)]
    show ((page₂.setRhdFlags index₂.dpgOffset flags).putLine slot index₂).bytes _ = _
    rw [bytes_putLine]
    exact (BytesKept.refl page₂ index₂.dpgOffset (index₂.dpgOffset + rhdfSize)).setRhdFlags flags _ (by omega)

/-! ### Giving lines up -/

def DpgRepeat.empty : DpgRepeat := { dpgOffset := 0, dpgLength := 0 }

theorem backoutLast_spec (hn : 0 < n) : ∃ last, DataPage.backoutLast lines n = .ok last ∧ last < n ∧
    (last = 0 ∨ ∀ r, lines[last]? = some r → r.dpgLength ≠ 0) ∧
    ∀ (i : Nat) (r : DpgRepeat), last < i → i < n → lines[i]? = some r → r.dpgLength = 0 := by
  induction n with
  | zero => omega
  | succ n ih =>
    cases n with
    | zero => exact ⟨0, rfl, Nat.zero_lt_one, .inl rfl, fun i r hi hi' => by omega⟩
    | succ n =>
      rw [DataPage.backoutLast]
      by_cases hused : (lines[n + 1]?.map (·.dpgLength)).getD 0 = 0
      · rw [if_neg (not_not.mpr hused)]
        obtain ⟨last, hlast, hlt, hend, hunused⟩ := ih (Nat.succ_pos _)
        refine ⟨last, hlast, by omega, hend, fun i r hi hi' hr => ?_⟩
        by_cases hin : i = n + 1
        · subst hin
          rw [hr] at hused
          exact hused
        · exact hunused i r hi (by omega) hr
      · rw [if_pos hused]
        refine ⟨n + 1, rfl, Nat.lt_succ_self _, .inr fun r hr => ?_, fun i r hi hi' => by omega⟩
        rw [hr] at hused
        exact hused

theorem deleteCount_spec (lines : List DpgRepeat) (n : Nat) : DataPage.deleteCount lines n ≤ n ∧
    (∀ r : DpgRepeat, 0 < DataPage.deleteCount lines n → lines[DataPage.deleteCount lines n - 1]? = some r →
      r.dpgOffset ≠ 0) ∧
    ∀ (i : Nat) (r : DpgRepeat), DataPage.deleteCount lines n ≤ i → i < n → lines[i]? = some r → r.dpgOffset = 0 := by
  induction n with
  | zero => exact ⟨Nat.le_refl _, fun r h => absurd h (Nat.lt_irrefl _), fun i r _ hi => by omega⟩
  | succ n ih =>
    rw [DataPage.deleteCount]
    split
    · rename_i hused
      refine ⟨Nat.le_refl _, fun r _ hr => ?_, fun i r hi hi' => by omega⟩
      rw [Nat.add_sub_cancel] at hr
      rw [hr] at hused
      exact hused
    · rename_i hused
      rw [not_not] at hused
      obtain ⟨hle, hend, hunused⟩ := ih
      refine ⟨by omega, hend, fun i r hi hi' hr => ?_⟩
      by_cases hin : i = n
      · subst hin
        rw [hr] at hused
        exact hused
      · exact hunused i r hi (by omega) hr

theorem extent_empty : DpgRepeat.empty.extent = 0 := extent_of_unused rfl

theorem Packed.cut (h : Packed dbb page) (hlengths : ∀ (i : Nat) (r : DpgRepeat), page.dpgRpt[i]? = some r → r.Sized)
    (hunused : ∀ (i : Nat) (r : DpgRepeat), n ≤ i → page.dpgRpt[i]? = some r → r.dpgOffset = 0)
    (hlast : ∀ r : DpgRepeat, 0 < n → page.dpgRpt[n - 1]? = some r → r.dpgOffset ≠ 0) (hn : n ≤ page.dpgCount) :
    Layout dbb { page with dpgRpt := page.dpgRpt.take n } ∧
      ∀ i, DataPage.record { page with dpgRpt := page.dpgRpt.take n } i = page.record i := by
  have hfrom : ∀ (i : Nat) (r : DpgRepeat), (page.dpgRpt.take n)[i]? = some r → page.dpgRpt[i]? = some r := by
    intro i r hr
    rw [getElem?_take] at hr
    split at hr
    · exact hr
    · cases hr
  have hlength : (page.dpgRpt.take n).length = n := by
    rw [length_take]
    exact Nat.min_eq_left hn
  refine ⟨layout_of_lengths (h.reindex id ?_ (Nat.le_of_eq (inUse_take hunused)) (fun _ _ _ _ _ _ _ _ heq => heq)
    fun i r hr _ => ⟨r, hfrom i r hr, rfl, Nat.le_refl _⟩) (fun i r hr => hlengths i r (hfrom i r hr)) fun r hr => ?_,
    fun i => ?_⟩
  · show (page.dpgRpt.take n).length ≤ page.dpgCount
    rwa [hlength]
  · rw [getLast?_eq_getElem?, hlength] at hr
    have hpos : 0 < n := by
      have hlt : n - 1 < (page.dpgRpt.take n).length := (List.getElem?_eq_some_iff.mp hr).1
      omega
    exact hlast r hpos (hfrom _ r hr)
  · by_cases hi : i < n
    · exact record_of_line (by rw [List.getElem?_take, if_pos hi]) fun _ _ _ _ _ => rfl
    · refine record_eq_of_unused (fun r hr => hunused i r (by omega) hr) fun r hr => ?_
      exact absurd (List.getElem?_eq_some_iff.mp hr).1 (by dsimp only; omega)

theorem dpmBackout_spec (h : Layout dbb page) (hr : page.dpgRpt[line]? = some r) (hs : page.dpgRpt[bLine]? = some s)
    (hne : line ≠ bLine) (hsused : s.dpgOffset ≠ 0) :
    ∃ page', page.dpmBackout line bLine = .ok page' ∧ Layout dbb page' ∧
      ∀ i, i ≠ line → i ≠ bLine → page'.record i = page.record i := by
  have hline : line < page.dpgRpt.length := (List.getElem?_eq_some_iff.mp hr).1
  have hbLine : bLine < page.dpgRpt.length := (List.getElem?_eq_some_iff.mp hs).1
  unfold DataPage.dpmBackout
  rw [line_eq hr, ok_bind, line_eq hs, ok_bind]
  generalize hflagged : ((page.setLine line s).setLine bLine { dpgOffset := 0, dpgLength := 0 }).setRhdFlags s.dpgOffset
    (((page.setLine line s).setLine bLine { dpgOffset := 0, dpgLength := 0 }).rhdFlags s.dpgOffset &&&
      (65535 - (rhdChain ||| rhdGcActive))) = flagged
  have hlines : flagged.dpgRpt = (page.dpgRpt.set line s).set bLine .empty := by
    rw [← hflagged]
    rfl
  have hbytes : BytesKept page flagged s.dpgOffset (s.dpgOffset + rhdfSize) := by
    rw [← hflagged]
    exact (((BytesKept.refl page _ _).setLine line s).setLine bLine { dpgOffset := 0, dpgLength := 0 }).setRhdFlags _
  have hcount : flagged.dpgCount = page.dpgCount := by
    unfold DataPage.dpgCount
    rw [hlines, length_set, length_set]
  have hget : ∀ i, flagged.dpgRpt[i]? = if i = bLine then some .empty else if i = line then some
      s else page.dpgRpt[i]? := by
    intro i
    rw [hlines, getElem?_set, getElem?_set, length_set, if_pos hline, if_pos hbLine]
    simp only [eq_comm (a := line), eq_comm (a := bLine)]
  have hsum : inUse flagged.dpgRpt ≤ inUse page.dpgRpt := by
    have h₁ := inUse_set hr s
    have hs' : (page.dpgRpt.set line s)[bLine]? = some s := by rw [getElem?_set_ne hne, hs]
    have h₂ := inUse_set hs' .empty
    rw [hlines]
    rw [extent_empty] at h₂
    omega
  have hfrom : ∀ (i : Nat) (t : DpgRepeat), flagged.dpgRpt[i]? = some t → t.dpgOffset ≠ 0 →
      i ≠ bLine ∧ page.dpgRpt[if i = line then bLine else i]? = some t := by
    intro i t ht hused
    rw [hget] at ht
    split at ht
    · cases ht
      exact absurd rfl hused
    · rename_i hi
      refine ⟨hi, ?_⟩
      split
      · rename_i hi'
        rw [if_pos hi'] at ht
        exact hs.trans ht
      · rename_i hi'
        rwa [if_neg hi'] at ht
  have hpacked : Packed dbb flagged := by
    refine h.toPacked.reindex (fun i => if i = line then bLine else i) (Nat.le_of_eq hcount) hsum
      (fun i j t u ht hu htused huused heq => ?_)
      fun i t ht hused => ⟨t, (hfrom i t ht hused).2, rfl, Nat.le_refl _⟩
    grind
  have hlengths : ∀ (i : Nat) (t : DpgRepeat), flagged.dpgRpt[i]? = some t → t.Sized := by
    intro i t ht
    rw [hget] at ht
    split at ht
    · cases ht
      exact .inl ⟨rfl, rfl⟩
    · split at ht
      · cases ht
        exact h.lengths hs
      · exact h.lengths ht
  have hzero : ∀ (i : Nat) (t : DpgRepeat), flagged.dpgRpt[i]? = some t → (t.dpgLength = 0 ↔ t.dpgOffset = 0) := by
    intro i t ht
    rcases hlengths i t ht with ⟨hoff, hlen⟩ | ⟨hoff, hlen⟩
    · exact ⟨fun _ => hoff, fun _ => hlen⟩
    · unfold rhdfSize at hlen
      exact ⟨fun he => by omega, fun he => absurd he hoff⟩
  obtain ⟨last, hlast, hlt, hend, hunused⟩ := @backoutLast_spec flagged.dpgRpt flagged.dpgCount
    (by rw [hcount]; unfold DataPage.dpgCount; omega)
  -- the line that is brought forward is in use
  have hlineLe : line ≤ last := by
    by_contra hgt
    have hs' : flagged.dpgRpt[line]? = some s := by rw [hget, if_neg hne, if_pos rfl]
    have := hunused line s (by omega) (by rw [hcount]; exact hline) hs'
    exact hsused ((hzero line s hs').mp this)
  obtain ⟨hlayout, hrecord⟩ := hpacked.cut (n := last + 1) hlengths
    (fun i t hi ht => by
      have hilt : i < flagged.dpgCount := (List.getElem?_eq_some_iff.mp ht).1
      exact (hzero i t ht).mp (hunused i t (by omega) hilt ht))
    (fun t _ ht => by
      rcases hend with rfl | hend
      · rw [hget, if_neg (by omega), if_pos (by omega)] at ht
        cases ht
        exact hsused
      · exact fun he => hend t ht ((hzero last t ht).mpr he))
    (by omega)
  dsimp only
  rw [hflagged, hlast]
  refine ⟨_, rfl, hlayout, fun i hi hi' => (hrecord i).trans (hbytes.record ?_ fun t ht htused => ?_)⟩
  · rw [hget, if_neg hi', if_neg hi]
  · have hmin := h.minimum bLine s hs hsused
    have := le_roundUp t.dpgLength
    have := le_roundUp s.dpgLength
    have hdisjoint := h.disjoint i bLine t s ht hs hi' htused hsused
    unfold DpgRepeat.stop at hdisjoint
    omega

theorem dpmDelete_spec (h : Layout dbb page) (hr : page.dpgRpt[line]? = some r) :
    ∃ page', page.dpmDelete dbb line = .ok page' ∧ Layout dbb page' ∧ page'.record line = none ∧
      ∀ i, i ≠ line → page'.record i = page.record i := by
  have hline : line < page.dpgRpt.length := (List.getElem?_eq_some_iff.mp hr).1
  unfold DataPage.dpmDelete
  rw [line_eq hr]
  have hget : ∀ i, (page.setLine line .empty).dpgRpt[i]? = if i = line then some .empty else page.dpgRpt[i]? := by
    intro i
    rw [← putLine_of_lt hline]
    exact getElem?_putLine (Nat.le_of_lt hline) .empty i
  have hcount : (page.setLine line .empty).dpgCount = page.dpgCount := length_set
  have hsum : inUse (page.setLine line .empty).dpgRpt ≤ inUse page.dpgRpt := by
    have hset := inUse_set hr .empty
    rw [extent_empty] at hset
    show inUse (page.dpgRpt.set line .empty) ≤ _
    omega
  have hpacked : Packed dbb (page.setLine line .empty) := by
    refine h.toPacked.reindex id (Nat.le_of_eq hcount) hsum (fun _ _ _ _ _ _ _ _ heq => heq) fun i t ht hused => ?_
    rw [hget] at ht
    split at ht
    · cases ht
      exact absurd rfl hused
    · exact ⟨t, ht, rfl, Nat.le_refl _⟩
  have hlengths : ∀ (i : Nat) (t : DpgRepeat), (page.setLine line .empty).dpgRpt[i]? = some t → t.Sized := by
    intro i t ht
    rw [hget] at ht
    split at ht
    · cases ht
      exact .inl ⟨rfl, rfl⟩
    · exact h.lengths ht
  obtain ⟨hle, hend, hunused⟩ := deleteCount_spec (page.setLine line .empty).dpgRpt (page.setLine line .empty).dpgCount
  obtain ⟨hlayout, hrecord⟩ := hpacked.cut hlengths
    (fun i t hi ht => hunused i t hi (List.getElem?_eq_some_iff.mp ht).1 ht) (fun t hpos ht => hend t hpos ht) hle
  refine ⟨_, rfl, hlayout.congr rfl, ?_, fun i hi => ?_⟩
  · refine (record_congr rfl rfl line).trans ((hrecord line).trans (record_eq_none fun t ht => ?_))
    rw [hget, if_pos rfl] at ht
    cases ht
    rfl
  · refine (record_congr rfl rfl i).trans ((hrecord i).trans (record_of_line ?_ fun _ _ _ _ _ => rfl))
    rw [hget, if_neg hi]

end Firebird.Dpm
