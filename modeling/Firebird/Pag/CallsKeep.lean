import Firebird.Pag.AllocateKeeps

/-! # Calls keep the page inventory -/

namespace Firebird.Pag
open List

variable {mgr : PageManager} {request : Request} {sequence : Nat} {pip pip' : PageInvPage} {start space : PageSpace}
  {held ever : List Nat} {lo pos : Nat} {s : Search} {disk : Disk}

/-- A bit that is cleared belongs to a page taken or to an inventory page. -/
def OnlyTakes (mgr : PageManager) (taken : List Nat) (start space : PageSpace) : Prop :=
  ∀ (k : Nat) (pip : PageInvPage), space.pips[k]? = some pip → ∀ i, i < mgr.pagesPerPIP → pip.pipBits i = false →
    (∃ old, start.pips[k]? = some old ∧ old.pipBits i = false) ∨ i + k * mgr.pagesPerPIP ∈ taken ∨
      IsInventory mgr (i + k * mgr.pagesPerPIP)

theorem OnlyTakes.of_pips {taken : List Nat} (h : space.pips = start.pips) : OnlyTakes mgr taken start space :=
  fun _ pip hpip _ _ hbusy => .inl ⟨pip, h ▸ hpip, hbusy⟩

theorem OnlyTakes.trans {taken : List Nat} {mid : PageSpace} (h₁ : OnlyTakes mgr [] start mid)
    (h₂ : OnlyTakes mgr taken mid space) : OnlyTakes mgr taken start space := by
  intro k pip hpip i hi hbusy
  rcases h₂ k pip hpip i hi hbusy with ⟨old, hold, hbit⟩ | htaken
  · rcases h₁ k old hold i hi hbit with hstart | hnil | hown
    · exact .inl hstart
    · exact absurd hnil not_mem_nil
    · exact .inr (.inr hown)
  · exact .inr htaken

theorem isInventory_of_isOwn (hroom : (sequence + 1) * mgr.pagesPerPIP ≤ ulongSize) {i : Nat} (hi : i < mgr.pagesPerPIP)
    (hown : isOwn mgr sequence i = true) : IsInventory mgr (i + sequence * mgr.pagesPerPIP) := by
  rcases isOwn_iff.mp hown with hnew | hlast
  · rw [mgr.pageOf_eq hi hroom] at hnew
    simp only [isNewSCN, Bool.and_eq_true, Bool.not_eq_true', beq_iff_eq] at hnew
    exact .inr (.inr (.inr ⟨hnew.1, .inr hnew.2⟩))
  · refine .inr (.inr (.inl ?_))
    rw [mgr.page_mod hi]
    exact hlast

/-- The condition on one inventory page is enough. -/
theorem Stepped.onlyTakes (h : Stepped mgr sequence pip pip' start space) (hinv : start.Inv mgr held ever)
    (hpip : start.pips[sequence]? = some pip) {taken : List Nat}
    (htakes : ∀ i, i < mgr.pagesPerPIP → pip'.pipBits i = false → pip.pipBits i = false ∨
      i + sequence * mgr.pagesPerPIP ∈ taken ∨ IsInventory mgr (i + sequence * mgr.pagesPerPIP)) :
    OnlyTakes mgr taken start space := by
  intro k q hq i hi hbusy
  rcases h.cases_of hinv hpip hq with ⟨rfl, rfl⟩ | ⟨-, -, rfl⟩ | ⟨-, -, hold⟩
  · rcases htakes i hi hbusy with hbit | htaken
    · exact .inl ⟨pip, hpip, hbit⟩
    · exact .inr htaken
  · cases hbusy
  · exact .inl ⟨q, hold, hbusy⟩

/-- Pages passed over on the way are inventory pages. -/
theorem Searched.extra_own (hs : Searching mgr request sequence pip lo)
    (h : Searched mgr request sequence pip start lo pos s)
    (hpos : pos ≤ mgr.pagesPerPIP) {i : Nat} (hextra : i ∈ s.extraPages) :
    IsInventory mgr (i + sequence * mgr.pagesPerPIP) := by
  obtain ⟨-, hlt, -, hown⟩ := (h.own i).mp hextra
  exact isInventory_of_isOwn hs.room (by omega) hown

/-- The search has found all pages: they are free, and the inventory fits once they are taken. -/
theorem allocated_found (hs : Searching mgr request sequence pip (searchStart request pip))
    (hinv : start.Inv mgr held ever) (hpip : start.pips[sequence]? = some pip)
    (h : Searched mgr request sequence pip start (searchStart request pip) pos s) (hpos : pos ≤ mgr.pagesPerPIP)
    (hdone : s.toAlloc = 0) {pipUsed : Nat} (hle : s.pipUsed ≤ pipUsed) (hused : pipUsed ≤ mgr.pagesPerPIP)
    (hcovered : disk.Covered mgr → s.space.disk.Covered mgr ∧
      (s.lastBit + 1 - s.pipUsed < ushortSize → s.lastBit < pipUsed)) :
    (leavePip mgr sequence s (takeFound mgr request sequence pip s) pipUsed disk).Inv mgr held ever ∧
      Allocated mgr request held (mgr.pageOf sequence s.firstBit)
        (leavePip mgr sequence s (takeFound mgr request sequence pip s) pipUsed disk) ∧
      OnlyTakes mgr (range' (mgr.pageOf sequence s.firstBit) request.cntAlloc) start
        (leavePip mgr sequence s (takeFound mgr request sequence pip s) pipUsed disk) ∧
      (leavePip mgr sequence s (takeFound mgr request sequence pip s) pipUsed
        disk).pips.length = start.pips.length := by
  have hmarked := hinv.marked sequence pip hpip
  have hcnt := hs.cnt_pos
  obtain ⟨hlast, hfirst, -, hfits, haligned⟩ := h.run (by omega)
  obtain ⟨hstepped, hlt⟩ := found_stepped hs hmarked h hpos hdone hused hle hcovered
  obtain ⟨-, hself, -⟩ := hstepped.getElem? hinv hpip
  have hstart : disk.Covered mgr → start.disk.Covered mgr := fun hdisk => (h.covered (hcovered hdisk).1).1
  have hlength : (leavePip mgr sequence s (takeFound mgr request sequence pip s) pipUsed disk).pips.length =
      start.pips.length := by
    -- the bit of the next inventory page lies behind the last page found
    have hextra : mgr.pagesPerPIP - 1 ∉ s.extraPages := fun hmem => by
      obtain ⟨-, hbelow, -, hown⟩ := (h.own _).mp hmem
      rw [(hfits _ (by omega) hbelow).2] at hown
      cases hown
    simp [leavePip, PageSpace.setPip, h.pips, if_neg hextra]
  refine ⟨hstepped.inv hinv hpip, ?_, hstepped.onlyTakes hinv hpip fun i hi hbusy => ?_, hlength⟩
  case refine_2 =>
    by_cases hextra : i ∈ s.extraPages
    · exact .inr (.inr (h.extra_own hs hpos hextra))
    rcases takeFound_busy mgr request sequence pip s (found_busy hbusy hextra) with hbit | hfound
    · exact .inl hbit
    · refine .inr (.inl (mem_range'_1.mpr ?_))
      rw [mgr.pageOf_eq (by omega) hs.room]
      omega
  rw [mgr.pageOf_eq (by omega) hs.room]
  have hpage : ∀ i, s.firstBit + sequence * mgr.pagesPerPIP + i = s.firstBit + i + sequence * mgr.pagesPerPIP :=
    fun i => by omega
  exact {
    fresh := fun i hi => by
      rw [hpage]
      exact (Fit.ordinary hinv hpip hs.room (by omega) (hfits _ (by omega) (by omega))).2
    ordinary := fun i hi => by
      rw [hpage]
      exact (Fit.ordinary hinv hpip hs.room (by omega) (hfits _ (by omega) (by omega))).1
    aligned := fun hreq => by
      have := haligned hreq
      rwa [mgr.pageOf_eq (by omega) hs.room] at this
    taken := fun i hi => by
      rw [hpage, mgr.page_div (by omega), mgr.page_mod (by omega)]
      refine ⟨_, hself, ?_, fun hdisk => ?_⟩
      · by_contra hfree
        obtain ⟨hfree, -⟩ := (writePip_pipBits ..).mp (Bool.not_eq_false _ ▸ hfree)
        exact ((takeFound_pipBits ..).mp hfree).2 ⟨by omega, by omega⟩
      · rw [writePip_pipUsed]
        have := hlt hdisk (hinv.used (hstart hdisk) sequence pip hpip)
        omega }

/-- The last bit of an inventory page is taken only when the next inventory page is there. -/
theorem next_pip (hinv : start.Inv mgr held ever) (hpip : start.pips[sequence]? = some pip)
    (h : Stepped mgr sequence pip pip' start space) (hlast : pip'.pipBits (mgr.pagesPerPIP - 1) = false) :
    sequence + 1 < space.pips.length ∧
      (start.pips.length ≤ sequence + 1 → space.pips[sequence + 1]? = some newPip) ∧
      (space.pips.length = start.pips.length ∨ space.pips.length = sequence + 2 ∧
        start.pips.length = sequence + 1) := by
  obtain ⟨hlen, -, -⟩ := h.getElem? hinv hpip
  have hlinked := (h.linked hinv hpip).mp hlast
  rcases hlen with ⟨hlen, -⟩ | ⟨hlen, hlen', -, hnew⟩
  · exact ⟨hlinked, fun hle => by omega, .inl hlen.symm⟩
  · exact ⟨hlinked, fun _ => hnew, .inr ⟨hlen', hlen⟩⟩

/-- Where no aligned page is free here, the first one is further on. -/
theorem PageSpace.AlignedFirst.next (hfirst : start.AlignedFirst mgr sequence) (hinv : start.Inv mgr held ever)
    (hroom : (sequence + 2) * mgr.pagesPerPIP ≤ ulongSize)
    (hpip : start.pips[sequence]? = some pip) (h : Stepped mgr sequence pip pip' start space)
    (hnone : ∀ i, i < mgr.pagesPerPIP → Fit mgr sequence pip i → mgr.pageOf sequence i % pagesInExtent ≠ 0) :
    space.AlignedFirst mgr (sequence + 1) := by
  have hbounds := mgr.pagesPerPIP_bounds
  intro k q hk hq hfit
  rcases h.cases_of hinv hpip hq with ⟨rfl, -⟩ | ⟨-, rfl, rfl⟩ | ⟨hne, hlt, hold⟩
  · omega
  · refine ⟨sequence + 1, newPip, Nat.le_refl _, Nat.le_refl _, hq, 8, by omega,
      fit_newPip hroom (Nat.le_refl _) (by omega), ?_⟩
    rw [mgr.pageOf_eq (by omega) hroom, mgr.pagesPerPIP_eq, ← Nat.mul_assoc]
    unfold pagesInExtent
    omega
  · obtain ⟨j, r, hj, hjk, hr, i, hi, hifit, haligned⟩ := hfirst k q (by omega) hold hfit
    have hjne : j ≠ sequence := fun heq => by
      subst heq
      rw [hpip] at hr
      cases hr
      exact hnone i hi hifit haligned
    obtain ⟨-, -, hothers⟩ := h.getElem? hinv hpip
    exact ⟨j, r, by omega, hjk, (hothers j (by omega) hjne).trans hr, i, hi, hifit, haligned⟩

/-- By induction on the fuel, one inventory page after the other. -/
theorem allocateFrom_spec (hcnt : 0 < request.cntAlloc) (hcntle : request.cntAlloc ≤ pagesInExtent) {pips fuel : Nat}
    (hroom : (pips + 1) * mgr.pagesPerPIP ≤ ulongSize) (hinv : start.Inv mgr held ever)
    (hseq : sequence < start.pips.length) (hle : sequence ≤ pips) (hlen : pips ≤ start.pips.length)
    (hfuel : pips < sequence + fuel) (hnew : pips ≤ sequence → start.pips[sequence]? = some newPip)
    (hgrown : pips < start.pips.length → start.pips.length = pips + 1 ∧ sequence = pips)
    (hfirst : request.cntAlloc = 1 → request.aligned = true → start.AlignedFirst mgr sequence) {answer : Answer}
    (h : allocateFrom mgr request fuel sequence start = (space, answer)) :
    space.Inv mgr held ever ∧ start.pips.length ≤ space.pips.length ∧
      (answer = .raised ∧ OnlyTakes mgr [] start space ∨ ∃ first, answer = .page first ∧
        Allocated mgr request held first space ∧ OnlyTakes mgr (range' first request.cntAlloc) start space) := by
  induction fuel generalizing sequence start with
  | zero => omega
  | succ fuel ih =>
    have hpip : start.pips[sequence]? = some start.pips[sequence] := getElem?_eq_getElem hseq
    generalize start.pips[sequence] = pip at hpip
    have hmarked := hinv.marked sequence pip hpip
    have hroom' : (sequence + 1) * mgr.pagesPerPIP ≤ ulongSize :=
      Nat.le_trans (Nat.mul_le_mul_right _ (by omega)) hroom
    have hs := Searching.of_marked hcnt hcntle hroom' hmarked
    rw [allocateFrom, hpip] at h
    dsimp only at h
    cases hsearch : searchPip mgr request sequence pip start with
    | mk s raised =>
      rw [hsearch] at h
      dsimp only at h
      rcases searchPip_spec hs hmarked hsearch with ⟨rfl, hraised⟩ | ⟨rfl, pos, hpos, hsearched, hdone⟩
      · cases h
        exact ⟨hinv.raised hraised, Nat.le_of_eq (congrArg length hraised.pips).symm, .inl ⟨rfl, .of_pips hraised.pips⟩⟩
      rw [if_neg Bool.false_ne_true] at h
      rcases hdone with hdone | ⟨hleft, rfl⟩
      · -- pages were found
        rw [if_pos hdone] at h
        obtain ⟨hlast, hbegin, -, hfits, -⟩ := hsearched.run (by omega)
        split at h
        case h_1 disk hdisk =>
          cases h
          have hextra : mgr.pagesPerPIP - 1 ∉ s.extraPages := fun hmem => by
            obtain ⟨hlo, hlt, -, hown⟩ := (hsearched.own _).mp hmem
            rw [(hfits _ (by omega) hlt).2] at hown
            cases hown
          have hraised : Raised mgr start { s with space := { s.space with disk := disk } } := by
            refine ⟨?_, hsearched.highWater, hsearched.withExtent, fun hcovered => ?_⟩
            · exact hsearched.pips.trans (if_neg hextra)
            · split at hdisk
              · exact (hsearched.covered (ensureDiskSpace_raised hdisk hcovered)).1
              · cases hdisk
          exact ⟨hinv.raised hraised, Nat.le_of_eq (congrArg length hraised.pips).symm,
            .inl ⟨rfl, .of_pips hraised.pips⟩⟩
        case h_2 pipUsed disk hdisk =>
          cases h
          have hbit : s.lastBit < mgr.pagesPerPIP := by omega
          have hspace : s.pipUsed ≤ pipUsed ∧ pipUsed ≤ mgr.pagesPerPIP ∧ (disk.Covered mgr → s.space.disk.Covered mgr ∧
              (s.lastBit + 1 - s.pipUsed < ushortSize → s.lastBit < pipUsed)) := by
            split at hdisk
            · rw [mgr.pageOf_eq hbit hroom'] at hdisk
              exact ensureDiskSpace_spec hbit hsearched.used_le.2 hdisk
            · cases hdisk
              exact ⟨Nat.le_refl _, hsearched.used_le.2, fun hcovered => ⟨hcovered, fun _ => by omega⟩⟩
          obtain ⟨hinv', hallocated, htakes, hlength⟩ :=
            allocated_found hs hinv hpip hsearched hpos hdone hspace.1 hspace.2.1 hspace.2.2
          exact ⟨hinv', Nat.le_of_eq hlength.symm, .inr ⟨_, rfl, hallocated, htakes⟩⟩
      · -- the next inventory page is searched
        rw [if_neg hleft] at h
        have hlt : sequence < pips := by
          by_contra hge
          have hpip' := hnew (by omega)
          rw [hpip] at hpip'
          cases hpip'
          exact hleft (search_newPip hroom' hsearched)
        have hnone : request.cntAlloc = 1 → ∀ i, i < mgr.pagesPerPIP → Fit mgr sequence pip i →
            request.aligned = true ∧ mgr.pageOf sequence i % pagesInExtent ≠ 0 := fun hone i hi hfit =>
          hsearched.single hleft hone i (searchStart_le_of_free hmarked (by unfold pagesInExtent; omega) hi hfit.1)
          hi hfit
        have hsingle : FitsSingle mgr request sequence pip := by
          intro hone haligned hfit
          obtain ⟨j, q, hj, hjk, hq, i, hi, hifit, hiodd⟩ := hfirst hone haligned sequence pip (Nat.le_refl _) hpip hfit
          obtain rfl : j = sequence := by omega
          rw [hpip] at hq
          cases hq
          exact ⟨i, hi, hifit, hiodd⟩
        have hstepped := notFound_stepped hmarked hsearched hleft hsingle
        have hlast := (marked_notFound hmarked hsearched hleft hsingle).2
        obtain ⟨hnext, hfresh, hlen'⟩ := next_pip hinv hpip hstepped hlast
        have htakes : OnlyTakes mgr [] start _ := hstepped.onlyTakes hinv hpip fun i hi hbusy => by
          by_cases hextra : i ∈ s.extraPages
          · exact .inr (.inr (hsearched.extra_own hs hpos hextra))
          · exact .inl (found_busy hbusy hextra)
        obtain ⟨hinv', hlength, hcase⟩ := ih (hstepped.inv hinv hpip) hnext (by omega) (by omega) (by omega)
          (fun hge => hfresh (by omega)) (fun hgt => by omega) (fun hone haligned => by
            have hroom2 : (sequence + 2) * mgr.pagesPerPIP ≤ ulongSize :=
              Nat.le_trans (Nat.mul_le_mul_right _ (by omega)) hroom
            exact (hfirst hone haligned).next hinv hroom2 hpip hstepped fun i hi hfit => (hnone hone i hi hfit).2) h
        refine ⟨hinv', Nat.le_trans (hstepped.length_le hinv hpip) hlength, ?_⟩
        rcases hcase with ⟨hraised, hlater⟩ | ⟨first, hpage, hallocated, hlater⟩
        · exact .inl ⟨hraised, htakes.trans hlater⟩
        · exact .inr ⟨first, hpage, hallocated, htakes.trans hlater⟩

/-! ### Release -/

@[simp] theorem lowerHints_pips (mgr : PageManager) (sequence : Nat) (space : PageSpace) :
    (lowerHints mgr sequence space).pips = space.pips := by
  unfold lowerHints
  split <;> rfl

theorem lowerHints_eq (hpip : start.pips[sequence]? = some pip) : lowerHints mgr sequence start =
    { start with
      pipHighWater := min start.pipHighWater sequence
      pipWithExtent :=
        if pip.pipExtent < mgr.pagesPerPIP then min start.pipWithExtent sequence else start.pipWithExtent } := by
  unfold lowerHints
  rw [hpip]

/-- The hints may be lowered for every page or once for all pages of an inventory page. -/
theorem lowerHints_idem (mgr : PageManager) (sequence : Nat) (space : PageSpace) :
    lowerHints mgr sequence (lowerHints mgr sequence space) = lowerHints mgr sequence space := by
  cases hpip : space.pips[sequence]? with
  | none => simp only [lowerHints, hpip]
  | some pip =>
    have hpip' : (lowerHints mgr sequence space).pips[sequence]? = some pip := by
      rw [lowerHints_pips]
      exact hpip
    rw [lowerHints_eq hpip', lowerHints_eq hpip]
    by_cases hlt : pip.pipExtent < mgr.pagesPerPIP <;> simp [hlt]

theorem releaseBit_pipExtent_le (bit : Nat) (pip : PageInvPage) : (releaseBit bit pip).pipExtent ≤ pip.pipExtent := by
  by_cases hfull : (pip.setBit bit).byteIsFull (bit / 8) = true
  · simp only [releaseBit, hfull, if_true]
    exact Nat.min_le_left ..
  · simp only [releaseBit, hfull]
    exact Nat.le_refl _

theorem lowerHints_setPip (hpip : start.pips[sequence]? = some pip) (hle : pip'.pipExtent ≤ pip.pipExtent) :
    lowerHints mgr sequence ((lowerHints mgr sequence start).setPip sequence pip') =
      lowerHints mgr sequence (start.setPip sequence pip') := by
  have hlt : sequence < start.pips.length := (List.getElem?_eq_some_iff.mp hpip).1
  have hself : (start.setPip sequence pip').pips[sequence]? = some pip' := getElem?_set_self hlt
  have hself' : ((lowerHints mgr sequence start).setPip sequence pip').pips[sequence]? = some pip' := by
    simp only [PageSpace.setPip, lowerHints_pips]
    exact getElem?_set_self hlt
  rw [lowerHints_eq hself, lowerHints_eq hself', lowerHints_eq hpip]
  simp only [PageSpace.setPip]
  by_cases hext' : pip'.pipExtent < mgr.pagesPerPIP
  · by_cases hext : pip.pipExtent < mgr.pagesPerPIP <;> simp [hext, hext']
  · have hext : ¬pip.pipExtent < mgr.pagesPerPIP := by omega
    simp [hext, hext']

/-- The hints lowered when an inventory page is fetched count for the pages after the first too. -/
theorem releaseFrom_lowered (pages : List Nat) (sequence : Nat) (space : PageSpace) :
    releaseFrom mgr pages (some sequence) space = releaseFrom mgr pages (some sequence)
    (lowerHints mgr sequence space) := by
  induction pages generalizing space with
  | nil => rw [releaseFrom, releaseFrom, lowerHints_idem]
  | cons page rest ih =>
    rw [releaseFrom, releaseFrom]
    dsimp only [leaveFor]
    by_cases hseq : page / mgr.pagesPerPIP = sequence
    · rw [if_neg (not_not.mpr hseq), if_neg (not_not.mpr hseq), hseq, lowerHints_pips]
      cases hpip : space.pips[sequence]? with
      | none =>
        have hsame : lowerHints mgr sequence space = space := by
          unfold lowerHints
          rw [hpip]
        rw [hsame]
      | some pip =>
        dsimp only
        rw [ih (space.setPip _ _), ih ((lowerHints mgr sequence space).setPip _ _),
          lowerHints_setPip hpip (releaseBit_pipExtent_le _ _)]
    · rw [if_pos hseq, if_pos hseq, lowerHints_idem]

/-- The release of one page, with the hints lowered for it -/
def releasePage (mgr : PageManager) (page : Nat) (pip : PageInvPage) (space : PageSpace) : PageSpace :=
  lowerHints mgr (page / mgr.pagesPerPIP)
    (space.setPip (page / mgr.pagesPerPIP) (releaseBit (page % mgr.pagesPerPIP) pip))

theorem releaseBit_pipBits (bit i : Nat) (pip : PageInvPage) :
    (releaseBit bit pip).pipBits i = if i = bit then true else pip.pipBits i := rfl

theorem marked_releaseBit {bit : Nat} (hmarked : pip.Marked mgr) (hne : bit ≠ mgr.pagesPerPIP - 1) :
    (releaseBit bit pip).Marked mgr where
  min i hi hfree := by
    rw [releaseBit_pipBits] at hfree
    simp only [releaseBit, PageInvPage.setBit]
    split at hfree
    · omega
    · have := hmarked.min i hi hfree
      omega
  extent byte hbyte hfull := by
    by_cases heq : bit / 8 = byte
    · subst heq
      have hset : (pip.setBit bit).byteIsFull (bit / 8) = true := hfull
      simp only [releaseBit, hset, if_true]
      omega
    · have hold : pip.byteIsFull byte = true := by
        rw [PageInvPage.byteIsFull_iff] at hfull ⊢
        intro i hi
        have hbit := hfull i hi
        rwa [releaseBit_pipBits, if_neg (by omega)] at hbit
      exact Nat.le_trans (releaseBit_pipExtent_le bit pip) (hmarked.extent byte hbyte hold)
  extent_end hend := by
    rw [releaseBit_pipBits, if_neg (Ne.symm hne)]
    exact hmarked.extent_end (Nat.le_trans hend (releaseBit_pipExtent_le bit pip))
  min_le := Nat.le_trans (Nat.min_le_left ..) hmarked.min_le
  extent_le := Nat.le_trans (releaseBit_pipExtent_le bit pip) hmarked.extent_le
  used_le := hmarked.used_le

theorem PageSpace.Inv.releasePage {page : Nat} (hinv : start.Inv mgr held ever) (hpage : page ∈ held)
    (hpip : start.pips[page / mgr.pagesPerPIP]? = some pip) {held' : List Nat}
    (hheld : ∀ p ∈ held', p ∈ held ∧ p ≠ page) : (releasePage mgr page pip start).Inv mgr held' ever := by
  obtain ⟨hordinary, -⟩ := hinv.held page hpage
  simp only [IsInventory, not_or] at hordinary
  obtain ⟨h0, h1, hlast, hscn⟩ := hordinary
  have hlt : page / mgr.pagesPerPIP < start.pips.length := (List.getElem?_eq_some_iff.mp hpip).1
  have hmarked := marked_releaseBit (hinv.marked _ pip hpip) hlast
  have hdiv := Nat.div_add_mod page mgr.pagesPerPIP
  generalize hseq : page / mgr.pagesPerPIP = seq at *
  generalize hbit : page % mgr.pagesPerPIP = bit at *
  have hself : (start.setPip seq (releaseBit bit pip)).pips[seq]? = some (releaseBit bit pip) := getElem?_set_self hlt
  have heq : Pag.releasePage mgr page pip start = { start.setPip seq (releaseBit bit pip) with
      pipHighWater := min start.pipHighWater seq
      pipWithExtent := if (releaseBit bit pip).pipExtent < mgr.pagesPerPIP then min start.pipWithExtent seq
        else start.pipWithExtent } := by
    unfold Pag.releasePage
    rw [hseq, hbit, lowerHints_eq hself]
    rfl
  have hlength : (start.pips.set seq (releaseBit bit pip)).length = start.pips.length := length_set
  have hcases : ∀ (k : Nat) (q : PageInvPage), (start.pips.set seq (releaseBit bit pip))[k]? = some q →
      k = seq ∧ q = releaseBit bit pip ∨ k ≠ seq ∧ start.pips[k]? = some q := fun k q hq => by
    by_cases hk : k = seq
    · rw [hk] at hq
      exact .inl ⟨hk, (Option.some.inj (hq.symm.trans hself))⟩
    · rw [getElem?_set_ne (Ne.symm hk)] at hq
      exact .inr ⟨hk, hq⟩
  rw [heq]
  exact {
    marked := fun k q hq => by
      rcases hcases k q hq with ⟨-, rfl⟩ | ⟨-, hq⟩
      · exact hmarked
      · exact hinv.marked k q hq
    linked := fun k q hq => by
      dsimp only [PageSpace.setPip]
      rw [hlength]
      rcases hcases k q hq with ⟨rfl, rfl⟩ | ⟨-, hq⟩
      · rw [releaseBit_pipBits, if_neg (Ne.symm hlast)]
        exact hinv.linked k pip hpip
      · exact hinv.linked k q hq
    fixed := fun q hq => by
      rcases hcases 0 q hq with ⟨hk, rfl⟩ | ⟨-, hq⟩
      · rw [← hk, Nat.mul_zero, Nat.zero_add] at hdiv
        obtain ⟨f0, f1, f2⟩ := hinv.fixed pip (hk ▸ hpip)
        simp only [releaseBit_pipBits]
        refine ⟨?_, ?_, fun htemp => ?_⟩
        · rw [if_neg (by omega)]
          exact f0
        · rw [if_neg (by omega)]
          exact f1
        · have hne : firstScnPage ≠ bit := fun hb => hscn ⟨htemp, .inl (hdiv.symm.trans hb.symm)⟩
          rw [if_neg hne]
          exact f2 htemp
      · exact hinv.fixed q hq
    highWater_lt := by
      dsimp only [PageSpace.setPip]
      omega
    withExtent_lt := by
      have := hinv.withExtent_lt
      dsimp only [PageSpace.setPip]
      split <;> omega
    highWater := fun k q hq hk i hi => by
      dsimp only at hk
      rcases hcases k q hq with ⟨rfl, -⟩ | ⟨-, hq⟩
      · omega
      · exact hinv.highWater k q hq (by omega) i hi
    withExtent := fun k q hq hk byte hbyte => by
      dsimp only at hk
      rcases hcases k q hq with ⟨rfl, rfl⟩ | ⟨-, hq⟩
      · split at hk
        · omega
        · by_contra hfull
          have := hmarked.extent byte hbyte (Bool.not_eq_false _ ▸ hfull)
          have := mgr.pagesPerPIP_eq
          omega
      · refine hinv.withExtent k q hq ?_ byte hbyte
        split at hk <;> omega
    held := fun p hp => by
      obtain ⟨hp, hne⟩ := hheld p hp
      obtain ⟨hordinary, q, hq, hqbit⟩ := hinv.held p hp
      refine ⟨hordinary, ?_⟩
      by_cases hk : p / mgr.pagesPerPIP = seq
      · rw [hk, hpip] at hq
        cases hq
        have hpdiv := Nat.div_add_mod p mgr.pagesPerPIP
        have hpbit : p % mgr.pagesPerPIP ≠ bit := fun hb => by
          rw [hk] at hpdiv
          omega
        exact ⟨releaseBit bit pip, hk ▸ hself, by rwa [releaseBit_pipBits, if_neg hpbit]⟩
      · exact ⟨q, (getElem?_set_ne (Ne.symm hk)).trans hq, hqbit⟩
    used := fun hcovered k q hq => by
      rcases hcases k q hq with ⟨rfl, rfl⟩ | ⟨-, hq⟩
      · intro i hi hbusy
        rw [releaseBit_pipBits] at hbusy
        split at hbusy
        · cases hbusy
        · exact hinv.used hcovered k pip hpip i hi hbusy
      · exact hinv.used hcovered k q hq
    ever := fun p hp => by
      obtain ⟨hpl, hpu⟩ := hinv.ever p hp
      dsimp only [PageSpace.setPip]
      rw [hlength]
      refine ⟨hpl, fun hcovered q hq => ?_⟩
      rcases hcases _ q hq with ⟨hk, rfl⟩ | ⟨-, hq⟩
      · exact hpu hcovered pip (hk ▸ hpip)
      · exact hpu hcovered q hq }

/-- A bit that is clear was clear before, and its page is not one of those released. -/
structure OnlyLeaves (mgr : PageManager) (pages : List Nat) (start space : PageSpace) : Prop where
  length : space.pips.length = start.pips.length
  bits : ∀ (k : Nat) (pip : PageInvPage), space.pips[k]? = some pip → ∀ i, i < mgr.pagesPerPIP → pip.pipBits i = false →
    (∃ old, start.pips[k]? = some old ∧ old.pipBits i = false) ∧ i + k * mgr.pagesPerPIP ∉ pages

theorem OnlyLeaves.nil (h : space.pips = start.pips) : OnlyLeaves mgr [] start space where
  length := congrArg List.length h
  bits _ pip hpip _ _ hbusy := ⟨⟨pip, h ▸ hpip, hbusy⟩, not_mem_nil⟩

theorem OnlyLeaves.cons {page : Nat} {rest : List Nat} (hpip : start.pips[page / mgr.pagesPerPIP]? = some pip)
    (h : OnlyLeaves mgr rest (Pag.releasePage mgr page pip start) space) :
    OnlyLeaves mgr (page :: rest) start space := by
  have hpips : (Pag.releasePage mgr page pip start).pips =
      start.pips.set (page / mgr.pagesPerPIP) (releaseBit (page % mgr.pagesPerPIP) pip) := lowerHints_pips ..
  have hlt : page / mgr.pagesPerPIP < start.pips.length := (List.getElem?_eq_some_iff.mp hpip).1
  refine ⟨by rw [h.length, hpips, length_set], fun k q hq i hi hbusy => ?_⟩
  obtain ⟨⟨old, hold, hbit⟩, hrest⟩ := h.bits k q hq i hi hbusy
  rw [hpips] at hold
  by_cases hk : page / mgr.pagesPerPIP = k
  · subst hk
    rw [getElem?_set_self hlt] at hold
    cases hold
    rw [releaseBit_pipBits] at hbit
    split at hbit
    · cases hbit
    · rename_i hne
      refine ⟨⟨pip, hpip, hbit⟩, fun hmem => ?_⟩
      rcases mem_cons.mp hmem with heq | hmem
      · exact hne (by rw [← heq, mgr.page_mod hi])
      · exact hrest hmem
  · rw [getElem?_set_ne hk] at hold
    refine ⟨⟨old, hold, hbit⟩, fun hmem => ?_⟩
    rcases mem_cons.mp hmem with heq | hmem
    · exact hk (by rw [← heq, mgr.page_div hi])
    · exact hrest hmem

/-- By induction over the pages; the hints are lowered for the first one of an inventory page. -/
theorem releaseFrom_spec {pages : List Nat} (hpages : ∀ p ∈ pages, p ∈ held) (hnodup : pages.Nodup)
    (hinv : start.Inv mgr held ever) {sequence : Option Nat}
    (hlowered : ∀ k, sequence = some k → lowerHints mgr k start = start) {ok : Bool}
    (h : releaseFrom mgr pages sequence start = (space, ok)) :
    ok = true ∧ space.Inv mgr (held.filter fun p => p ∉ pages) ever ∧ OnlyLeaves mgr pages start space := by
  induction pages generalizing start held sequence with
  | nil =>
    have hheld : (held.filter fun p => p ∉ ([] : List Nat)) = held := by simp
    rw [hheld]
    cases sequence with
    | none =>
      cases h
      exact ⟨rfl, hinv, .nil rfl⟩
    | some k =>
      rw [releaseFrom, hlowered k rfl] at h
      cases h
      exact ⟨rfl, hinv, .nil rfl⟩
  | cons page rest ih =>
    obtain ⟨hnew, hnodup⟩ := nodup_cons.mp hnodup
    have hpage := hpages page (mem_cons_self ..)
    obtain ⟨-, pip, hpip, -⟩ := hinv.held page hpage
    have hstep : releaseFrom mgr rest (some (page / mgr.pagesPerPIP)) (releasePage mgr page pip start) =
        (space, ok) := by
      have hsame : leaveFor mgr (page / mgr.pagesPerPIP) sequence start = start := by
        unfold leaveFor
        cases sequence with
        | none => rfl
        | some k =>
          dsimp only
          rw [hlowered k rfl, ite_self]
      rw [releaseFrom.eq_def] at h
      dsimp only at h
      rw [hsame, hpip] at h
      rw [releasePage, ← releaseFrom_lowered]
      exact h
    have hsub : (held.filter fun p => p ∉ page :: rest) = (held.filter fun p => p ≠ page).filter fun p => p ∉ rest := by
      rw [filter_filter]
      simp [not_or, Bool.and_comm]
    rw [hsub]
    have hrest : ok = true ∧ space.Inv mgr ((held.filter fun p => p ≠ page).filter fun p => p ∉ rest) ever ∧
        OnlyLeaves mgr rest (Pag.releasePage mgr page pip start) space := by
      refine ih (fun p hp => mem_filter.mpr ⟨hpages p (mem_cons_of_mem _ hp), ?_⟩) hnodup
        (hinv.releasePage hpage hpip fun p hp => ?_) (fun k hk => ?_) hstep
      · exact decide_eq_true fun heq => hnew (heq ▸ hp)
      · exact ⟨(mem_filter.mp hp).1, of_decide_eq_true (mem_filter.mp hp).2⟩
      · cases hk
        exact lowerHints_idem ..
    exact ⟨hrest.1, hrest.2.1, hrest.2.2.cons hpip⟩

end Firebird.Pag
