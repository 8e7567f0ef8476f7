import Firebird.Pag.InventoryKeeps

/-! # Allocation keeps the page inventory -/

namespace Firebird.Pag

open PageInvPage List

variable {mgr : PageManager} {request : Request} {sequence : Nat} {pip : PageInvPage} {start space : PageSpace}
  {held ever : List Nat} {lo pos pipUsed : Nat} {s : Search} {disk : Disk} {found : PageInvPage × Nat × Nat}

theorem writePip_eq : writePip s found pipUsed =
    { found.1 with pipMin := found.2.1, pipExtent := found.2.2, pipUsed := pipUsed }.clearBits s.extraPages := by
  obtain ⟨p, pipMin, pipExtent⟩ := found
  unfold writePip
  dsimp only
  split
  · rfl
  · rename_i hsame
    simp only [not_or, ne_eq, not_not] at hsame
    obtain ⟨rfl, rfl, rfl, hextra⟩ := hsame
    rw [hextra]
    rfl

@[simp] theorem writePip_pipMin : (writePip s found pipUsed).pipMin = found.2.1 := by
  rw [writePip_eq, clearBits_pipMin]

@[simp] theorem writePip_pipExtent : (writePip s found pipUsed).pipExtent = found.2.2 := by
  rw [writePip_eq, clearBits_pipExtent]

@[simp] theorem writePip_pipUsed : (writePip s found pipUsed).pipUsed = pipUsed := by
  rw [writePip_eq, clearBits_pipUsed]

theorem writePip_pipBits (s : Search) (found : PageInvPage × Nat × Nat) (pipUsed i : Nat) :
    (writePip s found pipUsed).pipBits i = true ↔ found.1.pipBits i = true ∧ i ∉ s.extraPages := by
  rw [writePip_eq, clearBits_pipBits]
  by_cases h : i ∈ s.extraPages <;> simp [h]

theorem found_busy {pipUsed i : Nat} (hbusy : (writePip s found pipUsed).pipBits i = false)
    (hextra : i ∉ s.extraPages) : found.1.pipBits i = false := by
  by_contra hfree
  have := (writePip_pipBits s found pipUsed i).mpr ⟨Bool.not_eq_false _ ▸ hfree, hextra⟩
  rw [hbusy] at this
  cases this

theorem stepped_leave (h : Searched mgr request sequence pip start lo pos s)
    (hbits : ∀ i, found.1.pipBits i = true → pip.pipBits i = true)
    (hlast : found.1.pipBits (mgr.pagesPerPIP - 1) = pip.pipBits (mgr.pagesPerPIP - 1))
    (hmarked : (writePip s found pipUsed).Marked mgr) (hle : s.pipUsed ≤ pipUsed)
    (hcovered : disk.Covered mgr → s.space.disk.Covered mgr ∧ (pip.UsedCovers mgr →
      (writePip s found pipUsed).UsedCovers mgr)) :
    Stepped mgr sequence pip (writePip s found pipUsed) start (leavePip mgr sequence s found pipUsed disk) where
  bits i hi := hbits i ((writePip_pipBits ..).mp hi).1
  marked := hmarked
  used_le := by
    rw [writePip_pipUsed]
    exact Nat.le_trans h.used_le.1 hle
  pips := by
    have hgrown : mgr.pagesPerPIP - 1 ∈ s.extraPages ↔ pip.pipBits (mgr.pagesPerPIP - 1) = true ∧
        (writePip s found pipUsed).pipBits (mgr.pagesPerPIP - 1) = false := by
      rw [← Bool.not_eq_true, writePip_pipBits, hlast]
      constructor
      · exact fun hmem => ⟨((h.own _).mp hmem).2.2.1, fun hfree => hfree.2 hmem⟩
      · rintro ⟨hfree, hnot⟩
        by_contra hmem
        exact hnot ⟨hfree, hmem⟩
    change s.space.pips.set sequence _ = _
    rw [h.pips]
    simp only [hgrown]
  highWater := by
    rw [writePip_pipMin]
    simp only [leavePip, PageSpace.setPip, h.highWater]
  withExtent := by
    rw [writePip_pipExtent]
    simp only [leavePip, PageSpace.setPip, h.withExtent]
  covered hdisk := by
    have hd := hcovered hdisk
    exact ⟨(h.covered hd.1).1, hd.2⟩

/-- A single page asked for at an extent boundary is there if any page is. -/
def FitsSingle (mgr : PageManager) (request : Request) (sequence : Nat) (pip : PageInvPage) : Prop :=
  request.cntAlloc = 1 → request.aligned = true → (∃ i, i < mgr.pagesPerPIP ∧ Fit mgr sequence pip i) →
    ∃ i, i < mgr.pagesPerPIP ∧ Fit mgr sequence pip i ∧ mgr.pageOf sequence i % pagesInExtent = 0

section
variable (hmarked : pip.Marked mgr)
include hmarked

theorem searchStart_le_of_full {byte : Nat} (hbyte : byte < mgr.bytesBitPIP)
    (hfull : pip.byteIsFull byte = true) : searchStart request pip ≤ byte * 8 := by
  have hppp := mgr.pagesPerPIP_eq
  have hextent := hmarked.extent byte hbyte hfull
  have hmin := hmarked.min (byte * 8 + 0) (by omega) ((pip.byteIsFull_iff byte).mp hfull 0 (by omega))
  unfold searchStart
  split <;> omega

theorem searchStart_le_of_free (hcnt : request.cntAlloc < pagesInExtent) {i : Nat}
    (hi : i < mgr.pagesPerPIP) (hfree : pip.pipBits i = true) : searchStart request pip ≤ i := by
  have hmin := hmarked.min i hi hfree
  rw [searchStart, if_neg (by omega)]
  omega

variable (h : Searched mgr request sequence pip start (searchStart request pip) mgr.pagesPerPIP s)
  (hleft : s.toAlloc ≠ 0) (hsingle : FitsSingle mgr request sequence pip)
include h hleft hsingle

theorem marked_notFound :
    (writePip s (notFound mgr request pip s) s.pipUsed).Marked mgr ∧
      (writePip s (notFound mgr request pip s) s.pipUsed).pipBits (mgr.pagesPerPIP - 1) = false := by
  have hbounds := mgr.pagesPerPIP_bounds
  have hppp := mgr.pagesPerPIP_eq
  -- the bit of the next inventory page is clear: had it been free, it would have been allocated on the way
  have hlast : (writePip s (notFound mgr request pip s) s.pipUsed).pipBits (mgr.pagesPerPIP - 1) = false := by
    by_contra hfree
    obtain ⟨hfree, hextra⟩ := (writePip_pipBits ..).mp (Bool.not_eq_false _ ▸ hfree)
    refine hextra ((h.own _).mpr ⟨?_, by omega, hfree, isOwn_iff.mpr (.inr rfl)⟩)
    have hmin := hmarked.min _ (by omega) hfree
    have hend : pip.pipExtent < mgr.pagesPerPIP := by
      by_contra hge
      have := hmarked.extent_end (by omega)
      rw [show pip.pipBits (mgr.pagesPerPIP - 1) = true from hfree] at this
      cases this
    unfold searchStart
    split <;> omega
  refine ⟨?_, hlast⟩
  exact {
    min := fun i hi hfree => by
      obtain ⟨hfree, hextra⟩ := (writePip_pipBits ..).mp hfree
      rw [writePip_pipMin]
      simp only [notFound] at hfree ⊢
      split
      case isTrue hone =>
        -- a page that is left is free for a request of one page
        have hsmall : request.cntAlloc < pagesInExtent := by unfold pagesInExtent; omega
        have hlo := searchStart_le_of_free hmarked hsmall hi hfree
        have hfit : Fit mgr sequence pip i := ⟨hfree, by
          by_contra hown
          exact hextra ((h.own i).mpr ⟨hlo, hi, hfree, Bool.not_eq_false _ ▸ hown⟩)⟩
        obtain ⟨haligned, -⟩ := h.single hleft hone i hlo hi hfit
        obtain ⟨j, hj, hjfit, hjaligned⟩ := hsingle hone haligned ⟨i, hi, hfit⟩
        have hjlo := searchStart_le_of_free hmarked hsmall hj hjfit.1
        exact absurd hjaligned (h.single hleft hone j hjlo hj hjfit).2
      case isFalse => exact h.min i hi hfree hextra (.inr hi)
    extent := fun byte hbyte hfull => by
      have hbits := (byteIsFull_iff _ byte).mp hfull
      have hpip : pip.byteIsFull byte = true :=
        (byteIsFull_iff _ byte).mpr fun i hi => ((writePip_pipBits ..).mp (hbits i hi)).1
      have hle := h.extent byte hpip (searchStart_le_of_full hmarked hbyte hpip) (by omega) fun i hi =>
        ((writePip_pipBits ..).mp (hbits i hi)).2
      rw [writePip_pipExtent]
      simp only [notFound]
      split
      case isTrue hmax =>
        rw [hmax] at hle
        unfold maxUlong at hle
        omega
      case isFalse => exact hle
    extent_end := fun _ => hlast
    min_le := by
      rw [writePip_pipMin]
      simp only [notFound]
      have := h.min_le
      split <;> omega
    extent_le := by
      rw [writePip_pipExtent]
      simp only [notFound]
      split
      · exact Nat.le_refl _
      · have := h.extent_le.resolve_left ‹_›
        omega
    used_le := by
      rw [writePip_pipUsed]
      exact h.used_le.2 }

theorem notFound_stepped :
    Stepped mgr sequence pip (writePip s (notFound mgr request pip s) s.pipUsed) start
      (leavePip mgr sequence s (notFound mgr request pip s) s.pipUsed s.space.disk) := by
  refine stepped_leave h (fun _ hi => hi) rfl (marked_notFound hmarked h hleft hsingle).1 (Nat.le_refl _)
    fun hcovered => ⟨hcovered, fun hused i hi hbusy => ?_⟩
  rw [writePip_pipUsed]
  by_cases hextra : i ∈ s.extraPages
  · exact (h.covered hcovered).2 hused i hextra
  · exact Nat.lt_of_lt_of_le (hused i hi (found_busy hbusy hextra)) h.used_le.1

end

/-! ### Pages were found -/

section
variable (mgr : PageManager) (request : Request)

theorem takeFound_pipBits (sequence : Nat) (pip : PageInvPage) (s : Search)
    (i : Nat) : (takeFound mgr request sequence pip s).1.pipBits i = true ↔
    pip.pipBits i = true ∧ ¬(s.firstBit ≤ i ∧ i ≤ s.lastBit) := by
  have hmem : i ∈ range' s.firstBit (s.lastBit + 1 - s.firstBit) ↔ s.firstBit ≤ i ∧ i ≤ s.lastBit := by
    rw [mem_range'_1]
    omega
  change (pip.clearBits _).pipBits i = true ↔ _
  rw [clearBits_pipBits, ← hmem]
  by_cases h : i ∈ range' s.firstBit (s.lastBit + 1 - s.firstBit) <;> simp [h]

theorem takeFound_busy (sequence : Nat) (pip : PageInvPage) (s : Search) {i : Nat}
    (hbusy : (takeFound mgr request sequence pip s).1.pipBits i = false) :
    pip.pipBits i = false ∨ s.firstBit ≤ i ∧ i ≤ s.lastBit := by
  rw [← Bool.not_eq_true, takeFound_pipBits, Decidable.not_and_iff_not_or_not, Decidable.not_not,
    Bool.not_eq_true] at hbusy
  exact hbusy

theorem extentToScn_le (sequence lastBit : Nat) (pip : PageInvPage) :
    extentToScn mgr request sequence lastBit pip ≤ (lastBit + 1 + 7) / 8 * 8 := by
  unfold extentToScn
  dsimp only
  split <;> omega

theorem extentBehind_le (sequence lastBit : Nat) (pip : PageInvPage) :
    extentBehind mgr request sequence lastBit pip ≤ (lastBit + 1 + 7) / 8 * 8 := by
  have h := extentToScn_le mgr request sequence lastBit pip
  unfold extentBehind
  dsimp only
  split <;> omega

end

theorem extentBehind_end {lastBit : Nat} (hlast : lastBit < mgr.pagesPerPIP)
    (hend : mgr.pagesPerPIP ≤ extentBehind mgr request sequence lastBit pip) :
    pip.pipBits (mgr.pagesPerPIP - 1) = false := by
  have hppp := mgr.pagesPerPIP_eq
  have hle := extentToScn_le mgr request sequence lastBit pip
  have hbit : (mgr.bytesBitPIP - 1) * 8 + 7 = mgr.pagesPerPIP - 1 := by omega
  unfold extentBehind at hend
  dsimp only at hend
  rw [hbit] at hend
  split at hend
  · omega
  · rename_i hne
    by_contra hfree
    exact hne ⟨by omega, Bool.not_eq_false _ ▸ hfree⟩

section
variable (hs : Searching mgr request sequence pip (searchStart request pip)) (hmarked : pip.Marked mgr)
  (h : Searched mgr request sequence pip start (searchStart request pip) pos s) (hpos : pos ≤ mgr.pagesPerPIP)
  (hdone : s.toAlloc = 0) (hused : pipUsed ≤ mgr.pagesPerPIP)
include hs hmarked h hpos hdone hused

theorem marked_found :
    (writePip s (takeFound mgr request sequence pip s) pipUsed).Marked mgr := by
  have hppp := mgr.pagesPerPIP_eq
  have hcnt := hs.cnt_pos
  obtain ⟨hlast, hfirst, -, -, -⟩ := h.run (by omega)
  have hfree : ∀ i, (writePip s (takeFound mgr request sequence pip s) pipUsed).pipBits i = true →
      pip.pipBits i = true ∧ i ∉ s.extraPages ∧ ¬(s.firstBit ≤ i ∧ i ≤ s.lastBit) := fun i hi => by
    obtain ⟨hi, hextra⟩ := (writePip_pipBits ..).mp hi
    obtain ⟨hi, hnot⟩ := (takeFound_pipBits ..).mp hi
    exact ⟨hi, hextra, hnot⟩
  have hextentle : ∀ byte, byte < mgr.bytesBitPIP →
      (writePip s (takeFound mgr request sequence pip s) pipUsed).byteIsFull byte = true →
      seenExtent pip s ≤ byte * 8 := fun byte hbyte hfull => by
    have hbits := (byteIsFull_iff _ byte).mp hfull
    have hpip : pip.byteIsFull byte = true :=
      (byteIsFull_iff _ byte).mpr fun i hi => (hfree _ (hbits i hi)).1
    unfold seenExtent
    split
    · exact hmarked.extent byte hbyte hpip
    · by_cases hbefore : byte * 8 + 8 ≤ pos
      · exact h.extent byte hpip (searchStart_le_of_full hmarked hbyte hpip) hbefore fun i hi =>
          (hfree _ (hbits i hi)).2.1
      · have := h.extent_le.resolve_left ‹_›
        omega
  have hmaxle : seenExtent pip s ≤ mgr.pagesPerPIP := by
    unfold seenExtent
    split
    · exact hmarked.extent_le
    · have := h.extent_le.resolve_left ‹_›
      omega
  exact {
    min := fun i hi hbit => by
      obtain ⟨hbit, hextra, hnot⟩ := hfree i hbit
      have hmin := h.min i hi hbit hextra
      rw [writePip_pipMin]
      simp only [takeFound]
      by_cases hbefore : i < pos
      all_goals split <;> omega
    extent := fun byte hbyte hfull => by
      have hle := hextentle byte hbyte hfull
      have hbits := (byteIsFull_iff _ byte).mp hfull
      rw [writePip_pipExtent]
      simp only [takeFound]
      split
      case isTrue hrange =>
        -- some page of each extent up to the last page has been allocated
        have hbehind : s.lastBit / 8 < byte := by
          unfold pagesInExtent at hrange
          have hin := (hfree _ (hbits (max s.firstBit (byte * 8) - byte * 8) (by omega))).2.2
          omega
        have := extentBehind_le mgr request sequence s.lastBit
          (pip.clearBits (range' s.firstBit (s.lastBit + 1 - s.firstBit)))
        omega
      case isFalse => exact hle
    extent_end := fun hend => by
      by_contra hbit
      obtain ⟨hbit, -, hnot⟩ := hfree _ (Bool.not_eq_false _ ▸ hbit)
      rw [writePip_pipExtent] at hend
      simp only [takeFound] at hend
      split at hend
      · have hclear := extentBehind_end (by omega) hend
        have := (takeFound_pipBits mgr request sequence pip s _).mpr ⟨hbit, hnot⟩
        rw [show (takeFound mgr request sequence pip s).1.pipBits (mgr.pagesPerPIP - 1) = false from hclear] at this
        cases this
      · unfold seenExtent at hend
        split at hend
        · rw [hmarked.extent_end hend] at hbit
          cases hbit
        · have := h.extent_le.resolve_left ‹_›
          omega
    min_le := by
      rw [writePip_pipMin]
      simp only [takeFound]
      split <;> omega
    extent_le := by
      rw [writePip_pipExtent]
      simp only [takeFound]
      split
      · have := extentBehind_le mgr request sequence s.lastBit
          (pip.clearBits (range' s.firstBit (s.lastBit + 1 - s.firstBit)))
        omega
      · exact hmaxle
    used_le := by
      rw [writePip_pipUsed]
      exact hused }

theorem found_stepped (hle : s.pipUsed ≤ pipUsed)
    (hcovered : disk.Covered mgr → s.space.disk.Covered mgr ∧
      (s.lastBit + 1 - s.pipUsed < ushortSize → s.lastBit < pipUsed)) :
    Stepped mgr sequence pip (writePip s (takeFound mgr request sequence pip s) pipUsed) start
        (leavePip mgr sequence s (takeFound mgr request sequence pip s) pipUsed disk) ∧
      (disk.Covered mgr → pip.UsedCovers mgr → s.lastBit < pipUsed) := by
  have hcnt := hs.cnt_pos
  have hcntle := hs.cnt_le
  obtain ⟨hlast, hfirst, -, hfits, -⟩ := h.run (by omega)
  have hnear : disk.Covered mgr → pip.UsedCovers mgr → s.lastBit < pipUsed := fun hdisk hpip => by
    refine (hcovered hdisk).2 ?_
    have hlo := hs.lo_le hpip
    have huse := h.used_le.1
    have := h.near (hcovered hdisk).1 hpip
    unfold pagesInExtent at hcntle
    unfold ushortSize
    omega
  refine ⟨stepped_leave h (fun i hi => ((takeFound_pipBits ..).mp hi).1) ?_ (marked_found hs hmarked h hpos hdone hused)
    hle fun hdisk => ⟨(hcovered hdisk).1, fun hpip i hi hbusy => ?_⟩, hnear⟩
  · -- the bit of the next inventory page is never found
    have hnot : ¬(s.firstBit ≤ mgr.pagesPerPIP - 1 ∧ mgr.pagesPerPIP - 1 ≤ s.lastBit) := fun hin => by
      have hown : isOwn mgr sequence (mgr.pagesPerPIP - 1) = true := isOwn_iff.mpr (.inr rfl)
      rw [(hfits _ hin.1 (by omega)).2] at hown
      cases hown
    rw [Bool.eq_iff_iff, takeFound_pipBits]
    exact and_iff_left hnot
  · rw [writePip_pipUsed]
    by_cases hextra : i ∈ s.extraPages
    · exact Nat.lt_of_lt_of_le ((h.covered (hcovered hdisk).1).2 hpip i hextra) hle
    · by_cases hfound : s.firstBit ≤ i ∧ i ≤ s.lastBit
      · exact Nat.lt_of_le_of_lt hfound.2 (hnear hdisk hpip)
      · have hbit := (takeFound_busy mgr request sequence pip s (found_busy hbusy hextra)).resolve_right hfound
        exact Nat.lt_of_lt_of_le (hpip i hi hbit) (Nat.le_trans h.used_le.1 hle)

end

/-- From an inventory page on, the first one with an ordinary free page has one at an extent boundary. -/
def PageSpace.AlignedFirst (mgr : PageManager) (space : PageSpace) (sequence : Nat) : Prop :=
  ∀ (k : Nat) (pip : PageInvPage), sequence ≤ k → space.pips[k]? = some pip →
    (∃ i, i < mgr.pagesPerPIP ∧ Fit mgr k pip i) →
    ∃ (j : Nat) (q : PageInvPage), sequence ≤ j ∧ j ≤ k ∧ space.pips[j]? = some q ∧
      ∃ i, i < mgr.pagesPerPIP ∧ Fit mgr j q i ∧ mgr.pageOf j i % pagesInExtent = 0

/-- What is known of pages that have just been allocated on an inventory page. -/
structure Allocated (mgr : PageManager) (request : Request) (held : List Nat) (first : Nat)
    (space : PageSpace) : Prop where
  fresh : ∀ i, i < request.cntAlloc → first + i ∉ held
  ordinary : ∀ i, i < request.cntAlloc → ¬IsInventory mgr (first + i)
  aligned : request.aligned = true → first % pagesInExtent = 0
  taken : ∀ i, i < request.cntAlloc → ∃ pip, space.pips[(first + i) / mgr.pagesPerPIP]? = some pip ∧
    pip.pipBits ((first + i) % mgr.pagesPerPIP) = false ∧
    (space.disk.Covered mgr → (first + i) % mgr.pagesPerPIP < pip.pipUsed)

theorem PageSpace.Inv.raised (hinv : start.Inv mgr held ever) (h : Raised mgr start s) : s.space.Inv mgr held ever where
  marked k pip hpip := hinv.marked k pip (h.pips ▸ hpip)
  linked k pip hpip := by
    rw [h.pips]
    exact hinv.linked k pip (h.pips ▸ hpip)
  fixed pip hpip := hinv.fixed pip (h.pips ▸ hpip)
  highWater_lt := by
    rw [h.highWater, h.pips]
    exact hinv.highWater_lt
  withExtent_lt := by
    rw [h.withExtent, h.pips]
    exact hinv.withExtent_lt
  highWater k pip hpip hk := hinv.highWater k pip (h.pips ▸ hpip) (h.highWater ▸ hk)
  withExtent k pip hpip hk := hinv.withExtent k pip (h.pips ▸ hpip) (h.withExtent ▸ hk)
  held page hpage := by
    rw [h.pips]
    exact hinv.held page hpage
  used hcovered k pip hpip := hinv.used (h.covered hcovered) k pip (h.pips ▸ hpip)
  ever page hpage := by
    rw [h.pips]
    exact ⟨(hinv.ever page hpage).1, fun hcovered => (hinv.ever page hpage).2 (h.covered hcovered)⟩

theorem Fit.ordinary (hinv : start.Inv mgr held ever) (hpip : start.pips[sequence]? = some pip)
    (hroom : (sequence + 1) * mgr.pagesPerPIP ≤ ulongSize) {i : Nat} (hi : i < mgr.pagesPerPIP)
    (hfit : Fit mgr sequence pip i) : ¬IsInventory mgr (i + sequence * mgr.pagesPerPIP) ∧
      i + sequence * mgr.pagesPerPIP ∉ held := by
  have hbounds := mgr.pagesPerPIP_bounds
  have hfirst : i + sequence * mgr.pagesPerPIP < 3 → sequence = 0 := fun hlt => by
    by_contra hne
    have := Nat.le_mul_of_pos_left mgr.pagesPerPIP (Nat.pos_of_ne_zero hne)
    omega
  have hnot : ∀ j, j < 3 → pip.pipBits j = false → i + sequence * mgr.pagesPerPIP ≠ j := fun j hj hbit heq => by
    have h0 := hfirst (by omega)
    rw [h0, Nat.zero_mul, Nat.add_zero] at heq
    rw [← heq, hfit.1] at hbit
    cases hbit
  have hfixed : sequence = 0 → pip.pipBits 0 = false ∧ pip.pipBits firstPipPage = false ∧
      (mgr.temporary = false → pip.pipBits firstScnPage = false) := fun h0 => hinv.fixed pip (h0 ▸ hpip)
  have hown := hfit.2
  refine ⟨?_, fun hmem => ?_⟩
  · rintro (hpage | hpage | hpage | ⟨htemp, hpage | hpage⟩)
    · exact hnot 0 (by omega) (hfixed (hfirst (by omega))).1 hpage
    · unfold firstPipPage at hpage
      exact hnot 1 (by omega) (hfixed (hfirst (by omega))).2.1 hpage
    · rw [mgr.page_mod hi] at hpage
      rw [isOwn_iff.mpr (.inr hpage)] at hown
      cases hown
    · unfold firstScnPage at hpage
      exact hnot 2 (by omega) ((hfixed (hfirst (by omega))).2.2 htemp) hpage
    · rw [← mgr.pageOf_eq hi hroom] at hpage
      rw [isOwn_iff.mpr (.inl (by simp [isNewSCN, htemp, hpage]))] at hown
      cases hown
  · obtain ⟨-, q, hq, hbit⟩ := hinv.held _ hmem
    rw [mgr.page_div hi, hpip] at hq
    cases hq
    rw [mgr.page_mod hi, hfit.1] at hbit
    cases hbit

theorem fit_newPip (hroom : (sequence + 1) * mgr.pagesPerPIP ≤ ulongSize) {i : Nat} (hlo : 8 ≤ i) (hi : i < 16) :
    Fit mgr sequence newPip i := by
  have hbounds := mgr.pagesPerPIP_bounds
  have hscn := mgr.pagesPerPIP_eq_pagesPerSCN
  refine ⟨rfl, ?_⟩
  by_contra hown
  rcases isOwn_iff.mp (Bool.not_eq_false _ ▸ hown) with hnew | hlast
  · simp only [isNewSCN, Bool.and_eq_true, beq_iff_eq] at hnew
    have hmod := hnew.2
    rw [mgr.pageOf_eq (by omega) hroom, hscn, ← Nat.mul_assoc, Nat.add_mul_mod_self_right,
      Nat.mod_eq_of_lt (by omega)] at hmod
    omega
  · omega

theorem search_newPip (hroom : (sequence + 1) * mgr.pagesPerPIP ≤ ulongSize)
    (h : Searched mgr request sequence newPip start (searchStart request newPip) mgr.pagesPerPIP s) :
    s.toAlloc = 0 := by
  have hbounds := mgr.pagesPerPIP_bounds
  have hstart : searchStart request newPip = 0 := by
    unfold searchStart newPip
    split <;> rfl
  by_contra hleft
  exact h.extents hleft 1 (by omega) (by omega) fun i hi => fit_newPip hroom (by omega) (by omega)

end Firebird.Pag
