import Firebird.Pag.Allocate

/-! # The search of one inventory page

What holds when the bits of an inventory page below some position have been searched, and that the
search of one more bit keeps it. -/

namespace Firebird.Pag

open List

/-- The marks of an inventory page agree with its bits. -/
structure PageInvPage.Marked (mgr : PageManager) (pip : PageInvPage) : Prop where
  /-- Every page below `pip_min` is allocated. -/
  min : ∀ i, i < mgr.pagesPerPIP → pip.pipBits i = true → pip.pipMin ≤ i
  /-- No free extent lies below `pip_extent`. -/
  extent : ∀ byte, byte < mgr.bytesBitPIP → pip.byteIsFull byte = true → pip.pipExtent ≤ byte * 8
  extent_end : mgr.pagesPerPIP ≤ pip.pipExtent → pip.pipBits (mgr.pagesPerPIP - 1) = false
  min_le : pip.pipMin ≤ mgr.pagesPerPIP
  extent_le : pip.pipExtent ≤ mgr.pagesPerPIP
  used_le : pip.pipUsed ≤ mgr.pagesPerPIP

/-- Every allocated page lies below `pip_used`. -/
def PageInvPage.UsedCovers (mgr : PageManager) (pip : PageInvPage) : Prop :=
  ∀ i, i < mgr.pagesPerPIP → pip.pipBits i = false → i < pip.pipUsed

/-- A free page that is not one of the database's own. -/
def Fit (mgr : PageManager) (sequence : Nat) (pip : PageInvPage) (bit : Nat) : Prop :=
  pip.pipBits bit = true ∧ isOwn mgr sequence bit = false

/-- What a search relies on: it starts at the bit `lo` of an inventory page whose marks are right. -/
structure Searching (mgr : PageManager) (request : Request) (sequence : Nat) (pip : PageInvPage) (lo : Nat) : Prop where
  cnt_pos : 0 < request.cntAlloc
  cnt_le : request.cntAlloc ≤ pagesInExtent
  room : (sequence + 1) * mgr.pagesPerPIP ≤ ulongSize
  used_le : pip.pipUsed ≤ mgr.pagesPerPIP
  lo_le : pip.UsedCovers mgr → lo ≤ pip.pipUsed + 7

/-- The state of a search that has passed the bits from `lo` to `pos` of an inventory page. -/
structure Searched (mgr : PageManager) (request : Request) (sequence : Nat) (pip : PageInvPage) (start : PageSpace)
    (lo pos : Nat) (s : Search) : Prop where
  lo_le : lo ≤ pos
  own : ∀ i, i ∈ s.extraPages ↔ lo ≤ i ∧ i < pos ∧ pip.pipBits i = true ∧ isOwn mgr sequence i = true
  alloc_le : s.toAlloc ≤ request.cntAlloc
  run : s.toAlloc < request.cntAlloc → s.lastBit + 1 = pos ∧ s.firstBit + (request.cntAlloc - s.toAlloc) = pos ∧
    lo ≤ s.firstBit ∧ (∀ i, s.firstBit ≤ i → i < pos → Fit mgr sequence pip i) ∧
    (request.aligned = true → mgr.pageOf sequence s.firstBit % pagesInExtent = 0)
  min : ∀ i, i < mgr.pagesPerPIP → pip.pipBits i = true → i ∉ s.extraPages →
    (pagesInExtent ≤ request.cntAlloc ∨ i < pos) → s.pipMin ≤ i
  min_le : s.pipMin ≤ mgr.pagesPerPIP
  extent : ∀ byte, pip.byteIsFull byte = true → lo ≤ byte * 8 → byte * 8 + 8 ≤ pos →
    (∀ i, i < 8 → byte * 8 + i ∉ s.extraPages) → s.pipExtent ≤ byte * 8
  extent_le : s.pipExtent = maxUlong ∨ s.pipExtent + 8 ≤ pos
  used_le : pip.pipUsed ≤ s.pipUsed ∧ s.pipUsed ≤ mgr.pagesPerPIP
  covered : s.space.disk.Covered mgr → start.disk.Covered mgr ∧
    (pip.UsedCovers mgr → ∀ i ∈ s.extraPages, i < s.pipUsed)
  /-- Behind `pip_used` every page is free, so the search finds some soon. -/
  near : s.space.disk.Covered mgr → pip.UsedCovers mgr → pos ≤ max s.pipUsed lo ∨
    s.toAlloc + (pos - max s.pipUsed lo) ≤ request.cntAlloc + 7 ∧ (s.toAlloc = request.cntAlloc →
      ∀ i, max s.pipUsed lo ≤ i → i < pos → mgr.pageOf sequence i % pagesInExtent ≠ 0)
  extents : s.toAlloc ≠ 0 → ∀ byte, lo ≤ byte * 8 → byte * 8 + 8 ≤ pos → ¬ ∀ i, i < 8 →
    Fit mgr sequence pip (byte * 8 + i)
  byte : ∀ byte i, pos = byte * 8 + i → i ≤ 8 → lo ≤ byte * 8 → (∀ j, j < i → Fit mgr sequence pip (byte * 8 + j)) →
    s.toAlloc ≤ request.cntAlloc - i
  single : s.toAlloc ≠ 0 → request.cntAlloc = 1 → ∀ i, lo ≤ i → i < pos → Fit mgr sequence pip i →
    request.aligned = true ∧ mgr.pageOf sequence i % pagesInExtent ≠ 0
  pips : s.space.pips =
    if mgr.pagesPerPIP - 1 ∈ s.extraPages then (start.putPip (sequence + 1) newPip).pips else start.pips
  highWater : s.space.pipHighWater = start.pipHighWater
  withExtent : s.space.pipWithExtent = start.pipWithExtent

structure Raised (mgr : PageManager) (start : PageSpace) (s : Search) : Prop where
  pips : s.space.pips = start.pips
  highWater : s.space.pipHighWater = start.pipHighWater
  withExtent : s.space.pipWithExtent = start.pipWithExtent
  covered : s.space.disk.Covered mgr → start.disk.Covered mgr

variable {mgr : PageManager} {request : Request} {sequence : Nat} {pip : PageInvPage} {start : PageSpace} {lo pos : Nat}
  {s s' : Search}

theorem isOwn_iff {bit : Nat} : isOwn mgr sequence bit = true ↔
    isNewSCN mgr (mgr.pageOf sequence bit) = true ∨ bit = mgr.pagesPerPIP - 1 := by
  simp [isOwn, isNewPIP]

section
variable (bit : Nat) (space : PageSpace)

@[simp] theorem formatExtra_disk : (formatExtra mgr sequence bit space).disk = space.disk := by
  unfold formatExtra
  dsimp only
  split <;> split <;> rfl

@[simp] theorem formatExtra_highWater : (formatExtra mgr sequence bit space).pipHighWater = space.pipHighWater := by
  unfold formatExtra
  dsimp only
  split <;> split <;> rfl

@[simp] theorem formatExtra_withExtent : (formatExtra mgr sequence bit space).pipWithExtent = space.pipWithExtent := by
  unfold formatExtra
  dsimp only
  split <;> split <;> rfl

theorem formatExtra_pips : (formatExtra mgr sequence bit space).pips =
    if bit = mgr.pagesPerPIP - 1 then (space.putPip (sequence + 1) newPip).pips else space.pips := by
  by_cases hlast : bit = mgr.pagesPerPIP - 1
  · have hnew : isNewPIP mgr bit = true := beq_iff_eq.mpr hlast
    rw [formatExtra, if_pos hnew]
    split <;> rfl
  · have hnew : ¬isNewPIP mgr bit = true := fun hnew => hlast (beq_iff_eq.mp hnew)
    rw [formatExtra, if_neg hnew]
    split <;> rfl

end

theorem exists_aligned (h : Searching mgr request sequence pip lo) {v : Nat} (hv : v + 8 ≤ mgr.pagesPerPIP) :
    ∃ i, v ≤ i ∧ i < v + 8 ∧ mgr.pageOf sequence i % pagesInExtent = 0 := by
  refine ⟨v + (8 - v % 8) % 8, by omega, by omega, ?_⟩
  rw [mgr.pageOf_eq (by omega) h.room]
  have hrows : sequence * mgr.pagesPerPIP % 8 = 0 := by
    rw [mgr.pagesPerPIP_eq, ← Nat.mul_assoc, Nat.mul_mod_left]
  unfold pagesInExtent
  omega

namespace Searched

theorem busy (h : Searched mgr request sequence pip start lo pos s)
    (hpos : pos < mgr.pagesPerPIP) (hbusy : pip.pipBits pos = false) (hleft : s.toAlloc ≠ 0) :
    Searched mgr request sequence pip start lo (pos + 1) { s with toAlloc := request.cntAlloc } where
  lo_le := Nat.le_succ_of_le h.lo_le
  own i := by
    rw [h.own]
    constructor
    · rintro ⟨h1, h2, h3, h4⟩
      exact ⟨h1, by omega, h3, h4⟩
    · rintro ⟨h1, h2, h3, h4⟩
      refine ⟨h1, ?_, h3, h4⟩
      have hne : i ≠ pos := fun heq => by rw [heq, hbusy] at h3; cases h3
      omega
  alloc_le := Nat.le_refl _
  run hlt := absurd hlt (Nat.lt_irrefl _)
  min i hi hfree hextra hcond := by
    refine h.min i hi hfree hextra (hcond.imp_right fun hlt => ?_)
    have hne : i ≠ pos := fun heq => by rw [heq, hbusy] at hfree; cases hfree
    omega
  min_le := h.min_le
  extent byte hfull hlo hend hextra := by
    refine h.extent byte hfull hlo ?_ hextra
    have hne : byte * 8 + 7 ≠ pos := fun heq => by
      have hbit := (pip.byteIsFull_iff byte).mp hfull 7 (by omega)
      rw [heq, hbusy] at hbit
      cases hbit
    omega
  extent_le := h.extent_le.imp_right fun hle => Nat.le_succ_of_le hle
  used_le := h.used_le
  covered := h.covered
  near hcovered hused := by
    have hlt := hused pos hpos hbusy
    have hle := h.used_le.1
    exact .inl (by simp only; omega)
  extents _ byte hlo hend hall := by
    by_cases hlast : byte * 8 + 7 = pos
    · have hbit := (hall 7 (by omega)).1
      rw [hlast, hbusy] at hbit
      cases hbit
    · exact h.extents hleft byte hlo (by omega) hall
  byte byte i hpos' hi hlo hall := by
    by_cases h0 : i = 0
    · simp [h0]
    · have hbit := (hall (i - 1) (by omega)).1
      rw [show byte * 8 + (i - 1) = pos by omega, hbusy] at hbit
      cases hbit
  single _ hone i hlo hlt hfit := by
    have hne : i ≠ pos := fun heq => by have hbit := hfit.1; rw [heq, hbusy] at hbit; cases hbit
    exact h.single hleft hone i hlo (by omega) hfit
  pips := h.pips
  highWater := h.highWater
  withExtent := h.withExtent

section
variable (hs : Searching mgr request sequence pip lo)
include hs

theorem missing_lt (h : Searched mgr request sequence pip start lo pos s)
    (hcovered : s.space.disk.Covered mgr) (hused : pip.UsedCovers mgr) : pos + 1 - s.pipUsed < ushortSize := by
  have hlo := hs.lo_le hused
  have hcnt := hs.cnt_le
  have hle := h.used_le.1
  have hnear := h.near hcovered hused
  unfold pagesInExtent at hcnt
  unfold ushortSize
  omega

theorem extra (h : Searched mgr request sequence pip start lo pos s)
    (hpos : pos < mgr.pagesPerPIP) (hfree : pip.pipBits pos = true) (hown : isOwn mgr sequence pos = true)
    (hleft : s.toAlloc ≠ 0) {flow : Flow} (hstep : allocateExtra mgr request sequence pos s = (s', flow)) :
    (flow = .raised ∧ Raised mgr start s') ∨
      Searched mgr request sequence pip start lo (pos + 1) s' ∧ s'.toAlloc ≠ 0 ∧
        (flow = .next ∨ flow = .leave ∧ pos + 1 = mgr.pagesPerPIP) := by
  have hne : mgr.pagesPerPIP - 1 ∉ s.extraPages := fun hmem => by
    have := ((h.own _).mp hmem).2.1
    omega
  have hpips : s.space.pips = start.pips := by rw [h.pips, if_neg hne]
  unfold allocateExtra at hstep
  dsimp only at hstep
  split at hstep
  case h_1 disk hdisk =>
    cases hstep
    refine .inl ⟨rfl, hpips, h.highWater, h.withExtent, fun hcovered => (h.covered ?_).1⟩
    split at hdisk
    · exact ensureDiskSpace_raised hdisk hcovered
    · cases hdisk
  case h_2 pipUsed disk hdisk =>
    have hspace : s.pipUsed ≤ pipUsed ∧ pipUsed ≤ mgr.pagesPerPIP ∧ (disk.Covered mgr → s.space.disk.Covered mgr ∧
        (pos + 1 - s.pipUsed < ushortSize → pos < pipUsed)) := by
      split at hdisk
      · rw [mgr.pageOf_eq hpos hs.room] at hdisk
        exact ensureDiskSpace_spec hpos h.used_le.2 hdisk
      · cases hdisk
        exact ⟨Nat.le_refl _, h.used_le.2, fun hcovered => ⟨hcovered, fun _ => by omega⟩⟩
    obtain ⟨hle, hend, hcov⟩ := hspace
    have hlt : disk.Covered mgr → pip.UsedCovers mgr → pos < pipUsed := fun hcovered hused =>
      (hcov hcovered).2 (h.missing_lt hs (hcov hcovered).1 hused)
    cases hstep
    refine .inr ⟨?_, Nat.pos_iff_ne_zero.mp hs.cnt_pos, ?_⟩
    · exact {
        lo_le := Nat.le_succ_of_le h.lo_le
        own := fun i => by
          rw [mem_append, mem_singleton, h.own]
          constructor
          · rintro (⟨h1, h2, h3, h4⟩ | rfl)
            · exact ⟨h1, by omega, h3, h4⟩
            · exact ⟨h.lo_le, by omega, hfree, hown⟩
          · rintro ⟨h1, h2, h3, h4⟩
            by_cases heq : i = pos
            · exact .inr heq
            · exact .inl ⟨h1, by omega, h3, h4⟩
        alloc_le := Nat.le_refl _
        run := fun hlt => absurd hlt (Nat.lt_irrefl _)
        min := fun i hi hf hextra hcond => by
          rw [mem_append, mem_singleton, not_or] at hextra
          have hmin := h.min i hi hf hextra.1 (hcond.imp_right fun hlt => by omega)
          dsimp only
          split
          · omega
          · exact hmin
        min_le := by
          have := h.min_le
          dsimp only
          split <;> omega
        extent := fun byte hfull hlo hbyte hextra => by
          refine h.extent byte hfull hlo ?_ fun i hi hmem => hextra i hi (mem_append_left _ hmem)
          have hlast : byte * 8 + 7 ≠ pos := fun heq =>
            hextra 7 (by omega) (mem_append_right _ (mem_singleton.mpr heq))
          omega
        extent_le := h.extent_le.imp_right fun hle => Nat.le_succ_of_le hle
        used_le := ⟨Nat.le_trans h.used_le.1 hle, hend⟩
        covered := fun hcovered => by
          have hcovered' : disk.Covered mgr := by
            rwa [formatExtra_disk] at hcovered
          refine ⟨(h.covered (hcov hcovered').1).1, fun hused i hi => ?_⟩
          rw [mem_append, mem_singleton] at hi
          rcases hi with hi | rfl
          · exact Nat.lt_of_lt_of_le ((h.covered (hcov hcovered').1).2 hused i hi) hle
          · exact hlt hcovered' hused
        near := fun hcovered hused => by
          have hcovered' : disk.Covered mgr := by
            rwa [formatExtra_disk] at hcovered
          have := hlt hcovered' hused
          exact .inl (by dsimp only; omega)
        extents := fun _ byte hlo hbyte hall => by
          by_cases hlast : byte * 8 + 7 = pos
          · have hfit := (hall 7 (by omega)).2
            rw [hlast, hown] at hfit
            cases hfit
          · exact h.extents hleft byte hlo (by omega) hall
        byte := fun byte i hpos' hi hlo hall => by
          by_cases h0 : i = 0
          · simp [h0]
          · have hfit := (hall (i - 1) (by omega)).2
            rw [show byte * 8 + (i - 1) = pos by omega, hown] at hfit
            cases hfit
        single := fun _ hone i hlo hi hfit => by
          have hpos' : i ≠ pos := fun heq => by have hf := hfit.2; rw [heq, hown] at hf; cases hf
          exact h.single hleft hone i hlo (by omega) hfit
        pips := by
          rw [formatExtra_pips, hpips]
          by_cases hlast : pos = mgr.pagesPerPIP - 1
          · rw [if_pos hlast, if_pos (mem_append_right _ (mem_singleton.mpr hlast.symm))]
            rfl
          · have hextra : mgr.pagesPerPIP - 1 ∉ s.extraPages ++ [pos] := by
              rw [mem_append, mem_singleton, not_or]
              exact ⟨hne, Ne.symm hlast⟩
            rw [if_neg hlast, if_neg hextra]
        highWater := (formatExtra_highWater ..).trans h.highWater
        withExtent := (formatExtra_withExtent ..).trans h.withExtent }
    · rcases isOwn_iff.mp hown with hscn | hlast
      · exact .inl (if_pos hscn)
      · by_cases hscn : isNewSCN mgr (mgr.pageOf sequence pos) = true
        · exact .inl (if_pos hscn)
        · exact .inr ⟨if_neg hscn, by omega⟩

theorem take {byte i : Nat}
    (h : Searched mgr request sequence pip start lo (byte * 8 + i) s) (hi : i < 8)
    (hpos : byte * 8 + i < mgr.pagesPerPIP) (hfit : Fit mgr sequence pip (byte * 8 + i)) (hleft : s.toAlloc ≠ 0)
    {flow : Flow} (hstep : takePage mgr request sequence pip byte i s = (s', flow)) :
    Searched mgr request sequence pip start lo (byte * 8 + i + 1) s' ∧
      (flow = .next ∧ s'.toAlloc ≠ 0 ∨ flow = .leave ∧ s'.toAlloc = 0) := by
  have hle := h.alloc_le
  have hown : ∀ j, j ∈ s.extraPages ↔ lo ≤ j ∧ j < byte * 8 + i + 1 ∧ pip.pipBits j = true ∧
      isOwn mgr sequence j = true := by
    intro j
    rw [h.own]
    constructor
    · rintro ⟨h1, h2, h3, h4⟩
      exact ⟨h1, by omega, h3, h4⟩
    · rintro ⟨h1, h2, h3, h4⟩
      have hne : j ≠ byte * 8 + i := fun heq => by rw [heq, hfit.2] at h4; cases h4
      exact ⟨h1, by omega, h3, h4⟩
  have hmin : ∀ j, j < mgr.pagesPerPIP → pip.pipBits j = true → j ∉ s.extraPages →
      (pagesInExtent ≤ request.cntAlloc ∨ j < byte * 8 + i + 1) →
      (if byte * 8 + i < s.pipMin then byte * 8 + i else s.pipMin) ≤ j := by
    intro j hj hfree hextra hcond
    by_cases heq : j = byte * 8 + i
    · split <;> omega
    · have := h.min j hj hfree hextra (hcond.imp_right fun hlt => by omega)
      split <;> omega
  have hminle : (if byte * 8 + i < s.pipMin then byte * 8 + i else s.pipMin) ≤ mgr.pagesPerPIP := by
    split <;> omega
  have hextent : ∀ b, pip.byteIsFull b = true → lo ≤ b * 8 → b * 8 + 8 ≤ byte * 8 + i + 1 →
      (∀ j, j < 8 → b * 8 + j ∉ s.extraPages) → (if i = 7 ∧ pip.byteIsFull byte = true ∧ byte * 8 + i - 7 < s.pipExtent
        then byte * 8 + i - 7 else s.pipExtent) ≤ b * 8 := by
    intro b hfull hlo hend hextra
    by_cases hlast : b * 8 + 8 = byte * 8 + i + 1
    · have heq : b = byte := by omega
      subst heq
      split
      · omega
      · rename_i hnot
        simp only [not_and] at hnot
        have := hnot (by omega) hfull
        omega
    · have := h.extent b hfull hlo (by omega) hextra
      split <;> omega
  have hextentle : (if i = 7 ∧ pip.byteIsFull byte = true ∧ byte * 8 + i - 7 < s.pipExtent
      then byte * 8 + i - 7 else s.pipExtent) = maxUlong ∨ (if i = 7 ∧ pip.byteIsFull byte = true ∧
        byte * 8 + i - 7 < s.pipExtent then byte * 8 + i - 7 else s.pipExtent) + 8 ≤ byte * 8 + i + 1 := by
    split
    · exact .inr (by omega)
    · exact h.extent_le.imp_right fun hle => Nat.le_succ_of_le hle
  have hlast : ∀ b k, byte * 8 + i + 1 = b * 8 + k → k ≤ 8 → 0 < k → b = byte ∧ k = i + 1 := by
    intro b k hk h8 hpos
    omega
  unfold takePage at hstep
  dsimp only at hstep
  split at hstep
  case isTrue hskip =>
    obtain ⟨hall, haligned, hodd⟩ := hskip
    cases hstep
    refine ⟨?_, .inl ⟨rfl, hleft⟩⟩
    exact {
      lo_le := Nat.le_succ_of_le h.lo_le
      own := hown
      alloc_le := hle
      run := fun hlt => by dsimp only at hlt; omega
      min := hmin
      min_le := hminle
      extent := hextent
      extent_le := hextentle
      used_le := h.used_le
      covered := h.covered
      near := fun hcovered hused => by
        by_cases hlt : byte * 8 + i < max s.pipUsed lo
        · exact .inl (Nat.succ_le_of_lt hlt)
        have hodds : ∀ j, max s.pipUsed lo ≤ j → j < byte * 8 + i + 1 → mgr.pageOf sequence j % pagesInExtent ≠ 0 := by
          intro j hj hjlt
          by_cases heq : j = byte * 8 + i
          · exact heq ▸ hodd
          · rcases h.near hcovered hused with hnear | ⟨-, hnear⟩
            · omega
            · exact hnear hall j hj (by omega)
        refine .inr ⟨?_, fun _ => hodds⟩
        by_cases hfew : byte * 8 + i + 1 < max s.pipUsed lo + 8
        · dsimp only
          omega
        · obtain ⟨j, hj, hjlt, hjaligned⟩ := exists_aligned hs (v := max s.pipUsed lo) (by omega)
          exact absurd hjaligned (hodds j hj (by omega))
      extents := fun _ b hlo hend hfits => by
        by_cases hb : b * 8 + 8 = byte * 8 + i + 1
        · have heq : b = byte := by omega
          have := h.byte byte i rfl (by omega) (heq ▸ hlo) fun j hj => heq ▸ hfits j (by omega)
          omega
        · exact h.extents hleft b hlo (by omega) hfits
      byte := fun b k hk h8 hlo hfits => by
        dsimp only
        by_cases h0 : k = 0
        · omega
        obtain ⟨rfl, rfl⟩ := hlast b k hk h8 (by omega)
        have hbefore := h.byte b i rfl (by omega) hlo fun j hj => hfits j (by omega)
        have hi0 : i = 0 := by omega
        subst hi0
        rw [mgr.pageOf_eq hpos hs.room, mgr.pagesPerPIP_eq, ← Nat.mul_assoc] at hodd
        unfold pagesInExtent at hodd
        omega
      single := fun _ hone j hlo hj hjfit => by
        by_cases heq : j = byte * 8 + i
        · exact ⟨haligned, heq ▸ hodd⟩
        · exact h.single hleft hone j hlo (by omega) hjfit
      pips := h.pips
      highWater := h.highWater
      withExtent := h.withExtent }
  case isFalse hskip =>
    cases hstep
    refine ⟨?_, ?_⟩
    · exact {
        lo_le := Nat.le_succ_of_le h.lo_le
        own := hown
        alloc_le := by dsimp only; omega
        run := fun _ => by
          dsimp only
          by_cases hall : s.toAlloc = request.cntAlloc
          · rw [if_pos hall]
            refine ⟨rfl, by omega, h.lo_le, fun j hj hjlt => ?_, fun haligned => ?_⟩
            · rw [show j = byte * 8 + i by omega]
              exact hfit
            · by_contra hodd
              exact hskip ⟨hall, haligned, hodd⟩
          · obtain ⟨-, hcount, hfirst, hfits, haligned⟩ := h.run (by omega)
            rw [if_neg hall]
            refine ⟨rfl, by omega, hfirst, fun j hj hjlt => ?_, haligned⟩
            by_cases heq : j = byte * 8 + i
            · exact heq ▸ hfit
            · exact hfits j hj (by omega)
        min := hmin
        min_le := hminle
        extent := hextent
        extent_le := hextentle
        used_le := h.used_le
        covered := h.covered
        near := fun hcovered hused => by
          dsimp only
          by_cases hlt : byte * 8 + i < max s.pipUsed lo
          · exact .inl (Nat.succ_le_of_lt hlt)
          · have hnear := h.near hcovered hused
            exact .inr ⟨by omega, fun hall => by omega⟩
        extents := fun hmore b hlo hend hfits => by
          dsimp only at hmore
          by_cases hb : b * 8 + 8 = byte * 8 + i + 1
          · have heq : b = byte := by omega
            have := h.byte byte i rfl (by omega) (heq ▸ hlo) fun j hj => heq ▸ hfits j (by omega)
            have := hs.cnt_le
            unfold pagesInExtent at this
            omega
          · exact h.extents hleft b hlo (by omega) hfits
        byte := fun b k hk h8 hlo hfits => by
          dsimp only
          by_cases h0 : k = 0
          · omega
          obtain ⟨rfl, rfl⟩ := hlast b k hk h8 (by omega)
          have := h.byte b i rfl (by omega) hlo fun j hj => hfits j (by omega)
          omega
        single := fun hmore hone => by
          dsimp only at hmore
          omega
        pips := h.pips
        highWater := h.highWater
        withExtent := h.withExtent }
    · by_cases hdone : s.toAlloc - 1 = 0
      · exact .inr ⟨if_pos hdone, hdone⟩
      · exact .inl ⟨if_neg hdone, hdone⟩

end

end Searched

theorem scanBit_spec (hs : Searching mgr request sequence pip lo) {byte i : Nat}
    (h : Searched mgr request sequence pip start lo (byte * 8 + i) s) (hi : i < 8)
    (hpos : byte * 8 + i < mgr.pagesPerPIP) (hleft : s.toAlloc ≠ 0)
    {flow : Flow} (hstep : scanBit mgr request sequence pip byte i s = (s', flow)) :
    (flow = .raised ∧ Raised mgr start s') ∨ Searched mgr request sequence pip start lo (byte * 8 + i + 1) s' ∧
      (flow = .next ∧ s'.toAlloc ≠ 0 ∨ flow = .leave ∧ (s'.toAlloc = 0 ∨ byte * 8 + i + 1 = mgr.pagesPerPIP)) := by
  unfold scanBit at hstep
  dsimp only at hstep
  split at hstep
  case isTrue hfree =>
    split at hstep
    case isTrue hown =>
      rcases h.extra hs hpos hfree hown hleft hstep with hraised | ⟨hnext, hmore, hflow | ⟨hflow, hend⟩⟩
      · exact .inl hraised
      · exact .inr ⟨hnext, .inl ⟨hflow, hmore⟩⟩
      · exact .inr ⟨hnext, .inr ⟨hflow, .inr hend⟩⟩
    case isFalse hown =>
      obtain ⟨hnext, hflow⟩ := h.take hs hi hpos ⟨hfree, Bool.not_eq_true _ ▸ hown⟩ hleft hstep
      exact .inr ⟨hnext, hflow.imp_right fun hdone => ⟨hdone.1, .inl hdone.2⟩⟩
  case isFalse hbusy =>
    cases hstep
    exact .inr ⟨h.busy hpos (Bool.not_eq_true _ ▸ hbusy) hleft, .inl ⟨rfl, Nat.pos_iff_ne_zero.mp hs.cnt_pos⟩⟩

theorem scanBits_spec (hs : Searching mgr request sequence pip lo) {byte : Nat} (hbyte : byte < mgr.bytesBitPIP)
    {n i : Nat} (hn : i + n = 8) (h : Searched mgr request sequence pip start lo (byte * 8 + i) s)
    (hleft : s.toAlloc ≠ 0)
    {flow : Flow} (hstep : scanBits mgr request sequence pip byte (range' i n) s = (s', flow)) :
    (flow = .raised ∧ Raised mgr start s') ∨ flow ≠ .raised ∧ ∃ pos, pos ≤ byte * 8 + 8 ∧
      Searched mgr request sequence pip start lo pos s' ∧ (s'.toAlloc = 0 ∨ s'.toAlloc ≠ 0 ∧ pos = byte * 8 + 8) := by
  have hppp := mgr.pagesPerPIP_eq
  induction n generalizing i s with
  | zero =>
    cases hstep
    obtain rfl : i = 8 := by omega
    exact .inr ⟨by decide, _, Nat.le_refl _, h, .inr ⟨hleft, rfl⟩⟩
  | succ n ih =>
    rw [range'_succ, scanBits] at hstep
    cases hbit : scanBit mgr request sequence pip byte i s with
    | mk s₁ flow₁ =>
      rw [hbit] at hstep
      rcases scanBit_spec hs h (by omega) (by omega) hleft hbit with ⟨rfl, hraised⟩ | ⟨hnext,
          ⟨rfl, hmore⟩ | ⟨rfl, hdone⟩⟩
      · cases hstep
        exact .inl ⟨rfl, hraised⟩
      · exact ih (by omega) hnext hmore hstep
      · cases hstep
        refine .inr ⟨by decide, _, by omega, hnext, ?_⟩
        by_cases h0 : s'.toAlloc = 0
        · exact .inl h0
        · exact .inr ⟨h0, by omega⟩

theorem Searched.busyByte {byte : Nat} (hbyte : byte < mgr.bytesBitPIP)
    (h : Searched mgr request sequence pip start lo (byte * 8) s) (hs : Searching mgr request sequence pip lo)
    (hleft : s.toAlloc ≠ 0) (hzero : pip.byteIsZero byte = true) :
    Searched mgr request sequence pip start lo (byte * 8 + 8) { s with toAlloc := request.cntAlloc } := by
  have hppp := mgr.pagesPerPIP_eq
  have hbits := (pip.byteIsZero_iff byte).mp hzero
  suffices hall : ∀ n, n < 8 → Searched mgr request sequence pip start lo (byte * 8 + n + 1)
      { s with toAlloc := request.cntAlloc } from hall 7 (by omega)
  intro n hn
  induction n with
  | zero => exact h.busy (by omega) (hbits 0 hn) hleft
  | succ n ih => exact (ih (by omega)).busy (by omega) (hbits (n + 1) hn) (Nat.pos_iff_ne_zero.mp hs.cnt_pos)

theorem scanBytes_spec (hs : Searching mgr request sequence pip lo) {n byte : Nat} (hn : byte + n = mgr.bytesBitPIP)
    (h : Searched mgr request sequence pip start lo (byte * 8) s) (hleft : s.toAlloc ≠ 0) {raised : Bool}
    (hstep : scanBytes mgr request sequence pip (range' byte n) s = (s', raised)) :
    (raised = true ∧ Raised mgr start s') ∨ raised = false ∧ ∃ pos, pos ≤ mgr.pagesPerPIP ∧
      Searched mgr request sequence pip start lo pos s' ∧ (s'.toAlloc = 0 ∨ s'.toAlloc ≠ 0 ∧
        pos = mgr.pagesPerPIP) := by
  have hppp := mgr.pagesPerPIP_eq
  induction n generalizing byte s with
  | zero =>
    cases hstep
    exact .inr ⟨rfl, _, by omega, h, .inr ⟨hleft, by omega⟩⟩
  | succ n ih =>
    rw [range'_succ, scanBytes] at hstep
    split at hstep
    case isTrue hzero =>
      have hnext := h.busyByte (by omega) hs hleft hzero
      rw [← Nat.succ_mul] at hnext
      exact ih (by omega) hnext (Nat.pos_iff_ne_zero.mp hs.cnt_pos) hstep
    case isFalse =>
      cases hbits : scanBits mgr request sequence pip byte (range 8) s with
      | mk s₁ flow =>
        rw [hbits] at hstep
        rw [range_eq_range'] at hbits
        rcases scanBits_spec hs (by omega) rfl h hleft hbits with ⟨rfl, hraised⟩ | ⟨hflow, pos, hpos, hnext, hdone⟩
        · cases hstep
          exact .inl ⟨rfl, hraised⟩
        · have hstep' : (if s₁.toAlloc = 0 then (s₁, false)
              else scanBytes mgr request sequence pip (range' (byte + 1) n) s₁) = (s', raised) := by
            cases flow with
            | raised => exact absurd rfl hflow
            | next | leave => exact hstep
          rcases hdone with h0 | ⟨h0, rfl⟩
          · rw [if_pos h0] at hstep'
            cases hstep'
            exact .inr ⟨rfl, pos, by omega, hnext, .inl h0⟩
          · rw [if_neg h0] at hstep'
            exact ih (by omega) (Nat.succ_mul byte 8 ▸ hnext) h0 hstep'

def searchStart (request : Request) (pip : PageInvPage) : Nat :=
  (if pagesInExtent ≤ request.cntAlloc then pip.pipExtent else pip.pipMin) / 8 * 8

theorem Searching.of_marked (hcnt : 0 < request.cntAlloc) (hcntle : request.cntAlloc ≤ pagesInExtent)
    (hroom : (sequence + 1) * mgr.pagesPerPIP ≤ ulongSize) (hmarked : pip.Marked mgr) :
    Searching mgr request sequence pip (searchStart request pip) where
  cnt_pos := hcnt
  cnt_le := hcntle
  room := hroom
  used_le := hmarked.used_le
  lo_le hused := by
    have hppp := mgr.pagesPerPIP_eq
    unfold searchStart
    split
    · -- the first extent behind `pip_used` is free
      by_cases hend : (pip.pipUsed + 7) / 8 < mgr.bytesBitPIP
      · have hfull : pip.byteIsFull ((pip.pipUsed + 7) / 8) = true := by
          rw [PageInvPage.byteIsFull_iff]
          intro i hi
          by_contra hbusy
          have := hused _ (by omega) (Bool.not_eq_true _ ▸ hbusy)
          omega
        have := hmarked.extent _ hend hfull
        omega
      · have := hmarked.extent_le
        omega
    · by_cases hend : pip.pipUsed < mgr.pagesPerPIP
      · have hfree : pip.pipBits pip.pipUsed = true := by
          by_contra hbusy
          exact Nat.lt_irrefl _ (hused _ hend (Bool.not_eq_true _ ▸ hbusy))
        have := hmarked.min _ hend hfree
        omega
      · have := hmarked.min_le
        omega

theorem searched_start (hs : Searching mgr request sequence pip (searchStart request pip)) (hmarked : pip.Marked mgr) :
    Searched mgr request sequence pip start (searchStart request pip) (searchStart request pip)
      (startSearch mgr request pip start) where
  lo_le := Nat.le_refl _
  own i := by
    simp only [startSearch, not_mem_nil, false_iff, not_and]
    omega
  alloc_le := Nat.le_refl _
  run hlt := absurd hlt (Nat.lt_irrefl _)
  min i hi hfree _ hcond := by
    have hmin := hmarked.min i hi hfree
    unfold startSearch
    split
    · exact hmin
    · rename_i hsmall
      have hlt := hcond.resolve_left hsmall
      rw [searchStart, if_neg hsmall] at hlt
      omega
  min_le := by
    have := hmarked.min_le
    unfold startSearch
    dsimp only
    split <;> omega
  extent byte _ hlo hend := by omega
  extent_le := .inl rfl
  used_le := ⟨Nat.le_refl _, hs.used_le⟩
  covered hcovered := ⟨hcovered, fun _ i hi => absurd hi (not_mem_nil)⟩
  near _ _ := .inl (Nat.le_max_right ..)
  extents _ byte hlo hend := by omega
  byte byte i hpos _ hlo _ := by
    dsimp only [startSearch]
    omega
  single _ _ i hlo hlt := by omega
  pips := by simp [startSearch]
  highWater := rfl
  withExtent := rfl

theorem searchPip_spec (hs : Searching mgr request sequence pip (searchStart request pip)) (hmarked : pip.Marked mgr)
    {raised : Bool} (hstep : searchPip mgr request sequence pip start = (s', raised)) :
    (raised = true ∧ Raised mgr start s') ∨ raised = false ∧ ∃ pos, pos ≤ mgr.pagesPerPIP ∧
      Searched mgr request sequence pip start (searchStart request pip) pos s' ∧
      (s'.toAlloc = 0 ∨ s'.toAlloc ≠ 0 ∧ pos = mgr.pagesPerPIP) := by
  have hppp := mgr.pagesPerPIP_eq
  have hle : (if pagesInExtent ≤ request.cntAlloc then pip.pipExtent else pip.pipMin) ≤ mgr.pagesPerPIP := by
    split
    · exact hmarked.extent_le
    · exact hmarked.min_le
  exact scanBytes_spec hs (by omega) (searched_start hs hmarked) (Nat.pos_iff_ne_zero.mp hs.cnt_pos) hstep

end Firebird.Pag
