import Firebird.Pag.PageInventory

/-! # Allocation and release of pages

`PAG_format_pip`, `PAG_allocate_pages` and `PAG_release_pages` of `src/jrd/pag.cpp`. -/

namespace Firebird.Pag

open List

structure ScnsPage where
  page : Nat
  scnSequence : Nat

structure PageSpace where
  pips : List PageInvPage
  scns : List ScnsPage
  pipHighWater : Nat
  pipWithExtent : Nat
  disk : Disk

/-- The arguments of `PAG_allocate_pages`, and what it meets outside: whether a backup has locked the
    file, and the bit right behind the buffer of an inventory page. -/
structure Request where
  cntAlloc : Nat
  aligned : Bool
  stalled : Bool
  pastEnd : Bool

/-- The variables of the search of one inventory page. -/
structure Search where
  toAlloc : Nat
  firstBit : Nat
  lastBit : Nat
  pipUsed : Nat
  pipMin : Nat
  pipExtent : Nat
  extraPages : List Nat
  space : PageSpace

/-- How the loop over the bits of a byte goes on. -/
inductive Flow
  | next | leave | raised
  deriving DecidableEq

def newPip : PageInvPage := { pipMin := 0, pipExtent := 0, pipUsed := 0, pipBits := fun _ => true }

namespace PageSpace

def setPip (space : PageSpace) (sequence : Nat) (pip : PageInvPage) : PageSpace :=
  { space with pips := space.pips.set sequence pip }

/-- A new inventory page is written behind the one that describes it. -/
def putPip (space : PageSpace) (sequence : Nat) (pip : PageInvPage) : PageSpace :=
  { space with pips := space.pips.take sequence ++ pip :: space.pips.drop (sequence + 1) }

end PageSpace

section
variable (mgr : PageManager) (request : Request) (sequence : Nat) (pip : PageInvPage)

def isNewSCN (pageNum : Nat) : Bool := !mgr.temporary && pageNum % mgr.pagesPerSCN == 0

def isNewPIP (bit : Nat) : Bool := bit == mgr.pagesPerPIP - 1

/-- The page is one of the database's own. -/
def isOwn (bit : Nat) : Bool := isNewSCN mgr (mgr.pageOf sequence bit) || isNewPIP mgr bit

/-- A new page of page numbers or a new inventory page, or both, is written. -/
def formatExtra (bit : Nat) (space : PageSpace) : PageSpace :=
  let pageNum := mgr.pageOf sequence bit
  let space :=
    if isNewSCN mgr pageNum then { space with scns := ⟨pageNum, pageNum / mgr.pagesPerSCN⟩ :: space.scns } else space
  if isNewPIP mgr bit then space.putPip (sequence + 1) newPip else space

/-- A page of the database's own, met while it is free: it is made and allocated. -/
def allocateExtra (bit : Nat) (s : Search) : Search × Flow :=
  let pageNum := mgr.pageOf sequence bit
  match (if s.pipUsed < bit + 1 then ensureDiskSpace mgr request.stalled s.space.disk pageNum s.pipUsed
    else (some s.pipUsed, s.space.disk)) with
  | (none, disk) => ({ s with space := { s.space with disk := disk } }, .raised)
  | (some pipUsed, disk) =>
    ({ s with
        lastBit := bit
        pipUsed := pipUsed
        space := formatExtra mgr sequence bit { s.space with disk := disk }
        extraPages := s.extraPages ++ [bit]
        pipMin := if s.pipMin = bit then s.pipMin + 1 else s.pipMin
        toAlloc := request.cntAlloc },
      if isNewSCN mgr pageNum then .next else .leave)

/-- A free page that can be part of the pages to allocate. -/
def takePage (byte i : Nat) (s : Search) : Search × Flow :=
  let bit := byte * 8 + i
  let s := { s with
    lastBit := bit
    pipMin := if bit < s.pipMin then bit else s.pipMin
    pipExtent := if i = 7 ∧ pip.byteIsFull byte ∧ bit - 7 < s.pipExtent then bit - 7 else s.pipExtent }
  if s.toAlloc = request.cntAlloc ∧ request.aligned ∧ mgr.pageOf sequence bit % pagesInExtent ≠ 0 then (s, .next)
  else
    let s := { s with
      firstBit := if s.toAlloc = request.cntAlloc then bit else s.firstBit
      toAlloc := s.toAlloc - 1 }
    (s, if s.toAlloc = 0 then .leave else .next)

def scanBit (byte i : Nat) (s : Search) : Search × Flow :=
  let bit := byte * 8 + i
  if pip.pipBits bit then
    if isOwn mgr sequence bit then allocateExtra mgr request sequence bit s
    else takePage mgr request sequence pip byte i s
  else ({ s with toAlloc := request.cntAlloc }, .next)

def scanBits (byte : Nat) : List Nat → Search → Search × Flow
  | [], s => (s, .leave)
  | i :: rest, s =>
    match scanBit mgr request sequence pip byte i s with
    | (s, .next) => scanBits byte rest s
    | (s, flow) => (s, flow)

/-- The bytes of the inventory page; the flag says that an error was raised. -/
def scanBytes : List Nat → Search → Search × Bool
  | [], s => (s, false)
  | byte :: rest, s =>
    if pip.byteIsZero byte then scanBytes rest { s with toAlloc := request.cntAlloc }
    else
      match scanBits mgr request sequence pip byte (range 8) s with
      | (s, .raised) => (s, true)
      | (s, _) => if s.toAlloc = 0 then (s, false) else scanBytes rest s

def startSearch (space : PageSpace) : Search where
  toAlloc := request.cntAlloc
  firstBit := maxUlong
  lastBit := maxUlong
  pipUsed := pip.pipUsed
  pipMin := if pagesInExtent ≤ request.cntAlloc then pip.pipMin else mgr.pagesPerPIP
  pipExtent := maxUlong
  extraPages := []
  space := space

/-- The search of one inventory page, from the byte with the lowest page that may be free on. -/
def searchPip (space : PageSpace) : Search × Bool :=
  let freeBit := if pagesInExtent ≤ request.cntAlloc then pip.pipExtent else pip.pipMin
  scanBytes mgr request sequence pip (range' (freeBit / 8) (mgr.bytesBitPIP - freeBit / 8))
    (startSearch mgr request pip space)

/-- A bit of the inventory page as the code reads it, also when it is the one right behind the page. -/
def readBit (pip : PageInvPage) (bit : Nat) : Bool :=
  if bit < mgr.pagesPerPIP then pip.pipBits bit else request.pastEnd

/-- The extent behind a page, or the one before it if a page of page numbers is still to be made there. -/
def extentToScn (lastBit : Nat) (pip : PageInvPage) : Nat :=
  let pipExtent := (lastBit + 1 + 7) / 8 * 8
  let firstPage := mgr.pageOf sequence lastBit
  let lastPage := mgr.pageOf sequence pipExtent
  if firstPage / mgr.pagesPerSCN ≠ lastPage / mgr.pagesPerSCN ∧
      readBit mgr request pip (pipExtent - lastPage % mgr.pagesPerSCN) then pipExtent - pagesInExtent
  else pipExtent

/-- The new mark of the lowest free extent when pages of the marked one are allocated. -/
def extentBehind (lastBit : Nat) (pip : PageInvPage) : Nat :=
  let pipExtent := extentToScn mgr request sequence lastBit pip
  if pipExtent = mgr.pagesPerPIP ∧ pip.pipBits ((mgr.bytesBitPIP - 1) * 8 + 7) then pipExtent - 1 else pipExtent

def seenExtent (s : Search) : Nat := if s.pipExtent = maxUlong then pip.pipExtent else s.pipExtent

def takeFound (s : Search) : PageInvPage × Nat × Nat :=
  let allocated := pip.clearBits (range' s.firstBit (s.lastBit + 1 - s.firstBit))
  let pipMin := min s.pipMin s.firstBit
  let pipMin := if pipMin = s.firstBit then s.lastBit + 1 else pipMin
  let pipExtent := seenExtent pip s
  let extentByte := pipExtent / pagesInExtent
  let pipExtent :=
    if s.firstBit / pagesInExtent ≤ extentByte ∧ extentByte ≤ s.lastBit / pagesInExtent then
      extentBehind mgr request sequence s.lastBit allocated
    else pipExtent
  (allocated, pipMin, pipExtent)

def notFound (s : Search) : PageInvPage × Nat × Nat :=
  (pip, if request.cntAlloc = 1 then mgr.pagesPerPIP else s.pipMin,
    if s.pipExtent = maxUlong then mgr.pagesPerPIP else s.pipExtent)

/-- Raise a hint past an inventory page that it names. -/
def compareExchange (counter sequence : Nat) : Nat := if counter = sequence then sequence + 1 else counter

def writePip (s : Search) (found : PageInvPage × Nat × Nat) (pipUsed : Nat) : PageInvPage :=
  let (pip, pipMin, pipExtent) := found
  if pipMin ≠ pip.pipMin ∨ pipExtent ≠ pip.pipExtent ∨ pipUsed ≠ pip.pipUsed ∨ s.extraPages ≠ [] then
    { pip with pipMin := pipMin, pipExtent := pipExtent, pipUsed := pipUsed }.clearBits s.extraPages
  else pip

def leavePip (s : Search) (found : PageInvPage × Nat × Nat) (pipUsed : Nat) (disk : Disk) : PageSpace :=
  let space := { s.space with
    pipHighWater :=
      if mgr.pagesPerPIP ≤ found.2.1 then compareExchange s.space.pipHighWater sequence else s.space.pipHighWater
    pipWithExtent :=
      if mgr.pagesPerPIP ≤ found.2.2 then compareExchange s.space.pipWithExtent sequence else s.space.pipWithExtent
    disk := disk }
  space.setPip sequence (writePip s found pipUsed)

end

/-- What a call returns: the first page of the pages allocated; nothing was asked for; an error of the
    disk; an inventory page that does not exist; or the search has not come to an end. -/
inductive Answer
  | page (first : Nat) | noPage | raised | badPage | endless

section
variable (mgr : PageManager) (request : Request)

def allocateFrom : Nat → Nat → PageSpace → PageSpace × Answer
  | 0, _, space => (space, .endless)
  | fuel + 1, sequence, space =>
    match space.pips[sequence]? with
    | none => (space, .badPage)
    | some pip =>
      let (s, raised) := searchPip mgr request sequence pip space
      if raised then (s.space, .raised)
      else if s.toAlloc = 0 then
        match (if s.pipUsed < s.lastBit + 1 then
            ensureDiskSpace mgr request.stalled s.space.disk (mgr.pageOf sequence s.lastBit) s.pipUsed
          else (some s.pipUsed, s.space.disk)) with
        | (none, disk) => ({ s.space with disk := disk }, .raised)
        | (some pipUsed, disk) =>
          (leavePip mgr sequence s (takeFound mgr request sequence pip s) pipUsed disk,
            .page (mgr.pageOf sequence s.firstBit))
      else allocateFrom fuel (sequence + 1)
        (leavePip mgr sequence s (notFound mgr request pip s) s.pipUsed s.space.disk)

def pagAllocatePages (space : PageSpace) : PageSpace × Answer :=
  if request.cntAlloc = 0 then (space, .noPage)
  else
    let sequence := if pagesInExtent ≤ request.cntAlloc then space.pipWithExtent else space.pipHighWater
    allocateFrom mgr request (space.pips.length + 2) sequence space

end

section
variable (mgr : PageManager)

/-- The hints are lowered when the release leaves an inventory page. -/
def lowerHints (sequence : Nat) (space : PageSpace) : PageSpace :=
  match space.pips[sequence]? with
  | none => space
  | some pages =>
    { space with
      pipHighWater := min space.pipHighWater sequence
      pipWithExtent :=
        if pages.pipExtent < mgr.pagesPerPIP then min space.pipWithExtent sequence else space.pipWithExtent }

def releaseBit (bit : Nat) (pages : PageInvPage) : PageInvPage :=
  let pages := pages.setBit bit
  { pages with
    pipExtent := if pages.byteIsFull (bit / 8) then min pages.pipExtent (bit / 8 * 8) else pages.pipExtent
    pipMin := min pages.pipMin bit }

/-- The inventory page at hand is left if the next page belongs to another one. -/
def leaveFor (seq : Nat) (sequence : Option Nat) (space : PageSpace) : PageSpace :=
  match sequence with
  | none => space
  | some sequence => if seq ≠ sequence then lowerHints mgr sequence space else space

/-- The loop over the pages to release; `sequence` is the inventory page at hand. -/
def releaseFrom : List Nat → Option Nat → PageSpace → PageSpace × Bool
  | [], none, space => (space, true)
  | [], some sequence, space => (lowerHints mgr sequence space, true)
  | pgNum :: rest, sequence, space =>
    let seq := pgNum / mgr.pagesPerPIP
    let space := leaveFor mgr seq sequence space
    match space.pips[seq]? with
    | none => (space, false)
    | some pages => releaseFrom rest (some seq) (space.setPip seq (releaseBit (pgNum % mgr.pagesPerPIP) pages))

/-- The flag says that every inventory page exists. -/
def pagReleasePages (pgNums : List Nat) (space : PageSpace) : PageSpace × Bool := releaseFrom mgr pgNums none space

/-- `PAG_format_pip`: the first pages of a page space in a file. -/
def pagFormatPip (file : File) : PageSpace :=
  let pipUsed := (if mgr.temporary then firstPipPage else firstScnPage) + 1
  { pips := [{
      pipMin := pipUsed
      pipExtent := 0
      pipUsed := pipUsed
      pipBits := fun i => !(i == 0 || i == firstPipPage || (!mgr.temporary && i == firstScnPage)) }]
    scns := if mgr.temporary then [] else [⟨firstScnPage, 0⟩]
    pipHighWater := 0
    pipWithExtent := 0
    disk := ⟨file, []⟩ }

end

/-! ### Disk space for the pages of an inventory page

`ensureDiskSpace` never lowers `pip_used` and keeps it within the inventory page; if `extend` answers
as many pages as were missing, the page it was called for is below the new `pip_used`. -/

/-- Every request for disk space was answered with the pages that were missing. -/
def Disk.Covered (mgr : PageManager) (disk : Disk) : Prop := ∀ request ∈ disk.requests, request.Covers mgr

instance (mgr : PageManager) (disk : Disk) : Decidable (disk.Covered mgr) :=
  inferInstanceAs (Decidable (∀ request ∈ disk.requests, request.Covers mgr))

namespace PageManager
variable (mgr : PageManager)

theorem bytesBitPIP_bounds : 8164 ≤ mgr.bytesBitPIP ∧ mgr.bytesBitPIP ≤ 32740 ∧ mgr.bytesBitPIP % 4 = 0 := by
  have hmin : 8192 ≤ mgr.dbb.pageSize := mgr.dbb.pageSize_min
  have hmax : mgr.dbb.pageSize ≤ 32768 := mgr.dbb.pageSize_max
  have haligned : 4 ∣ mgr.dbb.pageSize := mgr.dbb.pageSize_aligned
  unfold bytesBitPIP offsetofPipBits
  omega

theorem pagesPerPIP_eq : mgr.pagesPerPIP = mgr.bytesBitPIP * 8 := rfl

theorem pagesPerPIP_bounds : 65312 ≤ mgr.pagesPerPIP ∧ mgr.pagesPerPIP ≤ 261920 := by
  have h := mgr.bytesBitPIP_bounds
  unfold pagesPerPIP
  omega

theorem pagesPerPIP_eq_pagesPerSCN : mgr.pagesPerPIP = 32 * mgr.pagesPerSCN := by
  have h := mgr.bytesBitPIP_bounds
  unfold pagesPerSCN bitsPerLong pagesPerPIP
  omega

section
variable {sequence bit : Nat} (hbit : bit < mgr.pagesPerPIP)
include hbit

theorem pageOf_eq (hroom : (sequence + 1) * mgr.pagesPerPIP ≤ ulongSize) :
    mgr.pageOf sequence bit = bit + sequence * mgr.pagesPerPIP := by
  rw [Nat.add_mul] at hroom
  exact Nat.mod_eq_of_lt (by omega)

theorem page_div : (bit + sequence * mgr.pagesPerPIP) / mgr.pagesPerPIP = sequence := by
  rw [Nat.add_mul_div_right _ _ (by omega), Nat.div_eq_of_lt hbit, Nat.zero_add]

theorem page_mod : (bit + sequence * mgr.pagesPerPIP) % mgr.pagesPerPIP = bit := by
  rw [Nat.add_mul_mod_self_right, Nat.mod_eq_of_lt hbit]

end

theorem missing_le_initPages (sequence relativeBit pipUsed : Nat) (h : relativeBit + 1 - pipUsed < ushortSize) :
    relativeBit + 1 - pipUsed ≤ mgr.initPages sequence relativeBit pipUsed := by
  unfold initPages
  by_cases hasked : (if mgr.dbb.noReserve then 1 else
      if ushort (min (if sequence ≠ 0 then 64 else ushort (min (pipUsed / 16) 64)) (mgr.pagesPerPIP - pipUsed)) <
        minExtendBytes / mgr.dbb.pageSize then 1
      else ushort (min (if sequence ≠ 0 then 64 else ushort (min (pipUsed / 16) 64)) (mgr.pagesPerPIP - pipUsed))) <
      relativeBit + 1 - pipUsed
  · rw [if_pos hasked]
    exact Nat.le_of_eq (Nat.mod_eq_of_lt h).symm
  · rw [if_neg hasked]
    exact Nat.le_of_not_lt hasked

theorem extendOrInit_fst (file : File) {usedPages initPages missing : Nat} (hmissing : missing ≤ initPages)
    (hcovers : DiskRequest.Covers mgr ⟨file, usedPages + initPages, missing⟩) :
    (mgr.extendOrInit file usedPages initPages).1 = 0 ∨ missing ≤ (mgr.extendOrInit file usedPages initPages).1 := by
  unfold extendOrInit
  dsimp only
  split
  case isTrue => exact hcovers
  case isFalse =>
    unfold File.pioInitData
    split
    · exact .inl rfl
    · split
      · exact .inr hmissing
      all_goals exact .inl rfl

end PageManager

variable {mgr : PageManager} {sequence bit pipUsed u : Nat} {stalled : Bool} {disk disk' : Disk}

theorem Disk.Covered.of_cons {file : File} {request : DiskRequest}
    (h : Disk.Covered mgr ⟨file, request :: disk.requests⟩) : request.Covers mgr ∧ disk.Covered mgr :=
  ⟨h request (mem_cons_self ..), fun r hr => h r (mem_cons_of_mem _ hr)⟩

theorem ensureDiskSpace_raised {pageNum : Nat} (h : ensureDiskSpace mgr stalled disk pageNum pipUsed = (none, disk'))
    (hcovered : disk'.Covered mgr) : disk.Covered mgr := by
  unfold ensureDiskSpace at h
  dsimp only at h
  split at h
  · cases h
  · split at h
    · cases h
    · split at h
      · split at h <;> cases h
        exact hcovered.of_cons.2
      · cases h

theorem ensureDiskSpace_spec (hbit : bit < mgr.pagesPerPIP) (hused : pipUsed ≤ mgr.pagesPerPIP)
    (h : ensureDiskSpace mgr stalled disk (bit + sequence * mgr.pagesPerPIP) pipUsed = (some u, disk')) :
    pipUsed ≤ u ∧ u ≤ mgr.pagesPerPIP ∧
      (disk'.Covered mgr → disk.Covered mgr ∧ (bit + 1 - pipUsed < ushortSize → bit < u)) := by
  unfold ensureDiskSpace at h
  rw [mgr.page_div hbit] at h
  dsimp only at h
  rw [Nat.add_sub_cancel] at h
  split at h
  case isTrue hlt =>
    cases h
    exact ⟨Nat.le_refl _, hused, fun hcovered => ⟨hcovered, fun _ => hlt⟩⟩
  case isFalse hlt =>
    split at h
    · cases h
      exact ⟨by omega, by omega, fun hcovered => ⟨hcovered, fun _ => by omega⟩⟩
    · split at h
      · split at h <;> cases h
        exact ⟨by omega, by omega, fun hcovered => ⟨hcovered.of_cons.2, fun _ => by omega⟩⟩
      case h_2 initPages file hne hgot =>
        cases h
        refine ⟨by omega, Nat.min_le_right _ _, fun hcovered => ⟨hcovered.of_cons.2, fun hmissing => ?_⟩⟩
        have hcovers := mgr.extendOrInit_fst _ (mgr.missing_le_initPages sequence bit pipUsed
          hmissing) hcovered.of_cons.1
        rw [hgot] at hcovers
        have hpos : initPages ≠ 0 := hne
        omega

end Firebird.Pag
