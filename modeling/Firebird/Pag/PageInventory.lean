import Firebird.Dpm.DataPage

/-! # Page inventory pages

The pages of a page space (`src/jrd/ods.h`, `src/jrd/pag.cpp`): each inventory page has one bit for
each of the next `pagesPerPIP` pages, set while the page is free. Here is how much room the file has
(`PageSpace::extend`, `ensureDiskSpace`); page numbers are computed in 32 bits. -/

namespace Firebird.Pag

open List

open Firebird.Dpm (Dbb)

def maxUlong : Nat := 4294967295
def ulongSize : Nat := 4294967296
def ushortSize : Nat := 65536

def ulong (x : Nat) : Nat := x % ulongSize
def ushort (x : Nat) : Nat := x % ushortSize

def pagesInExtent : Nat := 8
def firstPipPage : Nat := 1
def firstScnPage : Nat := 2
def minExtendBytes : Nat := 131072
def offsetofPipBits : Nat := 28
def bitsPerLong : Nat := 32

/-- What the page allocation reads of the database and of the page space's kind. -/
structure PageManager where
  dbb : Dbb
  temporary : Bool
  /-- The configured `DatabaseGrowthIncrement`, in bytes. -/
  growthIncrement : Nat

namespace PageManager

def bytesBitPIP (mgr : PageManager) : Nat := mgr.dbb.pageSize - offsetofPipBits
def pagesPerPIP (mgr : PageManager) : Nat := mgr.bytesBitPIP * 8
def pagesPerSCN (mgr : PageManager) : Nat := mgr.pagesPerPIP / bitsPerLong

def pageOf (mgr : PageManager) (sequence bit : Nat) : Nat := ulong (bit + sequence * mgr.pagesPerPIP)

end PageManager

structure PageInvPage where
  pipMin : Nat
  pipExtent : Nat
  pipUsed : Nat
  /-- The bits of `pip_bits`, byte after byte from the lowest bit on; one that is set means a free page. -/
  pipBits : Nat → Bool

namespace PageInvPage

def clearBit (pip : PageInvPage) (bit : Nat) : PageInvPage :=
  { pip with pipBits := fun i => if i = bit then false else pip.pipBits i }

def setBit (pip : PageInvPage) (bit : Nat) : PageInvPage :=
  { pip with pipBits := fun i => if i = bit then true else pip.pipBits i }

def clearBits (pip : PageInvPage) (bits : List Nat) : PageInvPage := bits.foldl clearBit pip

def byteIsZero (pip : PageInvPage) (byte : Nat) : Bool :=
  (range 8).all fun i => !pip.pipBits (byte * 8 + i)

/-- The byte is `0xFF`: every page of the extent is free. -/
def byteIsFull (pip : PageInvPage) (byte : Nat) : Bool :=
  (range 8).all fun i => pip.pipBits (byte * 8 + i)

section
variable (pip : PageInvPage)

@[simp] theorem clearBit_pipBits (bit i : Nat) :
    (pip.clearBit bit).pipBits i = if i = bit then false else pip.pipBits i := rfl

theorem byteIsFull_iff (byte : Nat) : pip.byteIsFull byte = true ↔ ∀ i, i < 8 → pip.pipBits (byte * 8 + i) = true := by
  simp [byteIsFull, all_eq_true]

theorem byteIsZero_iff (byte : Nat) : pip.byteIsZero byte = true ↔ ∀ i, i < 8 → pip.pipBits (byte * 8 + i) = false := by
  simp [byteIsZero, all_eq_true]

theorem clearBits_pipBits (bits : List Nat) (i : Nat) :
    (pip.clearBits bits).pipBits i = if i ∈ bits then false else pip.pipBits i := by
  induction bits generalizing pip with
  | nil => simp [clearBits]
  | cons bit bits ih =>
    rw [clearBits, foldl_cons, ← clearBits, ih]
    by_cases h : i = bit <;> by_cases h' : i ∈ bits <;> simp [h, h']

@[simp] theorem clearBits_pipMin (bits : List Nat) : (pip.clearBits bits).pipMin = pip.pipMin := by
  induction bits generalizing pip with
  | nil => rfl
  | cons bit bits ih => exact ih (pip.clearBit bit)

@[simp] theorem clearBits_pipExtent (bits : List Nat) : (pip.clearBits bits).pipExtent = pip.pipExtent := by
  induction bits generalizing pip with
  | nil => rfl
  | cons bit bits ih => exact ih (pip.clearBit bit)

@[simp] theorem clearBits_pipUsed (bits : List Nat) : (pip.clearBits bits).pipUsed = pip.pipUsed := by
  induction bits generalizing pip with
  | nil => rfl
  | cons bit bits ih => exact ih (pip.clearBit bit)

end

end PageInvPage

/-- What the operating system does with a request to extend the file or to write pages behind its end:
    it does it, says that it cannot, or fails after some pages. -/
inductive DiskAnswer
  | done | unsupported | failed (pages : Nat)

structure File where
  /-- Its length in pages. -/
  pages : Nat
  noFastExtend : Bool
  /-- The length last seen. -/
  maxPageNumber : Nat
  /-- The answers of the operating system from now on; without an answer it does what it is asked. -/
  answers : List DiskAnswer

namespace File

def answer (file : File) : DiskAnswer × File :=
  (file.answers.headD .done, { file with answers := file.answers.tail })

def maxAlloc (file : File) : Nat × File :=
  (file.pages, { file with maxPageNumber := max file.maxPageNumber file.pages })

/-- `PIO_extend`; no result means that it raised an error. -/
def pioExtend (file : File) (extPages : Nat) : Option Bool × File :=
  if file.noFastExtend then (some false, file)
  else
    match file.answer with
    | (.done, file) => (some true, { file with pages := file.pages + min (maxUlong - file.pages) extPages })
    | (.unsupported, file) => (some false, { file with noFastExtend := true })
    | (.failed pages, file) => (none, { file with pages := file.pages + pages })

def pioInitData (file : File) (startPage initPages : Nat) : Nat × File :=
  if startPage < 8 then (0, file)
  else
    match file.answer with
    | (.done, file) => (initPages, { file with pages := max file.pages (startPage + initPages) })
    | (.unsupported, file) => (0, file)
    | (.failed pages, file) => (0, { file with pages := max file.pages (startPage + min pages initPages) })

def writePage (file : File) (page : Nat) : Option Unit × File :=
  match file.answer with
  | (.done, file) => (some (), { file with pages := max file.pages (page + 1) })
  | (_, file) => (none, file)

/-- The loop of `PageSpace::extend`: with less pages after each error. -/
def extendLoop (forceSize : Bool) (reqPages extPages : Nat) (file : File) : Nat × File :=
  match file.pioExtend extPages with
  | (some true, file) => (extPages, { file with maxPageNumber := 0 })
  | (some false, file) => (0, file)
  | (none, failed) =>
    if reqPages < extPages ∧ forceSize = false then
      if file.maxPageNumber < failed.maxAlloc.1 then (failed.maxAlloc.1 - file.maxPageNumber, failed.maxAlloc.2)
      else extendLoop forceSize reqPages (max reqPages (extPages / 2)) failed.maxAlloc.2
    else (0, failed)
termination_by extPages

end File

namespace PageManager
variable (mgr : PageManager)

def extend (file : File) (pageNum : Nat) (forceSize : Bool) : Nat × File :=
  if file.noFastExtend then (0, file)
  else if pageNum < file.maxPageNumber then (file.maxPageNumber - pageNum, file)
  else
    let (nPages, file) := file.maxAlloc
    if pageNum < nPages then (file.maxPageNumber - pageNum, file)
    else
      let maxExtendBytes := ulong mgr.growthIncrement
      let forceSize := forceSize || maxExtendBytes < minExtendBytes
      let reqPages := pageNum - file.maxPageNumber + 1
      let minExtendPages := minExtendBytes / mgr.dbb.pageSize
      let maxExtendPages := maxExtendBytes / mgr.dbb.pageSize
      let extPages := if forceSize then reqPages
        else max reqPages (min (max (file.maxPageNumber / 16) minExtendPages) maxExtendPages)
      file.extendLoop forceSize reqPages extPages

/-- How many pages `ensureDiskSpace` asks for. -/
def initPages (sequence relativeBit pipUsed : Nat) : Nat :=
  let minExtendPages := minExtendBytes / mgr.dbb.pageSize
  let initPages :=
    if mgr.dbb.noReserve then 1
    else
      let initPages := if sequence ≠ 0 then 64 else ushort (min (pipUsed / 16) 64)
      let initPages := ushort (min initPages (mgr.pagesPerPIP - pipUsed))
      if initPages < minExtendPages then 1 else initPages
  if initPages < relativeBit + 1 - pipUsed then ushort (relativeBit + 1 - pipUsed) else initPages

/-- Extend the file, or else write zeros at its end. The result is the number of pages got. -/
def extendOrInit (file : File) (usedPages initPages : Nat) : Nat × File :=
  let (allocatedPages, file) := mgr.extend file (usedPages + initPages) mgr.dbb.noReserve
  if allocatedPages ≠ 0 then (ushort allocatedPages, file) else file.pioInitData usedPages initPages

end PageManager

/-- A request for disk space: the file when it was made, the page number wanted and the pages that
    `pip_used` falls short. -/
structure DiskRequest where
  file : File
  pageNum : Nat
  missing : Nat

/-- The answer of `extend`, in 16 bits, is nothing or at least the pages that are missing. -/
def DiskRequest.Covers (mgr : PageManager) (request : DiskRequest) : Prop :=
  let extended := ushort (mgr.extend request.file request.pageNum mgr.dbb.noReserve).1
  extended = 0 ∨ request.missing ≤ extended

instance (mgr : PageManager) (request : DiskRequest) : Decidable (request.Covers mgr) :=
  inferInstanceAs (Decidable (_ ∨ _))

structure Disk where
  file : File
  requests : List DiskRequest

/-- `ensureDiskSpace`: the new `pip_used`; no result means that it raised an error. `stalled` says that
    a backup has locked the file. -/
def ensureDiskSpace (mgr : PageManager) (stalled : Bool) (disk : Disk) (pageNum pipUsed : Nat) : Option Nat × Disk :=
  let sequence := pageNum / mgr.pagesPerPIP
  let relativeBit := pageNum - sequence * mgr.pagesPerPIP
  if relativeBit < pipUsed then (some pipUsed, disk)
  else if stalled then (some (relativeBit + 1), disk)
  else
    let initPages := mgr.initPages sequence relativeBit pipUsed
    let usedPages := sequence * mgr.pagesPerPIP + pipUsed
    let request : DiskRequest := ⟨disk.file, usedPages + initPages, relativeBit + 1 - pipUsed⟩
    let requests := request :: disk.requests
    match mgr.extendOrInit disk.file usedPages initPages with
    | (0, file) =>
      match file.writePage pageNum with
      | (none, file) => (none, ⟨file, requests⟩)
      | (some (), file) => (some (relativeBit + 1), ⟨file, requests⟩)
    | (initPages, file) => (some (min (pipUsed + initPages) mgr.pagesPerPIP), ⟨file, requests⟩)

end Firebird.Pag
