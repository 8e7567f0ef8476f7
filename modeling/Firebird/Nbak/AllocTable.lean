import Firebird.Lib.Run

/-! # The allocation table of the difference file

While a database is locked for a backup, its pages are written to a difference file. The file begins with an
allocation page, which tells of each page behind it what it stands for; the next one follows when it is full
(`actualizeAlloc`, `findPageIndex`, `getPageIndex` and `allocateDifferencePage` in `src/jrd/nbak.cpp`). Each process
keeps the table in memory, and rereads it when it gets the lock of the table (`GlobalRWLock`) without having kept it. -/

namespace Firebird.Nbak

/-- A page size, which is a power of 2. -/
structure PageSize where
  dbbPageSize : Nat
  shift : Nat
  isPower : dbbPageSize = 2 ^ shift * 4
  shift_pos : 2 ≤ shift

namespace PageSize
variable (psize : PageSize)

/-- The numbers that a page has room for. -/
def words : Nat := psize.dbbPageSize / 4

def pagesPerAllocPage : Nat := psize.words - 1

/-- The allocation page for a page of the difference file: the bits of the mask are cleared. -/
def allocPage (page : Nat) : Nat := page - (page &&& psize.pagesPerAllocPage)

end PageSize

/-- The difference file: its pages, each as a list of numbers, and how many it has. -/
structure DiffFile where
  pages : Nat → Nat → Nat
  length : Nat

namespace DiffFile

def read (file : DiffFile) (page : Nat) : Option (Nat → Nat) :=
  if page < file.length then some (file.pages page) else none

def write (file : DiffFile) (page : Nat) (words : Nat → Nat) : DiffFile where
  pages := fun p => if p = page then words else file.pages p
  length := max file.length (page + 1)

end DiffFile

/-- The physical level of a process's lock of the table. -/
inductive LockLevel
  | none | read | write
  deriving DecidableEq

/-- What a process keeps: the table, the last page it knows of in the difference file, and the
    allocation page as it was last read or written. -/
structure BackupManager where
  allocTable : Nat → Option Nat
  lastAllocatedPage : Nat
  allocBuffer : Nat → Nat
  cachedLock : LockLevel

def emptyBuffer : Nat → Nat := fun _ => 0

namespace BackupManager

def initial : BackupManager where
  allocTable := fun _ => none
  lastAllocatedPage := 0
  allocBuffer := emptyBuffer
  cachedLock := .none

def add (dbPage diffPage : Nat) (table : Nat → Option Nat) : Option (Nat → Option Nat) :=
  if (table dbPage).isSome then none else some fun p => if p = dbPage then some diffPage else table p

/-- The loop over the entries of an allocation page, from the first one that is not known. No result
    means that an entry is there already. -/
def addEntries (base : Nat) (words : Nat → Nat) : List Nat → (Nat → Option Nat) → Option (Nat → Option Nat)
  | [], table => some table
  | i :: rest, table => (add (words (i + 1)) (base + i + 1) table).bind (addEntries base words rest)

section
variable (psize : PageSize) (file : DiffFile)

/-- The loop of `actualizeAlloc`; the result says whether it succeeds, no result that it does not come to an end. -/
def actualizeFrom (haveGlobalLock : Bool) : Nat → BackupManager → Option (Bool × BackupManager)
  | 0, _ => none
  | fuel + 1, manager =>
    let base := psize.allocPage manager.lastAllocatedPage
    match file.read base with
    | none => some (false, manager)
    | some words =>
      let manager := { manager with allocBuffer := words }
      if haveGlobalLock = false ∧ words 0 ≠ psize.pagesPerAllocPage then some (true, manager)
      else
        let first := manager.lastAllocatedPage - base
        match addEntries base words (List.range' first (words 0 - first)) manager.allocTable with
        | none => some (false, manager)
        | some allocTable =>
          if words 0 = psize.pagesPerAllocPage then
            actualizeFrom haveGlobalLock fuel
              { manager with allocTable := allocTable, lastAllocatedPage := base + words 0 + 1 }
          else some (true, { manager with allocTable := allocTable, lastAllocatedPage := base + words 0 })

/-- `actualizeAlloc`: each turn of its loop reads a later page of the file. -/
def actualizeAlloc (haveGlobalLock : Bool) (manager : BackupManager) : Option (Bool × BackupManager) :=
  actualizeFrom psize file haveGlobalLock (file.length + 1) manager

end

/-- Which of the page writes of an allocation succeed: the page that is allocated, the next allocation
    page and the allocation page with the new entry. -/
structure Writes where
  grow : Bool
  nextAlloc : Bool
  item : Bool

/-- `alloc_buffer[++alloc_buffer[0]] = db_page` -/
def append (buffer : Nat → Nat) (dbPage : Nat) : Nat → Nat :=
  fun i => if i = buffer 0 + 1 then dbPage else if i = 0 then buffer 0 + 1 else buffer i

/-- `allocateDifferencePage` under the lock, for a page without an entry. The result is zero after an error. -/
def allocate (psize : PageSize) (dbPage : Nat) (writes : Writes) (file : DiffFile) (manager : BackupManager) :
    Nat × DiffFile × BackupManager :=
  let last := manager.lastAllocatedPage
  if writes.grow = false then (0, file, manager)
  else
    let file := file.write (last + 1) emptyBuffer
    let allocPageFull := manager.allocBuffer 0 = psize.words - 2
    if allocPageFull ∧ writes.nextAlloc = false then (0, file, manager)
    else
      let file := if allocPageFull then file.write (last + 2) emptyBuffer else file
      let buffer := append manager.allocBuffer dbPage
      if writes.item = false then (0, file, { manager with allocBuffer := buffer })
      else
        let file := file.write (psize.allocPage last) buffer
        let table := (add dbPage (last + 1) manager.allocTable).getD manager.allocTable
        if allocPageFull then
          (last + 1, file,
            { manager with allocTable := table, lastAllocatedPage := last + 2, allocBuffer := emptyBuffer })
        else
          (last + 1, file, { manager with allocTable := table, lastAllocatedPage := last + 1, allocBuffer := buffer })

end BackupManager

/-- A pair of a database page and the difference page it was told. -/
structure AllocItem where
  dbPage : Nat
  diffPage : Nat
  deriving DecidableEq

/-- The difference file with the processes that use it, and what the calls of `allocateDifferencePage` returned. -/
structure Backup (ι : Type*) where
  diffFile : DiffFile
  process : ι → BackupManager
  returned : List AllocItem

inductive Op (ι : Type*)
  | allocateDifferencePage (process : ι) (dbPage : Nat) (writes : BackupManager.Writes)
  | getPageIndex (process : ι) (dbPage : Nat)
  /-- A page is written where the process's table has it. -/
  | writeDifference (process : ι) (dbPage : Nat) (page : Nat → Nat)
  /-- `actualizeAlloc` without the lock, at startup. -/
  | initializeAlloc (process : ι)
  /-- The lock is given up for others. -/
  | releaseLock (process : ι)

namespace Backup
variable {ι : Type*} [DecidableEq ι] (psize : PageSize)

def setProcess (s : Backup ι) (p : ι) (manager : BackupManager) : Backup ι :=
  { s with process := fun q => if q = p then manager else s.process q }

def lower (p : ι) (level : LockLevel → LockLevel) (s : Backup ι) : Backup ι :=
  { s with process := fun q =>
    if q = p then s.process q else { s.process q with cachedLock := level (s.process q).cachedLock } }

/-- Others give up a lock for writing for one who wants to read. -/
def readable : LockLevel → LockLevel
  | .write => .read
  | level => level

/-- The lock is granted and the table is reread. No result means a bugcheck. -/
def fetch (p : ι) (level : LockLevel) (s : Backup ι) : Option (Backup ι) :=
  match (s.process p).actualizeAlloc psize s.diffFile true with
  | some (true, manager) => some (s.setProcess p { manager with cachedLock := level })
  | _ => none

/-- `lockWrite`: a lock that was kept for writing needs nothing. -/
def lockWrite (p : ι) (s : Backup ι) : Option (Backup ι) :=
  if (s.process p).cachedLock = .write then some s else fetch psize p .write (s.lower p fun _ => .none)

/-- `lockRead`: a lock that was kept needs nothing. -/
def lockRead (p : ι) (s : Backup ι) : Option (Backup ι) :=
  if (s.process p).cachedLock ≠ .none then some s else fetch psize p .read (s.lower p readable)

/-- A call of `allocateDifferencePage`; one that returns no page is not recorded. -/
def allocateDifferencePage (p : ι) (dbPage : Nat) (writes : BackupManager.Writes) (s : Backup ι) : Backup ι :=
  match (s.process p).allocTable dbPage with
  | some diffPage => { s with returned := ⟨dbPage, diffPage⟩ :: s.returned }
  | none =>
    match lockWrite psize p s with
    | none => s
    | some s =>
      match (s.process p).allocTable dbPage with
      | some diffPage => { s with returned := ⟨dbPage, diffPage⟩ :: s.returned }
      | none =>
        let (diffPage, file, manager) := (s.process p).allocate psize dbPage writes s.diffFile
        let s := { s.setProcess p manager with diffFile := file }
        if diffPage = 0 then s else { s with returned := ⟨dbPage, diffPage⟩ :: s.returned }

/-- A call of `getPageIndex`, with what it returns: zero for a page without an entry. -/
def getPageIndex (p : ι) (dbPage : Nat) (s : Backup ι) : Nat × Backup ι :=
  match (s.process p).allocTable dbPage with
  | some diffPage => (diffPage, s)
  | none =>
    match lockRead psize p s with
    | none => (0, s)
    | some s => (((s.process p).allocTable dbPage).getD 0, s)

def exec (s : Backup ι) : Op ι → Backup ι
  | .allocateDifferencePage p dbPage writes => s.allocateDifferencePage psize p dbPage writes
  | .getPageIndex p dbPage => (s.getPageIndex psize p dbPage).2
  | .writeDifference p dbPage page =>
    match (s.process p).allocTable dbPage with
    | some diffPage => { s with diffFile := s.diffFile.write diffPage page }
    | none => s
  | .initializeAlloc p =>
    match (s.process p).actualizeAlloc psize s.diffFile false with
    | some (_, manager) => s.setProcess p manager
    | none => s
  | .releaseLock p => s.setProcess p { s.process p with cachedLock := .none }

/-- `beginBackup` has written an empty allocation page. -/
def begun : Backup ι where
  diffFile := ⟨fun _ => emptyBuffer, 1⟩
  process := fun _ => .initial
  returned := []

end Backup

end Firebird.Nbak
