import Mathlib

/-! # The transaction state cache

Commit numbers, the shared header, the blocks of transaction states and the list of snapshots of
`TipCache` (`src/jrd/tpc.cpp`, `src/jrd/tpc_proto.h`). The blocks are shared memory files, created
zeroed; each process keeps its own map of the blocks it has attached. -/

namespace Firebird.Tpc

open Function

abbrev TraNumber := Nat
abbrev CommitNumber := Nat
abbrev AttNumber := Nat
abbrev SnapshotHandle := Nat
abbrev TpcBlockNumber := Nat
abbrev Process := Nat

/-- The number of values of `CommitNumber`, an unsigned 64-bit integer. -/
def commitNumberSize : Nat := 2 ^ 64
def ulongSize : Nat := 2 ^ 32

def cnPrehistoric : CommitNumber := 1
def cnActive : CommitNumber := 0
def cnLimbo : CommitNumber := commitNumberSize - 1
def cnDead : CommitNumber := commitNumberSize - 2
def cnMaxNumber : CommitNumber := commitNumberSize - 3

/-- Transaction numbers are stored in 48 bits on disk. -/
def maxTraNumber : TraNumber := 2 ^ 48 - 1

/-- The transaction states `tra_active`, …, `tra_unknown`. -/
inductive TraState
  | active | limbo | dead | committed | us | precommitted | unknown
  deriving DecidableEq

def IsCommitted (cn : CommitNumber) : Prop := cnPrehistoric ≤ cn ∧ cn ≤ cnMaxNumber

instance (cn : CommitNumber) : Decidable (IsCommitted cn) := inferInstanceAs (Decidable (_ ∧ _))

/-- The message of `ERR_bugcheck_msg`, or the error posted to the caller. -/
inductive TpcError
  | oldTransaction | commitDead | notLimboable | notDeadable | invalidState
  | snapshotDoesNotExist | tooFewSlots | attachmentMismatch | nextOlderThanOldest | traNumExceeded

structure GlobalTpcHeader where
  latestCommitNumber : CommitNumber
  oldestTransaction : TraNumber
  snapshotReleaseCount : Nat

structure SnapshotData where
  attachmentId : AttNumber
  snapshot : CommitNumber

/-- The shared list of snapshots. Unused slots have no attachment. -/
structure SnapshotList where
  slotsAllocated : Nat
  slotsUsed : Nat
  minFreeSlot : Nat
  slots : Nat → SnapshotData

/-- One attachment's copy of the snapshot list (`ActiveSnapshots` in `src/jrd/Attachment.h`). -/
structure ActiveSnapshots where
  snapshots : Finset CommitNumber
  lastCommit : CommitNumber
  releaseCount : Nat
  slotsUsed : Nat

def ActiveSnapshots.empty : ActiveSnapshots :=
  { snapshots := ∅, lastCommit := cnActive, releaseCount := 0, slotsUsed := 0 }

/-- `m_snapshots.locate(locGreatEqual, key)`: the least member that is not below the key. -/
def locateGreatEqual (snapshots : Finset CommitNumber) (key : CommitNumber) : Option CommitNumber :=
  if h : (snapshots.filter (key ≤ ·)).Nonempty then some ((snapshots.filter (key ≤ ·)).min' h) else none

/-- The snapshot that needs a version of this commit number. -/
def ActiveSnapshots.getSnapshotForVersion (a : ActiveSnapshots) (versionCn : CommitNumber) : CommitNumber :=
  if a.lastCommit < versionCn then cnActive
  else
    match locateGreatEqual a.snapshots versionCn with
    | some s => s
    | none => a.lastCommit

/-- The shared memory of a database's transaction state cache, and what each process has mapped. -/
structure TipCache where
  transactionsPerBlock : Nat
  transactionsPerBlock_pos : 0 < transactionsPerBlock
  header : GlobalTpcHeader
  snapshotList : SnapshotList
  blocks : TpcBlockNumber → Option (Nat → CommitNumber)
  blocksMemory : Process → TpcBlockNumber → Bool

namespace TipCache

def createTransactionStatusBlock (c : TipCache) (proc : Process) (blockNumber : TpcBlockNumber) : TipCache :=
  { c with
    blocks := update c.blocks blockNumber (some ((c.blocks blockNumber).getD fun _ => cnActive))
    blocksMemory := update c.blocksMemory proc (update (c.blocksMemory proc) blockNumber true) }

/-- The block of this number, attached now if it is not too old; nothing for a block that is. -/
def getTransactionStatusBlock (c : TipCache) (proc : Process) (blockNumber : TpcBlockNumber) :
    TipCache × Option (Nat → CommitNumber) :=
  if c.blocksMemory proc blockNumber then (c, c.blocks blockNumber)
  else if c.header.oldestTransaction / c.transactionsPerBlock ≤ blockNumber then
    let c' := c.createTransactionStatusBlock proc blockNumber
    (c', c'.blocks blockNumber)
  else (c, none)

def store (c : TipCache) (number : TraNumber) (cn : CommitNumber) : TipCache :=
  { c with
    blocks := update c.blocks (number / c.transactionsPerBlock)
      ((c.blocks (number / c.transactionsPerBlock)).map fun data =>
        update data (number % c.transactionsPerBlock) cn) }

def cacheState (c : TipCache) (proc : Process) (number : TraNumber) : TipCache × CommitNumber :=
  if number < c.header.oldestTransaction then (c, cnPrehistoric)
  else
    match c.getTransactionStatusBlock proc (number / c.transactionsPerBlock) with
    | (c', some data) => (c', data (number % c.transactionsPerBlock))
    | (c', none) => (c', cnPrehistoric)

def newCommitNumber (c : TipCache) : CommitNumber := (c.header.latestCommitNumber + 1) % commitNumberSize

def setState (c : TipCache) (proc : Process) (number : TraNumber) (state : TraState) :
    Except TpcError (TipCache × CommitNumber) :=
  match c.getTransactionStatusBlock proc (number / c.transactionsPerBlock) with
  | (_, none) => .error .oldTransaction
  | (c, some data) =>
    let oldStateCn := data (number % c.transactionsPerBlock)
    match state with
    | .committed =>
      if oldStateCn = cnDead then .error .commitDead
      else if IsCommitted oldStateCn then .ok (c, oldStateCn)
      else
        let cn := c.newCommitNumber
        .ok ({ c with header := { c.header with latestCommitNumber := cn } }.store number cn, cn)
    | .limbo =>
      if oldStateCn = cnLimbo then .ok (c, cnLimbo)
      else if oldStateCn ≠ cnActive then .error .notLimboable
      else .ok (c.store number cnLimbo, cnLimbo)
    | .dead =>
      if oldStateCn = cnDead then .ok (c, cnDead)
      else if oldStateCn ≠ cnActive ∧ oldStateCn ≠ cnLimbo then .error .notDeadable
      else .ok (c.store number cnDead, cnDead)
    | _ => .error .invalidState

def safetyGapBlocks : Nat := 1

/-- The blocks below `counter` whose files exist, scanned downwards up to the first missing one. -/
def blocksToCleanup (blocks : TpcBlockNumber → Option (Nat → CommitNumber)) : Nat → List TpcBlockNumber
  | 0 => []
  | counter + 1 => if (blocks counter).isSome then counter :: blocksToCleanup blocks counter else []

/-- Unmap and delete the blocks that only hold transactions older than the new oldest one. -/
def releaseSharedMemory (c : TipCache) (oldestOld oldestNew : TraNumber) : TipCache :=
  let lastInterestingBlockNumber := oldestNew / c.transactionsPerBlock
  if oldestOld / c.transactionsPerBlock = lastInterestingBlockNumber then c
  else
    let cleanup := blocksToCleanup c.blocks (lastInterestingBlockNumber - safetyGapBlocks)
    { c with
      blocks := fun b => if b ∈ cleanup then none else c.blocks b
      blocksMemory := fun proc b => if b ∈ cleanup then false else c.blocksMemory proc b }

def updateOldestTransaction (c : TipCache) (oldest oldestSnapshot : TraNumber) : TipCache :=
  let oldestNew := min oldest oldestSnapshot
  let oldestNow := c.header.oldestTransaction
  if oldestNow < oldestNew then
    { c with header := { c.header with oldestTransaction := oldestNew } }.releaseSharedMemory oldestNow oldestNew
  else c

def findFreeSlot (slots : Nat → SnapshotData) (slot : Nat) : Nat → Option Nat
  | 0 => none
  | n + 1 => if (slots slot).attachmentId = 0 then some slot else findFreeSlot slots (slot + 1) n

/-- The number of slots after the file is mapped at twice its length: `headerSlots` is the size of
    the header before the slots, counted in slots. -/
def remapFile (headerSlots slotsAllocated : Nat) : Nat := 2 * slotsAllocated + headerSlots

def allocateSnapshotSlot (headerSlots : Nat) (l : SnapshotList) : SnapshotList × SnapshotHandle :=
  match findFreeSlot l.slots l.minFreeSlot (l.slotsUsed - l.minFreeSlot) with
  | some slot => (l, slot)
  | none =>
    let slot := max l.minFreeSlot l.slotsUsed
    if slot < l.slotsAllocated then ({ l with slotsUsed := slot + 1 }, slot)
    else ({ l with slotsAllocated := remapFile headerSlots l.slotsAllocated, slotsUsed := slot + 1 }, slot)

/-- Some slot of the first `slotsUsed` holds this commit number. -/
def snapshotExists (l : SnapshotList) (commitNumber : CommitNumber) : Bool :=
  (List.range l.slotsUsed).any fun i => (l.slots i).attachmentId != 0 && (l.slots i).snapshot == commitNumber

/-- Take a snapshot: of the given commit number if it is not zero, else of the latest. -/
def beginSnapshot (headerSlots : Nat) (c : TipCache) (attachmentId : AttNumber) (commitNumber : CommitNumber) :
    Except TpcError (TipCache × SnapshotHandle × CommitNumber) :=
  if commitNumber ≠ 0 ∧ snapshotExists c.snapshotList commitNumber = false then .error .snapshotDoesNotExist
  else
    let (l, slot) := allocateSnapshotSlot headerSlots c.snapshotList
    let cn := if commitNumber = 0 then c.header.latestCommitNumber else commitNumber
    .ok ({ c with
      snapshotList := { l with
        slots := update l.slots slot { attachmentId, snapshot := cn }
        minFreeSlot := slot + 1 } }, slot, cn)

def usedSlots (slots : Nat → SnapshotData) : Nat → Nat
  | 0 => 0
  | n + 1 => if (slots n).attachmentId = 0 then usedSlots slots n else n + 1

def deallocateSnapshotSlot (l : SnapshotList) (slotNumber : SnapshotHandle) : SnapshotList :=
  let slots := update l.slots slotNumber { attachmentId := 0, snapshot := 0 }
  { l with
    minFreeSlot := min l.minFreeSlot slotNumber
    slots
    slotsUsed := if slotNumber + 1 = l.slotsUsed then usedSlots slots slotNumber else l.slotsUsed }

def endSnapshot (c : TipCache) (handle : SnapshotHandle) (attachmentId : AttNumber) : Except TpcError TipCache :=
  if c.snapshotList.slotsUsed ≤ handle then .error .tooFewSlots
  else if (c.snapshotList.slots handle).attachmentId ≠ attachmentId then .error .attachmentMismatch
  else .ok { c with
    snapshotList := deallocateSnapshotSlot c.snapshotList handle
    header := { c.header with snapshotReleaseCount := (c.header.snapshotReleaseCount + 1) % ulongSize } }

def collectSnapshots (slots : Nat → SnapshotData) : Nat → Finset CommitNumber
  | 0 => ∅
  | n + 1 =>
    if (slots n).attachmentId ≠ 0 ∧ (slots n).snapshot ≠ 0 then insert (slots n).snapshot (collectSnapshots slots n)
    else collectSnapshots slots n

/-- Release the slots below `n` that dead attachments hold, lowest first. -/
def releaseDeadSlots (isAttachmentDead : AttNumber → Bool) (l : SnapshotList) : Nat → SnapshotList
  | 0 => l
  | n + 1 =>
    let l := releaseDeadSlots isAttachmentDead l n
    if (l.slots n).attachmentId ≠ 0 ∧ isAttachmentDead (l.slots n).attachmentId then deallocateSnapshotSlot l n else l

/-- Refresh an attachment's list. The first call scans all slots and releases those of dead
    attachments; a later one scans again only if a counter has moved. -/
def updateActiveSnapshots (isAttachmentDead : AttNumber → Bool) (c : TipCache) (a : ActiveSnapshots) :
    TipCache × ActiveSnapshots :=
  if a.lastCommit = cnActive then
    let slotsUsedOrg := c.snapshotList.slotsUsed
    let l := releaseDeadSlots isAttachmentDead c.snapshotList slotsUsedOrg
    ({ c with snapshotList := l },
      { a with
        lastCommit := c.header.latestCommitNumber
        releaseCount := c.header.snapshotReleaseCount
        snapshots := collectSnapshots l.slots slotsUsedOrg })
  else
    let slotsUsedOrg := c.snapshotList.slotsUsed
    let a := { a with lastCommit := c.header.latestCommitNumber }
    if a.releaseCount = c.header.snapshotReleaseCount ∧ a.slotsUsed = slotsUsedOrg then (c, a)
    else
      (c, { a with
        slotsUsed := slotsUsedOrg
        releaseCount := c.header.snapshotReleaseCount
        snapshots := collectSnapshots c.snapshotList.slots slotsUsedOrg })

end TipCache
end Firebird.Tpc
