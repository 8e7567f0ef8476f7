import Firebird.Tpc.Snapshots

/-! # Transactions of a database

A database's transactions over the state cache (`src/jrd/tra.cpp`): the inventory page, the numbers
on the header page, the start and the end of a transaction, and the state of another transaction as
one of them sees it. -/

namespace Firebird.Tpc

open Function

/-- The states of the inventory page, two bits each. -/
inductive TipState
  | active | limbo | dead | committed

def TipState.toTraState : TipState → TraState
  | .active => .active
  | .limbo => .limbo
  | .dead => .dead
  | .committed => .committed

def traSystemTransaction : TraNumber := 0

structure TraFlags where
  system : Bool
  readCommitted : Bool
  readConsistency : Bool

/-- A transaction (`jrd_tra`). One that is read committed takes no snapshot of its own. -/
structure JrdTra where
  traNumber : TraNumber
  traOldest : TraNumber
  traFlags : TraFlags
  traAttachment : AttNumber
  traSnapshotHandle : Option SnapshotHandle
  traSnapshotNumber : CommitNumber
  traCommitSubTrans : Finset TraNumber

/-- A transaction that sees the database as of its snapshot. -/
def JrdTra.Concurrency (trans : JrdTra) : Prop :=
  trans.traFlags.readCommitted = false ∧ trans.traFlags.system = false

/-- The cache, the inventory page, the numbers of the header page, each process's own oldest
    transaction, and the live transactions. -/
structure Database where
  tipCache : TipCache
  tip : TraNumber → TipState
  hdrNextTransaction : TraNumber
  hdrOldestTransaction : TraNumber
  dbbOldestTransaction : Process → TraNumber
  transactions : TraNumber → Option JrdTra

namespace Database

def traFetchState (d : Database) (number : TraNumber) : TipState := d.tip number

def traSetState (d : Database) (proc : Process) (number : TraNumber) (state : TipState) :
    Except TpcError (Database × CommitNumber) :=
  match d.tipCache.setState proc number state.toTraState with
  | .ok (tipCache, cn) => .ok ({ d with tipCache, tip := update d.tip number state }, cn)
  | .error e => .error e

def snapshotState (d : Database) (proc : Process) (lockData : TraNumber → Bool) (number : TraNumber) :
    Except TpcError (Database × CommitNumber) :=
  let (tipCache, stateCn) := d.tipCache.cacheState proc number
  let d := { d with tipCache }
  if stateCn = cnDead ∨ IsCommitted stateCn then .ok (d, stateCn)
  else if lockData number then .ok (d, cnActive)
  else
    match d.traFetchState number with
    | .active =>
      match d.traSetState proc number .dead with
      | .ok (d, _) => .ok (d, cnDead)
      | .error e => .error e
    | state =>
      match d.tipCache.setState proc number state.toTraState with
      | .ok (tipCache, cn) => .ok ({ d with tipCache }, cn)
      | .error e => .error e

def stateOfCn (stateCn : CommitNumber) : TraState :=
  if stateCn = cnActive then .active
  else if stateCn = cnLimbo then .limbo
  else if stateCn = cnDead then .dead
  else .committed

/-- The reader: its process, the list of snapshots of its attachment, and the snapshot of the request
    it runs, if there is one and no update conflict has disabled it. -/
structure Reader where
  proc : Process
  lockData : TraNumber → Bool
  activeSnapshots : ActiveSnapshots
  requestSnapshot : Option CommitNumber

/-- The state of a numbered transaction when `trans` started, and the snapshot that needs its versions. -/
def traSnapshotState (d : Database) (reader : Reader) (trans : JrdTra) (number : TraNumber) :
    Except TpcError (Database × TraState × CommitNumber) :=
  let prehistoric := reader.activeSnapshots.getSnapshotForVersion cnPrehistoric
  if number = trans.traNumber then .ok (d, .us, cnActive)
  else if number < trans.traOldest then .ok (d, .committed, prehistoric)
  else if number = traSystemTransaction then .ok (d, .committed, prehistoric)
  else
    match d.snapshotState reader.proc reader.lockData number with
    | .error e => .error e
    | .ok (d, stateCn) =>
      let state := stateOfCn stateCn
      let snapshot :=
        if state = .committed then reader.activeSnapshots.getSnapshotForVersion stateCn else cnActive
      if number ∈ trans.traCommitSubTrans then .ok (d, .committed, snapshot)
      else if trans.traFlags.readCommitted then
        if trans.traFlags.readConsistency ∧ state = .committed then
          match reader.requestSnapshot with
          | some requestNumber => if requestNumber < stateCn then .ok (d, .active, snapshot) else .ok
              (d, state, snapshot)
          | none => .ok (d, state, snapshot)
        else .ok (d, state, snapshot)
      else if trans.traFlags.system then
        if state = .active then .ok (d, .committed, snapshot) else .ok (d, state, snapshot)
      else if state = .committed ∧ trans.traSnapshotNumber < stateCn then .ok (d, .active, snapshot)
      else .ok (d, state, snapshot)

/-- The header page takes the next number and the process's oldest transaction. -/
def bumpTransactionId (d : Database) (proc : Process) : Except TpcError Database :=
  if d.hdrNextTransaction ≠ 0 ∧ d.hdrNextTransaction < d.hdrOldestTransaction then .error .nextOlderThanOldest
  else if maxTraNumber - 1 ≤ d.hdrNextTransaction then .error .traNumExceeded
  else .ok { d with
    hdrNextTransaction := d.hdrNextTransaction + 1
    hdrOldestTransaction := max d.hdrOldestTransaction (d.dbbOldestTransaction proc) }

/-- Start a transaction, up to the point where its snapshot is taken. -/
def transactionStart (headerSlots : Nat) (d : Database) (proc : Process) (traAttachment : AttNumber)
    (traFlags : TraFlags) (snapshotNumber : CommitNumber) : Except TpcError (Database × JrdTra) :=
  match d.bumpTransactionId proc with
  | .error e => .error e
  | .ok d =>
    let trans : JrdTra :=
      { traNumber := d.hdrNextTransaction
        traOldest := d.hdrOldestTransaction
        traFlags, traAttachment
        traSnapshotHandle := none
        traSnapshotNumber := snapshotNumber
        traCommitSubTrans := ∅ }
    if traFlags.readCommitted then
      .ok ({ d with transactions := update d.transactions trans.traNumber (some trans) }, trans)
    else
      match d.tipCache.beginSnapshot headerSlots traAttachment snapshotNumber with
      | .error e => .error e
      | .ok (tipCache, handle, cn) =>
        let trans := { trans with traSnapshotHandle := some handle, traSnapshotNumber := cn }
        .ok ({ d with tipCache, transactions := update d.transactions trans.traNumber (some trans) }, trans)

/-- The rest of the start: the process's oldest transaction moves up, and old blocks are released. -/
def updateOldest (d : Database) (proc : Process) (oldest oldestSnapshot : TraNumber) : Database :=
  let dbbOldest := max (d.dbbOldestTransaction proc) oldest
  { d with
    dbbOldestTransaction := update d.dbbOldestTransaction proc dbbOldest
    tipCache := d.tipCache.updateOldestTransaction dbbOldest oldestSnapshot }

/-- Release a transaction, with its snapshot, after its state is set. -/
def traReleaseTransaction (d : Database) (number : TraNumber) : Except TpcError Database :=
  match d.transactions number with
  | none => .ok d
  | some tra =>
    match tra.traSnapshotHandle with
    | none => .ok { d with transactions := update d.transactions number none }
    | some handle =>
      match d.tipCache.endSnapshot handle tra.traAttachment with
      | .ok tipCache => .ok { d with tipCache, transactions := update d.transactions number none }
      | .error e => .error e

inductive Call
  | setState (proc : Process) (number : TraNumber) (state : TipState)
  | start (proc : Process) (attachment : AttNumber) (flags : TraFlags) (snapshotNumber : CommitNumber)
  | updateOldest (proc : Process) (oldest oldestSnapshot : TraNumber)
  | release (number : TraNumber)
  | read (reader : Reader) (tra : JrdTra) (number : TraNumber)

def exec (headerSlots : Nat) (d : Database) : Call → Except TpcError Database
  | .setState proc number state => (d.traSetState proc number state).map (·.1)
  | .start proc attachment flags snapshotNumber =>
    (d.transactionStart headerSlots proc attachment flags snapshotNumber).map (·.1)
  | .updateOldest proc oldest oldestSnapshot => .ok (d.updateOldest proc oldest oldestSnapshot)
  | .release number => d.traReleaseTransaction number
  | .read reader tra number => (d.traSnapshotState reader tra number).map (·.1)

end Database
end Firebird.Tpc
