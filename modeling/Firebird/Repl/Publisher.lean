import Firebird.Repl.Replicator

/-! # The publisher

How the transactions of a session announce their savepoints, changes and ends to the replicator
(`src/jrd/replication/Publisher.cpp`, with the savepoint handling of `src/jrd/tra.cpp`, `src/jrd/Savepoint.cpp` and
`UserSavepointNode` in `src/dsql/StmtNodes.cpp`). -/

namespace Firebird.Repl

open Function

/-- A savepoint with the record changes that it would undo, the oldest first. -/
structure Savepoint where
  number : Nat
  root : Bool
  replicated : Bool
  changes : List Action

/-- A transaction of the primary. `kept` are its changes that no savepoint undoes any more. -/
structure Transaction where
  /-- `tra_save_point`, the top first. -/
  savePoint : List Savepoint
  kept : List Action
  /-- `tra_replicator` -/
  replicator : Option BatchBlock

/-- The changes of a list of savepoints, the oldest first. -/
def liveChanges (stack : List (List Action)) : List Action := stack.reverse.flatten

def Transaction.live (transaction : Transaction) : List Action :=
  transaction.kept ++ liveChanges (transaction.savePoint.map (·.changes))

namespace Savepoint

/-- `rollforward` of the savepoint at a position of the stack: its changes go to the next one, and if that is the
    transaction-level one and too large then it goes too. What no savepoint undoes any more is the second result. -/
def rollforward (large : Bool) : Nat → List Savepoint → List Savepoint × List Action
  | _, [] => ([], [])
  | 0, [savepoint] => ([], savepoint.changes)
  | 0, savepoint :: next :: later =>
    if next.root ∧ large then ([], next.changes ++ savepoint.changes)
    else ({ next with changes := next.changes ++ savepoint.changes } :: later, [])
  | position + 1, savepoint :: later =>
    let (later, kept) := rollforward large position later
    (savepoint :: later, kept)

end Savepoint

def Transaction.rollforward (transaction : Transaction) (large : Bool) (position : Nat) : Transaction :=
  let (savePoint, kept) := Savepoint.rollforward large position transaction.savePoint
  { transaction with savePoint, kept := transaction.kept ++ kept }

namespace Replicator

/-- The savepoints from the top down to the first one that is announced. -/
def announce : List Savepoint → Replicator → BatchBlock → List Savepoint × Replicator × BatchBlock
  | [], replicator, block => ([], replicator, block)
  | savepoint :: later, replicator, block =>
    if savepoint.replicated then (savepoint :: later, replicator, block)
    else
      let (replicator, block) := replicator.startSavepoint block
      let (later, replicator, block) := announce later replicator block
      ({ savepoint with replicated := true } :: later, replicator, block)

/-- `getReplicator` for a transaction that may be replicated. -/
def getReplicator (replicator : Replicator) (number : Nat) (transaction : Transaction) :
    Replicator × Transaction × BatchBlock :=
  let block := transaction.replicator.getD (startTransaction number)
  let (savePoint, replicator, block) := announce transaction.savePoint replicator block
  (replicator, { transaction with savePoint, replicator := some block }, block)

/-- `REPL_save_cleanup` for the top savepoint. -/
def saveCleanup (replicator : Replicator) (transaction : Transaction) (undo : Bool) : Replicator × Transaction :=
  match transaction.savePoint, transaction.replicator with
  | top :: _, some block =>
    if top.replicated then
      let (replicator, block) := if undo then replicator.rollbackSavepoint block else replicator.releaseSavepoint block
      (replicator, { transaction with replicator := some block })
    else (replicator, transaction)
  | _, _ => (replicator, transaction)

/-- `jrd_tra::releaseSavepoint` -/
def releaseTop (replicator : Replicator) (transaction : Transaction) (large : Bool) : Replicator × Transaction :=
  let (replicator, transaction) := replicator.saveCleanup transaction false
  (replicator, transaction.rollforward large 0)

/-- `jrd_tra::rollbackSavepoint` -/
def rollbackTop (replicator : Replicator) (transaction : Transaction) : Replicator × Transaction :=
  let (replicator, transaction) := replicator.saveCleanup transaction true
  (replicator, { transaction with savePoint := transaction.savePoint.tail })

/-- The top savepoint is merged into the next one, on the way to the rollback of a deeper one. -/
def undoTop (replicator : Replicator) (transaction : Transaction) (large : Bool) : Replicator × Transaction :=
  let (replicator, transaction) := replicator.saveCleanup transaction true
  (replicator, transaction.rollforward large 0)

/-- `jrd_tra::rollbackToSavepoint` for the savepoint with `position` others above it. -/
def rollbackTo : Nat → Bool → Replicator → Transaction → Replicator × Transaction
  | 0, _, replicator, transaction => replicator.rollbackTop transaction
  | position + 1, large, replicator, transaction =>
    let (replicator, transaction) := replicator.undoTop transaction large
    rollbackTo position large replicator transaction

def releaseAll (keepRoot large : Bool) : Nat → Replicator → Transaction → Replicator × Transaction
  | 0, replicator, transaction => (replicator, transaction)
  | fuel + 1, replicator, transaction =>
    match transaction.savePoint with
    | [] => (replicator, transaction)
    | top :: _ =>
      if keepRoot ∧ top.root then (replicator, transaction)
      else
        let (replicator, transaction) := replicator.releaseTop transaction large
        releaseAll keepRoot large fuel replicator transaction

def undoUser (large : Bool) : Nat → Replicator → Transaction → Replicator × Transaction
  | 0, replicator, transaction => (replicator, transaction)
  | fuel + 1, replicator, transaction =>
    match transaction.savePoint with
    | [] => (replicator, transaction)
    | top :: _ =>
      if top.root then (replicator, transaction)
      else
        let (replicator, transaction) := replicator.undoTop transaction large
        undoUser large fuel replicator transaction

def transPrepare (replicator : Replicator) (transaction : Transaction) : Replicator × Transaction :=
  match transaction.replicator with
  | none => (replicator, transaction)
  | some block =>
    let (replicator, block) := replicator.prepareTransaction block
    (replicator, { transaction with replicator := some block })

/-- `REPL_trans_commit`; the replicator of the transaction is disposed of. -/
def transCommit (replicator : Replicator) (transaction : Transaction) : Replicator :=
  match transaction.replicator with
  | none => replicator
  | some block => (replicator.commitTransaction block).1

def transRollback (replicator : Replicator) (transaction : Transaction) : Replicator :=
  match transaction.replicator with
  | none => replicator
  | some block => (replicator.rollbackTransaction block).1

def rollbackSavepoints (replicator : Replicator) (transaction : Transaction) (force large : Bool) :
    Replicator × Transaction :=
  if force then (replicator, { transaction with savePoint := [] })
  else
    let (replicator, transaction) := undoUser large transaction.savePoint.length replicator transaction
    if transaction.savePoint = [] then (replicator, transaction) else replicator.rollbackTop transaction

end Replicator

structure Session where
  replicator : Replicator
  transactions : Nat → Option Transaction
  ended : List Nat
  /-- Those that were committed with something for the replica, with their changes. -/
  committed : List (Nat × List Action)

def Call.change? : Call → Option Action
  | .insertRecord schemaName tableName record => some (.insertRecord ⟨schemaName, tableName⟩ record.rawData)
  | .updateRecord schemaName tableName orgRecord newRecord =>
    some (.updateRecord ⟨schemaName, tableName⟩ orgRecord.rawData newRecord.rawData)
  | .deleteRecord schemaName tableName record => some (.deleteRecord ⟨schemaName, tableName⟩ record.rawData)
  | _ => none

def Transaction.addChange (transaction : Transaction) (change : Action) : Transaction :=
  match transaction.savePoint with
  | [] => { transaction with kept := transaction.kept ++ [change] }
  | top :: later => { transaction with savePoint := { top with changes := top.changes ++ [change] } :: later }

/-- What happens in the session, to the transaction with this number. -/
inductive Event where
  /-- `TRA_start`, with a transaction-level savepoint unless there is no automatic undo. -/
  | start (number : Nat) (autoUndo : Bool)
  | startSavepoint (number savNumber : Nat)
  | releaseSavepoint (number : Nat) (large : Bool)
  /-- A savepoint that is not the top one is released: `RELEASE SAVEPOINT ONLY`, or `SAVEPOINT` with its name. -/
  | releaseInner (number position : Nat) (large : Bool)
  | rollbackToSavepoint (number position : Nat) (large : Bool)
  /-- `REPL_store`, `REPL_modify` and `REPL_erase`, after the change itself. -/
  | change (number : Nat) (call : Call)
  /-- `REPL_modify` that changes nothing. -/
  | dummyUpdate (number : Nat)
  | execSql (number : Nat) (charset : UInt8) (schemaSearchPath : Text) (sql : SqlText)
  /-- `REPL_gen_id`, with a transaction or without. -/
  | genId (number : Option Nat) (schemaName genName : Text) (value : UInt64)
  /-- The first half of a commit, to the preparation by the replicator; what follows may fail. -/
  | prepare (number : Nat) (large : Bool)
  /-- The second half. -/
  | commit (number : Nat) (large : Bool)
  | rollback (number : Nat) (force large : Bool)

def Event.number : Event → Option Nat
  | .start number _ | .startSavepoint number _ | .releaseSavepoint number _ | .releaseInner number _ _
  | .rollbackToSavepoint number _ _ | .change number _ | .dummyUpdate number | .execSql number _ _ _
  | .prepare number _ | .commit number _ | .rollback number _ _ => number
  | .genId number _ _ _ => number

namespace Session

def newTransaction (autoUndo : Bool) : Transaction where
  savePoint := if autoUndo then [⟨1, true, false, []⟩] else []
  kept := []
  replicator := none

def continueWith (session : Session) (number : Nat) (state : Replicator × Transaction) : Session :=
  { session with
    replicator := state.1, transactions := update session.transactions number (some state.2) }

def finish (session : Session) (number : Nat) (replicator : Replicator) : Session :=
  { session with
    replicator, transactions := update session.transactions number none, ended := session.ended ++ [number] }

def publish (session : Session) (number : Nat) (transaction : Transaction)
    (call : Replicator → BatchBlock → Replicator × BatchBlock) : Session :=
  let (replicator, transaction, block) := session.replicator.getReplicator number transaction
  let (replicator, block) := call replicator block
  session.continueWith number (replicator, { transaction with replicator := some block })

def setSequence (session : Session) (schemaName genName : Text) (value : UInt64) : Session :=
  { session with replicator := session.replicator.setSequence schemaName genName value }

def step (session : Session) (transaction : Transaction) : Event → Session
  | .start _ _ => session
  | .startSavepoint number savNumber => session.continueWith number
      (session.replicator, { transaction with savePoint := ⟨savNumber, false, false, []⟩ :: transaction.savePoint })
  | .releaseSavepoint number large => session.continueWith number (session.replicator.releaseTop transaction large)
  | .releaseInner number position large => session.continueWith number
      (session.replicator, transaction.rollforward large position)
  | .rollbackToSavepoint number position large => session.continueWith number
      (Replicator.rollbackTo position large session.replicator transaction)
  | .change number call =>
    match call.change? with
    | none => session
    | some change => session.publish number (transaction.addChange change) fun replicator block =>
        replicator.call block call
  | .dummyUpdate number => session.publish number transaction fun replicator block => (replicator, block)
  | .execSql number charset schemaSearchPath sql => session.publish number
      (transaction.addChange (.executeSql charset schemaSearchPath sql.text session.replicator.user.text))
      fun replicator block => replicator.executeSqlIntl block charset schemaSearchPath sql
  | .genId number schemaName genName value =>
    let session := if transaction.replicator.isNone then
        session.publish (number.getD 0) transaction fun replicator block => (replicator, block)
      else session
    session.setSequence schemaName genName value
  | .prepare number large =>
    let (replicator, transaction) := Replicator.releaseAll true large transaction.savePoint.length session.replicator
      transaction
    session.continueWith number (replicator.transPrepare transaction)
  | .commit number large =>
    let (replicator, transaction) := Replicator.releaseAll false large transaction.savePoint.length session.replicator
      transaction
    let committed := if transaction.replicator.isSome then session.committed ++ [(number, transaction.live)]
      else session.committed
    { session.finish number (replicator.transCommit transaction) with committed }
  | .rollback number force large =>
    let (replicator, transaction) := session.replicator.rollbackSavepoints transaction force large
    session.finish number (replicator.transRollback transaction)

def after (session : Session) (event : Event) : Session :=
  match event with
  | .start number autoUndo =>
    { session with transactions := update session.transactions number (some (newTransaction autoUndo)) }
  | .genId none schemaName genName value => session.setSequence schemaName genName value
  | event =>
    match event.number.bind session.transactions with
    | none => session
    | some transaction => session.step transaction event

end Session
end Firebird.Repl
