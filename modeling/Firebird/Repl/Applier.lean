import Firebird.Repl.BlockReader
import Firebird.Repl.Publisher

/-! # The applier

What the replica does with the actions of a block (`src/jrd/replication/Applier.cpp`). An action that names an unknown
transaction, or a savepoint that is not there, fails. -/

namespace Firebird.Repl

open Function

/-- A transaction of the replica. The top savepoint is the first one; the transaction-level savepoint of the replica is
    not among them. -/
structure ReplicaTransaction where
  savePoint : List (List Action)
  kept : List Action

namespace ReplicaTransaction

def live (transaction : ReplicaTransaction) : List Action := transaction.kept ++ liveChanges transaction.savePoint

def addChange (transaction : ReplicaTransaction) (change : Action) : ReplicaTransaction :=
  match transaction.savePoint with
  | [] => { transaction with kept := transaction.kept ++ [change] }
  | top :: later => { transaction with savePoint := (top ++ [change]) :: later }

def cleanupSavepoint (transaction : ReplicaTransaction) (undo : Bool) : Option ReplicaTransaction :=
  match transaction.savePoint with
  | [] => none
  | top :: later =>
    if undo then some { transaction with savePoint := later }
    else match later with
      | [] => some { savePoint := [], kept := transaction.kept ++ top }
      | next :: later => some { transaction with savePoint := (next ++ top) :: later }

def apply (transaction : ReplicaTransaction) : Action → Option ReplicaTransaction
  | .prepareTransaction | .storeBlob _ _ | .setSequence _ _ => some transaction
  | .startSavepoint => some { transaction with savePoint := [] :: transaction.savePoint }
  | .cleanupSavepoint undo => transaction.cleanupSavepoint undo
  | .insertRecord relName data => some (transaction.addChange (.insertRecord relName data))
  | .updateRecord relName orgRecord newRecord =>
      some (transaction.addChange (.updateRecord relName orgRecord newRecord))
  | .deleteRecord relName data => some (transaction.addChange (.deleteRecord relName data))
  | .executeSql charset schemaSearchPath sql ownerName =>
    some (transaction.addChange (.executeSql charset schemaSearchPath sql ownerName))
  | .startTransaction | .commitTransaction | .rollbackTransaction | .cleanupTransaction => none

end ReplicaTransaction

structure Applier where
  txnMap : Nat → Option ReplicaTransaction
  committed : List (Nat × List Action)

namespace Applier

def apply (number : Nat) (applier : Applier) : Action → Option Applier
  | .startTransaction =>
    if (applier.txnMap number).isSome then none
    else some { applier with txnMap := update applier.txnMap number (some ⟨[], []⟩) }
  | .commitTransaction => (applier.txnMap number).map fun transaction =>
      { txnMap := update applier.txnMap number none
        committed := applier.committed ++ [(number, transaction.live)] }
  | .rollbackTransaction => (applier.txnMap number).map fun _ =>
      { applier with txnMap := update applier.txnMap number none }
  | .cleanupTransaction => some { applier with
      txnMap := if number = 0 then fun _ => none else update applier.txnMap number none }
  | .setSequence _ _ => some applier
  | action => ((applier.txnMap number).bind (·.apply action)).map fun transaction =>
      { applier with txnMap := update applier.txnMap number (some transaction) }

def applyAll (number : Nat) (applier : Applier) (actions : List Action) : Option Applier :=
  actions.foldlM (apply number) applier

def process (applier : Applier) (block : Handed) : Option Applier :=
  block.process.bind (applier.applyAll block.traNumber)

def processAll (blocks : List Handed) : Option Applier := blocks.foldlM process ⟨fun _ => none, []⟩

end Applier
end Firebird.Repl
