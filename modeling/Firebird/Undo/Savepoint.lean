import Mathlib

/-! # Savepoints of a transaction

Nested savepoints and the changes one transaction makes to records (`src/jrd/Savepoint.cpp`,
`src/jrd/vio.cpp`). A savepoint keeps one verb action for each relation: the records changed and, for
a record whose version was replaced in place, the data it had. The data lies in the undo space of the
transaction. -/

namespace Firebird.Undo

open Function

abbrev TraNumber := Nat
abbrev RelationId := Nat
abbrev RecordNumber := Nat
abbrev FormatNumber := Nat
abbrev Bytes := List UInt8

/-- A version of a record. The data of a deleted one is empty. -/
structure RecordVersion where
  transaction : TraNumber
  format : FormatNumber
  deleted : Bool
  data : Bytes

/-- The versions of each record, the newest first; a record without versions does not exist. -/
abbrev Chains := RelationId → RecordNumber → List RecordVersion

/-- What a record holds: nothing, or data in a format. -/
def content : List RecordVersion → Option (FormatNumber × Bytes)
  | [] => none
  | v :: _ => if v.deleted then none else some (v.format, v.data)

inductive SavepointError
  | wrongRecordVersion | recordDisappeared | spaceNotAllocated | recordExists | noRecord | noSavepoint

structure UndoItem where
  number : RecordNumber
  offset : Nat
  format : FormatNumber

structure VerbAction where
  relation : RelationId
  records : Finset RecordNumber
  undo : List UndoItem

/-- A savepoint; `contentAtStart` is a history that no operation reads. -/
structure Savepoint where
  root : Bool
  actions : List VerbAction
  contentAtStart : RelationId → RecordNumber → Option (FormatNumber × Bytes)

/-- The undo space: the data at each allocated offset, and the end of the space. -/
structure UndoSpace where
  data : Nat → Option Bytes
  size : Nat

/-- The transaction with the records it sees; the first savepoint is the current one. -/
structure Transaction where
  traNumber : TraNumber
  chains : Chains
  savepoints : List Savepoint
  undoSpace : UndoSpace

namespace UndoSpace

def allocate (space : UndoSpace) (data : Bytes) : UndoSpace × Nat :=
  ({ data := update space.data space.size (some data), size := space.size + 1 }, space.size)

def release (space : UndoSpace) (offset : Nat) : Except SavepointError UndoSpace :=
  if (space.data offset).isSome then .ok { space with data := update space.data offset none }
  else .error .spaceNotAllocated

def releaseAll (space : UndoSpace) : List UndoItem → Except SavepointError UndoSpace
  | [] => .ok space
  | item :: items =>
    match space.release item.offset with
    | .ok space => space.releaseAll items
    | .error e => .error e

end UndoSpace

def VerbAction.locate (action : VerbAction) (number : RecordNumber) : Option UndoItem :=
  action.undo.find? fun item => item.number = number

def getAction (actions : List VerbAction) (relation : RelationId) : Option VerbAction :=
  actions.find? fun action => action.relation = relation

def putAction (actions : List VerbAction) (action : VerbAction) : List VerbAction :=
  if (getAction actions action.relation).isSome then
    actions.map fun a => if a.relation = action.relation then action else a
  else action :: actions

def createAction (actions : List VerbAction) (relation : RelationId) : VerbAction :=
  (getAction actions relation).getD { relation, records := ∅, undo := [] }

/-- The checks of `garbageCollectIdxLite`: the record exists, and its version is ours. -/
def garbageCollectIdxLite (traNumber : TraNumber) (chains : Chains) (relation : RelationId)
    (number : RecordNumber) : Except SavepointError Unit :=
  match chains relation number with
  | [] => .error .recordDisappeared
  | head :: _ => if head.transaction = traNumber then .ok () else .error .wrongRecordVersion

def verbPost (t : Transaction) (relation : RelationId) (number : RecordNumber)
    (oldData : Option (FormatNumber × Bytes)) : Except SavepointError Transaction :=
  match t.savepoints with
  | [] => .ok t
  | s :: rest =>
    let action := createAction s.actions relation
    if number ∉ action.records then
      match oldData with
      | none =>
        let action := { action with records := insert number action.records }
        .ok { t with savepoints := { s with actions := putAction s.actions action } :: rest }
      | some (format, data) =>
        let (undoSpace, offset) := t.undoSpace.allocate data
        let action := { action with
          records := insert number action.records
          undo := action.undo ++ [{ number, offset, format }] }
        .ok { t with undoSpace, savepoints := { s with actions := putAction s.actions action } :: rest }
    else
      match oldData with
      | none => .ok t
      | some _ =>
        -- the replaced data will not be used any more
        match garbageCollectIdxLite t.traNumber t.chains relation number with
        | .ok () => .ok t
        | .error e => .error e

def setChain (chains : Chains) (relation : RelationId) (number : RecordNumber) (chain : List RecordVersion) : Chains :=
  update chains relation (update (chains relation) number chain)

def vioStore (t : Transaction) (relation : RelationId) (number : RecordNumber) (format : FormatNumber)
    (data : Bytes) : Except SavepointError Transaction :=
  match t.chains relation number with
  | _ :: _ => .error .recordExists
  | [] =>
    let version := { transaction := t.traNumber, format, deleted := false, data }
    verbPost { t with chains := setChain t.chains relation number [version] } relation number none

/-- Modify a record: in place if its version is ours and in the format of the new data, else by a new
    version (`prepare_update`). -/
def vioModify (t : Transaction) (relation : RelationId) (number : RecordNumber) (format : FormatNumber)
    (data : Bytes) : Except SavepointError Transaction :=
  match t.chains relation number with
  | [] => .error .noRecord
  | head :: tail =>
    let version := { transaction := t.traNumber, format, deleted := false, data }
    if head.deleted then .error .noRecord
    else if head.transaction = t.traNumber ∧ head.format = format then
      verbPost { t with chains := setChain t.chains relation number (version :: tail) } relation number
        (some (head.format, head.data))
    else verbPost { t with chains := setChain t.chains relation number (version :: head :: tail) } relation number none

/-- Erase a record: in place if its version is ours, else by a new version, without data. -/
def vioErase (t : Transaction) (relation : RelationId) (number : RecordNumber) : Except SavepointError Transaction :=
  match t.chains relation number with
  | [] => .error .noRecord
  | head :: tail =>
    let version := { transaction := t.traNumber, format := head.format, deleted := true, data := [] }
    if head.deleted then .error .noRecord
    else if head.transaction = t.traNumber then
      verbPost { t with chains := setChain t.chains relation number (version :: tail) } relation number
        (some (head.format, head.data))
    else verbPost { t with chains := setChain t.chains relation number (version :: head :: tail) } relation number none

/-- Undo the change of one record, and tell whether its version stays ours. The saved data goes back in place, under
    the format number the version has. -/
def undoRecord (traNumber : TraNumber) (preserveLocks : Bool) (saved : Option Bytes) :
    List RecordVersion → Except SavepointError (List RecordVersion × Bool)
  | [] => .error .recordDisappeared
  | head :: tail =>
    if head.transaction ≠ traNumber then .error .wrongRecordVersion
    else
      match saved with
      | some data => .ok ({ head with deleted := false, data } :: tail, false)
      | none =>
        match preserveLocks, tail with
        | true, prev :: _ =>
          .ok ({ head with format := prev.format, deleted := prev.deleted, data := prev.data } :: tail, true)
        | _, _ => .ok (tail, false)

/-- Undo the changes of an action, record by record, and collect the records whose version stays. -/
def undoRecords (traNumber : TraNumber) (preserveLocks : Bool) (space : UndoSpace) (action : VerbAction) :
    List RecordNumber → Chains → Except SavepointError (Chains × Finset RecordNumber)
  | [], chains => .ok (chains, ∅)
  | number :: numbers, chains =>
    let saved := (action.locate number).bind fun item => space.data item.offset
    match undoRecord traNumber preserveLocks saved (chains action.relation number) with
    | .error e => .error e
    | .ok (chain, preserved) =>
      match undoRecords traNumber preserveLocks space action numbers (setChain chains action.relation number chain) with
      | .error e => .error e
      | .ok (chains, records) => .ok (chains, if preserved then insert number records else records)

/-- The savepoint below takes the records whose versions stay. -/
def preserveRecords (preserveLocks : Bool) (relation : RelationId) (preserved : Finset RecordNumber) :
    List Savepoint → List Savepoint
  | [] => []
  | next :: rest =>
    if preserveLocks then
      let preserveAction := createAction next.actions relation
      { next with
        actions := putAction next.actions
          { preserveAction with records := preserveAction.records ∪ preserved } } :: rest
    else next :: rest

def undoActions (traNumber : TraNumber) (preserveLocks : Bool) : List VerbAction → Chains → UndoSpace →
    List Savepoint → Except SavepointError (Chains × UndoSpace × List Savepoint)
  | [], chains, space, rest => .ok (chains, space, rest)
  | action :: actions, chains, space, rest =>
    match undoRecords traNumber preserveLocks space action (action.records.sort (· ≤ ·)) chains with
    | .error e => .error e
    | .ok (chains, preserved) =>
      match space.releaseAll action.undo with
      | .error e => .error e
      | .ok space =>
        undoActions traNumber preserveLocks actions chains space
          (preserveRecords preserveLocks action.relation preserved rest)

def rollback (t : Transaction) (preserveLocks : Bool) : Except SavepointError Transaction :=
  match t.savepoints with
  | [] => .error .noSavepoint
  | s :: rest =>
    match undoActions t.traNumber preserveLocks s.actions t.chains t.undoSpace rest with
    | .ok (chains, undoSpace, rest) => .ok { t with chains, undoSpace, savepoints := rest }
    | .error e => .error e

/-- Move the undo items to the next action, or release those of records it has touched. -/
def mergeItems (traNumber : TraNumber) (chains : Chains) (relation : RelationId) : List UndoItem →
    Option VerbAction → UndoSpace → Except SavepointError (Option VerbAction × UndoSpace)
  | [], next, space => .ok (next, space)
  | item :: items, next, space =>
    match next.filter fun n => item.number ∉ n.records with
    | some n =>
      -- an item that is already there stays, and this one is lost
      if (n.locate item.number).isSome then mergeItems traNumber chains relation items next space
      else mergeItems traNumber chains relation items (some { n with undo := n.undo ++ [item] }) space
    | none =>
      match garbageCollectIdxLite traNumber chains relation item.number with
      | .error e => .error e
      | .ok () =>
        match space.release item.offset with
        | .error e => .error e
        | .ok space => mergeItems traNumber chains relation items next space

/-- Merge an action into the next one of its relation: its undo items first, then its records. -/
def mergeTo (traNumber : TraNumber) (chains : Chains) (action : VerbAction) (next : Option VerbAction)
    (space : UndoSpace) : Except SavepointError (Option VerbAction × UndoSpace) :=
  match mergeItems traNumber chains action.relation action.undo next space with
  | .error e => .error e
  | .ok (next, space) => .ok (next.map fun n => { n with records := n.records ∪ action.records }, space)

/-- Merge all actions into those of the next savepoint, if there is one. An action for a relation it
    has not touched is handed over whole. -/
def mergeActions (traNumber : TraNumber) (chains : Chains) : List VerbAction → Option (List VerbAction) →
    UndoSpace → Except SavepointError (Option (List VerbAction) × UndoSpace)
  | [], next, space => .ok (next, space)
  | action :: actions, none, space =>
    match mergeTo traNumber chains action none space with
    | .error e => .error e
    | .ok (_, space) => mergeActions traNumber chains actions none space
  | action :: actions, some next, space =>
    match getAction next action.relation with
    | none => mergeActions traNumber chains actions (some (action :: next)) space
    | some nextAction =>
      match mergeTo traNumber chains action (some nextAction) space with
      | .error e => .error e
      | .ok (merged, space) =>
        mergeActions traNumber chains actions (some (merged.elim next (putAction next))) space

def dropRoot (traNumber : TraNumber) (chains : Chains) (large : Savepoint → Bool) (rest : List Savepoint)
    (space : UndoSpace) : Except SavepointError (List Savepoint × UndoSpace) :=
  match rest with
  | [next] =>
    if next.root && large next then
      match mergeActions traNumber chains next.actions none space with
      | .error e => .error e
      | .ok (_, space) => .ok ([], space)
    else .ok (rest, space)
  | _ => .ok (rest, space)

/-- Release a savepoint with the savepoints `rest` below it. -/
def rollforwardInto (isLarge : Savepoint → Bool) (traNumber : TraNumber) (chains : Chains) (s : Savepoint)
    (rest : List Savepoint) (space : UndoSpace) : Except SavepointError (List Savepoint × UndoSpace) :=
  -- a large savepoint is not merged into the transaction-level one
  match dropRoot traNumber chains (fun _ => isLarge s) rest space with
  | .error e => .error e
  | .ok ([], space) =>
    match mergeActions traNumber chains s.actions none space with
    | .error e => .error e
    | .ok (_, space) => .ok ([], space)
  | .ok (next :: rest, space) =>
    match mergeActions traNumber chains s.actions (some next.actions) space with
    | .error e => .error e
    | .ok (actions, space) =>
      dropRoot traNumber chains isLarge ({ next with actions := actions.getD next.actions } :: rest) space

def rollforward (isLarge : Savepoint → Bool) (t : Transaction) (depth : Nat) : Except SavepointError Transaction :=
  match t.savepoints.drop depth with
  | [] => .error .noSavepoint
  | s :: rest =>
    match rollforwardInto isLarge t.traNumber t.chains s rest t.undoSpace with
    | .ok (rest, undoSpace) => .ok { t with undoSpace, savepoints := t.savepoints.take depth ++ rest }
    | .error e => .error e

inductive Op
  | start (root : Bool)
  | rollback (preserveLocks : Bool)
  | rollforward (depth : Nat)
  | store (relation : RelationId) (number : RecordNumber) (format : FormatNumber) (data : Bytes)
  | modify (relation : RelationId) (number : RecordNumber) (format : FormatNumber) (data : Bytes)
  | erase (relation : RelationId) (number : RecordNumber)

def exec (isLarge : Savepoint → Bool) (t : Transaction) : Op → Except SavepointError Transaction
  | .start root =>
    let contentAtStart := fun relation number => content (t.chains relation number)
    .ok { t with savepoints := { root, actions := [], contentAtStart } :: t.savepoints }
  | .rollback preserveLocks => rollback t preserveLocks
  | .rollforward depth => rollforward isLarge t depth
  | .store relation number format data => vioStore t relation number format data
  | .modify relation number format data => vioModify t relation number format data
  | .erase relation number => vioErase t relation number

end Firebird.Undo
