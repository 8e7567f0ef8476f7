import Firebird.Tpc.TipCache

/-! # One element of the metadata cache

`ListEntry` and `CacheElement` of `src/jrd/CacheVector.h`. An element holds a list of entries, newest
first; a call works on the list as one step. Locks between processes, the cleanup queue and the counters
of the cache's versions are not in the model. -/

namespace Firebird.Mdc

open Tpc (TraNumber TraState)

/-- The address of a `ListEntry`. -/
abbrev EntryId := Nat

/-- `ObjectBase::Flag`, one field for each bit of `CacheFlag`. -/
structure CacheFlag where
  committed : Bool := false
  erased : Bool := false
  noscan : Bool := false
  autocreate : Bool := false
  nocommit : Bool := false
  noerased : Bool := false
  retired : Bool := false
  miniscan : Bool := false
  dbVersion : Bool := false
  depends : Bool := false

def CacheFlag.tagForUpdate : CacheFlag := { nocommit := true, miniscan := true, dbVersion := true }

inductive ScanResult
  | complete | miss | skip | repeat

/-- The states an entry can be in between two calls: `SCANNING` is left before a call ends and `MISSING` is
    never assigned. -/
inductive State
  | initial | reload | ready
  deriving DecidableEq

inductive StoreResult
  | dup | done | miss | skip

inductive Availability
  | missing | modified | occupied (number : TraNumber) | ready

inductive Exception
  | scan | busy | newVersionBusy (traNum : TraNumber) | random

variable {Obj : Type}

/-- What `Versioned` does in one call: its `create`, and the answers of `scan` and `reload` with the flags they
    leave. No answer stands for an exception. -/
structure Versioned (Obj : Type) where
  create : Option Obj
  scan : Option Obj → CacheFlag → Option (ScanResult × CacheFlag)
  reload : Option Obj → CacheFlag → Option (ScanResult × CacheFlag)

structure ListEntry (Obj : Type) where
  id : EntryId
  object : Option Obj
  traNumber : TraNumber
  cacheFlags : CacheFlag
  state : State := .initial

namespace ListEntry

/-- The private `scan`: `rld` tells that the object was loaded before. -/
def scanObject (vs : Versioned Obj) (obj : Option Obj) (fl : CacheFlag) (rld : Bool) :
    Option (ScanResult × CacheFlag) :=
  if !rld then vs.scan obj fl
  else if fl.miniscan then some (.repeat, fl)
  else vs.reload obj fl

/-- The state after the object answered `result`. -/
def stateAfter (savedState : State) : ScanResult → State
  | .complete => .ready
  | .skip => savedState
  | .repeat => .reload
  | .miss => savedState

/-- The part of `scan` that holds the mutex and loads the object, `reason` as `scan` has it. -/
def load (vs : Versioned Obj) (e : ListEntry Obj) (fl : CacheFlag) (reason : Bool) :
    Except Exception ScanResult × ListEntry Obj :=
  let dbv := e.cacheFlags.dbVersion
  match scanObject vs e.object { fl with dbVersion := fl.dbVersion || dbv } reason with
  | none => (.error .scan, e)
  | some (result, fl') =>
    (.ok result, { e with
      cacheFlags := if dbv && !fl'.dbVersion then { e.cacheFlags with dbVersion := false } else e.cacheFlags
      state := stateAfter e.state result })

def scan (vs : Versioned Obj) (fl : CacheFlag) (e : ListEntry Obj) : Except Exception ScanResult × ListEntry Obj :=
  if e.state = .ready then (.ok .complete, e)
  else if fl.noscan then (.ok .skip, e)
  else
    match e.state with
    | .initial =>
      if e.cacheFlags.erased then (.ok .complete, { e with state := .ready })
      else load vs (if e.object.isNone then { e with object := vs.create } else e) fl false
    | .reload => load vs e fl true
    | .ready => (.ok .complete, e)

/-- `getEntry` of the list: the entry found, as `scan` leaves it, and the list with it. -/
def getEntry (vs : Versioned Obj) (currentTrans : TraNumber) (fl : CacheFlag) :
    List (ListEntry Obj) → Except Exception (Option (ListEntry Obj)) × List (ListEntry Obj)
  | [] => (.ok none, [])
  | e :: older =>
    if e.cacheFlags.committed || e.traNumber == currentTrans then
      if e.cacheFlags.erased then
        if fl.noerased then
          let (r, older') := getEntry vs currentTrans fl older
          (r, e :: older')
        else if fl.erased then (.ok (some e), e :: older)
        else (.ok none, e :: older)
      else
        match e.scan vs fl with
        | (.ok .miss, e') => (.ok none, e' :: older)
        | (.ok _, e') => (.ok (some e'), e' :: older)
        | (.error x, e') => (.error x, e' :: older)
    else
      let (r, older') := getEntry vs currentTrans fl older
      (r, e :: older')

def isBusy (e : ListEntry Obj) (currentTrans : TraNumber) : Bool :=
  !(e.cacheFlags.committed || e.traNumber == currentTrans)

def isReady (e : ListEntry Obj) : Bool := e.state == .ready

def isAvailable (e : ListEntry Obj) : Bool := e.isReady || !e.cacheFlags.nocommit

def rollback (currentTran : TraNumber) : List (ListEntry Obj) → List (ListEntry Obj)
  | [] => []
  | e :: older =>
    if e.cacheFlags.committed then e :: older
    else if e.traNumber ≠ currentTran then e :: older
    else rollback currentTran older

theorem rollback_length_le (currentTran : TraNumber) (list : List (ListEntry Obj)) :
    (rollback currentTran list).length ≤ list.length := by
  induction list with
  | nil => exact Nat.le_refl _
  | cons e older ih =>
    rw [rollback]
    split
    · exact Nat.le_refl _
    · split
      · exact Nat.le_refl _
      · exact Nat.le_succ_of_le ih

theorem rollback_length_lt {e : ListEntry Obj} {currentTrans : TraNumber} (h : e.isBusy currentTrans = true)
    (older : List (ListEntry Obj)) : (rollback e.traNumber (e :: older)).length < (e :: older).length := by
  have hc : e.cacheFlags.committed = false := by
    rw [isBusy] at h
    cases hc : e.cacheFlags.committed <;> simp_all
  rw [rollback, hc, if_neg Bool.false_ne_true, if_neg (fun h => h rfl)]
  exact Nat.lt_succ_of_le (rollback_length_le _ _)

/-- `add`: the entries of a transaction that is not active are rolled back, the entry of another one refuses
    the new value. -/
def add (isNotActive : TraNumber → Bool) (newVal : ListEntry Obj) :
    List (ListEntry Obj) → Bool × List (ListEntry Obj)
  | [] => (true, [newVal])
  | oldVal :: older =>
    if oldVal.isBusy newVal.traNumber = true then
      if isNotActive oldVal.traNumber then add isNotActive newVal (rollback oldVal.traNumber (oldVal :: older))
      else (false, oldVal :: older)
    else (true, newVal :: oldVal :: older)
  termination_by list => list.length
  decreasing_by exact rollback_length_lt ‹_› older

/-- `gc`, `rc` being the transaction number of the last committed entry passed. -/
def gc (oldest : TraNumber) (rc : TraNumber) : List (ListEntry Obj) → TraNumber × List (ListEntry Obj)
  | [] => (rc, [])
  | e :: older =>
    if !e.cacheFlags.committed then
      let (r, older') := gc oldest rc older
      (r, e :: older')
    else if rc ≠ 0 ∧ e.traNumber < oldest then
      if e.cacheFlags.retired then (rc, e :: older) else (rc, [])
    else
      let (r, older') := gc oldest e.traNumber older
      (r, e :: older')

/-- `commit`: the flags from before and the entry. -/
def commit (nextTrans : TraNumber) (e : ListEntry Obj) : CacheFlag × ListEntry Obj :=
  if e.cacheFlags.committed then (e.cacheFlags, e)
  else (e.cacheFlags, { e with
    cacheFlags := { e.cacheFlags with committed := true, nocommit := false, retired := false }
    traNumber := nextTrans })

/-- `upgradable`: whether another version than `from` was made, `from` being in the list. -/
def upgradable [DecidableEq Obj] (fromObj : Option Obj) : List (ListEntry Obj) → Bool
  | [] => false
  | e :: older =>
    if e.object = fromObj then false
    else if e.cacheFlags.committed then true
    else upgradable fromObj older

end ListEntry

/-- What a call reads from outside the element. -/
structure Context (Obj : Type) where
  /-- `TPC_cache_state` -/
  tip : TraNumber → TraState
  oldestActive : TraNumber
  nextTransaction : TraNumber
  /-- `ConsistencyCheck::commitNumber` -/
  commitNumber : Bool
  versioned : Versioned Obj

def Context.isNotActive (cx : Context Obj) (traNumber : TraNumber) : Bool :=
  cx.tip traNumber == .committed || cx.tip traNumber == .dead

def Context.next (cx : Context Obj) : TraNumber := cx.nextTransaction + 1

structure CacheElement (Obj : Type) where
  list : List (ListEntry Obj) := []
  resetAt : TraNumber := 0
  /-- The address of the next entry allocated. -/
  nextId : EntryId := 0

namespace CacheElement
variable (cx : Context Obj)

def setNewResetAt (oldVal newVal : TraNumber) (el : CacheElement Obj) : CacheElement Obj :=
  if el.resetAt = oldVal then { el with resetAt := newVal } else el

/-- `commit`: the head of the list becomes visible, whoever added it. -/
def commit (el : CacheElement Obj) : CacheElement Obj :=
  match el.list with
  | [] => el
  | current :: older => { el with list := (current.commit cx.next).2 :: older }

/-- `rollback`. An element without entries is destroyed and made anew when it is needed. -/
def rollback (currentTran : TraNumber) (el : CacheElement Obj) : CacheElement Obj :=
  match ListEntry.rollback currentTran el.list with
  | [] => { nextId := el.nextId }
  | list => { el with list }

/-- The scan of the entry at the head of the list, which the caller has just put there. -/
def scanHead (fl : CacheFlag) (el : CacheElement Obj) : Except Exception ScanResult × CacheElement Obj :=
  match el.list with
  | [] => (.ok .skip, el)
  | e :: older =>
    let (r, e') := e.scan cx.versioned fl
    (r, { el with list := e' :: older })

/-- The entry that `getEntry` creates for an element without entries. -/
def autocreated (traNum : TraNumber) (fl : CacheFlag) (el : CacheElement Obj) : ListEntry Obj :=
  let newEntry : ListEntry Obj :=
    { id := el.nextId, object := cx.versioned.create, traNumber := traNum, cacheFlags := { fl with erased := false } }
  if !fl.nocommit then (newEntry.commit cx.next).2 else newEntry

def getEntry (traNum : TraNumber) (fl : CacheFlag) (el : CacheElement Obj) :
    Except Exception (Option (ListEntry Obj)) × CacheElement Obj :=
  match el.list with
  | [] =>
    if !fl.autocreate then (.ok none, el)
    else
      let el := { el with list := [autocreated cx traNum fl el], nextId := el.nextId + 1 }
      match scanHead cx fl el with
      | (.ok .miss, el) => (.ok none, el)
      | (.ok _, el) => (.ok el.list.head?, el)
      | (.error x, el) => (.error x, el)
  | list =>
    let (r, list) := ListEntry.getEntry cx.versioned traNum { fl with autocreate := false } list
    (r, { el with list })

/-- `gc` as `storeObject` calls it. -/
def collect (el : CacheElement Obj) : CacheElement Obj :=
  if el.resetAt ≠ 0 ∧ el.resetAt < cx.oldestActive then
    let (rc, list) := ListEntry.gc cx.oldestActive 0 el.list
    setNewResetAt el.resetAt rc { el with list }
  else el

def scanStored (obj : Option Obj) (fl : CacheFlag) (el : CacheElement Obj) :
    Except Exception ScanResult × CacheElement Obj :=
  if obj.isSome && !fl.noscan then scanHead cx fl el else (.ok .skip, el)

def storeResult : ScanResult → StoreResult
  | .complete => .done
  | .repeat => .done
  | .miss => .miss
  | .skip => .skip

def storeObject (cur : TraNumber) (obj : Option Obj) (fl : CacheFlag) (el : CacheElement Obj) :
    Except Exception StoreResult × CacheElement Obj :=
  let oldResetAt := el.resetAt
  let el := collect cx el
  let newEntry : ListEntry Obj := { id := el.nextId, object := obj, traNumber := cur, cacheFlags := fl }
  match ListEntry.add cx.isNotActive newEntry el.list with
  | (false, list) => (.ok .dup, { el with list, nextId := el.nextId + 1 })
  | (true, list) =>
    let el := setNewResetAt oldResetAt cur { el with list, nextId := el.nextId + 1 }
    match scanStored cx obj fl el with
    | (.error x, el) => (.error x, el)
    | (.ok scanResult, el) => (.ok (storeResult scanResult), if !fl.nocommit then commit cx el else el)

/-- `reset`, called when another process committed `tran`. -/
def reset (tran : TraNumber) (erase : Bool) (el : CacheElement Obj) : Except Exception StoreResult × CacheElement Obj :=
  storeObject cx tran none { erased := erase } el

def makeObject (cur : TraNumber) (fl : CacheFlag) (el : CacheElement Obj) :
    Except Exception (Option Obj) × CacheElement Obj :=
  match cx.versioned.create with
  | none => (.error .random, el)
  | some obj =>
    match storeObject cx cur (some obj) { fl with erased := false } el with
    | (.error x, el) => (.error x, el)
    | (.ok .dup, el) => (.ok none, el)
    | (.ok .skip, el) => (.ok (some obj), el)
    | (.ok .done, el) => (.ok (some obj), el)
    | (.ok .miss, el) => (.ok none, el)

/-- `erase`: whether there was something to erase. -/
def erase (cur : TraNumber) (el : CacheElement Obj) : Except Exception Bool × CacheElement Obj :=
  match el.list with
  | [] => (.ok false, el)
  | _ =>
    match storeObject cx cur none { erased := true, nocommit := true } el with
    | (.error x, el) => (.error x, el)
    | (.ok .dup, el) =>
      match getEntry cx 0 {} el with
      | (.error x, el) => (.error x, el)
      | (.ok _, el) => (.error .busy, el)
    | (.ok _, el) => (.ok true, el)

def available (currentTrans : TraNumber) : List (ListEntry Obj) → Availability × List (ListEntry Obj)
  | [] => (.missing, [])
  | e :: older =>
    if e.isBusy currentTrans = true then
      if cx.isNotActive e.traNumber then available currentTrans (ListEntry.rollback e.traNumber (e :: older))
      else (.occupied e.traNumber, e :: older)
    else (if e.isAvailable then .ready else .modified, e :: older)
  termination_by list => list.length
  decreasing_by exact ListEntry.rollback_length_lt ‹_› older

def isAvailable (currentTrans : TraNumber) (el : CacheElement Obj) : Availability × CacheElement Obj :=
  let (a, list) := available cx currentTrans el.list
  (a, { el with list })

/-- `newVersion`. No scan is in progress between two calls. -/
def newVersion (cur : TraNumber) (el : CacheElement Obj) : Except Exception Unit × CacheElement Obj :=
  match isAvailable cx cur el with
  | (.occupied traNum, el) => (if cx.commitNumber then .error (.newVersionBusy traNum) else .ok (), el)
  | (.modified, el) => (.ok (), el)
  | (.missing, el) =>
    let (r, el) := storeObject cx cur none .tagForUpdate el
    (r.map fun _ => (), el)
  | (.ready, el) =>
    let (r, el) := storeObject cx cur none .tagForUpdate el
    (r.map fun _ => (), el)

def upgrade [DecidableEq Obj] (cur : TraNumber) (fromObj : Option Obj) (el : CacheElement Obj) :
    Bool × CacheElement Obj :=
  match el.list with
  | [] => (false, el)
  | l :: older =>
    if l.object ≠ fromObj then (ListEntry.upgradable fromObj el.list, el)
    else if !l.cacheFlags.committed then (false, el)
    else
      let newEntry : ListEntry Obj :=
        { id := el.nextId, object := none, traNumber := cur
          cacheFlags := { committed := true, miniscan := true, dbVersion := true } }
      (true, { el with list := newEntry :: l :: older, nextId := el.nextId + 1 })

end CacheElement
end Firebird.Mdc
