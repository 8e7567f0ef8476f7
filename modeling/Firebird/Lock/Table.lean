import Mathlib

/-! # The lock table

The locks, requests and queues of `LockManager` (`src/lock/lock.cpp`, `src/lock/lock_proto.h`). A call
runs under the table's mutex; `wait_for_request` gives it up, so a call that waits is several steps: it marks
its request pending, others grant or reject the request, and it goes on from there. Blocking notifications, lock
data, history and statistics are not in the model, and blocks are not reused. -/

namespace Firebird.Lock

open Function

/-- `LCK_none`, …, `LCK_EX` -/
inductive Level
  | none | null | sr | pr | sw | pw | ex
  deriving DecidableEq

namespace Level

instance : Fintype Level where
  elems := {none, null, sr, pr, sw, pw, ex}
  complete s := by cases s <;> decide

def ord : Level → Nat
  | none => 0
  | null => 1
  | sr => 2
  | pr => 3
  | sw => 4
  | pw => 5
  | ex => 6

def ofOrd : Nat → Level
  | 0 => none
  | 1 => null
  | 2 => sr
  | 3 => pr
  | 4 => sw
  | 5 => pw
  | _ => ex

end Level

/-- `compatibility`, rows and columns in the order of the constants. -/
def compatibility : List (List Bool) :=
  [[true, true, true, true, true, true, true],
   [true, true, true, true, true, true, true],
   [true, true, true, true, true, true, false],
   [true, true, true, true, false, false, false],
   [true, true, true, false, true, false, false],
   [true, true, true, false, false, false, false],
   [true, true, false, false, false, false, false]]

def compatible (a b : Level) : Bool := (compatibility.getD a.ord []).getD b.ord false

/-- The number of values of `USHORT`. -/
def ushortSize : Nat := 2 ^ 16

def increment (n : Nat) : Nat := (n + 1) % ushortSize
def decrement (n : Nat) : Nat := (n + (ushortSize - 1)) % ushortSize

abbrev RequestId := Nat
abbrev OwnerId := Nat

/-- What `find_lock` compares. -/
structure LockKey where
  series : Nat
  value : List Nat
  deriving DecidableEq

/-- A request of a lock, as a call gets it. -/
structure Handle where
  key : LockKey
  id : RequestId
  deriving DecidableEq

structure Lrq where
  id : RequestId
  owner : OwnerId
  requested : Level
  state : Level
  /-- `LRQ_pending` -/
  pending : Bool
  /-- `LRQ_rejected` -/
  rejected : Bool
  deriving DecidableEq

structure Lbl where
  requests : List Lrq
  state : Level
  pendingLrqCount : Nat
  counts : Level → Nat

/-- The pending queues of the owners. -/
abbrev Pending := OwnerId → List Handle

def Lbl.add (lock : Lbl) (s : Level) : Lbl :=
  { lock with counts := update lock.counts s (increment (lock.counts s)) }

def Lbl.sub (lock : Lbl) (s : Level) : Lbl :=
  { lock with counts := update lock.counts s (decrement (lock.counts s)) }

def lockState (lock : Lbl) : Level :=
  if lock.counts .ex ≠ 0 then .ex
  else if lock.counts .pw ≠ 0 then .pw
  else if lock.counts .sw ≠ 0 then .sw
  else if lock.counts .pr ≠ 0 then .pr
  else if lock.counts .sr ≠ 0 then .sr
  else if lock.counts .null ≠ 0 then .null
  else .none

/-- The request leaves its owner's pending queue and is pending no longer. -/
def removePending (key : LockKey) (own : Pending) (lock : Lbl) (r : Lrq) : Lbl × Pending × Lrq :=
  ({ lock with pendingLrqCount := decrement lock.pendingLrqCount },
    update own r.owner ((own r.owner).erase ⟨key, r.id⟩), { r with pending := false })

/-- `grant`. The caller has decremented the count of the former state. -/
def grant (key : LockKey) (own : Pending) (lock : Lbl) (r : Lrq) : Lbl × Pending × Lrq :=
  let lock := lock.add r.requested
  let lock := { lock with state := lockState lock }
  let r := { r with state := r.requested }
  if r.pending then removePending key own lock r else (lock, own, r)

/-- The first loop of `post_pending`, over the requests from some one on. -/
def grantPending (key : LockKey) (own : Pending) (lock : Lbl) : List Lrq → Lbl × Pending × List Lrq
  | [] => (lock, own, [])
  | r :: rest =>
    if !r.pending then
      let (lock', own', rest') := grantPending key own lock rest
      (lock', own', r :: rest')
    else if r.state ≠ .none then
      if compatible r.requested (lockState (lock.sub r.state)) then
        let (lock₁, own₁, r') := grant key own (lock.sub r.state) r
        let (lock', own', rest') := grantPending key own₁ lock₁ rest
        (lock', own', r' :: rest')
      else ((lock.sub r.state).add r.state, own, r :: rest)
    else if compatible r.requested lock.state then
      let (lock₁, own₁, r') := grant key own lock r
      let (lock', own', rest') := grantPending key own₁ lock₁ rest
      (lock', own', r' :: rest')
    else (lock, own, r :: rest)

def postPending (key : LockKey) (own : Pending) (lock : Lbl) : Lbl × Pending :=
  if lock.pendingLrqCount = 0 then (lock, own)
  else
    let (lock', own', requests) := grantPending key own lock lock.requests
    ({ lock' with requests }, own')

def removeRequest (id : RequestId) (l : List Lrq) : List Lrq := l.filter fun x => x.id ≠ id

def setRequest (r : Lrq) (l : List Lrq) : List Lrq := l.map fun x => if x.id = r.id then r else x

/-- `release_request`; a lock without requests is freed. -/
def releaseRequest (key : LockKey) (own : Pending) (lock : Lbl) (r : Lrq) : Option Lbl × Pending :=
  let lock := { lock with requests := removeRequest r.id lock.requests }
  let (lock, own, _) := if r.pending then removePending key own lock r else (lock, own, r)
  if lock.requests = [] then (none, own)
  else
    let lock := if r.state ≠ .none then lock.sub r.state else lock
    let lock := if r.state ≠ .none ∧ lock.counts r.state = 0 then { lock with state := lockState lock } else lock
    let (lock, own) := postPending key own lock
    (some lock, own)

/-- The start of `wait_for_request`: the request is pending from here on. -/
def waitForRequest (key : LockKey) (own : Pending) (lock : Lbl) (r : Lrq) : Lbl × Pending :=
  let r := { r with rejected := false, pending := true }
  let requests := if r.state = .none then removeRequest r.id lock.requests ++ [r] else setRequest r lock.requests
  ({ lock with pendingLrqCount := increment lock.pendingLrqCount, requests },
    update own r.owner (own r.owner ++ [⟨key, r.id⟩]))

/-- `grant_or_que` up to the wait, the request being the last one of the lock. -/
def grantOrQue (key : LockKey) (own : Pending) (lock : Lbl) (r : Lrq) (lckWait : Bool) : Option Lbl × Pending :=
  if compatible r.requested lock.state = true ∧ (r.requested = .null ∨ lock.pendingLrqCount = 0) then
    let (lock, own, r) := grant key own lock r
    let (lock, own) := postPending key own { lock with requests := setRequest r lock.requests }
    (some lock, own)
  else if lckWait then
    let (lock, own) := waitForRequest key own lock r
    (some lock, own)
  else releaseRequest key own lock r

/-- `internal_convert` up to the wait. -/
def internalConvert (key : LockKey) (own : Pending) (lock : Lbl) (r : Lrq) (type : Level) (lckWait : Bool) :
    Lbl × Pending :=
  let r := { r with requested := type }
  if compatible type (lockState (lock.sub r.state)) then
    let (lock, own, r) := grant key own (lock.sub r.state) r
    postPending key own { lock with requests := setRequest r lock.requests }
  else
    let lock := (lock.sub r.state).add r.state
    if lckWait then waitForRequest key own lock r
    else ({ lock with requests := setRequest { r with requested := r.state } lock.requests }, own)

/-- The end of `internal_convert` for a rejected request. -/
def convertRejected (key : LockKey) (own : Pending) (lock : Lbl) (r : Lrq) : Lbl × Pending :=
  let (lock, own) := postPending key own lock
  ({ lock with requests := setRequest { r with requested := r.state } lock.requests }, own)

def pendingState (l : List Lrq) (id : RequestId) : Level :=
  l.foldl (fun s x => if x.pending ∧ x.id ≠ id ∧ s.ord < x.requested.ord then x.requested else s) .none

/-- The loop of `downgrade` on the state. -/
def lowerTo (pendingState : Level) : Nat → Level
  | 0 => .none
  | n + 1 => if compatible pendingState (.ofOrd (n + 1)) then .ofOrd (n + 1) else lowerTo pendingState n

def downgradeState (lock : Lbl) (r : Lrq) : Level := lowerTo (pendingState lock.requests r.id) r.state.ord

structure Table where
  locks : LockKey → Option Lbl
  ownPending : Pending
  ownRequests : OwnerId → List Handle
  nextId : RequestId

/-- A table that was just initialized. -/
def Table.empty : Table :=
  { locks := fun _ => none, ownPending := fun _ => [], ownRequests := fun _ => [], nextId := 0 }

namespace Table

def request (t : Table) (h : Handle) : Option (Lbl × Lrq) :=
  match t.locks h.key with
  | none => none
  | some lock => (lock.requests.find? fun r => r.id = h.id).map fun r => (lock, r)

def setLock (t : Table) (key : LockKey) (lock : Option Lbl × Pending) : Table :=
  { t with locks := update t.locks key lock.1, ownPending := lock.2 }

/-- `internal_dequeue`, and `release_request` as `purge_owner` calls it. -/
def dequeue (t : Table) (h : Handle) : Table :=
  match t.request h with
  | none => t
  | some (lock, r) =>
    { t.setLock h.key (releaseRequest h.key t.ownPending lock r) with
      ownRequests := update t.ownRequests r.owner ((t.ownRequests r.owner).erase h) }

def newRequest (t : Table) (owner : OwnerId) (type : Level) : Lrq :=
  { id := t.nextId, owner, requested := type, state := .none, pending := false, rejected := false }

def newLock (type : Level) : Lbl := { requests := [], state := type, pendingLrqCount := 0, counts := fun _ => 0 }

/-- `enqueue` after the prior request is gone. -/
def enqueueNew (t : Table) (owner : OwnerId) (key : LockKey) (type : Level) (lckWait : Bool) : Table :=
  let r := t.newRequest owner type
  let t : Table := { t with
    nextId := t.nextId + 1
    ownRequests := update t.ownRequests owner (t.ownRequests owner ++ [(⟨key, r.id⟩ : Handle)]) }
  match t.locks key with
  | none =>
    let (lock, own, r') := grant key t.ownPending (newLock type) r
    t.setLock key (some { lock with requests := [r'] }, own)
  | some lock =>
    t.setLock key (grantOrQue key t.ownPending { lock with requests := lock.requests ++ [r] } r lckWait)

def enqueue (t : Table) (owner : OwnerId) (key : LockKey) (type : Level) (lckWait : Bool) (prior : Option Handle) :
    Table :=
  match prior with
  | none => t.enqueueNew owner key type lckWait
  | some h => (t.dequeue h).enqueueNew owner key type lckWait

def convert (t : Table) (h : Handle) (type : Level) (lckWait : Bool) : Table :=
  match t.request h with
  | none => t
  | some (lock, r) =>
    let (lock, own) := internalConvert h.key t.ownPending lock r type lckWait
    t.setLock h.key (some lock, own)

def downgrade (t : Table) (h : Handle) : Table :=
  match t.request h with
  | none => t
  | some (lock, r) =>
    let state := downgradeState lock r
    if state = .none ∨ state = .null then t.dequeue h else t.convert h state false

/-- A pending request is rejected: its wait timed out or was cancelled, or a deadlock scan chose it. -/
def reject (t : Table) (h : Handle) : Table :=
  match t.request h with
  | none => t
  | some (lock, r) =>
    let (lock, own, r) := removePending h.key t.ownPending lock { r with rejected := true }
    t.setLock h.key (some { lock with requests := setRequest r lock.requests }, own)

def enqueueRejected (t : Table) (h : Handle) : Table := t.dequeue h

def convertRejected (t : Table) (h : Handle) : Table :=
  match t.request h with
  | none => t
  | some (lock, r) =>
    let (lock, own) := Lock.convertRejected h.key t.ownPending lock r
    t.setLock h.key (some lock, own)

def purgeOwner (t : Table) (owner : OwnerId) : Table := (t.ownRequests owner).foldl dequeue t

end Table
end Firebird.Lock
