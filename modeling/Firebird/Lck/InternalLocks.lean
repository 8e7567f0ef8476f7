import Firebird.Lib.Chains
import Firebird.Lock.Table

/-! # The lock manager inside an attachment

The locks of an attachment that have `lck_compatible` set (`src/jrd/lck.cpp`, `src/jrd/lck.h`). Those of one type and
key are in one list, linked by `lck_identical`, and share a request of the lock manager; the heads of the lists are in a
hash table, those of a slot linked by `lck_collision`. The locks are `n` blocks, named by their number. A loop over
links that does not end has no result. -/

namespace Firebird.Lck

open Function Lib
open Firebird.Lock (Level)

/-- A type and the `lck_length` bytes of a key. -/
structure Key where
  type : Nat
  bytes : List UInt8
  deriving DecidableEq

structure Lock (n : Nat) where
  key : Key
  compatible : Option Nat
  compatible2 : Option Nat
  ast : Bool
  attached : Bool
  collision : Option (Fin n)
  identical : Option (Fin n)
  id : Nat
  logical : Level
  physical : Level

/-- A request the lock manager has granted: its level, and the lock its blocking AST gets. -/
structure Request (n : Nat) where
  level : Level
  argument : Fin n

def lockHashSize : Nat := 19

structure State (n : Nat) where
  locks : Fin n → Lock n
  /-- `att_compatibility_table` -/
  table : Fin lockHashSize → Option (Fin n)
  requests : Nat → Option (Request n)

/-- What the lock manager answers in a call, if it is asked. -/
structure Answers where
  enqueue : Option Nat
  convert : Bool
  dequeue : Bool
  downgrade : Level

/-- How a call ends; `bugcheck` when an exception leaves it halfway. -/
inductive Result
  | granted | refused | bugcheck

def maxLevel (a b : Level) : Level := if a.ord < b.ord then b else a

variable {n : Nat}

def compatible (lock1 lock2 : Lock n) (level2 : Level) : Bool :=
  if lock1.compatible.isSome && lock2.compatible.isSome && lock1.compatible == lock2.compatible &&
      (lock1.compatible2.isNone || lock2.compatible2.isNone || lock1.compatible2 == lock2.compatible2) then true
  else Firebird.Lock.compatible lock1.logical level2

namespace State

variable (hash : List UInt8 → Nat) (deliver : Fin n → State n → State n)

def modify (s : State n) (l : Fin n) (f : Lock n → Lock n) : State n :=
  { s with locks := update s.locks l (f (s.locks l)) }

def collision (s : State n) (l : Fin n) : Option (Fin n) := (s.locks l).collision

def identical (s : State n) (l : Fin n) : Option (Fin n) := (s.locks l).identical

def key (s : State n) (l : Fin n) : Key := (s.locks l).key

/-- The slot of a key: `InternalHash::hash`, which depends on the processor, modulo the size of the table. -/
def slot (key : Key) : Fin lockHashSize := ⟨hash key.bytes % lockHashSize, Nat.mod_lt _ (by decide)⟩

/-- `LockManager::enqueue` gives up the prior request and takes a new one. -/
def lmEnqueue (s : State n) (answer : Option Nat) (prior : Nat) (level : Level) (argument : Fin n) : State n :=
  let requests := if prior = 0 then s.requests else update s.requests prior none
  match answer with
  | none => { s with requests }
  | some id => { s with requests := update requests id (some ⟨level, argument⟩) }

def lmConvert (s : State n) (id : Nat) (level : Level) (argument : Fin n) : State n :=
  { s with requests := update s.requests id (some ⟨level, argument⟩) }

def lmDequeue (s : State n) (id : Nat) : State n := { s with requests := update s.requests id none }

/-- The loop of `hash_get_lock`: the first lock of the key, and the lock whose `lck_collision` it was reached by. -/
def findCollision (s : State n) (key : Key) : Nat → Option (Fin n) → Option (Fin n) →
    Option (Option (Option (Fin n) × Fin n))
  | _, _, none => some none
  | 0, _, some _ => none
  | fuel + 1, prior, some c =>
    if s.key c = key then some (some (prior, c)) else s.findCollision key fuel (some c) (s.collision c)

def hashGetLock (s : State n) (l : Fin n) : Option (Option (Option (Fin n) × Fin n)) :=
  if (s.locks l).attached then s.findCollision (s.key l) n none (s.table (slot hash (s.key l))) else some none

/-- `*prior = target`, where the slot of the key is pointed at by no lock. -/
def setPrior (s : State n) (key : Key) (prior target : Option (Fin n)) : State n :=
  match prior with
  | none => { s with table := update s.table (slot hash key) target }
  | some p => s.modify p fun lock => { lock with collision := target }

def hashInsertLock (s : State n) (l : Fin n) : Option (State n) :=
  if (s.locks l).attached then
    match s.hashGetLock hash l with
    | none => none
    | some none =>
      let s := s.modify l fun lock => { lock with collision := s.table (slot hash lock.key) }
      some { s with table := update s.table (slot hash (s.key l)) (some l) }
    | some (some (_, head)) =>
      -- second in the list
      let s := s.modify l fun lock => { lock with identical := s.identical head }
      some (s.modify head fun lock => { lock with identical := some l })
  else some s

/-- The lock before `l` in an identical list, if `l` is in it. -/
def lastBefore (s : State n) (l : Fin n) : Nat → Fin n → Option (Fin n) → Option (Option (Fin n))
  | _, _, none => some none
  | 0, _, some _ => none
  | fuel + 1, last, some next => if next = l then some (some last) else s.lastBefore l fuel next (s.identical next)

/-- `lck_compatible` is cleared before the bugcheck, so that the lock is not released again. -/
def lockNotFound (s : State n) (l : Fin n) : State n := s.modify l fun lock => { lock with compatible := none }

/-- `hash_remove_lock`: whether the lock was the last one of its key, and the first lock found. -/
def hashRemoveLock (s : State n) (l : Fin n) : Option (State n × Option (Bool × Fin n)) :=
  match s.hashGetLock hash l with
  | none => none
  | some none => some (s.lockNotFound l, none)
  | some (some (prior, head)) =>
    if head = l then
      match s.identical l with
      | some second =>
        let s := s.modify second fun lock => { lock with collision := s.collision l }
        some (s.setPrior hash (s.key l) prior (some second), some (false, l))
      | none => some (s.setPrior hash (s.key l) prior (s.collision l), some (true, l))
    else
      match s.lastBefore l n head (s.identical head) with
      | none => none
      | some none => some (s.lockNotFound l, none)
      | some (some last) => some (s.modify last fun lock => { lock with identical := s.identical l },
          some (false, head))

/-- The loop of `internal_ast`: `deliver` is what a blocking AST does. -/
def deliverFrom (l : Fin n) : Nat → Option (Fin n) → State n → Option (State n)
  | _, none, s => some s
  | 0, some _, _ => none
  | fuel + 1, some m, s =>
    if m ≠ l ∧ compatible (s.locks m) (s.locks l) (s.locks l).logical = false ∧ (s.locks m).ast = true then
      deliverFrom l fuel (s.identical m) (deliver m s)
    else deliverFrom l fuel (s.identical m) s

def internalAst (s : State n) (l : Fin n) : Option (State n) :=
  match s.hashGetLock hash l with
  | none => none
  | some none => some s
  | some (some (_, head)) => deliverFrom deliver l n (some head) s

def internalCompatible (s : State n) (head l : Fin n) (level : Level) : Option (State n × Bool) :=
  match walk s.identical n (some head) with
  | none => none
  | some row =>
    if ∃ m ∈ row, (s.locks m).ast = false ∧ compatible (s.locks m) (s.locks l) level = false then some (s, false)
    else
      match s.internalAst hash deliver head with
      | none => none
      | some s =>
        match walk s.identical n (some head) with
        | none => none
        -- the list is compared with its own first lock
        | some row => some (s, row.all fun m => compatible (s.locks m) (s.locks head) level)

def setPhysical (s : State n) (row : List (Fin n)) (level : Level) : State n :=
  { s with locks := fun l => if l ∈ row then { s.locks l with physical := level } else s.locks l }

def highest (s : State n) (row : List (Fin n)) : Level :=
  row.foldl (fun level l => maxLevel level (s.locks l).logical) .none

def internalDowngrade (s : State n) (ans : Answers) (first : Fin n) : Option (State n) :=
  match walk s.identical n (some first) with
  | none => none
  | some row =>
    let level := s.highest row
    if level.ord < (s.locks first).physical.ord ∧ ans.convert = true then
      some ((s.lmConvert (s.locks first).id level first).setPhysical row level)
    else some s

def internalDequeue (s : State n) (ans : Answers) (l : Fin n) : Option (State n × Result) :=
  match s.hashRemoveLock hash l with
  | none => none
  | some (s, none) => some (s, .bugcheck)
  | some (s, some (true, _)) =>
    if ans.dequeue then
      let s := s.lmDequeue (s.locks l).id
      some (s.modify l fun lock => { lock with id := 0, physical := .none, logical := .none }, .granted)
    else some (s, .bugcheck)
  | some (s, some (false, head)) =>
    match s.internalDowngrade ans head with
    | none => none
    | some s => some (s, .granted)

def enqueueNew (s : State n) (ans : Answers) (l : Fin n) (level : Level) : Option (State n × Result) :=
  let s := s.lmEnqueue ans.enqueue (s.locks l).id level l
  match ans.enqueue with
  | none => some (s.modify l fun lock => { lock with id := 0, physical := .none, logical := .none }, .refused)
  | some id =>
    match (s.modify l fun lock => { lock with id := id }).hashInsertLock hash l with
    | none => none
    | some s => some (s.modify l fun lock => { lock with physical := level, logical := level }, .granted)

/-- The request of an identical lock, raised if it has to be, serves the lock too. -/
def shareRequest (s : State n) (ans : Answers) (head l : Fin n) (level : Level) (convertFlg : Bool) :
    Option (State n × Result) :=
  match walk s.identical n (some head) with
  | none => none
  | some row =>
    if (s.locks head).physical.ord < level.ord ∧ ans.convert = false then some (s, .refused)
    else
      let s := if (s.locks head).physical.ord < level.ord then
          (s.lmConvert (s.locks head).id level l).setPhysical row level
        else s
      let s := s.modify l fun lock => { lock with id := (s.locks head).id, logical := level }
      let s := s.modify l fun lock => { lock with physical := (s.locks head).physical }
      if convertFlg then some (s, .granted)
      else
        match s.hashInsertLock hash l with
        | none => none
        | some s => some (s, .granted)

def internalEnqueue (s : State n) (ans : Answers) (l : Fin n) (level : Level) (convertFlg : Bool) :
    Option (State n × Result) :=
  match s.hashGetLock hash l with
  | none => none
  | some none => s.enqueueNew hash ans l level
  | some (some (_, head)) =>
    match s.internalCompatible hash deliver head l level with
    | none => none
    | some (s, false) => some (s, .refused)
    | some (s, true) =>
      -- there may be no identical lock any more
      match s.hashGetLock hash l with
      | none => none
      | some none => s.enqueueNew hash ans l level
      | some (some (_, head)) => s.shareRequest hash ans head l level convertFlg

/-- `enqueue`, for a lock without `lck_compatible` -/
def enqueue (s : State n) (ans : Answers) (l : Fin n) (level : Level) : State n :=
  let s := s.lmEnqueue ans.enqueue (s.locks l).id level l
  match ans.enqueue with
  | none => s.modify l fun lock => { lock with id := 0, physical := .none, logical := .none }
  | some id => s.modify l fun lock => { lock with id := id, physical := level, logical := level }

def lckLock (s : State n) (ans : Answers) (l : Fin n) (level : Level) : Option (State n × Result) :=
  let s := s.modify l fun lock => { lock with attached := true }
  let enqueued :=
    if (s.locks l).compatible.isSome then (s.internalEnqueue hash deliver ans l level false).map Prod.fst
    else some (s.enqueue ans l level)
  match enqueued with
  | none => none
  | some s =>
    if (s.locks l).id = 0 then some (s.modify l fun lock => { lock with attached := false }, .refused) else some
      (s, .granted)

def lckConvert (s : State n) (ans : Answers) (l : Fin n) (level : Level) : Option (State n × Result) :=
  let oldAttached := (s.locks l).attached
  let s := s.modify l fun lock => { lock with attached := true }
  let converted :=
    if (s.locks l).compatible.isSome then s.internalEnqueue hash deliver ans l level true
    else if ans.convert then
      some ((s.lmConvert (s.locks l).id level l).modify l fun lock =>
        { lock with physical := level, logical := level }, .granted)
    else some (s, .refused)
  match converted with
  | none => none
  | some (s, .granted) => some (s, .granted)
  | some (s, result) => some (s.modify l fun lock => { lock with attached := oldAttached }, result)

def lckDowngrade (s : State n) (ans : Answers) (l : Fin n) : Option (State n × Result) :=
  let downgraded :=
    if (s.locks l).id ≠ 0 ∧ (s.locks l).physical ≠ .none then
      if (s.locks l).compatible.isSome then s.internalDowngrade ans l
      else
        let id := (s.locks l).id
        let s := if ans.downgrade = .none then s.lmDequeue id else s.lmConvert id ans.downgrade l
        some (s.modify l fun lock => { lock with physical := ans.downgrade, logical := ans.downgrade })
    else some s
  match downgraded with
  | none => none
  | some s =>
    if (s.locks l).physical = .none then some (s.modify l fun lock =>
      { lock with id := 0, attached := false }, .granted)
    else some (s, .granted)

def lckRelease (s : State n) (ans : Answers) (l : Fin n) : Option (State n × Result) :=
  let dequeued :=
    if (s.locks l).physical = .none then some (s, .granted)
    else if (s.locks l).compatible.isSome then s.internalDequeue hash ans l
    else some (if ans.dequeue then s.lmDequeue (s.locks l).id else s, .granted)
  match dequeued with
  | none => none
  | some (s, .bugcheck) => some (s, .bugcheck)
  | some (s, _) =>
    some (s.modify l fun lock => { lock with physical := .none, logical := .none, id := 0, attached := false },
      .granted)

end State

inductive Call (n : Nat)
  | lock (l : Fin n) (level : Level)
  | convert (l : Fin n) (level : Level)
  | downgrade (l : Fin n)
  | release (l : Fin n)

/-- A call with the answers of the lock manager: the state behind it and how it ended, if it returns. -/
def State.call (hash : List UInt8 → Nat) (deliver : Fin n → State n → State n) (s : State n) (ans : Answers) :
    Call n → Option (State n × Result)
  | .lock l level => s.lckLock hash deliver ans l level
  | .convert l level => s.lckConvert hash deliver ans l level
  | .downgrade l => s.lckDowngrade ans l
  | .release l => s.lckRelease hash ans l

end Firebird.Lck
