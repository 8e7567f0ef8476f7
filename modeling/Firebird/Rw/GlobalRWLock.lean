import Firebird.Lock.Table

/-! # The global read/write lock

`GlobalRWLock` (`src/jrd/GlobalRWLock.cpp`): readers and writers of a process share one cached lock of the
lock manager. A critical section under `counterMutex` is one step; the mutex is dropped while a caller sleeps on
a condition variable or waits in `LCK_lock`, so a call is several steps. -/

namespace Firebird.Rw
open Lock (Level compatible lowerTo)

def lckRead : Level := .pr
def lckWrite : Level := .ex

/-- The level that `lockWrite` or `lockRead` asks for. -/
def requestedLevel (write : Bool) : Level := if write then lckWrite else lckRead

/-- The number of values of `ULONG`. -/
def ulongSize : Nat := 2 ^ 32

def increment (n : Nat) : Nat := if n + 1 = ulongSize then 0 else n + 1
def decrement (n : Nat) : Nat := if n = 0 then ulongSize - 1 else n - 1

/-- Where a caller is. One that waits for a condition variable is asleep until it is woken. -/
inductive Caller
  | outside
  /-- `noReaders.wait` in `lockWrite` -/
  | noReaders (asleep : Bool)
  /-- `writerFinished.wait` in `lockWrite` -/
  | writerFinished (asleep : Bool)
  /-- `writerFinished.wait` in `lockRead` -/
  | readerWaits (queueJump asleep : Bool)
  /-- `Thread::yield` in `lockRead` -/
  | yields (queueJump : Bool)
  /-- between the critical section and `LCK_lock` -/
  | locks (write : Bool)
  /-- in `LCK_lock`, the lock manager has the request -/
  | queued (write : Bool)
  /-- `LCK_lock` is about to return true -/
  | granted (write : Bool)
  /-- `LCK_lock` is about to return false -/
  | refused (write : Bool)
  /-- `LCK_lock` raised an error, and the call is over -/
  | raised (write : Bool)
  | reads
  | writes
  deriving DecidableEq

namespace Caller

/-- `noReaders.notifyAll` -/
def wakeNoReaders : Caller → Caller
  | noReaders _ => noReaders false
  | c => c

/-- `writerFinished.notifyAll` -/
def wakeWriterFinished : Caller → Caller
  | writerFinished _ => writerFinished false
  | readerWaits queueJump _ => readerWaits queueJump false
  | c => c

/-- A caller woken for no reason, which condition variables allow. -/
def wake : Caller → Caller
  | noReaders _ => noReaders false
  | writerFinished _ => writerFinished false
  | readerWaits queueJump _ => readerWaits queueJump false
  | c => c

def isAwake : Caller → Bool
  | noReaders asleep => !asleep
  | writerFinished asleep => !asleep
  | readerWaits _ asleep => !asleep
  | yields _ => true
  | _ => false

def isReads : Caller → Bool
  | reads => true
  | _ => false

def isWrites : Caller → Bool
  | writes => true
  | _ => false

def isPendingLock : Caller → Bool
  | locks _ => true
  | queued _ => true
  | granted _ => true
  | refused _ => true
  | raised _ => true
  | _ => false

def isPendingWriter : Caller → Bool
  | noReaders _ => true
  | writerFinished _ => true
  | locks write => write
  | queued write => write
  | granted write => write
  | refused write => write
  | raised write => write
  | _ => false

end Caller

/-- The fields of a `GlobalRWLock`, with `lck_physical` of its cached lock and the mark `LRQ_blocking_seen` that
    the lock manager sets on the request when it delivers a blocking AST for it. -/
structure Vars where
  pendingLock : Nat
  readers : Nat
  pendingWriters : Nat
  currentWriter : Bool
  lockCaching : Bool
  blocking : Bool
  lckPhysical : Level
  blockingSeen : Bool

structure Process (T : Type) extends Vars where
  callers : T → Caller

namespace Process
variable {T : Type} [DecidableEq T]

def initial (lockCaching : Bool) : Process T :=
  { pendingLock := 0, readers := 0, pendingWriters := 0, currentWriter := false, lockCaching, blocking := false
    lckPhysical := .none, blockingSeen := false, callers := fun _ => .outside }

def setCaller (p : Process T) (t : T) (c : Caller) : Process T := { p with callers := Function.update p.callers t c }

def notifyNoReaders (p : Process T) : Process T := { p with callers := fun t => (p.callers t).wakeNoReaders }

def notifyWriterFinished (p : Process T) : Process T := { p with callers := fun t => (p.callers t).wakeWriterFinished }

def invalidate (p : Process T) : Process T := { p with blocking := false }

def lckRelease (p : Process T) : Process T := { p with lckPhysical := .none, blockingSeen := false }

/-- `LCK_downgrade`, `pending` being the highest level that others wait for. -/
def lckDowngrade (p : Process T) (pending : Level) : Process T :=
  if p.lckPhysical = .none then p
  else
    let level := lowerTo pending p.lckPhysical.ord
    if level = .none ∨ level = .null then p.lckRelease else { p with lckPhysical := level, blockingSeen := false }

/-- `lockWrite` from its stage 3 on, up to `LCK_lock`. -/
def lockWriteStage3 (p : Process T) (t : T) : Process T :=
  if p.lckPhysical = lckWrite then
    ({ p with pendingWriters := decrement p.pendingWriters, currentWriter := true } : Process T).setCaller t .writes
  else
    let p := if p.lckPhysical ≠ .none then p.lckRelease.invalidate else p
    ({ p with pendingLock := increment p.pendingLock } : Process T).setCaller t (.locks true)

def lockWriteStage2 (p : Process T) (t : T) : Process T :=
  if p.currentWriter = true ∨ p.pendingLock ≠ 0 then p.setCaller t (.writerFinished true) else p.lockWriteStage3 t

def lockWriteStage1 (p : Process T) (t : T) : Process T :=
  if 0 < p.readers then p.setCaller t (.noReaders true) else p.lockWriteStage2 t

def lockWrite (p : Process T) (t : T) : Process T :=
  ({ p with pendingWriters := increment p.pendingWriters } : Process T).lockWriteStage1 t

/-- `lockWrite` after `LCK_lock` returned false. -/
def lockWriteRefused (p : Process T) (t : T) : Process T :=
  let p : Process T := { p with
    pendingLock := decrement p.pendingLock
    pendingWriters := decrement p.pendingWriters }
  let p := p.setCaller t .outside
  if p.pendingWriters ≠ 0 then
    if p.currentWriter = false then p.notifyWriterFinished else p
  else p

/-- Scope 2 of `lockWrite`, `fetched` being what `fetch` returns. -/
def lockWriteGranted (p : Process T) (t : T) (fetched : Bool) : Process T :=
  let p : Process T := { p with
    pendingLock := decrement p.pendingLock
    pendingWriters := decrement p.pendingWriters }
  let p := if fetched then ({ p with currentWriter := true } : Process T).setCaller t
    .writes else p.setCaller t .outside
  if p.currentWriter = false then p.notifyWriterFinished else p

def unlockWrite (p : Process T) (t : T) (release : Bool) (pending : Level) : Process T :=
  let p := ({ p with currentWriter := false } : Process T).setCaller t .outside
  let p :=
    if p.lockCaching = false ∨ release = true then p.lckRelease
    else if p.blocking then p.lckDowngrade pending
    else p
  let p : Process T := { p with blocking := false }
  let p := if p.lckPhysical.ord < lckRead.ord then p.invalidate else p
  p.notifyWriterFinished

/-- The loop of `lockRead` from the wait for writers on, up to `LCK_lock`. -/
def lockReadStage2 (p : Process T) (t : T) (queueJump : Bool) : Process T :=
  if 0 < p.pendingWriters ∨ p.currentWriter = true then p.setCaller t (.readerWaits queueJump true)
  else if p.pendingLock ≠ 0 then p.setCaller t (.yields queueJump)
  else if lckRead.ord ≤ p.lckPhysical.ord then
    ({ p with readers := increment p.readers } : Process T).setCaller t .reads
  else ({ p with pendingLock := increment p.pendingLock } : Process T).setCaller t (.locks false)

def lockRead (p : Process T) (t : T) (queueJump : Bool) : Process T :=
  if 0 < p.readers ∧ queueJump = true then
    ({ p with readers := increment p.readers } : Process T).setCaller t .reads
  else p.lockReadStage2 t queueJump

/-- `lockRead` after `LCK_lock` returned false. -/
def lockReadRefused (p : Process T) (t : T) : Process T :=
  ({ p with pendingLock := decrement p.pendingLock } : Process T).setCaller t .outside

/-- Scope 2 of `lockRead`, `fetched` being what `fetch` returns. -/
def lockReadGranted (p : Process T) (t : T) (fetched : Bool) : Process T :=
  let p : Process T := { p with pendingLock := decrement p.pendingLock }
  if fetched then ({ p with readers := increment p.readers } : Process T).setCaller t .reads else p.setCaller t .outside

def unlockRead (p : Process T) (t : T) : Process T :=
  let p := ({ p with readers := decrement p.readers } : Process T).setCaller t .outside
  if p.readers = 0 then
    let p := if p.lockCaching = false ∨ p.pendingWriters ≠ 0 ∨ p.blocking = true then p.lckRelease.invalidate else p
    p.notifyNoReaders
  else p

def tryReleaseLock (p : Process T) : Process T :=
  if p.readers ≠ 0 ∨ p.currentWriter = true then p
  else if p.lckPhysical ≠ .none then p.lckRelease.invalidate
  else p

/-- `blockingAstHandler`, `convertible` telling whether `LCK_convert` gives `LCK_read`. -/
def blockingAstHandler (p : Process T) (pending : Level) (convertible : Bool) : Process T :=
  if p.pendingLock = 0 ∧ p.currentWriter = false ∧ p.readers = 0 then
    let p := p.lckDowngrade pending
    if p.lckPhysical.ord < lckRead.ord then p.invalidate else p
  else if p.pendingLock = 0 ∧ p.currentWriter = false ∧ p.readers ≠ 0 ∧ lckRead.ord < p.lckPhysical.ord then
    if convertible then { p with lckPhysical := lckRead, blockingSeen := false } else { p with blocking := true }
  else { p with blocking := true }

def goOn (p : Process T) (t : T) : Process T :=
  match p.callers t with
  | .noReaders _ => p.lockWriteStage1 t
  | .writerFinished _ => p.lockWriteStage2 t
  | .readerWaits queueJump _ => p.lockReadStage2 t queueJump
  | .yields queueJump => p.lockRead t queueJump
  | _ => p

end Process

abbrev Processes (P T : Type) := P → Process T

/-- A step: a caller `t` of the process `p` runs up to its next wait, the lock manager answers a request, or it
    delivers a blocking AST. -/
inductive Op (P T : Type)
  | lockWrite (p : P) (t : T)
  | lockRead (p : P) (t : T) (queueJump : Bool)
  | wake (p : P) (t : T)
  | goOn (p : P) (t : T)
  | enqueue (p : P) (t : T) (write : Bool)
  | grant (p : P) (t : T) (write : Bool)
  | refuse (p : P) (t : T) (write : Bool)
  | raise (p : P) (t : T) (write : Bool)
  | granted (p : P) (t : T) (write fetched : Bool)
  | refused (p : P) (t : T) (write : Bool)
  | unlockWrite (p : P) (t : T) (release : Bool)
  | unlockRead (p : P) (t : T)
  | tryReleaseLock (p : P)
  | blockingAst (p : P)

namespace Processes
variable {P T : Type} [Fintype P] [DecidableEq P] [Fintype T] [DecidableEq T]

def pendingState (s : Processes P T) (p : P) : Level :=
  if ∃ q, q ≠ p ∧ ∃ t, (s q).callers t = .queued true then lckWrite
  else if ∃ q, q ≠ p ∧ ∃ t, (s q).callers t = .queued false then lckRead
  else .none

def Compatible (s : Processes P T) (p : P) (level : Level) : Prop :=
  ∀ q, q ≠ p → compatible level (s q).lckPhysical = true

instance (s : Processes P T) (p : P) (level : Level) : Decidable (s.Compatible p level) :=
  inferInstanceAs (Decidable (∀ q, q ≠ p → compatible level (s q).lckPhysical = true))

def effect (s : Processes P T) : Op P T → P × Process T
  | .lockWrite p t => (p, (s p).lockWrite t)
  | .lockRead p t queueJump => (p, (s p).lockRead t queueJump)
  | .wake p t => (p, (s p).setCaller t ((s p).callers t).wake)
  | .goOn p t => (p, (s p).goOn t)
  | .enqueue p t write => (p, (s p).setCaller t (.queued write))
  | .grant p t write =>
    (p, ({ s p with lckPhysical := requestedLevel write, blockingSeen := false } : Process T).setCaller t
      (.granted write))
  | .refuse p t write => (p, (s p).setCaller t (.refused write))
  | .raise p t write => (p, (s p).setCaller t (.raised write))
  | .granted p t write fetched =>
    (p, if write then (s p).lockWriteGranted t fetched else (s p).lockReadGranted t fetched)
  | .refused p t write => (p, if write then (s p).lockWriteRefused t else (s p).lockReadRefused t)
  | .unlockWrite p t release => (p, (s p).unlockWrite t release (s.pendingState p))
  | .unlockRead p t => (p, (s p).unlockRead t)
  | .tryReleaseLock p => (p, (s p).tryReleaseLock)
  | .blockingAst p =>
    (p, ({ s p with blockingSeen := decide ((s p).lckPhysical ≠ .none) } : Process T).blockingAstHandler
      (s.pendingState p) (decide (s.Compatible p lckRead)))

def after (s : Processes P T) (op : Op P T) : Processes P T :=
  Function.update s (s.effect op).1 (s.effect op).2

/-- Who can take a step: a caller unlocks what it has locked, and the lock manager grants what is compatible. -/
def Allowed (s : Processes P T) : Op P T → Prop
  | .lockWrite p t => (s p).callers t = .outside
  | .lockRead p t _ => (s p).callers t = .outside
  | .wake _ _ => True
  | .goOn p t => ((s p).callers t).isAwake = true
  | .enqueue p t write => (s p).callers t = .locks write
  | .grant p t write => (s p).callers t = .queued write ∧ s.Compatible p (requestedLevel write)
  | .refuse p t write => (s p).callers t = .queued write
  | .raise p t write => (s p).callers t = .queued write
  | .granted p t write _ => (s p).callers t = .granted write
  | .refused p t write => (s p).callers t = .refused write
  | .unlockWrite p t _ => (s p).callers t = .writes
  | .unlockRead p t => (s p).callers t = .reads
  | .tryReleaseLock _ => True
  | .blockingAst _ => True

end Processes
end Firebird.Rw
