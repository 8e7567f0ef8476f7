import Firebird.Lib.Run

/-! # Locks of threads

`SyncObject` (`src/common/classes/SyncObject.cpp`), a lock that threads take shared or exclusively. An access to its
fields is a step, and so is what a thread does while it has `mutex`. The names of the calling functions and what
is done in builds for development only are left out. -/

namespace Firebird.Sync

open Function

def writerIncr : Nat := 0x00010000
def readersMask : Nat := 0x0000FFFF

inductive SyncType
  | shared
  | exclusive
  deriving DecidableEq

namespace SyncType

/-- What a thread that waits for the lock adds to `waiters`. -/
def waiterIncr : SyncType → Nat
  | shared => 1
  | exclusive => writerIncr

/-- The loop of `lock` is not left for this value of `lockState`. -/
def Admits : SyncType → Int → Prop
  | shared, oldState => 0 ≤ oldState
  | exclusive, oldState => oldState = 0

instance : (type : SyncType) → (oldState : Int) → Decidable (type.Admits oldState)
  | shared, oldState => inferInstanceAs (Decidable (0 ≤ oldState))
  | exclusive, oldState => inferInstanceAs (Decidable (oldState = 0))

/-- `newState` of `lock` -/
def locked : SyncType → Int → Int
  | shared, oldState => oldState + 1
  | exclusive, _ => -1

/-- `newState` of `unlock` -/
def unlocked : SyncType → Int → Int
  | shared, oldState => oldState - 1
  | exclusive, _ => 0

end SyncType

/-- A call of `lock`, or of `lockConditional`, which has no `timeOut`. -/
structure Call where
  type : SyncType
  conditional : Bool
  timeOut : Int
  deriving DecidableEq

inductive Stage
  | outside
  /-- `if (waitingThreads)` of `lockConditional` -/
  | testQueue (c : Call)
  /-- `if (thread == exclusiveThread)` -/
  | testOwner (c : Call)
  /-- `while (waiters == 0)` -/
  | testWaiters (c : Call)
  /-- `oldState = lockState` -/
  | readState (c : Call)
  /-- `lockState.compareExchange(oldState, newState)` -/
  | exchange (c : Call) (oldState : Int) (admits : c.type.Admits oldState)
  /-- `exclusiveThread = thread` -/
  | setOwner
  /-- `mutex.enter` -/
  | enter (c : Call)
  /-- `sleep` in `wait`, with `lockGranted` of the thread -/
  | asleep (type : SyncType) (timeOut : Int) (lockGranted : Bool)
  /-- `if (monitorCount)` of `unlock` -/
  | testMonitor (type : SyncType)
  /-- `exclusiveThread = NULL` of `unlock` -/
  | clearOwner (type : SyncType)
  /-- `oldState = lockState` of `unlock` -/
  | readHeld (type : SyncType)
  /-- `lockState.compareExchange(oldState, newState)` of `unlock` -/
  | release (type : SyncType) (oldState : Int)
  /-- `if (newState == 0 && waiters)` of `unlock`, for 0 -/
  | testWaiting
  /-- `exclusiveThread = NULL` of `downgrade` -/
  | clearWriter
  /-- `lockState.compareExchange(-1, 1)` of `downgrade` -/
  | turnReader
  /-- `if (waiters & READERS_MASK)` of `downgrade` -/
  | testReaders
  /-- `grantLocks` -/
  | grant
  deriving DecidableEq

namespace Call

/-- The loop of the call begins. Only the shared one of `lockConditional` does not look at `waiters`. -/
def loop (c : Call) : Stage :=
  if c.conditional = true ∧ c.type = .shared then .readState c else .testWaiters c

def start (c : Call) : Stage := if c.type = .exclusive then .testOwner c else c.loop

def miss (c : Call) : Stage := if c.conditional = true ∨ c.timeOut = 0 then .outside else .enter c

end Call

/-- `thread->lockGranted = true` -/
def Stage.granted : Stage → Stage
  | asleep type timeOut _ => asleep type timeOut true
  | stage => stage

structure State (T : Type) where
  lockState : Int
  waiters : Nat
  monitorCount : Nat
  exclusiveThread : Option T
  /-- The circular list that begins with `waitingThreads`, each thread with its `lockType`. -/
  waitingThreads : List (T × SyncType)
  stage : T → Stage
  /-- The locks that threads have, which no field records: one for each that was granted and not given back. -/
  owners : List (T × SyncType)

def initial (T : Type) : State T := ⟨0, 0, 0, none, [], fun _ => .outside, []⟩

/-- The loop of `grantLocks` over `n` readers of the list: those it wakes, and the list without them. -/
def wakeReaders {T : Type} : Nat → List (T × SyncType) → List T × List (T × SyncType)
  | 0, l => ([], l)
  | _, [] => ([], [])
  | n + 1, (t, .shared) :: l => ((wakeReaders n l).1.cons t, (wakeReaders n l).2)
  | n + 1, (t, .exclusive) :: l => ((wakeReaders (n + 1) l).1, (wakeReaders (n + 1) l).2.cons (t, .exclusive))

namespace State
variable {T : Type} [DecidableEq T] (s : State T) (t : T)

def goTo (stage : Stage) : State T := { s with stage := update s.stage t stage }

def take (type : SyncType) (stage : Stage) : State T :=
  { s.goTo t stage with lockState := type.locked s.lockState, owners := (t, type) :: s.owners }

/-- `lock` from `mutex.enter` on, and `wait` until it sleeps. -/
def wait (c : Call) : State T :=
  if s.waitingThreads = [] ∧ c.type.Admits s.lockState then
    { s.take t c.type .outside with
      exclusiveThread := if c.type = .exclusive then some t else s.exclusiveThread }
  else if t ∈ s.waitingThreads.map Prod.fst then
    { s.goTo t .outside with waiters := s.waiters + c.type.waiterIncr } -- "single thread deadlock" is raised
  else
    { s.goTo t (.asleep c.type c.timeOut false) with
      waiters := s.waiters + c.type.waiterIncr
      waitingThreads := s.waitingThreads ++ [(t, c.type)] }

/-- The threads leave the list with the lock: `dequeThread` and `grantLock`. -/
def wake (woken : List T) (type : SyncType) (rest : List (T × SyncType)) : State T :=
  { s with
    waiters := s.waiters - woken.length * type.waiterIncr
    waitingThreads := rest
    stage := fun u => if u ∈ woken then (s.stage u).granted else s.stage u
    owners := woken.map (·, type) ++ s.owners }

def grantLocks : State T :=
  match s.waitingThreads with
  | [] => s
  | (_, .shared) :: _ =>
    if s.lockState < 0 then s
    else
      let cntWake := s.waiters &&& readersMask
      let (woken, rest) := wakeReaders cntWake s.waitingThreads
      { s.wake woken .shared rest with lockState := s.lockState + cntWake }
  | (thread, .exclusive) :: rest =>
    if s.lockState = 0 then
      { s.wake [thread] .exclusive rest with lockState := -1, exclusiveThread := some thread }
    else s

/-- The next step of a thread. One that sleeps goes on when the lock was granted to it. -/
def step : State T :=
  match s.stage t with
  | .outside => s
  | .testQueue c => s.goTo t (if s.waitingThreads = [] then c.start else .outside)
  | .testOwner c =>
    if s.exclusiveThread = some t then
      { s.goTo t .outside with monitorCount := s.monitorCount + 1, owners := (t, .exclusive) :: s.owners }
    else s.goTo t c.loop
  | .testWaiters c => s.goTo t (if s.waiters = 0 then .readState c else c.miss)
  | .readState c => s.goTo t (if h : c.type.Admits s.lockState then .exchange c s.lockState h else c.miss)
  | .exchange c oldState _ =>
    if s.lockState = oldState then s.take t c.type (if c.type = .exclusive then .setOwner else .outside)
    else s.goTo t c.loop
  | .setOwner => { s.goTo t .outside with exclusiveThread := some t }
  | .enter c => s.wait t c
  | .asleep _ _ lockGranted => if lockGranted = true then s.goTo t .outside else s
  | .testMonitor type =>
    if s.monitorCount ≠ 0 then
      { s.goTo t .outside with monitorCount := s.monitorCount - 1, owners := s.owners.erase (t, type) }
    else s.goTo t (.clearOwner type)
  | .clearOwner type => { s.goTo t (.readHeld type) with exclusiveThread := none }
  | .readHeld type => s.goTo t (.release type s.lockState)
  | .release type oldState =>
    if s.lockState = oldState then
      { s.goTo t (if type.unlocked oldState = 0 then .testWaiting else .outside) with
        lockState := type.unlocked oldState
        owners := s.owners.erase (t, type) }
    else s.goTo t (.readHeld type)
  | .testWaiting => s.goTo t (if s.waiters ≠ 0 then .grant else .outside)
  | .clearWriter => { s.goTo t .turnReader with exclusiveThread := none }
  | .turnReader =>
    if s.lockState = -1 then
      { s.goTo t .testReaders with lockState := 1, owners := (t, .shared) :: s.owners.erase (t, .exclusive) }
    else s
  | .testReaders => s.goTo t (if s.waiters &&& readersMask ≠ 0 then .grant else .outside)
  | .grant => s.grantLocks.goTo t .outside

/-- The end of `wait` when the time of the thread is over and the lock was not granted to it. -/
def expire (type : SyncType) : State T :=
  { s.goTo t .outside with
    waiters := s.waiters - type.waiterIncr
    waitingThreads := s.waitingThreads.erase (t, type) }

end State

inductive Op (T : Type)
  | lock (t : T) (type : SyncType) (timeOut : Int)
  | lockConditional (t : T) (type : SyncType)
  | unlock (t : T) (type : SyncType)
  | downgrade (t : T)
  | step (t : T)
  | expire (t : T) (type : SyncType) (timeOut : Int)

variable {T : Type}

/-- A thread makes one call at a time, gives back locks it has, and waits without end for `timeOut` -1. -/
def State.Allowed (s : State T) : Op T → Prop
  | .lock t _ _ => s.stage t = .outside
  | .lockConditional t _ => s.stage t = .outside
  | .unlock t type => s.stage t = .outside ∧ (t, type) ∈ s.owners
  | .downgrade t => s.stage t = .outside ∧ (t, .exclusive) ∈ s.owners ∧ s.monitorCount = 0
  | .step _ => True
  | .expire t type timeOut => s.stage t = .asleep type timeOut false ∧ timeOut ≠ -1

def State.after [DecidableEq T] (s : State T) : Op T → State T
  | .lock t type timeOut => s.goTo t (Call.start ⟨type, false, timeOut⟩)
  | .lockConditional t type => s.goTo t (.testQueue ⟨type, true, 0⟩)
  | .unlock t type => s.goTo t (.testMonitor type)
  | .downgrade t => s.goTo t .clearWriter
  | .step t => s.step t
  | .expire t type _ => s.expire t type

def Step [DecidableEq T] : State T → Op T → State T → Prop := Lib.Does State.Allowed State.after

end Firebird.Sync
