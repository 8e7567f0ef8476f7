import Firebird.Lib.Run
import Firebird.Lib.Wire

/-! # The event manager

Events, the requests for them and their delivery (`src/jrd/event.cpp`). What is done under the mutex of the shared
memory is one step; a callback runs between two steps of its watcher thread. -/

namespace Firebird.Evt

open Function

def slong (n : Int) : Int := (n + 2 ^ 31) % 2 ^ 32 - 2 ^ 31

abbrev Name := List UInt8

/-- The loop of `validateEpb` and of `queEvents`: names and prior counts. -/
def epbItems : Nat → List UInt8 → Option (List (Name × Int))
  | _, [] => some []
  | 0, _ :: _ => none
  | fuel + 1, length :: rest =>
    if rest.length < length.toNat + 4 then none
    else (epbItems fuel (rest.drop (length.toNat + 4))).map fun items =>
      (rest.take length.toNat, slong (Lib.leValue ((rest.drop length.toNat).take 4))) :: items

def epbVersion1 : UInt8 := 1

/-- What a block asks for; nothing if it is malformed. -/
def readEpb : List UInt8 → Option (List (Name × Int))
  | [] => some []
  | version :: items => if version = epbVersion1 then epbItems items.length items else none

/-- The data in the event block may have trailing blanks. -/
def stripBlanks (name : Name) : Name := (name.reverse.dropWhile (· == 32)).reverse

/-- `req_int`; the threshold is `rint_count`. -/
structure Interest where
  event : Name
  count : Int
  deriving DecidableEq

/-- `evt_req`. `number` is not in the source: no two requests have the same one. -/
structure Request where
  number : Nat
  requestId : Int
  interests : List Interest
  deriving DecidableEq

/-- `ses`; its own interests are the historical ones. -/
structure Session where
  process : Nat
  requests : List Request
  interests : List Interest
  delivering : Bool
  purge : Bool
  deriving DecidableEq

/-- The watcher thread between two steps: before its first one, at `eventWait`, or in the callback of a request of a
    session. -/
inductive Watcher where
  | starting
  | waiting
  | calling (session : Nat)
  deriving DecidableEq

/-- `prb`; `posted` says that `prb_event` has been posted since it was cleared last. -/
structure Process where
  wakeup : Bool
  pending : Bool
  posted : Bool
  watcher : Watcher
  deriving DecidableEq

/-- The shared memory. Sessions have the numbers in which they were created, and stand in that order in the queue of
    their process. -/
structure State where
  evntCount : Name → Option Int
  processes : Nat → Option Process
  sessions : Nat → Option Session
  nextSession : Nat
  evhRequestId : Int
  nextRequest : Nat
  delivered : List (Nat × List (Name × Int))
  posting : List Nat

def Session.hasInterest (session : Session) (event : Name) : Bool :=
  session.interests.any (·.event == event) || session.requests.any fun request =>
  request.interests.any (·.event == event)

/-- `delete_request`: its interests become historical, one for each event. -/
def Session.deleteRequest (session : Session) (request : Request) : Session :=
  { session with
    requests := session.requests.filter (·.number != request.number)
    interests := request.interests.foldl (fun historical interest =>
      if historical.any (·.event == interest.event) then historical else interest :: historical) session.interests }

namespace State

def setProcess (s : State) (process : Nat) (block : Process) : State :=
  { s with processes := update s.processes process (some block) }

def setSession (s : State) (session : Nat) (block : Session) : State :=
  { s with sessions := update s.sessions session (some block) }

def prbSessions (s : State) (process : Nat) : List Nat :=
  (List.range s.nextSession).filter fun session => (s.sessions session).any (·.process == process)

def isWanted (s : State) (event : Name) : Bool :=
  (List.range s.nextSession).any fun session => (s.sessions session).any (·.hasInterest event)

def completed (s : State) (request : Request) : Bool :=
  request.interests.any fun interest => (s.evntCount interest.event).any (interest.count ≤ ·)

def postProcess (s : State) (process : Nat) : State :=
  match s.processes process with
  | none => s
  | some block => s.setProcess process { block with wakeup := false, pending := true, posted := true }

def setWatcher (s : State) (process : Nat) (watcher : Watcher) : State :=
  { s with processes := update s.processes process ((s.processes process).map fun block => { block with watcher }) }

/-- The historical interests go one by one, and events that nobody wants any more with them. -/
def dropInterests (session : Nat) (block : Session) : List Interest → State → State
  | [], s => s
  | interest :: interests, s =>
    let s := s.setSession session { block with interests }
    dropInterests session block interests
      (if s.isWanted interest.event then s else { s with evntCount := update s.evntCount interest.event none })

def destroySession (s : State) (session : Nat) (block : Session) : State :=
  let block := block.requests.foldl Session.deleteRequest block
  let s := dropInterests session block block.interests (s.setSession session block)
  { s with sessions := update s.sessions session none }

def deleteSession (s : State) (session : Nat) : State :=
  match s.sessions session with
  | none => s
  | some block =>
    if block.delivering then s.setSession session { block with purge := true } else s.destroySession session block

def createProcess (s : State) (process : Nat) : State :=
  match s.processes process with
  | none => s.setProcess process ⟨false, false, false, .starting⟩
  | some _ => s

def createSession (s : State) (process : Nat) : State :=
  match s.processes process with
  | none => s
  | some _ => { s.setSession s.nextSession ⟨process, [], [], false, false⟩ with nextSession := s.nextSession + 1 }

def queItem (state : (Name → Option Int) × List Interest × List Interest × Bool) (item : Name × Int) :
    (Name → Option Int) × List Interest × List Interest × Bool :=
  let (evntCount, historical, interests, flag) := state
  let event := stripBlanks item.1
  let evntCount := if (evntCount event).isNone then update evntCount event (some 0) else evntCount
  let historical := historical.eraseP (·.event == event)
  (evntCount, historical, interests ++ [⟨event, item.2⟩], flag || (evntCount event).any (item.2 ≤ ·))

/-- `queEvents` after the event block has been checked. -/
def queItems (s : State) (session : Nat) (block : Session) (items : List (Name × Int)) : State :=
  let (evntCount, historical, interests, flag) := items.foldl queItem (s.evntCount, block.interests, [], false)
  let requestId := slong (s.evhRequestId + 1)
  let request : Request := ⟨s.nextRequest, requestId, interests⟩
  let s := { s.setSession session { block with requests := block.requests ++ [request], interests := historical } with
    evntCount, evhRequestId := requestId, nextRequest := s.nextRequest + 1 }
  if flag then s.postProcess block.process else s

def queEvents (s : State) (session : Nat) (events : List UInt8) : State :=
  match s.sessions session, readEpb events with
  | some block, some items => s.queItems session block items
  | _, _ => s

def findRequest (s : State) (requestId : Int) : List Nat → Option (Nat × Session × Request)
  | [] => none
  | session :: sessions =>
    match s.sessions session with
    | none => s.findRequest requestId sessions
    | some block =>
      match block.requests.find? (·.requestId == requestId) with
      | some request => some (session, block, request)
      | none => s.findRequest requestId sessions

def cancelEvents (s : State) (process : Nat) (requestId : Int) : State :=
  match s.findRequest requestId (s.prbSessions process) with
  | none => s
  | some (session, block, request) => s.setSession session (block.deleteRequest request)

def wakes (s : State) (process : Nat) (event : Name) (count : Int) : Bool :=
  (s.prbSessions process).any fun session => (s.sessions session).any fun block =>
    block.requests.any fun request => request.interests.any fun interest =>
      interest.event == event && decide (interest.count ≤ count)

def postEvent (s : State) (poster : Nat) (event : Name) (count : UInt16) : State :=
  let s := { s with posting := s.posting ++ [poster] }
  match s.evntCount event with
  | none => s
  | some before =>
    let after := slong (before + count.toNat)
    { s with
      evntCount := update s.evntCount event (some after)
      processes := fun process => (s.processes process).map fun block =>
        if s.wakes process event after then { block with wakeup := true } else block }

/-- Every process that is to be woken up is posted; the search begins again after each. -/
def deliverEvents (s : State) (poster : Nat) : State :=
  { s with
    processes := fun process => (s.processes process).map fun block =>
      if block.wakeup then { block with wakeup := false, pending := true, posted := true } else block
    posting := s.posting.filter (· != poster) }

def deliverRequest (s : State) (process session : Nat) (block : Session) (request : Request) : State :=
  let eventBlock := request.interests.map fun interest =>
    (interest.event, slong ((s.evntCount interest.event).getD 0 + 1))
  { s.setSession session ({ block with delivering := true }.deleteRequest request) with
    delivered := s.delivered ++ [(request.number, eventBlock)] }.setWatcher process (.calling session)

/-- The end of the visit of a session: either it is purged, and the loop is left, or the next ones are visited. -/
def leaveSession (s : State) (process session : Nat) (block : Session) (visitNext : State → State) : State :=
  let block := { block with delivering := false }
  let s := s.setWatcher process .waiting
  if block.purge then s.destroySession session block else visitNext (s.setSession session block)

/-- The loop of `deliver` over the sessions of the process, to the first callback. -/
def visit (process : Nat) : List Nat → State → State
  | [], s => s.setWatcher process .waiting
  | session :: sessions, s =>
    match s.sessions session with
    | none => visit process sessions s
    | some block =>
      match block.requests.find? s.completed with
      | some request => s.deliverRequest process session block request
      | none => s.leaveSession process session block (visit process sessions)

/-- `watcher_thread`, from the wait to the first callback or the next wait. -/
def watch (s : State) (process : Nat) : State :=
  match s.processes process with
  | none => s
  | some block =>
    if block.watcher = .starting ∨ block.watcher = .waiting ∧ block.posted then
      let s := s.setProcess process
        { block with wakeup := false, posted := false, pending := false, watcher := .waiting }
      if block.pending then visit process (s.prbSessions process) s else s
    else s

/-- A callback returns: `deliver` goes on with the session that it was in. -/
def callbackDone (s : State) (process : Nat) : State :=
  match s.processes process with
  | none => s
  | some block =>
    match block.watcher with
    | .calling session =>
      match s.sessions session with
      | none => s
      | some block =>
        if block.purge then s.leaveSession process session block id
        else visit process ((s.prbSessions process).filter (session ≤ ·)) s
    | _ => s

end State

inductive Op where
  | createProcess (process : Nat)
  | createSession (process : Nat)
  | deleteSession (session : Nat)
  | queEvents (session : Nat) (events : List UInt8)
  | cancelEvents (process : Nat) (requestId : Int)
  | postEvent (poster : Nat) (event : Name) (count : UInt16)
  | deliverEvents (poster : Nat)
  | watch (process : Nat)
  | callbackDone (process : Nat)

def State.after (s : State) : Op → State
  | .createProcess process => s.createProcess process
  | .createSession process => s.createSession process
  | .deleteSession session => s.deleteSession session
  | .queEvents session events => s.queEvents session events
  | .cancelEvents process requestId => s.cancelEvents process requestId
  | .postEvent poster event count => s.postEvent poster event count
  | .deliverEvents poster => s.deliverEvents poster
  | .watch process => s.watch process
  | .callbackDone process => s.callbackDone process

def State.initial : State where
  evntCount := fun _ => none
  processes := fun _ => none
  sessions := fun _ => none
  nextSession := 0
  evhRequestId := 0
  nextRequest := 0
  delivered := []
  posting := []

end Firebird.Evt
