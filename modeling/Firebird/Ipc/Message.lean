import Mathlib

/-! # Messages between processes

`IpcMessageSender` and `IpcMessageReceiver` (`src/common/ipc/IpcMessage.h`): one message at a time
travels through a buffer in shared memory, with a flag and a signal for each direction. A step is one
atomic access to the shared memory, one byte of a copy, or one operation of a mutex or a signal. The
`std::mutex` of an object lets one call of it run at a time; `disconnect` may be called meanwhile. -/

namespace Firebird.Ipc

open Function

/-- The sizes of the alternatives of the variant, and of the fixed message that goes with it, if any. -/
structure MessageType where
  sizes : List Nat
  fixedSize : Nat
  /-- The static assertion of `IpcMessageObjectImpl`. -/
  small : ∀ size ∈ sizes, size + fixedSize ≤ 65535

/-- A message: its alternative, and the bytes of the fixed message and of the variant. -/
structure Message (type : MessageType) where
  index : Nat
  bytes : List UInt8
  size : Nat
  alternative : type.sizes[index]? = some size
  length_eq : bytes.length = type.fixedSize + size

abbrev SenderId := Nat

structure Call (type : MessageType) where
  id : Nat
  message : Message type

inductive Stage
  /-- in `tryLock` -/
  | locking
  | lockTimedOut
  /-- `alive` has been looked at -/
  | lockChecked
  | writeIndex
  | writeLen
  | writeByte (k : Nat)
  | signal
  | storeFlag
  | loadFlag
  /-- in `senderSignal->wait` -/
  | waiting
  | timedOut
  /-- `alive` has been looked at -/
  | checked
  | resetSignal
  | clearFlag

def Stage.holds : Stage → Bool
  | locking | lockTimedOut | lockChecked => false
  | _ => true

def Stage.writes : Stage → Bool
  | writeIndex | writeLen | writeByte _ => true
  | _ => false

structure Sender (type : MessageType) where
  inSend : Option (Call type × Stage)
  disconnected : Bool

inductive Receiving (type : MessageType)
  | idle
  | loadFlag
  /-- in `receiverSignal->wait` -/
  | waiting
  | timedOut
  | resetSignal
  | clearFlag
  | readIndex
  | readByte (index size : Nat) (bytes : List UInt8)
  | signalSender (index : Nat) (bytes : List UInt8)
  | storeFlag (index : Nat) (bytes : List UInt8)
  /-- an exception of `createVariantByIndex`, or an assertion -/
  | failed

structure State (type : MessageType) where
  mutex : Option SenderId
  alive : Bool
  receiverSignal : Bool
  senderSignal : Bool
  receiverFlag : Bool
  senderFlag : Bool
  messageLen : Nat
  messageIndex : Nat
  messageBuffer : Nat → UInt8
  receiving : Receiving type
  receiverDisconnected : Bool
  senders : SenderId → Sender type
  calls : Nat
  sent : List (Call type)
  /-- What `receive` returned: the alternatives and the bytes. -/
  received : List (Nat × List UInt8)
  succeeded : List (Call type)

inductive Wait
  | done | timeout

inductive Event (type : MessageType)
  | send (i : SenderId) (message : Message type)
  | disconnectSender (i : SenderId)
  /-- the next step of a call of `send` -/
  | sender (i : SenderId) (wait : Wait)
  | receive
  /-- the next step of the call of `receive` -/
  | receiver (wait : Wait)
  /-- `disconnect` of the receiver sets its flag -/
  | disconnectReceiver
  /-- `disconnect` of the receiver goes on under the mutex of the receiver -/
  | receiverGone

namespace State
variable {type : MessageType}

def start (type : MessageType) (messageLen messageIndex : Nat) (messageBuffer : Nat → UInt8) : State type :=
  { mutex := none, alive := true, receiverSignal := false, senderSignal := false, receiverFlag := false,
    senderFlag := false, messageLen, messageIndex, messageBuffer, receiving := .idle,
    receiverDisconnected := false, senders := fun _ => { inSend := none, disconnected := false }, calls := 0,
    sent := [], received := [], succeeded := [] }

def setSender (s : State type) (i : SenderId) (sender : Sender type) : State type :=
  { s with senders := update s.senders i sender }

def goTo (s : State type) (i : SenderId) (call : Call type) (stage : Stage) : State type :=
  s.setSender i { s.senders i with inSend := some (call, stage) }

def leave (s : State type) (i : SenderId) (stage : Stage) : State type :=
  let s := s.setSender i { s.senders i with inSend := none }
  if stage.holds then { s with mutex := none } else s

/-- `if (!header->alive) disconnected = true` -/
def checkAlive (s : State type) (i : SenderId) : State type :=
  if s.alive then s else s.setSender i { s.senders i with disconnected := true }

def senderStep (s : State type) (i : SenderId) (call : Call type) : Stage → Wait → Option (State type)
  | .locking, .done =>
    if s.mutex = none then some { s.goTo i call .writeIndex with mutex := some i, sent := s.sent ++ [call] } else none
  | .locking, .timeout => some (s.goTo i call .lockTimedOut)
  | .lockTimedOut, _ => some ((s.checkAlive i).goTo i call .lockChecked)
  | .lockChecked, _ =>
    if (s.senders i).disconnected then some (s.leave i .lockChecked) else some (s.goTo i call .locking)
  | .writeIndex, _ => some { s.goTo i call .writeLen with messageIndex := call.message.index % 256 }
  | .writeLen, _ => some { s.goTo i call (.writeByte 0) with messageLen := call.message.size % 65536 }
  | .writeByte k, _ =>
    match call.message.bytes[k]? with
    | some byte => some { s.goTo i call (.writeByte (k + 1)) with messageBuffer := update s.messageBuffer k byte }
    | none => some (s.goTo i call .signal)
  | .signal, _ => some { s.goTo i call .storeFlag with receiverSignal := true }
  | .storeFlag, _ => some { s.goTo i call .loadFlag with receiverFlag := true }
  | .loadFlag, _ => if s.senderFlag then some (s.goTo i call .resetSignal) else some (s.goTo i call .waiting)
  | .waiting, .done => if s.senderSignal then some (s.goTo i call .loadFlag) else none
  | .waiting, .timeout => if s.senderSignal then none else some (s.goTo i call .timedOut)
  | .timedOut, _ => some ((s.checkAlive i).goTo i call .checked)
  | .checked, _ =>
    if (s.senders i).disconnected then some (s.leave i .checked) else some (s.goTo i call .loadFlag)
  | .resetSignal, _ => some { s.goTo i call .clearFlag with senderSignal := false }
  | .clearFlag, _ => some { s.leave i .clearFlag with senderFlag := false, succeeded := call :: s.succeeded }

def receiverStep (s : State type) : Receiving type → Wait → Option (State type)
  | .idle, _ => none
  | .failed, _ => none
  | .loadFlag, _ => some { s with receiving := if s.receiverFlag then .resetSignal else .waiting }
  | .waiting, .done => if s.receiverSignal then some { s with receiving := .loadFlag } else none
  | .waiting, .timeout => if s.receiverSignal then none else some { s with receiving := .timedOut }
  | .timedOut, _ => some { s with receiving := if s.receiverDisconnected then .idle else .loadFlag }
  | .resetSignal, _ => some { s with receiving := .clearFlag, receiverSignal := false }
  | .clearFlag, _ => some { s with receiving := .readIndex, receiverFlag := false }
  | .readIndex, _ =>
    match type.sizes[s.messageIndex]? with
    | some size =>
      if size = s.messageLen then some { s with receiving := .readByte s.messageIndex (type.fixedSize + size) [] }
      else some { s with receiving := .failed }
    | none => some { s with receiving := .failed }
  | .readByte index size bytes, _ =>
    if bytes.length < size then some
      { s with receiving := .readByte index size (bytes ++ [s.messageBuffer bytes.length]) }
    else some { s with receiving := .signalSender index bytes }
  | .signalSender index bytes, _ => some { s with receiving := .storeFlag index bytes, senderSignal := true }
  | .storeFlag index bytes, _ =>
    some { s with receiving := .idle, senderFlag := true, received := s.received ++ [(index, bytes)] }

def step (s : State type) : Event type → Option (State type)
  | .send i message =>
    if (s.senders i).inSend.isSome then none
    else if (s.senders i).disconnected then some { s with calls := s.calls + 1 }
    else some { s.goTo i ⟨s.calls, message⟩ .locking with calls := s.calls + 1 }
  | .disconnectSender i => some (s.setSender i { s.senders i with disconnected := true })
  | .sender i wait =>
    match (s.senders i).inSend with
    | none => none
    | some (call, stage) => s.senderStep i call stage wait
  | .receive =>
    match s.receiving with
    | .idle => some (if s.receiverDisconnected then s else { s with receiving := .loadFlag })
    | _ => none
  | .receiver wait => s.receiverStep s.receiving wait
  | .disconnectReceiver => some { s with receiverDisconnected := true }
  | .receiverGone =>
    match s.receiving with
    | .idle => if s.receiverDisconnected then some { s with alive := false } else none
    | _ => none

end State

/-! ### What the steps of senders and receiver keep -/

def Stage.beforeFlag : Stage → Bool
  | writeIndex | writeLen | writeByte _ | signal | storeFlag => true
  | _ => false

def Stage.awaits : Stage → Bool
  | loadFlag | waiting | timedOut | checked => true
  | _ => false

def Stage.finishes : Stage → Bool
  | resetSignal | clearFlag => true
  | _ => false

def Receiving.engaged {type : MessageType} : Receiving type → Bool
  | resetSignal | clearFlag | readIndex | readByte .. | signalSender .. | storeFlag .. | failed => true
  | _ => false

def Receiving.reading {type : MessageType} : Receiving type → Bool
  | readIndex | readByte .. | signalSender .. | storeFlag .. | failed => true
  | _ => false

variable {type : MessageType}

def Call.content (call : Call type) : Nat × List UInt8 := (call.message.index, call.message.bytes)

namespace State

/-- No message is in the buffer, or nobody will read it; and no answer is left. -/
def Quiet (s : State type) : Prop :=
  s.senderFlag = false ∧ (s.alive = false ∨ s.receiverFlag = false ∧ s.receiving.engaged = false)

structure Buffered (s : State type) (call : Call type) : Prop where
  index : s.messageIndex = call.message.index
  len : s.messageLen = call.message.size
  bytes : ∀ k, k < call.message.bytes.length → some (s.messageBuffer k) = call.message.bytes[k]?

def Written (s : State type) (call : Call type) : Stage → Prop
  | .writeLen => s.messageIndex = call.message.index
  | .writeByte n => s.messageIndex = call.message.index ∧ s.messageLen = call.message.size ∧
      n ≤ call.message.bytes.length ∧ ∀ k, k < n → some (s.messageBuffer k) = call.message.bytes[k]?
  | .signal | .storeFlag => s.Buffered call
  | _ => True

def Read (call : Call type) : Receiving type → Prop
  | .readIndex => True
  | .readByte index size bytes => index = call.message.index ∧ size = call.message.bytes.length ∧
      bytes = call.message.bytes.take bytes.length ∧ bytes.length ≤ size
  | .signalSender index bytes | .storeFlag index bytes => (index, bytes) = call.content
  | _ => False

/-- The phase of the call that holds the mutex; `older` are the calls that had it before. -/
inductive Phase (s : State type) (call : Call type) (older delivered : List (Call type)) : Stage → Prop
  | writing {stage : Stage} : stage.beforeFlag = true → s.Quiet → delivered.Sublist older → s.Written call stage →
      Phase s call older delivered stage
  | full {stage : Stage} : stage.awaits = true → s.senderFlag = false → delivered.Sublist older → s.Buffered call →
      (s.receiverFlag = true → s.receiving.reading = false) → (s.receiverFlag = false → Read call s.receiving) →
      Phase s call older delivered stage
  | acked {stage : Stage} : stage.awaits = true ∨ stage.finishes = true → s.receiverFlag = false → s.senderFlag = true →
      s.receiving.engaged = false → (∃ before, before.Sublist older ∧ delivered = before ++ [call]) →
      Phase s call older delivered stage

/-- The state of the channel. `delivered` are the calls whose messages were received. -/
structure Inv (s : State type) (delivered : List (Call type)) : Prop where
  nodup : (s.sent.map (·.id)).Nodup
  sent_lt : ∀ call ∈ s.sent, call.id < s.calls
  inSend_lt : ∀ i call stage, (s.senders i).inSend = some (call, stage) → call.id < s.calls
  inSend_ne : ∀ i j call call' stage stage', i ≠ j → (s.senders i).inSend = some (call, stage) →
    (s.senders j).inSend = some (call', stage') → call.id ≠ call'.id
  notSent : ∀ i call stage, (s.senders i).inSend = some (call, stage) → stage.holds = false →
    ∀ c ∈ s.sent, c.id ≠ call.id
  holder : ∀ i call stage, (s.senders i).inSend = some (call, stage) → stage.holds = true → s.mutex = some i
  gone : s.alive = false → s.receiving = .idle ∧ s.receiverDisconnected = true
  received : s.received = delivered.map Call.content
  succeeded : ∀ call ∈ s.succeeded, call ∈ delivered
  free : s.mutex = none → s.Quiet ∧ delivered.Sublist s.sent
  held : ∀ i, s.mutex = some i → ∃ call stage older, (s.senders i).inSend = some (call, stage) ∧ stage.holds = true ∧
    s.sent = older ++ [call] ∧ s.Phase call older delivered stage

variable {s t : State type} {delivered : List (Call type)} {i j : SenderId} {call : Call type} {stage : Stage}

@[simp] theorem setSender_self (s : State type) (i : SenderId) (x : Sender type) : (s.setSender i x).senders i = x :=
  update_self ..

theorem setSender_of_ne (s : State type) {i j : SenderId} (h : j ≠ i) (x : Sender type) :
    (s.setSender i x).senders j = s.senders j := update_of_ne h ..

structure SameChannel (s t : State type) : Prop where
  alive : t.alive = s.alive
  receiverFlag : t.receiverFlag = s.receiverFlag
  senderFlag : t.senderFlag = s.senderFlag
  messageLen : t.messageLen = s.messageLen
  messageIndex : t.messageIndex = s.messageIndex
  messageBuffer : t.messageBuffer = s.messageBuffer
  receiving : t.receiving = s.receiving

namespace SameChannel

section
variable (h : SameChannel s t)
include h

theorem quiet (hq : s.Quiet) : t.Quiet := by
  unfold Quiet at hq ⊢
  rwa [h.alive, h.receiverFlag, h.senderFlag, h.receiving]

theorem buffered (hb : s.Buffered call) : t.Buffered call where
  index := h.messageIndex.trans hb.index
  len := h.messageLen.trans hb.len
  bytes := h.messageBuffer ▸ hb.bytes

theorem written (hw : s.Written call stage) : t.Written call stage := by
  cases stage with
  | signal | storeFlag => exact h.buffered hw
  | writeLen => exact h.messageIndex.trans hw
  | writeByte n =>
    obtain ⟨h1, h2, h3, h4⟩ := hw
    exact ⟨h.messageIndex.trans h1, h.messageLen.trans h2, h3, h.messageBuffer ▸ h4⟩
  | _ => trivial

theorem phase {older : List (Call type)} (hp : s.Phase call older delivered stage) :
    t.Phase call older delivered stage := by
  cases hp with
  | writing h1 h2 h3 h4 => exact .writing h1 (h.quiet h2) h3 (h.written h4)
  | full h1 h2 h3 h4 h5 h6 =>
    refine .full h1 (h.senderFlag.trans h2) h3 (h.buffered h4) ?_ ?_
    · rw [h.receiverFlag, h.receiving]
      exact h5
    · rw [h.receiverFlag, h.receiving]
      exact h6
  | acked h1 h2 h3 h4 h5 =>
    refine .acked h1 (h.receiverFlag.trans h2) (h.senderFlag.trans h3) ?_ h5
    rw [h.receiving]
    exact h4

end

end SameChannel

theorem Inv.moveTo (h : s.Inv delivered) (hc : (s.senders i).inSend = some (call, stage)) {stage' : Stage}
    (hholds : stage'.holds = stage.holds) (hsame : ∀ j, j ≠ i → t.senders j = s.senders j)
    (hself : (t.senders i).inSend = some (call, stage')) (hcalls : t.calls = s.calls) (hsent : t.sent = s.sent)
    (hmutex : t.mutex = s.mutex) (hreceived : t.received = s.received) (hsucceeded : t.succeeded = s.succeeded)
    (hgone : t.alive = false → t.receiving = .idle ∧ t.receiverDisconnected = true)
    (hfree : s.mutex ≠ some i → s.Quiet → t.Quiet)
    (hothers : s.mutex ≠ some i → ∀ c older st, s.Phase c older delivered st → t.Phase c older delivered st)
    (hphase : ∀ older, stage.holds = true → s.Phase call older delivered stage → t.Phase call older delivered stage') :
    t.Inv delivered := by
  have hall : ∀ j c st, (t.senders j).inSend = some (c, st) → ∃ st₀, (s.senders j).inSend = some (c, st₀) ∧
      st.holds = st₀.holds := fun j c st hj => by
    by_cases hij : j = i
    · subst hij
      rw [hself] at hj
      cases hj
      exact ⟨stage, hc, hholds⟩
    · rw [hsame j hij] at hj
      exact ⟨st, hj, rfl⟩
  exact {
    nodup := hsent ▸ h.nodup
    sent_lt := by
      rw [hsent, hcalls]
      exact h.sent_lt
    inSend_lt := fun j c st hj => by
      obtain ⟨st₀, hj₀, -⟩ := hall j c st hj
      exact hcalls ▸ h.inSend_lt j c st₀ hj₀
    inSend_ne := fun j k c c' st st' hjk hj hk => by
      obtain ⟨st₀, hj₀, -⟩ := hall j c st hj
      obtain ⟨st₁, hk₀, -⟩ := hall k c' st' hk
      exact h.inSend_ne j k c c' st₀ st₁ hjk hj₀ hk₀
    notSent := fun j c st hj hst => by
      obtain ⟨st₀, hj₀, heq⟩ := hall j c st hj
      rw [hsent]
      exact h.notSent j c st₀ hj₀ (heq ▸ hst)
    holder := fun j c st hj hst => by
      obtain ⟨st₀, hj₀, heq⟩ := hall j c st hj
      rw [hmutex]
      exact h.holder j c st₀ hj₀ (heq ▸ hst)
    gone := hgone
    received := hreceived.trans h.received
    succeeded := hsucceeded ▸ h.succeeded
    free := fun hm => by
      rw [hmutex] at hm
      obtain ⟨hq, hsub⟩ := h.free hm
      exact ⟨hfree (by rw [hm]; exact nofun) hq, hsent ▸ hsub⟩
    held := fun j hj => by
      rw [hmutex] at hj
      obtain ⟨c, st, older, hj₀, hst, hsent₀, hp⟩ := h.held j hj
      by_cases hij : j = i
      · subst hij
        rw [hc] at hj₀
        cases hj₀
        exact ⟨call, stage', older, hself, hholds.trans hst, hsent.trans hsent₀, hphase older hst hp⟩
      · refine ⟨c, st, older, (hsame j hij) ▸ hj₀, hst, hsent.trans hsent₀, hothers ?_ c older st hp⟩
        rw [hj]
        exact fun heq => hij (Option.some.inj heq) }

end State
end Firebird.Ipc
