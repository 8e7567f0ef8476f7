import Firebird.Ipc.ReceiverKeeps
import Firebird.Lib.Run

/-! # Runs of senders and a receiver

In a run of any number of senders and one receiver, with disconnections and timeouts at any moment, every message that
is received is that of one call of `send`, in the order of the mutex, and every call that returned true has had its
message received. It takes that no call gives up the wait for its answer while the receiver is there or has answered. -/

namespace Firebird.Ipc

open Lib List

variable {type : MessageType}

def Event.message : Event type → Option (Message type)
  | .send _ message => some message
  | _ => none

namespace State
variable {s t : State type} {delivered : List (Call type)} {messages : List (Message type)} {event : Event type}
  {i : SenderId} {call : Call type} {stage : Stage}

def after (s : State type) (event : Event type) : State type := (s.step event).getD s

/-- No call gives up the wait for its answer unless the receiver is gone and has not answered. -/
def Careful (s : State type) : Event type → Prop
  | .sender i _ => s.givesUp i = true → s.alive = false ∧ s.senderFlag = false
  | _ => True

instance (s : State type) : (event : Event type) → Decidable (s.Careful event)
  | .sender i _ => inferInstanceAs (Decidable (s.givesUp i = true → s.alive = false ∧ s.senderFlag = false))
  | .send .. | .disconnectSender _ | .receive | .receiver _ | .disconnectReceiver | .receiverGone => isTrue trivial

def Step : State type → Event type → State type → Prop := Does (fun s event => (s.step event).isSome) after

def CarefulStep : State type → Event type → State type → Prop :=
  Does (fun s event => (s.step event).isSome ∧ s.Careful event) after

/-- Delivery once and in order, in a state; `messages` are the messages of the calls of `send` so far. -/
structure Delivers (messages : List (Message type)) (s : State type) : Prop where
  /-- Calls whose messages were received, in the order of the mutex, with every call that returned true. -/
  received : ∃ delivered : List (Call type), delivered.Sublist s.sent ∧ s.received = delivered.map Call.content ∧
    ∀ call ∈ s.succeeded, call ∈ delivered
  passed : ∀ call ∈ s.sent, messages[call.id]? = some call.message
  once : (s.sent.map (·.id)).Nodup
  /-- A message is not overwritten that is to be read. -/
  noOverwrite : ∀ i call stage, (s.senders i).inSend = some (call, stage) → stage.writes = true →
    s.alive = false ∨ s.receiverFlag = false ∧ s.receiving.engaged = false
  /-- What was read is a message of its type. -/
  intact : s.receiving ≠ .failed
  /-- The next call finds the channel as the first one did. -/
  quiet : s.mutex = none → s.Quiet

section
variable (h : s.Inv delivered)
include h

theorem Inv.setSame (hsame : SameChannel s t) (hsenders : t.senders = s.senders)
    (hcalls : t.calls = s.calls) (hsent : t.sent = s.sent) (hmutex : t.mutex = s.mutex)
    (hsucceeded : t.succeeded = s.succeeded) (hreceived : t.received = s.received)
    (hgone : t.alive = false → t.receiving = .idle ∧ t.receiverDisconnected = true) : t.Inv delivered :=
  h.receiverTo hsenders hcalls hsent hmutex hsucceeded (fun _ => id) hgone (hreceived.trans h.received)
    (fun hq => ⟨hsame.quiet hq, rfl⟩) fun _ _ _ _ hp => hsame.phase hp

theorem Inv.beginSend (hnone : (s.senders i).inSend = none) (message : Message type) :
    { s.goTo i ⟨s.calls, message⟩ .locking with calls := s.calls + 1 }.Inv delivered := by
  have hin : ∀ j c st, ((s.goTo i ⟨s.calls, message⟩ .locking).senders j).inSend = some (c, st) →
      j = i ∧ c.id = s.calls ∧ st = .locking ∨ j ≠ i ∧ (s.senders j).inSend = some (c, st) := fun j c st hj => by
    by_cases hji : j = i
    · subst hji
      rw [goTo_self] at hj
      cases hj
      exact .inl ⟨rfl, rfl, rfl⟩
    · rw [goTo_of_ne s hji] at hj
      exact .inr ⟨hji, hj⟩
  have hsame : SameChannel s { s.goTo i ⟨s.calls, message⟩ .locking with calls := s.calls + 1 } :=
    ⟨rfl, rfl, rfl, rfl, rfl, rfl, rfl⟩
  exact {
    nodup := h.nodup
    sent_lt := fun c hc => Nat.lt_succ_of_lt (h.sent_lt c hc)
    inSend_lt := fun j c st hj => by
      rcases hin j c st hj with ⟨-, hid, -⟩ | ⟨-, hj₀⟩
      · exact hid ▸ Nat.lt_succ_self _
      · exact Nat.lt_succ_of_lt (h.inSend_lt j c st hj₀)
    inSend_ne := fun j k c c' st st' hjk hj hk => by
      rcases hin j c st hj with ⟨hji, hid, -⟩ | ⟨-, hj₀⟩ <;> rcases hin k c' st' hk with ⟨hki, hid', -⟩ | ⟨-, hk₀⟩
      · exact absurd (hji.trans hki.symm) hjk
      · exact Nat.ne_of_gt (hid ▸ h.inSend_lt k c' st' hk₀)
      · exact Nat.ne_of_lt (hid' ▸ h.inSend_lt j c st hj₀)
      · exact h.inSend_ne j k c c' st st' hjk hj₀ hk₀
    notSent := fun j c st hj hst c' hc' => by
      rcases hin j c st hj with ⟨-, hid, -⟩ | ⟨-, hj₀⟩
      · exact Nat.ne_of_lt (hid ▸ h.sent_lt c' hc')
      · exact h.notSent j c st hj₀ hst c' hc'
    holder := fun j c st hj hst => by
      rcases hin j c st hj with ⟨-, -, rfl⟩ | ⟨-, hj₀⟩
      · exact Bool.noConfusion hst
      · exact h.holder j c st hj₀ hst
    gone := h.gone
    received := h.received
    succeeded := h.succeeded
    free := fun hm => ⟨hsame.quiet (h.free hm).1, (h.free hm).2⟩
    held := fun j hj => by
      obtain ⟨c, st, older, hc, hst, hsent, hp⟩ := h.held j hj
      have hji : j ≠ i := by
        rintro rfl
        rw [hnone] at hc
        cases hc
      refine ⟨c, st, older, ?_, hst, hsent, hsame.phase hp⟩
      exact (congrArg Sender.inSend (goTo_of_ne s hji _ _)).trans hc }

theorem Inv.refuseSend : { s with calls := s.calls + 1 }.Inv delivered where
  nodup := h.nodup
  sent_lt := fun c hc => Nat.lt_succ_of_lt (h.sent_lt c hc)
  inSend_lt := fun j c st hj => Nat.lt_succ_of_lt (h.inSend_lt j c st hj)
  inSend_ne := h.inSend_ne
  notSent := h.notSent
  holder := h.holder
  gone := h.gone
  received := h.received
  succeeded := h.succeeded
  free := h.free
  held := fun j hj => by
    have hsame : SameChannel s { s with calls := s.calls + 1 } := ⟨rfl, rfl, rfl, rfl, rfl, rfl, rfl⟩
    obtain ⟨c, st, older, hc, hst, hsent, hp⟩ := h.held j hj
    exact ⟨c, st, older, hc, hst, hsent, hsame.phase hp⟩

theorem Inv.receiverGone (hr : s.receiving = .idle) (hd : s.receiverDisconnected = true) :
    { s with alive := false }.Inv delivered := by
  refine h.receiverTo rfl rfl rfl rfl rfl (fun _ => id) (fun _ => ⟨hr, hd⟩) h.received
    (fun hq => ⟨⟨hq.1, .inl rfl⟩, rfl⟩) fun call older stage _ hp => ?_
  cases hp with
  | writing h1 h2 h3 h4 =>
    refine .writing h1 ⟨h2.1, .inl rfl⟩ h3 ?_
    cases stage <;> first | exact h4 | exact ⟨h4.index, h4.len, h4.bytes⟩
  | full h1 h2 h3 h4 h5 h6 => exact .full h1 h2 h3 ⟨h4.index, h4.len, h4.bytes⟩ h5 h6
  | acked h1 h2 h3 h4 h5 => exact .acked h1 h2 h3 h4 h5

theorem Inv.step (hfew : type.sizes.length ≤ 256) (hcareful : s.Careful event)
    (ht : s.step event = some t) : ∃ delivered', t.Inv delivered' := by
  cases event with
  | send i message =>
    rw [State.step] at ht
    split at ht
    · cases ht
    · split at ht <;> cases ht
      · exact ⟨delivered, h.refuseSend⟩
      · exact ⟨delivered, h.beginSend (Option.not_isSome_iff_eq_none.mp ‹_›) message⟩
  | disconnectSender i =>
    cases ht
    exact ⟨delivered, h.setDisconnected i true⟩
  | sender i wait =>
    rw [State.step] at ht
    split at ht
    · cases ht
    · exact ⟨delivered, h.senderStep hfew hcareful ‹_› ht⟩
  | receive =>
    rw [State.step] at ht
    split at ht
    · cases ht
      split
      · exact ⟨delivered, h⟩
      · have halive : s.alive ≠ false := fun hf => ‹¬ s.receiverDisconnected = true› (h.gone hf).2
        refine ⟨delivered, h.lookFlag ?_ halive nofun rfl⟩
        rw [‹s.receiving = .idle›]
        rfl
    · cases ht
  | receiver wait => exact h.receiverStep ht
  | disconnectReceiver =>
    cases ht
    exact ⟨delivered, h.setSame ⟨rfl, rfl, rfl, rfl, rfl, rfl, rfl⟩ rfl rfl rfl rfl rfl rfl
      fun halive => ⟨(h.gone halive).1, rfl⟩⟩
  | receiverGone =>
    rw [State.step] at ht
    split at ht
    · split at ht <;> cases ht
      exact ⟨delivered, h.receiverGone ‹_› ‹_›⟩
    · cases ht

end

/-- The calls go by the numbers of their messages among those passed to `send`. -/
structure Named (messages : List (Message type)) (s : State type) : Prop where
  calls : s.calls = messages.length
  sent : ∀ call ∈ s.sent, messages[call.id]? = some call.message
  inSend : ∀ i call stage, (s.senders i).inSend = some (call, stage) → messages[call.id]? = some call.message

structure SameCalls (s t : State type) (call : Call type) : Prop where
  calls : t.calls = s.calls
  sent : ∀ c ∈ t.sent, c ∈ s.sent ∨ c = call
  inSend : ∀ j c st, (t.senders j).inSend = some (c, st) → c = call ∨ (s.senders j).inSend = some (c, st)

theorem goTo_inSend {j : SenderId} {c : Call type} {st : Stage}
    (hj : ((s.goTo i call stage).senders j).inSend = some (c, st)) : c = call ∨
    (s.senders j).inSend = some (c, st) := by
  by_cases hji : j = i
  · subst hji
    rw [goTo_self] at hj
    cases hj
    exact .inl rfl
  · rw [goTo_of_ne s hji] at hj
    exact .inr hj

section
variable (s : State type) (i : SenderId) (call : Call type) (stage : Stage)

theorem goTo_sameCalls :
    SameCalls s (s.goTo i call stage) call := ⟨rfl, fun _ => .inl, fun _ _ _ => goTo_inSend⟩

theorem checkAlive_sameCalls : SameCalls s ((s.checkAlive i).goTo i call stage) call := by
  obtain ⟨disconnected, heq⟩ := checkAlive_eq s i
  rw [heq]
  refine ⟨rfl, fun _ => .inl, fun j c st hj => (goTo_inSend hj).imp id fun hj => ?_⟩
  by_cases hji : j = i
  · subst hji
    rwa [setSender_self] at hj
  · rwa [setSender_of_ne s hji] at hj

theorem leave_sameCalls : SameCalls s (s.leave i stage) call := by
  have hset : (s.leave i stage).senders = (s.setSender i { s.senders i with inSend := none }).senders ∧
      (s.leave i stage).sent = s.sent ∧ (s.leave i stage).calls = s.calls := by
    unfold leave
    split <;> exact ⟨rfl, rfl, rfl⟩
  refine ⟨hset.2.2, fun c hc => .inl (hset.2.1 ▸ hc), fun j c st hj => .inr ?_⟩
  rw [hset.1] at hj
  by_cases hji : j = i
  · subst hji
    rw [setSender_self] at hj
    cases hj
  · rwa [setSender_of_ne s hji] at hj

end

theorem SameCalls.sameSenders {u : State type} (h : SameCalls s t call) (hcalls : u.calls = t.calls)
    (hsent : u.sent = t.sent) (hsenders : u.senders = t.senders) : SameCalls s u call where
  calls := hcalls.trans h.calls
  sent := hsent ▸ h.sent
  inSend := hsenders ▸ h.inSend

theorem senderStep_sameCalls {wait : Wait} (ht : s.senderStep i call stage wait = some t) : SameCalls s t call := by
  have hgo (stage' : Stage) := goTo_sameCalls s i call stage'
  cases stage with
  | locking =>
    cases wait with
    | done =>
      rw [State.senderStep] at ht
      split at ht <;> cases ht
      refine ⟨rfl, fun c hc => ?_, (hgo .writeIndex).inSend⟩
      rcases mem_append.mp hc with hc | hc
      · exact .inl hc
      · exact .inr (mem_singleton.mp hc)
    | timeout =>
      cases ht
      exact hgo _
  | lockTimedOut =>
    cases ht
    exact checkAlive_sameCalls ..
  | lockChecked =>
    rw [State.senderStep] at ht
    split at ht <;> cases ht
    · exact leave_sameCalls ..
    · exact hgo _
  | writeByte k =>
    rw [State.senderStep] at ht
    split at ht <;> cases ht
    · exact (hgo _).sameSenders rfl rfl rfl
    · exact hgo _
  | loadFlag =>
    rw [State.senderStep] at ht
    split at ht <;> cases ht <;> exact hgo _
  | waiting =>
    cases wait <;> rw [State.senderStep] at ht <;> split at ht <;> cases ht <;> exact hgo _
  | timedOut =>
    cases ht
    exact checkAlive_sameCalls ..
  | checked =>
    rw [State.senderStep] at ht
    split at ht <;> cases ht
    · exact leave_sameCalls ..
    · exact hgo _
  | clearFlag =>
    cases ht
    exact (leave_sameCalls s i call .clearFlag).sameSenders rfl rfl rfl
  | writeIndex | writeLen | signal | storeFlag | resetSignal =>
    cases ht
    exact (hgo _).sameSenders rfl rfl rfl

theorem receiverStep_same {receiving : Receiving type} {wait : Wait} (ht : s.receiverStep receiving wait = some t) :
    t.senders = s.senders ∧ t.sent = s.sent ∧ t.calls = s.calls := by
  cases receiving <;> cases wait <;> rw [State.receiverStep] at ht <;> (try split at ht) <;> (try split at ht) <;>
    cases ht <;> exact ⟨rfl, rfl, rfl⟩

theorem Named.same (h : s.Named messages) (hsame : t.senders = s.senders ∧ t.sent = s.sent ∧ t.calls = s.calls) :
    t.Named messages where
  calls := hsame.2.2.trans h.calls
  sent := hsame.2.1 ▸ h.sent
  inSend := hsame.1 ▸ h.inSend

theorem Named.step (h : s.Named messages) (ht : s.step event = some t) :
    t.Named (messages ++ event.message.toList) := by
  have hmore : ∀ {call : Call type} {message : Message type}, messages[call.id]? = some call.message →
      (messages ++ [message])[call.id]? = some call.message := fun hcall =>
    (getElem?_append_left (List.getElem?_eq_some_iff.mp hcall).1).trans hcall
  have hnil : messages ++ [] = messages := append_nil _
  cases event with
  | send i message =>
    have hlen : (messages ++ [message]).length = s.calls + 1 := by
      rw [length_append, h.calls]
      rfl
    rw [State.step] at ht
    split at ht
    · cases ht
    · split at ht <;> cases ht
      · exact ⟨hlen.symm, fun c hc => hmore (h.sent c hc), fun j c st hj => hmore (h.inSend j c st hj)⟩
      · refine ⟨hlen.symm, fun c hc => hmore (h.sent c hc), fun j c st hj => ?_⟩
        rcases goTo_inSend hj with rfl | hj
        · rw [h.calls]
          exact getElem?_concat_length
        · exact hmore (h.inSend j c st hj)
  | disconnectSender i =>
    cases ht
    show Named (messages ++ []) _
    rw [hnil]
    refine ⟨h.calls, h.sent, fun j c st hj => ?_⟩
    by_cases hji : j = i
    · subst hji
      rw [setSender_self] at hj
      exact h.inSend j c st hj
    · rw [setSender_of_ne s hji] at hj
      exact h.inSend j c st hj
  | sender i wait =>
    show Named (messages ++ []) _
    rw [hnil]
    rw [State.step] at ht
    split at ht
    · cases ht
    · have hcall := h.inSend i _ _ ‹_›
      obtain ⟨hcalls, hsent, hin⟩ := senderStep_sameCalls ht
      refine ⟨hcalls.trans h.calls, fun c hc => ?_, fun j c st hj => ?_⟩
      · rcases hsent c hc with hc | rfl
        · exact h.sent c hc
        · exact hcall
      · rcases hin j c st hj with rfl | hj
        · exact hcall
        · exact h.inSend j c st hj
  | receive =>
    show Named (messages ++ []) _
    rw [hnil]
    rw [State.step] at ht
    split at ht <;> cases ht
    split
    · exact h
    · exact h.same ⟨rfl, rfl, rfl⟩
  | receiver wait =>
    show Named (messages ++ []) _
    rw [hnil]
    exact h.same (receiverStep_same ht)
  | disconnectReceiver =>
    cases ht
    show Named (messages ++ []) _
    rw [hnil]
    exact h.same ⟨rfl, rfl, rfl⟩
  | receiverGone =>
    show Named (messages ++ []) _
    rw [hnil]
    rw [State.step] at ht
    split at ht
    · split at ht <;> cases ht
      exact h.same ⟨rfl, rfl, rfl⟩
    · cases ht

theorem start_inv (type : MessageType) (messageLen messageIndex : Nat) (messageBuffer : Nat → UInt8) :
    (start type messageLen messageIndex messageBuffer).Inv [] where
  nodup := nodup_nil
  sent_lt := nofun
  inSend_lt := nofun
  inSend_ne := nofun
  notSent := nofun
  holder := nofun
  gone := nofun
  received := rfl
  succeeded := nofun
  free := fun _ => ⟨⟨rfl, .inr ⟨rfl, rfl⟩⟩, Sublist.refl _⟩
  held := nofun

theorem start_named (type : MessageType) (messageLen messageIndex : Nat) (messageBuffer : Nat → UInt8) :
    (start type messageLen messageIndex messageBuffer).Named [] := ⟨rfl, nofun, nofun⟩

theorem Inv.sublist_sent (h : s.Inv delivered) : delivered.Sublist s.sent := by
  cases hm : s.mutex with
  | none => exact (h.free hm).2
  | some i =>
    obtain ⟨call, stage, older, -, -, hsent, hp⟩ := h.held i hm
    rw [hsent]
    cases hp with
    | writing _ _ hsub | full _ _ hsub => exact hsub.trans (sublist_append_left _ _)
    | acked _ _ _ _ hlast =>
      obtain ⟨before, hbefore, heq⟩ := hlast
      rw [heq]
      exact hbefore.append (Sublist.refl _)

theorem Inv.delivers (h : s.Inv delivered) (hnamed : s.Named messages) : s.Delivers messages where
  received := ⟨delivered, h.sublist_sent, h.received, h.succeeded⟩
  passed := hnamed.sent
  once := h.nodup
  noOverwrite := fun i call stage hc hst => by
    have hholds : stage.holds = true := by
      cases stage <;> first | rfl | exact Bool.noConfusion hst
    have hbefore : stage.beforeFlag = true := by
      cases stage <;> first | rfl | exact Bool.noConfusion hst
    obtain ⟨older, -, hp⟩ := h.phase hc hholds
    exact (hp.of_beforeFlag hbefore).1.2
  intact := h.not_failed
  quiet := fun hm => (h.free hm).1

theorem after_eq {s : State type} {event : Event type} (h : (s.step event).isSome = true) :
    s.step event = some (s.after event) := by
  obtain ⟨t, ht⟩ := Option.isSome_iff_exists.mp h
  rw [after, ht]
  rfl

theorem inv_run {events : List (Event type)} (hfew : type.sizes.length ≤ 256) (hrun : Run CarefulStep s events t)
    (h : s.Inv delivered) : ∃ delivered', t.Inv delivered' := by
  refine hrun.invariant (I := fun s => ∃ delivered, s.Inv delivered) ?_ ⟨delivered, h⟩
  rintro u event _ ⟨delivered, hu⟩ ⟨⟨hsome, hcareful⟩, rfl⟩
  exact hu.step hfew hcareful (after_eq hsome)

theorem named_run {events : List (Event type)} (hrun : Run CarefulStep s events t) (h : s.Named messages) :
    t.Named (messages ++ events.filterMap Event.message) := by
  induction hrun generalizing messages with
  | nil s =>
    rw [filterMap_nil, append_nil]
    exact h
  | @cons s u t event events hstep _ ih =>
    obtain ⟨⟨hsome, -⟩, rfl⟩ := hstep
    have hnext := ih (h.step (after_eq hsome))
    rw [append_assoc] at hnext
    cases hm : event.message with
    | none =>
      rw [filterMap_cons_none hm]
      rwa [hm] at hnext
    | some message =>
      rw [filterMap_cons_some hm]
      rwa [hm] at hnext

/-- Messages are delivered once and in order, by careful steps and for a type with few alternatives. -/
theorem delivers_of_careful {messageLen messageIndex : Nat} {messageBuffer : Nat → UInt8} {events : List (Event type)}
    (hfew : type.sizes.length ≤ 256)
    (hrun : Run CarefulStep (start type messageLen messageIndex messageBuffer) events t) :
    t.Delivers (events.filterMap Event.message) := by
  obtain ⟨delivered, h⟩ := inv_run hfew hrun (start_inv type messageLen messageIndex messageBuffer)
  exact h.delivers (named_run hrun (start_named type messageLen messageIndex messageBuffer))

def byteType : MessageType := { sizes := [1], fixedSize := 0, small := by decide }

def byteMessage (byte : UInt8) : Message byteType :=
  { index := 0, bytes := [byte], size := 1, alternative := rfl, length_eq := rfl }

/-- One message is received, and the call for the next gives up, for the receiver is gone. -/
def receiveOne : List (Event byteType) :=
  [Event.receive, Event.send 0 (byteMessage 7)] ++ replicate 7 (Event.sender 0 .done) ++
    replicate 8 (Event.receiver .done) ++ replicate 3 (Event.sender 0 .done) ++ [Event.send 1 (byteMessage 8)] ++
    replicate 8 (Event.sender 1 .done) ++ [Event.disconnectReceiver, Event.receiverGone] ++
    replicate 3 (Event.sender 1 .timeout)

theorem delivers_of_careful_receiveOne : (receiveOne.foldl after (start byteType 0 0 fun _ => 0)).Delivers
    (receiveOne.filterMap Event.message) :=
  delivers_of_careful (by decide) (run_of_allAllowed (by decide +kernel))

/-- A call times out, is disconnected and gives up; the next call writes over its message, which is not yet read. -/
def writeOver : List (Event byteType) :=
  [Event.send 0 (byteMessage 7)] ++ replicate 8 (Event.sender 0 .done) ++
    [Event.sender 0 .timeout, Event.disconnectSender 0] ++ replicate 2 (Event.sender 0 .done) ++
    [Event.send 1 (byteMessage 8), Event.sender 1 .done]

theorem writeOver_not_delivers : ¬ ∀ (type : MessageType) (messageLen messageIndex : Nat)
    (messageBuffer : Nat → UInt8) (events : List (Event type)) (t : State type),
    Run Step (start type messageLen messageIndex messageBuffer) events t →
      t.Delivers (events.filterMap Event.message) := by
  intro hall
  have hdelivers := hall byteType 0 0 (fun _ => 0) writeOver _ (run_of_allAllowed (by decide +kernel))
  have hwrites : ((writeOver.foldl after (start byteType 0 0 fun _ => 0)).senders 1).inSend =
      some (⟨1, byteMessage 8⟩, .writeIndex) := rfl
  rcases hdelivers.noOverwrite 1 _ _ hwrites rfl with halive | ⟨hflag, -⟩
  · exact absurd halive (by decide +kernel)
  · exact absurd hflag (by decide +kernel)

end State
end Firebird.Ipc
