import Firebird.Ipc.SenderKeeps

/-! # The steps of the receiver -/

namespace Firebird.Ipc.State

open List
variable {type : MessageType} {s t : State type} {delivered delivered' : List (Call type)}
  {call : Call type} {stage : Stage}

theorem Inv.receiverTo (h : s.Inv delivered) (hsenders : t.senders = s.senders) (hcalls : t.calls = s.calls)
    (hsent : t.sent = s.sent) (hmutex : t.mutex = s.mutex) (hsucceeded : t.succeeded = s.succeeded)
    (hmore : ∀ c ∈ delivered, c ∈ delivered')
    (hgone : t.alive = false → t.receiving = .idle ∧ t.receiverDisconnected = true)
    (hreceived : t.received = delivered'.map Call.content)
    (hfree : s.Quiet → t.Quiet ∧ delivered' = delivered)
    (hphase : ∀ call older stage, s.sent = older ++ [call] → s.Phase call older delivered stage →
      t.Phase call older delivered' stage) : t.Inv delivered' where
  nodup := hsent ▸ h.nodup
  sent_lt := by
    rw [hsent, hcalls]
    exact h.sent_lt
  inSend_lt := by
    rw [hsenders, hcalls]
    exact h.inSend_lt
  inSend_ne := by
    rw [hsenders]
    exact h.inSend_ne
  notSent := by
    rw [hsenders, hsent]
    exact h.notSent
  holder := by
    rw [hsenders, hmutex]
    exact h.holder
  gone := hgone
  received := hreceived
  succeeded := fun c hc => hmore c (h.succeeded c (hsucceeded ▸ hc))
  free := fun hm => by
    obtain ⟨hq, hsub⟩ := h.free (hmutex ▸ hm)
    obtain ⟨hq', heq⟩ := hfree hq
    rw [heq, hsent]
    exact ⟨hq', hsub⟩
  held := fun i hi => by
    obtain ⟨call, stage, older, hc, hst, hs, hp⟩ := h.held i (hmutex ▸ hi)
    exact ⟨call, stage, older, hsenders ▸ hc, hst, hsent.trans hs, hphase call older stage hs hp⟩

theorem Inv.alive_of_ne_idle (h : s.Inv delivered) (hr : s.receiving ≠ .idle) : s.alive ≠ false :=
  fun halive => hr (h.gone halive).1

theorem Phase.of_engaged {older : List (Call type)} (hp : s.Phase call older delivered stage) (halive : s.alive ≠ false)
    (heng : s.receiving.engaged = true) :
    stage.awaits = true ∧ s.senderFlag = false ∧ delivered.Sublist older ∧ s.Buffered call ∧
      (s.receiverFlag = true → s.receiving.reading = false) ∧ (s.receiverFlag = false → Read call s.receiving) := by
  cases hp with
  | writing _ hq =>
    rcases hq.2 with hq | ⟨-, hq⟩
    · exact absurd hq halive
    · rw [heng] at hq
      exact Bool.noConfusion hq
  | full h1 h2 h3 h4 h5 h6 => exact ⟨h1, h2, h3, h4, h5, h6⟩
  | acked _ _ _ h4 =>
    rw [heng] at h4
    exact Bool.noConfusion h4

theorem Quiet.not_engaged (hq : s.Quiet) (halive : s.alive ≠ false) : s.receiving.engaged = false := by
  rcases hq.2 with hq | ⟨-, hq⟩
  · exact absurd hq halive
  · exact hq

section
variable (h : s.Inv delivered)
include h

theorem Inv.work (halive : s.alive ≠ false) (heng : s.receiving.engaged = true)
    (hsenders : t.senders = s.senders) (hcalls : t.calls = s.calls) (hsent : t.sent = s.sent)
    (hmutex : t.mutex = s.mutex) (hsucceeded : t.succeeded = s.succeeded) (hreceived : t.received = s.received)
    (halive' : t.alive = s.alive)
    (hphase : ∀ call older stage, stage.awaits = true → s.senderFlag = false → delivered.Sublist older →
      s.Buffered call → (s.receiverFlag = true → s.receiving.reading = false) →
      (s.receiverFlag = false → Read call s.receiving) → t.Phase call older delivered stage) : t.Inv delivered := by
  refine h.receiverTo hsenders hcalls hsent hmutex hsucceeded (fun _ => id) ?_ (hreceived.trans h.received) ?_ ?_
  · exact fun hf => absurd (halive'.symm.trans hf) halive
  · intro hq
    rw [hq.not_engaged halive] at heng
    exact Bool.noConfusion heng
  · intro call older stage _ hp
    obtain ⟨h1, h2, h3, h4, h5, h6⟩ := hp.of_engaged halive heng
    exact hphase call older stage h1 h2 h3 h4 h5 h6

theorem Inv.reads (hr : s.receiving.reading = true) :
    ∃ i call stage older, (s.senders i).inSend = some (call, stage) ∧ stage.holds = true ∧ s.sent = older ++ [call] ∧
      stage.awaits = true ∧ s.senderFlag = false ∧ delivered.Sublist older ∧ s.Buffered call ∧
      s.receiverFlag = false ∧ Read call s.receiving := by
  have hne : s.receiving ≠ .idle := by
    intro heq
    rw [heq] at hr
    exact Bool.noConfusion hr
  have heng : s.receiving.engaged = true := by
    cases hrec : s.receiving <;> rw [hrec] at hr <;> first | rfl | exact Bool.noConfusion hr
  have halive := h.alive_of_ne_idle hne
  cases hm : s.mutex with
  | none =>
    have hq := (h.free hm).1.not_engaged halive
    rw [heng] at hq
    exact Bool.noConfusion hq
  | some i =>
    obtain ⟨call, stage, older, hc, hst, hsent, hp⟩ := h.held i hm
    obtain ⟨h1, h2, h3, h4, h5, h6⟩ := hp.of_engaged halive heng
    have hflag : s.receiverFlag = false := by
      cases hf : s.receiverFlag
      · rfl
      · rw [h5 hf] at hr
        exact Bool.noConfusion hr
    exact ⟨i, call, stage, older, hc, hst, hsent, h1, h2, h3, h4, hflag, h6 hflag⟩

theorem Inv.not_failed : s.receiving ≠ .failed := by
  intro heq
  obtain ⟨i, call, stage, older, -, -, -, -, -, -, -, -, hread⟩ := h.reads (by rw [heq]; rfl)
  rw [heq] at hread
  exact hread

theorem Inv.lookFlag (hr : s.receiving.engaged = false) (halive : s.alive ≠ false)
    {receiving : Receiving type} (hr' : receiving.engaged = true → s.receiverFlag = true)
    (hr'' : receiving.reading = false) : { s with receiving }.Inv delivered := by
  have hflag : s.receiverFlag = false → receiving.engaged = false := fun hf => by
    cases heng : receiving.engaged
    · rfl
    · rw [hr' heng] at hf
      exact Bool.noConfusion hf
  refine h.receiverTo rfl rfl rfl rfl rfl (fun _ => id) ?_ h.received ?_ ?_
  · exact fun hf => absurd hf halive
  · intro hq
    rcases hq.2 with hq' | ⟨hf, -⟩
    · exact absurd hq' halive
    · exact ⟨⟨hq.1, .inr ⟨hf, hflag hf⟩⟩, rfl⟩
  · intro call older stage _ hp
    cases hp with
    | writing h1 h2 h3 h4 =>
      rcases h2.2 with hq' | ⟨hf, -⟩
      · exact absurd hq' halive
      · refine .writing h1 ⟨h2.1, .inr ⟨hf, hflag hf⟩⟩ h3 ?_
        cases stage <;> first | exact h4 | exact ⟨h4.index, h4.len, h4.bytes⟩
    | full h1 h2 h3 h4 h5 h6 =>
      refine .full h1 h2 h3 ⟨h4.index, h4.len, h4.bytes⟩ (fun _ => hr'') fun hf => ?_
      have hread := h6 hf
      cases hrec : s.receiving <;> rw [hrec] at hr hread <;> first | exact hread.elim | exact Bool.noConfusion hr
    | acked h1 h2 h3 h4 h5 => exact .acked h1 h2 h3 (hflag h2) h5

theorem Inv.readStep (hr : s.receiving.reading = true) {receiving : Receiving type}
    (senderSignal : Bool) (hread : ∀ call, s.Buffered call → Read call s.receiving → Read call receiving) :
    { s with receiving, senderSignal }.Inv delivered := by
  obtain ⟨-, -, -, -, -, -, -, -, -, -, -, hflag, -⟩ := h.reads hr
  have heng : s.receiving.engaged = true := by
    cases hrec : s.receiving <;> rw [hrec] at hr <;> first | rfl | exact Bool.noConfusion hr
  have hne : s.receiving ≠ .idle := by
    intro heq
    rw [heq] at hr
    exact Bool.noConfusion hr
  refine h.work (h.alive_of_ne_idle hne) heng rfl rfl rfl rfl rfl rfl rfl fun call older stage h1 h2 h3 h4 _ h6 => ?_
  refine .full h1 h2 h3 ⟨h4.index, h4.len, h4.bytes⟩ (fun hf => ?_) fun _ => hread call h4 (h6 hflag)
  rw [hflag] at hf
  exact Bool.noConfusion hf

theorem Inv.returnMessage {index : Nat} {bytes : List UInt8}
    (hr : s.receiving = .storeFlag index bytes) : ∃ delivered',
      { s with receiving := .idle, senderFlag := true, received := s.received ++ [(index, bytes)] }.Inv delivered' := by
  have hreading : s.receiving.reading = true := by
    rw [hr]
    rfl
  obtain ⟨i, call, stage, older, hc, hst, hsent, h1, -, h3, -, hflag, hread⟩ := h.reads hreading
  have halive : s.alive ≠ false := h.alive_of_ne_idle (by rw [hr]; exact nofun)
  have heng : s.receiving.engaged = true := by
    rw [hr]
    rfl
  rw [hr] at hread
  refine ⟨delivered ++ [call], h.receiverTo rfl rfl rfl rfl rfl (fun c hcm => mem_append_left _ hcm) ?_ ?_ ?_ ?_⟩
  · exact fun hf => absurd hf halive
  · rw [h.received, map_append, show (index, bytes) = call.content from hread]
    rfl
  · intro hq
    rw [hq.not_engaged halive] at heng
    exact Bool.noConfusion heng
  · intro call' older' stage' hsent' hp
    obtain ⟨h1', -, h3', -, -, -⟩ := hp.of_engaged halive heng
    have hlast := (append_inj' (hsent.symm.trans hsent') rfl).2
    cases singleton_injective hlast
    exact .acked (.inl h1') hflag rfl rfl ⟨delivered, h3', rfl⟩

theorem Inv.receiverStep {wait : Wait} (ht : s.receiverStep s.receiving wait = some t) :
    ∃ delivered', t.Inv delivered' := by
  cases hr : s.receiving with
  | idle | failed =>
    rw [hr] at ht
    cases ht
  | loadFlag =>
    rw [hr] at ht
    cases ht
    refine ⟨delivered, h.lookFlag (by rw [hr]; rfl) (h.alive_of_ne_idle (by rw [hr]; exact nofun)) ?_ ?_⟩
    · split
      · exact fun _ => ‹_›
      · exact nofun
    · split <;> rfl
  | waiting =>
    rw [hr] at ht
    cases wait <;> rw [State.receiverStep] at ht <;> split at ht <;> cases ht
    all_goals exact ⟨delivered, h.lookFlag (by rw [hr]; rfl) (h.alive_of_ne_idle (by rw [hr]; exact nofun)) nofun rfl⟩
  | timedOut =>
    rw [hr] at ht
    cases ht
    refine ⟨delivered, h.lookFlag (by rw [hr]; rfl) (h.alive_of_ne_idle (by rw [hr]; exact nofun)) ?_ ?_⟩
    · split <;> exact nofun
    · split <;> rfl
  | resetSignal =>
    rw [hr] at ht
    cases ht
    have halive : s.alive ≠ false := h.alive_of_ne_idle (by rw [hr]; exact nofun)
    refine ⟨delivered, h.work halive (by rw [hr]; rfl) rfl rfl rfl rfl rfl rfl rfl
      fun call older stage h1 h2 h3 h4 _ h6 => ?_⟩
    refine .full h1 h2 h3 ⟨h4.index, h4.len, h4.bytes⟩ (fun _ => rfl) fun hf => ?_
    have hread := h6 hf
    rw [hr] at hread
    exact hread
  | clearFlag =>
    rw [hr] at ht
    cases ht
    have halive : s.alive ≠ false := h.alive_of_ne_idle (by rw [hr]; exact nofun)
    refine ⟨delivered, h.work halive (by rw [hr]; rfl) rfl rfl rfl rfl rfl rfl rfl
      fun call older stage h1 h2 h3 h4 _ _ => ?_⟩
    exact .full h1 h2 h3 ⟨h4.index, h4.len, h4.bytes⟩ nofun fun _ => trivial
  | readIndex =>
    have hreading : s.receiving.reading = true := by
      rw [hr]
      rfl
    obtain ⟨i, call, stage, older, -, -, -, -, -, -, hbuf, -, -⟩ := h.reads hreading
    have halt : type.sizes[s.messageIndex]? = some call.message.size := by
      rw [hbuf.index]
      exact call.message.alternative
    rw [hr, State.receiverStep, halt] at ht
    dsimp only at ht
    rw [if_pos hbuf.len.symm] at ht
    cases ht
    refine ⟨delivered, h.readStep hreading s.senderSignal fun call' hbuf' _ => ?_⟩
    have hsize : call'.message.size = call.message.size := hbuf'.len.symm.trans hbuf.len
    exact ⟨hbuf'.index, by rw [call'.message.length_eq, hsize], rfl, Nat.zero_le _⟩
  | readByte index size bytes =>
    have hreading : s.receiving.reading = true := by
      rw [hr]
      rfl
    rw [hr, State.receiverStep] at ht
    split at ht <;> cases ht
    · refine ⟨delivered, h.readStep hreading s.senderSignal fun call hbuf hread => ?_⟩
      rw [hr] at hread
      obtain ⟨hri, hrs, hrb, -⟩ := hread
      have hlt : bytes.length < call.message.bytes.length := hrs ▸ ‹bytes.length < size›
      refine ⟨hri, hrs, ?_, ?_⟩
      · have hnext := hbuf.bytes bytes.length hlt
        rw [length_append, length_singleton, take_add_one, ← hrb, ← hnext]
        rfl
      · rw [length_append, hrs]
        exact hlt
    · refine ⟨delivered, h.readStep hreading s.senderSignal fun call hbuf hread => ?_⟩
      rw [hr] at hread
      obtain ⟨hri, hrs, hrb, hrl⟩ := hread
      have hlen : bytes.length = call.message.bytes.length := by omega
      rw [hlen, take_length] at hrb
      exact Prod.ext hri hrb
  | signalSender index bytes =>
    have hreading : s.receiving.reading = true := by
      rw [hr]
      rfl
    rw [hr] at ht
    cases ht
    refine ⟨delivered, h.readStep hreading true fun call _ hread => ?_⟩
    rw [hr] at hread
    exact hread
  | storeFlag index bytes =>
    rw [hr] at ht
    cases ht
    exact h.returnMessage hr

end

end Firebird.Ipc.State
