import Firebird.Ipc.Message

/-! # The steps of a call of `send` -/

namespace Firebird.Ipc.State

open Function List
variable {type : MessageType} {s t : State type} {delivered : List (Call type)} {i j : SenderId} {call : Call type}
  {stage stage' : Stage}

section
variable (s : State type)

@[simp] theorem goTo_self (i : SenderId) (call : Call type) (stage : Stage) :
    (s.goTo i call stage).senders i = { s.senders i with inSend := some (call, stage) } := setSender_self ..

theorem goTo_of_ne (h : j ≠ i) (call : Call type) (stage : Stage) :
    (s.goTo i call stage).senders j = s.senders j := setSender_of_ne s h _

theorem goTo_sameChannel (i : SenderId) (call : Call type) (stage : Stage) :
    SameChannel s (s.goTo i call stage) := ⟨rfl, rfl, rfl, rfl, rfl, rfl, rfl⟩

theorem checkAlive_eq (i : SenderId) : ∃ disconnected,
    s.checkAlive i = s.setSender i { s.senders i with disconnected } := by
  unfold checkAlive
  split
  · exact ⟨(s.senders i).disconnected, (congrArg (fun f => { s with senders := f })
      (update_eq_self i s.senders)).symm⟩
  · exact ⟨true, rfl⟩

end

theorem Inv.goTo (h : s.Inv delivered) (hc : (s.senders i).inSend = some (call, stage))
    (hholds : stage'.holds = stage.holds)
    (hphase : ∀ older, stage.holds = true → s.Phase call older delivered stage → s.Phase call older delivered stage') :
    (s.goTo i call stage').Inv delivered := by
  have hsame := goTo_sameChannel s i call stage'
  refine h.moveTo hc hholds (fun j hj => goTo_of_ne s hj call stage') ?_ rfl rfl rfl rfl rfl h.gone ?_ ?_ ?_
  · rw [goTo_self]
  · exact fun _ hq => hsame.quiet hq
  · exact fun _ c older st hp => hsame.phase hp
  · exact fun older hst hp => hsame.phase (hphase older hst hp)

theorem Inv.store (h : s.Inv delivered) (hc : (s.senders i).inSend = some (call, stage)) (hst : stage.holds = true)
    (stage' : Stage) (hholds : stage'.holds = true) (hsenders : t.senders = (s.goTo i call stage').senders)
    (hcalls : t.calls = s.calls)
    (hsent : t.sent = s.sent) (hmutex : t.mutex = s.mutex) (hreceived : t.received = s.received)
    (hsucceeded : t.succeeded = s.succeeded)
    (hgone : t.alive = s.alive ∧ t.receiving = s.receiving ∧ t.receiverDisconnected = s.receiverDisconnected)
    (hphase : ∀ older, s.Phase call older delivered stage → t.Phase call older delivered stage') : t.Inv delivered := by
  have hheld : s.mutex = some i := h.holder i call stage hc hst
  refine h.moveTo hc (hholds.trans hst.symm) ?_ ?_ hcalls hsent hmutex hreceived hsucceeded ?_ ?_ ?_ ?_
  · intro j hj
    rw [hsenders, goTo_of_ne s hj]
  · rw [hsenders, goTo_self]
  · intro halive
    rw [hgone.2.1, hgone.2.2]
    exact h.gone (hgone.1.symm.trans halive)
  · exact fun hne => absurd hheld hne
  · exact fun hne => absurd hheld hne
  · exact fun older _ hp => hphase older hp

theorem Inv.setDisconnected (h : s.Inv delivered) (i : SenderId) (disconnected : Bool) :
    (s.setSender i { s.senders i with disconnected }).Inv delivered := by
  have hin : ∀ j, ((s.setSender i { s.senders i with disconnected }).senders j).inSend = (s.senders j).inSend :=
    fun j => by
      by_cases hj : j = i
      · subst hj
        rw [setSender_self]
      · rw [setSender_of_ne s hj]
  have hsame : SameChannel s (s.setSender i { s.senders i with disconnected }) := ⟨rfl, rfl, rfl, rfl, rfl, rfl, rfl⟩
  exact {
    nodup := h.nodup
    sent_lt := h.sent_lt
    inSend_lt := fun j c st hj => h.inSend_lt j c st ((hin j).symm.trans hj)
    inSend_ne := fun j k c c' st st' hjk hj hk =>
      h.inSend_ne j k c c' st st' hjk ((hin j).symm.trans hj) ((hin k).symm.trans hk)
    notSent := fun j c st hj => h.notSent j c st ((hin j).symm.trans hj)
    holder := fun j c st hj => h.holder j c st ((hin j).symm.trans hj)
    gone := h.gone
    received := h.received
    succeeded := h.succeeded
    free := fun hm => ⟨hsame.quiet (h.free hm).1, (h.free hm).2⟩
    held := fun j hj => by
      obtain ⟨c, st, older, hc, hst, hsent, hp⟩ := h.held j hj
      exact ⟨c, st, older, (hin j).trans hc, hst, hsent, hsame.phase hp⟩ }

section
variable (h : s.Inv delivered) (hc : (s.senders i).inSend = some (call, stage))
include h hc

theorem Inv.checkAlive (hholds : stage'.holds = stage.holds)
    (hphase : ∀ older, stage.holds = true → ∀ {u : State type}, u.Phase call older delivered stage →
      u.Phase call older delivered stage') : ((s.checkAlive i).goTo i call stage').Inv delivered := by
  obtain ⟨disconnected, heq⟩ := checkAlive_eq s i
  rw [heq]
  have hc' : ((s.setSender i { s.senders i with disconnected }).senders i).inSend = some (call, stage) := by
    rw [setSender_self]
    exact hc
  exact (h.setDisconnected i disconnected).goTo hc' hholds (fun older hst hp => hphase older hst hp)

theorem Inv.leaveUnlocked (hst : stage.holds = false) : (s.leave i stage).Inv delivered := by
  have hleave : s.leave i stage = s.setSender i { s.senders i with inSend := none } := by
    unfold leave
    rw [hst]
    rfl
  rw [hleave]
  have hin : ∀ j c st, ((s.setSender i { s.senders i with inSend := none }).senders j).inSend = some (c, st) →
      j ≠ i ∧ (s.senders j).inSend = some (c, st) := fun j c st hj => by
    by_cases hji : j = i
    · subst hji
      rw [setSender_self] at hj
      cases hj
    · rw [setSender_of_ne s hji] at hj
      exact ⟨hji, hj⟩
  have hsame : SameChannel s (s.setSender i { s.senders i with inSend := none }) := ⟨rfl, rfl, rfl, rfl, rfl, rfl, rfl⟩
  exact {
    nodup := h.nodup
    sent_lt := h.sent_lt
    inSend_lt := fun j c st hj => h.inSend_lt j c st (hin j c st hj).2
    inSend_ne := fun j k c c' st st' hjk hj hk =>
      h.inSend_ne j k c c' st st' hjk (hin j c st hj).2 (hin k c' st' hk).2
    notSent := fun j c st hj => h.notSent j c st (hin j c st hj).2
    holder := fun j c st hj => h.holder j c st (hin j c st hj).2
    gone := h.gone
    received := h.received
    succeeded := h.succeeded
    free := fun hm => ⟨hsame.quiet (h.free hm).1, (h.free hm).2⟩
    held := fun j hj => by
      obtain ⟨c, st, older, hcj, hstj, hsent, hp⟩ := h.held j hj
      have hji : j ≠ i := by
        rintro rfl
        rw [hc] at hcj
        cases hcj
        rw [hst] at hstj
        exact Bool.noConfusion hstj
      exact ⟨c, st, older, by rw [setSender_of_ne s hji]; exact hcj, hstj, hsent, hsame.phase hp⟩ }

theorem Inv.leaveQuiet (hst : stage.holds = true)
    (hsenders : t.senders = (s.setSender i { s.senders i with inSend := none }).senders) (hcalls : t.calls = s.calls)
    (hsent : t.sent = s.sent) (hmutex : t.mutex = none) (hreceived : t.received = s.received)
    (hsucceeded : ∀ c ∈ t.succeeded, c ∈ delivered)
    (hgone : t.alive = s.alive ∧ t.receiving = s.receiving ∧ t.receiverDisconnected = s.receiverDisconnected)
    (hquiet : t.Quiet) (hsub : delivered.Sublist s.sent) : t.Inv delivered := by
  have hin : ∀ j c st, (t.senders j).inSend = some (c, st) → j ≠ i ∧ (s.senders j).inSend = some (c, st) :=
    fun j c st hj => by
      rw [hsenders] at hj
      by_cases hji : j = i
      · subst hji
        rw [setSender_self] at hj
        cases hj
      · rw [setSender_of_ne s hji] at hj
        exact ⟨hji, hj⟩
  exact {
    nodup := hsent ▸ h.nodup
    sent_lt := by
      rw [hsent, hcalls]
      exact h.sent_lt
    inSend_lt := fun j c st hj => hcalls ▸ h.inSend_lt j c st (hin j c st hj).2
    inSend_ne := fun j k c c' st st' hjk hj hk =>
      h.inSend_ne j k c c' st st' hjk (hin j c st hj).2 (hin k c' st' hk).2
    notSent := fun j c st hj => hsent ▸ h.notSent j c st (hin j c st hj).2
    holder := fun j c st hj hstj => by
      obtain ⟨hji, hj₀⟩ := hin j c st hj
      have hj' := h.holder j c st hj₀ hstj
      rw [h.holder i call stage hc hst] at hj'
      exact absurd (Option.some.inj hj').symm hji
    gone := fun halive => by
      rw [hgone.2.1, hgone.2.2]
      exact h.gone (hgone.1.symm.trans halive)
    received := hreceived.trans h.received
    succeeded := hsucceeded
    free := fun _ => ⟨hquiet, hsent ▸ hsub⟩
    held := fun j hj => by
      rw [hmutex] at hj
      cases hj }

theorem Inv.phase (hst : stage.holds = true) :
    ∃ older, s.sent = older ++ [call] ∧ s.Phase call older delivered stage := by
  obtain ⟨c, st, older, hc', -, hsent, hp⟩ := h.held i (h.holder i call stage hc hst)
  rw [hc] at hc'
  cases hc'
  exact ⟨older, hsent, hp⟩

end

/-! ### The steps -/

/-- The call gives up the wait for its answer in its next step. -/
def givesUp (s : State type) (i : SenderId) : Bool :=
  match (s.senders i).inSend with
  | some (_, .checked) => (s.senders i).disconnected
  | _ => false

theorem Inv.lock (h : s.Inv delivered) (hc : (s.senders i).inSend = some (call, .locking)) (hm : s.mutex = none) :
    { s.goTo i call .writeIndex with mutex := some i, sent := s.sent ++ [call] }.Inv delivered := by
  obtain ⟨hquiet, hsub⟩ := h.free hm
  have hfresh : ∀ c ∈ s.sent, c.id ≠ call.id := h.notSent i call .locking hc rfl
  have hin : ∀ j c st, ((s.goTo i call .writeIndex).senders j).inSend = some (c, st) →
      j = i ∧ c = call ∧ st = .writeIndex ∨ j ≠ i ∧ (s.senders j).inSend = some (c, st) := fun j c st hj => by
    by_cases hji : j = i
    · subst hji
      rw [goTo_self] at hj
      cases hj
      exact .inl ⟨rfl, rfl, rfl⟩
    · rw [goTo_of_ne s hji] at hj
      exact .inr ⟨hji, hj⟩
  exact {
    nodup := by
      rw [map_append, nodup_append]
      refine ⟨h.nodup, pairwise_singleton .., fun a ha b hb => ?_⟩
      obtain ⟨c, hcm, rfl⟩ := mem_map.mp ha
      cases mem_singleton.mp hb
      exact hfresh c hcm
    sent_lt := fun c hcm => by
      rcases mem_append.mp hcm with hcm | hcm
      · exact h.sent_lt c hcm
      · cases mem_singleton.mp hcm
        exact h.inSend_lt i call .locking hc
    inSend_lt := fun j c st hj => by
      rcases hin j c st hj with ⟨rfl, rfl, rfl⟩ | ⟨-, hj⟩
      · exact h.inSend_lt j c .locking hc
      · exact h.inSend_lt j c st hj
    inSend_ne := fun j k c c' st st' hjk hj hk => by
      rcases hin j c st hj with ⟨hji, rfl, -⟩ | ⟨-, hj₀⟩ <;> rcases hin k c' st' hk with ⟨hki, rfl, -⟩ | ⟨-, hk₀⟩
      · exact absurd (hji.trans hki.symm) hjk
      · exact h.inSend_ne i k c c' .locking st' (fun heq => hjk (hji.trans heq)) hc hk₀
      · exact h.inSend_ne j i c c' st .locking (fun heq => hjk (heq.trans hki.symm)) hj₀ hc
      · exact h.inSend_ne j k c c' st st' hjk hj₀ hk₀
    notSent := fun j c st hj hst c' hc' => by
      rcases hin j c st hj with ⟨rfl, rfl, rfl⟩ | ⟨hji, hj⟩
      · exact Bool.noConfusion hst
      · rcases mem_append.mp hc' with hc' | hc'
        · exact h.notSent j c st hj hst c' hc'
        · cases mem_singleton.mp hc'
          exact h.inSend_ne i j call c .locking st (Ne.symm hji) hc hj
    holder := fun j c st hj hst => by
      rcases hin j c st hj with ⟨rfl, rfl, rfl⟩ | ⟨-, hj⟩
      · rfl
      · have hj' := h.holder j c st hj hst
        rw [hm] at hj'
        cases hj'
    gone := h.gone
    received := h.received
    succeeded := h.succeeded
    free := nofun
    held := fun j hj => by
      cases Option.some.inj hj
      refine ⟨call, .writeIndex, s.sent, ?_, rfl, rfl, .writing rfl hquiet hsub trivial⟩
      rw [goTo_self] }

theorem Phase.of_beforeFlag {older : List (Call type)} (hp : s.Phase call older delivered stage)
    (hst : stage.beforeFlag = true) : s.Quiet ∧ delivered.Sublist older ∧ s.Written call stage := by
  cases hp with
  | writing _ hq hsub hw => exact ⟨hq, hsub, hw⟩
  | full hst' => cases stage <;> first | exact Bool.noConfusion hst | exact Bool.noConfusion hst'
  | acked hst' => cases stage <;> first | exact Bool.noConfusion hst | exact hst'.elim nofun nofun

theorem Phase.of_finishes {older : List (Call type)} (hp : s.Phase call older delivered stage)
    (hst : stage.finishes = true) : s.receiverFlag = false ∧ s.senderFlag = true ∧ s.receiving.engaged = false ∧
      ∃ before, before.Sublist older ∧ delivered = before ++ [call] := by
  cases hp with
  | writing hst' | full hst' => cases stage <;> first | exact Bool.noConfusion hst | exact Bool.noConfusion hst'
  | acked _ h2 h3 h4 h5 => exact ⟨h2, h3, h4, h5⟩

theorem Inv.writeStep (h : s.Inv delivered) (hfew : type.sizes.length ≤ 256)
    (hc : (s.senders i).inSend = some (call, stage)) (hst : stage.beforeFlag = true) {wait : Wait}
    (ht : s.senderStep i call stage wait = some t) : t.Inv delivered := by
  have hindex : call.message.index % 256 = call.message.index := by
    obtain ⟨hlt, -⟩ := List.getElem?_eq_some_iff.mp call.message.alternative
    exact Nat.mod_eq_of_lt (Nat.lt_of_lt_of_le hlt hfew)
  have hsize : call.message.size % 65536 = call.message.size := by
    have := type.small call.message.size (mem_of_getElem? call.message.alternative)
    omega
  cases stage with
  | writeIndex =>
    cases ht
    refine h.store hc rfl .writeLen rfl rfl rfl rfl rfl rfl rfl ⟨rfl, rfl, rfl⟩ fun older hp => ?_
    obtain ⟨hq, hsub, -⟩ := hp.of_beforeFlag rfl
    exact .writing rfl hq hsub hindex
  | writeLen =>
    cases ht
    refine h.store hc rfl (.writeByte 0) rfl rfl rfl rfl rfl rfl rfl ⟨rfl, rfl, rfl⟩ fun older hp => ?_
    obtain ⟨hq, hsub, hw⟩ := hp.of_beforeFlag rfl
    exact .writing rfl hq hsub ⟨hw, hsize, Nat.zero_le _, nofun⟩
  | writeByte k =>
    cases hbyte : call.message.bytes[k]? with
    | none =>
      rw [senderStep, hbyte] at ht
      cases ht
      refine h.goTo hc rfl fun older _ hp => ?_
      obtain ⟨hq, hsub, hw⟩ := hp.of_beforeFlag rfl
      obtain ⟨hwi, hwl, -, hwb⟩ := hw
      have hle : call.message.bytes.length ≤ k := getElem?_eq_none_iff.mp hbyte
      exact .writing rfl hq hsub ⟨hwi, hwl, fun n hn => hwb n (Nat.lt_of_lt_of_le hn hle)⟩
    | some byte =>
      rw [senderStep, hbyte] at ht
      cases ht
      refine h.store hc rfl (.writeByte (k + 1)) rfl rfl rfl rfl rfl rfl rfl ⟨rfl, rfl, rfl⟩
        fun older hp => ?_
      obtain ⟨hq, hsub, hw⟩ := hp.of_beforeFlag rfl
      obtain ⟨hwi, hwl, -, hwb⟩ := hw
      obtain ⟨hlt, -⟩ := List.getElem?_eq_some_iff.mp hbyte
      refine .writing rfl hq hsub ⟨hwi, hwl, hlt, fun n hn => ?_⟩
      show some (update s.messageBuffer k byte n) = _
      by_cases hnk : n = k
      · subst hnk
        rw [update_self, hbyte]
      · rw [update_of_ne hnk]
        exact hwb n (by omega)
  | signal =>
    cases ht
    refine h.store hc rfl .storeFlag rfl rfl rfl rfl rfl rfl rfl ⟨rfl, rfl, rfl⟩ fun older hp => ?_
    obtain ⟨hq, hsub, hw⟩ := hp.of_beforeFlag rfl
    exact .writing rfl hq hsub ⟨hw.index, hw.len, hw.bytes⟩
  | storeFlag =>
    cases ht
    refine h.store hc rfl .loadFlag rfl rfl rfl rfl rfl rfl rfl ⟨rfl, rfl, rfl⟩ fun older hp => ?_
    obtain ⟨hq, hsub, hw⟩ := hp.of_beforeFlag rfl
    refine .full rfl hq.1 hsub ⟨hw.index, hw.len, hw.bytes⟩ (fun _ => ?_) nofun
    -- nobody reads: the receiver is gone, or it has not seen a flag
    show s.receiving.reading = false
    rcases hq.2 with halive | ⟨-, hidle⟩
    · rw [(h.gone halive).1]
      rfl
    · cases hr : s.receiving <;> rw [hr] at hidle <;> first | rfl | exact Bool.noConfusion hidle
  | _ => exact Bool.noConfusion hst

theorem Phase.await {u : State type} {older : List (Call type)} (hp : u.Phase call older delivered stage)
    (hst : stage.awaits = true) (hst' : stage'.awaits = true) : u.Phase call older delivered stage' := by
  cases hp with
  | writing h1 => cases stage <;> first | exact Bool.noConfusion h1 | exact Bool.noConfusion hst
  | full _ h2 h3 h4 h5 h6 => exact .full hst' h2 h3 h4 h5 h6
  | acked _ h2 h3 h4 h5 => exact .acked (.inl hst') h2 h3 h4 h5

theorem Inv.giveUp (h : s.Inv delivered) (hc : (s.senders i).inSend = some (call, .checked))
    (hcareful : s.alive = false ∧ s.senderFlag = false) : (s.leave i .checked).Inv delivered := by
  obtain ⟨older, hsent, hp⟩ := h.phase hc rfl
  refine h.leaveQuiet hc rfl (t := s.leave i .checked) rfl rfl rfl rfl rfl h.succeeded ⟨rfl, rfl, rfl⟩
    ⟨hcareful.2, .inl hcareful.1⟩ ?_
  cases hp with
  | writing hst => exact Bool.noConfusion hst
  | full _ _ hsub =>
    rw [hsent]
    exact hsub.trans (sublist_append_left _ _)
  | acked _ _ hflag =>
    rw [hcareful.2] at hflag
    exact Bool.noConfusion hflag

theorem Inv.senderStep (h : s.Inv delivered) (hfew : type.sizes.length ≤ 256)
    (hcareful : s.givesUp i = true → s.alive = false ∧ s.senderFlag = false)
    (hc : (s.senders i).inSend = some (call, stage)) {wait : Wait} (ht : s.senderStep i call stage wait = some t) :
    t.Inv delivered := by
  cases stage with
  | locking =>
    cases wait with
    | done =>
      rw [State.senderStep] at ht
      split at ht
      · cases ht
        exact h.lock hc ‹_›
      · cases ht
    | timeout =>
      cases ht
      exact h.goTo hc rfl nofun
  | lockTimedOut =>
    cases ht
    exact h.checkAlive hc rfl nofun
  | lockChecked =>
    rw [State.senderStep] at ht
    split at ht <;> cases ht
    · exact h.leaveUnlocked hc rfl
    · exact h.goTo hc rfl nofun
  | loadFlag =>
    rw [State.senderStep] at ht
    split at ht <;> cases ht
    · refine h.goTo hc rfl fun older _ hp => ?_
      cases hp with
      | writing hst => exact Bool.noConfusion hst
      | full _ hflag => exact absurd ‹s.senderFlag = true› (by rw [hflag]; exact Bool.false_ne_true)
      | acked _ h2 h3 h4 h5 => exact .acked (.inr rfl) h2 h3 h4 h5
    · exact h.goTo hc rfl fun older _ hp => hp.await rfl rfl
  | waiting =>
    cases wait <;> rw [State.senderStep] at ht <;> split at ht <;> cases ht
    all_goals exact h.goTo hc rfl fun older _ hp => hp.await rfl rfl
  | timedOut =>
    cases ht
    exact h.checkAlive hc rfl fun older _ u hp => hp.await rfl rfl
  | checked =>
    rw [State.senderStep] at ht
    split at ht <;> cases ht
    · refine h.giveUp hc (hcareful ?_)
      rw [givesUp, hc]
      assumption
    · exact h.goTo hc rfl fun older _ hp => hp.await rfl rfl
  | resetSignal =>
    cases ht
    refine h.store hc rfl .clearFlag rfl rfl rfl rfl rfl rfl rfl ⟨rfl, rfl, rfl⟩ fun older hp => ?_
    obtain ⟨h2, h3, h4, h5⟩ := hp.of_finishes rfl
    exact .acked (.inr rfl) h2 h3 h4 h5
  | clearFlag =>
    cases ht
    obtain ⟨older, hsent, hp⟩ := h.phase hc rfl
    obtain ⟨h2, -, h4, before, hbefore, heq⟩ := hp.of_finishes rfl
    refine h.leaveQuiet hc rfl rfl rfl rfl rfl rfl (fun c hcm => ?_) ⟨rfl, rfl, rfl⟩ ⟨rfl, .inr ⟨h2, h4⟩⟩ ?_
    · rcases mem_cons.mp hcm with rfl | hcm
      · rw [heq]
        exact mem_append_right _ (mem_singleton.mpr rfl)
      · exact h.succeeded c hcm
    · rw [heq, hsent]
      exact hbefore.append (List.Sublist.refl _)
  | writeIndex | writeLen | writeByte k | signal | storeFlag => exact h.writeStep hfew hc rfl ht

end Firebird.Ipc.State
