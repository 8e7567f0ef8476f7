import Firebird.Evt.Delivers

/-! # Event counts

While a session has an interest in an event, queued or historical, the event stays and its count does not go back. -/

namespace Firebird.Evt
variable {s t u : State} {process session other : Nat} {block block' : Session} {owner : Process} {request : Request}
  {event : Name} {sessions : List Nat}

/-- Sessions that stay keep their interests, and events in which they are interested keep their counts or count on. -/
structure KeepsCounts (s t : State) : Prop where
  counts : ∀ session block block' event, session < s.nextSession → s.sessions session = some block →
    t.sessions session = some block' → block.hasInterest event = true → block'.hasInterest event = true ∧
      ∀ count, s.evntCount event = some count → ∃ count', t.evntCount event = some count' ∧ count ≤ count'
  gone : ∀ session, session < s.nextSession → s.sessions session = none → t.sessions session = none
  nextSession : s.nextSession ≤ t.nextSession

namespace KeepsCounts

theorem refl (s : State) : KeepsCounts s s where
  counts := fun session block block' event _ hblock hblock' hinterest => by
    obtain rfl : block = block' := Option.some.inj (hblock.symm.trans hblock')
    exact ⟨hinterest, fun count hcount => ⟨count, hcount, Int.le_refl _⟩⟩
  gone := fun _ _ hnone => hnone
  nextSession := Nat.le_refl _

theorem trans (h : KeepsCounts s t) (h' : KeepsCounts t u) : KeepsCounts s u where
  counts := fun session block block'' event hlt hblock hblock'' hinterest => by
    have hlt' : session < t.nextSession := Nat.lt_of_lt_of_le hlt h.nextSession
    cases hmiddle : t.sessions session with
    | none => exact nomatch (h'.gone session hlt' hmiddle).symm.trans hblock''
    | some block' =>
      obtain ⟨hkept, hcounts⟩ := h.counts session block block' event hlt hblock hmiddle hinterest
      obtain ⟨hkept', hcounts'⟩ := h'.counts session block' block'' event hlt' hmiddle hblock'' hkept
      refine ⟨hkept', fun count hcount => ?_⟩
      obtain ⟨count', hcount', hle⟩ := hcounts count hcount
      obtain ⟨count'', hcount'', hle'⟩ := hcounts' count' hcount'
      exact ⟨count'', hcount'', Int.le_trans hle hle'⟩
  gone := fun session hlt hnone => h'.gone session (Nat.lt_of_lt_of_le hlt h.nextSession) (h.gone session hlt hnone)
  nextSession := Nat.le_trans h.nextSession h'.nextSession

theorem of_session (session : Nat) (hothers : ∀ other, other ≠ session → other < s.nextSession →
    t.sessions other = s.sessions other)
    (hblock : session < s.nextSession → ∃ block, s.sessions session = some block ∧ ∀ block',
      t.sessions session = some block' → ∀ event, block.hasInterest event = true → block'.hasInterest event = true)
    (hcount : ∀ event count, s.evntCount event = some count → t.evntCount event = some count)
    (hnext : s.nextSession ≤ t.nextSession) : KeepsCounts s t where
  counts := fun other block block' event hlt hold hnew hinterest => by
    refine ⟨?_, fun count hcount' => ⟨count, hcount event count hcount', Int.le_refl _⟩⟩
    by_cases heq : other = session
    · subst heq
      obtain ⟨block'', hblock'', hkept⟩ := hblock hlt
      obtain rfl : block = block'' := Option.some.inj (hold.symm.trans hblock'')
      exact hkept block' hnew event hinterest
    · rw [hothers other heq hlt] at hnew
      obtain rfl : block = block' := Option.some.inj (hold.symm.trans hnew)
      exact hinterest
  gone := fun other hlt hnone => by
    have hne : other ≠ session := by
      rintro rfl
      obtain ⟨block, hsome, -⟩ := hblock hlt
      exact nomatch hnone.symm.trans hsome
    exact (hothers other hne hlt).trans hnone
  nextSession := hnext

theorem of_same (hsessions : t.sessions = s.sessions) (hcount : t.evntCount = s.evntCount)
    (hnext : t.nextSession = s.nextSession) : KeepsCounts s t where
  counts := fun session block block' event _ hblock hblock' hinterest => by
    rw [hsessions] at hblock'
    obtain rfl : block = block' := Option.some.inj (hblock.symm.trans hblock')
    exact ⟨hinterest, fun count hcount' => ⟨count, hcount ▸ hcount', Int.le_refl _⟩⟩
  gone := fun session _ hnone => by rw [hsessions]; exact hnone
  nextSession := Nat.le_of_eq hnext.symm

theorem of_removes (h : Removes s t session) (hnone : t.sessions session = none) : KeepsCounts s t where
  counts := fun other block block' event hlt hblock hblock' hinterest => by
    have hne := ne_of_none hnone hblock'
    rw [h.others other hne] at hblock'
    obtain rfl : block = block' := Option.some.inj (hblock.symm.trans hblock')
    refine ⟨hinterest, fun count hcount => ⟨count, ?_, Int.le_refl _⟩⟩
    rw [h.wanted other block event hne hlt hblock hinterest]
    exact hcount
  gone := fun other hlt hgone => by
    by_cases heq : other = session
    · rw [heq]
      exact hnone
    · exact (h.others other heq).trans hgone
  nextSession := Nat.le_of_eq h.nextSession.symm

end KeepsCounts

theorem keepsCounts_createProcess (s : State) (process : Nat) : KeepsCounts s (s.createProcess process) := by
  unfold State.createProcess
  split
  · exact .of_same rfl rfl rfl
  · exact .refl s

theorem keepsCounts_createSession (s : State) (process : Nat) : KeepsCounts s (s.createSession process) := by
  unfold State.createSession
  split
  · exact .refl s
  · refine .of_session s.nextSession (fun other hne _ => State.setSession_of_ne hne s _)
      (fun hlt => absurd hlt (Nat.lt_irrefl _)) (fun _ _ hcount => hcount) (Nat.le_succ _)

theorem keepsCounts_setSession (hblock : s.sessions session = some block)
    (hinterest : ∀ event, block.hasInterest event = true → block'.hasInterest event = true) :
    KeepsCounts s (s.setSession session block') := by
  refine .of_session session (fun other hne _ => State.setSession_of_ne hne s _)
    (fun _ => ⟨block, hblock, fun new hnew => ?_⟩) (fun _ _ hcount => hcount) (Nat.le_refl _)
  rw [← Option.some.inj ((State.setSession_self s session _).symm.trans hnew)]
  exact hinterest

theorem keepsCounts_deleteSession (s : State) (session : Nat) : KeepsCounts s (s.deleteSession session) := by
  unfold State.deleteSession
  split
  · exact .refl s
  case h_2 block hblock =>
    split
    · exact keepsCounts_setSession hblock fun _ hinterest => hinterest
    · obtain ⟨hremoves, hnone⟩ := destroySession_removes s session block
      exact .of_removes hremoves hnone

theorem keepsCounts_queEvents (s : State) (session : Nat) (events : List UInt8) :
    KeepsCounts s (s.queEvents session events) := by
  unfold State.queEvents
  split
  case h_2 => exact .refl s
  case h_1 block items hblock _ =>
    obtain ⟨u, historical, request, hq, hresult⟩ := queItems_queues hblock items
    have hqueued : KeepsCounts s u := by
      refine .of_session session (fun other hne _ => hq.others other hne)
        (fun _ => ⟨block, hblock, fun new hnew event hinterest => ?_⟩) hq.counts (Nat.le_of_eq hq.nextSession.symm)
      rw [← Option.some.inj (hq.new.symm.trans hnew)]
      rcases Session.hasInterest_iff.mp hinterest with ⟨interest, hmem, heq⟩ | ⟨earlier, hmem, hwanted⟩
      · rcases hq.kept interest hmem with hhistorical | ⟨new, hin, hsame⟩
        · exact Session.hasInterest_iff.mpr (.inl ⟨interest, hhistorical, heq⟩)
        · exact Session.hasInterest_iff.mpr (.inr ⟨request, List.mem_append_right _ List.mem_cons_self, new, hin,
            hsame.trans heq⟩)
      · exact Session.hasInterest_iff.mpr (.inr ⟨earlier, List.mem_append_left _ hmem, hwanted⟩)
    rcases hresult with hposts | ⟨hsame, -⟩
    · rw [hposts]
      exact hqueued.trans (.of_same (by simp) (by simp) (by simp))
    · rw [hsame]
      exact hqueued

theorem keepsCounts_deleteRequest (h : Inv s) (hblock : s.sessions session = some block)
    (hmem : request ∈ block.requests) : KeepsCounts s (s.setSession session (block.deleteRequest request)) :=
  keepsCounts_setSession hblock fun event hinterest => by
    rw [Session.hasInterest_deleteRequest hmem (h.numbered.eq_of_number hblock hmem)]
    exact hinterest

theorem keepsCounts_cancelEvents (h : Inv s) (process : Nat) (requestId : Int) :
    KeepsCounts s (s.cancelEvents process requestId) := by
  unfold State.cancelEvents
  split
  · exact .refl s
  case h_2 hfound =>
    obtain ⟨hblock, hmem⟩ := findRequest_spec hfound
    exact keepsCounts_deleteRequest h hblock hmem

/-- The new count is one that an `SLONG` holds. -/
def SafePost (s : State) (event : Name) (count : UInt16) : Prop :=
  ∀ before, s.evntCount event = some before → before + count.toNat < 2 ^ 31

theorem le_slong {n : Int} (h : n < 2 ^ 31) : n ≤ slong n := by
  unfold slong
  omega

theorem keepsCounts_postEvent (s : State) (poster : Nat) (event : Name) {count : UInt16}
    (hsafe : SafePost s event count) : KeepsCounts s (s.postEvent poster event count) := by
  unfold State.postEvent
  dsimp only
  split
  case h_1 => exact .of_same rfl rfl rfl
  case h_2 before hbefore =>
    refine ⟨fun session block block' wanted _ hblock hblock' hinterest => ?_, fun _ _ hnone => hnone, Nat.le_refl _⟩
    obtain rfl : block = block' := Option.some.inj (hblock.symm.trans hblock')
    refine ⟨hinterest, fun old hold => ?_⟩
    by_cases heq : wanted = event
    · subst heq
      obtain rfl : before = old := Option.some.inj (hbefore.symm.trans hold)
      have hle := le_slong (hsafe before hbefore)
      exact ⟨_, Function.update_self .., Int.le_trans (Int.le_add_of_nonneg_right (Int.natCast_nonneg _)) hle⟩
    · exact ⟨old, (Function.update_of_ne heq ..).trans hold, Int.le_refl _⟩

theorem Visiting.keepsCounts (sessions : List Nat) : ∀ s : State, Visiting process sessions s →
    KeepsCounts s (State.visit process sessions s) := by
  induction sessions with
  | nil => exact fun s _ => .of_same rfl rfl rfl
  | cons session sessions ih =>
    intro s h
    obtain ⟨block, hblock, -, hunpurged⟩ := h.members session List.mem_cons_self
    rw [State.visit, hblock]
    dsimp only
    split
    case h_1 request hfound =>
      have hmem := List.mem_of_find?_eq_some hfound
      have hdeleted : KeepsCounts s (s.setSession session (({ block with delivering := true } : Session).deleteRequest
          request)) := by
        refine keepsCounts_setSession hblock fun event hinterest => ?_
        have hone := h.numbered.eq_of_number hblock hmem
        have hsame : (({ block with delivering := true } : Session).deleteRequest request).hasInterest event = _ :=
          Session.hasInterest_deleteRequest hmem hone
        rw [hsame]
        exact hinterest
      exact hdeleted.trans (.of_same rfl rfl rfl)
    case h_2 hnone =>
      unfold State.leaveSession
      rw [if_neg (by rw [hunpurged]; exact Bool.false_ne_true)]
      have hleft := h.leave hblock fun request hmem => Bool.not_eq_true _ ▸ List.find?_eq_none.mp hnone request hmem
      have hmoved : KeepsCounts s (s.setWatcher process .waiting) := .of_same rfl rfl rfl
      have hthere : (s.setWatcher process .waiting).sessions session = some block := hblock
      have hset : KeepsCounts (s.setWatcher process .waiting)
          ((s.setWatcher process .waiting).setSession session { block with delivering := false }) :=
        keepsCounts_setSession hthere fun _ hinterest => hinterest
      exact (hmoved.trans hset).trans (ih _ hleft)

theorem keepsCounts_watch (h : Inv s) (process : Nat) : KeepsCounts s (s.watch process) := by
  unfold State.watch
  split
  · exact .refl s
  case h_2 owner howner =>
    split
    case isFalse => exact .refl s
    case isTrue hready =>
      have hawake : KeepsCounts s (s.setProcess process owner.awake) := .of_same rfl rfl rfl
      split
      · exact hawake.trans ((h.visiting howner (idle_of_ready hready)).keepsCounts _ _)
      · exact hawake

theorem keepsCounts_callbackDone (h : Inv s) (process : Nat) : KeepsCounts s (s.callbackDone process) := by
  unfold State.callbackDone
  split
  · exact .refl s
  case h_2 owner howner =>
    split
    case h_2 => exact .refl s
    case h_1 session hcalling =>
      split
      case h_1 => exact .refl s
      case h_2 block hblock =>
        split
        case isTrue hpurge =>
          have hmoved : KeepsCounts s (s.setWatcher process .waiting) := .of_same rfl rfl rfl
          obtain ⟨hremoves, hnone⟩ := destroySession_removes (s.setWatcher process .waiting) session
            { block with delivering := false }
          unfold State.leaveSession
          rw [if_pos hpurge]
          exact hmoved.trans (.of_removes hremoves hnone)
        case isFalse hunset =>
          exact (h.resuming howner hcalling hblock (Bool.not_eq_true _ ▸ hunset)).keepsCounts _ s

/-! ### No event is lost

Between the steps of the processes no satisfied request is passed over, none is delivered twice, and the counts of
events that somebody waits for do not go back. -/

variable {s t u : State} {session : Nat} {block : Session} {request : Request} {op : Op} {ops : List Op}

/-- A session is not deleted from a callback that other sessions wait for, a watcher does not clear the wakeup flag for
    nothing, and counts do not overflow. -/
def Careful (s : State) : Op → Prop
  | .deleteSession session => SafeDelete s session
  | .postEvent _ event count => SafePost s event count
  | .watch process => SafeWatch s process
  | .createProcess _ | .createSession _ | .queEvents _ _ | .cancelEvents _ _ | .deliverEvents _ | .callbackDone _ =>
      True

def Step : State → Op → State → Prop := Lib.Does (fun _ _ => True) State.after

def CarefulStep : State → Op → State → Prop := Lib.Does Careful State.after

structure NoneLost (s : State) : Prop where
  satisfied : s.posting = [] → ∀ session block request, s.sessions session = some block → block.purge = false →
    request ∈ block.requests → s.completed request = true →
    ∃ owner, s.processes block.process = some owner ∧ (owner.pending = true ∨ s.WillVisit owner session)
  pending : ∀ process owner, s.processes process = some owner → owner.pending = true →
    owner.posted = true ∨ owner.watcher = .starting
  once : (s.delivered.map (·.1)).Nodup
  gone : ∀ session block request, s.sessions session = some block → request ∈ block.requests →
    request.number ∉ s.delivered.map (·.1)

theorem Inv.initial : Inv State.initial where
  placed := ⟨nofun, nofun, nofun, nofun, nofun⟩
  known := nofun
  posted := ⟨nofun, nofun⟩
  numbered := ⟨nofun, nofun, nofun, nofun, List.nodup_nil, nofun⟩
  covered := nofun

theorem Inv.after (h : Inv s) (hcareful : Careful s op) : Inv (s.after op) := by
  cases op with
  | createProcess process => exact h.createProcess process
  | createSession process => exact h.createSession process
  | deleteSession session => exact h.deleteSession hcareful
  | queEvents session events => exact h.queEvents session events
  | cancelEvents process requestId => exact h.cancelEvents process requestId
  | postEvent poster event count => exact h.postEvent poster event count
  | deliverEvents poster => exact h.deliverEvents poster
  | watch process => exact h.watch hcareful
  | callbackDone process => exact h.callbackDone process

theorem Inv.keepsCounts (h : Inv s) (hcareful : Careful s op) : KeepsCounts s (s.after op) := by
  cases op with
  | createProcess process => exact keepsCounts_createProcess s process
  | createSession process => exact keepsCounts_createSession s process
  | deleteSession session => exact keepsCounts_deleteSession s session
  | queEvents session events => exact keepsCounts_queEvents s session events
  | cancelEvents process requestId => exact keepsCounts_cancelEvents h process requestId
  | postEvent poster event count => exact keepsCounts_postEvent s poster event hcareful
  | deliverEvents poster => exact .of_same rfl rfl rfl
  | watch process => exact keepsCounts_watch h process
  | callbackDone process => exact keepsCounts_callbackDone h process

theorem Inv.noneLost (h : Inv s) : NoneLost s where
  satisfied := fun hnobody session block request hblock hpurge hmem hcompleted => by
    obtain ⟨owner, howner⟩ := h.placed.home hblock
    refine ⟨owner, howner, ?_⟩
    rcases h.covered session block request owner hblock hpurge hmem hcompleted howner with hpending | hwakeup | hvisit
    · exact .inl hpending
    · exact Bool.noConfusion ((h.posted.wakeup hnobody _ owner howner).symm.trans hwakeup)
    · exact .inr hvisit
  pending := h.posted.pending
  once := h.numbered.once
  gone := fun _ _ _ hblock hmem => h.numbered.gone hblock hmem

theorem inv_run (h : Lib.Run CarefulStep s ops t) (hs : Inv s) : Inv t :=
  h.invariant (fun _ _ _ hinv ⟨hcareful, heq⟩ => heq ▸ hinv.after hcareful) hs

/-- In a run of careful steps nothing is lost, and counts do not go back from one state to a later one. -/
theorem noneLost_of_careful {earlier later : List Op} (h : Lib.Run CarefulStep State.initial earlier s)
    (h' : Lib.Run CarefulStep s later t) : NoneLost t ∧ KeepsCounts s t := by
  have hs := inv_run h .initial
  refine ⟨(inv_run h' hs).noneLost, h'.rel_of_invariant KeepsCounts.refl KeepsCounts.trans ?_ hs⟩
  rintro u op _ hu ⟨hcareful, rfl⟩
  exact ⟨hu.after hcareful, hu.keepsCounts hcareful⟩

def Plain (s : State) : Op → Prop
  | .deleteSession session => ∀ block ∈ s.sessions session, block.delivering = false
  | .postEvent _ event count => ∀ before ∈ s.evntCount event, before + count.toNat < 2 ^ 31
  | .watch process => ∀ owner ∈ s.processes process, owner.pending = true
  | .createProcess _ | .createSession _ | .queEvents _ _ | .cancelEvents _ _ | .deliverEvents _ | .callbackDone _ =>
      True

instance (s : State) : ∀ op, Decidable (Plain s op)
  | .deleteSession session => inferInstanceAs (Decidable (∀ block ∈ s.sessions session, block.delivering = false))
  | .postEvent _ event count => inferInstanceAs (Decidable (∀ before ∈ s.evntCount event,
      before + count.toNat < 2 ^ 31))
  | .watch process => inferInstanceAs (Decidable (∀ owner ∈ s.processes process, owner.pending = true))
  | .createProcess _ | .createSession _ | .queEvents _ _ | .cancelEvents _ _ | .deliverEvents _ | .callbackDone _ =>
    isTrue trivial

theorem Plain.careful (h : Plain s op) : Careful s op := by
  cases op with
  | deleteSession session =>
    intro block owner hblock hdelivering
    exact Bool.noConfusion ((h block hblock).symm.trans hdelivering)
  | postEvent poster event count => exact h
  | watch process => exact fun owner howner _ => .inl (h owner howner)
  | createProcess | createSession | queEvents | cancelEvents | deliverEvents | callbackDone => exact trivial

theorem Plain.run (h : Lib.AllAllowed Plain State.after s ops) : Lib.Run CarefulStep s ops (ops.foldl State.after s) :=
  (Lib.run_of_allAllowed h).mono fun _ _ _ hstep => ⟨hstep.1.careful, hstep.2⟩

def onceA : List UInt8 := [1, 1, 65, 1, 0, 0, 0]

def postOne : List Op :=
  [.createProcess 0, .createSession 0, .queEvents 0 onceA, .postEvent 1 [65] 1, .deliverEvents 1]

def deliverOne : List Op := [.watch 0, .callbackDone 0, .deleteSession 0]

theorem noneLost_of_careful_deliverOne :
    NoneLost (deliverOne.foldl State.after (postOne.foldl State.after State.initial)) ∧
      KeepsCounts (postOne.foldl State.after State.initial)
        (deliverOne.foldl State.after (postOne.foldl State.after State.initial)) :=
  noneLost_of_careful (Plain.run (by decide +kernel)) (Plain.run (by decide +kernel))

def deleteFirst : List Op :=
  [.createProcess 0, .createSession 0, .createSession 0, .queEvents 0 onceA, .queEvents 1 onceA, .postEvent 1 [65] 1,
    .deliverEvents 1, .watch 0, .deleteSession 0, .callbackDone 0]

theorem deleteFirst_loses : ¬ ∀ (earlier later : List Op) (s t : State), Lib.Run Step State.initial earlier s →
    Lib.Run Step s later t → NoneLost t ∧ KeepsCounts s t := by
  intro hall
  have hnone := (hall deleteFirst [] _ _ (Lib.run_of_allAllowed (by decide +kernel)) (.nil _)).1
  have hsession : (deleteFirst.foldl State.after State.initial).sessions 1 =
      some ⟨0, [⟨1, 2, [⟨[65], 1⟩]⟩], [], false, false⟩ := by decide +kernel
  have hprocess : (deleteFirst.foldl State.after State.initial).processes 0 = some ⟨false, false, false, .waiting⟩ := by
    decide +kernel
  obtain ⟨owner, howner, hseen⟩ := hnone.satisfied (by decide +kernel) 1 _ ⟨1, 2, [⟨[65], 1⟩]⟩ hsession rfl
    List.mem_cons_self (by decide +kernel)
  obtain rfl := Option.some.inj (hprocess.symm.trans howner)
  rcases hseen with hpending | ⟨current, -, hcalling, -⟩
  · exact nomatch hpending
  · exact nomatch hcalling

end Firebird.Evt
