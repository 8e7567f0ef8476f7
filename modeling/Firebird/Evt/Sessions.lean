import Firebird.Evt.EventManager

/-! # Sessions and their watcher -/

namespace Firebird.Evt
open List Function
variable {s t : State} {process session other : Nat} {block : Session} {owner : Process} {event : Name}
  {request : Request}

namespace State

@[simp] theorem setSession_self (s : State) (session : Nat) (block : Session) :
    (s.setSession session block).sessions session = some block := update_self ..

theorem setSession_of_ne (h : other ≠ session) (s : State) (block : Session) :
    (s.setSession session block).sessions other = s.sessions other := update_of_ne h ..

theorem cases_of_setSession {s : State} {block new : Session}
    (h : (s.setSession session new).sessions other = some block) :
    s.sessions other = some block ∧ other ≠ session ∨ other = session ∧ block = new := by
  by_cases heq : other = session
  · subst heq
    exact .inr ⟨rfl, (Option.some.inj ((setSession_self s _ _).symm.trans h)).symm⟩
  · exact .inl ⟨(setSession_of_ne heq s _).symm.trans h, heq⟩

@[simp] theorem setProcess_self (s : State) (process : Nat) (owner : Process) :
    (s.setProcess process owner).processes process = some owner := update_self ..

theorem setProcess_of_ne (h : other ≠ process) (s : State) (owner : Process) :
    (s.setProcess process owner).processes other = s.processes other := update_of_ne h ..

theorem setWatcher_eq (h : s.processes process = some owner) (watcher : Watcher) :
    s.setWatcher process watcher = s.setProcess process { owner with watcher } := by
  unfold setWatcher
  rw [h]
  rfl

theorem mem_prbSessions : session ∈ s.prbSessions process ↔
    session < s.nextSession ∧ ∃ block, s.sessions session = some block ∧ block.process = process := by
  unfold prbSessions
  rw [mem_filter, mem_range, Option.any_eq_true]
  simp

theorem sorted_prbSessions (s : State) (process : Nat) : (s.prbSessions process).Pairwise (· < ·) :=
  pairwise_lt_range.filter _

theorem isWanted_iff : s.isWanted event = true ↔
    ∃ session block, session < s.nextSession ∧ s.sessions session = some block ∧ block.hasInterest event = true := by
  unfold isWanted
  rw [any_eq_true]
  constructor
  · rintro ⟨session, hlt, hany⟩
    obtain ⟨block, hblock, hinterest⟩ := Option.any_eq_true _ _ |>.mp hany
    exact ⟨session, block, mem_range.mp hlt, hblock, hinterest⟩
  · rintro ⟨session, block, hlt, hblock, hinterest⟩
    exact ⟨session, mem_range.mpr hlt, Option.any_eq_true _ _ |>.mpr ⟨block, hblock, hinterest⟩⟩

theorem completed_iff : s.completed request = true ↔
    ∃ interest ∈ request.interests, ∃ count, s.evntCount interest.event = some count ∧ interest.count ≤ count := by
  unfold completed
  rw [any_eq_true]
  simp [Option.any_eq_true]

end State

theorem Session.hasInterest_iff {block : Session} : block.hasInterest event = true ↔
    (∃ interest ∈ block.interests, interest.event = event) ∨
      ∃ request ∈ block.requests, ∃ interest ∈ request.interests, interest.event = event := by
  unfold Session.hasInterest
  simp

namespace Session

theorem mem_deleteRequest {other : Request} : other ∈ (block.deleteRequest request).requests ↔
    other ∈ block.requests ∧ other.number ≠ request.number := by
  unfold deleteRequest
  rw [mem_filter, bne_iff_ne]

theorem exists_historical {interests : List Interest} : ∀ {historical : List Interest},
    ((∃ interest ∈ historical, interest.event = event) ∨ ∃ interest ∈ interests, interest.event = event) ↔
    ∃ interest ∈ interests.foldl (fun historical interest =>
      if historical.any (·.event == interest.event) then historical else interest :: historical) historical,
      interest.event = event := by
  induction interests with
  | nil =>
    intro historical
    exact or_iff_left fun ⟨_, hmem, _⟩ => nomatch hmem
  | cons first interests ih =>
    intro historical
    rw [foldl_cons, ← ih]
    split
    case isTrue hany =>
      obtain ⟨old, hold, heq⟩ := any_eq_true.mp hany
      rw [beq_iff_eq] at heq
      constructor
      · rintro (hhistorical | ⟨interest, hmem, hevent⟩)
        · exact .inl hhistorical
        · rcases mem_cons.mp hmem with rfl | hlater
          · exact .inl ⟨old, hold, heq.trans hevent⟩
          · exact .inr ⟨interest, hlater, hevent⟩
      · exact Or.imp_right fun ⟨interest, hmem, hevent⟩ => ⟨interest, mem_cons_of_mem _ hmem, hevent⟩
    case isFalse =>
      constructor
      · rintro (⟨interest, hmem, hevent⟩ | ⟨interest, hmem, hevent⟩)
        · exact .inl ⟨interest, mem_cons_of_mem _ hmem, hevent⟩
        · rcases mem_cons.mp hmem with rfl | hlater
          · exact .inl ⟨interest, mem_cons_self, hevent⟩
          · exact .inr ⟨interest, hlater, hevent⟩
      · rintro (⟨interest, hmem, hevent⟩ | ⟨interest, hmem, hevent⟩)
        · rcases mem_cons.mp hmem with rfl | hlater
          · exact .inr ⟨interest, mem_cons_self, hevent⟩
          · exact .inl ⟨interest, hlater, hevent⟩
        · exact .inr ⟨interest, mem_cons_of_mem _ hmem, hevent⟩

theorem hasInterest_deleteRequest (hmem : request ∈ block.requests)
    (hone : ∀ other ∈ block.requests, other.number = request.number → other = request) :
    (block.deleteRequest request).hasInterest event = block.hasInterest event := by
  rw [Bool.eq_iff_iff, hasInterest_iff, hasInterest_iff]
  have hhistorical : (∃ interest ∈ (block.deleteRequest request).interests, interest.event = event) ↔
      (∃ interest ∈ block.interests, interest.event = event) ∨ ∃ interest ∈ request.interests, interest.event = event :=
    exists_historical.symm
  rw [hhistorical]
  constructor
  · rintro ((hold | hnew) | ⟨other, hother, hinterest⟩)
    · exact .inl hold
    · exact .inr ⟨request, hmem, hnew⟩
    · exact .inr ⟨other, (mem_deleteRequest.mp hother).1, hinterest⟩
  · rintro (hold | ⟨other, hother, hinterest⟩)
    · exact .inl (.inl hold)
    · by_cases heq : other.number = request.number
      · rw [hone other hother heq] at hinterest
        exact .inl (.inr hinterest)
      · exact .inr ⟨other, mem_deleteRequest.mpr ⟨hother, heq⟩, hinterest⟩

end Session

structure Removes (s t : State) (session : Nat) : Prop where
  processes : t.processes = s.processes
  others : ∀ other, other ≠ session → t.sessions other = s.sessions other
  nextSession : t.nextSession = s.nextSession
  nextRequest : t.nextRequest = s.nextRequest
  delivered : t.delivered = s.delivered
  posting : t.posting = s.posting
  count : ∀ event, t.evntCount event = s.evntCount event ∨ t.evntCount event = none
  wanted : ∀ other block event, other ≠ session → other < s.nextSession → s.sessions other = some block →
    block.hasInterest event = true → t.evntCount event = s.evntCount event

theorem removes_setSession (s : State) (session : Nat)
    (block : Session) : Removes s (s.setSession session block) session where
  processes := rfl
  others := fun _ hne => State.setSession_of_ne hne s block
  nextSession := rfl
  nextRequest := rfl
  delivered := rfl
  posting := rfl
  count := fun _ => .inl rfl
  wanted := fun _ _ _ _ _ _ _ => rfl

theorem Removes.trans {u : State} (h : Removes s t session) (h' : Removes t u session) : Removes s u session where
  processes := h'.processes.trans h.processes
  others := fun other hne => (h'.others other hne).trans (h.others other hne)
  nextSession := h'.nextSession.trans h.nextSession
  nextRequest := h'.nextRequest.trans h.nextRequest
  delivered := h'.delivered.trans h.delivered
  posting := h'.posting.trans h.posting
  count := fun event => (h'.count event).elim (fun heq => by rw [heq]; exact h.count event) .inr
  wanted := fun other block event hne hlt hblock hinterest =>
    (h'.wanted other block event hne (h.nextSession ▸ hlt) ((h.others other hne).trans hblock) hinterest).trans
      (h.wanted other block event hne hlt hblock hinterest)

theorem removes_deleteEvent (h : s.isWanted event = false) (session : Nat) :
    Removes s { s with evntCount := update s.evntCount event none } session where
  processes := rfl
  others := fun _ _ => rfl
  nextSession := rfl
  nextRequest := rfl
  delivered := rfl
  posting := rfl
  count := fun other => by
    by_cases heq : other = event
    · subst heq
      exact .inr (update_self ..)
    · exact .inl (update_of_ne heq ..)
  wanted := fun other block wanted _ hlt hblock hinterest => by
    refine update_of_ne ?_ ..
    rintro rfl
    have hwanted := State.isWanted_iff.mpr ⟨other, block, hlt, hblock, hinterest⟩
    exact Bool.noConfusion (h.symm.trans hwanted)

theorem dropInterests_removes (session : Nat) (block : Session) (interests : List Interest) : ∀ s : State,
    Removes s (State.dropInterests session block interests s) session := by
  induction interests with
  | nil => exact fun s => ⟨rfl, fun _ _ => rfl, rfl, rfl, rfl, rfl, fun _ => .inl rfl, fun _ _ _ _ _ _ _ => rfl⟩
  | cons interest interests ih =>
    intro s
    rw [State.dropInterests]
    have hset := removes_setSession s session { block with interests }
    split
    · exact hset.trans (ih _)
    case isFalse hunwanted =>
      exact (hset.trans (removes_deleteEvent (Bool.not_eq_true _ ▸ hunwanted) session)).trans (ih _)

theorem destroySession_removes (s : State) (session : Nat) (block : Session) :
    Removes s (s.destroySession session block) session ∧ (s.destroySession session block).sessions session = none := by
  refine ⟨?_, update_self ..⟩
  have hdropped := (removes_setSession s session (block.requests.foldl Session.deleteRequest block)).trans
    (dropInterests_removes session (block.requests.foldl Session.deleteRequest block)
      (block.requests.foldl Session.deleteRequest block).interests _)
  refine ⟨hdropped.processes, fun other hne => ?_, hdropped.nextSession, hdropped.nextRequest, hdropped.delivered,
    hdropped.posting, hdropped.count, hdropped.wanted⟩
  exact (update_of_ne hne ..).trans (hdropped.others other hne)

/-! ### No request is passed over

A request that is satisfied is one of a process that has been posted, or will be by `deliverEvents`, or whose watcher
will still visit it. -/

variable {s t : State} {process session other : Nat} {block : Session} {owner : Process} {request : Request}
  {sessions : List Nat}

structure Placed (s : State) : Prop where
  lt : ∀ {session block}, s.sessions session = some block → session < s.nextSession
  home : ∀ {session block}, s.sessions session = some block → ∃ owner, s.processes block.process = some owner
  delivering : ∀ {session block}, s.sessions session = some block → block.delivering = true →
    ∃ owner, s.processes block.process = some owner ∧ owner.watcher = .calling session
  calling : ∀ {process owner session}, s.processes process = some owner → owner.watcher = .calling session →
    ∃ block, s.sessions session = some block ∧ block.process = process ∧ block.delivering = true
  purge : ∀ {session block}, s.sessions session = some block → block.purge = true → block.delivering = true

def Session.shape (block : Session) : Nat × Bool × Bool := (block.process, block.delivering, block.purge)

structure SameShape (s t : State) : Prop where
  sessions : ∀ session, (t.sessions session).map Session.shape = (s.sessions session).map Session.shape
  processes : ∀ process, (t.processes process).map (·.watcher) = (s.processes process).map (·.watcher)
  nextSession : t.nextSession = s.nextSession

theorem SameShape.oldSession (h : SameShape s t) (hblock : t.sessions session = some block) :
    ∃ old, s.sessions session = some old ∧ old.shape = block.shape := by
  have hsame := h.sessions session
  rw [hblock] at hsame
  exact Option.map_eq_some_iff.mp hsame.symm

theorem SameShape.oldProcess (h : SameShape s t) (howner : t.processes process = some owner) :
    ∃ old, s.processes process = some old ∧ old.watcher = owner.watcher := by
  have hsame := h.processes process
  rw [howner] at hsame
  exact Option.map_eq_some_iff.mp hsame.symm

theorem SameShape.symm (h : SameShape s t) : SameShape t s :=
  ⟨fun session => (h.sessions session).symm, fun process => (h.processes process).symm, h.nextSession.symm⟩

theorem Placed.congr (hplaced : Placed s) (h : SameShape s t) : Placed t where
  lt := fun hblock => by
    obtain ⟨old, hold, -⟩ := h.oldSession hblock
    rw [h.nextSession]
    exact hplaced.lt hold
  home := fun {session block} hblock => by
    obtain ⟨old, hold, hshape⟩ := h.oldSession hblock
    obtain ⟨owner, howner⟩ := hplaced.home hold
    obtain ⟨owner', howner', -⟩ := h.symm.oldProcess howner
    have hprocess : old.process = block.process := congrArg Prod.fst hshape
    exact ⟨owner', hprocess ▸ howner'⟩
  delivering := fun {session block} hblock hdelivering => by
    obtain ⟨old, hold, hshape⟩ := h.oldSession hblock
    have hprocess : old.process = block.process := congrArg Prod.fst hshape
    have hflag : old.delivering = block.delivering := congrArg (·.2.1) hshape
    obtain ⟨owner, howner, hwatcher⟩ := hplaced.delivering hold (hflag.trans hdelivering)
    obtain ⟨owner', howner', hsame⟩ := h.symm.oldProcess howner
    exact ⟨owner', hprocess ▸ howner', hsame.trans hwatcher⟩
  calling := fun howner hwatcher => by
    obtain ⟨old, hold, hsame⟩ := h.oldProcess howner
    obtain ⟨block, hblock, hprocess, hdelivering⟩ := hplaced.calling hold (hsame.trans hwatcher)
    obtain ⟨block', hblock', hshape⟩ := h.symm.oldSession hblock
    exact ⟨block', hblock', (congrArg Prod.fst hshape).trans hprocess, (congrArg (·.2.1) hshape).trans hdelivering⟩
  purge := fun {session block} hblock hpurge => by
    obtain ⟨old, hold, hshape⟩ := h.oldSession hblock
    have hdelivering : old.delivering = block.delivering := congrArg (·.2.1) hshape
    have hflag : old.purge = block.purge := congrArg (·.2.2) hshape
    exact hdelivering.symm.trans (hplaced.purge hold (hflag.trans hpurge))

theorem ne_of_none (hnone : t.sessions session = none) (hblock : t.sessions other = some block) : other ≠ session := by
  rintro rfl
  exact nomatch hnone.symm.trans hblock

theorem Placed.remove (hplaced : Placed s) (h : Removes s t session) (hnone : t.sessions session = none)
    (hidle : ∀ process owner, s.processes process = some owner → owner.watcher ≠ .calling session) : Placed t where
  lt := fun {other block} hblock => by
    have hne := ne_of_none hnone hblock
    rw [h.nextSession]
    exact hplaced.lt ((h.others other hne).symm.trans hblock)
  home := fun {other block} hblock => by
    have hne := ne_of_none hnone hblock
    rw [h.processes]
    exact hplaced.home ((h.others other hne).symm.trans hblock)
  delivering := fun {other block} hblock => by
    have hne := ne_of_none hnone hblock
    rw [h.processes]
    exact hplaced.delivering ((h.others other hne).symm.trans hblock)
  calling := fun {process owner other} howner hwatcher => by
    rw [h.processes] at howner
    have hne : other ≠ session := fun heq => hidle process owner howner (heq ▸ hwatcher)
    obtain ⟨block, hblock, hrest⟩ := hplaced.calling howner hwatcher
    exact ⟨block, (h.others other hne).trans hblock, hrest⟩
  purge := fun {other block} hblock => by
    have hne := ne_of_none hnone hblock
    exact hplaced.purge ((h.others other hne).symm.trans hblock)

def State.WillVisit (s : State) (owner : Process) (session : Nat) : Prop :=
  ∃ current block, owner.watcher = .calling current ∧ s.sessions current = some block ∧ block.purge = false ∧
    current ≤ session

/-- Every satisfied request of a session that has not been deleted is seen to; for this process that may mean that its
    session is in a list. -/
def CoveredBut (process : Nat) (sessions : List Nat) (s : State) : Prop :=
  ∀ session block request owner, s.sessions session = some block → block.purge = false → request ∈ block.requests →
    s.completed request = true → s.processes block.process = some owner →
    owner.pending = true ∨ owner.wakeup = true ∨
      if block.process = process then session ∈ sessions else s.WillVisit owner session

def Covered (s : State) : Prop :=
  ∀ session block request owner, s.sessions session = some block → block.purge = false → request ∈ block.requests →
    s.completed request = true → s.processes block.process = some owner →
    owner.pending = true ∨ owner.wakeup = true ∨ s.WillVisit owner session

/-- Requests go or stay, nothing else is satisfied, and flags stay set or become `PRB_pending`. -/
structure Eases (s t : State) : Prop where
  oldSession : ∀ {session block}, t.sessions session = some block → block.purge = false → block.requests ≠ [] →
    ∃ old, s.sessions session = some old ∧ old.process = block.process ∧ old.purge = false ∧
      ∀ request ∈ block.requests, request ∈ old.requests ∧ (t.completed request = true → s.completed request = true)
  oldProcess : ∀ {process owner}, t.processes process = some owner → ∃ old, s.processes process = some old ∧
    old.watcher = owner.watcher ∧ (old.pending = true → owner.pending = true) ∧
    (old.wakeup = true → owner.pending = true ∨ owner.wakeup = true)
  current : ∀ {process owner session block}, t.processes process = some owner → owner.watcher = .calling session →
    s.sessions session = some block → block.purge = false → ∃ block, t.sessions session = some block ∧
    block.purge = false

theorem Covered.ease (h : Covered s) (heases : Eases s t) : Covered t := by
  intro session block request owner hblock hpurge hmem hcompleted howner
  obtain ⟨old, hold, hprocess, holdPurge, hrequests⟩ := heases.oldSession hblock hpurge (List.ne_nil_of_mem hmem)
  obtain ⟨hmem', hcompleted'⟩ := hrequests request hmem
  obtain ⟨before, hbefore, hwatcher, hpending, hwakeup⟩ := heases.oldProcess howner
  rw [← hprocess] at hbefore
  rcases h session old request before hold holdPurge hmem' (hcompleted' hcompleted) hbefore with hset | hset | hvisit
  · exact .inl (hpending hset)
  · exact (hwakeup hset).imp_right .inl
  · obtain ⟨current, visited, hcalling, hvisited, hunpurged, hle⟩ := hvisit
    obtain ⟨after, hafter, hafterPurge⟩ := heases.current howner (hwatcher.symm.trans hcalling) hvisited hunpurged
    exact .inr (.inr ⟨current, after, hwatcher.symm.trans hcalling, hafter, hafterPurge, hle⟩)

end Firebird.Evt
