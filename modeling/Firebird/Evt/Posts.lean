import Firebird.Evt.Keeps

/-! # Requests and posts -/

namespace Firebird.Evt
open State List Function
variable {s t : State} {process session other : Nat} {block : Session} {owner : Process} {request : Request}
  {event : Name}

/-! ### The items of an event block -/

/-- The items read so far are known events, and the flag tells whether one of them has already been posted. -/
structure Queued (before : Name → Option Int) (old : List Interest)
    (state : (Name → Option Int) × List Interest × List Interest × Bool) : Prop where
  counts : ∀ event count, before event = some count → state.1 event = some count
  known : ∀ interest ∈ state.2.2.1, ∃ count, state.1 interest.event = some count
  flag : ∀ interest ∈ state.2.2.1, ∀ count, state.1 interest.event = some count → interest.count ≤ count →
    state.2.2.2 = true
  historical : ∀ interest ∈ state.2.1, interest ∈ old
  kept : ∀ interest ∈ old, interest ∈ state.2.1 ∨ ∃ new ∈ state.2.2.1, new.event = interest.event

/-- An interest of the past is used up by the first item of the same event. -/
theorem Queued.item {before : Name → Option Int} {old : List Interest}
    {state : (Name → Option Int) × List Interest × List Interest × Bool} (h : Queued before old state)
    (item : Name × Int) : Queued before old (State.queItem state item) := by
  obtain ⟨evntCount, historical, interests, flag⟩ := state
  obtain ⟨name, threshold⟩ := item
  unfold State.queItem
  dsimp only
  generalize stripBlanks name = event
  generalize hafter : (if (evntCount event).isNone then update evntCount event (some 0) else evntCount) = after
  have hkeep : ∀ other count, evntCount other = some count → after other = some count := by
    intro other count hcount
    rw [← hafter]
    split
    case isTrue hnone =>
      have hne : other ≠ event := by
        rintro rfl
        rw [hcount] at hnone
        exact Bool.noConfusion hnone
      exact (update_of_ne hne ..).trans hcount
    case isFalse => exact hcount
  have hthere : ∃ count, after event = some count := by
    rw [← hafter]
    split
    · exact ⟨0, update_self ..⟩
    case isFalse hsome =>
      rw [Bool.not_eq_true, Option.isNone_eq_false_iff] at hsome
      exact Option.isSome_iff_exists.mp hsome
  refine ⟨fun other count hcount => hkeep other count (h.counts other count hcount), fun interest hmem => ?_,
    fun interest hmem count hcount hle => ?_, fun interest hmem => h.historical interest (mem_of_mem_eraseP hmem),
    fun interest hmem => ?_⟩
  · rcases mem_append.mp hmem with hold | hnew
    · exact (h.known interest hold).imp fun count => hkeep _ count
    · rw [mem_singleton.mp hnew]
      exact hthere
  · rw [Bool.or_eq_true]
    rcases mem_append.mp hmem with hold | hnew
    · obtain ⟨count', hcount'⟩ := h.known interest hold
      obtain rfl : count' = count := Option.some.inj ((hkeep _ _ hcount').symm.trans hcount)
      exact .inl (h.flag interest hold count' hcount' hle)
    · rw [mem_singleton.mp hnew] at hcount hle
      refine .inr ?_
      rw [Option.any_eq_true]
      exact ⟨count, hcount, decide_eq_true hle⟩
  · rcases h.kept interest hmem with hold | ⟨new, hnew, heq⟩
    · by_cases hsame : interest.event = event
      · exact .inr ⟨⟨event, threshold⟩, mem_append_right _ mem_cons_self, hsame.symm⟩
      · refine .inl ((mem_eraseP_of_neg ?_).mpr hold)
        rw [beq_iff_eq]
        exact hsame
    · exact .inr ⟨new, mem_append_left _ hnew, heq⟩

theorem queued_items (before : Name → Option Int) (old : List Interest) (items : List (Name × Int)) :
    Queued before old (items.foldl State.queItem (before, old, [], false)) := by
  have hfold : ∀ state, Queued before old state → Queued before old (items.foldl State.queItem state) := by
    induction items with
    | nil => exact fun _ h => h
    | cons item items ih => exact fun state h => ih _ (h.item item)
  exact hfold _ ⟨fun _ _ hcount => hcount, nofun, nofun, fun _ hmem => hmem, fun _ hmem => .inl hmem⟩

theorem postProcess_sameShape (s : State) (process : Nat) : SameShape s (s.postProcess process) := by
  unfold State.postProcess
  split
  · exact ⟨fun _ => rfl, fun _ => rfl, rfl⟩
  case h_2 owner howner =>
    refine ⟨fun _ => rfl, fun other => ?_, rfl⟩
    by_cases heq : other = process
    · subst heq
      rw [setProcess_self, howner]
      rfl
    · rw [setProcess_of_ne heq]

theorem postProcess_processes (howner : (s.postProcess process).processes other = some owner) :
    other = process ∧ owner.pending = true ∧ owner.posted = true ∧ owner.wakeup = false ∨
      other ≠ process ∧ s.processes other = some owner := by
  unfold State.postProcess at howner
  split at howner
  case h_1 hnone =>
    refine .inr ⟨?_, howner⟩
    rintro rfl
    exact nomatch hnone.symm.trans howner
  case h_2 before hbefore =>
    by_cases heq : other = process
    · subst heq
      rw [← Option.some.inj ((setProcess_self s other _).symm.trans howner)]
      exact .inl ⟨rfl, rfl, rfl, rfl⟩
    · exact .inr ⟨heq, (setProcess_of_ne heq s _).symm.trans howner⟩

section
variable (s : State) (process : Nat)

@[simp] theorem postProcess_sessions : (s.postProcess process).sessions = s.sessions := by
  unfold State.postProcess
  split <;> rfl

@[simp] theorem postProcess_evntCount : (s.postProcess process).evntCount = s.evntCount := by
  unfold State.postProcess
  split <;> rfl

@[simp] theorem postProcess_nextSession : (s.postProcess process).nextSession = s.nextSession := by
  unfold State.postProcess
  split <;> rfl

end

/-- A process that is told to look after its requests may have any of them completed. -/
theorem Inv.postProcess {u : State} (hplaced : Placed s) (hknown : Known s)
    (hposted : Posted s) (hnumbered : Numbered s)
    (hcovered : ∀ session block request owner, s.sessions session = some block → block.process ≠ process →
      block.purge = false → request ∈ block.requests → s.completed request = true →
      s.processes block.process = some owner →
      owner.pending = true ∨ owner.wakeup = true ∨ s.WillVisit owner session)
    (hu : u = s.postProcess process) : Inv u := by
  have hsessions : u.sessions = s.sessions := hu ▸ postProcess_sessions s process
  have hcount : u.evntCount = s.evntCount := hu ▸ postProcess_evntCount s process
  have hrest : u.nextRequest = s.nextRequest ∧ u.delivered = s.delivered ∧ u.posting = s.posting := by
    rw [hu]
    unfold State.postProcess
    split <;> exact ⟨rfl, rfl, rfl⟩
  have hprocesses : ∀ {other owner}, u.processes other = some owner →
      other = process ∧ owner.pending = true ∧ owner.posted = true ∧ owner.wakeup = false ∨
        other ≠ process ∧ s.processes other = some owner := by
    rw [hu]
    exact postProcess_processes
  refine ⟨hplaced.congr (hu ▸ postProcess_sameShape s process), fun session block event hblock hinterest => ?_,
    ⟨fun hnobody other owner howner => ?_, fun other owner howner hpending => ?_⟩, ?_, ?_⟩
  · rw [hcount]
    rw [hsessions] at hblock
    exact hknown session block event hblock hinterest
  · rcases hprocesses howner with ⟨-, -, -, hwakeup⟩ | ⟨-, hold⟩
    · exact hwakeup
    · rw [hrest.2.2] at hnobody
      exact hposted.wakeup hnobody other owner hold
  · rcases hprocesses howner with ⟨-, -, hdone, -⟩ | ⟨-, hold⟩
    · exact .inl hdone
    · exact hposted.pending other owner hold hpending
  · refine hnumbered.shrink hrest.1 hrest.2.1 fun session block hblock _ => ?_
    rw [hsessions] at hblock
    exact ⟨block, hblock, .refl _⟩
  · intro session block request owner hblock hpurge hmem hcompleted howner
    rw [hsessions] at hblock
    rcases hprocesses howner with ⟨-, hpending, -⟩ | ⟨hne, hold⟩
    · exact .inl hpending
    · have hbefore : s.completed request = true := by
        rw [completed_iff, hcount] at hcompleted
        exact completed_iff.mpr hcompleted
      refine (hcovered session block request owner hblock hne hpurge hmem hbefore hold).imp_right (Or.imp_right ?_)
      rintro ⟨current, visited, hwatcher, hvisited, hrest⟩
      exact ⟨current, visited, hwatcher, by rw [hsessions]; exact hvisited, hrest⟩

/-- A request with its interests is appended to a session, and nothing else happens. -/
structure Queues (s u : State) (session : Nat) (block : Session) (historical : List Interest) (request : Request) :
    Prop where
  old : s.sessions session = some block
  new : u.sessions session = some { block with requests := block.requests ++ [request], interests := historical }
  others : ∀ other, other ≠ session → u.sessions other = s.sessions other
  processes : u.processes = s.processes
  nextSession : u.nextSession = s.nextSession
  nextRequest : u.nextRequest = s.nextRequest + 1
  delivered : u.delivered = s.delivered
  posting : u.posting = s.posting
  number : request.number = s.nextRequest
  counts : ∀ event count, s.evntCount event = some count → u.evntCount event = some count
  known : ∀ interest ∈ request.interests, ∃ count, u.evntCount interest.event = some count
  wasHistorical : ∀ interest ∈ historical, interest ∈ block.interests
  kept : ∀ interest ∈ block.interests, interest ∈ historical ∨ ∃ new ∈ request.interests, new.event = interest.event

namespace Queues
variable {u : State} {historical : List Interest} (hq : Queues s u session block historical request)
include hq

theorem cases {block' : Session} (hblock : u.sessions other = some block') :
    s.sessions other = some block' ∧ other ≠ session ∨
      other = session ∧ block' = { block with requests := block.requests ++ [request], interests := historical } := by
  by_cases heq : other = session
  · subst heq
    exact .inr ⟨rfl, (Option.some.inj (hq.new.symm.trans hblock)).symm⟩
  · exact .inl ⟨(hq.others other heq).symm.trans hblock, heq⟩

theorem sameShape : SameShape s u where
  sessions := fun other => by
    by_cases heq : other = session
    · subst heq
      rw [hq.new, hq.old]
      rfl
    · rw [hq.others other heq]
  processes := fun _ => by rw [hq.processes]
  nextSession := hq.nextSession

theorem mem_cases {block' : Session} {request' : Request} (hblock : u.sessions other = some block')
    (hmem : request' ∈ block'.requests) :
    (∃ old, s.sessions other = some old ∧ old.shape = block'.shape ∧ request' ∈ old.requests) ∨
      other = session ∧ request' = request := by
  rcases hq.cases hblock with ⟨hold, -⟩ | ⟨rfl, rfl⟩
  · exact .inl ⟨block', hold, rfl, hmem⟩
  · rcases mem_append.mp hmem with hearlier | hlast
    · exact .inl ⟨block, hq.old, rfl, hearlier⟩
    · exact .inr ⟨rfl, mem_singleton.mp hlast⟩

theorem keepsKnown (h : Known s) : Known u := by
  have hkeep : ∀ other block' event, s.sessions other = some block' → block'.hasInterest event = true →
      ∃ count, u.evntCount event = some count := by
    intro other block' event hblock hinterest
    obtain ⟨count, hcount⟩ := h other block' event hblock hinterest
    exact ⟨count, hq.counts event count hcount⟩
  intro other block' event hblock hinterest
  rcases hq.cases hblock with ⟨hold, -⟩ | ⟨rfl, rfl⟩
  · exact hkeep other block' event hold hinterest
  · rcases Session.hasInterest_iff.mp hinterest with ⟨interest, hmem, heq⟩ | ⟨other', hmem, interest, hin, heq⟩
    · exact hkeep other block event hq.old (Session.hasInterest_iff.mpr
        (.inl ⟨interest, hq.wasHistorical interest hmem, heq⟩))
    · rcases mem_append.mp hmem with hearlier | hlast
      · exact hkeep other block event hq.old (Session.hasInterest_iff.mpr (.inr ⟨other', hearlier, interest, hin, heq⟩))
      · rw [mem_singleton.mp hlast] at hin
        exact heq ▸ hq.known interest hin

theorem numbered (h : Numbered s) : Numbered u where
  lt := fun hblock hmem => by
    rw [hq.nextRequest]
    rcases hq.mem_cases hblock hmem with ⟨old, hold, -, hmem'⟩ | ⟨-, rfl⟩
    · exact Nat.lt_succ_of_lt (h.lt hold hmem')
    · rw [hq.number]
      exact Nat.lt_succ_self _
  nodup := fun {other block'} hblock => by
    rcases hq.cases hblock with ⟨hold, -⟩ | ⟨rfl, rfl⟩
    · exact h.nodup hold
    · rw [map_append, nodup_append]
      refine ⟨h.nodup hq.old, nodup_singleton _, fun number hmem number' hmem' => ?_⟩
      obtain ⟨request', hmem'', rfl⟩ := mem_map.mp hmem
      have hlt := h.lt hq.old hmem''
      rw [← hq.number] at hlt
      rw [mem_singleton.mp hmem']
      exact Nat.ne_of_lt hlt
  apart := fun hblock hblock' hmem hmem' heq => by
    rcases hq.mem_cases hblock hmem with ⟨old, hold, -, holdMem⟩ | ⟨hhere, rfl⟩
    · rcases hq.mem_cases hblock' hmem' with ⟨old', hold', -, holdMem'⟩ | ⟨-, rfl⟩
      · exact h.apart hold hold' holdMem holdMem' heq
      · rw [hq.number] at heq
        exact absurd heq (Nat.ne_of_lt (h.lt hold holdMem))
    · rcases hq.mem_cases hblock' hmem' with ⟨old', hold', -, holdMem'⟩ | ⟨hthere, -⟩
      · rw [hq.number] at heq
        exact absurd heq.symm (Nat.ne_of_lt (h.lt hold' holdMem'))
      · exact hhere.trans hthere.symm
  past := fun hmem => by
    rw [hq.delivered] at hmem
    rw [hq.nextRequest]
    exact Nat.lt_succ_of_lt (h.past hmem)
  once := by
    rw [hq.delivered]
    exact h.once
  gone := fun hblock hmem hgone => by
    rw [hq.delivered] at hgone
    rcases hq.mem_cases hblock hmem with ⟨old, hold, -, hmem'⟩ | ⟨-, rfl⟩
    · exact h.gone hold hmem' hgone
    · rw [hq.number] at hgone
      exact absurd (h.past hgone) (Nat.lt_irrefl _)

theorem posted (h : Posted s) : Posted u :=
  ⟨by rw [hq.posting, hq.processes]; exact h.wakeup, by rw [hq.processes]; exact h.pending⟩

/-- What was completed before was completed by counts that are the same now. -/
theorem completed (h : Known s) {block' : Session} {request' : Request} (hblock : s.sessions other = some block')
    (hmem : request' ∈ block'.requests) (hcompleted : u.completed request' = true) : s.completed request' = true := by
  obtain ⟨interest, hin, count, hcount, hle⟩ := completed_iff.mp hcompleted
  have hinterest : block'.hasInterest interest.event = true :=
    Session.hasInterest_iff.mpr (.inr ⟨request', hmem, interest, hin, rfl⟩)
  obtain ⟨before, hbefore⟩ := h other block' _ hblock hinterest
  obtain rfl : before = count := Option.some.inj ((hq.counts _ _ hbefore).symm.trans hcount)
  exact completed_iff.mpr ⟨interest, hin, before, hbefore, hle⟩

/-- Only the new request may be completed without anybody being told. -/
theorem covered (h : Inv s) {block' : Session} {request' : Request} (hblock : u.sessions other = some block')
    (hpurge : block'.purge = false) (hmem : request' ∈ block'.requests) (hcompleted : u.completed request' = true)
    (howner : u.processes block'.process = some owner) :
    (owner.pending = true ∨ owner.wakeup = true ∨ u.WillVisit owner other) ∨ other = session ∧ request' = request := by
  rcases hq.mem_cases hblock hmem with ⟨old, hold, hshape, hmem'⟩ | hnew
  · have hprocess : old.process = block'.process := congrArg Prod.fst hshape
    have hunpurged : old.purge = false := (congrArg (·.2.2) hshape).trans hpurge
    rw [hq.processes, ← hprocess] at howner
    refine .inl ((h.covered other old request' owner hold hunpurged hmem' (hq.completed h.known hold hmem' hcompleted)
      howner).imp_right (Or.imp_right ?_))
    rintro ⟨current, visited, hwatcher, hvisited, hunvisited, hle⟩
    obtain ⟨visited', hvisited', hshape'⟩ := hq.sameShape.symm.oldSession hvisited
    exact ⟨current, visited', hwatcher, hvisited', (congrArg (·.2.2) hshape').trans hunvisited, hle⟩
  · exact .inr hnew

end Queues

/-- The process is told at once if the new request is completed. -/
theorem queItems_queues (hblock : s.sessions session = some block) (items : List (Name × Int)) :
    ∃ u historical request, Queues s u session block historical request ∧
      (s.queItems session block items = u.postProcess block.process ∨
        s.queItems session block items = u ∧ u.completed request = false) := by
  have hqueued := queued_items s.evntCount block.interests items
  unfold State.queItems
  generalize items.foldl State.queItem (s.evntCount, block.interests, [], false) = state at hqueued ⊢
  obtain ⟨evntCount, historical, interests, flag⟩ := state
  refine ⟨{ s.setSession session { block with
      requests := block.requests ++ [⟨s.nextRequest, slong (s.evhRequestId + 1), interests⟩], interests :=
        historical } with
      evntCount, evhRequestId := slong (s.evhRequestId + 1), nextRequest := s.nextRequest + 1 },
    historical, ⟨s.nextRequest, slong (s.evhRequestId + 1), interests⟩,
    ⟨hblock, setSession_self .., fun _ hne => setSession_of_ne hne .., rfl, rfl, rfl, rfl, rfl, rfl,
      hqueued.counts, hqueued.known, hqueued.historical, hqueued.kept⟩, ?_⟩
  dsimp only
  split
  case isTrue => exact .inl rfl
  case isFalse hunset =>
    refine .inr ⟨rfl, Bool.not_eq_true _ ▸ fun hcompleted => hunset ?_⟩
    obtain ⟨interest, hin, count, hcount, hle⟩ := completed_iff.mp hcompleted
    exact hqueued.flag interest hin count hcount hle

/-- The only request that nobody was told of is the new one. -/
theorem Inv.queItems (h : Inv s) (hblock : s.sessions session = some block) (items : List (Name × Int)) :
    Inv (s.queItems session block items) := by
  obtain ⟨u, historical, request, hq, hposts | ⟨hsame, hunsatisfied⟩⟩ := queItems_queues hblock items
  · refine Inv.postProcess (h.placed.congr hq.sameShape) (hq.keepsKnown h.known) (hq.posted h.posted)
      (hq.numbered h.numbered) ?_ hposts
    intro other block' request' owner hblock' hne hpurge hmem hcompleted howner
    rcases hq.covered h hblock' hpurge hmem hcompleted howner with hcovered | ⟨rfl, rfl⟩
    · exact hcovered
    · -- the request is one of the process that is posted
      rcases hq.cases hblock' with ⟨-, hother⟩ | ⟨-, rfl⟩
      · exact absurd rfl hother
      · exact absurd rfl hne
  · rw [hsame]
    refine ⟨h.placed.congr hq.sameShape, hq.keepsKnown h.known, hq.posted h.posted, hq.numbered h.numbered, ?_⟩
    intro other block' request' owner hblock' hpurge hmem hcompleted howner
    rcases hq.covered h hblock' hpurge hmem hcompleted howner with hcovered | ⟨-, rfl⟩
    · exact hcovered
    · exact Bool.noConfusion (hunsatisfied.symm.trans hcompleted)

theorem Inv.queEvents (h : Inv s) (session : Nat) (events : List UInt8) : Inv (s.queEvents session events) := by
  unfold State.queEvents
  split
  case h_1 block items hblock _ => exact h.queItems hblock items
  case h_2 => exact h

theorem sameShape_map {u : State} (f : Nat → Process → Process)
    (hf : ∀ process owner, (f process owner).watcher = owner.watcher)
    (hprocesses : u.processes = fun process => (s.processes process).map (f process))
    (hsessions : u.sessions = s.sessions) (hnext : u.nextSession = s.nextSession) : SameShape s u where
  sessions := fun _ => by rw [hsessions]
  processes := fun process => by
    rw [hprocesses]
    rw [Option.map_map]
    exact Option.map_congr fun owner _ => hf process owner
  nextSession := hnext

/-- Posting an event wakes every process with a request that it completes. -/
theorem wakes_of_mem {count : Int} {interest : Interest} (hplaced : Placed s) (hblock : s.sessions session = some block)
    (hmem : request ∈ block.requests) (hin : interest ∈ request.interests) (hle : interest.count ≤ count) :
    s.wakes block.process interest.event count = true := by
  refine any_eq_true.mpr ⟨session, mem_prbSessions.mpr ⟨hplaced.lt hblock, block, hblock, rfl⟩, ?_⟩
  rw [Option.any_eq_true]
  refine ⟨block, hblock, any_eq_true.mpr ⟨request, hmem, any_eq_true.mpr ⟨interest, hin, ?_⟩⟩⟩
  rw [Bool.and_eq_true, beq_iff_eq, decide_eq_true_eq]
  exact ⟨rfl, hle⟩

/-- Whoever has a request that the new count completes is told of it. -/
theorem Inv.postEvent (h : Inv s) (poster : Nat) (event : Name)
    (count : UInt16) : Inv (s.postEvent poster event count) := by
  unfold State.postEvent
  dsimp only
  split
  case h_1 =>
    refine ⟨h.placed.congr ⟨fun _ => rfl, fun _ => rfl, rfl⟩, h.known, ⟨fun hnobody => ?_, h.posted.pending⟩,
      h.numbered.shrink rfl rfl fun _ block hblock _ => ⟨block, hblock, .refl _⟩, h.covered⟩
    exact absurd hnobody (append_ne_nil_of_right_ne_nil _ (cons_ne_nil _ _))
  case h_2 before hbefore =>
    generalize slong (before + count.toNat) = after
    generalize hu : (State.mk (update s.evntCount event (some after)) _ s.sessions _ _ _ _ _) = u
    have hprocesses : ∀ {other owner}, u.processes other = some owner → ∃ old, s.processes other = some old ∧
        owner = if s.wakes other event after then { old with wakeup := true } else old := by
      intro other owner howner
      rw [← hu] at howner
      obtain ⟨old, hold, heq⟩ := Option.map_eq_some_iff.mp howner
      exact ⟨old, hold, heq.symm⟩
    have hsessions : u.sessions = s.sessions := by rw [← hu]
    have hcount : u.evntCount = update s.evntCount event (some after) := by rw [← hu]
    have hposting : u.posting ≠ [] := by
      rw [← hu]
      exact append_ne_nil_of_right_ne_nil _ (cons_ne_nil _ _)
    have hwatcher : ∀ {other : Nat} {old : Process},
        (if s.wakes other event after then { old with wakeup := true } else old).watcher = old.watcher := by
      intro other old
      split <;> rfl
    have hpending : ∀ {other : Nat} {old : Process},
        (if s.wakes other event after then { old with wakeup := true } else old).pending = old.pending := by
      intro other old
      split <;> rfl
    have hposted : ∀ {other : Nat} {old : Process},
        (if s.wakes other event after then { old with wakeup := true } else old).posted = old.posted := by
      intro other old
      split <;> rfl
    refine ⟨h.placed.congr (sameShape_map (fun other old => if s.wakes other event
      after then { old with wakeup := true }
      else old) (fun _ _ => hwatcher) (by rw [← hu]; rfl) hsessions (by rw [← hu])),
        fun session block wanted hblock hinterest => ?_,
      ⟨fun hnobody => absurd hnobody hposting, fun other owner howner hset => ?_⟩, ?_, ?_⟩
    · rw [hcount]
      rw [hsessions] at hblock
      by_cases heq : wanted = event
      · exact ⟨after, by rw [heq, update_self]⟩
      · rw [update_of_ne heq]
        exact h.known session block wanted hblock hinterest
    · obtain ⟨old, hold, rfl⟩ := hprocesses howner
      rw [hpending] at hset
      rw [hposted, hwatcher]
      exact h.posted.pending other old hold hset
    · refine h.numbered.shrink (by rw [← hu]) (by rw [← hu]) fun session block hblock _ => ?_
      rw [hsessions] at hblock
      exact ⟨block, hblock, .refl _⟩
    · intro session block request owner hblock hpurge hmem hcompleted howner
      rw [hsessions] at hblock
      obtain ⟨old, hold, rfl⟩ := hprocesses howner
      obtain ⟨interest, hin, count', hcount', hle⟩ := completed_iff.mp hcompleted
      rw [hcount] at hcount'
      by_cases heq : interest.event = event
      · -- the count that satisfies the request is the new one
        rw [heq, update_self] at hcount'
        obtain rfl : after = count' := Option.some.inj hcount'
        have hwakes := wakes_of_mem h.placed hblock hmem hin hle
        rw [heq] at hwakes
        rw [if_pos hwakes]
        exact .inr (.inl rfl)
      · rw [update_of_ne heq] at hcount'
        have hearlier := completed_iff.mpr ⟨interest, hin, count', hcount', hle⟩
        rw [hpending]
        refine (h.covered session block request old hblock hpurge hmem hearlier hold).imp_right (Or.imp ?_ ?_)
        · intro hset
          split
          · rfl
          · exact hset
        · rintro ⟨current, visited, hcalling, hvisited, hrest⟩
          exact ⟨current, visited, hwatcher.trans hcalling, by rw [hsessions]; exact hvisited, hrest⟩

/-- The poster passes on to the processes what they were told. -/
theorem Inv.deliverEvents (h : Inv s) (poster : Nat) : Inv (s.deliverEvents poster) := by
  have hprocesses : ∀ {other owner}, (s.deliverEvents poster).processes other = some owner →
      ∃ old, s.processes other = some old ∧ old.watcher = owner.watcher ∧ owner.wakeup = false ∧
        (old.pending = true ∨ old.wakeup = true → owner.pending = true) ∧
        (owner.pending = true → owner.posted = true ∨ old.pending = true ∧ owner.posted = old.posted) := by
    intro other owner howner
    obtain ⟨old, hold, rfl⟩ := Option.map_eq_some_iff.mp howner
    refine ⟨old, hold, ?_⟩
    split
    case isTrue => exact ⟨rfl, rfl, fun _ => rfl, fun _ => .inl rfl⟩
    case isFalse hunset =>
      exact ⟨rfl, Bool.not_eq_true _ ▸ hunset, fun hset => hset.resolve_right hunset, fun hset => .inr ⟨hset, rfl⟩⟩
  refine ⟨h.placed.congr (sameShape_map _ (fun _ owner => ?_) rfl rfl rfl), h.known,
    ⟨fun _ other owner howner => ?_, fun other owner howner hset => ?_⟩,
    h.numbered.shrink rfl rfl fun _ block hblock _ => ⟨block, hblock, .refl _⟩, h.covered.ease {
      oldSession := fun {_ block} hblock hpurge _ => ⟨block, hblock, rfl, hpurge, fun _ hmem => ⟨hmem, id⟩⟩
      oldProcess := fun {_ owner} howner => ?_
      current := fun {_ _ _ block} _ _ hblock hpurge => ⟨block, hblock, hpurge⟩ }⟩
  · split <;> rfl
  · obtain ⟨old, -, -, hunset, -⟩ := hprocesses howner
    exact hunset
  · obtain ⟨old, hold, hwatcher, -, -, hpending⟩ := hprocesses howner
    rcases hpending hset with hdone | ⟨hbefore, hsame⟩
    · exact .inl hdone
    · rw [hsame, ← hwatcher]
      exact h.posted.pending other old hold hbefore
  · obtain ⟨old, hold, hwatcher, -, hpending, -⟩ := hprocesses howner
    exact ⟨old, hold, hwatcher, fun hset => hpending (.inl hset), fun hset => .inl (hpending (.inr hset))⟩

end Firebird.Evt
