import Firebird.Evt.Posts

/-! # Delivery -/

namespace Firebird.Evt

open State Function List
variable {s t : State} {process session other : Nat} {block : Session} {owner : Process} {request : Request}
  {sessions : List Nat} {watcher : Watcher}

structure Moves (s t : State) (process : Nat) (watcher : Watcher) (session : Nat) (block : Session) : Prop where
  processes : t.processes = (s.setWatcher process watcher).processes
  new : t.sessions session = some block
  others : ∀ other, other ≠ session → t.sessions other = s.sessions other
  nextSession : t.nextSession = s.nextSession
  nextRequest : t.nextRequest = s.nextRequest
  posting : t.posting = s.posting
  count : t.evntCount = s.evntCount

namespace Moves
variable {new : Session} (hm : Moves s t process watcher session new) (howner : s.processes process = some owner)
include hm

theorem cases {block' : Session} (hblock : t.sessions other = some block') :
    s.sessions other = some block' ∧ other ≠ session ∨ other = session ∧ block' = new := by
  by_cases heq : other = session
  · subst heq
    exact .inr ⟨rfl, (Option.some.inj (hm.new.symm.trans hblock)).symm⟩
  · exact .inl ⟨(hm.others other heq).symm.trans hblock, heq⟩

theorem kept {block' : Session} (hne : other ≠ session) (hblock : s.sessions other = some block') :
    t.sessions other = some block' := (hm.others other hne).trans hblock

theorem completed : t.completed request = s.completed request := by
  unfold State.completed
  rw [hm.count]

include howner

theorem self : t.processes process = some { owner with watcher } := by
  rw [hm.processes, setWatcher_eq howner, setProcess_self]

theorem elsewhere (hne : other ≠ process) : t.processes other = s.processes other := by
  rw [hm.processes, setWatcher_eq howner, setProcess_of_ne hne]

theorem process_cases {owner' : Process} (howner' : t.processes other = some owner') :
    other = process ∧ owner' = { owner with watcher } ∨ other ≠ process ∧ s.processes other = some owner' := by
  by_cases heq : other = process
  · subst heq
    exact .inl ⟨rfl, (Option.some.inj ((hm.self howner).symm.trans howner')).symm⟩
  · exact .inr ⟨heq, (hm.elsewhere howner heq).symm.trans howner'⟩

theorem placed (h : Placed s) (hblock : s.sessions session = some block) (hprocess : new.process = block.process)
    (hhere : block.process = process) (hfrom : owner.watcher = .calling session ∨ owner.watcher = .waiting)
    (hto : watcher = .calling session ∧ new.delivering = true ∨ watcher = .waiting ∧ new.delivering = false)
    (hpurge : new.purge = false) : Placed t where
  lt := fun hblock' => by
    rw [hm.nextSession]
    rcases hm.cases hblock' with ⟨hold, -⟩ | ⟨rfl, -⟩
    · exact h.lt hold
    · exact h.lt hblock
  home := fun {other block'} hblock' => by
    have hhome : ∃ owner, s.processes block'.process = some owner := by
      rcases hm.cases hblock' with ⟨hold, -⟩ | ⟨-, rfl⟩
      · exact h.home hold
      · exact hprocess ▸ h.home hblock
    by_cases heq : block'.process = process
    · exact ⟨_, heq ▸ hm.self howner⟩
    · rw [hm.elsewhere howner heq]
      exact hhome
  delivering := fun {other block'} hblock' hdelivering => by
    rcases hm.cases hblock' with ⟨hold, hne⟩ | ⟨rfl, rfl⟩
    · obtain ⟨owner', howner', hwatcher⟩ := h.delivering hold hdelivering
      by_cases heq : block'.process = process
      · rw [heq, howner] at howner'
        obtain rfl : owner = owner' := Option.some.inj howner'
        rcases hfrom with hcalling | hwaiting
        · exact absurd (Watcher.calling.inj (hwatcher.symm.trans hcalling)) hne
        · exact nomatch hwatcher.symm.trans hwaiting
      · exact ⟨owner', (hm.elsewhere howner heq).trans howner', hwatcher⟩
    · rcases hto with ⟨rfl, -⟩ | ⟨-, hidle⟩
      · exact ⟨_, (hprocess.trans hhere) ▸ hm.self howner, rfl⟩
      · exact Bool.noConfusion (hidle.symm.trans hdelivering)
  calling := fun {other owner' session'} howner' hwatcher => by
    rcases hm.process_cases howner howner' with ⟨rfl, rfl⟩ | ⟨hne, hold⟩
    · rcases hto with ⟨rfl, hdelivering⟩ | ⟨rfl, -⟩
      · obtain rfl := Watcher.calling.inj hwatcher
        exact ⟨new, hm.new, hprocess.trans hhere, hdelivering⟩
      · exact nomatch hwatcher
    · obtain ⟨block', hblock', hthere, hdelivering⟩ := h.calling hold hwatcher
      have hother : session' ≠ session := by
        rintro rfl
        rw [hblock] at hblock'
        exact hne (hthere.symm.trans ((congrArg (·.process) (Option.some.inj hblock')).symm.trans hhere))
      exact ⟨block', hm.kept hother hblock', hthere, hdelivering⟩
  purge := fun {other block'} hblock' hset => by
    rcases hm.cases hblock' with ⟨hold, -⟩ | ⟨-, rfl⟩
    · exact h.purge hold hset
    · exact Bool.noConfusion (hpurge.symm.trans hset)

omit howner in
theorem known (h : Known s) (hblock : s.sessions session = some block)
    (hinterest : ∀ event, new.hasInterest event = true → block.hasInterest event = true) : Known t := by
  intro other block' event hblock' hwanted
  rw [hm.count]
  rcases hm.cases hblock' with ⟨hold, -⟩ | ⟨rfl, rfl⟩
  · exact h other block' event hold hwanted
  · exact h other block event hblock (hinterest event hwanted)

theorem posted (h : Posted s) (hplace : owner.watcher ≠ .starting) : Posted t := by
  refine ⟨fun hnobody other owner' howner' => ?_, fun other owner' howner' hpending => ?_⟩
  · rw [hm.posting] at hnobody
    rcases hm.process_cases howner howner' with ⟨rfl, rfl⟩ | ⟨-, hold⟩
    · exact h.wakeup hnobody other owner howner
    · exact h.wakeup hnobody other owner' hold
  · rcases hm.process_cases howner howner' with ⟨rfl, rfl⟩ | ⟨-, hold⟩
    · exact .inl ((h.pending other owner howner hpending).resolve_right hplace)
    · exact h.pending other owner' hold hpending

theorem coveredBut (h : CoveredBut process sessions s) (hblock : s.sessions session = some block)
    (hprocess : new.process = block.process) (hunpurged : block.purge = false) (hunset : new.purge = false)
    (hsub : ∀ request ∈ new.requests, request ∈ block.requests) : CoveredBut process sessions t := by
  intro other block' request owner' hblock' hpurge hmem hcompleted howner'
  rw [hm.completed] at hcompleted
  have hold : ∃ old, s.sessions other = some old ∧ old.process = block'.process ∧ old.purge = false ∧
      request ∈ old.requests := by
    rcases hm.cases hblock' with ⟨hold, -⟩ | ⟨rfl, rfl⟩
    · exact ⟨block', hold, rfl, hpurge, hmem⟩
    · exact ⟨block, hblock, hprocess.symm, hunpurged, hsub request hmem⟩
  obtain ⟨old, hold, hsame, holdPurge, holdMem⟩ := hold
  rcases hm.process_cases howner howner' with ⟨heq, rfl⟩ | ⟨hne, hbefore⟩
  · have hcovered := h other old request owner hold holdPurge holdMem hcompleted (by rw [hsame, heq]; exact howner)
    rw [if_pos (hsame.trans heq)] at hcovered
    rw [if_pos heq]
    exact hcovered
  · have hcovered := h other old request owner' hold holdPurge holdMem hcompleted (by rw [hsame]; exact hbefore)
    rw [if_neg fun heq => hne (hsame.symm.trans heq)] at hcovered
    rw [if_neg hne]
    refine hcovered.imp_right (Or.imp_right ?_)
    rintro ⟨current, visited, hcalling, hvisited, hunvisited, hle⟩
    by_cases heq : current = session
    · subst heq
      exact ⟨current, new, hcalling, hm.new, hunset, hle⟩
    · exact ⟨current, visited, hcalling, hm.kept heq hvisited, hunvisited, hle⟩

end Moves

theorem Numbered.deliver (h : Numbered s) (hblock : s.sessions session = some block) (hmem : request ∈ block.requests)
    (hnext : t.nextRequest = s.nextRequest)
    (hdelivered : t.delivered.map (·.1) = s.delivered.map (·.1) ++ [request.number])
    (hsub : ∀ other block', t.sessions other = some block' → ∃ old, s.sessions other = some old ∧
      block'.requests.Sublist old.requests)
    (hgone : ∀ block', t.sessions session = some block' → ∀ other ∈ block'.requests, other.number ≠ request.number) :
    Numbered t := by
  have hkept : Numbered { t with delivered := s.delivered } :=
    h.shrink hnext rfl fun other block' hblock' _ => hsub other block' hblock'
  refine ⟨hkept.lt, hkept.nodup, hkept.apart, fun hnumber => ?_, ?_,
    fun {other block' request'} hblock' hmem' hnumber => ?_⟩
  · rw [hdelivered] at hnumber
    rw [hnext]
    rcases mem_append.mp hnumber with hearlier | hlast
    · exact h.past hearlier
    · rw [mem_singleton.mp hlast]
      exact h.lt hblock hmem
  · rw [hdelivered, nodup_append]
    refine ⟨h.once, nodup_singleton _, fun number hnumber number' hlast => ?_⟩
    rw [mem_singleton.mp hlast]
    rintro rfl
    exact h.gone hblock hmem hnumber
  · rw [hdelivered] at hnumber
    obtain ⟨old, hold, hrequests⟩ := hsub other block' hblock'
    rcases mem_append.mp hnumber with hearlier | hlast
    · exact h.gone hold (hrequests.subset hmem') hearlier
    · have heq := mem_singleton.mp hlast
      obtain rfl : other = session := h.apart hold hblock (hrequests.subset hmem') hmem heq
      exact hgone block' hblock' request' hmem' heq

structure Visiting (process : Nat) (sessions : List Nat) (s : State) : Prop where
  placed : Placed s
  known : Known s
  posted : Posted s
  numbered : Numbered s
  covered : CoveredBut process sessions s
  sorted : sessions.Pairwise (· < ·)
  members : ∀ session ∈ sessions, ∃ block, s.sessions session = some block ∧
    block.process = process ∧ block.purge = false
  watcher : ∃ owner, s.processes process = some owner ∧
    (owner.watcher = .waiting ∨ ∃ session later, sessions = session :: later ∧ owner.watcher = .calling session)

theorem Visiting.done (h : Visiting process [] s) : Inv (s.setWatcher process .waiting) := by
  obtain ⟨owner, howner, hplace⟩ := h.watcher
  have hwaiting : owner.watcher = .waiting := hplace.resolve_right fun ⟨_, _, hnil, _⟩ => nomatch hnil
  have hsame : s.setWatcher process .waiting = s := by
    rw [setWatcher_eq howner, ← hwaiting]
    show { s with processes := update s.processes process (some owner) } = s
    rw [← howner, update_eq_self]
  rw [hsame]
  refine ⟨h.placed, h.known, h.posted, h.numbered, fun session block request owner' hblock hpurge hmem
    hcompleted howner' => ?_⟩
  refine (h.covered session block request owner' hblock hpurge hmem hcompleted howner').imp_right (Or.imp_right ?_)
  split
  · exact fun hmem => absurd hmem not_mem_nil
  · exact id

section
variable (h : Visiting process (session :: sessions) s) (hblock : s.sessions session = some block)
include h hblock

theorem Visiting.first :
    block.process = process ∧ block.purge = false ∧ ∃ owner, s.processes process = some owner ∧
      (owner.watcher = .calling session ∨ owner.watcher = .waiting) ∧ owner.watcher ≠ .starting := by
  obtain ⟨owner, howner, hplace⟩ := h.watcher
  obtain ⟨block', hblock', hhere, hunpurged⟩ := h.members session mem_cons_self
  obtain rfl : block = block' := Option.some.inj (hblock.symm.trans hblock')
  refine ⟨hhere, hunpurged, owner, howner, ?_⟩
  rcases hplace with hwaiting | ⟨first, later, heq, hcalling⟩
  · exact ⟨.inr hwaiting, by rw [hwaiting]; exact nofun⟩
  · obtain ⟨rfl, rfl⟩ := cons.inj heq
    exact ⟨.inl hcalling, by rw [hcalling]; exact nofun⟩

theorem Visiting.deliver (hmem : request ∈ block.requests) : Inv (s.deliverRequest process session block request) := by
  obtain ⟨hhere, hunpurged, owner, howner, hfrom, hplace⟩ := h.first hblock
  have hone := h.numbered.eq_of_number hblock hmem
  generalize hnew : ({ block with delivering := true } : Session).deleteRequest request = new
  generalize ht : s.deliverRequest process session block request = t
  have hm : Moves s t process (.calling session) session new := by
    rw [← ht, ← hnew]
    exact ⟨rfl, setSession_self .., fun _ hne => setSession_of_ne hne .., rfl, rfl, rfl, rfl⟩
  have hprocess : new.process = block.process := by rw [← hnew]; rfl
  have hunset : new.purge = false := by rw [← hnew]; exact hunpurged
  have hsub : new.requests.Sublist block.requests := by rw [← hnew]; exact filter_sublist
  have hinterest : ∀ event, new.hasInterest event = true → block.hasInterest event = true := by
    intro event hwanted
    have hsame : (({ block with delivering := true } : Session).deleteRequest request).hasInterest event = _ :=
      Session.hasInterest_deleteRequest hmem hone
    rw [← hnew, hsame] at hwanted
    exact hwanted
  have hcovered := hm.coveredBut howner h.covered hblock hprocess hunpurged hunset fun _ hin => hsub.subset hin
  refine ⟨hm.placed howner h.placed hblock hprocess hhere hfrom (.inl ⟨rfl, by rw [← hnew]; rfl⟩) hunset,
    hm.known h.known hblock hinterest, hm.posted howner h.posted hplace, ?_, ?_⟩
  · refine h.numbered.deliver hblock hmem hm.nextRequest ?_ (fun other block' hblock' => ?_)
      fun block' hblock' other hin => ?_
    · rw [← ht]
      exact map_append
    · rcases hm.cases hblock' with ⟨hold, -⟩ | ⟨rfl, rfl⟩
      · exact ⟨block', hold, .refl _⟩
      · exact ⟨block, hblock, hsub⟩
    · rw [← Option.some.inj (hm.new.symm.trans hblock'), ← hnew] at hin
      exact (Session.mem_deleteRequest.mp hin).2
  · intro other block' request' owner' hblock' hpurge hin hcompleted howner'
    refine (hcovered other block' request' owner' hblock' hpurge hin hcompleted howner').imp_right (Or.imp_right ?_)
    split
    case isTrue heq =>
      intro hlist
      rw [heq, hm.self howner] at howner'
      refine ⟨session, new, by rw [← Option.some.inj howner'], hm.new, hunset, ?_⟩
      rcases mem_cons.mp hlist with rfl | hlater
      · exact Nat.le_refl _
      · exact Nat.le_of_lt (rel_of_pairwise_cons h.sorted hlater)
    case isFalse => exact id

theorem Visiting.leave (hnone : ∀ request ∈ block.requests, s.completed request = false) :
    Visiting process sessions ((s.setWatcher process .waiting).setSession session
      { block with delivering := false }) := by
  obtain ⟨hhere, hunpurged, owner, howner, hfrom, hplace⟩ := h.first hblock
  generalize hnew : ({ block with delivering := false } : Session) = new
  generalize ht : (s.setWatcher process .waiting).setSession session new = t
  have hm : Moves s t process .waiting session new := by
    rw [← ht]
    exact ⟨rfl, setSession_self .., fun _ hne => setSession_of_ne hne .., rfl, rfl, rfl, rfl⟩
  have hprocess : new.process = block.process := by rw [← hnew]
  have hunset : new.purge = false := by rw [← hnew]; exact hunpurged
  have hrequests : new.requests = block.requests := by rw [← hnew]
  have hinterest : ∀ event, new.hasInterest event = true → block.hasInterest event = true := by
    intro event hwanted
    rw [← hnew] at hwanted
    exact hwanted
  have hcovered := hm.coveredBut howner h.covered hblock hprocess hunpurged hunset fun _ hin => hrequests ▸ hin
  refine ⟨hm.placed howner h.placed hblock hprocess hhere hfrom (.inr ⟨rfl, by rw [← hnew]⟩) hunset,
    hm.known h.known hblock hinterest, hm.posted howner h.posted hplace,
    h.numbered.shrink hm.nextRequest (by rw [← ht]; rfl) fun other block' hblock' _ => ?_,
    fun other block' request' owner' hblock' hpurge hin hcompleted howner' => ?_, h.sorted.tail, fun other hmem => ?_,
    ⟨_, hm.self howner, .inl rfl⟩⟩
  · rcases hm.cases hblock' with ⟨hold, -⟩ | ⟨rfl, rfl⟩
    · exact ⟨block', hold, .refl _⟩
    · exact ⟨block, hblock, by rw [hrequests]⟩
  · refine (hcovered other block' request' owner' hblock' hpurge hin hcompleted howner').imp_right (Or.imp_right ?_)
    split
    case isTrue =>
      intro hlist
      refine (mem_cons.mp hlist).resolve_left ?_
      rintro rfl
      rw [← Option.some.inj (hm.new.symm.trans hblock'), hrequests] at hin
      rw [hm.completed, hnone request' hin] at hcompleted
      exact Bool.false_ne_true hcompleted
    case isFalse => exact id
  · obtain ⟨block', hblock', hthere, hpurge⟩ := h.members other (mem_cons_of_mem _ hmem)
    have hne : other ≠ session := Nat.ne_of_gt (rel_of_pairwise_cons h.sorted hmem)
    exact ⟨block', hm.kept hne hblock', hthere, hpurge⟩

end

theorem Visiting.visit (sessions : List Nat) : ∀ s : State, Visiting process sessions s →
    Inv (State.visit process sessions s) := by
  induction sessions with
  | nil => exact fun s h => h.done
  | cons session sessions ih =>
    intro s h
    obtain ⟨block, hblock, -, hunpurged⟩ := h.members session mem_cons_self
    rw [State.visit, hblock]
    dsimp only
    split
    case h_1 request hfound => exact h.deliver hblock (mem_of_find?_eq_some hfound)
    case h_2 hnone =>
      unfold State.leaveSession
      rw [if_neg (by rw [hunpurged]; exact Bool.false_ne_true)]
      exact ih _ (h.leave hblock fun request hmem => Bool.not_eq_true _ ▸ find?_eq_none.mp hnone request hmem)

/-! ### The watcher thread -/

/-- The watcher does not find `PRB_pending` cleared while a request of its process is satisfied. -/
def SafeWatch (s : State) (process : Nat) : Prop :=
  ∀ owner, s.processes process = some owner → owner.watcher = .starting ∨
  owner.watcher = .waiting ∧ owner.posted = true →
    owner.pending = true ∨ ∀ session block, s.sessions session = some block → block.process = process →
      ∀ request ∈ block.requests, s.completed request = false

theorem Placed.idle (h : Placed s) (howner : s.processes process = some owner)
    (hidle : ∀ session, owner.watcher ≠ .calling session) {new : Process}
    (hnew : ∀ session, new.watcher ≠ .calling session) : Placed (s.setProcess process new) where
  lt := h.lt
  home := fun {session block} hblock => by
    by_cases heq : block.process = process
    · exact ⟨new, heq ▸ setProcess_self ..⟩
    · rw [setProcess_of_ne heq]
      exact h.home hblock
  delivering := fun {session block} hblock hdelivering => by
    obtain ⟨owner', howner', hcalling⟩ := h.delivering hblock hdelivering
    have hne : block.process ≠ process := by
      intro heq
      rw [heq, howner] at howner'
      exact hidle session ((congrArg (·.watcher) (Option.some.inj howner')).trans hcalling)
    exact ⟨owner', (setProcess_of_ne hne s _).trans howner', hcalling⟩
  calling := fun {other owner' session} howner' hcalling => by
    by_cases heq : other = process
    · subst heq
      rw [← Option.some.inj ((setProcess_self s other _).symm.trans howner')] at hcalling
      exact absurd hcalling (hnew session)
    · exact h.calling ((setProcess_of_ne heq s _).symm.trans howner') hcalling
  purge := h.purge

def Process.awake (owner : Process) : Process :=
  { owner with wakeup := false, posted := false, pending := false, watcher := .waiting }

theorem Inv.visiting (h : Inv s) (howner : s.processes process = some owner)
    (hidle : ∀ session, owner.watcher ≠ .calling session) :
    Visiting process ((s.setProcess process owner.awake).prbSessions process) (s.setProcess process owner.awake) := by
  generalize ht : s.setProcess process owner.awake = t
  have hself : t.processes process = some owner.awake := by
    rw [← ht, setProcess_self]
  have hothers : ∀ other, other ≠ process → t.processes other = s.processes other := by
    intro other hne
    rw [← ht, setProcess_of_ne hne]
  have hsessions : t.sessions = s.sessions := by rw [← ht]; rfl
  have hcount : t.evntCount = s.evntCount := by rw [← ht]; rfl
  have hplaced : Placed t := ht ▸ h.placed.idle howner hidle nofun
  refine ⟨hplaced, fun session block event hblock hinterest => ?_, ⟨fun hnobody other owner' howner' => ?_,
    fun other owner' howner' hpending => ?_⟩, h.numbered.shrink (by rw [← ht]; rfl) (by rw [← ht]; rfl)
      fun session block hblock _ => ⟨block, hsessions ▸ hblock, .refl _⟩,
    fun session block request owner' hblock hpurge hmem hdone howner' => ?_, sorted_prbSessions t process,
    fun session hmem => ?_, ⟨_, hself, .inl rfl⟩⟩
  · rw [hcount]
    rw [hsessions] at hblock
    exact h.known session block event hblock hinterest
  · by_cases heq : other = process
    · subst heq
      rw [← Option.some.inj (hself.symm.trans howner')]
      rfl
    · rw [hothers other heq] at howner'
      exact h.posted.wakeup (by rw [← ht] at hnobody; exact hnobody) other owner' howner'
  · by_cases heq : other = process
    · subst heq
      rw [← Option.some.inj (hself.symm.trans howner')] at hpending
      exact Bool.noConfusion hpending
    · rw [hothers other heq] at howner'
      exact h.posted.pending other owner' howner' hpending
  · by_cases heq : block.process = process
    · rw [if_pos heq]
      exact .inr (.inr (mem_prbSessions.mpr ⟨hplaced.lt hblock, block, hblock, heq⟩))
    · rw [if_neg heq]
      rw [hothers _ heq] at howner'
      rw [hsessions] at hblock
      have hbefore : s.completed request = true := by
        rw [completed_iff, hcount] at hdone
        exact completed_iff.mpr hdone
      refine (h.covered session block request owner' hblock hpurge hmem hbefore howner').imp_right (Or.imp_right ?_)
      rintro ⟨current, visited, hcalling, hvisited, hrest⟩
      exact ⟨current, visited, hcalling, by rw [hsessions]; exact hvisited, hrest⟩
  · obtain ⟨-, block, hblock, hprocess⟩ := mem_prbSessions.mp hmem
    refine ⟨block, hblock, hprocess, Bool.not_eq_true _ ▸ fun hpurge => ?_⟩
    obtain ⟨owner', howner', hcalling⟩ := hplaced.delivering hblock (hplaced.purge hblock hpurge)
    rw [hprocess, hself] at howner'
    rw [← Option.some.inj howner'] at hcalling
    exact nomatch hcalling

theorem idle_of_ready (hready : owner.watcher = .starting ∨ owner.watcher = .waiting ∧ owner.posted = true)
    (session : Nat) : owner.watcher ≠ .calling session := by
  intro hcalling
  rcases hready with hstarting | ⟨hwaiting, -⟩
  · exact nomatch hstarting.symm.trans hcalling
  · exact nomatch hwaiting.symm.trans hcalling

theorem Inv.watch (h : Inv s) (hsafe : SafeWatch s process) : Inv (s.watch process) := by
  unfold State.watch
  split
  · exact h
  case h_2 owner howner =>
    split
    case isFalse => exact h
    case isTrue hready =>
      have hvisiting := h.visiting howner (idle_of_ready hready)
      split
      case isTrue => exact hvisiting.visit _ _
      case isFalse hunset =>
        have hnone := (hsafe owner howner hready).resolve_left hunset
        refine ⟨hvisiting.placed, hvisiting.known, hvisiting.posted, hvisiting.numbered,
          fun session block request owner' hblock hpurge hmem hdone howner' => ?_⟩
        have hbut := hvisiting.covered session block request owner' hblock hpurge hmem hdone howner'
        by_cases heq : block.process = process
        · have hfalse := hnone session block hblock heq request hmem
          exact Bool.noConfusion (hfalse.symm.trans hdone)
        · rwa [if_neg heq] at hbut

theorem filter_le_eq_cons {list : List Nat} (hsorted : list.Pairwise (· < ·)) (hmem : session ∈ list) :
    list.filter (session ≤ ·) = session :: list.filter (session < ·) := by
  induction list with
  | nil => exact absurd hmem not_mem_nil
  | cons first list ih =>
    rcases mem_cons.mp hmem with rfl | hlater
    · rw [filter_cons_of_pos (by simp), filter_cons_of_neg (by simp)]
      congr 1
      refine filter_congr fun other hother => ?_
      have hlt : session < other := rel_of_pairwise_cons hsorted hother
      rw [decide_eq_true hlt, decide_eq_true (Nat.le_of_lt hlt)]
    · have hlt : first < session := rel_of_pairwise_cons hsorted hlater
      rw [filter_cons_of_neg (by simpa using hlt), filter_cons_of_neg (by simpa using Nat.le_of_lt hlt)]
      exact ih hsorted.tail hlater

theorem Removes.ofSet (h : Removes s t session) (block : Session) : Removes (s.setSession session block) t session where
  processes := h.processes
  others := fun other hne => (h.others other hne).trans (setSession_of_ne hne s block).symm
  nextSession := h.nextSession
  nextRequest := h.nextRequest
  delivered := h.delivered
  posting := h.posting
  count := h.count
  wanted := fun other block' event hne hlt hblock hinterest =>
    h.wanted other block' event hne hlt ((setSession_of_ne hne s block).symm.trans hblock) hinterest

section
variable (h : Inv s) (howner : s.processes process = some owner) (hcalling : owner.watcher = .calling session)
  (hblock : s.sessions session = some block)
include h howner hcalling hblock

theorem Inv.purged (hpurge : block.purge = true) : Inv (s.leaveSession process session block id) := by
  unfold State.leaveSession
  rw [if_pos hpurge]
  obtain ⟨block', hblock', hprocess, -⟩ := h.placed.calling howner hcalling
  obtain rfl : block = block' := Option.some.inj (hblock.symm.trans hblock')
  obtain ⟨hremoves, hnone⟩ :=
    destroySession_removes (s.setWatcher process .waiting) session { block with delivering := false }
  generalize hnew : (⟨process, [], [], false, false⟩ : Session) = new
  generalize hu : (s.setWatcher process .waiting).setSession session new = u
  have hm : Moves s u process .waiting session new := by
    rw [← hu]
    exact ⟨rfl, setSession_self .., fun _ hne => setSession_of_ne hne .., rfl, rfl, rfl, rfl⟩
  have hplaced : Placed u := hm.placed howner h.placed hblock (by rw [← hnew, hprocess]) hprocess (.inl hcalling)
    (.inr ⟨rfl, by rw [← hnew]⟩) (by rw [← hnew])
  have hinv : Inv u := by
    refine ⟨hplaced, hm.known h.known hblock fun event hwanted => ?_, hm.posted howner h.posted
      (by rw [hcalling]; exact nofun),
      h.numbered.shrink hm.nextRequest (by rw [← hu]; rfl) fun other block' hblock' hne => ?_, ?_⟩
    · rw [← hnew] at hwanted
      exact nomatch hwanted
    · rcases hm.cases hblock' with ⟨hold, -⟩ | ⟨-, rfl⟩
      · exact ⟨block', hold, .refl _⟩
      · rw [← hnew] at hne
        exact absurd rfl hne
    · intro other block' request owner' hblock' hunpurged hmem hcompleted howner'
      rw [hm.completed] at hcompleted
      rcases hm.cases hblock' with ⟨hold, hother⟩ | ⟨-, rfl⟩
      · rcases hm.process_cases howner howner' with ⟨heq, rfl⟩ | ⟨hne, hbefore⟩
        · have hcovered := h.covered other block' request owner hold hunpurged hmem hcompleted
            (by rw [heq]; exact howner)
          refine hcovered.imp_right (Or.imp_right ?_)
          rintro ⟨current, visited, hwatcher, hvisited, hunvisited, -⟩
          obtain rfl := Watcher.calling.inj (hcalling.symm.trans hwatcher)
          obtain rfl : block = visited := Option.some.inj (hblock.symm.trans hvisited)
          exact Bool.noConfusion (hunvisited.symm.trans hpurge)
        · refine (h.covered other block' request owner' hold hunpurged hmem hcompleted hbefore).imp_right
            (Or.imp_right ?_)
          rintro ⟨current, visited, hwatcher, hvisited, hunvisited, hle⟩
          have hcurrent : current ≠ session := by
            rintro rfl
            obtain rfl : block = visited := Option.some.inj (hblock.symm.trans hvisited)
            exact Bool.noConfusion (hunvisited.symm.trans hpurge)
          exact ⟨current, visited, hwatcher, hm.kept hcurrent hvisited, hunvisited, hle⟩
      · rw [← hnew] at hmem
        exact absurd hmem not_mem_nil
  refine hinv.remove (hu ▸ hremoves.ofSet new) hnone fun other owner' howner' hwatcher => ?_
  obtain ⟨block', hblock', -, hdelivering⟩ := hplaced.calling howner' hwatcher
  rw [← Option.some.inj (hm.new.symm.trans hblock'), ← hnew] at hdelivering
  exact Bool.noConfusion hdelivering

theorem Inv.resuming (hunpurged : block.purge = false) :
    Visiting process ((s.prbSessions process).filter (session ≤ ·)) s := by
  obtain ⟨block', hblock', hprocess, -⟩ := h.placed.calling howner hcalling
  obtain rfl : block = block' := Option.some.inj (hblock.symm.trans hblock')
  have hhere : session ∈ s.prbSessions process :=
    mem_prbSessions.mpr ⟨h.placed.lt hblock, block, hblock, hprocess⟩
  refine ⟨h.placed, h.known, h.posted, h.numbered, fun other block' request owner' hblock' hpurge hmem hcompleted
    howner' => ?_, (sorted_prbSessions s process).filter _, fun other hmem => ?_, owner, howner,
    .inr ⟨session, _, filter_le_eq_cons (sorted_prbSessions s process) hhere, hcalling⟩⟩
  · refine (h.covered other block' request owner' hblock' hpurge hmem hcompleted howner').imp_right (Or.imp_right ?_)
    split
    case isFalse => exact id
    case isTrue heq =>
      rintro ⟨current, -, hwatcher, -, -, hle⟩
      rw [heq, howner] at howner'
      rw [← Option.some.inj howner', hcalling] at hwatcher
      obtain rfl := Watcher.calling.inj hwatcher
      refine mem_filter.mpr ⟨mem_prbSessions.mpr ⟨h.placed.lt hblock', block', hblock', heq⟩, ?_⟩
      exact decide_eq_true hle
  · obtain ⟨-, block', hblock', hthere⟩ := mem_prbSessions.mp (mem_filter.mp hmem).1
    refine ⟨block', hblock', hthere, Bool.not_eq_true _ ▸ fun hpurge => ?_⟩
    obtain ⟨owner', howner', hwatcher⟩ := h.placed.delivering hblock' (h.placed.purge hblock' hpurge)
    rw [hthere, howner] at howner'
    rw [← Option.some.inj howner', hcalling] at hwatcher
    obtain rfl := Watcher.calling.inj hwatcher
    obtain rfl : block = block' := Option.some.inj (hblock.symm.trans hblock')
    exact Bool.noConfusion (hunpurged.symm.trans hpurge)

end

theorem Inv.callbackDone (h : Inv s) (process : Nat) : Inv (s.callbackDone process) := by
  unfold State.callbackDone
  split
  · exact h
  case h_2 owner howner =>
    split
    case h_2 => exact h
    case h_1 session hcalling =>
      split
      case h_1 => exact h
      case h_2 block hblock =>
        split
        case isTrue hpurge => exact h.purged howner hcalling hblock hpurge
        case isFalse hunset => exact (h.resuming howner hcalling hblock (Bool.not_eq_true _ ▸ hunset)).visit _ s

end Firebird.Evt
