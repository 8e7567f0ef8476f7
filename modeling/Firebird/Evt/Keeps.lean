import Firebird.Evt.Sessions

/-! # What the steps keep -/

namespace Firebird.Evt

open State List
variable {s t : State} {process session other : Nat} {block : Session} {owner : Process} {request : Request}
  {event : Name}

def Known (s : State) : Prop :=
  ∀ session block event, s.sessions session = some block → block.hasInterest event = true →
    ∃ count, s.evntCount event = some count

structure Posted (s : State) : Prop where
  wakeup : s.posting = [] → ∀ process owner, s.processes process = some owner → owner.wakeup = false
  pending : ∀ process owner, s.processes process = some owner → owner.pending = true →
    owner.posted = true ∨ owner.watcher = .starting

structure Numbered (s : State) : Prop where
  lt : ∀ {session block request}, s.sessions session = some block → request ∈ block.requests →
    request.number < s.nextRequest
  nodup : ∀ {session block}, s.sessions session = some block → (block.requests.map (·.number)).Nodup
  apart : ∀ {session other block block' request request'}, s.sessions session = some block →
    s.sessions other = some block' →
    request ∈ block.requests → request' ∈ block'.requests → request.number = request'.number → session = other
  past : ∀ {number}, number ∈ s.delivered.map (·.1) → number < s.nextRequest
  once : (s.delivered.map (·.1)).Nodup
  gone : ∀ {session block request}, s.sessions session = some block → request ∈ block.requests →
    request.number ∉ s.delivered.map (·.1)

theorem Numbered.eq_of_number (h : Numbered s) (hblock : s.sessions session = some block)
    (hmem : request ∈ block.requests) :
    ∀ other ∈ block.requests, other.number = request.number → other = request := fun _ hother heq =>
  inj_on_of_nodup_map (h.nodup hblock) hother hmem heq

theorem Numbered.shrink (h : Numbered s) (hnext : t.nextRequest = s.nextRequest)
    (hdelivered : t.delivered = s.delivered)
    (hsub : ∀ session block, t.sessions session = some block → block.requests ≠ [] →
      ∃ old, s.sessions session = some old ∧ block.requests.Sublist old.requests) : Numbered t where
  lt := fun {session block request} hblock hmem => by
    obtain ⟨old, hold, hrequests⟩ := hsub session block hblock (ne_nil_of_mem hmem)
    rw [hnext]
    exact h.lt hold (hrequests.subset hmem)
  nodup := fun {session block} hblock => by
    by_cases hnil : block.requests = []
    · rw [hnil]
      exact nodup_nil
    · obtain ⟨old, hold, hrequests⟩ := hsub session block hblock hnil
      exact (h.nodup hold).sublist (hrequests.map _)
  apart := fun {session other block block' _ _} hblock hblock' hmem hmem' heq => by
    obtain ⟨old, hold, hrequests⟩ := hsub session block hblock (ne_nil_of_mem hmem)
    obtain ⟨old', hold', hrequests'⟩ := hsub other block' hblock' (ne_nil_of_mem hmem')
    exact h.apart hold hold' (hrequests.subset hmem) (hrequests'.subset hmem') heq
  past := by
    rw [hnext, hdelivered]
    exact h.past
  once := by
    rw [hdelivered]
    exact h.once
  gone := fun {session block _} hblock hmem => by
    obtain ⟨old, hold, hrequests⟩ := hsub session block hblock (ne_nil_of_mem hmem)
    rw [hdelivered]
    exact h.gone hold (hrequests.subset hmem)

structure Inv (s : State) : Prop where
  placed : Placed s
  known : Known s
  posted : Posted s
  numbered : Numbered s
  covered : Covered s

theorem Inv.createProcess (h : Inv s) (process : Nat) : Inv (s.createProcess process) := by
  unfold State.createProcess
  cases hnone : s.processes process with
  | some owner => exact h
  | none =>
    have hother : ∀ {session block owner}, s.sessions session = some block →
        (s.setProcess process ⟨false, false, false, .starting⟩).processes block.process = some owner →
        s.processes block.process = some owner := by
      intro session block owner hblock howner
      obtain ⟨old, hold⟩ := h.placed.home hblock
      have hne : block.process ≠ process := by
        intro heq
        rw [heq] at hold
        exact nomatch hnone.symm.trans hold
      exact (setProcess_of_ne hne s _).symm.trans howner
    have hkept : ∀ {other owner}, s.processes other = some owner →
        (s.setProcess process ⟨false, false, false, .starting⟩).processes other = some owner := by
      intro other owner howner
      have hne : other ≠ process := by
        rintro rfl
        exact nomatch hnone.symm.trans howner
      exact (setProcess_of_ne hne s _).trans howner
    have hcases : ∀ {other owner}, (s.setProcess process ⟨false, false, false, .starting⟩).processes other =
        some owner → s.processes other = some owner ∨ owner = ⟨false, false, false, .starting⟩ := by
      intro other owner howner
      by_cases heq : other = process
      · subst heq
        exact .inr (Option.some.inj ((setProcess_self s other _).symm.trans howner)).symm
      · exact .inl ((setProcess_of_ne heq s _).symm.trans howner)
    refine ⟨⟨h.placed.lt, fun hblock => ?_, fun hblock hdelivering => ?_, fun howner hwatcher => ?_, h.placed.purge⟩,
      h.known, ⟨fun hnobody other owner howner => ?_, fun other owner howner hpending => ?_⟩, ?_, ?_⟩
    · exact (h.placed.home hblock).imp fun _ => hkept
    · exact (h.placed.delivering hblock hdelivering).imp fun _ hboth => ⟨hkept hboth.1, hboth.2⟩
    · rcases hcases howner with hold | rfl
      · exact h.placed.calling hold hwatcher
      · exact nomatch hwatcher
    · rcases hcases howner with hold | rfl
      · exact h.posted.wakeup hnobody other owner hold
      · rfl
    · rcases hcases howner with hold | rfl
      · exact h.posted.pending other owner hold hpending
      · exact .inr rfl
    · exact ⟨h.numbered.lt, h.numbered.nodup, h.numbered.apart, h.numbered.past, h.numbered.once, h.numbered.gone⟩
    · intro session block request owner hblock hpurge hmem hcompleted howner
      exact h.covered session block request owner hblock hpurge hmem hcompleted (hother hblock howner)

theorem Inv.createSession (h : Inv s) (process : Nat) : Inv (s.createSession process) := by
  unfold State.createSession
  cases hsome : s.processes process with
  | none => exact h
  | some owner =>
    have hfresh : ∀ {block}, s.sessions s.nextSession ≠ some block := fun hblock =>
      absurd (h.placed.lt hblock) (Nat.lt_irrefl _)
    generalize ht : ({ s.setSession s.nextSession ⟨process, [], [], false, false⟩ with
      nextSession := s.nextSession + 1 } : State) = t
    have hprocesses : t.processes = s.processes := by rw [← ht]; rfl
    have hcount : t.evntCount = s.evntCount := by rw [← ht]; rfl
    have hnext : t.nextSession = s.nextSession + 1 := by rw [← ht]
    have hcases : ∀ {other block}, t.sessions other = some block →
        s.sessions other = some block ∨ other = s.nextSession ∧ block = ⟨process, [], [], false, false⟩ := by
      intro other block hblock
      rw [← ht] at hblock
      exact (cases_of_setSession hblock).imp_left And.left
    have hkept : ∀ {other block}, s.sessions other = some block → t.sessions other = some block := by
      intro other block hblock
      rw [← ht]
      exact (setSession_of_ne (fun heq => hfresh (heq ▸ hblock)) s _).trans hblock
    refine ⟨⟨fun hblock => ?_, fun hblock => ?_, fun hblock hdelivering => ?_, fun howner hwatcher => ?_,
      fun hblock hpurge => ?_⟩, fun other block event hblock hinterest => ?_, ?_, ?_,
      h.covered.ease ⟨fun hblock _ hne => ?_, fun howner => ?_, fun _ _ hblock hpurge => ⟨_, hkept hblock, hpurge⟩⟩⟩
    · rw [hnext]
      rcases hcases hblock with hold | ⟨rfl, -⟩
      · exact Nat.lt_succ_of_lt (h.placed.lt hold)
      · exact Nat.lt_succ_self _
    · rw [hprocesses]
      rcases hcases hblock with hold | ⟨-, rfl⟩
      · exact h.placed.home hold
      · exact ⟨owner, hsome⟩
    · rw [hprocesses]
      rcases hcases hblock with hold | ⟨-, rfl⟩
      · exact h.placed.delivering hold hdelivering
      · exact nomatch hdelivering
    · rw [hprocesses] at howner
      exact (h.placed.calling howner hwatcher).imp fun _ hboth => ⟨hkept hboth.1, hboth.2⟩
    · rcases hcases hblock with hold | ⟨-, rfl⟩
      · exact h.placed.purge hold hpurge
      · exact nomatch hpurge
    · rw [hcount]
      rcases hcases hblock with hold | ⟨-, rfl⟩
      · exact h.known other block event hold hinterest
      · exact nomatch hinterest
    · exact ⟨by rw [← ht]; exact h.posted.wakeup, by rw [hprocesses]; exact h.posted.pending⟩
    · refine h.numbered.shrink (by rw [← ht]; rfl) (by rw [← ht]; rfl) fun other block hblock hne => ?_
      rcases hcases hblock with hold | ⟨-, rfl⟩
      · exact ⟨block, hold, .refl _⟩
      · exact absurd rfl hne
    · rcases hcases hblock with hold | ⟨-, rfl⟩
      · refine ⟨_, hold, rfl, ‹_›, fun request hmem => ⟨hmem, fun hcompleted => ?_⟩⟩
        rw [completed_iff, hcount] at hcompleted
        exact completed_iff.mpr hcompleted
      · exact absurd rfl hne
    · rw [hprocesses] at howner
      exact ⟨_, howner, rfl, id, .inr⟩

theorem Removes.completed (h : Removes s t session) (hcompleted : t.completed request = true) :
    s.completed request = true := by
  obtain ⟨interest, hmem, count, hcount, hle⟩ := completed_iff.mp hcompleted
  rcases h.count interest.event with hsame | hnone
  · exact completed_iff.mpr ⟨interest, hmem, count, hsame.symm.trans hcount, hle⟩
  · exact nomatch hnone.symm.trans hcount

theorem Inv.remove (h : Inv s) (hremoves : Removes s t session) (hnone : t.sessions session = none)
    (hidle : ∀ process owner, s.processes process = some owner → owner.watcher ≠ .calling session) : Inv t where
  placed := h.placed.remove hremoves hnone hidle
  known := fun other block event hblock hinterest => by
    have hne := ne_of_none hnone hblock
    have hold := (hremoves.others other hne).symm.trans hblock
    rw [hremoves.wanted other block event hne (h.placed.lt hold) hold hinterest]
    exact h.known other block event hold hinterest
  posted := by
    refine ⟨?_, ?_⟩
    · rw [hremoves.posting, hremoves.processes]
      exact h.posted.wakeup
    · rw [hremoves.processes]
      exact h.posted.pending
  numbered := h.numbered.shrink hremoves.nextRequest hremoves.delivered fun other block hblock _ =>
    ⟨block, (hremoves.others other (ne_of_none hnone hblock)).symm.trans hblock, .refl _⟩
  covered := h.covered.ease {
    oldSession := fun {other block} hblock hpurge _ => ⟨block,
      (hremoves.others other (ne_of_none hnone hblock)).symm.trans hblock, rfl, hpurge,
      fun _ hmem => ⟨hmem, hremoves.completed⟩⟩
    oldProcess := fun {process owner} howner => ⟨owner, hremoves.processes ▸ howner, rfl, id, .inr⟩
    current := fun {process owner other block} howner hwatcher hblock hpurge => by
      rw [hremoves.processes] at howner
      have hne : other ≠ session := fun heq => hidle process owner howner (heq ▸ hwatcher)
      exact ⟨block, (hremoves.others other hne).trans hblock, hpurge⟩ }

theorem sameShape_setSession (hblock : s.sessions session = some block) {block' : Session}
    (hshape : block'.shape = block.shape) : SameShape s (s.setSession session block') where
  sessions := fun other => by
    by_cases heq : other = session
    · subst heq
      rw [setSession_self, hblock]
      exact congrArg some hshape
    · rw [setSession_of_ne heq]
  processes := fun _ => rfl
  nextSession := rfl

theorem Inv.deleteRequest (h : Inv s) (hblock : s.sessions session = some block) (hmem : request ∈ block.requests) :
    Inv (s.setSession session (block.deleteRequest request)) := by
  refine ⟨h.placed.congr (sameShape_setSession hblock rfl), fun other block' event hblock' hinterest => ?_,
    ⟨h.posted.wakeup, h.posted.pending⟩, h.numbered.shrink rfl rfl fun other block' hblock' _ => ?_,
    h.covered.ease ⟨fun hblock' hpurge _ => ?_, fun howner => ⟨_, howner, rfl, id, .inr⟩,
      fun {_ _ other block'} _ _ hblock' hpurge => ?_⟩⟩
  · rcases cases_of_setSession hblock' with ⟨hold, -⟩ | ⟨rfl, rfl⟩
    · exact h.known other block' event hold hinterest
    · rw [Session.hasInterest_deleteRequest hmem (h.numbered.eq_of_number hblock hmem)] at hinterest
      exact h.known other block event hblock hinterest
  · rcases cases_of_setSession hblock' with ⟨hold, -⟩ | ⟨rfl, rfl⟩
    · exact ⟨block', hold, .refl _⟩
    · exact ⟨block, hblock, filter_sublist⟩
  · rcases cases_of_setSession hblock' with ⟨hold, -⟩ | ⟨rfl, rfl⟩
    · exact ⟨_, hold, rfl, hpurge, fun _ hmem => ⟨hmem, id⟩⟩
    · exact ⟨block, hblock, rfl, hpurge, fun _ hother => ⟨(Session.mem_deleteRequest.mp hother).1, id⟩⟩
  · by_cases heq : other = session
    · subst heq
      obtain rfl : block = block' := Option.some.inj (hblock.symm.trans hblock')
      exact ⟨_, setSession_self .., hpurge⟩
    · exact ⟨block', (setSession_of_ne heq s _).trans hblock', hpurge⟩

theorem findRequest_spec {requestId : Int} {sessions : List Nat}
    (h : s.findRequest requestId sessions = some (session, block, request)) :
    s.sessions session = some block ∧ request ∈ block.requests := by
  induction sessions with
  | nil => exact nomatch h
  | cons first sessions ih =>
    rw [State.findRequest] at h
    split at h
    · exact ih h
    case h_2 found hfound =>
      split at h
      case h_1 request' hrequest =>
        obtain ⟨rfl, rfl, rfl⟩ := (Option.some.inj h : (first, found, request') = (session, block, request))
        exact ⟨hfound, mem_of_find?_eq_some hrequest⟩
      case h_2 => exact ih h

theorem Inv.cancelEvents (h : Inv s) (process : Nat) (requestId : Int) : Inv (s.cancelEvents process requestId) := by
  unfold State.cancelEvents
  split
  · exact h
  case h_2 hfound =>
    obtain ⟨hblock, hmem⟩ := findRequest_spec hfound
    exact h.deleteRequest hblock hmem

/-- The session is not deleted while its watcher delivers one of its requests, or no satisfied request of a later
session depends on that visit. -/
def SafeDelete (s : State) (session : Nat) : Prop :=
  ∀ block owner, s.sessions session = some block → block.delivering = true → s.processes block.process = some owner →
    owner.pending = true ∨ owner.wakeup = true ∨
      ∀ other block', s.sessions other = some block' → block'.process = block.process → session < other →
        ∀ request ∈ block'.requests, s.completed request = false

theorem Inv.deleteSession (h : Inv s) (hsafe : SafeDelete s session) : Inv (s.deleteSession session) := by
  unfold State.deleteSession
  split
  · exact h
  case h_2 block hblock =>
    split
    case isFalse hidle =>
      obtain ⟨hremoves, hnone⟩ := destroySession_removes s session block
      refine h.remove hremoves hnone fun process owner howner hwatcher => ?_
      obtain ⟨block', hblock', -, hdelivering⟩ := h.placed.calling howner hwatcher
      obtain rfl : block = block' := Option.some.inj (hblock.symm.trans hblock')
      exact hidle hdelivering
    case isTrue hdelivering =>
      have hkept : ∀ {other block'}, s.sessions other = some block' → ∃ new,
          (s.setSession session { block with purge := true }).sessions other = some new ∧ new.process = block'.process ∧
            new.delivering = block'.delivering ∧ (other ≠ session → new = block') := by
        intro other block' hblock'
        by_cases heq : other = session
        · subst heq
          obtain rfl : block = block' := Option.some.inj (hblock.symm.trans hblock')
          exact ⟨_, setSession_self .., rfl, rfl, fun hne => absurd rfl hne⟩
        · exact ⟨block', (setSession_of_ne heq s _).trans hblock', rfl, rfl, fun _ => rfl⟩
      refine ⟨⟨fun hblock' => ?_, fun hblock' => ?_, fun hblock' hflag => ?_, fun howner hwatcher => ?_,
        fun hblock' hpurge => ?_⟩, fun other block' event hblock' hinterest => ?_, ⟨h.posted.wakeup, h.posted.pending⟩,
        h.numbered.shrink rfl rfl fun other block' hblock' _ => ?_, ?_⟩
      · rcases cases_of_setSession hblock' with ⟨hold, -⟩ | ⟨rfl, -⟩
        · exact h.placed.lt hold
        · exact h.placed.lt hblock
      · rcases cases_of_setSession hblock' with ⟨hold, -⟩ | ⟨-, rfl⟩
        · exact h.placed.home hold
        · have hhome := h.placed.home hblock
          exact hhome
      · rcases cases_of_setSession hblock' with ⟨hold, -⟩ | ⟨rfl, rfl⟩
        · exact h.placed.delivering hold hflag
        · have howner := h.placed.delivering hblock hflag
          exact howner
      · obtain ⟨block', hblock', hprocess, hflag⟩ := h.placed.calling howner hwatcher
        obtain ⟨new, hnew, hsame, hsameFlag, -⟩ := hkept hblock'
        exact ⟨new, hnew, hsame.trans hprocess, hsameFlag.trans hflag⟩
      · rcases cases_of_setSession hblock' with ⟨hold, -⟩ | ⟨-, rfl⟩
        · exact h.placed.purge hold hpurge
        · exact hdelivering
      · rcases cases_of_setSession hblock' with ⟨hold, -⟩ | ⟨rfl, rfl⟩
        · exact h.known other block' event hold hinterest
        · exact h.known other block event hblock hinterest
      · rcases cases_of_setSession hblock' with ⟨hold, -⟩ | ⟨rfl, rfl⟩
        · exact ⟨block', hold, .refl _⟩
        · exact ⟨block, hblock, .refl _⟩
      · intro other block' request owner hblock' hpurge hmem hcompleted howner
        rcases cases_of_setSession hblock' with ⟨hold, hne⟩ | ⟨rfl, rfl⟩
        · rcases h.covered other block' request owner hold hpurge hmem hcompleted howner with hset | hset | hvisit
          · exact .inl hset
          · exact .inr (.inl hset)
          · obtain ⟨current, visited, hwatcher, hvisited, hunpurged, hle⟩ := hvisit
            by_cases heq : current = session
            · -- the watcher will leave the loop with this session
              subst heq
              obtain ⟨block'', hblock'', hprocess, -⟩ := h.placed.calling howner hwatcher
              obtain rfl : block = block'' := Option.some.inj (hblock.symm.trans hblock'')
              rcases hsafe block owner hblock hdelivering (hprocess ▸ howner) with hset | hset | hnone
              · exact .inl hset
              · exact .inr (.inl hset)
              · have hfalse := hnone other block' hold hprocess.symm (Nat.lt_of_le_of_ne hle hne.symm) request hmem
                exact Bool.noConfusion (hfalse.symm.trans hcompleted)
            · exact .inr (.inr ⟨current, visited, hwatcher, (setSession_of_ne heq s _).trans hvisited, hunpurged, hle⟩)
        · exact nomatch hpurge

end Firebird.Evt
