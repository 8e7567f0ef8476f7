import Firebird.Lib.CycleSearch
import Firebird.Lock.Downgrade
import Firebird.Lock.DeadlockWalk

/-! # The deadlock scan

`deadlock_scan` and `deadlock_walk`: a depth-first search over the requests that wait for one another, with two marks on
each request. -/

namespace Firebird.Lock
open Function List

/-- The lock table with the flags of requests and owners that the scan reads. -/
structure ScanTable where
  table : Table
  /-- `lhb_owners` -/
  owners : List OwnerId
  signaled : OwnerId → Bool
  wakeup : OwnerId → Bool
  /-- `own_blocks` is not empty. -/
  ownBlocks : OwnerId → Bool
  ownScanned : OwnerId → Bool
  justGranted : Handle → Bool
  waitTimeout : Handle → Bool
  deadlock : Handle → Bool
  scanned : Handle → Bool

/-- What `deadlock_walk` changes. -/
structure Walk where
  deadlock : Handle → Bool
  scanned : Handle → Bool
  maybeDeadlock : Bool

/-- The marks of the search: the requests on the current path, and those that are done. -/
def Walk.marks (walk : Walk) : Lib.Marks Handle := ⟨walk.deadlock, walk.scanned⟩

namespace Walk

def enter (walk : Walk) (request : Handle) : Walk := { walk with deadlock := update walk.deadlock request true }

def leave (walk : Walk) (request : Handle) : Walk :=
  { walk with
    deadlock := update walk.deadlock request false
    scanned := update walk.scanned request true }

end Walk

namespace ScanTable

def pendingRequests (s : ScanTable) : List Handle := s.owners.flatMap s.table.ownPending

def deadlockClear (s : ScanTable) : ScanTable :=
  { s with
    deadlock := fun h => s.deadlock h && !s.pendingRequests.contains h
    scanned := fun h => s.scanned h && !s.pendingRequests.contains h }

/-- The owner still has to finish its AST, or the lock has just been granted to it. -/
def isBusy (s : ScanTable) (key : LockKey) (block : Lrq) : Bool :=
  s.signaled block.owner || s.wakeup block.owner || s.ownBlocks block.owner || s.justGranted ⟨key, block.id⟩

def pursued (s : ScanTable) (owner : OwnerId) : List Handle :=
  (s.table.ownPending owner).filter fun target => !s.waitTimeout target

/-- What `deadlock_walk` does with a blocking request. -/
def walkBlock (s : ScanTable) (visit : Handle → Walk → Option (Option Handle × Walk)) (key : LockKey) (block : Lrq)
    (walk : Walk) : Option (Option Handle × Walk) :=
  if s.isBusy key block then some (none, { walk with maybeDeadlock := true })
  else Lib.firstFound visit (s.pursued block.owner) walk

/-- `deadlock_walk`: the request of a cycle, if one was found. There is a result when there is enough fuel. -/
def deadlockWalk (s : ScanTable) : Nat → Handle → Walk → Option (Option Handle × Walk)
  | 0, _, _ => none
  | fuel + 1, request, walk =>
    if walk.scanned request then some (none, walk)
    else if walk.deadlock request then some (some request, walk)
    else
      match s.table.request request with
      | none => none
      | some (lock, r) =>
        let body := s.walkBlock (s.deadlockWalk fuel) request.key
        match Lib.firstFound body (blockers r lock.requests) (walk.enter request) with
        | some (none, walk) => some (none, walk.leave request)
        | result => result

def deadlockScan (s : ScanTable) (fuel : Nat) (owner : OwnerId) (request : Handle) :
    Option (Option Handle × ScanTable) :=
  let s := s.deadlockClear
  match s.deadlockWalk fuel request ⟨s.deadlock, s.scanned, false⟩ with
  | none => none
  | some (victim, walk) =>
    some (victim, { s with
      deadlock := walk.deadlock
      scanned := walk.scanned
      ownScanned := if victim.isNone && !walk.maybeDeadlock then update s.ownScanned owner true else s.ownScanned })

def IsPending (s : ScanTable) (h : Handle) : Prop := ∃ lock r, s.table.request h = some (lock, r) ∧ r.pending = true

/-- The pending queues hold the pending requests of their owners, and all owners are known. -/
structure WellFormed (s : ScanTable) : Prop where
  pending : ∀ owner, ∀ h ∈ s.table.ownPending owner, s.IsPending h ∧ owner ∈ s.owners
  queued : ∀ h lock r, s.table.request h = some (lock, r) → r.pending = true → h ∈ s.table.ownPending r.owner

/-- The first request waits for the second: that is a pending request, without a timeout, of an owner who blocks it. -/
def WaitsFor (s : ScanTable) (a b : Handle) : Prop :=
  ∃ lock r, s.table.request a = some (lock, r) ∧
    ∃ block ∈ blockers r lock.requests, b ∈ s.table.ownPending block.owner ∧ s.waitTimeout b = false

/-- Nobody has an AST to finish, and no lock has just been granted. -/
structure Quiet (s : ScanTable) : Prop where
  owners : ∀ owner, s.signaled owner = false ∧ s.wakeup owner = false ∧ s.ownBlocks owner = false
  justGranted : ∀ h, s.justGranted h = false

/-- The request is blocked by an owner whom the walk skips. -/
def MeetsSkipped (s : ScanTable) (h : Handle) : Prop :=
  ∃ lock r, s.table.request h = some (lock, r) ∧ ∃ block ∈ blockers r lock.requests, s.isBusy h.key block = true

/-- The first request waits for the second one, and its owner is not skipped. -/
def Pursues (s : ScanTable) (a b : Handle) : Prop :=
  ∃ lock r, s.table.request a = some (lock, r) ∧ ∃ block ∈ blockers r lock.requests, s.isBusy a.key block = false ∧
    b ∈ s.table.ownPending block.owner ∧ s.waitTimeout b = false

/-- A cycle of the relation can be reached from the request. -/
def ReachesCycle (waits : Handle → Handle → Prop) (h : Handle) : Prop :=
  ∃ c, Relation.ReflTransGen waits h c ∧ Relation.TransGen waits c c

def targets (s : ScanTable) (h : Handle) : List Handle :=
  match s.table.request h with
  | none => []
  | some (lock, r) => (blockers r lock.requests).flatMap fun block => if s.isBusy h.key
      block then [] else s.pursued block.owner

variable {s : ScanTable} {h a b : Handle} {lock : Lbl} {r : Lrq} {fuel : Nat} {walk walk' : Walk} {owner : OwnerId}

theorem mem_targets : b ∈ s.targets a ↔ s.Pursues a b := by
  unfold targets Pursues
  cases hreq : s.table.request a with
  | none => exact ⟨nofun, fun ⟨_, _, h, _⟩ => nomatch h⟩
  | some found =>
    obtain ⟨lock, r⟩ := found
    have hone : (∃ lock' r', some (lock, r) = some (lock', r') ∧ ∃ block ∈ blockers r' lock'.requests,
        s.isBusy a.key block = false ∧ b ∈ s.table.ownPending block.owner ∧ s.waitTimeout b = false) ↔
        ∃ block ∈ blockers r lock.requests, s.isBusy a.key block = false ∧ b ∈ s.table.ownPending block.owner ∧
          s.waitTimeout b = false := by
      constructor
      · rintro ⟨_, _, heq, hrest⟩
        obtain ⟨rfl, rfl⟩ := Prod.mk.inj (Option.some.inj heq)
        exact hrest
      · exact fun hrest => ⟨lock, r, rfl, hrest⟩
    rw [hone, mem_flatMap]
    refine exists_congr fun block => and_congr_right fun _ => ?_
    cases s.isBusy a.key block
    · unfold pursued
      simp [mem_filter]
    · simp

theorem deadlockWalk_search (hvalid : ∀ a b, b ∈ s.targets a → ∃ found, s.table.request b = some found) (fuel : Nat) :
    ∀ h walk, (∃ found, s.table.request h = some found) → (s.deadlockWalk fuel h walk).map (Prod.map id Walk.marks) =
      Lib.search s.targets fuel h walk.marks := by
  induction fuel with
  | zero => exact fun _ _ _ => rfl
  | succ fuel ih =>
    intro h walk hfound
    obtain ⟨⟨lock, r⟩, hreq⟩ := hfound
    have htargets : s.targets h = (blockers r lock.requests).flatMap fun block =>
        if s.isBusy h.key block then [] else s.pursued block.owner := by
      unfold targets
      rw [hreq]
    have hloop : (Lib.firstFound (s.walkBlock (s.deadlockWalk fuel) h.key)
        (blockers r lock.requests) (walk.enter h)).map
        (Prod.map id Walk.marks) = Lib.firstFound (Lib.search s.targets fuel) (s.targets h) (walk.marks.enter h) := by
      rw [htargets, Lib.firstFound_flatMap]
      refine Lib.firstFound_map Walk.marks (fun block hblock w => ?_) _
      unfold walkBlock
      split
      case isTrue hbusy => rfl
      case isFalse hfree =>
        refine Lib.firstFound_map Walk.marks (fun target htarget w => ih target w (hvalid h target ?_)) w
        rw [htargets, mem_flatMap]
        exact ⟨block, hblock, by rw [if_neg hfree]; exact htarget⟩
    rw [deadlockWalk, Lib.search]
    have hdone : walk.marks.done h = walk.scanned h := rfl
    have hpath : walk.marks.path h = walk.deadlock h := rfl
    rw [hdone, hpath, hreq, ← hloop]
    split
    · rfl
    · split
      · rfl
      · dsimp only
        rcases Lib.firstFound (s.walkBlock (s.deadlockWalk fuel) h.key) (blockers r lock.requests) (walk.enter h) with
          _ | ⟨_ | v, w⟩
        all_goals rfl

def Remembers (s : ScanTable) (walk : Walk) : Prop :=
  ∀ x ∈ s.pendingRequests, walk.scanned x = true → s.MeetsSkipped x → walk.maybeDeadlock = true

structure Keeps (s : ScanTable) (walk walk' : Walk) : Prop where
  maybeDeadlock : walk.maybeDeadlock = true → walk'.maybeDeadlock = true
  remembers : s.Remembers walk → s.Remembers walk'

theorem Keeps.refl (s : ScanTable) (walk : Walk) : s.Keeps walk walk := ⟨id, id⟩

theorem Keeps.trans {walk'' : Walk} (h : s.Keeps walk walk') (h' : s.Keeps walk' walk'') : s.Keeps walk walk'' :=
  ⟨h'.maybeDeadlock ∘ h.maybeDeadlock, h'.remembers ∘ h.remembers⟩

theorem deadlockWalk_none (h' : s.deadlockWalk (fuel + 1) h walk = some (none, walk')) :
    walk' = walk ∨ ∃ lock r walk₁, s.table.request h = some (lock, r) ∧
    Lib.firstFound (s.walkBlock (s.deadlockWalk fuel) h.key)
      (blockers r lock.requests) (walk.enter h) = some (none, walk₁) ∧ walk' = walk₁.leave h := by
  rw [deadlockWalk] at h'
  split at h'
  · exact .inl (Prod.mk.inj (Option.some.inj h')).2.symm
  · split at h'
    · exact nomatch h'
    · split at h'
      · exact nomatch h'
      case h_2 lock r hreq =>
        dsimp only at h'
        split at h'
        case h_1 walk₁ hloop => exact .inr ⟨lock, r, walk₁, hreq, hloop, (Prod.mk.inj (Option.some.inj h')).2.symm⟩
        case h_2 hfound => exact absurd h' (hfound _)

theorem walkBlock_keeps {key : LockKey} {block : Lrq}
    (hvisit : ∀ a walk walk', s.deadlockWalk fuel a walk = some (none, walk') →
    s.Keeps walk walk') (h' : s.walkBlock (s.deadlockWalk fuel) key block walk = some (none, walk')) :
    s.Keeps walk walk' := by
  unfold walkBlock at h'
  split at h'
  · obtain ⟨-, rfl⟩ := Prod.mk.inj (Option.some.inj h')
    exact ⟨fun _ => rfl, fun _ _ _ _ _ => rfl⟩
  · exact Lib.firstFound_rel (Keeps.refl s) Keeps.trans (fun a _ walk walk' => hvisit a walk walk') h'

theorem deadlockWalk_keeps (h' : s.deadlockWalk fuel h walk = some (none, walk')) : s.Keeps walk walk' := by
  induction fuel generalizing h walk walk' with
  | zero => exact nomatch h'
  | succ fuel ih =>
    have hbody : ∀ key block walk walk', s.walkBlock (s.deadlockWalk fuel) key block walk = some (none, walk') →
        s.Keeps walk walk' := fun key block walk walk' => walkBlock_keeps fun _ _ _ => ih
    rcases deadlockWalk_none h' with rfl | ⟨lock, r, walk₁, hreq, hloop, rfl⟩
    · exact .refl s _
    · have hkeeps := Lib.firstFound_rel (Keeps.refl s) Keeps.trans (fun block _ => hbody h.key block) hloop
      refine ⟨hkeeps.maybeDeadlock, fun hremembers x hx hscanned hmeets => ?_⟩
      by_cases heq : x = h
      · -- the blocking requests of this one have been gone by
        subst heq
        obtain ⟨lock', r', hreq', block, hblock, hbusy⟩ := hmeets
        obtain ⟨rfl, rfl⟩ := Prod.mk.inj (Option.some.inj (hreq.symm.trans hreq'))
        obtain ⟨before, after, rest, hpass, -, hlater⟩ := Lib.firstFound_passes hloop hblock
        have hset : after.maybeDeadlock = true := by
          unfold walkBlock at hpass
          rw [if_pos hbusy] at hpass
          rw [← (Prod.mk.inj (Option.some.inj hpass)).2]
        exact (Lib.firstFound_rel (Keeps.refl s) Keeps.trans (fun block _ => hbody _ block) hlater).maybeDeadlock hset
      · exact hkeeps.remembers hremembers x hx ((update_of_ne heq ..).symm.trans hscanned) hmeets

def Blames (s : ScanTable) (h : Handle) (walk walk' : Walk) : Prop :=
  walk'.maybeDeadlock = true → walk.maybeDeadlock = true ∨ ∃ x, Relation.ReflTransGen s.Pursues h x ∧ s.MeetsSkipped x

theorem Blames.refl (s : ScanTable) (h : Handle) (walk : Walk) : s.Blames h walk walk := .inl

theorem Blames.trans {walk'' : Walk} (h₁ : s.Blames h walk walk') (h₂ : s.Blames h walk' walk'') :
    s.Blames h walk walk'' :=
  fun hset => (h₂ hset).elim h₁ .inr

theorem Blames.pursues (hpursues : s.Pursues h a) (h₁ : s.Blames a walk walk') : s.Blames h walk walk' := fun hset =>
  (h₁ hset).imp_right fun ⟨x, hreach, hmeets⟩ => ⟨x, .head hpursues hreach, hmeets⟩

theorem deadlockWalk_blames (h' : s.deadlockWalk fuel h walk = some (none, walk')) : s.Blames h walk walk' := by
  induction fuel generalizing h walk walk' with
  | zero => exact nomatch h'
  | succ fuel ih =>
    rcases deadlockWalk_none h' with rfl | ⟨lock, r, walk₁, hreq, hloop, rfl⟩
    · exact .refl s h _
    · have hblames : s.Blames h (walk.enter h) walk₁ := by
        refine Lib.firstFound_rel (Blames.refl s h) Blames.trans (fun block hblock before after hpass => ?_) hloop
        unfold walkBlock at hpass
        split at hpass
        case isTrue hbusy => exact fun _ => .inr ⟨h, .refl, lock, r, hreq, block, hblock, hbusy⟩
        case isFalse hfree =>
          refine Lib.firstFound_rel (Blames.refl s h) Blames.trans (fun target htarget before after hpass => ?_) hpass
          obtain ⟨hqueued, htimeout⟩ := mem_filter.mp htarget
          exact (ih hpass).pursues ⟨lock, r, hreq, block, hblock, Bool.not_eq_true _ ▸ hfree,
            hqueued, by simpa using htimeout⟩
      exact hblames

theorem WellFormed.pursues (h : s.WellFormed) (hpursues : s.Pursues a b) : b ∈ s.pendingRequests := by
  obtain ⟨lock, r, -, block, -, -, hqueued, -⟩ := hpursues
  exact mem_flatMap.mpr ⟨block.owner, (h.pending _ b hqueued).2, hqueued⟩

theorem WellFormed.isPending (h : s.WellFormed) (ha : a ∈ s.pendingRequests) : s.IsPending a := by
  obtain ⟨owner, -, hqueued⟩ := mem_flatMap.mp ha
  exact (h.pending owner a hqueued).1

theorem WellFormed.mem_pendingRequests (h : s.WellFormed) (ha : s.IsPending a) : a ∈ s.pendingRequests := by
  obtain ⟨lock, r, hreq, hp⟩ := ha
  have hqueued := h.queued a lock r hreq hp
  exact mem_flatMap.mpr ⟨r.owner, (h.pending _ a hqueued).2, hqueued⟩

theorem follows_iff : Lib.Follows s.targets = s.Pursues := by
  funext a b
  exact propext mem_targets

theorem Quiet.pursues (h : s.Quiet) : s.Pursues = s.WaitsFor := by
  funext a b
  refine propext ⟨fun ⟨lock, r, hreq, block, hblock, _, hrest⟩ => ⟨lock, r, hreq, block, hblock, hrest⟩,
    fun ⟨lock, r, hreq, block, hblock, hrest⟩ => ⟨lock, r, hreq, block, hblock, ?_, hrest⟩⟩
  obtain ⟨hsignaled, hwakeup, hblocks⟩ := h.owners block.owner
  unfold isBusy
  rw [hsignaled, hwakeup, hblocks, h.justGranted]
  rfl

theorem WellFormed.clear (h : s.WellFormed) : s.deadlockClear.WellFormed := ⟨h.pending, h.queued⟩

theorem deadlockWalk_outcome (hwf : s.WellFormed) (hclear : ∀ a ∈ s.pendingRequests, s.deadlock a = false ∧
    s.scanned a = false) (hpending : s.IsPending h) (hfuel : s.pendingRequests.length < fuel) :
    ∃ victim walk, s.deadlockWalk fuel h ⟨s.deadlock, s.scanned, false⟩ = some (victim, walk) ∧
      (victim = none → ¬ ReachesCycle s.Pursues h ∧
        (walk.maybeDeadlock = true ↔ ∃ x, Relation.ReflTransGen s.Pursues h x ∧ s.MeetsSkipped x)) ∧
      ∀ v, victim = some v → Relation.TransGen s.Pursues v v ∧ Relation.ReflTransGen s.Pursues h v := by
  have hclosed : Lib.Closed s.targets s.pendingRequests.toFinset := fun a _ b hb =>
    mem_toFinset.mpr (hwf.pursues (mem_targets.mp hb))
  have hmem : h ∈ s.pendingRequests.toFinset := mem_toFinset.mpr (hwf.mem_pendingRequests hpending)
  have hsound : Lib.Sound s.targets s.pendingRequests.toFinset (Walk.marks ⟨s.deadlock, s.scanned, false⟩) :=
    Lib.sound_of_clear fun a ha => (hclear a (mem_toFinset.mp ha)).2
  have hleads : Lib.LeadsTo s.targets s.pendingRequests.toFinset (Walk.marks ⟨s.deadlock, s.scanned, false⟩) h :=
    Lib.leadsTo_of_clear (fun a ha => (hclear a (mem_toFinset.mp ha)).1) h
  have hfree : (Lib.free s.pendingRequests.toFinset (Walk.marks ⟨s.deadlock, s.scanned, false⟩)).card < fuel :=
    Nat.lt_of_le_of_lt ((Finset.card_filter_le _ _).trans (toFinset_card_le _)) hfuel
  obtain ⟨result, hresult⟩ := Lib.search_isSome hclosed hmem hsound hleads hfree
  have hout := Lib.search_outcome hclosed hmem hsound hleads hresult
  have hvalid : ∀ a b, b ∈ s.targets a → ∃ found, s.table.request b = some found := fun a b hb => by
    obtain ⟨lock, r, hreq, -⟩ := hwf.isPending (hwf.pursues (mem_targets.mp hb))
    exact ⟨_, hreq⟩
  obtain ⟨lock, r, hreq, -⟩ := hpending
  rw [← deadlockWalk_search hvalid fuel h ⟨s.deadlock, s.scanned, false⟩ ⟨_, hreq⟩] at hresult
  obtain ⟨⟨victim, walk⟩, hwalk, rfl⟩ := Option.map_eq_some_iff.mp hresult
  refine ⟨victim, walk, hwalk, ?_, ?_⟩
  · rintro rfl
    obtain ⟨-, hsound', hdone, -⟩ := hout
    have hhere := hdone h mem_cons_self
    refine ⟨fun hcycle => hsound'.safe h hmem hhere ?_, fun hset => ?_, fun ⟨x, hreach, hmeets⟩ => ?_⟩
    · unfold Lib.ReachesCycle Lib.Reaches Lib.OnCycle
      rw [follows_iff]
      exact hcycle
    · exact (deadlockWalk_blames hwalk hset).resolve_left Bool.false_ne_true
    · rw [← follows_iff] at hreach
      have hx := mem_toFinset.mp (hclosed.reaches hmem hreach)
      refine (deadlockWalk_keeps hwalk).remembers (fun a ha hscanned => ?_) x hx
        (hsound'.reaches hclosed hmem hhere hreach) hmeets
      exact Bool.noConfusion ((hclear a ha).2.symm.trans hscanned)
  · rintro v rfl
    obtain ⟨hcycle, x, hx, hreach⟩ := hout
    unfold Lib.OnCycle at hcycle
    unfold Lib.Reaches at hreach
    rw [follows_iff] at hcycle hreach
    exact ⟨hcycle, mem_singleton.mp hx ▸ hreach⟩

/-- The scan returns, with a pending request of a cycle exactly if a cycle can be reached; and it marks the owner as
    scanned only if it skipped nobody. -/
theorem deadlockScan_exact (hwf : s.WellFormed) (hpending : s.IsPending h) (hfuel : s.pendingRequests.length < fuel)
    (owner : OwnerId) :
    ∃ victim t, s.deadlockScan fuel owner h = some (victim, t) ∧
      (s.Quiet → (victim.isSome = true ↔ ReachesCycle s.WaitsFor h) ∧
        ∀ v, victim = some v → Relation.ReflTransGen s.WaitsFor h v ∧ Relation.TransGen s.WaitsFor v v ∧
        t.IsPending v) ∧
      (victim = none → s.ownScanned owner = false →
        (t.ownScanned owner = true ↔ ¬ ∃ x, Relation.ReflTransGen s.Pursues h x ∧ s.MeetsSkipped x)) := by
  have hclear : ∀ a ∈ s.deadlockClear.pendingRequests,
      s.deadlockClear.deadlock a = false ∧ s.deadlockClear.scanned a = false := by
    intro a ha
    have hin : s.pendingRequests.contains a = true := contains_iff_mem.mpr ha
    change (s.deadlock a && !s.pendingRequests.contains a) = false ∧
      (s.scanned a && !s.pendingRequests.contains a) = false
    rw [hin]
    exact ⟨Bool.and_false _, Bool.and_false _⟩
  obtain ⟨victim, walk, hwalk, hnone, hsome⟩ := deadlockWalk_outcome hwf.clear hclear hpending hfuel
  unfold deadlockScan
  dsimp only
  rw [hwalk]
  refine ⟨victim, _, rfl, fun hquiet => ⟨⟨fun hfound => ?_, fun hcycle => ?_⟩, ?_⟩, ?_⟩
  · obtain ⟨v, rfl⟩ := Option.isSome_iff_exists.mp hfound
    obtain ⟨hcycle, hreach⟩ := hsome v rfl
    rw [← hquiet.pursues]
    exact ⟨v, hreach, hcycle⟩
  · rw [← hquiet.pursues] at hcycle
    cases victim with
    | none => exact absurd hcycle (hnone rfl).1
    | some v => rfl
  · rintro v rfl
    obtain ⟨hcycle, hreach⟩ := hsome v rfl
    rw [← hquiet.pursues]
    refine ⟨hreach, hcycle, ?_⟩
    obtain ⟨x, -, hx⟩ := Relation.TransGen.tail'_iff.mp hcycle
    exact hwf.isPending (hwf.pursues hx)
  · rintro rfl hunscanned
    obtain ⟨-, hiff⟩ := hnone rfl
    have hsame : (∃ x, Relation.ReflTransGen s.Pursues h x ∧ s.MeetsSkipped x) ↔ walk.maybeDeadlock = true := hiff.symm
    rw [hsame]
    cases hmaybe : walk.maybeDeadlock with
    | false => exact ⟨fun _ => Bool.false_ne_true, fun _ => update_self ..⟩
    | true => exact ⟨fun hset => Bool.noConfusion (hunscanned.symm.trans hset), fun hnot => absurd rfl hnot⟩

theorem wellFormed_of_inv (hi : s.table.Inv) (howners : ∀ owner, ∀ h ∈ s.table.ownPending owner, owner ∈ s.owners) :
    s.WellFormed where
  pending := fun owner h hqueued => by
    obtain ⟨lock, hl, r, hr, hid, -, hp⟩ := hi.safe.onlyPending owner h hqueued
    exact ⟨⟨lock, r, Table.request_of_mem hl (hi.locks _ _ hl).ids.nodup hr hid, hp⟩, howners owner h hqueued⟩
  queued := fun h lock r hreq hp => by
    obtain ⟨hl, hr, hid⟩ := Table.mem_of_request hreq
    have hcount := hi.safe.queued h.key lock hl r hr r.owner
    rw [if_pos ⟨hp, rfl⟩, hid] at hcount
    exact count_pos_iff.mp (hcount ▸ Nat.zero_lt_one)

def embrace : List Op :=
  [.enqueue 0 ⟨1, [0]⟩ .ex false none, .enqueue 1 ⟨1, [1]⟩ .ex false none, .enqueue 0 ⟨1, [1]⟩ .ex true none,
    .enqueue 1 ⟨1, [0]⟩ .ex true none]

def ofTable (table : Table) (owners : List OwnerId) : ScanTable where
  table := table
  owners := owners
  signaled := fun _ => false
  wakeup := fun _ => false
  ownBlocks := fun _ => false
  ownScanned := fun _ => false
  justGranted := fun _ => false
  waitTimeout := fun _ => false
  deadlock := fun _ => false
  scanned := fun _ => false

theorem quiet_ofTable (table : Table) (owners : List OwnerId) : (ofTable table owners).Quiet :=
  ⟨fun _ => ⟨rfl, rfl, rfl⟩, fun _ => rfl⟩

theorem deadlockScan_exact_embrace : ∃ v t, (ofTable (embrace.foldl Table.after Table.empty) [0, 1]).deadlockScan 3 1
    ⟨⟨1, [0]⟩, 3⟩ = some (some v, t) ∧
    Relation.TransGen (ofTable (embrace.foldl Table.after Table.empty) [0, 1]).WaitsFor v v := by
  have hrun : Lib.Run Table.RoomyStep Table.empty embrace (embrace.foldl Table.after Table.empty) :=
    Lib.run_of_allAllowed (by decide)
  have hqueues : ∀ owner, ∀ h ∈ (embrace.foldl Table.after Table.empty).ownPending owner, owner ∈ [0, 1] := by
    intro owner h hqueued
    match owner with
    | 0 | 1 => decide
    | n + 2 => exact nomatch hqueued
  have hwf : (ofTable (embrace.foldl Table.after Table.empty) [0, 1]).WellFormed :=
    wellFormed_of_inv (Table.inv_of_roomy hrun) hqueues
  obtain ⟨victim, t, hscan, hquiet, -⟩ := deadlockScan_exact hwf (h := ⟨⟨1, [0]⟩, 3⟩) ⟨_, _, rfl, rfl⟩
    (by decide : _ < 3) 1
  have hfound : ((ofTable (embrace.foldl Table.after Table.empty) [0, 1]).deadlockScan 3 1 ⟨⟨1, [0]⟩, 3⟩).map
      (·.1.isSome) = some true := by decide
  rw [hscan] at hfound
  obtain ⟨v, rfl⟩ := Option.isSome_iff_exists.mp (Option.some.inj hfound)
  exact ⟨v, t, hscan, ((hquiet (quiet_ofTable _ _)).2 v rfl).2.1⟩

end ScanTable
end Firebird.Lock
