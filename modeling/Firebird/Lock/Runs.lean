import Firebird.Lib.Run
import Firebird.Lock.Safety

/-! # The lock table under any calls

Every call, and every part of a call that waits, keeps what holds of each lock, as long as the 16-bit counters of a lock
can count its requests. -/

namespace Firebird.Lock
open Lib List Function

namespace Table
variable {t : Table} {key : LockKey} {h : Handle}

structure Inv (t : Table) : Prop where
  locks : ∀ key lock, t.locks key = some lock → LockInv key t.nextId t.ownPending lock lock.requests
  free : ∀ key, t.locks key = none → ∀ o id, (t.ownPending o).count ⟨key, id⟩ = 0

theorem Inv.empty : Inv Table.empty where
  locks _ _ h := nomatch h
  free _ _ _ _ := rfl

theorem Inv.setLock (hi : Inv t) (res : Option Lbl × Pending) (hframe : Frame key t.ownPending res.2)
    (hlock : match res.1 with
      | none => ∀ o id, (res.2 o).count ⟨key, id⟩ = 0
      | some lock => LockInv key t.nextId res.2 lock lock.requests) : Inv (t.setLock key res) where
  locks k lock hk := by
    by_cases hkey : k = key
    · subst hkey
      change update t.locks k res.1 k = some lock at hk
      rw [update_self] at hk
      rw [hk] at hlock
      exact hlock
    · change update t.locks key res.1 k = some lock at hk
      rw [update_of_ne hkey] at hk
      have hinv := hi.locks k lock hk
      exact { hinv with own := fun o id => (hframe o ⟨k, id⟩ hkey).trans (hinv.own o id) }
  free k hk o id := by
    by_cases hkey : k = key
    · subst hkey
      change update t.locks k res.1 k = none at hk
      rw [update_self] at hk
      rw [hk] at hlock
      exact hlock o id
    · change update t.locks key res.1 k = none at hk
      rw [update_of_ne hkey] at hk
      exact (hframe o ⟨k, id⟩ hkey).trans (hi.free k hk o id)

theorem mem_of_request {lock : Lbl} {r : Lrq} (h' : t.request h = some (lock, r)) :
    t.locks h.key = some lock ∧ r ∈ lock.requests ∧ r.id = h.id := by
  unfold request at h'
  cases hl : t.locks h.key with
  | none =>
    rw [hl] at h'
    cases h'
  | some lock' =>
    rw [hl] at h'
    obtain ⟨r', hr', heq⟩ := Option.map_eq_some_iff.mp h'
    cases heq
    exact ⟨rfl, mem_of_find?_eq_some hr', by simpa using find?_some hr'⟩

theorem Inv.withOwnRequests (hi : Inv t) (q : OwnerId → List Handle) : Inv { t with ownRequests := q } :=
  ⟨hi.locks, hi.free⟩

theorem Inv.dequeue (hi : Inv t) (h : Handle) : Inv (t.dequeue h) := by
  unfold Table.dequeue
  split
  · exact hi
  · rename_i lock r hreq
    obtain ⟨hl, hr, -⟩ := mem_of_request hreq
    obtain ⟨hframe, hres⟩ := releaseRequest_spec (hi.locks _ _ hl) hr
    exact (hi.setLock _ hframe hres).withOwnRequests _

theorem Inv.alloc (hi : Inv t) (q : OwnerId → List Handle) :
    Inv { t with nextId := t.nextId + 1, ownRequests := q } where
  locks k lock hk := by
    have hinv := hi.locks k lock hk
    exact { hinv with ids := ⟨hinv.ids.nodup, fun id hid => Nat.lt_succ_of_lt (hinv.ids.lt id hid)⟩ }
  free := hi.free

def EnqueueRoom (t : Table) (owner : OwnerId) (key : LockKey) (type : Level) (lckWait : Bool) : Prop :=
  ∀ lock, t.locks key = some lock →
    RoomFor (lock.requests ++ [{ t.newRequest owner type with pending := lckWait }])

def ConvertRoom (t : Table) (h : Handle) (type : Level) (lckWait : Bool) : Prop :=
  ∀ lock r, t.request h = some (lock, r) →
    RoomFor (setRequest { r with requested := type, pending := lckWait || r.pending } lock.requests)

section
variable (hi : Inv t)
include hi

theorem Inv.enqueueNew {owner : OwnerId} {type : Level} {lckWait : Bool}
    (hroom : EnqueueRoom t owner key type lckWait) : Inv (t.enqueueNew owner key type lckWait) := by
  have ha := hi.alloc (update t.ownRequests owner (t.ownRequests owner ++ [(⟨key, t.nextId⟩ : Handle)]))
  unfold Table.enqueueNew
  dsimp only
  split
  · rename_i hl
    have hshort : [t.newRequest owner type].length < ushortSize := by
      rw [length_singleton]
      decide
    have hone : QueueInv key (t.nextId + 1) t.ownPending (newLock type).pendingLrqCount [t.newRequest owner type] := {
      ids := ⟨nodup_singleton _, by simp [newRequest]⟩
      room := fun s _ => countP_le_length.trans_lt hshort
      roomPending := countP_le_length.trans_lt hshort
      pendingCount := rfl
      own := fun o id => (hi.free key hl o id).trans (by simp [Lrq.waitsAs, newRequest])
      compat := pairwise_singleton _ _ }
    have hnone : ∀ x ∈ ([] : List Lrq), compatible (t.newRequest owner type).requested x.state = true :=
      forall_mem_nil _
    have hgrant := hone.grant (fun _ _ => rfl) hnone
    exact ha.setLock (some _, _) (frame_grant key t.ownPending (newLock type) (t.newRequest owner type))
      (hgrant.withRequests _)
  · rename_i lock hl
    have hinv := ha.locks key lock hl
    have hnew : ∀ x ∈ lock.requests, x.id ≠ t.nextId := fun x hx =>
      ((hi.locks key lock hl).ids.lt x.id (mem_map_of_mem hx)).ne
    obtain ⟨hframe, hres⟩ := grantOrQue_spec
      (hinv.withRequests (lock.requests ++ [t.newRequest owner type])) rfl (Nat.lt_succ_self _) hnew rfl rfl
      (hroom lock hl)
    exact ha.setLock _ hframe hres

theorem Inv.enqueue {owner : OwnerId} {type : Level} {lckWait : Bool} {prior : Option Handle}
    (hroom : EnqueueRoom (match prior with | none => t | some h => t.dequeue h) owner key type lckWait) :
    Inv (t.enqueue owner key type lckWait prior) := by
  cases prior with
  | none => exact hi.enqueueNew hroom
  | some h => exact (hi.dequeue h).enqueueNew hroom

theorem Inv.convert {type : Level} {lckWait : Bool} (hroom : ConvertRoom t h type lckWait)
    (hwait : ∀ lock r, t.request h = some (lock, r) → lckWait = true → r.pending = false) :
    Inv (t.convert h type lckWait) := by
  unfold Table.convert
  split
  · exact hi
  · rename_i lock r hreq
    obtain ⟨hl, hr, -⟩ := mem_of_request hreq
    obtain ⟨hinv, hframe⟩ := internalConvert_spec (hi.locks _ _ hl) hr (hroom lock r hreq) (hwait lock r hreq)
    exact hi.setLock (some _, _) hframe hinv

theorem Inv.downgrade (hroom : ∀ lock r, t.request h = some (lock, r) → ConvertRoom t h (downgradeState lock r) false) :
    Inv (t.downgrade h) := by
  unfold Table.downgrade
  split
  · exact hi
  · rename_i lock r hreq
    dsimp only
    split
    · exact hi.dequeue h
    · exact hi.convert (hroom lock r hreq) fun _ _ _ hw => nomatch hw

theorem Inv.reject (hp : ∀ lock r, t.request h = some (lock, r) → r.pending = true) : Inv (t.reject h) := by
  unfold Table.reject
  split
  · exact hi
  · rename_i lock r hreq
    obtain ⟨hl, hr, -⟩ := mem_of_request hreq
    obtain ⟨hinv, hframe⟩ := reject_spec (hi.locks _ _ hl) hr (hp lock r hreq)
    exact hi.setLock (some _, _) hframe (hinv.withRequests _)

theorem Inv.convertRejected (hp : ∀ lock r, t.request h = some (lock, r) → r.pending = false) :
    Inv (t.convertRejected h) := by
  unfold Table.convertRejected
  split
  · exact hi
  · rename_i lock r hreq
    obtain ⟨hl, hr, -⟩ := mem_of_request hreq
    obtain ⟨hinv, hframe⟩ := convertRejected_spec (hi.locks _ _ hl) hr (hp lock r hreq)
    exact hi.setLock (some _, _) hframe hinv

theorem Inv.purgeOwner (owner : OwnerId) : Inv (t.purgeOwner owner) := by
  unfold Table.purgeOwner
  generalize t.ownRequests owner = handles
  induction handles generalizing t with
  | nil => exact hi
  | cons h handles ih => exact ih (hi.dequeue h)

end

end Table

inductive Op
  | enqueue (owner : OwnerId) (key : LockKey) (type : Level) (lckWait : Bool) (prior : Option Handle)
  | convert (h : Handle) (type : Level) (lckWait : Bool)
  | downgrade (h : Handle)
  | dequeue (h : Handle)
  | reject (h : Handle)
  | enqueueRejected (h : Handle)
  | convertRejected (h : Handle)
  | purgeOwner (owner : OwnerId)

namespace Table

def after (t : Table) : Op → Table
  | .enqueue owner key type lckWait prior => t.enqueue owner key type lckWait prior
  | .convert h type lckWait => t.convert h type lckWait
  | .downgrade h => t.downgrade h
  | .dequeue h => t.dequeue h
  | .reject h => t.reject h
  | .enqueueRejected h => t.enqueueRejected h
  | .convertRejected h => t.convertRejected h
  | .purgeOwner owner => t.purgeOwner owner

/-- A call does not wait for a request that waits already (`wait_for_request` asserts this), pending requests are
    rejected, and a call goes on after a rejection when its request is no longer pending. -/
def Allowed (t : Table) : Op → Prop
  | .convert h _ lckWait => ∀ x ∈ t.request h, lckWait = true → x.2.pending = false
  | .reject h => ∀ x ∈ t.request h, x.2.pending = true
  | .convertRejected h => ∀ x ∈ t.request h, x.2.pending = false
  | .enqueue _ _ _ _ _ => True
  | .downgrade _ => True
  | .dequeue _ => True
  | .enqueueRejected _ => True
  | .purgeOwner _ => True

def withoutPrior (t : Table) : Option Handle → Table
  | none => t
  | some h => t.dequeue h

def Room (t : Table) : Op → Prop
  | .enqueue owner key type lckWait prior => ∀ lock ∈ (t.withoutPrior prior).locks key,
      RoomFor (lock.requests ++ [{ (t.withoutPrior prior).newRequest owner type with pending := lckWait }])
  | .convert h type lckWait => ∀ x ∈ t.request h,
      RoomFor (setRequest { x.2 with requested := type, pending := lckWait || x.2.pending } x.1.requests)
  | .downgrade h => ∀ x ∈ t.request h,
      RoomFor (setRequest { x.2 with requested := downgradeState x.1 x.2 } x.1.requests)
  | .dequeue _ => True
  | .reject _ => True
  | .enqueueRejected _ => True
  | .convertRejected _ => True
  | .purgeOwner _ => True

/-- The highest level granted, in the order of `lock_state`. -/
def highest (l : List Lrq) : Level :=
  ([.ex, .pw, .sw, .pr, .sr, .null].find? fun s => l.any (·.isIn s)).getD .none

/-- The property of the table: granted states are compatible, the counters and the state of a lock tell what its
    requests are, and the pending queues hold the pending requests, each once in its owner's. -/
structure Safe (t : Table) : Prop where
  compat : ∀ key lock, t.locks key = some lock → lock.requests.Pairwise Lrq.Compatible
  counts : ∀ key lock, t.locks key = some lock → ∀ s, s ≠ .none → lock.counts s = lock.requests.countP (·.isIn s)
  state : ∀ key lock, t.locks key = some lock → lock.state = highest lock.requests
  pendingCount : ∀ key lock, t.locks key = some lock → lock.pendingLrqCount = lock.requests.countP (·.pending)
  queued : ∀ key lock, t.locks key = some lock → ∀ r ∈ lock.requests, ∀ o,
    (t.ownPending o).count ⟨key, r.id⟩ = if r.pending = true ∧ r.owner = o then 1 else 0
  onlyPending : ∀ o h, h ∈ t.ownPending o → ∃ lock, t.locks h.key = some lock ∧
    ∃ r ∈ lock.requests, r.id = h.id ∧ r.owner = o ∧ r.pending = true

def Step (s : Table) (op : Op) (t : Table) : Prop := Does Allowed after s op t

def RoomyStep (s : Table) (op : Op) (t : Table) : Prop := Does (fun t op => t.Allowed op ∧ t.Room op) after s op t

variable {s t : Table}

theorem Inv.step (hi : Inv s) {op : Op} (hs : RoomyStep s op t) : Inv t := by
  obtain ⟨⟨hall, hroom⟩, rfl⟩ := hs
  cases op with
  | enqueue owner key type lckWait prior =>
    refine hi.enqueue fun lock hl => ?_
    cases prior with
    | none | some h => exact hroom lock hl
  | convert h type lckWait => exact hi.convert (fun lock r hr => hroom _ hr) fun lock r hr => hall _ hr
  | downgrade h =>
    refine hi.downgrade fun lock r hr lock' r' hr' => ?_
    cases hr.symm.trans hr'
    exact hroom _ hr
  | dequeue h => exact hi.dequeue h
  | reject h => exact hi.reject fun lock r hr => hall _ hr
  | enqueueRejected h => exact hi.dequeue h
  | convertRejected h => exact hi.convertRejected fun lock r hr => hall _ hr
  | purgeOwner owner => exact hi.purgeOwner owner

theorem lockState_eq_highest {lock : Lbl} {l : List Lrq} (h : Counts lock l) : lockState lock = highest l := by
  have hany : ∀ s, s ≠ .none → (l.any (·.isIn s) = true ↔ lock.counts s ≠ 0) := fun s hs => by
    rw [h s hs, any_eq_true, ← Nat.pos_iff_ne_zero, countP_pos_iff]
  unfold lockState highest
  simp only [← hany .ex nofun, ← hany .pw nofun, ← hany .sw nofun, ← hany .pr nofun, ← hany .sr nofun,
    ← hany .null nofun, find?_cons]
  split_ifs <;> simp [*]

theorem countP_waitsAs {l : List Lrq} (h : (l.map (·.id)).Nodup) {r : Lrq} (hr : r ∈ l) (o : OwnerId) :
    l.countP (·.waitsAs o r.id) = if r.pending = true ∧ r.owner = o then 1 else 0 := by
  obtain ⟨a, b, rfl⟩ := append_of_mem hr
  have hzero : (a ++ b).countP (·.waitsAs o r.id) = 0 := by
    rw [countP_eq_zero]
    intro x hx
    simp [Lrq.waitsAs, ne_of_nodup h x hx]
  rw [perm_middle.countP_eq, countP_cons, hzero]
  simp [Lrq.waitsAs]

theorem Inv.safe (hi : Inv t) : Safe t where
  compat key lock hl := (hi.locks key lock hl).compat
  counts key lock hl := (hi.locks key lock hl).counts
  state key lock hl := (hi.locks key lock hl).state.trans (lockState_eq_highest (hi.locks key lock hl).counts)
  pendingCount key lock hl := (hi.locks key lock hl).pendingCount
  queued key lock hl r hr o :=
    ((hi.locks key lock hl).own o r.id).trans (countP_waitsAs (hi.locks key lock hl).ids.nodup hr o)
  onlyPending o h hh := by
    cases hl : t.locks h.key with
    | none => exact absurd hh (count_eq_zero.mp (hi.free h.key hl o h.id))
    | some lock =>
      have hcount := (hi.locks h.key lock hl).own o h.id
      have hpos : 0 < (t.ownPending o).count h := count_pos_iff.mpr hh
      obtain ⟨r, hr, hw⟩ := countP_pos_iff.mp (hcount ▸ hpos)
      simp only [Lrq.waitsAs, Bool.and_eq_true, beq_iff_eq] at hw
      exact ⟨lock, rfl, r, hr, hw.2.1, hw.2.2, hw.1⟩

/-- In a run in which the counters can always count, every state is safe. -/
theorem safe_of_roomy {ops : List Op} (h : Run RoomyStep Table.empty ops t) : Safe t :=
  (h.invariant (fun _ _ _ (hi : Inv _) hs => hi.step hs) Inv.empty).safe

instance (l : List Lrq) : Decidable (RoomFor l) :=
  decidable_of_iff ((∀ s, s ≠ .none → l.countP (·.mayBe s) < ushortSize) ∧ l.countP (·.pending) < ushortSize)
    ⟨fun h => ⟨h.1, h.2⟩, fun h => ⟨h.states, h.pending⟩⟩

instance (t : Table) : (op : Op) → Decidable (t.Allowed op)
  | .convert h _ lckWait => inferInstanceAs (Decidable (∀ x ∈ t.request h, lckWait = true → x.2.pending = false))
  | .reject h => inferInstanceAs (Decidable (∀ x ∈ t.request h, x.2.pending = true))
  | .convertRejected h => inferInstanceAs (Decidable (∀ x ∈ t.request h, x.2.pending = false))
  | .enqueue _ _ _ _ _ | .downgrade _ | .dequeue _ | .enqueueRejected _
  | .purgeOwner _ => inferInstanceAs (Decidable True)

instance (t : Table) : (op : Op) → Decidable (t.Room op)
  | .enqueue owner key type lckWait prior => inferInstanceAs (Decidable (∀ lock ∈ (t.withoutPrior prior).locks key,
      RoomFor (lock.requests ++ [{ (t.withoutPrior prior).newRequest owner type with pending := lckWait }])))
  | .convert h type lckWait => inferInstanceAs (Decidable (∀ x ∈ t.request h,
      RoomFor (setRequest { x.2 with requested := type, pending := lckWait || x.2.pending } x.1.requests)))
  | .downgrade h => inferInstanceAs (Decidable (∀ x ∈ t.request h,
      RoomFor (setRequest { x.2 with requested := downgradeState x.1 x.2 } x.1.requests)))
  | .dequeue _ | .reject _ | .enqueueRejected _ | .convertRejected _ | .purgeOwner _ => inferInstanceAs (Decidable True)

def someKey : LockKey := { series := 1, value := [] }

def someRun : List Op :=
  [.enqueue 0 someKey .sr false none, .enqueue 1 someKey .sr false none, .convert ⟨someKey, 1⟩ .pr true,
    .enqueue 2 someKey .ex true none, .convert ⟨someKey, 0⟩ .ex true, .reject ⟨someKey, 0⟩,
    .convertRejected ⟨someKey, 0⟩, .downgrade ⟨someKey, 1⟩, .purgeOwner 0]

theorem safe_of_roomy_someRun : Safe (someRun.foldl after Table.empty) :=
  safe_of_roomy (run_of_allAllowed (by decide +kernel))

theorem enqueueNew_first {key : LockKey} (owner : OwnerId) (type : Level) (lckWait : Bool) (hl : t.locks key = none) :
    ∃ lock', (t.enqueueNew owner key type lckWait).locks key = some lock' ∧
      lock'.requests = [{ t.newRequest owner type with state := type }] ∧
      lock'.counts = ((newLock type).add type).counts ∧ lock'.pendingLrqCount = 0 ∧ lock'.state = lockState lock' := by
  refine ⟨{ (newLock type).add type with
    requests := [{ t.newRequest owner type with state := type }]
    state := lockState ((newLock type).add type) }, ?_, rfl, rfl, rfl, lockState_congr fun _ _ => rfl⟩
  unfold enqueueNew
  dsimp only
  rw [hl]
  unfold grant
  exact update_self _ _ _

theorem nextId_enqueueNew (owner : OwnerId) (key : LockKey) (type : Level) (lckWait : Bool) :
    (t.enqueueNew owner key type lckWait).nextId = t.nextId + 1 := by
  unfold enqueueNew
  dsimp only
  split
  · rfl
  · rfl

/-- A new request that is compatible with the state of a lock nobody waits for is granted. -/
theorem enqueueNew_granted {key : LockKey} {lock : Lbl} (owner : OwnerId) {type : Level} (lckWait : Bool)
    (hl : t.locks key = some lock) (hc : compatible type lock.state = true) (hp : lock.pendingLrqCount = 0)
    (hids : ∀ r ∈ lock.requests, r.id < t.nextId) :
    ∃ lock', (t.enqueueNew owner key type lckWait).locks key = some lock' ∧
      lock'.requests = lock.requests ++ [{ t.newRequest owner type with state := type }] ∧
      lock'.counts = (lock.add type).counts ∧ lock'.pendingLrqCount = 0 ∧ lock'.state = lockState lock' := by
  have hcond : compatible (t.newRequest owner type).requested lock.state = true ∧
      ((t.newRequest owner type).requested = .null ∨ lock.pendingLrqCount = 0) := ⟨hc, .inr hp⟩
  have hset : setRequest { t.newRequest owner type with state := type } (lock.requests ++ [t.newRequest owner type]) =
      lock.requests ++ [{ t.newRequest owner type with state := type }] := by
    unfold setRequest
    rw [map_append, map_cons, if_pos rfl]
    refine congrArg (· ++ _) ?_
    conv_rhs => rw [← map_id lock.requests]
    exact map_congr_left fun x hx => if_neg (hids x hx).ne
  refine ⟨{ lock with
    requests := lock.requests ++ [{ t.newRequest owner type with state := type }]
    counts := (lock.add type).counts
    state := lockState (lock.add type) }, ?_, rfl, rfl, hp, lockState_congr fun _ _ => rfl⟩
  have hgrant : ∀ q : List Lrq, grant key t.ownPending { lock with requests := q } (t.newRequest owner type) =
      ({ lock with requests := q, counts := (lock.add type).counts, state := lockState (lock.add type) }, t.ownPending,
        { t.newRequest owner type with state := type }) := by
    intro q
    unfold grant
    exact congrArg (·, t.ownPending, { t.newRequest owner type with state := type })
      (congrArg (Lbl.mk q · lock.pendingLrqCount (lock.add type).counts) (lockState_congr fun _ _ => rfl))
  unfold enqueueNew
  dsimp only
  rw [hl]
  unfold setLock grantOrQue
  dsimp only
  rw [if_pos hcond, hgrant]
  rw [hset]
  unfold postPending
  rw [if_pos hp, update_self]

/-- Shared requests of one lock, one for each of the owners. -/
def manyReaders (n : Nat) : List Op := (List.range n).map fun owner => .enqueue owner someKey .sr false none

/-- The table when `n` shared requests of the lock have been granted: the counter wraps around. -/
structure Shared (n : Nat) (t : Table) : Prop where
  nextId : t.nextId = n
  free : t.locks someKey = none → n = 0
  requests : ∀ lock, t.locks someKey = some lock →
    lock.requests.length = n ∧ ∀ r ∈ lock.requests, r.id < n ∧ r.state = .sr
  counts : ∀ lock, t.locks someKey = some lock →
    lock.counts = update (fun _ => 0) .sr (n % ushortSize)
  pendingLrqCount : ∀ lock, t.locks someKey = some lock → lock.pendingLrqCount = 0
  state : ∀ lock, t.locks someKey = some lock → lock.state = lockState lock

theorem lockState_of_readers {lock : Lbl} {n : Nat} (h : lock.counts = update (fun _ => 0) .sr n) :
    lockState lock = if n ≠ 0 then .sr else .none := by
  unfold lockState
  rw [h]
  simp

theorem Shared.succ {n : Nat} {t : Table} (h : Shared n t) : Shared (n + 1) (t.enqueueNew n someKey .sr false) := by
  have hid : (t.newRequest n .sr).id = n := h.nextId
  cases hl : t.locks someKey with
  | none =>
    obtain rfl := h.free hl
    obtain ⟨lock', hl', hreq, hcounts, hpend, hstate⟩ := enqueueNew_first 0 .sr false hl
    refine ⟨(nextId_enqueueNew _ _ _ _).trans (congrArg (· + 1) h.nextId), fun hn => (nomatch hl'.symm.trans hn),
      fun lock hlock => ?_, fun lock hlock => ?_, fun lock hlock => ?_, fun lock hlock => ?_⟩ <;>
      cases hl'.symm.trans hlock
    · rw [hreq]
      refine ⟨rfl, fun r hr => ?_⟩
      cases mem_singleton.mp hr
      exact ⟨hid.trans_lt Nat.one_pos, rfl⟩
    · rw [hcounts]
      rfl
    · exact hpend
    · exact hstate
  | some lock =>
    obtain ⟨hlength, hall⟩ := h.requests lock hl
    have hcounts := h.counts lock hl
    have hcompat : compatible .sr lock.state = true := by
      rw [h.state lock hl, lockState_of_readers hcounts]
      split_ifs <;> decide
    obtain ⟨lock', hl', hreq, hadd, hpend, hstate⟩ := enqueueNew_granted n false hl hcompat
      (h.pendingLrqCount lock hl) fun r hr => h.nextId ▸ (hall r hr).1
    refine ⟨(nextId_enqueueNew _ _ _ _).trans (congrArg (· + 1) h.nextId), fun hn => (nomatch hl'.symm.trans hn),
      fun lock hlock => ?_, fun lock hlock => ?_, fun lock hlock => ?_, fun lock hlock => ?_⟩ <;>
      cases hl'.symm.trans hlock
    · rw [hreq, length_append, hlength]
      refine ⟨rfl, fun r hr => ?_⟩
      rcases mem_append.mp hr with hr | hr
      · exact ⟨Nat.lt_succ_of_lt (hall r hr).1, (hall r hr).2⟩
      · cases mem_singleton.mp hr
        exact ⟨hid.trans_lt (Nat.lt_succ_self n), rfl⟩
    · rw [hadd]
      unfold Lbl.add increment
      rw [hcounts, update_self, update_idem, Nat.mod_add_mod]
    · exact hpend
    · exact hstate

theorem run_manyReaders (n : Nat) : ∃ t, Run Step Table.empty (manyReaders n) t ∧ Shared n t := by
  induction n with
  | zero => exact ⟨Table.empty, .nil _, rfl, fun _ => rfl, nofun, nofun, nofun, nofun⟩
  | succ n ih =>
    obtain ⟨t, hrun, hshared⟩ := ih
    refine ⟨t.enqueueNew n someKey .sr false, ?_, hshared.succ⟩
    unfold manyReaders at hrun ⊢
    rw [range_succ, map_append]
    exact hrun.append (.single ⟨trivial, rfl⟩)

/-- With 65536 readers the counter is zero, and a writer is let in beside them. -/
theorem manyReaders_not_safe : ¬ ∀ (ops : List Op) (t : Table), Run Step Table.empty ops t → Safe t := by
  intro hsafe
  obtain ⟨t, hrun, h⟩ := run_manyReaders ushortSize
  cases hl : t.locks someKey with
  | none => exact absurd (h.free hl) (by decide)
  | some lock =>
    obtain ⟨hlength, hall⟩ := h.requests lock hl
    have hcounts := h.counts lock hl
    have hcompat : compatible .ex lock.state = true := by
      rw [h.state lock hl, lockState_of_readers hcounts]
      decide
    obtain ⟨lock', hl', hreq, -⟩ := enqueueNew_granted ushortSize false hl hcompat
      (h.pendingLrqCount lock hl) fun r hr => h.nextId ▸ (hall r hr).1
    have hstep : Step t (.enqueue ushortSize someKey .ex false none) (t.enqueueNew ushortSize someKey .ex false) :=
      ⟨trivial, rfl⟩
    have hpairs := (hsafe _ _ (hrun.append (.single hstep))).compat someKey lock' hl'
    rw [hreq, pairwise_append] at hpairs
    obtain ⟨r, hr⟩ := exists_mem_of_length_pos (hlength ▸ (by decide : 0 < ushortSize))
    have hbad := hpairs.2.2 r hr _ (mem_singleton_self _)
    change compatible r.state .ex = true at hbad
    rw [(hall r hr).2] at hbad
    exact absurd hbad (by decide)

end Table
end Firebird.Lock
