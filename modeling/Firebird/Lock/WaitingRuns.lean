import Firebird.Lock.Runs
import Firebird.Lock.Settled

/-! # Nobody waits unseen -/

namespace Firebird.Lock.Table

open List Lib Function
variable {s t : Table} {key : LockKey} {h : Handle}

def Settled (t : Table) : Prop := ∀ key lock, t.locks key = some lock → Lock.Settled lock.requests

/-- The scan sees somebody who blocks, for every request that waits. -/
def NobodyForgotten (t : Table) : Prop :=
  ∀ key lock, t.locks key = some lock → ∀ r ∈ lock.requests, r.pending = true → blockers r lock.requests ≠ []

/-- A call that starts to wait, or that changes a granted level, leaves its queue orderly; a conversion is not
    asked of a request that waits, or whose rejection its call has not finished. -/
def LeavesOrderly (t : Table) : Op → Prop
  | .enqueue owner key type lckWait prior => ∀ lock ∈ (t.withoutPrior prior).locks key, lckWait = true →
      ¬ GrantedAtOnce lock type →
        Orderly (lock.requests ++ [{ (t.withoutPrior prior).newRequest owner type with pending := true }])
  | .convert h type lckWait => ∀ x ∈ t.request h, x.2.pending = false ∧ x.2.requested = x.2.state ∧
      Orderly (converted x.1 x.2 type lckWait)
  | .downgrade h => ∀ x ∈ t.request h, x.2.pending = false ∧ x.2.requested = x.2.state ∧
      Orderly (converted x.1 x.2 (downgradeState x.1 x.2) false)
  | .dequeue _ => True
  | .reject _ => True
  | .enqueueRejected _ => True
  | .convertRejected _ => True
  | .purgeOwner _ => True

def OrderlyStep (s : Table) (op : Op) (t : Table) : Prop :=
  Does (fun t op => (t.Allowed op ∧ t.Room op) ∧ t.LeavesOrderly op) after s op t

theorem Settled.setLock (hs : Settled t) {res : Option Lbl × Pending}
    (hlock : ∀ lock ∈ res.1, Lock.Settled lock.requests) : Settled (t.setLock key res) := by
  intro k lock hk
  by_cases hkey : k = key
  · subst hkey
    change update t.locks k res.1 k = some lock at hk
    rw [update_self] at hk
    exact hlock lock hk
  · change update t.locks key res.1 k = some lock at hk
    rw [update_of_ne hkey] at hk
    exact hs k lock hk

section
variable (hs : Settled t) (hi : Inv t)
include hs hi

theorem Settled.dequeue (h : Handle) : Settled (t.dequeue h) := by
  unfold Table.dequeue
  split
  · exact hs
  · rename_i lock r hreq
    obtain ⟨hl, hr, -⟩ := mem_of_request hreq
    have hinv := hi.locks _ _ hl
    have horderly := (hs h.key lock hl).orderly.sublist hinv.ids.nodup (filter_sublist (p := fun x => x.id ≠ r.id))
    exact hs.setLock (releaseRequest_settled hinv hr horderly)

theorem Settled.enqueueNew {owner : OwnerId} {type : Level} {lckWait : Bool}
    (hroom : EnqueueRoom t owner key type lckWait)
    (horderly : ∀ lock ∈ t.locks key, lckWait = true → ¬ GrantedAtOnce lock type →
      Orderly (lock.requests ++ [{ t.newRequest owner type with pending := true }])) :
    Settled (t.enqueueNew owner key type lckWait) := by
  have ha := hi.alloc (update t.ownRequests owner (t.ownRequests owner ++ [(⟨key, t.nextId⟩ : Handle)]))
  have hsa : Settled { t with
      nextId := t.nextId + 1
      ownRequests := update t.ownRequests owner (t.ownRequests owner ++ [(⟨key, t.nextId⟩ : Handle)]) } := hs
  unfold Table.enqueueNew
  dsimp only
  split
  · refine hsa.setLock ?_
    intro lock' hl'
    cases hl'
    exact settled_of_none fun y hy => mem_singleton.mp hy ▸ rfl
  · rename_i lock hl
    have hinv := ha.locks key lock hl
    have hnew : ∀ x ∈ lock.requests, x.id ≠ t.nextId := fun x hx =>
      ((hi.locks key lock hl).ids.lt x.id (mem_map_of_mem hx)).ne
    exact hsa.setLock (grantOrQue_settled (hinv.withRequests (lock.requests ++ [t.newRequest owner type])) rfl
      (Nat.lt_succ_self _) hnew rfl rfl (hroom lock hl) (hs key lock hl) (horderly lock hl))

theorem Settled.convert {type : Level} {lckWait : Bool} (hroom : ConvertRoom t h type lckWait)
    (horderly : LeavesOrderly t (.convert h type lckWait)) : Settled (t.convert h type lckWait) := by
  unfold Table.convert
  split
  · exact hs
  · rename_i lock r hreq
    obtain ⟨hl, hr, -⟩ := mem_of_request hreq
    obtain ⟨hp, hsame, hord⟩ := horderly (lock, r) hreq
    refine hs.setLock fun lock' hl' => ?_
    cases hl'
    exact internalConvert_settled (hi.locks _ _ hl) hr hp hsame (hroom lock r hreq) (hs h.key lock hl) hord

theorem Settled.downgrade
    (hroom : ∀ lock r, t.request h = some (lock, r) → ConvertRoom t h (downgradeState lock r) false)
    (horderly : LeavesOrderly t (.downgrade h)) : Settled (t.downgrade h) := by
  unfold Table.downgrade
  split
  · exact hs
  · rename_i lock r hreq
    dsimp only
    split
    · exact hs.dequeue hi h
    · refine hs.convert hi (hroom lock r hreq) fun x hx => ?_
      cases hreq.symm.trans hx
      exact horderly (lock, r) hreq

theorem Settled.reject : Settled (t.reject h) := by
  unfold Table.reject
  split
  · exact hs
  · rename_i lock r hreq
    obtain ⟨hl, hr, -⟩ := mem_of_request hreq
    refine hs.setLock fun lock' hl' => ?_
    cases hl'
    exact reject_settled h.key t.ownPending (hi.locks _ _ hl).ids.nodup hr (hs h.key lock hl)

theorem Settled.convertRejected
    (hp : ∀ lock r, t.request h = some (lock, r) → r.pending = false) : Settled (t.convertRejected h) := by
  unfold Table.convertRejected
  split
  · exact hs
  · rename_i lock r hreq
    obtain ⟨hl, hr, -⟩ := mem_of_request hreq
    refine hs.setLock fun lock' hl' => ?_
    cases hl'
    exact convertRejected_settled (hi.locks _ _ hl) hr (hp lock r hreq) (hs h.key lock hl).orderly

theorem Settled.purgeOwner (owner : OwnerId) : Settled (t.purgeOwner owner) := by
  unfold Table.purgeOwner
  generalize t.ownRequests owner = handles
  induction handles generalizing t with
  | nil => exact hs
  | cons h handles ih => exact ih (hs.dequeue hi h) (hi.dequeue h)

end

theorem Settled.step (hs : Settled s) (hi : Inv s) {op : Op} (hstep : OrderlyStep s op t) : Settled t := by
  obtain ⟨⟨⟨hall, hroom⟩, horderly⟩, rfl⟩ := hstep
  cases op with
  | enqueue owner key type lckWait prior =>
    cases prior with
    | none => exact hs.enqueueNew hi hroom horderly
    | some h => exact (hs.dequeue hi h).enqueueNew (hi.dequeue h) hroom horderly
  | convert h type lckWait => exact hs.convert hi (fun lock r hr => hroom _ hr) horderly
  | downgrade h =>
    refine hs.downgrade hi (fun lock r hr lock' r' hr' => ?_) horderly
    cases hr.symm.trans hr'
    exact hroom _ hr
  | dequeue h => exact hs.dequeue hi h
  | reject h => exact hs.reject hi
  | enqueueRejected h => exact hs.dequeue hi h
  | convertRejected h => exact hs.convertRejected hi fun lock r hr => hall _ hr
  | purgeOwner owner => exact hs.purgeOwner hi owner

/-- In a run whose waiting calls leave the queues orderly nobody is forgotten. -/
theorem nobodyForgotten_of_orderly {ops : List Op} (h : Run OrderlyStep Table.empty ops t) : NobodyForgotten t := by
  have hboth : Inv t ∧ Settled t := by
    refine h.invariant (I := fun t => Inv t ∧ Settled t) ?_ ⟨Inv.empty, nofun⟩
    exact fun _ _ _ hi hs => ⟨hi.1.step ⟨hs.1.1, hs.2⟩, hi.2.step hi.1 hs⟩
  intro key lock hl r hr hp
  exact ((hboth.2 key lock hl).blocked r hr hp).blockers_ne (hboth.1.locks key lock hl).ids.nodup hr

instance (t : Table) : (op : Op) → Decidable (t.LeavesOrderly op)
  | .enqueue owner key type lckWait prior => inferInstanceAs (Decidable (∀ lock ∈ (t.withoutPrior prior).locks key,
      lckWait = true → ¬ GrantedAtOnce lock type →
        Orderly (lock.requests ++ [{ (t.withoutPrior prior).newRequest owner type with pending := true }])))
  | .convert h type lckWait => inferInstanceAs (Decidable (∀ x ∈ t.request h, x.2.pending = false ∧
      x.2.requested = x.2.state ∧ Orderly (converted x.1 x.2 type lckWait)))
  | .downgrade h => inferInstanceAs (Decidable (∀ x ∈ t.request h, x.2.pending = false ∧
      x.2.requested = x.2.state ∧ Orderly (converted x.1 x.2 (downgradeState x.1 x.2) false)))
  | .dequeue _ | .reject _ | .enqueueRejected _ | .convertRejected _ | .purgeOwner _ => inferInstanceAs (Decidable True)

/-- Two readers, one of whom asks for more, and a writer behind them. -/
def waitingRun : List Op :=
  [.enqueue 0 someKey .pr false none, .enqueue 1 someKey .pr false none, .convert ⟨someKey, 1⟩ .ex true,
    .enqueue 2 someKey .ex true none, .dequeue ⟨someKey, 0⟩, .downgrade ⟨someKey, 1⟩]

theorem nobodyForgotten_of_orderly_waitingRun : NobodyForgotten (waitingRun.foldl after Table.empty) :=
  nobodyForgotten_of_orderly (run_of_allAllowed (by decide +kernel))

/-- A shared writer, a reader that waits for it, and another shared reader that waits for that reader unseen. -/
def forgottenRun : List Op :=
  [.enqueue 0 someKey .sw true none, .enqueue 1 someKey .pr true none, .enqueue 2 someKey .sr true none]

theorem forgottenRun_forgets : ¬ ∀ (ops : List Op) (t : Table), Run RoomyStep Table.empty ops t →
    NobodyForgotten t := by
  intro hall
  have hrun : Run RoomyStep Table.empty forgottenRun (forgottenRun.foldl after Table.empty) :=
    run_of_allAllowed (by decide +kernel)
  have hforgotten := hall forgottenRun _ hrun someKey
  revert hforgotten
  decide +kernel

end Firebird.Lock.Table
