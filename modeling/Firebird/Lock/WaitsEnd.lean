import Firebird.Lib.Acyclic
import Firebird.Lock.DeadlockScan
import Firebird.Lock.WaitingRuns

/-! # Where the waits end -/

namespace Firebird.Lock.ScanTable

open Lib List Relation

variable {s : ScanTable} {h : Handle}

/-- The request is blocked by an owner who waits for nobody, or not for ever. -/
def WaitsForRunning (s : ScanTable) (h : Handle) : Prop :=
  ∃ lock r, s.table.request h = some (lock, r) ∧ ∃ block ∈ blockers r lock.requests, s.pursued block.owner = []

/-- In a run that leaves the queues orderly, the waits of a request lead to a cycle, or to an owner who goes on. -/
theorem waits_end {ops : List Op} (hrun : Run Table.OrderlyStep Table.empty ops s.table)
    (howners : ∀ owner, ∀ h ∈ s.table.ownPending owner, owner ∈ s.owners) (hpending : s.IsPending h) :
    ReachesCycle s.WaitsFor h ∨ ∃ x, ReflTransGen s.WaitsFor h x ∧ s.WaitsForRunning x := by
  have hboth : s.table.Inv ∧ s.table.Settled :=
    hrun.invariant (I := fun t => t.Inv ∧ t.Settled)
      (fun _ _ _ hi hs => ⟨hi.1.step ⟨hs.1.1, hs.2⟩, hi.2.step hi.1 hs⟩) ⟨Table.Inv.empty, nofun⟩
  have hwf := wellFormed_of_inv hboth.1 howners
  have hreached : ∀ x, ReflTransGen s.WaitsFor h x → s.IsPending x := by
    intro x hx
    cases hx with
    | refl => exact hpending
    | tail _ hlast =>
      obtain ⟨_, _, _, _, _, hqueued, -⟩ := hlast
      exact (hwf.pending _ _ hqueued).1
  refine or_iff_not_imp_left.mpr fun hcycle => ?_
  have hacyclic : Acyclic fun b a => ReflTransGen s.WaitsFor h a ∧ s.WaitsFor a b := by
    intro x hx
    obtain ⟨-, -, hreach, -⟩ := TransGen.tail'_iff.mp hx
    exact hcycle ⟨x, hreach, transGen_swap.mp (TransGen.mono (fun _ _ h => h.2) x x hx)⟩
  -- those who block the last request on the way have none that is pursued
  have hwell := hacyclic.wellFounded s.pendingRequests.finite_toSet fun b a hab =>
    hwf.mem_pendingRequests (hreached b (hab.1.tail hab.2))
  obtain ⟨x, hx, hlast⟩ := hwell.has_min {x | ReflTransGen s.WaitsFor h x} ⟨h, .refl⟩
  obtain ⟨lock, r, hreq, hp⟩ := hreached x hx
  obtain ⟨hl, hr, -⟩ := Table.mem_of_request hreq
  have hblocked := (hboth.2 x.key lock hl).blocked r hr hp
  obtain ⟨block, hblock⟩ := exists_mem_of_ne_nil _ (hblocked.blockers_ne (hboth.1.locks _ _ hl).ids.nodup hr)
  refine ⟨x, hx, lock, r, hreq, block, hblock, eq_nil_iff_forall_not_mem.mpr fun y hy => ?_⟩
  obtain ⟨hqueued, htimeout⟩ := mem_filter.mp hy
  have hwaits : s.WaitsFor x y := ⟨lock, r, hreq, block, hblock, hqueued, by simpa using htimeout⟩
  exact hlast y (hx.tail hwaits) ⟨hx, hwaits⟩

theorem waits_end_embrace : ∃ (s : ScanTable) (h : Handle), s.table = embrace.foldl Table.after Table.empty ∧
    (ReachesCycle s.WaitsFor h ∨ ∃ x, ReflTransGen s.WaitsFor h x ∧ s.WaitsForRunning x) := by
  refine ⟨_, _, rfl, waits_end (s := ofTable (embrace.foldl Table.after Table.empty) [0, 1]) (h := ⟨⟨1, [0]⟩, 3⟩)
    (run_of_allAllowed (by decide)) (fun owner h hqueued => ?_) ⟨_, _, rfl, rfl⟩⟩
  rcases owner with _ | _ | n
  · decide
  · decide
  · cases hqueued

end Firebird.Lock.ScanTable
