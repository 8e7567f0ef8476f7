import Firebird.Tpc.Snapshots

/-! # Slots of snapshots

The handles that `beginSnapshot` hands out and `endSnapshot` takes back. The three marks of the list, `slots_used`,
`min_free_slot` and `slots_allocated`, never let two snapshots share a slot. -/

namespace Firebird.Tpc
open Lib List Function

structure LiveSnapshot where
  handle : SnapshotHandle
  attachmentId : AttNumber
  snapshot : CommitNumber

structure SlotSystem where
  cache : TipCache
  live : List LiveSnapshot

inductive SlotCall
  /-- `beginSnapshot`, with a commit number or 0 -/
  | begin (attachmentId : AttNumber) (commitNumber : CommitNumber)
  /-- `endSnapshot` -/
  | finish (handle : SnapshotHandle) (attachmentId : AttNumber)
  | commit (latestCommitNumber : CommitNumber)

namespace SlotSystem
open TipCache

def start (c : TipCache) : SlotSystem := ⟨c, []⟩

/-- A call; one that fails changes nothing. -/
def exec (headerSlots : Nat) (s : SlotSystem) : SlotCall → SlotSystem
  | .begin attachmentId commitNumber =>
    match s.cache.beginSnapshot headerSlots attachmentId commitNumber with
    | .ok (cache, handle, snapshot) => ⟨cache, ⟨handle, attachmentId, snapshot⟩ :: s.live⟩
    | .error _ => s
  | .finish handle attachmentId =>
    match s.cache.endSnapshot handle attachmentId with
    | .ok cache => ⟨cache, s.live.filter (·.handle ≠ handle)⟩
    | .error _ => s
  | .commit latestCommitNumber =>
    { s with cache := { s.cache with header := { s.cache.header with latestCommitNumber } } }

/-- Attachments have numbers, and end the snapshots they have begun. -/
def Allowed (s : SlotSystem) : SlotCall → Prop
  | .begin attachmentId _ => attachmentId ≠ 0
  | .finish handle attachmentId => ∃ l ∈ s.live, l.handle = handle ∧ l.attachmentId = attachmentId
  | .commit _ => True

def Step (headerSlots : Nat) : SlotSystem → SlotCall → SlotSystem → Prop := Does Allowed (exec headerSlots)

structure Fresh (c : TipCache) : Prop where
  slots : ∀ i, ¬c.snapshotList.Allocated i
  slotsUsed : c.snapshotList.slotsUsed = 0
  minFreeSlot : c.snapshotList.minFreeSlot = 0

/-- The slots in use are those of the live snapshots, and the marks are exact. -/
structure Inv (s : SlotSystem) : Prop where
  distinct : (s.live.map (·.handle)).Nodup
  slots : ∀ l ∈ s.live, s.cache.snapshotList.slots l.handle = ⟨l.attachmentId, l.snapshot⟩ ∧ l.attachmentId ≠ 0
  live : ∀ i, s.cache.snapshotList.Allocated i → ∃ l ∈ s.live, l.handle = i
  minFreeSlot : ∀ i < s.cache.snapshotList.minFreeSlot, s.cache.snapshotList.Allocated i
  used : ∀ i, s.cache.snapshotList.Allocated i → i < s.cache.snapshotList.slotsUsed
  last : s.cache.snapshotList.slotsUsed ≠ 0 → s.cache.snapshotList.Allocated (s.cache.snapshotList.slotsUsed - 1)

variable {s t : SlotSystem} {headerSlots : Nat} {l l' : SnapshotList} {slots : Nat → SnapshotData} {slot n : Nat}

theorem findFreeSlot_first : ∀ {n start slot : Nat}, findFreeSlot slots start n = some slot →
    start ≤ slot ∧ ∀ i, start ≤ i → i < slot → (slots i).attachmentId ≠ 0
  | 0, _, _, h => nomatch h
  | n + 1, start, slot, h => by
    rw [findFreeSlot] at h
    split at h
    · obtain rfl := Option.some.inj h
      exact ⟨Nat.le_refl _, fun i hle hlt => absurd hlt (Nat.not_lt.mpr hle)⟩
    · rename_i hused
      obtain ⟨hle, hrest⟩ := findFreeSlot_first h
      refine ⟨Nat.le_of_succ_le hle, fun i hi hlt => ?_⟩
      rcases Nat.eq_or_lt_of_le hi with rfl | hi
      · exact hused
      · exact hrest i hi hlt

theorem findFreeSlot_none : ∀ {n start : Nat}, findFreeSlot slots start n = none →
    ∀ i, start ≤ i → i < start + n → (slots i).attachmentId ≠ 0
  | 0, _, _, i, hle, hlt => absurd hlt (Nat.not_lt.mpr hle)
  | n + 1, start, h, i, hle, hlt => by
    rw [findFreeSlot] at h
    split at h
    · cases h
    · rename_i hused
      rcases Nat.eq_or_lt_of_le hle with rfl | hle
      · exact hused
      · exact findFreeSlot_none h i hle (by omega)

theorem allocateSnapshotSlot_first (h : allocateSnapshotSlot headerSlots l = (l', slot))
    (hle : l.minFreeSlot ≤ l.slotsUsed) (hmin : ∀ i < l.minFreeSlot, l.Allocated i) :
    l'.slots = l.slots ∧ (∀ i < slot, l.Allocated i) ∧ slot ≤ l.slotsUsed ∧
    l'.slotsUsed = max l.slotsUsed (slot + 1) := by
  unfold allocateSnapshotSlot at h
  split at h
  · rename_i hfind
    obtain ⟨rfl, rfl⟩ := Prod.mk.inj h
    obtain ⟨hstart, hfirst⟩ := findFreeSlot_first hfind
    obtain ⟨-, hlt⟩ := findFreeSlot_spec hfind
    refine ⟨rfl, fun i hi => ?_, by omega, by omega⟩
    by_cases hbelow : i < l.minFreeSlot
    · exact hmin i hbelow
    · exact hfirst i (Nat.not_lt.mp hbelow) hi
  · rename_i hfind
    have hall : ∀ i < l.slotsUsed, l.Allocated i := by
      intro i hi
      by_cases hbelow : i < l.minFreeSlot
      · exact hmin i hbelow
      · exact findFreeSlot_none hfind i (Nat.not_lt.mp hbelow) (by omega)
    rw [Nat.max_eq_right hle] at h
    dsimp only at h
    split at h <;>
      (obtain ⟨rfl, rfl⟩ := Prod.mk.inj h
       exact ⟨rfl, hall, Nat.le_refl _, (Nat.max_eq_right (Nat.le_succ _)).symm⟩)

theorem usedSlots_last : ∀ {n : Nat}, usedSlots slots n ≠ 0 → (slots (usedSlots slots n - 1)).attachmentId ≠ 0
  | 0, h => absurd rfl h
  | n + 1, h => by
    rw [usedSlots] at h ⊢
    split at h
    · rename_i hfree
      rw [if_pos hfree]
      exact usedSlots_last h
    · rename_i hused
      rw [if_neg hused]
      exact hused

/-! ### The calls -/

theorem Inv.minFreeSlot_le (h : Inv s) : s.cache.snapshotList.minFreeSlot ≤ s.cache.snapshotList.slotsUsed := by
  by_contra hlt
  exact absurd (h.used _ (h.minFreeSlot _ (Nat.not_le.mp hlt))) (Nat.lt_irrefl _)

theorem Inv.start {c : TipCache} (hc : Fresh c) : Inv (start c) := by
  refine ⟨nodup_nil, nofun, fun i hi => absurd hi (hc.slots i), fun i hi => ?_, fun i hi => absurd hi (hc.slots i),
    fun hne => absurd hc.slotsUsed hne⟩
  rw [show (SlotSystem.start c).cache.snapshotList.minFreeSlot = 0 from hc.minFreeSlot] at hi
  exact absurd hi (Nat.not_lt_zero i)

theorem Inv.begin {cache : TipCache} {att : AttNumber} {cn cn' : CommitNumber} (h : Inv s) (hatt : att ≠ 0)
    (hbegin : s.cache.beginSnapshot headerSlots att cn = .ok (cache, slot, cn')) :
    Inv ⟨cache, ⟨slot, att, cn'⟩ :: s.live⟩ := by
  have hspec := beginSnapshot_spec hbegin
  have hmarks : (∀ i < slot, s.cache.snapshotList.Allocated i) ∧ slot ≤ s.cache.snapshotList.slotsUsed ∧
      cache.snapshotList.slotsUsed = max s.cache.snapshotList.slotsUsed (slot + 1) ∧
      cache.snapshotList.minFreeSlot = slot + 1 := by
    unfold TipCache.beginSnapshot at hbegin
    split at hbegin
    · cases hbegin
    · cases hal : allocateSnapshotSlot headerSlots s.cache.snapshotList with
      | mk l slot' =>
        rw [hal] at hbegin
        cases hbegin
        obtain ⟨-, hbelow, hle, hused⟩ := allocateSnapshotSlot_first hal h.minFreeSlot_le h.minFreeSlot
        exact ⟨hbelow, hle, hused, rfl⟩
  obtain ⟨hbelow, hle, hused, hmin⟩ := hmarks
  have hfree : ¬s.cache.snapshotList.Allocated slot :=
    hspec.free.elim id fun hge hslot => absurd (h.used _ hslot) (Nat.not_lt.mpr hge)
  have hself : cache.snapshotList.Allocated slot := by
    unfold SnapshotList.Allocated
    rw [hspec.slots, update_self]
    exact hatt
  have hother : ∀ i, i ≠ slot → (cache.snapshotList.Allocated i ↔ s.cache.snapshotList.Allocated i) := by
    intro i hne
    unfold SnapshotList.Allocated
    rw [hspec.slots, update_of_ne hne]
  have hnew : ∀ l ∈ s.live, l.handle ≠ slot := by
    rintro l hl rfl
    obtain ⟨hslot, hne⟩ := h.slots l hl
    exact hfree (by unfold SnapshotList.Allocated; rw [hslot]; exact hne)
  constructor
  case distinct =>
    refine nodup_cons.mpr ⟨fun hmem => ?_, h.distinct⟩
    obtain ⟨l, hl, heq⟩ := mem_map.mp hmem
    exact hnew l hl heq
  case slots =>
    intro l hl
    rcases mem_cons.mp hl with rfl | hl
    · exact ⟨by rw [hspec.slots, update_self], hatt⟩
    · rw [hspec.slots, update_of_ne (hnew l hl)]
      exact h.slots l hl
  case live =>
    intro i hi
    by_cases hne : i = slot
    · exact ⟨_, mem_cons_self .., hne.symm⟩
    · obtain ⟨l, hl, heq⟩ := h.live i ((hother i hne).mp hi)
      exact ⟨l, mem_cons_of_mem _ hl, heq⟩
  case minFreeSlot =>
    intro i hi
    rw [hmin] at hi
    rcases Nat.eq_or_lt_of_le (Nat.le_of_lt_succ hi) with rfl | hlt
    · exact hself
    · exact (hother i (Nat.ne_of_lt hlt)).mpr (hbelow i hlt)
  case used =>
    intro i hi
    by_cases hne : i = slot
    · lia
    · have hlt := h.used i ((hother i hne).mp hi)
      lia
  case last =>
    intro hne
    rw [hused]
    by_cases hlast : s.cache.snapshotList.slotsUsed ≤ slot
    · have heq : max s.cache.snapshotList.slotsUsed (slot + 1) - 1 = slot := by lia
      rw [heq]
      exact hself
    · have heq : max s.cache.snapshotList.slotsUsed (slot + 1) - 1 = s.cache.snapshotList.slotsUsed - 1 := by lia
      rw [heq]
      by_cases hslot : s.cache.snapshotList.slotsUsed - 1 = slot
      · rw [hslot]
        exact hself
      · exact (hother _ hslot).mpr (h.last (by lia))

theorem Inv.endSnapshot_eq {l : LiveSnapshot} (h : Inv s) (hl : l ∈ s.live) :
    ∃ cache, s.cache.endSnapshot l.handle l.attachmentId = .ok cache ∧
      cache.snapshotList = deallocateSnapshotSlot s.cache.snapshotList l.handle := by
  obtain ⟨hslot, hne⟩ := h.slots l hl
  have hused : l.handle < s.cache.snapshotList.slotsUsed :=
    h.used _ (by unfold SnapshotList.Allocated; rw [hslot]; exact hne)
  have hend : s.cache.endSnapshot l.handle l.attachmentId = .ok { s.cache with
      snapshotList := deallocateSnapshotSlot s.cache.snapshotList l.handle
      header := { s.cache.header with
        snapshotReleaseCount := (s.cache.header.snapshotReleaseCount + 1) % ulongSize } } := by
    unfold TipCache.endSnapshot
    rw [if_neg (Nat.not_le.mpr hused), if_neg (by rw [hslot]; exact fun hne => hne rfl)]
  exact ⟨_, hend, rfl⟩

theorem Inv.finish {cache : TipCache} {l : LiveSnapshot} (h : Inv s)
    (hcache : cache.snapshotList = deallocateSnapshotSlot s.cache.snapshotList l.handle) :
    Inv ⟨cache, s.live.filter (·.handle ≠ l.handle)⟩ := by
  have hslots : cache.snapshotList.slots = update s.cache.snapshotList.slots l.handle ⟨0, 0⟩ := by rw [hcache]; rfl
  have hself : ¬cache.snapshotList.Allocated l.handle := by
    unfold SnapshotList.Allocated
    rw [hslots, update_self]
    exact fun hne => hne rfl
  have hother : ∀ i, i ≠ l.handle → (cache.snapshotList.Allocated i ↔ s.cache.snapshotList.Allocated i) := by
    intro i hne
    unfold SnapshotList.Allocated
    rw [hslots, update_of_ne hne]
  have hfiltered : ∀ l', l' ∈ s.live.filter (·.handle ≠ l.handle) ↔ l' ∈ s.live ∧ l'.handle ≠ l.handle := by
    intro l'
    rw [mem_filter, decide_eq_true_iff]
  have hmin : cache.snapshotList.minFreeSlot = min s.cache.snapshotList.minFreeSlot l.handle := by rw [hcache]; rfl
  have hused : cache.snapshotList.slotsUsed = if l.handle + 1 = s.cache.snapshotList.slotsUsed then
      usedSlots cache.snapshotList.slots l.handle else s.cache.snapshotList.slotsUsed := by
    rw [hcache]
    rfl
  constructor
  case distinct => exact h.distinct.sublist (filter_sublist.map _)
  case slots =>
    intro l' hl'
    obtain ⟨hmem, hne⟩ := (hfiltered l').mp hl'
    rw [hslots, update_of_ne hne]
    exact h.slots l' hmem
  case live =>
    intro i hi
    have hne : i ≠ l.handle := fun heq => hself (heq ▸ hi)
    obtain ⟨l', hl', rfl⟩ := h.live i ((hother i hne).mp hi)
    exact ⟨l', (hfiltered l').mpr ⟨hl', hne⟩, rfl⟩
  case minFreeSlot =>
    intro i hi
    exact (hother i (by lia)).mpr (h.minFreeSlot i (by lia))
  case used =>
    intro i hi
    have hne : i ≠ l.handle := fun heq => hself (heq ▸ hi)
    have hlt := h.used i ((hother i hne).mp hi)
    rw [hused]
    split
    · exact lt_usedSlots (by lia) hi
    · exact hlt
  case last =>
    intro hne
    rw [hused] at hne ⊢
    split at hne
    · rename_i hlast
      rw [if_pos hlast]
      exact usedSlots_last hne
    · rename_i hlast
      rw [if_neg hlast]
      exact (hother _ (by lia)).mpr (h.last hne)

theorem Inv.step {call : SlotCall} (h : Inv s) (hs : Step headerSlots s call t) : Inv t := by
  obtain ⟨hallowed, rfl⟩ := hs
  cases call with
  | begin att cn =>
    show Inv (match s.cache.beginSnapshot headerSlots att cn with
      | .ok (cache, handle, snapshot) => ⟨cache, ⟨handle, att, snapshot⟩ :: s.live⟩
      | .error _ => s)
    cases hbegin : s.cache.beginSnapshot headerSlots att cn with
    | error e => exact h
    | ok result => exact h.begin hallowed hbegin
  | finish handle att =>
    obtain ⟨l, hl, rfl, rfl⟩ := hallowed
    obtain ⟨cache, hend, hcache⟩ := h.endSnapshot_eq hl
    show Inv (match s.cache.endSnapshot l.handle l.attachmentId with
      | .ok cache => ⟨cache, s.live.filter (·.handle ≠ l.handle)⟩
      | .error _ => s)
    rw [hend]
    exact h.finish hcache
  | commit latest => exact ⟨h.distinct, h.slots, h.live, h.minFreeSlot, h.used, h.last⟩

theorem snapshot_slots {c : TipCache} (hc : Fresh c) {calls : List SlotCall}
    (hrun : Run (Step headerSlots) (SlotSystem.start c) calls s) : (s.live.map (·.handle)).Nodup ∧
    (∀ l ∈ s.live, s.cache.snapshotList.slots l.handle = ⟨l.attachmentId, l.snapshot⟩) ∧
    (∀ i < s.cache.snapshotList.minFreeSlot, ∃ l ∈ s.live, l.handle = i) ∧
    ((s.live = [] ∧ s.cache.snapshotList.slotsUsed = 0) ∨
      ∃ l ∈ s.live, s.cache.snapshotList.slotsUsed = l.handle + 1 ∧ ∀ l' ∈ s.live, l'.handle ≤ l.handle) ∧
    ∀ l ∈ s.live, ∃ cache, s.cache.endSnapshot l.handle l.attachmentId = .ok cache := by
  have h : Inv s := hrun.invariant (fun _ _ _ h hs => h.step hs) (Inv.start hc)
  have hallocated : ∀ l ∈ s.live, s.cache.snapshotList.Allocated l.handle := by
    intro l hl
    obtain ⟨hslot, hne⟩ := h.slots l hl
    unfold SnapshotList.Allocated
    rw [hslot]
    exact hne
  refine ⟨h.distinct, fun l hl => (h.slots l hl).1, fun i hi => h.live i (h.minFreeSlot i hi), ?_, fun l hl => ?_⟩
  · by_cases hzero : s.cache.snapshotList.slotsUsed = 0
    · refine .inl ⟨eq_nil_iff_forall_not_mem.mpr fun l hl => ?_, hzero⟩
      have hlt := h.used _ (hallocated l hl)
      lia
    · obtain ⟨l, hl, hlast⟩ := h.live _ (h.last hzero)
      refine .inr ⟨l, hl, by lia, fun l' hl' => ?_⟩
      have hlt := h.used _ (hallocated l' hl')
      lia
  · obtain ⟨cache, hend, -⟩ := h.endSnapshot_eq hl
    exact ⟨cache, hend⟩

def slotCalls : List SlotCall := [.begin 1 0, .begin 2 0, .finish 0 1]

theorem fresh_emptyCache : Fresh SnapshotSystem.emptyCache := ⟨fun _ hslot => hslot rfl, rfl, rfl⟩

theorem allAllowed_slotCalls : AllAllowed Allowed (exec 1) (SlotSystem.start SnapshotSystem.emptyCache) slotCalls := by
  refine ⟨?_, ?_, ⟨⟨0, 1, _⟩, mem_cons_of_mem _ (mem_cons_self ..), rfl, rfl⟩, trivial⟩
  · show 1 ≠ 0
    decide
  · show 2 ≠ 0
    decide

theorem snapshot_slots_slotCalls :
    ∃ cache, (slotCalls.foldl (exec 1) (SlotSystem.start SnapshotSystem.emptyCache)).cache.endSnapshot 1 2 =
    .ok cache :=
  (snapshot_slots fresh_emptyCache (run_of_allAllowed allAllowed_slotCalls)).2.2.2.2 ⟨1, 2, _⟩ (.head _)

end SlotSystem
end Firebird.Tpc
