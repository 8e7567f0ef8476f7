import Firebird.Tpc.States

/-! # Lists of active snapshots

The cache with the `ActiveSnapshots` of its attachments, each call taken as atomic. -/

namespace Firebird.Tpc

open Lib Function

def SnapshotList.Allocated (l : SnapshotList) (slot : SnapshotHandle) : Prop := (l.slots slot).attachmentId ≠ 0

namespace TipCache

variable {c : TipCache} {l : SnapshotList} {slots : Nat → SnapshotData}
  {dead : AttNumber → Bool} {i n headerSlots : Nat}

/-! ### Slots -/

theorem findFreeSlot_spec : ∀ {n start slot : Nat}, findFreeSlot slots start n = some slot →
    (slots slot).attachmentId = 0 ∧ slot < start + n
  | 0, _, _, h => by cases h
  | n + 1, start, slot, h => by
    rw [findFreeSlot] at h
    split at h
    · rename_i hfree
      cases h
      exact ⟨hfree, by lia⟩
    · obtain ⟨hfree, hlt⟩ := findFreeSlot_spec h
      exact ⟨hfree, by lia⟩

theorem allocateSnapshotSlot_spec {l' : SnapshotList} {slot : SnapshotHandle}
    (h : allocateSnapshotSlot headerSlots l = (l', slot)) :
    l'.slots = l.slots ∧ l.slotsUsed ≤ l'.slotsUsed ∧ slot < l'.slotsUsed ∧
      ((l.slots slot).attachmentId = 0 ∨ l.slotsUsed ≤ slot) := by
  unfold allocateSnapshotSlot at h
  split at h
  · rename_i hfind
    cases h
    obtain ⟨hfree, hlt⟩ := findFreeSlot_spec hfind
    by_contra hge
    have hn : l.slotsUsed - l.minFreeSlot = 0 := by lia
    rw [hn] at hfind
    cases hfind
  · dsimp only at h
    split at h <;> cases h <;>
      exact ⟨rfl, (le_max_right _ _).trans (Nat.le_succ _), Nat.lt_succ_self _, .inr (le_max_right _ _)⟩

theorem lt_usedSlots : ∀ {n : Nat}, i < n → (slots i).attachmentId ≠ 0 → i < usedSlots slots n
  | 0, hi, _ => absurd hi (Nat.not_lt_zero _)
  | n + 1, hi, hused => by
    rw [usedSlots]
    split
    · rename_i hfree
      have hne : i ≠ n := fun he => hused (he ▸ hfree)
      exact lt_usedSlots (by lia) hused
    · exact hi

theorem snapshotExists_iff {cn : CommitNumber} : snapshotExists l cn = true ↔
    ∃ slot < l.slotsUsed, l.Allocated slot ∧ (l.slots slot).snapshot = cn := by
  simp [snapshotExists, SnapshotList.Allocated]

structure BeginSnapshot (c c' : TipCache) (att : AttNumber) (cn : CommitNumber) (slot : SnapshotHandle)
    (cn' : CommitNumber) : Prop where
  perBlock : c'.transactionsPerBlock = c.transactionsPerBlock
  header : c'.header = c.header
  blocks : c'.blocks = c.blocks
  blocksMemory : c'.blocksMemory = c.blocksMemory
  slots : c'.snapshotList.slots = Function.update c.snapshotList.slots slot { attachmentId := att, snapshot := cn' }
  used : c.snapshotList.slotsUsed ≤ c'.snapshotList.slotsUsed ∧ slot < c'.snapshotList.slotsUsed
  free : ¬c.snapshotList.Allocated slot ∨ c.snapshotList.slotsUsed ≤ slot
  number : (cn = 0 ∧ cn' = c.header.latestCommitNumber) ∨
    (cn ≠ 0 ∧ cn' = cn ∧ ∃ i < c.snapshotList.slotsUsed,
      c.snapshotList.Allocated i ∧ (c.snapshotList.slots i).snapshot = cn)

theorem beginSnapshot_spec {c' : TipCache} {att : AttNumber} {cn cn' : CommitNumber} {slot : SnapshotHandle}
    (h : c.beginSnapshot headerSlots att cn = .ok (c', slot, cn')) : BeginSnapshot c c' att cn slot cn' := by
  unfold beginSnapshot at h
  split at h
  · cases h
  · rename_i hexists
    cases hal : allocateSnapshotSlot headerSlots c.snapshotList with
    | mk l slot' =>
      rw [hal] at h
      cases h
      obtain ⟨hslots, hle, hlt, hfree⟩ := allocateSnapshotSlot_spec hal
      refine ⟨rfl, rfl, rfl, rfl, by simp only [hslots], ⟨hle, hlt⟩, hfree.imp_left not_not.mpr, ?_⟩
      by_cases hcn : cn = 0
      · exact .inl ⟨hcn, if_pos hcn⟩
      · have hex : snapshotExists c.snapshotList cn = true := by
          simpa [hcn] using hexists
        exact .inr ⟨hcn, if_neg hcn, snapshotExists_iff.mp hex⟩

structure EndSnapshot (c c' : TipCache) (att : AttNumber) (slot : SnapshotHandle) : Prop where
  perBlock : c'.transactionsPerBlock = c.transactionsPerBlock
  latest : c'.header.latestCommitNumber = c.header.latestCommitNumber
  oldest : c'.header.oldestTransaction = c.header.oldestTransaction
  blocks : c'.blocks = c.blocks
  blocksMemory : c'.blocksMemory = c.blocksMemory
  attachment : (c.snapshotList.slots slot).attachmentId = att
  slots : c'.snapshotList.slots = Function.update c.snapshotList.slots slot { attachmentId := 0, snapshot := 0 }
  used : ∀ i < c.snapshotList.slotsUsed, c'.snapshotList.Allocated i → i < c'.snapshotList.slotsUsed

theorem endSnapshot_spec {c' : TipCache} {att : AttNumber} {slot : SnapshotHandle}
    (h : c.endSnapshot slot att = .ok c') : EndSnapshot c c' att slot := by
  unfold endSnapshot at h
  split at h
  · cases h
  · split at h
    · cases h
    · rename_i hatt
      cases h
      refine ⟨rfl, rfl, rfl, rfl, rfl, not_not.mp hatt, rfl, fun i hi hused => ?_⟩
      simp only [deallocateSnapshotSlot]
      split
      · have hne : i ≠ slot := fun he => by
          subst he
          simp [SnapshotList.Allocated, deallocateSnapshotSlot] at hused
        exact lt_usedSlots (by lia) hused
      · exact hi

theorem mem_collectSnapshots {s : CommitNumber} : ∀ {n : Nat}, s ∈ collectSnapshots slots n ↔
    ∃ i < n, (slots i).attachmentId ≠ 0 ∧ (slots i).snapshot ≠ 0 ∧ (slots i).snapshot = s
  | 0 => by simp [collectSnapshots]
  | n + 1 => by
    rw [collectSnapshots]
    constructor
    · intro h
      split at h
      · rename_i hused
        rcases Finset.mem_insert.mp h with rfl | h
        · exact ⟨n, Nat.lt_succ_self n, hused.1, hused.2, rfl⟩
        · obtain ⟨i, hi, hs⟩ := mem_collectSnapshots.mp h
          exact ⟨i, hi.trans (Nat.lt_succ_self n), hs⟩
      · obtain ⟨i, hi, hs⟩ := mem_collectSnapshots.mp h
        exact ⟨i, hi.trans (Nat.lt_succ_self n), hs⟩
    · rintro ⟨i, hi, hatt, hne, rfl⟩
      rcases Nat.lt_succ_iff_lt_or_eq.mp hi with hlt | rfl
      · have hmem := mem_collectSnapshots.mpr ⟨i, hlt, hatt, hne, rfl⟩
        split
        · exact Finset.mem_insert_of_mem hmem
        · exact hmem
      · rw [if_pos ⟨hatt, hne⟩]
        exact Finset.mem_insert_self _ _

theorem releaseDeadSlots_eq (hlive : ∀ i, (l.slots i).attachmentId ≠ 0 → dead (l.slots i).attachmentId = false) :
    ∀ n, releaseDeadSlots dead l n = l
  | 0 => rfl
  | n + 1 => by
    rw [releaseDeadSlots, releaseDeadSlots_eq hlive n]
    refine if_neg fun ⟨hused, hdead⟩ => ?_
    rw [hlive n hused] at hdead
    cases hdead

theorem locateGreatEqual_le {snapshots : Finset CommitNumber} {key s : CommitNumber} (hs : s ∈ snapshots)
    (hkey : key ≤ s) : ∃ t, locateGreatEqual snapshots key = some t ∧ t ≤ s := by
  have hmem : s ∈ snapshots.filter (key ≤ ·) := Finset.mem_filter.mpr ⟨hs, hkey⟩
  exact ⟨_, dif_pos ⟨s, hmem⟩, Finset.min'_le _ s hmem⟩

theorem getSnapshotForVersion_le {a : ActiveSnapshots} {v s : CommitNumber} (hs : s ∈ a.snapshots) (hv : v ≤ s)
    (hlast : s < a.lastCommit) : a.getSnapshotForVersion v ≤ s := by
  obtain ⟨t, hloc, hle⟩ := locateGreatEqual_le hs hv
  have hlt : ¬a.lastCommit < v := by lia
  rw [ActiveSnapshots.getSnapshotForVersion, if_neg hlt, hloc]
  exact hle

end TipCache

open TipCache

/-- The cache and the lists of snapshots, with the slots taken since each list was last filled by a
    scan: a history that no call reads. -/
structure SnapshotSystem where
  cache : TipCache
  lists : Nat → ActiveSnapshots
  begunSince : Nat → Finset SnapshotHandle

inductive SnapshotCall
  | setState (proc : Process) (number : TraNumber) (state : TraState)
  | beginSnapshot (attachmentId : AttNumber) (commitNumber : CommitNumber)
  | endSnapshot (handle : SnapshotHandle) (attachmentId : AttNumber)
  | updateActiveSnapshots (list : Nat)

def Rescans (c : TipCache) (a : ActiveSnapshots) : Prop :=
  a.lastCommit = cnActive ∨
    ¬(a.releaseCount = c.header.snapshotReleaseCount ∧ a.slotsUsed = c.snapshotList.slotsUsed)

instance (c : TipCache) (a : ActiveSnapshots) : Decidable (Rescans c a) := inferInstanceAs (Decidable (_ ∨ _))

namespace SnapshotSystem

variable {dead : AttNumber → Bool} {headerSlots : Nat} {s t : SnapshotSystem} {call : SnapshotCall}
  {calls : List SnapshotCall} {slot : SnapshotHandle} {list : Nat}

def start (c : TipCache) : SnapshotSystem := { cache := c, lists := fun _ => .empty, begunSince := fun _ => ∅ }

def update (dead : AttNumber → Bool) (s : SnapshotSystem) (list : Nat) : SnapshotSystem :=
  let (cache, a) := updateActiveSnapshots dead s.cache (s.lists list)
  { cache
    lists := Function.update s.lists list a
    begunSince :=
      if Rescans s.cache (s.lists list) then Function.update s.begunSince list ∅ else s.begunSince }

def exec (headerSlots : Nat) (dead : AttNumber → Bool) (s : SnapshotSystem) :
    SnapshotCall → Except TpcError SnapshotSystem
  | .setState proc number state =>
    match s.cache.setState proc number state with
    | .ok (cache, _) => .ok { s with cache }
    | .error e => .error e
  | .beginSnapshot attachmentId commitNumber =>
    match s.cache.beginSnapshot headerSlots attachmentId commitNumber with
    | .ok (cache, slot, _) => .ok { s with cache, begunSince := fun list => insert slot (s.begunSince list) }
    | .error e => .error e
  | .endSnapshot handle attachmentId =>
    match s.cache.endSnapshot handle attachmentId with
    | .ok cache => .ok { s with cache }
    | .error e => .error e
  | .updateActiveSnapshots list => .ok (s.update dead list)

/-- Calls of live attachments, on transactions that have a number. -/
def Allowed (dead : AttNumber → Bool) : SnapshotCall → Prop
  | .setState _ number _ => number ≤ maxTraNumber
  | .beginSnapshot attachmentId _ => attachmentId ≠ 0 ∧ dead attachmentId = false
  | _ => True

instance : DecidablePred (Allowed dead) := fun call => by
  cases call <;> unfold Allowed <;> infer_instance

def Step (headerSlots : Nat) (dead : AttNumber → Bool) : SnapshotSystem → SnapshotCall → SnapshotSystem → Prop :=
  Steps (fun _ => Allowed dead) (exec headerSlots dead)

/-- Every allocated snapshot below the list's last commit is in the list. -/
def Listed (s : SnapshotSystem) (list : Nat) : Prop :=
  ∀ slot, s.cache.snapshotList.Allocated slot →
    (s.cache.snapshotList.slots slot).snapshot < (s.lists list).lastCommit →
    (s.cache.snapshotList.slots slot).snapshot ∈ (s.lists list).snapshots

/-- No version that an allocated snapshot can see is kept for a later snapshot. -/
def KeptForAllocated (s : SnapshotSystem) (list : Nat) : Prop :=
  ∀ v slot, s.cache.snapshotList.Allocated slot → v ≤ (s.cache.snapshotList.slots slot).snapshot →
    (s.cache.snapshotList.slots slot).snapshot < (s.lists list).lastCommit →
    (s.lists list).getSnapshotForVersion v ≤ (s.cache.snapshotList.slots slot).snapshot

/-- A snapshot begun since the list's last scan, still allocated, is not below the latest commit or
    has the number of a listed one. -/
def NewSnapshotsCovered (s : SnapshotSystem) (list : Nat) : Prop :=
  ∀ slot ∈ s.begunSince list, s.cache.snapshotList.Allocated slot →
    (s.cache.snapshotList.slots slot).snapshot < s.cache.header.latestCommitNumber →
    (s.cache.snapshotList.slots slot).snapshot ∈ (s.lists list).snapshots

theorem Listed.kept (h : s.Listed list) : s.KeptForAllocated list := fun _ slot hslot hv hlast =>
  getSnapshotForVersion_le (h slot hslot hlast) hv hlast

/-! ### The invariant -/

structure Inv (dead : AttNumber → Bool) (s : SnapshotSystem) : Prop where
  wf : Wf s.cache
  allocated : ∀ slot, s.cache.snapshotList.Allocated slot →
    slot < s.cache.snapshotList.slotsUsed ∧ (s.cache.snapshotList.slots slot).snapshot ≠ 0 ∧
      dead (s.cache.snapshotList.slots slot).attachmentId = false
  scanned : ∀ list, (s.lists list).lastCommit ≠ cnActive → ∀ slot, s.cache.snapshotList.Allocated slot →
    slot ∉ s.begunSince list → (s.cache.snapshotList.slots slot).snapshot ∈ (s.lists list).snapshots

theorem updateActiveSnapshots_eq (list : Nat) (h : Inv dead s) :
    (updateActiveSnapshots dead s.cache (s.lists list)).1 = s.cache ∧
    (updateActiveSnapshots dead s.cache (s.lists list)).2.lastCommit = s.cache.header.latestCommitNumber ∧
    (updateActiveSnapshots dead s.cache (s.lists list)).2.snapshots =
      if Rescans s.cache (s.lists list) then
        collectSnapshots s.cache.snapshotList.slots s.cache.snapshotList.slotsUsed
      else (s.lists list).snapshots := by
  have hrel := releaseDeadSlots_eq (fun i hi => (h.allocated i hi).2.2) s.cache.snapshotList.slotsUsed
  unfold updateActiveSnapshots
  by_cases hact : (s.lists list).lastCommit = cnActive
  · have hre : Rescans s.cache (s.lists list) := .inl hact
    simp only [if_pos hact, if_pos hre, hrel, and_self]
  · simp only [if_neg hact]
    split
    · rename_i hsame
      have hre : ¬Rescans s.cache (s.lists list) := fun hre => hre.elim hact fun hne => hne hsame
      simp only [if_neg hre, and_self]
    · rename_i hne
      have hre : Rescans s.cache (s.lists list) := .inr hne
      simp only [if_pos hre, and_self]

theorem Inv.mem_collect (h : Inv dead s) (hslot : s.cache.snapshotList.Allocated slot) :
    (s.cache.snapshotList.slots slot).snapshot ∈
      collectSnapshots s.cache.snapshotList.slots s.cache.snapshotList.slotsUsed :=
  have ⟨hlt, hne, _⟩ := h.allocated slot hslot
  mem_collectSnapshots.mpr ⟨slot, hlt, hslot, hne, rfl⟩

theorem Inv.setState {cache : TipCache} {proc : Process} {number : TraNumber} {state : TraState} {cn : CommitNumber}
    (h : Inv dead s) (hn : number ≤ maxTraNumber) (hs : s.cache.setState proc number state = .ok (cache, cn)) :
    Inv dead { s with cache } := by
  have hlist : cache.snapshotList = s.cache.snapshotList := by
    obtain ⟨c₁, hatt, -, hcase⟩ := setState_cases hs
    rw [← hatt.snapshotList]
    cases hcase <;> rfl
  refine ⟨h.wf.setState hn hs, ?_, ?_⟩
  · rw [hlist]
    exact h.allocated
  · rw [hlist]
    exact h.scanned

theorem Inv.beginSnapshot {cache : TipCache} {att : AttNumber} {cn cn' : CommitNumber} (h : Inv dead s)
    (hatt : dead att = false) (hs : s.cache.beginSnapshot headerSlots att cn = .ok (cache, slot, cn')) :
    Inv dead { s with cache, begunSince := fun list => insert slot (s.begunSince list) } := by
  have hb := beginSnapshot_spec hs
  refine ⟨h.wf.congr hb.perBlock hb.blocks hb.blocksMemory (by rw [hb.header]) (by rw [hb.header]), fun i hi => ?_,
    fun list hl i hi hnew => ?_⟩
  · by_cases hislot : i = slot
    · subst hislot
      simp only [hb.slots, update_self]
      refine ⟨hb.used.2, ?_, hatt⟩
      rcases hb.number with ⟨-, rfl⟩ | ⟨hne, rfl, -⟩
      · exact Nat.one_le_iff_ne_zero.mp h.wf.latest_bound.1
      · exact hne
    · simp only [SnapshotList.Allocated, hb.slots, update_of_ne hislot] at hi ⊢
      obtain ⟨hu, hne⟩ := h.allocated i hi
      exact ⟨hu.trans_le hb.used.1, hne⟩
  · have hislot : i ≠ slot := fun he => hnew (he ▸ Finset.mem_insert_self _ _)
    simp only [SnapshotList.Allocated, hb.slots, update_of_ne hislot] at hi ⊢
    exact h.scanned list hl i hi fun hmem => hnew (Finset.mem_insert_of_mem hmem)

theorem Inv.endSnapshot {cache : TipCache} {att : AttNumber} (h : Inv dead s)
    (hs : s.cache.endSnapshot slot att = .ok cache) : Inv dead { s with cache } := by
  have he := endSnapshot_spec hs
  have hne : ∀ i, cache.snapshotList.Allocated i → i ≠ slot := fun i hi hislot => by
    subst hislot
    simp [SnapshotList.Allocated, he.slots] at hi
  refine ⟨h.wf.congr he.perBlock he.blocks he.blocksMemory he.latest he.oldest.ge, fun i hi => ?_,
    fun list hl i hi hnew => ?_⟩
  · have hold : s.cache.snapshotList.Allocated i := by
      simpa only [SnapshotList.Allocated, he.slots, update_of_ne (hne i hi)] using hi
    obtain ⟨hu, hs⟩ := h.allocated i hold
    refine ⟨he.used i hu hi, ?_⟩
    simpa only [he.slots, update_of_ne (hne i hi)] using hs
  · have hislot := hne i hi
    simp only [SnapshotList.Allocated, he.slots, update_of_ne hislot] at hi ⊢
    exact h.scanned list hl i hi hnew

theorem update_cache (h : Inv dead s) : (s.update dead list).cache = s.cache := (updateActiveSnapshots_eq list h).1

theorem update_lists_self (list : Nat) (h : Inv dead s) :
    ((s.update dead list).lists list).lastCommit = s.cache.header.latestCommitNumber ∧
    ((s.update dead list).lists list).snapshots =
      if Rescans s.cache (s.lists list) then
        collectSnapshots s.cache.snapshotList.slots s.cache.snapshotList.slotsUsed
      else (s.lists list).snapshots := by
  have h' := (updateActiveSnapshots_eq list h).2
  simpa [update] using h'

theorem Inv.update (h : Inv dead s) : Inv dead (s.update dead list) := by
  refine ⟨?_, ?_, fun list' hl i hi hnew => ?_⟩
  · rw [update_cache h]
    exact h.wf
  · rw [update_cache h]
    exact h.allocated
  · rw [update_cache h] at hi ⊢
    by_cases hlist : list' = list
    · subst hlist
      rw [(update_lists_self list' h).2]
      split
      · exact h.mem_collect hi
      · rename_i hre
        have hact : (s.lists list').lastCommit ≠ cnActive := fun hact => hre (.inl hact)
        refine h.scanned list' hact i hi ?_
        simpa [SnapshotSystem.update, hre] using hnew
    · simp only [SnapshotSystem.update, update_of_ne hlist] at hl hnew ⊢
      refine h.scanned list' hl i hi ?_
      split at hnew
      · rwa [update_of_ne hlist] at hnew
      · exact hnew

theorem Inv.step (h : Inv dead s) (hs : Step headerSlots dead s call t) : Inv dead t := by
  obtain ⟨hallowed, hexec⟩ := hs
  cases call with
  | setState proc number state =>
    simp only [exec] at hexec
    split at hexec
    · rename_i hset
      cases hexec
      exact h.setState hallowed hset
    · cases hexec
  | beginSnapshot att cn =>
    simp only [exec] at hexec
    split at hexec
    · rename_i hbegin
      cases hexec
      exact h.beginSnapshot hallowed.2 hbegin
    · cases hexec
  | endSnapshot handle att =>
    simp only [exec] at hexec
    split at hexec
    · rename_i hend
      cases hexec
      exact h.endSnapshot hend
    · cases hexec
  | updateActiveSnapshots list =>
    cases hexec
    exact h.update

theorem Inv.start {c : TipCache} (h : Initialized c) : Inv dead (start c) where
  wf := h.wf
  allocated slot hslot := absurd (h.noSnapshot slot) hslot
  scanned _ hl := absurd rfl hl

theorem Inv.listed_update_iff (h : Inv dead s) :
    (s.update dead list).Listed list ↔ Rescans s.cache (s.lists list) ∨ s.NewSnapshotsCovered list := by
  obtain ⟨hlast, hsnap⟩ := update_lists_self list h
  unfold Listed
  rw [update_cache h, hlast, hsnap]
  constructor
  · intro hlisted
    by_cases hre : Rescans s.cache (s.lists list)
    · exact .inl hre
    · rw [if_neg hre] at hlisted
      exact .inr fun slot _ hslot hlt => hlisted slot hslot hlt
  · rintro hcond slot hslot hlt
    by_cases hre : Rescans s.cache (s.lists list)
    · rw [if_pos hre]
      exact h.mem_collect hslot
    · rw [if_neg hre]
      have hact : (s.lists list).lastCommit ≠ cnActive := fun hact => hre (.inl hact)
      by_cases hnew : slot ∈ s.begunSince list
      · exact (hcond.resolve_left hre) slot hnew hslot hlt
      · exact h.scanned list hact slot hslot hnew

/-- In every run of live attachments from a fresh cache, an update of a list leaves every allocated snapshot below its
    last commit in it exactly when it scans the slots or no snapshot begun since its last scan is left out of it. -/
theorem updateActiveSnapshots_misses_none_iff {c : TipCache} (hc : Initialized c)
    (hrun : Run (Step headerSlots dead) (start c) calls s) (list : Nat) :
    ((s.update dead list).Listed list ∧ (s.update dead list).KeptForAllocated list) ↔
      Rescans s.cache (s.lists list) ∨ s.NewSnapshotsCovered list := by
  have h : Inv dead s := hrun.invariant (fun _ _ _ => Inv.step) (Inv.start hc)
  rw [← h.listed_update_iff]
  exact ⟨fun hboth => hboth.1, fun hlisted => ⟨hlisted, hlisted.kept⟩⟩

def emptyCache : TipCache where
  transactionsPerBlock := 1024
  transactionsPerBlock_pos := by decide
  header := { latestCommitNumber := cnPrehistoric, oldestTransaction := 1, snapshotReleaseCount := 0 }
  snapshotList :=
    { slotsAllocated := 16, slotsUsed := 0, minFreeSlot := 0, slots := fun _ => { attachmentId := 0, snapshot := 0 } }
  blocks _ := none
  blocksMemory _ _ := false

theorem initialized_emptyCache : Initialized emptyCache where
  mapped _ _ h := nomatch h
  states _ := .inl rfl
  latest := rfl
  noSnapshot _ := rfl

/-- The snapshot of slot 1 ends, the list is refreshed twice, then slot 1 is taken again. -/
def reuseCalls : List SnapshotCall :=
  [.beginSnapshot 1 0, .beginSnapshot 2 0, .beginSnapshot 3 0, .setState 0 5 .committed, .endSnapshot 1 2,
    .updateActiveSnapshots 0, .updateActiveSnapshots 0, .beginSnapshot 2 0, .setState 0 6 .committed]

theorem allowed_reuseCalls : ∀ call ∈ reuseCalls, SnapshotSystem → Allowed (fun _ => false) call :=
  fun call hcall _ => (by decide : ∀ call ∈ reuseCalls, Allowed (fun _ => false) call) call hcall

/-- The next refresh does not scan: the new snapshot of slot 1 is below the last commit, is not in
    the list, and the version it needs is kept only for a later one. -/
theorem updateActiveSnapshots_misses_reused_slot :
    ∃ s, Run (Step 1 (fun _ => false)) (start emptyCache) reuseCalls s ∧
      ¬((s.update (fun _ => false) 0).Listed 0 ∧ (s.update (fun _ => false) 0).KeptForAllocated 0) := by
  let missed (t : SnapshotSystem) : Bool := decide ((t.cache.snapshotList.slots 1).attachmentId ≠ 0 ∧
    (t.cache.snapshotList.slots 1).snapshot < (t.lists 0).lastCommit ∧
    (t.cache.snapshotList.slots 1).snapshot ∉ (t.lists 0).snapshots)
  obtain ⟨s, hrun, hs⟩ := exists_run_of_execAll (exec 1 fun _ => false) (start emptyCache) reuseCalls
    (fun s => missed (s.update (fun _ => false) 0)) allowed_reuseCalls (by decide +kernel)
  obtain ⟨hslot, hlt, hnot⟩ := of_decide_eq_true hs
  exact ⟨s, hrun, fun hboth => hnot (hboth.1 1 hslot hlt)⟩

theorem updateActiveSnapshots_misses_none_iff_reuseCalls :
    ∃ s, Run (Step 1 (fun _ => false)) (start emptyCache) reuseCalls s ∧
      (((s.update (fun _ => false) 0).Listed 0 ∧ (s.update (fun _ => false) 0).KeptForAllocated 0) ↔
        Rescans s.cache (s.lists 0) ∨ s.NewSnapshotsCovered 0) := by
  obtain ⟨s, hrun, -⟩ := exists_run_of_execAll (exec 1 fun _ => false) (start emptyCache) reuseCalls (fun _ => true)
    allowed_reuseCalls (by decide +kernel)
  exact ⟨s, hrun, updateActiveSnapshots_misses_none_iff initialized_emptyCache hrun 0⟩

end SnapshotSystem
end Firebird.Tpc
