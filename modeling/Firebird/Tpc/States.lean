import Firebird.Lib.Run
import Firebird.Tpc.TipCache

/-! # States of transactions -/

namespace Firebird.Tpc
namespace TipCache

variable {c c' c₂ : TipCache} {proc : Process} {n m : TraNumber} {b : TpcBlockNumber} {cn : CommitNumber}
  {st : TraState}

/-- The state stored for a transaction; a block without a file would be created zeroed. -/
def entry (c : TipCache) (n : TraNumber) : CommitNumber :=
  ((c.blocks (n / c.transactionsPerBlock)).map (· (n % c.transactionsPerBlock))).getD cnActive

theorem cnPrehistoric_le_cnMaxNumber : cnPrehistoric ≤ cnMaxNumber := by decide

theorem cnActive_ne_cnDead : cnActive ≠ cnDead := by decide

theorem not_isCommitted_cnActive : ¬IsCommitted cnActive := by decide

theorem not_isCommitted_cnLimbo : ¬IsCommitted cnLimbo := by decide

theorem not_isCommitted_cnDead : ¬IsCommitted cnDead := by decide

structure Attached (c c' : TipCache) : Prop where
  perBlock : c'.transactionsPerBlock = c.transactionsPerBlock
  header : c'.header = c.header
  snapshotList : c'.snapshotList = c.snapshotList
  blocks : ∀ b, c'.blocks b = c.blocks b ∨
    (c.blocks b = none ∧ c'.blocks b = some (fun _ => cnActive) ∧
      c.header.oldestTransaction / c.transactionsPerBlock ≤ b)
  mapped : (∀ p b, c.blocksMemory p b → (c.blocks b).isSome) → ∀ p b, c'.blocksMemory p b → (c'.blocks b).isSome

namespace Attached

theorem refl (c : TipCache) : Attached c c := ⟨rfl, rfl, rfl, fun _ => .inl rfl, id⟩

theorem entry_eq (h : Attached c c') (n : TraNumber) : c'.entry n = c.entry n := by
  unfold entry
  rw [h.perBlock]
  rcases h.blocks (n / c.transactionsPerBlock) with hb | ⟨hb, hb', -⟩
  · rw [hb]
  · rw [hb, hb']
    rfl

theorem none_of_lt (h : Attached c c') (hb : c.blocks b = none)
    (hlt : b < c.header.oldestTransaction / c.transactionsPerBlock) : c'.blocks b = none := by
  rcases h.blocks b with h' | ⟨-, -, hle⟩
  · rw [h', hb]
  · exact absurd hlt (not_lt.mpr hle)

end Attached

theorem attached_create (hb : c.header.oldestTransaction / c.transactionsPerBlock ≤ b) :
    Attached c (c.createTransactionStatusBlock proc b) where
  perBlock := rfl
  header := rfl
  snapshotList := rfl
  blocks b' := by
    by_cases h : b' = b
    · subst h
      cases hc : c.blocks b' with
      | none => exact .inr ⟨rfl, by simp [createTransactionStatusBlock, hc], hb⟩
      | some d => exact .inl (by simp [createTransactionStatusBlock, hc])
    · exact .inl (by simp [createTransactionStatusBlock, h])
  mapped hm p b' hp := by
    by_cases h : b' = b
    · subst h
      simp [createTransactionStatusBlock]
    · have hp' : c.blocksMemory p b' := by
        by_cases hpp : p = proc
        · subst hpp
          simpa [createTransactionStatusBlock, h] using hp
        · simpa [createTransactionStatusBlock, hpp] using hp
      simpa [createTransactionStatusBlock, h] using hm p b' hp'

theorem getTransactionStatusBlock_spec {r : Option (Nat → CommitNumber)}
    (h : c.getTransactionStatusBlock proc b = (c', r)) : Attached c c' ∧ (∀ d, r = some d → c'.blocks b = some d) := by
  unfold getTransactionStatusBlock at h
  split at h
  · cases h
    exact ⟨.refl c, fun _ => id⟩
  · split at h
    · rename_i hle
      cases h
      exact ⟨attached_create hle, fun _ => id⟩
    · cases h
      exact ⟨.refl c, fun _ h => nomatch h⟩

theorem getTransactionStatusBlock_isSome (proc : Process) (hm : ∀ p b, c.blocksMemory p b → (c.blocks b).isSome)
    (hb : c.header.oldestTransaction / c.transactionsPerBlock ≤ b) : (c.getTransactionStatusBlock proc b).2.isSome := by
  unfold getTransactionStatusBlock
  split
  · rename_i hp
    exact hm proc b hp
  · simp [createTransactionStatusBlock]

theorem store_perBlock : (c.store n cn).transactionsPerBlock = c.transactionsPerBlock := rfl

theorem store_blocks_of_ne (h : b ≠ n / c.transactionsPerBlock) : (c.store n cn).blocks b = c.blocks b := by
  simp [store, h]

theorem store_blocks_isSome (c : TipCache) (n : TraNumber) (cn : CommitNumber) (b : TpcBlockNumber) :
    ((c.store n cn).blocks b).isSome = (c.blocks b).isSome := by
  by_cases h : b = n / c.transactionsPerBlock
  · subst h
    simp [store]
  · rw [store_blocks_of_ne h]

theorem eq_of_div_mod {k : Nat} (hd : m / k = n / k) (hm : m % k = n % k) : m = n := by
  rw [← Nat.div_add_mod m k, ← Nat.div_add_mod n k, hd, hm]

theorem entry_store (hb : (c.blocks (n / c.transactionsPerBlock)).isSome) :
    (c.store n cn).entry m = if m = n then cn else c.entry m := by
  obtain ⟨d, hd⟩ := Option.isSome_iff_exists.mp hb
  by_cases hmn : m = n
  · subst hmn
    simp [entry, store, hd]
  · rw [if_neg hmn]
    unfold entry
    rw [store_perBlock]
    by_cases hblk : m / c.transactionsPerBlock = n / c.transactionsPerBlock
    · have hoff : m % c.transactionsPerBlock ≠ n % c.transactionsPerBlock := fun h => hmn (eq_of_div_mod hblk h)
      simp [store, hblk, hd, hoff]
    · rw [store_blocks_of_ne hblk]

/-- What a successful `setState` does, after it has attached the block of the transaction. -/
inductive SetState (c : TipCache) (n : TraNumber) : TraState → TipCache → CommitNumber → Prop
  /-- The transaction already has the state. -/
  | again {s : TraState} (hs : (s = .committed ∧ IsCommitted (c.entry n)) ∨ (s = .limbo ∧ c.entry n = cnLimbo) ∨
      (s = .dead ∧ c.entry n = cnDead)) : SetState c n s c (c.entry n)
  | commit (hdead : c.entry n ≠ cnDead) (hnew : ¬IsCommitted (c.entry n)) :
      SetState c n .committed
        ({ c with header := { c.header with latestCommitNumber := c.newCommitNumber } }.store n c.newCommitNumber)
        c.newCommitNumber
  | limbo (hact : c.entry n = cnActive) : SetState c n .limbo (c.store n cnLimbo) cnLimbo
  | dead (hact : c.entry n = cnActive ∨ c.entry n = cnLimbo) : SetState c n .dead (c.store n cnDead) cnDead

theorem entry_eq_of_blocks {d : Nat → CommitNumber} (h : c.blocks (n / c.transactionsPerBlock) = some d) :
    c.entry n = d (n % c.transactionsPerBlock) := by
  simp [entry, h]

theorem setState_cases (h : c.setState proc n st = .ok (c₂, cn)) :
    ∃ c₁, Attached c c₁ ∧ (c₁.blocks (n / c₁.transactionsPerBlock)).isSome ∧ SetState c₁ n st c₂ cn := by
  unfold setState at h
  split at h
  · cases h
  · rename_i c₁ data hget
    obtain ⟨hatt, hsome⟩ := getTransactionStatusBlock_spec hget
    have hblk : c₁.blocks (n / c₁.transactionsPerBlock) = some data := by
      rw [hatt.perBlock]
      exact hsome data rfl
    have hent := entry_eq_of_blocks hblk
    refine ⟨c₁, hatt, by simp [hblk], ?_⟩
    simp only [← hent] at h
    cases st with
    | committed =>
      simp only at h
      split at h
      · cases h
      · rename_i hdead
        split at h
        · rename_i hcom
          cases h
          exact .again (.inl ⟨rfl, hcom⟩)
        · rename_i hcom
          cases h
          exact .commit hdead hcom
    | limbo =>
      simp only at h
      split at h
      · rename_i hl
        cases h
        have := SetState.again (.inr (.inl ⟨rfl, hl⟩))
        rwa [hl] at this
      · split at h
        · cases h
        · rename_i hact
          cases h
          exact .limbo (not_not.mp hact)
    | dead =>
      simp only at h
      split at h
      · rename_i hl
        cases h
        have := SetState.again (.inr (.inr ⟨rfl, hl⟩))
        rwa [hl] at this
      · split at h
        · cases h
        · cases h
          exact .dead (by tauto)
    | active | us | precommitted | unknown => cases h

/-- What holds of the shared memory at every time. `done` are the transactions that took a commit number of the
    counter. -/
structure Wf (c : TipCache) : Prop where
  mapped : ∀ p b, c.blocksMemory p b → (c.blocks b).isSome
  states : ∀ n, c.entry n = cnActive ∨ c.entry n = cnLimbo ∨ c.entry n = cnDead ∨ IsCommitted (c.entry n)
  latest : ∀ n, IsCommitted (c.entry n) → c.entry n ≤ c.header.latestCommitNumber
  counter : ∃ done : Finset TraNumber, (∀ n ∈ done, n ≤ maxTraNumber) ∧
    c.header.latestCommitNumber = cnPrehistoric + done.card ∧
    ∀ n ∈ done, IsCommitted (c.entry n) ∨ (c.blocks (n / c.transactionsPerBlock) = none ∧
      n / c.transactionsPerBlock < c.header.oldestTransaction / c.transactionsPerBlock)

namespace Wf

section
variable (h : Wf c)
include h

theorem latest_bound : cnPrehistoric ≤ c.header.latestCommitNumber ∧
    c.header.latestCommitNumber ≤ cnPrehistoric + maxTraNumber + 1 := by
  obtain ⟨done, hle, hlat, -⟩ := h.counter
  have hsub : done ⊆ Finset.range (maxTraNumber + 1) := fun n hn => Finset.mem_range.mpr (Nat.lt_succ_of_le (hle n hn))
  have hcard := Finset.card_le_card hsub
  rw [Finset.card_range] at hcard
  lia

theorem newCommitNumber_eq : c.newCommitNumber = c.header.latestCommitNumber + 1 := by
  have hb := h.latest_bound.2
  apply Nat.mod_eq_of_lt
  have : cnPrehistoric + maxTraNumber + 1 + 1 < commitNumberSize := by decide
  lia

theorem isCommitted_newCommitNumber : IsCommitted c.newCommitNumber := by
  have hb := h.latest_bound
  have : cnPrehistoric + maxTraNumber + 1 + 1 ≤ cnMaxNumber := by decide
  rw [h.newCommitNumber_eq]
  constructor <;> lia

theorem attached (ha : Attached c c') : Wf c' where
  mapped := ha.mapped h.mapped
  states n := by
    rw [ha.entry_eq]
    exact h.states n
  latest n hn := by
    rw [ha.entry_eq] at hn ⊢
    rw [ha.header]
    exact h.latest n hn
  counter := by
    obtain ⟨done, hle, hlat, hdone⟩ := h.counter
    refine ⟨done, hle, ha.header ▸ hlat, fun n hn => ?_⟩
    rw [ha.entry_eq, ha.perBlock, ha.header]
    exact (hdone n hn).imp_right fun ⟨hnone, hlt⟩ => ⟨ha.none_of_lt hnone hlt, hlt⟩

theorem store_uncommitted (hb : (c.blocks (n / c.transactionsPerBlock)).isSome)
    (hold : ¬IsCommitted (c.entry n)) (hcn : cn = cnLimbo ∨ cn = cnDead) : Wf (c.store n cn) where
  mapped p b hp := by
    rw [store_blocks_isSome]
    exact h.mapped p b hp
  states m := by
    rw [entry_store hb]
    split
    · rcases hcn with rfl | rfl <;> simp
    · exact h.states m
  latest m hm := by
    rw [entry_store hb] at hm ⊢
    split at hm
    · rcases hcn with rfl | rfl
      · exact absurd hm not_isCommitted_cnLimbo
      · exact absurd hm not_isCommitted_cnDead
    · rename_i hne
      rw [if_neg hne]
      exact h.latest m hm
  counter := by
    obtain ⟨done, hle, hlat, hdone⟩ := h.counter
    refine ⟨done, hle, hlat, fun m hm => ?_⟩
    rw [entry_store hb]
    rcases hdone m hm with hcom | ⟨hnone, hlt⟩
    · have hne : m ≠ n := fun he => hold (he ▸ hcom)
      rw [if_neg hne]
      exact .inl hcom
    · refine .inr ⟨?_, hlt⟩
      have := store_blocks_isSome c n cn (m / c.transactionsPerBlock)
      rw [hnone] at this
      simpa [store_perBlock] using this

theorem store_commit (hb : (c.blocks (n / c.transactionsPerBlock)).isSome) (hn : n ≤ maxTraNumber)
    (hold : ¬IsCommitted (c.entry n)) :
    Wf ({ c with header := { c.header with latestCommitNumber := c.newCommitNumber } }.store n c.newCommitNumber) := by
  set c₁ : TipCache := { c with header := { c.header with latestCommitNumber := c.newCommitNumber } } with hc₁
  have hent : ∀ m, (c₁.store n c.newCommitNumber).entry m = if m = n then c.newCommitNumber else c.entry m :=
    fun m => entry_store (c := c₁) hb
  have hlat : (c₁.store n c.newCommitNumber).header.latestCommitNumber = c.header.latestCommitNumber + 1 :=
    h.newCommitNumber_eq
  refine ⟨fun p b hp => ?_, fun m => ?_, fun m hm => ?_, ?_⟩
  · rw [store_blocks_isSome]
    exact h.mapped p b hp
  · rw [hent]
    split
    · exact .inr (.inr (.inr h.isCommitted_newCommitNumber))
    · exact h.states m
  · rw [hent] at hm ⊢
    rw [hlat]
    split
    · exact h.newCommitNumber_eq.le
    · rename_i hne
      rw [if_neg hne] at hm
      exact (h.latest m hm).trans (Nat.le_succ _)
  · obtain ⟨done, hle, hcard, hdone⟩ := h.counter
    have hfresh : n ∉ done := fun hmem => by
      rcases hdone n hmem with hcom | ⟨hnone, -⟩
      · exact hold hcom
      · rw [hnone] at hb
        cases hb
    refine ⟨insert n done, fun m hm => ?_, ?_, fun m hm => ?_⟩
    · rcases Finset.mem_insert.mp hm with rfl | hm
      · exact hn
      · exact hle m hm
    · rw [hlat, Finset.card_insert_of_notMem hfresh, hcard]
      rfl
    · rw [hent]
      rcases Finset.mem_insert.mp hm with rfl | hm
      · rw [if_pos rfl]
        exact .inl h.isCommitted_newCommitNumber
      · have hne : m ≠ n := fun he => hfresh (he ▸ hm)
        rw [if_neg hne]
        refine (hdone m hm).imp_right fun ⟨hnone, hlt⟩ => ⟨?_, hlt⟩
        have := store_blocks_isSome c₁ n c.newCommitNumber (m / c.transactionsPerBlock)
        rw [show c₁.blocks (m / c.transactionsPerBlock) = none from hnone] at this
        simpa [store_perBlock] using this

theorem setState (hn : n ≤ maxTraNumber) (hs : c.setState proc n st = .ok (c₂, cn)) : Wf c₂ := by
  obtain ⟨c₁, hatt, hb, hcase⟩ := setState_cases hs
  have h₁ := h.attached hatt
  cases hcase with
  | again _ => exact h₁
  | commit _ hnew => exact h₁.store_commit hb hn hnew
  | limbo hact => exact h₁.store_uncommitted hb (hact ▸ not_isCommitted_cnActive) (.inl rfl)
  | dead hact =>
    refine h₁.store_uncommitted hb ?_ (.inr rfl)
    rcases hact with hact | hact <;> rw [hact]
    · exact not_isCommitted_cnActive
    · exact not_isCommitted_cnLimbo

theorem congr (hper : c'.transactionsPerBlock = c.transactionsPerBlock) (hb : c'.blocks = c.blocks)
    (hm : c'.blocksMemory = c.blocksMemory) (hl : c'.header.latestCommitNumber = c.header.latestCommitNumber)
    (ho : c.header.oldestTransaction ≤ c'.header.oldestTransaction) : Wf c' := by
  have hent : ∀ n, c'.entry n = c.entry n := fun n => by
    unfold entry
    rw [hper, hb]
  refine ⟨by rw [hb, hm]; exact h.mapped, fun n => by rw [hent]; exact h.states n, fun n hn => ?_, ?_⟩
  · rw [hent] at hn ⊢
    rw [hl]
    exact h.latest n hn
  · obtain ⟨done, hle, hcard, hdone⟩ := h.counter
    refine ⟨done, hle, hl ▸ hcard, fun n hn => ?_⟩
    rw [hent, hb, hper]
    exact (hdone n hn).imp_right fun ⟨hnone, hlt⟩ => ⟨hnone, hlt.trans_le (Nat.div_le_div_right ho)⟩

end

end Wf

theorem lt_of_mem_blocksToCleanup {blocks : TpcBlockNumber → Option (Nat → CommitNumber)} :
    ∀ {counter : Nat}, b ∈ blocksToCleanup blocks counter → b < counter
  | 0, h => by simp [blocksToCleanup] at h
  | counter + 1, h => by
    rw [blocksToCleanup] at h
    split at h
    · rcases List.mem_cons.mp h with rfl | h
      · exact Nat.lt_succ_self _
      · exact (lt_of_mem_blocksToCleanup h).trans (Nat.lt_succ_self _)
    · cases h

structure Released (c c' : TipCache) : Prop where
  perBlock : c'.transactionsPerBlock = c.transactionsPerBlock
  latest : c'.header.latestCommitNumber = c.header.latestCommitNumber
  releaseCount : c'.header.snapshotReleaseCount = c.header.snapshotReleaseCount
  snapshotList : c'.snapshotList = c.snapshotList
  oldest : c.header.oldestTransaction ≤ c'.header.oldestTransaction
  blocks : ∀ b, c'.blocks b = c.blocks b ∨
    (c'.blocks b = none ∧ b < c'.header.oldestTransaction / c'.transactionsPerBlock)
  mapped : (∀ p b, c.blocksMemory p b → (c.blocks b).isSome) → ∀ p b, c'.blocksMemory p b → (c'.blocks b).isSome

namespace Released

theorem entry_eq (h : Released c c') (hn : c'.header.oldestTransaction ≤ n) : c'.entry n = c.entry n := by
  unfold entry
  rw [h.perBlock]
  rcases h.blocks (n / c.transactionsPerBlock) with hb | ⟨-, hlt⟩
  · rw [hb]
  · rw [h.perBlock] at hlt
    exact absurd hlt (not_lt.mpr (Nat.div_le_div_right hn))

theorem entry_cases (h : Released c c') (n : TraNumber) : c'.entry n = c.entry n ∨
    (c'.blocks (n / c'.transactionsPerBlock) = none ∧
      n / c'.transactionsPerBlock < c'.header.oldestTransaction / c'.transactionsPerBlock) := by
  rcases h.blocks (n / c'.transactionsPerBlock) with hb | hb
  · left
    unfold entry
    rw [hb, h.perBlock]
  · exact .inr hb

theorem wf (h : Released c c') (hc : Wf c) : Wf c' where
  mapped := h.mapped hc.mapped
  states n := by
    rcases h.entry_cases n with he | ⟨hnone, -⟩
    · rw [he]
      exact hc.states n
    · simp [entry, hnone]
  latest n hn := by
    rcases h.entry_cases n with he | ⟨hnone, -⟩
    · rw [he] at hn ⊢
      rw [h.latest]
      exact hc.latest n hn
    · simp only [entry, hnone, Option.map_none, Option.getD_none] at hn
      exact absurd hn not_isCommitted_cnActive
  counter := by
    obtain ⟨done, hle, hcard, hdone⟩ := hc.counter
    refine ⟨done, hle, h.latest ▸ hcard, fun n hn => ?_⟩
    rcases h.entry_cases n with he | hold
    · rcases hdone n hn with hcom | ⟨hnone, hlt⟩
      · exact .inl (he ▸ hcom)
      · refine .inr ⟨?_, ?_⟩
        · rw [h.perBlock]
          rcases h.blocks (n / c.transactionsPerBlock) with hb | ⟨hb, -⟩
          · rw [hb, hnone]
          · exact hb
        · rw [h.perBlock]
          exact hlt.trans_le (Nat.div_le_div_right h.oldest)
    · exact .inr hold

end Released

theorem released_releaseSharedMemory {oldestOld : TraNumber} {c₀ : TipCache} (hlist : c.snapshotList = c₀.snapshotList)
    (hper : c.transactionsPerBlock = c₀.transactionsPerBlock) (hblocks : c.blocks = c₀.blocks)
    (hmem : c.blocksMemory = c₀.blocksMemory) (hlat : c.header.latestCommitNumber = c₀.header.latestCommitNumber)
    (hrel : c.header.snapshotReleaseCount = c₀.header.snapshotReleaseCount)
    (hold : c₀.header.oldestTransaction ≤ c.header.oldestTransaction) :
    Released c₀ (c.releaseSharedMemory oldestOld c.header.oldestTransaction) := by
  unfold releaseSharedMemory
  dsimp only
  split
  · exact ⟨hper, hlat, hrel, hlist, hold, fun b => .inl (by rw [hblocks]), by rw [hblocks, hmem]; exact id⟩
  · refine ⟨hper, hlat, hrel, hlist, hold, fun b => ?_, fun hm p b hp => ?_⟩
    · by_cases hb : b ∈ blocksToCleanup c.blocks (c.header.oldestTransaction / c.transactionsPerBlock - safetyGapBlocks)
      · refine .inr ⟨if_pos hb, ?_⟩
        exact (lt_of_mem_blocksToCleanup hb).trans_le (Nat.sub_le _ _)
      · exact .inl ((if_neg hb).trans (by rw [hblocks]))
    · dsimp only at hp ⊢
      split at hp
      · cases hp
      · rename_i hb
        rw [if_neg hb, hblocks]
        rw [hmem] at hp
        exact hm p b hp

theorem released_updateOldestTransaction (c : TipCache) (oldest oldestSnapshot : TraNumber) :
    Released c (c.updateOldestTransaction oldest oldestSnapshot) := by
  unfold updateOldestTransaction
  dsimp only
  split
  · rename_i h
    exact released_releaseSharedMemory (c := { c with header := { c.header with oldestTransaction := _ } })
      rfl rfl rfl rfl rfl rfl h.le
  · exact ⟨rfl, rfl, rfl, rfl, le_rfl, fun _ => .inl rfl, id⟩

theorem updateOldestTransaction_oldest (c : TipCache) (oldest oldestSnapshot : TraNumber) :
    (c.updateOldestTransaction oldest oldestSnapshot).header.oldestTransaction =
      max c.header.oldestTransaction (min oldest oldestSnapshot) := by
  unfold updateOldestTransaction
  dsimp only
  split
  · rename_i h
    have hr : ∀ (c : TipCache) (o o' : TraNumber),
        (c.releaseSharedMemory o o').header.oldestTransaction = c.header.oldestTransaction := fun c o o' => by
      unfold releaseSharedMemory
      dsimp only
      split <;> rfl
    rw [hr]
    exact (max_eq_right h.le).symm
  · rename_i h
    exact (max_eq_left (not_lt.mp h)).symm

/-- The cache as the first process sets it up, with the states of the inventory pages loaded: a
    committed transaction of an earlier time is prehistoric. -/
structure Initialized (c : TipCache) : Prop where
  mapped : ∀ p b, c.blocksMemory p b → (c.blocks b).isSome
  states : ∀ n, c.entry n = cnActive ∨ c.entry n = cnLimbo ∨ c.entry n = cnDead ∨ c.entry n = cnPrehistoric
  latest : c.header.latestCommitNumber = cnPrehistoric
  noSnapshot : ∀ slot, (c.snapshotList.slots slot).attachmentId = 0

theorem Initialized.wf (h : Initialized c) : Wf c where
  mapped := h.mapped
  states n := by
    rcases h.states n with hs | hs | hs | hs
    · exact .inl hs
    · exact .inr (.inl hs)
    · exact .inr (.inr (.inl hs))
    · rw [hs]
      exact .inr (.inr (.inr ⟨le_rfl, cnPrehistoric_le_cnMaxNumber⟩))
  latest n hn := by
    rcases h.states n with hs | hs | hs | hs <;> rw [hs] at hn
    · exact absurd hn not_isCommitted_cnActive
    · exact absurd hn not_isCommitted_cnLimbo
    · exact absurd hn not_isCommitted_cnDead
    · rw [hs, h.latest]
  counter := ⟨∅, by simp, by simp [h.latest], by simp⟩

end TipCache
end Firebird.Tpc
