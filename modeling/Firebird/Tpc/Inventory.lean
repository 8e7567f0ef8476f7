import Firebird.Lib.Cursor
import Firebird.Tpc.States

/-! # Loading the transaction inventory

The states of transactions are stored in inventory pages, two bits each (`src/jrd/tra.cpp`). When the cache is created
they are copied byte by byte into a vector, and from there into the blocks of the cache (`src/jrd/tpc.cpp`). Transaction
numbers have 64 bits; the length of the vector and the places in it have 32. -/

namespace Firebird.Tpc
open List Function Lib Cursor

/-! ### Inventory pages -/

/-- The bytes `tip_transactions` of each inventory page. -/
abbrev InventoryPages := Nat → Memory

/-- `offsetof(tx_inv_page, tip_transactions)` -/
def tipTransactions : Nat := 20

def transPerTIP (pageSize : Nat) : Nat := (pageSize - tipTransactions) * 4

def traMask : Nat := 3

def transOffset (number : Nat) : Nat := number / 4

def transShift (number : TraNumber) : Nat := number % 4 * 2

/-- `number & ~TRA_MASK` -/
def roundDown (number : TraNumber) : TraNumber := number / 4 * 4

def bitsOf (byte : UInt8) (number : TraNumber) : Nat := byte.toNat / 2 ^ transShift number % 4

/-- A number in a `ULONG` or an `FB_SIZE_T` -/
def ulong (n : Nat) : Nat := n % 2 ^ 32

def traFetchState (pages : InventoryPages) (transPerTip : Nat) (number : TraNumber) : Nat :=
  bitsOf (pages (ulong (number / transPerTip)) (transOffset (number % transPerTip))) number

def traState (bitVector : Memory) (oldest number : TraNumber) : Nat :=
  bitsOf (bitVector (ulong (transOffset (number - roundDown oldest)))) number

def copyTip (tip : Memory) (offset l : Nat) : List UInt8 := (range l).map fun i => tip (offset + i)

/-- `memcpy` into a vector of the length; what lies behind it is not the caller's. -/
def memcpy (length : Nat) (bitVector : Memory) (p : Nat) (bytes : List UInt8) : Option Memory :=
  if p + bytes.length ≤ length then some (put bitVector p bytes) else none

/-- The loop over the successive pages, `n` of which are left. -/
def copyPages (pages : InventoryPages) (transPerTip : Nat) (top : TraNumber) (length : Nat) :
    Nat → Nat → Memory → Nat → Option Memory
  | 0, _, bitVector, _ => some bitVector
  | n + 1, sequence, bitVector, p =>
    let l := transOffset (min (top + traMask + 1 - sequence * transPerTip) transPerTip)
    (memcpy length bitVector p (copyTip (pages sequence) 0 l)).bind fun bitVector =>
      copyPages pages transPerTip top length n (sequence + 1) bitVector (p + l)

/-- Without a result it writes past the end of the vector. A database has fewer than `2 ^ 32 - 1` inventory pages, so
that `sequence` does not wrap. -/
def traGetInventory (pages : InventoryPages) (transPerTip length : Nat) (bitVector : Memory) (base top : TraNumber) :
    Option Memory :=
  let sequence := ulong (base / transPerTip)
  let last := ulong (top / transPerTip)
  let l := transOffset (min (top + traMask + 1 - base) (transPerTip - base % transPerTip))
  (memcpy length bitVector 0 (copyTip (pages sequence) (transOffset (base % transPerTip)) l)).bind fun bitVector =>
    copyPages pages transPerTip top length (last - sequence) (sequence + 1) bitVector l

def initStateMapping : Nat → CommitNumber
  | 0 => cnActive
  | 1 => cnLimbo
  | 2 => cnDead
  | _ => cnPrehistoric

namespace TipCache

/-- `statusBlock->data + transOffset` takes the state. -/
def storeAt (c : TipCache) (blockNumber : TpcBlockNumber) (offset : Nat) (cn : CommitNumber) : TipCache :=
  { c with blocks := update c.blocks blockNumber ((c.blocks blockNumber).map (update · offset cn)) }

/-- The loop over the transactions, `n` of which follow the one at hand. -/
def loadStates (proc : Process) (state : TraNumber → Nat) : Nat → TraNumber → TpcBlockNumber → Nat → TipCache → TipCache
  | 0, t, blockNumber, offset, c => c.storeAt blockNumber offset (initStateMapping (state t))
  | n + 1, t, blockNumber, offset, c =>
    let c := c.storeAt blockNumber offset (initStateMapping (state t))
    if offset + 1 = c.transactionsPerBlock then
      loadStates proc state n (t + 1) (blockNumber + 1) 0 (c.createTransactionStatusBlock proc (blockNumber + 1))
    else loadStates proc state n (t + 1) blockNumber (offset + 1) c

/-- `buffer_length`, of the vector that is filled from the inventory pages. -/
def bufferLength (oldest next : TraNumber) : Nat := ulong ((next + 1 - roundDown oldest + traMask) / 4)

/-- `loadInventoryPages`, from the numbers of the header page; `transactions` is the vector, not yet filled. -/
def loadInventoryPages (c : TipCache) (proc : Process) (pages : InventoryPages) (pageSize : Nat) (transactions : Memory)
    (oldest next : TraNumber) : Option TipCache :=
  let c := { c with header := { c.header with oldestTransaction := oldest } }
  let base := roundDown oldest
  (traGetInventory pages (transPerTIP pageSize) (bufferLength oldest next) transactions base next).map fun buffer =>
    let blockNumber := oldest / c.transactionsPerBlock
    loadStates proc (traState buffer base) (next - oldest) oldest blockNumber (oldest % c.transactionsPerBlock)
      (c.createTransactionStatusBlock proc blockNumber)

end TipCache

variable {pages : InventoryPages} {k b p n top sequence : Nat} {m : Memory}

def Filled (pages : InventoryPages) (k b : Nat) (m : Memory) (p : Nat) : Prop :=
  ∀ j < p, m j = pages ((b + j) / k) ((b + j) % k)

theorem copyTip_length (tip : Memory) (offset l : Nat) : (copyTip tip offset l).length = l := by
  rw [copyTip, length_map, length_range]

theorem Filled.put {offset l : Nat} (h : Filled pages k b m p) (hk : offset + l ≤ k)
    (hp : b + p = sequence * k + offset) :
    Filled pages k b (put m p (copyTip (pages sequence) offset l)) (p + l) := by
  intro j hj
  by_cases hlt : j < p
  · rw [put_of_lt hlt]
    exact h j hlt
  · obtain ⟨i, rfl⟩ := Nat.exists_eq_add_of_le (Nat.not_lt.mp hlt)
    have hi : i < l := by omega
    have hplace : b + (p + i) = offset + i + k * sequence := by
      rw [← Nat.add_assoc, Nat.mul_comm]
      omega
    rw [holds_put i (by rw [copyTip_length]; exact hi), hplace, Nat.add_mul_div_left _ _ (by omega),
      Nat.add_mul_mod_self_left, Nat.div_eq_of_lt (by omega), Nat.mod_eq_of_lt (by omega)]
    simp [copyTip]

theorem transOffset_min (a k : Nat) : transOffset (min a (4 * k)) = min (a / 4) k := by
  unfold transOffset
  omega

theorem transOffset_copied (hle : sequence * k + b ≤ top / 4) :
    transOffset (min (top + traMask + 1 - 4 * (sequence * k + b)) (4 * k - 4 * b)) =
      min (top / 4 + 1 - (sequence * k + b)) (k - b) := by
  rw [← Nat.mul_sub, transOffset_min]
  unfold traMask
  congr 1
  omega

structure Copied (pages : InventoryPages) (k b top sequence : Nat) (m : Memory) (p : Nat) : Prop where
  filled : Filled pages k b m p
  place : b + p = min (top / 4 + 1) (sequence * k)

theorem Filled.copied {offset : Nat} (h : Filled pages k b m p) (hp : b + p = sequence * k + offset)
    (hoffset : offset < k) (hle : sequence * k + offset ≤ top / 4) :
    Copied pages k b top (sequence + 1)
      (Cursor.put m p (copyTip (pages sequence) offset (min (top / 4 + 1 - (sequence * k + offset)) (k - offset))))
      (p + min (top / 4 + 1 - (sequence * k + offset)) (k - offset)) where
  filled := h.put (by omega) hp
  place := by
    rw [← Nat.add_assoc, Nat.succ_mul]
    omega

/-- The vector takes the bytes up to that of the last transaction, or is too short for them. -/
theorem copyPages_copied {length : Nat} (hk : 0 < k) (h : Copied pages k b top sequence m p)
    (hn : sequence + n = top / 4 / k + 1) (hp : p ≤ length) :
    if top / 4 + 1 ≤ b + length then
      ∃ m', copyPages pages (4 * k) top length n sequence m p = some m' ∧ Filled pages k b m' (top / 4 + 1 - b)
    else copyPages pages (4 * k) top length n sequence m p = none := by
  induction n generalizing sequence m p with
  | zero =>
    have hle : top / 4 < sequence * k := (Nat.div_lt_iff_lt_mul hk).mp (by omega)
    have hend : b + p = top / 4 + 1 := by rw [h.place, Nat.min_eq_left hle]
    rw [if_pos (by omega), ← hend, Nat.add_sub_cancel_left]
    exact ⟨m, rfl, h.filled⟩
  | succ n ih =>
    have hle : sequence * k ≤ top / 4 := (Nat.le_div_iff_mul_le hk).mp (by omega)
    have hplace : b + p = sequence * k + 0 := by
      rw [h.place, Nat.min_eq_right (Nat.le_succ_of_le hle)]
      rfl
    have hcopied := transOffset_copied (b := 0) hle
    simp only [Nat.mul_zero, Nat.sub_zero, Nat.add_zero] at hcopied
    rw [Nat.mul_left_comm] at hcopied
    have hnext := h.filled.copied hplace hk hle
    simp only [Nat.sub_zero, Nat.add_zero] at hnext
    rw [← hcopied] at hnext
    have hend := hnext.place
    unfold copyPages memcpy
    dsimp only
    rw [copyTip_length]
    by_cases hfits : p + transOffset (min (top + traMask + 1 - sequence * (4 * k)) (4 * k)) ≤ length
    · rw [if_pos hfits, Option.bind_some]
      exact ih hnext (by omega) hfits
    · rw [if_neg hfits, Option.bind_none, if_neg (by omega)]

variable {base number : TraNumber}

theorem roundDown_eq (number : TraNumber) : roundDown number = 4 * (number / 4) := Nat.mul_comm ..

theorem ulong_of_lt {n : Nat} (h : n < 2 ^ 32) : ulong n = n := Nat.mod_eq_of_lt h

theorem traGetInventory_filled (pages : InventoryPages) (length : Nat) (m : Memory) (hk : 0 < k) (hle : b ≤ top / 4)
    (hpages : top / (4 * k) < 2 ^ 32) :
    if top / 4 + 1 ≤ b + length then
      ∃ m', traGetInventory pages (4 * k) length m (4 * b) top = some m' ∧ Filled pages k b m' (top / 4 + 1 - b)
    else traGetInventory pages (4 * k) length m (4 * b) top = none := by
  have hsequence : 4 * b / (4 * k) = b / k := Nat.mul_div_mul_left b k (by decide)
  have hrest : 4 * b % (4 * k) = 4 * (b % k) := Nat.mul_mod_mul_left 4 b k
  have hplace : b / k * k + b % k = b := Nat.div_add_mod' b k
  have hlast : top / (4 * k) = top / 4 / k := (Nat.div_div_eq_div_mul top 4 k).symm
  have hfirst : Filled pages k b m 0 := fun j hj => absurd hj (Nat.not_lt_zero j)
  have hmod := Nat.mod_lt b hk
  have hle' : b / k * k + b % k ≤ top / 4 := by rw [hplace]; exact hle
  have hcopied := transOffset_copied hle'
  have hnext := hfirst.copied hplace.symm hmod hle'
  rw [← hcopied, hplace, Nat.zero_add] at hnext
  have hoffset : transOffset (4 * (b % k)) = b % k := Nat.mul_div_cancel_left _ (by decide)
  have hdiv : b / k ≤ top / 4 / k := Nat.div_le_div_right hle
  have hend := hnext.place
  unfold traGetInventory memcpy
  dsimp only
  rw [ulong_of_lt hpages, hsequence, ulong_of_lt (by omega), hrest, hoffset, copyTip_length, Nat.zero_add]
  by_cases hfits : transOffset (min (top + traMask + 1 - 4 * b) (4 * k - 4 * (b % k))) ≤ length
  · rw [if_pos hfits, Option.bind_some]
    exact copyPages_copied hk hnext (by omega) hfits
  · rw [if_neg hfits, Option.bind_none, if_neg (by omega)]

theorem traState_eq (hbase : base ≤ number) (htop : number ≤ top) (hpages : top / (4 * k) < 2 ^ 32)
    (hfits : top / 4 + 1 - base / 4 < 2 ^ 32) (hfilled : Filled pages k (base / 4) m (top / 4 + 1 - base / 4)) :
    traState m (roundDown base) number = traFetchState pages (4 * k) number := by
  have hle : base / 4 ≤ number / 4 := Nat.div_le_div_right hbase
  have hle' : number / 4 ≤ top / 4 := Nat.div_le_div_right htop
  have hbyte := hfilled (number / 4 - base / 4) (by lia)
  rw [Nat.add_sub_cancel' hle] at hbyte
  have hround : roundDown (roundDown base) = 4 * (base / 4) := by
    unfold roundDown
    lia
  have hoffset : transOffset (number - 4 * (base / 4)) = number / 4 - base / 4 := by
    unfold transOffset
    lia
  have hpage : number / (4 * k) = number / 4 / k := (Nat.div_div_eq_div_mul number 4 k).symm
  have hplace : transOffset (number % (4 * k)) = number / 4 % k := Nat.mod_mul_right_div_self number 4 k
  have hsequence : number / (4 * k) < 2 ^ 32 := (Nat.div_le_div_right htop).trans_lt hpages
  unfold traState traFetchState
  rw [hround, hoffset, ulong_of_lt hsequence, ulong_of_lt (by lia), hpage, hplace, hbyte]

/-! ### The blocks -/

namespace TipCache

variable {c c' c₂ : TipCache} {proc : Process} {state : TraNumber → Nat} {t u : TraNumber} {cn : CommitNumber}

structure Loaded (state : TraNumber → Nat) (t u : TraNumber) (c c' : TipCache) : Prop where
  perBlock : c'.transactionsPerBlock = c.transactionsPerBlock
  header : c'.header = c.header
  entry : ∀ number, c'.entry number = if t ≤ number ∧
    number ≤ u then initStateMapping (state number) else c.entry number
  mapped : ∀ b, t / c.transactionsPerBlock ≤ b → b ≤ u / c.transactionsPerBlock → (c'.blocks b).isSome
  outside : ∀ b, b < t / c.transactionsPerBlock ∨ u / c.transactionsPerBlock < b →
    c'.blocks b = c.blocks b ∧ ∀ p, c'.blocksMemory p b = c.blocksMemory p b

theorem Loaded.store (hc : (c.blocks (t / c.transactionsPerBlock)).isSome) :
    Loaded state t t c (c.store t (initStateMapping (state t))) where
  perBlock := rfl
  header := rfl
  entry number := by
    rw [entry_store hc]
    by_cases h : number = t
    · rw [if_pos h, if_pos ⟨h.ge, h.le⟩, h]
    · rw [if_neg h, if_neg fun hboth => h (Nat.le_antisymm hboth.2 hboth.1)]
  mapped b h h' := by
    rw [store_blocks_isSome, Nat.le_antisymm h' h]
    exact hc
  outside b h := ⟨store_blocks_of_ne (by lia), fun _ => rfl⟩

theorem Loaded.congr {state' : TraNumber → Nat} (h : Loaded state t u c c')
    (heq : ∀ number, t ≤ number → number ≤ u → state number = state' number) : Loaded state' t u c c' where
  perBlock := h.perBlock
  header := h.header
  entry number := by
    rw [h.entry]
    by_cases hrange : t ≤ number ∧ number ≤ u
    · rw [if_pos hrange, if_pos hrange, heq number hrange.1 hrange.2]
    · rw [if_neg hrange, if_neg hrange]
  mapped := h.mapped
  outside := h.outside

theorem Loaded.of_attached (h : Loaded state t u c₂ c') (hatt : Attached c c₂)
    (hblocks : ∀ b, b ≠ t / c.transactionsPerBlock →
      c₂.blocks b = c.blocks b ∧ ∀ p, c₂.blocksMemory p b = c.blocksMemory p b) (htu : t ≤ u) :
      Loaded state t u c c' where
  perBlock := h.perBlock.trans hatt.perBlock
  header := h.header.trans hatt.header
  entry number := by rw [h.entry, hatt.entry_eq]
  mapped b hfrom hto := h.mapped b (by rw [hatt.perBlock]; exact hfrom) (by rw [hatt.perBlock]; exact hto)
  outside b hb := by
    have hle : t / c.transactionsPerBlock ≤ u / c.transactionsPerBlock := Nat.div_le_div_right htu
    obtain ⟨hkept, hmemory⟩ := h.outside b (by rw [hatt.perBlock]; exact hb)
    obtain ⟨hkept', hmemory'⟩ := hblocks b (by lia)
    exact ⟨hkept.trans hkept', fun p => (hmemory p).trans (hmemory' p)⟩

theorem Loaded.cons (hc : (c.blocks (t / c.transactionsPerBlock)).isSome) (htu : t < u)
    (hatt : Attached (c.store t (initStateMapping (state t))) c₂)
    (hblocks : ∀ b, b ≠ (t + 1) / c.transactionsPerBlock →
      c₂.blocks b = (c.store t (initStateMapping (state t))).blocks b ∧ ∀ p, c₂.blocksMemory p b = c.blocksMemory p b)
    (h : Loaded state (t + 1) u c₂ c') : Loaded state t u c c' := by
  have hone : Loaded state t t c _ := .store hc
  have hper : c₂.transactionsPerBlock = c.transactionsPerBlock := hatt.perBlock
  have hstep : t / c.transactionsPerBlock ≤ (t + 1) / c.transactionsPerBlock := Nat.div_le_div_right (Nat.le_succ t)
  have hlast : (t + 1) / c.transactionsPerBlock ≤ u / c.transactionsPerBlock := Nat.div_le_div_right htu
  refine ⟨h.perBlock.trans hper, h.header.trans hatt.header, fun number => ?_, fun b hfrom hto => ?_, fun b hb => ?_⟩
  · rw [h.entry, hatt.entry_eq, hone.entry]
    split_ifs <;> first | rfl | lia
  · by_cases hlater : (t + 1) / c.transactionsPerBlock ≤ b
    · exact h.mapped b (by rw [hper]; exact hlater) (by rw [hper]; exact hto)
    · rw [(h.outside b (.inl (by rw [hper]; exact Nat.not_le.mp hlater))).1,
        (hblocks b (by lia)).1, store_blocks_isSome]
      have hfirst : b = t / c.transactionsPerBlock := by
        have hnext : (t + 1) / c.transactionsPerBlock ≤ t / c.transactionsPerBlock + 1 := by
          rw [Nat.succ_div]
          split <;> lia
        lia
      rw [hfirst]
      exact hc
  · have hne : b ≠ (t + 1) / c.transactionsPerBlock := by lia
    obtain ⟨hkept, hmemory⟩ := h.outside b (by lia)
    obtain ⟨hkept', hmemory'⟩ := hblocks b hne
    exact ⟨by rw [hkept, hkept', (hone.outside b (by lia)).1], fun p => by rw [hmemory, hmemory']⟩

theorem createTransactionStatusBlock_isSome (c : TipCache) (proc : Process) (b : TpcBlockNumber) :
    ((c.createTransactionStatusBlock proc b).blocks b).isSome := by
  simp [createTransactionStatusBlock]

theorem createTransactionStatusBlock_of_ne (c : TipCache) (proc : Process) {b b' : TpcBlockNumber} (h : b ≠ b') :
    (c.createTransactionStatusBlock proc b').blocks b = c.blocks b ∧
      ∀ p, (c.createTransactionStatusBlock proc b').blocksMemory p b = c.blocksMemory p b := by
  refine ⟨update_of_ne h .., fun p => ?_⟩
  by_cases hp : p = proc
  · subst hp
    simp [createTransactionStatusBlock, h]
  · simp [createTransactionStatusBlock, hp]

theorem place_succ_of_last {d : Nat} (hd : 0 < d) (h : t % d + 1 = d) : (t + 1) / d = t / d + 1 ∧ (t + 1) % d = 0 := by
  have hplace : t + 1 = d * (t / d + 1) := by
    have hdiv := Nat.div_add_mod t d
    lia
  rw [hplace]
  exact ⟨Nat.mul_div_cancel_left _ hd, Nat.mul_mod_right d _⟩

theorem place_succ_of_not_last {d : Nat} (hd : 0 < d) (h : t % d + 1 ≠ d) :
    (t + 1) / d = t / d ∧ (t + 1) % d = t % d + 1 := by
  have hlt : t % d + 1 < d := lt_of_le_of_ne (Nat.mod_lt t hd) h
  have hplace : t + 1 = d * (t / d) + (t % d + 1) := by rw [← Nat.add_assoc, Nat.div_add_mod]
  refine ⟨?_, ?_⟩
  · rw [hplace, Nat.mul_add_div hd, Nat.div_eq_of_lt hlt, Nat.add_zero]
  · rw [hplace, Nat.mul_add_mod, Nat.mod_eq_of_lt hlt]

theorem loadStates_loaded (hc : (c.blocks (t / c.transactionsPerBlock)).isSome)
    (hold : c.header.oldestTransaction ≤ t) : Loaded state t (t + n) c
      (loadStates proc state n t (t / c.transactionsPerBlock) (t % c.transactionsPerBlock) c) := by
  induction n generalizing t c with
  | zero => exact .store hc
  | succ n ih =>
    let stored := c.store t (initStateMapping (state t))
    have hlt : t < t + (n + 1) := by lia
    have hend : t + 1 + n = t + (n + 1) := by lia
    change Loaded state t (t + (n + 1)) c (if t % c.transactionsPerBlock + 1 = c.transactionsPerBlock then _ else _)
    by_cases hlast : t % c.transactionsPerBlock + 1 = c.transactionsPerBlock
    · obtain ⟨hblock, hmod⟩ := place_succ_of_last c.transactionsPerBlock_pos hlast
      have hle : t / c.transactionsPerBlock + 1 ≥ stored.header.oldestTransaction / stored.transactionsPerBlock :=
        Nat.le_succ_of_le (Nat.div_le_div_right hold)
      have hrest := ih (c := stored.createTransactionStatusBlock proc (t / c.transactionsPerBlock + 1)) (t := t + 1)
        (by
          change ((stored.createTransactionStatusBlock proc _).blocks ((t + 1) / c.transactionsPerBlock)).isSome
          rw [hblock]
          exact createTransactionStatusBlock_isSome stored proc _)
        (hold.trans (Nat.le_succ t))
      change Loaded state (t + 1) (t + 1 + n) _
        (loadStates proc state n (t + 1) ((t + 1) / c.transactionsPerBlock) ((t + 1) % c.transactionsPerBlock)
          _) at hrest
      rw [hblock, hmod, hend] at hrest
      rw [if_pos hlast]
      refine .cons hc hlt (attached_create hle) (fun b hb => ?_) hrest
      rw [hblock] at hb
      exact createTransactionStatusBlock_of_ne stored proc hb
    · obtain ⟨hblock, hmod⟩ := place_succ_of_not_last c.transactionsPerBlock_pos hlast
      have hrest := ih (c := stored) (t := t + 1)
        (by
          rw [store_blocks_isSome]
          change (c.blocks ((t + 1) / c.transactionsPerBlock)).isSome
          rw [hblock]
          exact hc)
        (hold.trans (Nat.le_succ t))
      change Loaded state (t + 1) (t + 1 + n) _
        (loadStates proc state n (t + 1) ((t + 1) / c.transactionsPerBlock) ((t + 1) % c.transactionsPerBlock)
          _) at hrest
      rw [hblock, hmod, hend] at hrest
      rw [if_neg hlast]
      exact .cons hc hlt (.refl _) (fun b hb => ⟨rfl, fun _ => rfl⟩) hrest

def ImageOf : Nat → CommitNumber → Prop
  | 0, cn => cn = cnActive
  | 1, cn => cn = cnLimbo
  | 2, cn => cn = cnDead
  | _, cn => cnPrehistoric ≤ cn

theorem initStateMapping_imageOf : ∀ state, ImageOf state (initStateMapping state)
  | 0 | 1 | 2 => rfl
  | _ + 3 => Nat.le_refl _

theorem Loaded.cacheState_eq (h : Loaded state t u c c') {number : TraNumber}
    (hold : c.header.oldestTransaction ≤ number) (ht : t ≤ number) (hu : number ≤ u) (p : Process) :
    (c'.cacheState p number).2 = initStateMapping (state number) := by
  have hentry := h.entry number
  rw [if_pos ⟨ht, hu⟩] at hentry
  have hmapped := h.mapped (number / c.transactionsPerBlock) (Nat.div_le_div_right ht) (Nat.div_le_div_right hu)
  rw [← h.perBlock] at hmapped
  obtain ⟨data, hdata⟩ := Option.isSome_iff_exists.mp hmapped
  rw [TipCache.entry, hdata] at hentry
  have hfound : (c'.getTransactionStatusBlock p (number / c'.transactionsPerBlock)).2 = some data := by
    unfold getTransactionStatusBlock
    split
    · exact hdata
    · rw [if_pos (by rw [h.header]; exact Nat.div_le_div_right hold)]
      simp [createTransactionStatusBlock, hdata]
  unfold cacheState
  rw [if_neg (by rw [h.header]; exact Nat.not_lt.mpr hold)]
  split
  · next c'' found heq =>
    rw [heq] at hfound
    cases hfound
    exact hentry
  · next c'' heq =>
    rw [heq] at hfound
    cases hfound

variable {pageSize : Nat} {transactions : Memory} {oldest next : TraNumber}

theorem bufferLength_eq : bufferLength oldest next = ulong (next / 4 + 1 - oldest / 4) := by
  unfold bufferLength roundDown traMask
  congr 1
  lia

theorem loadInventoryPages_loaded (hpage : tipTransactions < pageSize) (hnext : oldest ≤ next)
    (hpages : next / transPerTIP pageSize < 2 ^ 32) :
    if next / 4 - oldest / 4 < 2 ^ 32 - 1 then
      ∃ c', c.loadInventoryPages proc pages pageSize transactions oldest next = some c' ∧
        Loaded (traFetchState pages (transPerTIP pageSize)) oldest next
          { c with header := { c.header with oldestTransaction := oldest } } c'
    else c.loadInventoryPages proc pages pageSize transactions oldest next = none := by
  have hk : 0 < pageSize - tipTransactions := Nat.sub_pos_of_lt hpage
  have htrans : transPerTIP pageSize = 4 * (pageSize - tipTransactions) := Nat.mul_comm ..
  have hle : oldest / 4 ≤ next / 4 := Nat.div_le_div_right hnext
  have hfilled := traGetInventory_filled pages (bufferLength oldest next) transactions hk hle (htrans ▸ hpages)
  rw [← roundDown_eq, ← htrans, bufferLength_eq] at hfilled
  unfold loadInventoryPages
  dsimp only
  rw [bufferLength_eq]
  by_cases hfits : next / 4 - oldest / 4 < 2 ^ 32 - 1
  · rw [if_pos hfits]
    have hlength : next / 4 + 1 - oldest / 4 < 2 ^ 32 := by lia
    have hlong : next / 4 + 1 ≤ oldest / 4 + (next / 4 + 1 - oldest / 4) := by lia
    rw [ulong_of_lt hlength, if_pos hlong] at hfilled
    obtain ⟨buffer, hbuffer, hbytes⟩ := hfilled
    rw [ulong_of_lt hlength, hbuffer]
    let opened : TipCache := { c with header := { c.header with oldestTransaction := oldest } }
    let created := opened.createTransactionStatusBlock proc (oldest / c.transactionsPerBlock)
    have hstates : Loaded (traState buffer (roundDown oldest)) oldest (oldest + (next - oldest)) created
        (loadStates proc (traState buffer (roundDown oldest)) (next - oldest) oldest (oldest / c.transactionsPerBlock)
          (oldest % c.transactionsPerBlock) created) :=
      loadStates_loaded (createTransactionStatusBlock_isSome opened proc _) (Nat.le_refl _)
    rw [Nat.add_sub_cancel' hnext] at hstates
    refine ⟨_, rfl, (hstates.congr fun number ht hu => ?_).of_attached (attached_create (Nat.le_refl _)) (fun b hb =>
      createTransactionStatusBlock_of_ne opened proc hb) hnext⟩
    rw [htrans]
    exact traState_eq ht hu (htrans ▸ hpages) hlength hbytes
  · rw [if_neg hfits]
    -- the length is cut, and the vector is shorter than what is copied into it
    have hcut : ulong (next / 4 + 1 - oldest / 4) < next / 4 + 1 - oldest / 4 := by
      have hlt : ulong (next / 4 + 1 - oldest / 4) < 2 ^ 32 := Nat.mod_lt _ (by decide)
      lia
    have hshort : ¬ next / 4 + 1 ≤ oldest / 4 + ulong (next / 4 + 1 - oldest / 4) := by lia
    rw [if_neg hshort] at hfilled
    rw [hfilled]
    rfl

/-- The load comes to its end inside its own memory; what is then cached is the image of what is stored, and no block of
other transactions has changed. -/
def Agrees (c : TipCache) (pages : InventoryPages) (pageSize : Nat) (oldest next : TraNumber)
    (loaded : Option TipCache) : Prop :=
  ∃ c', loaded = some c' ∧
    (∀ p number, oldest ≤ number → number ≤ next →
      ImageOf (traFetchState pages (transPerTIP pageSize) number) (c'.cacheState p number).2) ∧
    ∀ b, b < oldest / c.transactionsPerBlock ∨ next / c.transactionsPerBlock < b →
      c'.blocks b = c.blocks b ∧ ∀ p, c'.blocksMemory p b = c.blocksMemory p b

/-- The length of the vector is not cut exactly if the load keeps to it and the cache agrees with the inventory pages.
-/
theorem loadInventoryPages_agrees_iff (hpage : tipTransactions < pageSize) (hnext : oldest ≤ next)
    (hpages : next / transPerTIP pageSize < 2 ^ 32 - 1) :
    Agrees c pages pageSize oldest next (c.loadInventoryPages proc pages pageSize transactions oldest next) ↔
      next / 4 - oldest / 4 < 2 ^ 32 - 1 := by
  have hloaded := @loadInventoryPages_loaded pages c proc pageSize transactions oldest next hpage hnext (by lia)
  constructor
  · rintro ⟨c', hc', -⟩
    by_contra hcut
    rw [if_neg hcut, hc'] at hloaded
    cases hloaded
  · intro hfits
    rw [if_pos hfits] at hloaded
    obtain ⟨c', hc', h⟩ := hloaded
    refine ⟨c', hc', fun p number ht hu => ?_, h.outside⟩
    rw [h.cacheState_eq ht ht hu]
    exact initStateMapping_imageOf _

def allStates : InventoryPages := fun _ _ => 0xE4

def unloadedCache : TipCache where
  transactionsPerBlock := 4
  transactionsPerBlock_pos := by decide
  header := { latestCommitNumber := cnPrehistoric, oldestTransaction := 0, snapshotReleaseCount := 0 }
  snapshotList :=
    { slotsAllocated := 16, slotsUsed := 0, minFreeSlot := 0, slots := fun _ => { attachmentId := 0, snapshot := 0 } }
  blocks _ := none
  blocksMemory _ _ := false

/-- A vector of one byte for the states of more than `2 ^ 34` transactions -/
theorem loadInventoryPages_overruns :
    ¬ Agrees unloadedCache allStates 32768 1 (2 ^ 34) (unloadedCache.loadInventoryPages 0 allStates 32768
      (fun _ => 0) 1 (2 ^ 34)) := by
  rintro ⟨c', hc', -⟩
  have hnone := @loadInventoryPages_loaded allStates unloadedCache 0 32768 (fun _ => 0) 1 (2 ^ 34)
    (by decide) (by decide) (by decide)
  rw [if_neg (by decide), hc'] at hnone
  cases hnone

/-- Two inventory pages, the second of them read in part, go into two blocks. -/
theorem loadInventoryPages_agrees_iff_allStates :
    Agrees unloadedCache allStates 22 3 9 (unloadedCache.loadInventoryPages 0 allStates 22 (fun _ => 0) 3 9) :=
  (loadInventoryPages_agrees_iff (by decide) (by decide) (by decide)).mpr (by decide)

example : traFetchState allStates (transPerTIP 22) 6 = 2 := by decide

end TipCache
end Firebird.Tpc
