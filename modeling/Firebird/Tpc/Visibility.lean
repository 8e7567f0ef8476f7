import Firebird.Tpc.Database
import Firebird.Tpc.StateMoves

/-! # Stable snapshots

The state the cache reports for a transaction is its stored state, or prehistoric once the transaction is older than
the oldest one. -/

namespace Firebird.Tpc

open Function

def TipCache.stateOf (c : TipCache) (n : TraNumber) : CommitNumber :=
  if n < c.header.oldestTransaction then cnPrehistoric else c.entry n

namespace TipCache

variable {c c' c₁ : TipCache} {proc : Process} {n : TraNumber} {cn : CommitNumber}

theorem isCommitted_cnPrehistoric : IsCommitted cnPrehistoric := by decide

theorem Wf.stateOf_cases (h : Wf c) (n : TraNumber) :
    Unfinished (c.stateOf n) ∨ c.stateOf n = cnDead ∨ IsCommitted (c.stateOf n) := by
  unfold stateOf
  split
  · exact .inr (.inr isCommitted_cnPrehistoric)
  · rcases h.states n with hs | hs | hs | hs
    · exact .inl (.inl hs)
    · exact .inl (.inr hs)
    · exact .inr (.inl hs)
    · exact .inr (.inr hs)

theorem Attached.stateOf_eq (h : Attached c c') (n : TraNumber) : c'.stateOf n = c.stateOf n := by
  unfold stateOf
  rw [h.header, h.entry_eq]

theorem cacheState_spec (h : Wf c) (hs : c.cacheState proc n = (c', cn)) : Attached c c' ∧ cn = c.stateOf n := by
  unfold cacheState at hs
  unfold stateOf
  split at hs
  · rename_i hlt
    cases hs
    exact ⟨.refl c, (if_pos hlt).symm⟩
  · rename_i hge
    rw [if_neg hge]
    have hsome := getTransactionStatusBlock_isSome proc h.mapped (Nat.div_le_div_right (not_lt.mp hge))
    split at hs
    · rename_i c₁ data hget
      cases hs
      obtain ⟨hatt, hblk⟩ := getTransactionStatusBlock_spec hget
      refine ⟨hatt, ?_⟩
      rw [← hatt.entry_eq, entry_eq_of_blocks (c := c') (hatt.perBlock ▸ hblk data rfl), hatt.perBlock]
    · rename_i c₁ hget
      rw [hget] at hsome
      cases hsome

/-- What a step may do to the reported states: a transaction that is not interesting any more may be
    forgotten, and one that is not finished may move, to a number above the counter if it commits. -/
inductive Moved (c c' : TipCache) (interesting : TraNumber → Prop) (n : TraNumber) : Prop
  | same (h : c'.stateOf n = c.stateOf n)
  | moved (hold : Unfinished (c.stateOf n))
      (hnew : ¬IsCommitted (c'.stateOf n) ∨ c.header.latestCommitNumber < c'.stateOf n)
  | forgotten (hnot : ¬interesting n) (hnew : c'.stateOf n = cnPrehistoric)

structure Later (c c' : TipCache) (interesting : TraNumber → Prop) : Prop where
  latest : c.header.latestCommitNumber ≤ c'.header.latestCommitNumber
  moved : ∀ n, Moved c c' interesting n

variable {interesting : TraNumber → Prop}

theorem Later.of_eq (hl : c'.header.latestCommitNumber = c.header.latestCommitNumber)
    (hs : ∀ n, c'.stateOf n = c.stateOf n) : Later c c' interesting :=
  ⟨hl.ge, fun n => .same (hs n)⟩

theorem later_attached (h : Attached c c') : Later c c' interesting :=
  .of_eq (by rw [h.header]) h.stateOf_eq

theorem stateOf_congr (hper : c'.transactionsPerBlock = c.transactionsPerBlock) (hb : c'.blocks = c.blocks)
    (ho : c'.header.oldestTransaction = c.header.oldestTransaction) (n : TraNumber) : c'.stateOf n = c.stateOf n := by
  unfold stateOf entry
  rw [hper, hb, ho]

theorem later_stateSet (h : StateSet c c' n cn) : Later c c' interesting where
  latest := h.latest_le
  moved m := by
    by_cases hlt : m < c.header.oldestTransaction
    · refine .same ?_
      unfold stateOf
      rw [h.oldest, if_pos hlt, if_pos hlt]
    · have hstate : c.stateOf m = c.entry m := if_neg hlt
      have hstate' : c'.stateOf m = c'.entry m := by
        unfold stateOf
        rw [h.oldest, if_neg hlt]
      by_cases hm : m = n
      · subst hm
        have hmoves := h.moves
        rw [← hstate] at hmoves
        have hlatest := h.latest
        rw [← hstate] at hlatest
        rw [h.entry_self] at hstate'
        rcases hmoves.eq_or_unfinished with hsame | hold
        · exact .same (hstate'.trans hsame)
        · refine .moved hold ?_
          rw [hstate']
          rcases hlatest with ⟨-, heq | hnot⟩ | ⟨-, heq, -, -⟩
          · exact .inl (heq ▸ hold.not_isCommitted)
          · exact .inl hnot
          · exact .inr (heq ▸ Nat.lt_succ_self _)
      · exact .same (by rw [hstate', hstate, h.entry_of_ne m hm])

theorem StateSet.number (h : StateSet c c' n cn) (hold : Unfinished (c.entry n)) :
    Unfinished cn ∨ cn = cnDead ∨ c.header.latestCommitNumber < cn := by
  rcases h.latest with ⟨-, hcase⟩ | ⟨-, heq, -⟩
  · have hnot : ¬IsCommitted cn := hcase.elim (fun heq => heq ▸ hold.not_isCommitted) id
    have hmoves := h.moves
    rcases hmoves.target with heq | hlimbo | hdead | hcom
    · exact .inl (heq ▸ hold)
    · exact .inl (.inr hlimbo)
    · exact .inr (.inl hdead)
    · exact absurd hcom hnot
  · exact .inr (.inr (heq ▸ Nat.lt_succ_self _))

theorem Later.of_attached (hatt : Attached c c₁) (h : Later c₁ c' interesting) : Later c c' interesting where
  latest := hatt.header ▸ h.latest
  moved n := by
    cases h.moved n with
    | same hs => exact .same (hs.trans (hatt.stateOf_eq n))
    | moved hold hnew => exact .moved (hatt.stateOf_eq n ▸ hold) (hatt.header ▸ hnew)
    | forgotten hnot hnew => exact .forgotten hnot hnew

theorem later_updateOldestTransaction {oldest oldestSnapshot : TraNumber} (h : ∀ n, interesting n → oldest ≤ n) :
    Later c (c.updateOldestTransaction oldest oldestSnapshot) interesting where
  latest := (released_updateOldestTransaction c oldest oldestSnapshot).latest.ge
  moved n := by
    have hrel := released_updateOldestTransaction c oldest oldestSnapshot
    have hold := updateOldestTransaction_oldest c oldest oldestSnapshot
    by_cases hlt : n < (c.updateOldestTransaction oldest oldestSnapshot).header.oldestTransaction
    · have hnew : (c.updateOldestTransaction oldest oldestSnapshot).stateOf n = cnPrehistoric := if_pos hlt
      by_cases hc : n < c.header.oldestTransaction
      · exact .same (hnew.trans (if_pos hc).symm)
      · refine .forgotten (fun hint => ?_) hnew
        have := h n hint
        lia
    · refine .same ?_
      have hc : ¬n < c.header.oldestTransaction := fun hc => hlt (hc.trans_le hrel.oldest)
      unfold stateOf
      rw [if_neg hlt, if_neg hc, hrel.entry_eq (not_lt.mp hlt)]

end TipCache

namespace Database

open TipCache

variable {d d' : Database} {n : TraNumber} {trans : JrdTra} {headerSlots : Nat} {call : Call}

/-- A transaction is interesting while it is not committed, and while a live snapshot is older than
    its commit. -/
def Interesting (d : Database) (n : TraNumber) : Prop :=
  ¬IsCommitted (d.tipCache.stateOf n) ∨
    ∃ k trans, d.transactions k = some trans ∧ trans.traSnapshotHandle ≠ none ∧
      trans.traSnapshotNumber < d.tipCache.stateOf n

structure SnapshotTaken (c : TipCache) (trans : JrdTra) (handle : SnapshotHandle) : Prop where
  allocated : c.snapshotList.Allocated handle
  snapshot : (c.snapshotList.slots handle).snapshot = trans.traSnapshotNumber
  used : handle < c.snapshotList.slotsUsed
  number_pos : cnPrehistoric ≤ trans.traSnapshotNumber
  number_le : trans.traSnapshotNumber ≤ c.header.latestCommitNumber

structure Inv (d : Database) : Prop where
  wf : Wf d.tipCache
  oldest_pos : traSystemTransaction < d.tipCache.header.oldestTransaction
  hdrOldest : ∀ n, d.Interesting n → d.hdrOldestTransaction ≤ n
  dbbOldest : ∀ proc n, d.Interesting n → d.dbbOldestTransaction proc ≤ n
  number : ∀ k trans, d.transactions k = some trans → trans.traNumber = k ∧ k ≤ d.hdrNextTransaction
  taken : ∀ k trans handle, d.transactions k = some trans → trans.traSnapshotHandle = some handle →
    SnapshotTaken d.tipCache trans handle
  handles : ∀ k trans k' trans' handle, d.transactions k = some trans → d.transactions k' = some trans' →
    trans.traSnapshotHandle = some handle → trans'.traSnapshotHandle = some handle → k = k'
  owned : ∀ slot, d.tipCache.snapshotList.Allocated slot →
    ∃ k trans, d.transactions k = some trans ∧ trans.traSnapshotHandle = some slot

/-- A database just opened: no transaction is live, and all below the oldest are committed. -/
structure Opened (d : Database) : Prop where
  cache : Initialized d.tipCache
  oldest : d.tipCache.header.oldestTransaction = d.hdrOldestTransaction
  oldest_pos : traSystemTransaction < d.hdrOldestTransaction
  dbbOldest : ∀ proc, d.dbbOldestTransaction proc ≤ d.hdrOldestTransaction
  noTransaction : ∀ k, d.transactions k = none

theorem Opened.oldest_le (h : Opened d) (hn : d.Interesting n) : d.hdrOldestTransaction ≤ n := by
  by_contra hlt
  have hstate : d.tipCache.stateOf n = cnPrehistoric := if_pos (h.oldest ▸ not_le.mp hlt)
  rcases hn with hnot | ⟨k, trans, hk, -⟩
  · exact hnot (hstate ▸ isCommitted_cnPrehistoric)
  · rw [h.noTransaction k] at hk
    cases hk

theorem Opened.inv (h : Opened d) : Inv d where
  wf := h.cache.wf
  oldest_pos := h.oldest ▸ h.oldest_pos
  hdrOldest _ := h.oldest_le
  dbbOldest proc _ hn := (h.dbbOldest proc).trans (h.oldest_le hn)
  number k _ hk := nomatch (h.noTransaction k).symm.trans hk
  taken k _ _ hk := nomatch (h.noTransaction k).symm.trans hk
  handles k _ _ _ _ hk := nomatch (h.noTransaction k).symm.trans hk
  owned slot hslot := absurd (h.cache.noSnapshot slot) hslot

/-! ### The calls -/

/-- Calls on transactions that have a number; the oldest transaction passed on is at most the first
    interesting one. -/
def Allowed (d : Database) : Call → Prop
  | .setState _ number _ => number ≤ maxTraNumber
  | .start _ attachment _ _ => attachment ≠ 0
  | .updateOldest _ oldest _ => ∀ n, d.Interesting n → oldest ≤ n
  | .release _ => True
  | .read _ _ number => number ≤ maxTraNumber

def Step (headerSlots : Nat) : Database → Call → Database → Prop := Lib.Steps Allowed (exec headerSlots)

/-- What every call does: states move, transaction numbers grow, and a live transaction was live
    before or has a new number. -/
structure Advances (d d' : Database) : Prop where
  later : Later d.tipCache d'.tipCache d.Interesting
  next : d.hdrNextTransaction ≤ d'.hdrNextTransaction
  live : ∀ k trans, d'.transactions k = some trans → d.transactions k = some trans ∨ d.hdrNextTransaction < k

def SnapshotsFrom (d d' : Database) : Prop :=
  ∀ k trans, d'.transactions k = some trans → trans.traSnapshotHandle ≠ none →
    cnPrehistoric ≤ trans.traSnapshotNumber ∧ (d.tipCache.header.latestCommitNumber ≤ trans.traSnapshotNumber ∨
      ∃ k' trans', d.transactions k' = some trans' ∧ trans'.traSnapshotHandle ≠ none ∧
        trans'.traSnapshotNumber = trans.traSnapshotNumber)

theorem Inv.latest_of_isCommitted (h : Inv d) (hn : IsCommitted (d.tipCache.stateOf n)) :
    d.tipCache.stateOf n ≤ d.tipCache.header.latestCommitNumber := by
  unfold stateOf at hn ⊢
  split
  · exact h.wf.latest_bound.1
  · rename_i hge
    rw [if_neg hge] at hn
    exact h.wf.latest n hn

theorem Inv.interesting_of_later (h : Inv d) (hlater : Later d.tipCache d'.tipCache d.Interesting)
    (hfrom : SnapshotsFrom d d') (hn : d'.Interesting n) : d.Interesting n := by
  by_contra hnot
  obtain ⟨hcom, hseen⟩ := not_or.mp hnot
  rw [not_not] at hcom
  have hstate : d'.tipCache.stateOf n = d.tipCache.stateOf n ∨ d'.tipCache.stateOf n = cnPrehistoric := by
    cases hlater.moved n with
    | same hs => exact .inl hs
    | moved hold _ => exact absurd hcom hold.not_isCommitted
    | forgotten _ hnew => exact .inr hnew
  rcases hn with hn | ⟨k, trans, hk, hhandle, hlt⟩
  · rcases hstate with hs | hs
    · exact hn (hs ▸ hcom)
    · exact hn (hs ▸ isCommitted_cnPrehistoric)
  · obtain ⟨hpos, hle | ⟨k', trans', hk', hhandle', heq⟩⟩ := hfrom k trans hk hhandle
    · rcases hstate with hs | hs
      · have := h.latest_of_isCommitted hcom
        lia
      · lia
    · rcases hstate with hs | hs
      · exact hseen ⟨k', trans', hk', hhandle', by rw [heq, ← hs]; exact hlt⟩
      · lia

theorem Inv.snapshotsFrom_of_eq (h : Inv d) (htra : d'.transactions = d.transactions) : SnapshotsFrom d d' := by
  intro k trans hk hhandle
  rw [htra] at hk
  obtain ⟨handle, hsome⟩ := Option.ne_none_iff_exists'.mp hhandle
  exact ⟨(h.taken k trans handle hk hsome).number_pos, .inr ⟨k, trans, hk, hhandle, rfl⟩⟩

theorem Inv.of_later (h : Inv d) (hwf : Wf d'.tipCache) (hlater : Later d.tipCache d'.tipCache d.Interesting)
    (hlist : d'.tipCache.snapshotList = d.tipCache.snapshotList) (htra : d'.transactions = d.transactions)
    (hold : d.tipCache.header.oldestTransaction ≤ d'.tipCache.header.oldestTransaction)
    (hnext : d'.hdrNextTransaction = d.hdrNextTransaction) (hhdr : d'.hdrOldestTransaction = d.hdrOldestTransaction)
    (hdbb : ∀ proc n, d.Interesting n → d'.dbbOldestTransaction proc ≤ n) : Inv d' ∧ Advances d d' := by
  have hint : ∀ {n}, d'.Interesting n → d.Interesting n :=
    fun hn => h.interesting_of_later hlater (h.snapshotsFrom_of_eq htra) hn
  refine ⟨⟨hwf, h.oldest_pos.trans_le hold, fun n hn => ?_, fun proc n hn => hdbb proc n (hint hn), ?_, ?_, ?_, ?_⟩,
    ⟨hlater, hnext.ge, fun k trans hk => .inl (htra ▸ hk)⟩⟩
  · rw [hhdr]
    exact h.hdrOldest n (hint hn)
  · rw [htra, hnext]
    exact h.number
  · rw [htra]
    intro k trans handle hk hhandle
    have ht := h.taken k trans handle hk hhandle
    refine ⟨hlist ▸ ht.allocated, hlist ▸ ht.snapshot, hlist ▸ ht.used, ht.number_pos, ?_⟩
    exact ht.number_le.trans hlater.latest
  · rw [htra]
    exact h.handles
  · rw [htra, hlist]
    exact h.owned

variable {cn : CommitNumber}

theorem traSetState_step {proc : Process} {state : TipState} (h : Inv d) (hn : n ≤ maxTraNumber)
    (hs : d.traSetState proc n state = .ok (d', cn)) : Inv d' ∧ Advances d d' := by
  unfold traSetState at hs
  split at hs
  · rename_i tipCache cn' hset
    cases hs
    have hss := stateSet_setState h.wf hset
    exact h.of_later (h.wf.setState hn hset) (later_stateSet hss) hss.snapshotList rfl hss.oldest.ge rfl rfl h.dbbOldest
  · cases hs

theorem updateOldest_step {proc : Process} {oldest oldestSnapshot : TraNumber} (h : Inv d)
    (hn : ∀ n, d.Interesting n → oldest ≤ n) :
    Inv (d.updateOldest proc oldest oldestSnapshot) ∧ Advances d (d.updateOldest proc oldest oldestSnapshot) := by
  have hmax : ∀ n, d.Interesting n → max (d.dbbOldestTransaction proc) oldest ≤ n :=
    fun n hint => max_le (h.dbbOldest proc n hint) (hn n hint)
  have hrel : Released d.tipCache (d.updateOldest proc oldest oldestSnapshot).tipCache :=
    released_updateOldestTransaction ..
  refine h.of_later (hrel.wf h.wf) (later_updateOldestTransaction hmax) hrel.snapshotList rfl hrel.oldest rfl rfl
    fun proc' n hint => ?_
  by_cases hp : proc' = proc
  · subst hp
    simpa [updateOldest] using hmax n hint
  · simpa [updateOldest, hp] using h.dbbOldest proc' n hint

theorem attached_step {c : TipCache} (h : Inv d) (hatt : Attached d.tipCache c) :
    Inv { d with tipCache := c } ∧ Advances d { d with tipCache := c } :=
  h.of_later (h.wf.attached hatt) (later_attached hatt) hatt.snapshotList rfl (by rw [hatt.header]) rfl rfl h.dbbOldest

theorem Interesting.of_attached {c : TipCache} (hatt : Attached d.tipCache c) :
    ({ d with tipCache := c } : Database).Interesting = d.Interesting := by
  funext n
  unfold Interesting
  rw [hatt.stateOf_eq]

theorem Advances.of_attached {c : TipCache} (hatt : Attached d.tipCache c)
    (h : Advances { d with tipCache := c } d') : Advances d d' :=
  ⟨.of_attached hatt (Interesting.of_attached hatt ▸ h.later), h.next, h.live⟩

theorem snapshotState_eq (proc : Process) (lockData : TraNumber → Bool) (h : Inv d)
    (hn : d.tipCache.stateOf n = cnDead ∨ IsCommitted (d.tipCache.stateOf n)) :
    ∃ c, Attached d.tipCache c ∧
      d.snapshotState proc lockData n = .ok ({ d with tipCache := c }, d.tipCache.stateOf n) := by
  unfold snapshotState
  cases hc : d.tipCache.cacheState proc n with
  | mk c cn =>
    obtain ⟨hatt, rfl⟩ := cacheState_spec h.wf hc
    exact ⟨c, hatt, if_pos hn⟩

/-- What `snapshotState` does, and the state it finds for a transaction that is not finished: no
    commit number, or one above the counter. -/
theorem snapshotState_spec {proc : Process} {lockData : TraNumber → Bool} (h : Inv d)
    (hs : d.snapshotState proc lockData n = .ok (d', cn)) :
    (n ≤ maxTraNumber → Inv d' ∧ Advances d d') ∧
      (Unfinished (d.tipCache.stateOf n) →
        Unfinished cn ∨ cn = cnDead ∨ d.tipCache.header.latestCommitNumber < cn) := by
  unfold snapshotState at hs
  cases hc : d.tipCache.cacheState proc n with
  | mk c stateCn =>
    obtain ⟨hatt, rfl⟩ := cacheState_spec h.wf hc
    obtain ⟨hinv, hadv⟩ := attached_step h hatt
    simp only [hc] at hs
    split at hs
    · rename_i hdone
      cases hs
      refine ⟨fun _ => ⟨hinv, hadv⟩, fun hold => ?_⟩
      exact absurd hdone (not_or.mpr ⟨hold.ne_cnDead, hold.not_isCommitted⟩)
    · rename_i hdone
      have hold : Unfinished (d.tipCache.stateOf n) := (h.wf.stateOf_cases n).resolve_right hdone
      have hge : ¬n < c.header.oldestTransaction := fun hlt =>
        hold.not_isCommitted (hatt.stateOf_eq n ▸ (show c.stateOf n = cnPrehistoric from if_pos hlt) ▸
          isCommitted_cnPrehistoric)
      have hent : Unfinished (c.entry n) := by
        rwa [← hatt.stateOf_eq n, show c.stateOf n = c.entry n from if_neg hge] at hold
      split at hs
      · cases hs
        exact ⟨fun _ => ⟨hinv, hadv⟩, fun _ => .inl (.inl rfl)⟩
      · split at hs
        · split at hs
          · rename_i d₁ cn' hset
            cases hs
            refine ⟨fun hn => ?_, fun _ => .inr (.inl rfl)⟩
            obtain ⟨hinv', hadv'⟩ := traSetState_step hinv hn hset
            exact ⟨hinv', .of_attached hatt hadv'⟩
          · cases hs
        · split at hs
          · rename_i c' cn' hset
            cases hs
            have hss := stateSet_setState (h.wf.attached hatt) hset
            refine ⟨fun hn => ?_, fun _ => ?_⟩
            · have hset' : Inv { d with tipCache := c' } ∧
                  Advances { d with tipCache := c } { d with tipCache := c' } :=
                hinv.of_later ((h.wf.attached hatt).setState hn hset) (later_stateSet hss) hss.snapshotList rfl
                  hss.oldest.ge rfl rfl hinv.dbbOldest
              exact ⟨hset'.1, .of_attached hatt hset'.2⟩
            · have := hss.number hent
              rwa [hatt.header] at this
          · cases hs

/-- Where an answer comes from; what the cache says may be hidden from the transaction. -/
inductive StateFound (d : Database) (reader : Reader) (trans : JrdTra) (n : TraNumber) :
    Except TpcError (Database × TraState × CommitNumber) → Prop
  | own {snapshot : CommitNumber} (hown : n = trans.traNumber) : StateFound d reader trans n (.ok (d, .us, snapshot))
  | ended {snapshot : CommitNumber} (hown : n ≠ trans.traNumber) :
      StateFound d reader trans n (.ok (d, .committed, snapshot))
  | failed {e : TpcError} (hstate : d.snapshotState reader.proc reader.lockData n = .error e) :
      StateFound d reader trans n (.error e)
  | found {d₁ : Database} {stateCn snapshot : CommitNumber} {state : TraState} (hown : n ≠ trans.traNumber)
      (hstate : d.snapshotState reader.proc reader.lockData n = .ok (d₁, stateCn))
      (h : state = .committed ∨ state = .active ∨ state = stateOfCn stateCn) :
      StateFound d reader trans n (.ok (d₁, state, snapshot))

theorem stateFound (d : Database) (reader : Reader) (trans : JrdTra) (n : TraNumber) :
    StateFound d reader trans n (d.traSnapshotState reader trans n) := by
  unfold traSnapshotState
  by_cases hown : n = trans.traNumber
  · rw [if_pos hown]
    exact .own hown
  rw [if_neg hown]
  by_cases hold : n < trans.traOldest
  · rw [if_pos hold]
    exact .ended hown
  rw [if_neg hold]
  by_cases hsystem : n = traSystemTransaction
  · rw [if_pos hsystem]
    exact .ended hown
  rw [if_neg hsystem]
  cases hstate : d.snapshotState reader.proc reader.lockData n with
  | error e => exact .failed hstate
  | ok answer =>
    dsimp only
    generalize hcn : stateOfCn answer.2 = state
    generalize (if state = .committed then _ else cnActive) = snapshot
    repeat' split
    all_goals exact .found hown hstate (by tauto)

theorem traSnapshotState_database {reader : Reader} {state : TraState}
    (hs : d.traSnapshotState reader trans n = .ok (d', state, cn)) :
    d' = d ∨ ∃ stateCn, d.snapshotState reader.proc reader.lockData n = .ok (d', stateCn) := by
  have hfound := d.stateFound reader trans n
  rw [hs] at hfound
  cases hfound with
  | own => exact .inl rfl
  | ended => exact .inl rfl
  | found _ hstate => exact .inr ⟨_, hstate⟩

theorem traSnapshotState_step {reader : Reader} {state : TraState} (h : Inv d)
    (hn : n ≤ maxTraNumber) (hs : d.traSnapshotState reader trans n = .ok (d', state, cn)) :
    Inv d' ∧ Advances d d' := by
  rcases traSnapshotState_database hs with rfl | ⟨stateCn, hstate⟩
  · exact ⟨h, .of_eq rfl fun _ => rfl, le_rfl, fun _ _ => .inl⟩
  · exact (snapshotState_spec h hstate).1 hn

/-! ### The start and the end of a transaction -/

structure Started (d d' : Database) (trans : JrdTra) : Prop where
  number : trans.traNumber = d.hdrNextTransaction + 1
  next : d'.hdrNextTransaction = d.hdrNextTransaction + 1
  hdrOldest : ∃ proc, d'.hdrOldestTransaction = max d.hdrOldestTransaction (d.dbbOldestTransaction proc)
  dbbOldest : d'.dbbOldestTransaction = d.dbbOldestTransaction
  oldest : trans.traOldest = d'.hdrOldestTransaction
  subTrans : trans.traCommitSubTrans = ∅
  transactions : d'.transactions = update d.transactions (d.hdrNextTransaction + 1) (some trans)
  cache : (trans.traSnapshotHandle = none ∧ trans.traFlags.readCommitted = true ∧ d'.tipCache = d.tipCache) ∨
    (∃ cn handle, trans.traSnapshotHandle = some handle ∧
      BeginSnapshot d.tipCache d'.tipCache trans.traAttachment cn handle trans.traSnapshotNumber)

theorem transactionStart_spec {proc : Process} {att : AttNumber} {flags : TraFlags}
    (hs : d.transactionStart headerSlots proc att flags cn = .ok (d', trans)) :
    Started d d' trans ∧ trans.traAttachment = att := by
  unfold transactionStart bumpTransactionId at hs
  split at hs
  · cases hs
  · rename_i d₁ hbump
    split at hbump
    · cases hbump
    split at hbump
    · cases hbump
    cases hbump
    split at hs
    · rename_i hrc
      cases hs
      exact ⟨⟨rfl, rfl, ⟨proc, rfl⟩, rfl, rfl, rfl, rfl, .inl ⟨rfl, hrc, rfl⟩⟩, rfl⟩
    · split at hs
      · cases hs
      · rename_i c handle cn' hbegin
        cases hs
        exact ⟨⟨rfl, rfl, ⟨proc, rfl⟩, rfl, rfl, rfl, rfl, .inr ⟨cn, handle, rfl, beginSnapshot_spec hbegin⟩⟩, rfl⟩

namespace Started

variable {k : TraNumber} {trans' : JrdTra}

section
variable (h : Started d d' trans)
include h

theorem live (hk : d'.transactions k = some trans') :
    (k = d.hdrNextTransaction + 1 ∧ trans' = trans) ∨ d.transactions k = some trans' := by
  rw [h.transactions] at hk
  by_cases hnew : k = d.hdrNextTransaction + 1
  · subst hnew
    rw [update_self] at hk
    exact .inl ⟨rfl, (Option.some.inj hk).symm⟩
  · rw [update_of_ne hnew] at hk
    exact .inr hk

theorem live_self : d'.transactions trans.traNumber = some trans := by
  rw [h.transactions, h.number, update_self]

theorem live_of_live (hd : Inv d) (hk : d.transactions k = some trans') : d'.transactions k = some trans' := by
  rw [h.transactions, update_of_ne, hk]
  have := (hd.number k trans' hk).2
  lia

theorem stateOf_eq (n : TraNumber) : d'.tipCache.stateOf n = d.tipCache.stateOf n := by
  rcases h.cache with ⟨-, -, hc⟩ | ⟨cn, handle, -, hb⟩
  · rw [hc]
  · exact stateOf_congr hb.perBlock hb.blocks (by rw [hb.header]) n

theorem header : d'.tipCache.header = d.tipCache.header := by
  rcases h.cache with ⟨-, -, hc⟩ | ⟨cn, handle, -, hb⟩
  · rw [hc]
  · exact hb.header

theorem wf (hd : Inv d) : Wf d'.tipCache := by
  rcases h.cache with ⟨-, -, hc⟩ | ⟨cn, handle, -, hb⟩
  · exact hc ▸ hd.wf
  · exact hd.wf.congr hb.perBlock hb.blocks hb.blocksMemory (by rw [hb.header]) (by rw [hb.header])

theorem snapshot (hd : Inv d) (hhandle : trans.traSnapshotHandle ≠ none) :
    trans.traSnapshotNumber = d.tipCache.header.latestCommitNumber ∨
      ∃ k' trans', d.transactions k' = some trans' ∧ trans'.traSnapshotHandle ≠ none ∧
        trans'.traSnapshotNumber = trans.traSnapshotNumber := by
  rcases h.cache with ⟨hnone, -⟩ | ⟨cn, handle, -, hb⟩
  · exact absurd hnone hhandle
  · rcases hb.number with ⟨-, hlatest⟩ | ⟨-, hcn, i, -, hi, hsnap⟩
    · exact .inl hlatest
    · obtain ⟨k', trans', hk', hown⟩ := hd.owned i hi
      refine .inr ⟨k', trans', hk', by rw [hown]; exact Option.some_ne_none i, ?_⟩
      rw [hcn, ← hsnap]
      exact (hd.taken k' trans' i hk' hown).snapshot.symm

theorem snapshot_bounds (hd : Inv d) (hhandle : trans.traSnapshotHandle ≠ none) :
    cnPrehistoric ≤ trans.traSnapshotNumber ∧ trans.traSnapshotNumber ≤ d.tipCache.header.latestCommitNumber := by
  rcases h.snapshot hd hhandle with heq | ⟨k', trans', hk', hhandle', heq⟩
  · rw [heq]
    exact ⟨hd.wf.latest_bound.1, le_rfl⟩
  · obtain ⟨handle', hsome⟩ := Option.ne_none_iff_exists'.mp hhandle'
    have ht := hd.taken k' trans' handle' hk' hsome
    exact heq ▸ ⟨ht.number_pos, ht.number_le⟩

theorem snapshotsFrom (hd : Inv d) : SnapshotsFrom d d' := by
  intro k trans' hk hhandle
  rcases h.live hk with ⟨-, rfl⟩ | hk
  · refine ⟨(h.snapshot_bounds hd hhandle).1, ?_⟩
    exact (h.snapshot hd hhandle).imp_left fun heq => heq.ge
  · obtain ⟨handle, hsome⟩ := Option.ne_none_iff_exists'.mp hhandle
    exact ⟨(hd.taken k trans' handle hk hsome).number_pos, .inr ⟨k, trans', hk, hhandle, rfl⟩⟩

theorem later : Later d.tipCache d'.tipCache d.Interesting :=
  .of_eq (by rw [h.header]) h.stateOf_eq

end

theorem taken_of_live {handle : SnapshotHandle} (h : Started d d' trans) (ht : SnapshotTaken d.tipCache trans' handle) :
    SnapshotTaken d'.tipCache trans' handle ∧ trans.traSnapshotHandle ≠ some handle := by
  rcases h.cache with ⟨hnone, -, hc⟩ | ⟨cn, slot, hslot, hb⟩
  · rw [hc, hnone]
    exact ⟨ht, fun h => nomatch h⟩
  · have hne : handle ≠ slot := by
      rintro rfl
      rcases hb.free with hfree | hpast
      · exact hfree ht.allocated
      · exact absurd ht.used (not_lt.mpr hpast)
    refine ⟨⟨?_, ?_, ht.used.trans_le hb.used.1, ht.number_pos, hb.header ▸ ht.number_le⟩, ?_⟩
    · unfold SnapshotList.Allocated
      rw [hb.slots, update_of_ne hne]
      exact ht.allocated
    · rw [hb.slots, update_of_ne hne]
      exact ht.snapshot
    · rw [hslot]
      exact fun heq => hne (Option.some.inj heq).symm

theorem taken_self {handle : SnapshotHandle} (h : Started d d' trans) (hd : Inv d) (hatt : trans.traAttachment ≠ 0)
    (hhandle : trans.traSnapshotHandle = some handle) : SnapshotTaken d'.tipCache trans handle := by
  have hbounds := h.snapshot_bounds hd (by rw [hhandle]; exact Option.some_ne_none handle)
  rcases h.cache with ⟨hnone, -, -⟩ | ⟨cn, slot, hslot, hb⟩
  · rw [hnone] at hhandle
    cases hhandle
  · rw [hslot] at hhandle
    cases hhandle
    refine ⟨?_, ?_, hb.used.2, hbounds.1, hb.header ▸ hbounds.2⟩
    · unfold SnapshotList.Allocated
      rw [hb.slots, update_self]
      exact hatt
    · rw [hb.slots, update_self]

theorem inv (h : Started d d' trans) (hd : Inv d) (hatt : trans.traAttachment ≠ 0) : Inv d' := by
  have hint : ∀ {n}, d'.Interesting n → d.Interesting n :=
    fun hn => hd.interesting_of_later h.later (h.snapshotsFrom hd) hn
  refine ⟨h.wf hd, h.header ▸ hd.oldest_pos, fun n hn => ?_, fun proc n hn => ?_, fun k trans' hk => ?_,
    fun k trans' handle hk hhandle => ?_, fun k tra k' tra' handle hk hk' hhandle hhandle' => ?_, fun slot hslot => ?_⟩
  · obtain ⟨proc, hhdr⟩ := h.hdrOldest
    rw [hhdr]
    exact max_le (hd.hdrOldest n (hint hn)) (hd.dbbOldest proc n (hint hn))
  · rw [h.dbbOldest]
    exact hd.dbbOldest proc n (hint hn)
  · rw [h.next]
    rcases h.live hk with ⟨rfl, rfl⟩ | hk
    · exact ⟨h.number, le_rfl⟩
    · obtain ⟨hnum, hle⟩ := hd.number k trans' hk
      exact ⟨hnum, hle.trans (Nat.le_succ _)⟩
  · rcases h.live hk with ⟨rfl, rfl⟩ | hk
    · exact h.taken_self hd hatt hhandle
    · exact (h.taken_of_live (hd.taken k trans' handle hk hhandle)).1
  · rcases h.live hk with ⟨rfl, rfl⟩ | hk
    · rcases h.live hk' with ⟨rfl, -⟩ | hk'
      · rfl
      · exact absurd hhandle (h.taken_of_live (hd.taken k' tra' handle hk' hhandle')).2
    · rcases h.live hk' with ⟨rfl, rfl⟩ | hk'
      · exact absurd hhandle' (h.taken_of_live (hd.taken k tra handle hk hhandle)).2
      · exact hd.handles k tra k' tra' handle hk hk' hhandle hhandle'
  · rcases h.cache with ⟨-, -, hc⟩ | ⟨cn, handle, hhandle, hb⟩
    · rw [hc] at hslot
      obtain ⟨k, trans', hk, hown⟩ := hd.owned slot hslot
      exact ⟨k, trans', h.live_of_live hd hk, hown⟩
    · by_cases hs : slot = handle
      · subst hs
        exact ⟨trans.traNumber, trans, h.live_self, hhandle⟩
      · unfold SnapshotList.Allocated at hslot
        rw [hb.slots, update_of_ne hs] at hslot
        obtain ⟨k, trans', hk, hown⟩ := hd.owned slot hslot
        exact ⟨k, trans', h.live_of_live hd hk, hown⟩

theorem advances (h : Started d d' trans) : Advances d d' where
  later := h.later
  next := h.next ▸ Nat.le_succ _
  live k trans' hk := by
    rcases h.live hk with ⟨rfl, -⟩ | hk
    · exact .inr (Nat.lt_succ_self _)
    · exact .inl hk

end Started

structure ReleasedTransaction (d d' : Database) (number : TraNumber) : Prop where
  next : d'.hdrNextTransaction = d.hdrNextTransaction
  hdrOldest : d'.hdrOldestTransaction = d.hdrOldestTransaction
  dbbOldest : d'.dbbOldestTransaction = d.dbbOldestTransaction
  transactions : d'.transactions = update d.transactions number none
  cache : (d'.tipCache = d.tipCache ∧ ∀ trans, d.transactions number = some trans → trans.traSnapshotHandle = none) ∨
    ∃ trans handle, d.transactions number = some trans ∧ trans.traSnapshotHandle = some handle ∧
      EndSnapshot d.tipCache d'.tipCache trans.traAttachment handle

theorem traReleaseTransaction_spec (hs : d.traReleaseTransaction n = .ok d') : ReleasedTransaction d d' n := by
  unfold traReleaseTransaction at hs
  split at hs
  · rename_i hnone
    cases hs
    refine ⟨rfl, rfl, rfl, ?_, .inl ⟨rfl, fun _ hsome => nomatch hnone.symm.trans hsome⟩⟩
    rw [← hnone, update_eq_self]
  · rename_i tra hsome
    split at hs
    · rename_i hhandle
      cases hs
      refine ⟨rfl, rfl, rfl, rfl, .inl ⟨rfl, fun trans htrans => ?_⟩⟩
      rw [hsome] at htrans
      cases htrans
      exact hhandle
    · rename_i handle hhandle
      split at hs
      · rename_i c hend
        cases hs
        exact ⟨rfl, rfl, rfl, rfl, .inr ⟨tra, handle, hsome, hhandle, endSnapshot_spec hend⟩⟩
      · cases hs

namespace ReleasedTransaction

variable {k number : TraNumber} {trans' : JrdTra} {handle : SnapshotHandle}

section
variable (h : ReleasedTransaction d d' number)
include h

theorem live (hk : d'.transactions k = some trans') : k ≠ number ∧ d.transactions k = some trans' := by
  rw [h.transactions] at hk
  by_cases hnum : k = number
  · subst hnum
    rw [update_self] at hk
    cases hk
  · rw [update_of_ne hnum] at hk
    exact ⟨hnum, hk⟩

theorem stateOf_eq (n : TraNumber) : d'.tipCache.stateOf n = d.tipCache.stateOf n := by
  rcases h.cache with ⟨hc, -⟩ | ⟨tra, slot, -, -, he⟩
  · rw [hc]
  · exact stateOf_congr he.perBlock he.blocks he.oldest n

theorem latest : d'.tipCache.header.latestCommitNumber = d.tipCache.header.latestCommitNumber := by
  rcases h.cache with ⟨hc, -⟩ | ⟨tra, slot, -, -, he⟩
  · rw [hc]
  · exact he.latest

theorem oldest : d'.tipCache.header.oldestTransaction = d.tipCache.header.oldestTransaction := by
  rcases h.cache with ⟨hc, -⟩ | ⟨tra, slot, -, -, he⟩
  · rw [hc]
  · exact he.oldest

theorem wf (hd : Inv d) : Wf d'.tipCache := by
  rcases h.cache with ⟨hc, -⟩ | ⟨tra, slot, -, -, he⟩
  · exact hc ▸ hd.wf
  · exact hd.wf.congr he.perBlock he.blocks he.blocksMemory he.latest he.oldest.ge

theorem later : Later d.tipCache d'.tipCache d.Interesting :=
  .of_eq h.latest h.stateOf_eq

theorem advances : Advances d d' :=
  ⟨h.later, h.next.ge, fun _ _ hk => .inl (h.live hk).2⟩

theorem taken (hd : Inv d) (hk : d'.transactions k = some trans')
    (hhandle : trans'.traSnapshotHandle = some handle) : SnapshotTaken d'.tipCache trans' handle := by
  obtain ⟨hnum, hk⟩ := h.live hk
  have ht := hd.taken k trans' handle hk hhandle
  rcases h.cache with ⟨hc, -⟩ | ⟨tra, slot, htra, hslot, he⟩
  · exact hc ▸ ht
  · have hne : handle ≠ slot := by
      rintro rfl
      exact hnum (hd.handles k trans' number tra handle hk htra hhandle hslot)
    have halloc : d'.tipCache.snapshotList.Allocated handle := by
      unfold SnapshotList.Allocated
      rw [he.slots, update_of_ne hne]
      exact ht.allocated
    refine ⟨halloc, ?_, he.used handle ht.used halloc, ht.number_pos, he.latest ▸ ht.number_le⟩
    rw [he.slots, update_of_ne hne]
    exact ht.snapshot

theorem owned (hd : Inv d) {slot : SnapshotHandle}
    (hslot : d'.tipCache.snapshotList.Allocated slot) :
    ∃ k trans, d'.transactions k = some trans ∧ trans.traSnapshotHandle = some slot := by
  have hkeep : ∀ {k tra}, d.transactions k = some tra → k ≠ number → d'.transactions k = some tra :=
    fun hk hne => by rw [h.transactions, update_of_ne hne, hk]
  rcases h.cache with ⟨hc, hnone⟩ | ⟨tra, handle, htra, hhandle, he⟩
  · rw [hc] at hslot
    obtain ⟨k, trans', hk, hown⟩ := hd.owned slot hslot
    refine ⟨k, trans', hkeep hk ?_, hown⟩
    rintro rfl
    rw [hnone trans' hk] at hown
    cases hown
  · have hne : slot ≠ handle := by
      rintro rfl
      unfold SnapshotList.Allocated at hslot
      rw [he.slots, update_self] at hslot
      exact hslot rfl
    unfold SnapshotList.Allocated at hslot
    rw [he.slots, update_of_ne hne] at hslot
    obtain ⟨k, trans', hk, hown⟩ := hd.owned slot hslot
    refine ⟨k, trans', hkeep hk ?_, hown⟩
    rintro rfl
    rw [htra] at hk
    cases hk
    rw [hhandle] at hown
    exact hne (Option.some.inj hown).symm

theorem inv (hd : Inv d) : Inv d' := by
  have hfrom : SnapshotsFrom d d' := fun k trans' hk hhandle => by
    have hk := (h.live hk).2
    obtain ⟨handle, hsome⟩ := Option.ne_none_iff_exists'.mp hhandle
    exact ⟨(hd.taken k trans' handle hk hsome).number_pos, .inr ⟨k, trans', hk, hhandle, rfl⟩⟩
  have hint : ∀ {n}, d'.Interesting n → d.Interesting n := fun hn => hd.interesting_of_later h.later hfrom hn
  refine ⟨h.wf hd, h.oldest ▸ hd.oldest_pos, fun n hn => ?_, fun proc n hn => ?_, fun k trans' hk => ?_,
    fun k trans' handle hk hhandle => h.taken hd hk hhandle, fun k tra k' tra' handle hk hk' => ?_,
    fun slot hslot => h.owned hd hslot⟩
  · rw [h.hdrOldest]
    exact hd.hdrOldest n (hint hn)
  · rw [h.dbbOldest]
    exact hd.dbbOldest proc n (hint hn)
  · rw [h.next]
    exact hd.number k trans' (h.live hk).2
  · exact hd.handles k tra k' tra' handle (h.live hk).2 (h.live hk').2

end

end ReleasedTransaction

theorem Inv.step (h : Inv d) (hs : Step headerSlots d call d') : Inv d' ∧ Advances d d' := by
  obtain ⟨hallowed, hexec⟩ := hs
  cases call with
  | setState proc number state =>
    cases hset : d.traSetState proc number state with
    | error e =>
      rw [exec, hset] at hexec
      cases hexec
    | ok r =>
      rw [exec, hset] at hexec
      cases hexec
      exact traSetState_step h hallowed hset
  | start proc attachment flags snapshotNumber =>
    cases hstart : d.transactionStart headerSlots proc attachment flags snapshotNumber with
    | error e =>
      rw [exec, hstart] at hexec
      cases hexec
    | ok r =>
      rw [exec, hstart] at hexec
      cases hexec
      obtain ⟨hstarted, hatt⟩ := transactionStart_spec hstart
      exact ⟨hstarted.inv h (hatt ▸ hallowed), hstarted.advances⟩
  | updateOldest proc oldest oldestSnapshot =>
    cases hexec
    exact updateOldest_step h hallowed
  | release number =>
    have hrel := traReleaseTransaction_spec hexec
    exact ⟨hrel.inv h, hrel.advances⟩
  | read reader tra number =>
    cases hread : d.traSnapshotState reader tra number with
    | error e =>
      rw [exec, hread] at hexec
      cases hexec
    | ok r =>
      rw [exec, hread] at hexec
      cases hexec
      exact traSnapshotState_step h hallowed hread

end Database
end Firebird.Tpc
