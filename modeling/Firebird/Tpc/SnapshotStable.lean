import Firebird.Tpc.Visibility

/-! # What a transaction sees stays as it is

The answers of `traSnapshotState` for a concurrency transaction, from its start to its end. -/

namespace Firebird.Tpc

open Lib TipCache

namespace Database

variable {d d' d₀ d₁ d₂ : Database} {n : TraNumber} {trans : JrdTra} {headerSlots : Nat}
  {calls : List Call} {cn cn₀ : CommitNumber}

/-- Every reader of the transaction gets this answer. -/
def Answers (d : Database) (trans : JrdTra) (n : TraNumber) (state : TraState) : Prop :=
  ∀ reader, ∃ d' snapshot, d.traSnapshotState reader trans n = .ok (d', state, snapshot)

def Live (d : Database) (trans : JrdTra) : Prop := d.transactions trans.traNumber = some trans

def settledAnswer (trans : JrdTra) (n : TraNumber) (cn : CommitNumber) : TraState :=
  if n = trans.traNumber then .us
  else if n < trans.traOldest ∨ n = traSystemTransaction then .committed
  else if cn = cnDead then .dead
  else if trans.traSnapshotNumber < cn then .active
  else .committed

theorem stateOfCn_of_isCommitted (h : IsCommitted cn) : stateOfCn cn = .committed := by
  unfold stateOfCn
  have hact : cn ≠ cnActive := fun he => not_isCommitted_cnActive (he ▸ h)
  have hlimbo : cn ≠ cnLimbo := fun he => not_isCommitted_cnLimbo (he ▸ h)
  have hdead : cn ≠ cnDead := fun he => not_isCommitted_cnDead (he ▸ h)
  rw [if_neg hact, if_neg hlimbo, if_neg hdead]

theorem answers_settled (h : Inv d) (hconc : trans.Concurrency) (hsub : trans.traCommitSubTrans = ∅)
    (hn : d.tipCache.stateOf n = cnDead ∨ IsCommitted (d.tipCache.stateOf n)) :
    d.Answers trans n (settledAnswer trans n (d.tipCache.stateOf n)) := by
  intro reader
  obtain ⟨c, -, hstate⟩ := snapshotState_eq reader.proc reader.lockData h hn
  unfold traSnapshotState settledAnswer
  by_cases hus : n = trans.traNumber
  · rw [if_pos hus, if_pos hus]
    exact ⟨_, _, rfl⟩
  rw [if_neg hus, if_neg hus]
  by_cases hold : n < trans.traOldest
  · rw [if_pos hold, if_pos (.inl hold)]
    exact ⟨_, _, rfl⟩
  rw [if_neg hold]
  by_cases hsys : n = traSystemTransaction
  · rw [if_pos hsys, if_pos (.inr hsys)]
    exact ⟨_, _, rfl⟩
  rw [if_neg hsys, if_neg (not_or.mpr ⟨hold, hsys⟩), hstate]
  simp only [hsub, Finset.notMem_empty, if_false, hconc.1, hconc.2, Bool.false_eq_true]
  rcases hn with hdead | hcom
  · rw [hdead]
    exact ⟨_, _, rfl⟩
  · have hdead : d.tipCache.stateOf n ≠ cnDead := fun he => not_isCommitted_cnDead (he ▸ hcom)
    rw [stateOfCn_of_isCommitted hcom, if_neg hdead]
    by_cases hlt : trans.traSnapshotNumber < d.tipCache.stateOf n
    · rw [if_pos ⟨rfl, hlt⟩, if_pos hlt]
      exact ⟨_, _, rfl⟩
    · rw [if_neg fun hboth => hlt hboth.2, if_neg hlt]
      exact ⟨_, _, rfl⟩

/-- The state found now tells the transaction the same as the one found at its start: a commit it sees
    may have become prehistoric. -/
def SameFor (trans : JrdTra) (cn₀ cn : CommitNumber) : Prop :=
  cn = cn₀ ∨ (cn = cnPrehistoric ∧ IsCommitted cn₀ ∧ cn₀ ≤ trans.traSnapshotNumber)

/-- A transaction that is not committed, or not for this one. -/
def HiddenFrom (trans : JrdTra) (cn : CommitNumber) : Prop := ¬IsCommitted cn ∨ trans.traSnapshotNumber < cn

theorem interesting_of_hidden (hlive : d.Live trans) (hhandle : trans.traSnapshotHandle ≠ none)
    (hn : HiddenFrom trans (d.tipCache.stateOf n)) : d.Interesting n :=
  hn.imp_right fun hlt => ⟨trans.traNumber, trans, hlive, hhandle, hlt⟩

theorem SameFor.advance (hadv : Advances d d') (hlive : d.Live trans) (hhandle : trans.traSnapshotHandle ≠ none)
    (hset : cn₀ = cnDead ∨ IsCommitted cn₀) (h : SameFor trans cn₀ (d.tipCache.stateOf n)) :
    SameFor trans cn₀ (d'.tipCache.stateOf n) := by
  have hsettled : d.tipCache.stateOf n = cnDead ∨ IsCommitted (d.tipCache.stateOf n) := by
    rcases h with he | ⟨he, -, -⟩
    · exact he ▸ hset
    · exact .inr (he ▸ isCommitted_cnPrehistoric)
  cases hadv.later.moved n with
  | same hs => rwa [hs]
  | moved hold _ => exact absurd hsettled (not_or.mpr ⟨hold.ne_cnDead, hold.not_isCommitted⟩)
  | forgotten hnot hnew =>
    obtain ⟨hcom, hle⟩ := not_or.mp fun hhid => hnot (interesting_of_hidden hlive hhandle hhid)
    rw [not_not] at hcom
    rcases h with he | ⟨-, hcom₀, hle₀⟩
    · exact .inr ⟨hnew, he ▸ hcom, he ▸ not_lt.mp hle⟩
    · exact .inr ⟨hnew, hcom₀, hle₀⟩

theorem HiddenFrom.advance (hd : Inv d) (hadv : Advances d d') (hlive : d.Live trans)
    (hhandle : trans.traSnapshotHandle ≠ none) (h : HiddenFrom trans (d.tipCache.stateOf n)) :
    HiddenFrom trans (d'.tipCache.stateOf n) := by
  cases hadv.later.moved n with
  | same hs => rwa [hs]
  | moved _ hnew =>
    obtain ⟨handle, hsome⟩ := Option.ne_none_iff_exists'.mp hhandle
    have hle := (hd.taken trans.traNumber trans handle hlive hsome).number_le
    exact hnew.imp_right hle.trans_lt
  | forgotten hnot _ => exact absurd (interesting_of_hidden hlive hhandle h) hnot

theorem run_while_live {P : Database → Prop} (hd : Inv d₁) (hrun : Run (Step headerSlots) d₁ calls d₂)
    (hnum : trans.traNumber ≤ d₁.hdrNextTransaction)
    (keep : ∀ d d', Inv d → Advances d d' → d.Live trans → P d → P d') (hP : P d₁) (hlive : d₂.Live trans) :
    Inv d₂ ∧ P d₂ := by
  have hI := hrun.invariant
    (I := fun d => Inv d ∧ trans.traNumber ≤ d.hdrNextTransaction ∧ (d.Live trans → P d)) ?_ ⟨hd, hnum, fun _ => hP⟩
  · exact ⟨hI.1, hI.2.2 hlive⟩
  · rintro d call d' ⟨hinv, hle, hPd⟩ hstep
    obtain ⟨hinv', hadv⟩ := hinv.step hstep
    refine ⟨hinv', hle.trans hadv.next, fun hlive' => ?_⟩
    have hlive : d.Live trans := (hadv.live _ _ hlive').resolve_right (not_lt.mpr hle)
    exact keep d d' hinv hadv hlive (hPd hlive)

theorem settledAnswer_same (hset : cn₀ = cnDead ∨ IsCommitted cn₀) (hpos : cnPrehistoric ≤ trans.traSnapshotNumber)
    (h : SameFor trans cn₀ cn) : settledAnswer trans n cn = settledAnswer trans n cn₀ := by
  rcases h with rfl | ⟨rfl, hcom, hle⟩
  · rfl
  · unfold settledAnswer
    have hdead : cn₀ ≠ cnDead := fun he => not_isCommitted_cnDead (he ▸ hcom)
    have hdead' : cnPrehistoric ≠ cnDead := by decide
    rw [if_neg hdead, if_neg hdead', if_neg (not_lt.mpr hpos), if_neg (not_lt.mpr hle)]

theorem ne_committed_of_hidden {reader : Reader} {state : TraState} {snapshot : CommitNumber} (hd : Inv d)
    (hconc : trans.Concurrency) (hsub : trans.traCommitSubTrans = ∅)
    (hsnap : trans.traSnapshotNumber ≤ d.tipCache.header.latestCommitNumber) (hold : trans.traOldest ≤ n)
    (hsys : n ≠ traSystemTransaction) (h : HiddenFrom trans (d.tipCache.stateOf n))
    (hs : d.traSnapshotState reader trans n = .ok (d', state, snapshot)) : state ≠ .committed := by
  unfold traSnapshotState at hs
  split at hs
  · cases hs
    exact TraState.noConfusion
  rw [if_neg (not_lt.mpr hold)] at hs
  split at hs
  · cases hs
  · rename_i d₁ stateCn hstate
    have hhid : stateOfCn stateCn ≠ .committed ∨ trans.traSnapshotNumber < stateCn := by
      rcases hd.wf.stateOf_cases n with hun | hset
      · rcases (snapshotState_spec hd hstate).2 hun with (rfl | rfl) | rfl | hlt
        · exact .inl (by decide)
        · exact .inl (by decide)
        · exact .inl (by decide)
        · exact .inr (hsnap.trans_lt hlt)
      · obtain ⟨c, -, heq⟩ := snapshotState_eq reader.proc reader.lockData hd hset
        rw [heq] at hstate
        cases hstate
        rcases hset with hdead | hcom
        · rw [hdead]
          exact .inl (by decide)
        · exact .inr (h.resolve_left (not_not.mpr hcom))
    simp only [hsub, Finset.notMem_empty, if_false, hconc.1, hconc.2, Bool.false_eq_true] at hs
    split at hs
    · cases hs
      exact TraState.noConfusion
    · rename_i hnot
      cases hs
      exact hhid.elim id fun hlt hcom => hnot ⟨hcom, hlt⟩

/-- Between any two states of a sequence of calls of `setState`, each transaction only moves forward. -/
def StatesMoveForward (c : TipCache) : Prop :=
  ∀ before between c₁ c₂, Run SetStateStep c before c₁ → Run SetStateStep c₁ between c₂ →
    ∀ n, MovesTo (c₁.entry n) (c₂.entry n)

/-- Of two commits in a sequence of calls, the second returns the number of the first if it is of the
    same transaction, and a larger one if it hands out a new number. -/
def CommitNumbersIncrease (c : TipCache) : Prop :=
  ∀ before between c₁ c₂ c₃ c₄ proc proc' n m cn cm, Run SetStateStep c before c₁ →
    n ≤ maxTraNumber → c₁.setState proc n .committed = .ok (c₂, cn) →
    Run SetStateStep c₂ between c₃ →
    m ≤ maxTraNumber → c₃.setState proc' m .committed = .ok (c₄, cm) →
    (m = n → cm = cn) ∧ (¬IsCommitted (c₃.entry m) → cn < cm)

/-- As long as a concurrency transaction lives, its answer for a transaction that was committed or dead
    at its start is the same, and it never finds one committed that was not committed then. -/
def SnapshotStable (headerSlots : Nat) (d₀ : Database) : Prop :=
  ∀ before later d d₁ d₂ proc attachment flags snapshotNumber trans,
    Run (Step headerSlots) d₀ before d → attachment ≠ 0 →
    d.transactionStart headerSlots proc attachment flags snapshotNumber = .ok (d₁, trans) → trans.Concurrency →
    Run (Step headerSlots) d₁ later d₂ → d₂.Live trans → ∀ n,
      (d₁.tipCache.stateOf n = cnDead ∨ IsCommitted (d₁.tipCache.stateOf n) →
        ∃ state, d₁.Answers trans n state ∧ d₂.Answers trans n state) ∧
      (¬IsCommitted (d₁.tipCache.stateOf n) → ∀ reader d' state snapshot,
        d₂.traSnapshotState reader trans n = .ok (d', state, snapshot) → state ≠ .committed)

theorem statesMoveForward {c : TipCache} (h : Wf c) : StatesMoveForward c := by
  intro before between c₁ c₂ hrun hrun'
  have h₁ : Wf c₁ := hrun.invariant (fun _ _ _ => Wf.setStateStep) h
  exact (setStateRun_moves h₁ hrun').1

theorem commitNumbersIncrease {c : TipCache} (h : Wf c) : CommitNumbersIncrease c := by
  intro before between c₁ c₂ c₃ c₄ proc proc' n m cn cm hrun hn hs hrun' hm hs'
  have h₁ : Wf c₁ := hrun.invariant (fun _ _ _ => Wf.setStateStep) h
  exact commit_commit h₁ hn hm hs hrun' hs'

theorem snapshotStable (h : Inv d₀) : SnapshotStable headerSlots d₀ := by
  intro before later d d₁ d₂ proc attachment flags snapshotNumber trans hrun hatt hstart hconc hrun' hlive n
  have hd : Inv d := hrun.invariant (fun _ _ _ hi hs => (hi.step hs).1) h
  obtain ⟨hst, rfl⟩ := transactionStart_spec hstart
  have hd₁ : Inv d₁ := hst.inv hd hatt
  have hhandle : trans.traSnapshotHandle ≠ none := by
    rcases hst.cache with ⟨-, hrc, -⟩ | ⟨cn, handle, hsome, -⟩
    · rw [hconc.1] at hrc
      cases hrc
    · rw [hsome]
      exact Option.some_ne_none handle
  have hbounds := hst.snapshot_bounds hd hhandle
  have hnum : trans.traNumber ≤ d₁.hdrNextTransaction := by
    rw [hst.number, hst.next]
  refine ⟨fun hset => ?_, fun hnot reader d' state snapshot hs => ?_⟩
  · obtain ⟨hd₂, hsame⟩ := run_while_live (P := fun d => SameFor trans (d₁.tipCache.stateOf n) (d.tipCache.stateOf n))
      hd₁ hrun' hnum (fun _ _ _ hadv hl hP => hP.advance hadv hl hhandle hset) (.inl rfl) hlive
    have hset₂ : d₂.tipCache.stateOf n = cnDead ∨ IsCommitted (d₂.tipCache.stateOf n) := by
      rcases hsame with heq | ⟨heq, -⟩
      · exact heq ▸ hset
      · exact .inr (heq ▸ isCommitted_cnPrehistoric)
    refine ⟨_, answers_settled hd₁ hconc hst.subTrans hset, ?_⟩
    rw [← settledAnswer_same hset hbounds.1 hsame]
    exact answers_settled hd₂ hconc hst.subTrans hset₂
  · obtain ⟨hd₂, hhid⟩ := run_while_live (P := fun d => HiddenFrom trans (d.tipCache.stateOf n))
      hd₁ hrun' hnum (fun _ _ hinv hadv hl hP => hP.advance hinv hadv hl hhandle) (.inl hnot) hlive
    obtain ⟨handle, hsome⟩ := Option.ne_none_iff_exists'.mp hhandle
    have hsnap := (hd₂.taken trans.traNumber trans handle hlive hsome).number_le
    have hold : trans.traOldest ≤ n := by
      rw [hst.oldest]
      exact hd₁.hdrOldest n (.inl hnot)
    have hsys : n ≠ traSystemTransaction := by
      rintro rfl
      exact hnot ((show d₁.tipCache.stateOf traSystemTransaction = cnPrehistoric from if_pos hd₁.oldest_pos) ▸
        isCommitted_cnPrehistoric)
    exact ne_committed_of_hidden hd₂ hconc hst.subTrans hsnap hold hsys hhid hs

/-- Of a database just opened: states only move forward, commit numbers increase, and snapshots are
    stable under commits, rollbacks, new transactions and moves of the oldest transaction. -/
theorem states_and_snapshots_stable (h : Opened d₀) :
    StatesMoveForward d₀.tipCache ∧ CommitNumbersIncrease d₀.tipCache ∧ SnapshotStable headerSlots d₀ :=
  ⟨statesMoveForward h.cache.wf, commitNumbersIncrease h.cache.wf, snapshotStable h.inv⟩

def emptyDatabase : Database where
  tipCache := SnapshotSystem.emptyCache
  tip _ := .active
  hdrNextTransaction := 1
  hdrOldestTransaction := 1
  dbbOldestTransaction _ := 1
  transactions _ := none

theorem opened_emptyDatabase : Opened emptyDatabase where
  cache := SnapshotSystem.initialized_emptyCache
  oldest := rfl
  oldest_pos := by decide
  dbbOldest _ := le_rfl
  noTransaction _ := rfl

def concurrencyFlags : TraFlags := { system := false, readCommitted := false, readConsistency := false }

def callsBefore : List Call := [.setState 0 3 .committed, .setState 0 4 .dead]
def callsLater : List Call := [.setState 0 5 .limbo, .setState 0 5 .committed, .updateOldest 0 0 0]

theorem states_and_snapshots_stable_emptyDatabase :
    (StatesMoveForward emptyDatabase.tipCache ∧ CommitNumbersIncrease emptyDatabase.tipCache ∧
      SnapshotStable 1 emptyDatabase) ∧
    ∃ d d₁ d₂ trans, Run (Step 1) emptyDatabase callsBefore d ∧
      d.transactionStart 1 0 7 concurrencyFlags 0 = .ok (d₁, trans) ∧ trans.Concurrency ∧
      Run (Step 1) d₁ callsLater d₂ ∧ d₂.Live trans ∧
      d₁.tipCache.stateOf 3 = 2 ∧ d₁.tipCache.stateOf 4 = cnDead ∧ ¬IsCommitted (d₁.tipCache.stateOf 5) ∧
      d₂.tipCache.stateOf 5 = 3 := by
  have h3 : (3 : Nat) ≤ maxTraNumber := by decide
  have h4 : (4 : Nat) ≤ maxTraNumber := by decide
  have h5 : (5 : Nat) ≤ maxTraNumber := by decide
  refine ⟨states_and_snapshots_stable opened_emptyDatabase, _, _, _, _,
    .cons ⟨h3, rfl⟩ (.cons ⟨h4, rfl⟩ (.nil _)), rfl, ⟨rfl, rfl⟩,
    .cons ⟨h5, rfl⟩ (.cons ⟨h5, rfl⟩ (.cons ⟨fun _ _ => Nat.zero_le _, rfl⟩ (.nil _))), rfl, ?_⟩
  decide +kernel

end Database
end Firebird.Tpc
