import Firebird.Tpc.States

/-! # How states move

`setState` moves one transaction forward, from active over limbo to committed or dead, and hands out
the next commit number when it commits. -/

namespace Firebird.Tpc

open TipCache

def Unfinished (cn : CommitNumber) : Prop := cn = cnActive ∨ cn = cnLimbo

/-- The moves of one transaction: active to limbo, and both to committed or dead. -/
inductive MovesTo : CommitNumber → CommitNumber → Prop
  | same (cn : CommitNumber) : MovesTo cn cn
  | prepare : MovesTo cnActive cnLimbo
  | commit {old cn : CommitNumber} (hold : Unfinished old) (hcn : IsCommitted cn) : MovesTo old cn
  | dead {old : CommitNumber} (hold : Unfinished old) : MovesTo old cnDead

theorem Unfinished.not_isCommitted {cn : CommitNumber} (h : Unfinished cn) : ¬IsCommitted cn := by
  rcases h with rfl | rfl
  · decide
  · decide

theorem Unfinished.ne_cnDead {cn : CommitNumber} (h : Unfinished cn) : cn ≠ cnDead := by
  rcases h with rfl | rfl
  · decide
  · decide

theorem MovesTo.trans {a b c : CommitNumber} (hab : MovesTo a b) (hbc : MovesTo b c) : MovesTo a c := by
  cases hab with
  | same => exact hbc
  | prepare =>
    cases hbc with
    | same => exact .prepare
    | commit _ hcn => exact .commit (.inl rfl) hcn
    | dead _ => exact .dead (.inl rfl)
  | commit hold hcn =>
    cases hbc with
    | same => exact .commit hold hcn
    | prepare => exact absurd hcn not_isCommitted_cnActive
    | commit hold' _ | dead hold' => exact absurd hcn hold'.not_isCommitted
  | dead hold =>
    generalize hd : cnDead = dead at hbc
    cases hbc with
    | same => exact hd ▸ .dead hold
    | prepare => exact absurd hd cnActive_ne_cnDead.symm
    | commit hold' _ | dead hold' => exact absurd hd.symm hold'.ne_cnDead

section
variable {a b : CommitNumber} (h : MovesTo a b)
include h

theorem MovesTo.eq_or_unfinished : b = a ∨ Unfinished a := by
  cases h with
  | same => exact .inl rfl
  | prepare => exact .inr (.inl rfl)
  | commit hold _ | dead hold => exact .inr hold

theorem MovesTo.target : b = a ∨ b = cnLimbo ∨ b = cnDead ∨ IsCommitted b := by
  cases h with
  | same => exact .inl rfl
  | prepare => exact .inr (.inl rfl)
  | commit _ hcn => exact .inr (.inr (.inr hcn))
  | dead _ => exact .inr (.inr (.inl rfl))

theorem MovesTo.eq_of_isCommitted (ha : IsCommitted a) : b = a := by
  cases h with
  | same => rfl
  | prepare => exact absurd ha not_isCommitted_cnActive
  | commit hold _ | dead hold => exact absurd ha hold.not_isCommitted

end

namespace TipCache

variable {c c' c₁ c₂ : TipCache} {proc : Process} {n m : TraNumber} {cn : CommitNumber} {st : TraState}

theorem Wf.unfinished (h : Wf c) (hdead : c.entry n ≠ cnDead) (hnew : ¬IsCommitted (c.entry n)) :
    Unfinished (c.entry n) := by
  rcases h.states n with hs | hs | hs | hs
  · exact .inl hs
  · exact .inr hs
  · exact absurd hs hdead
  · exact absurd hs hnew

/-- What one `setState` does to the states and to the commit counter. -/
structure StateSet (c c' : TipCache) (n : TraNumber) (cn : CommitNumber) : Prop where
  oldest : c'.header.oldestTransaction = c.header.oldestTransaction
  snapshotList : c'.snapshotList = c.snapshotList
  perBlock : c'.transactionsPerBlock = c.transactionsPerBlock
  entry_self : c'.entry n = cn
  entry_of_ne : ∀ m, m ≠ n → c'.entry m = c.entry m
  moves : MovesTo (c.entry n) cn
  latest : c'.header.latestCommitNumber = c.header.latestCommitNumber ∧ (cn = c.entry n ∨ ¬IsCommitted cn) ∨
    c'.header.latestCommitNumber = c.header.latestCommitNumber + 1 ∧ cn = c.header.latestCommitNumber + 1 ∧
      ¬IsCommitted (c.entry n) ∧ IsCommitted cn

theorem StateSet.of_attached (hatt : Attached c c₁) (h : StateSet c₁ c' n cn) : StateSet c c' n cn where
  oldest := h.oldest.trans (congrArg _ hatt.header)
  snapshotList := h.snapshotList.trans hatt.snapshotList
  perBlock := h.perBlock.trans hatt.perBlock
  entry_self := h.entry_self
  entry_of_ne m hm := (h.entry_of_ne m hm).trans (hatt.entry_eq m)
  moves := hatt.entry_eq n ▸ h.moves
  latest := by
    rw [← hatt.header, ← hatt.entry_eq n]
    exact h.latest

theorem stateSet_store (hb : (c.blocks (n / c.transactionsPerBlock)).isSome) (hcn : ¬IsCommitted cn)
    (hmoves : MovesTo (c.entry n) cn) : StateSet c (c.store n cn) n cn where
  oldest := rfl
  snapshotList := rfl
  perBlock := rfl
  entry_self := by rw [entry_store hb, if_pos rfl]
  entry_of_ne m hm := by rw [entry_store hb, if_neg hm]
  moves := hmoves
  latest := .inl ⟨rfl, .inr hcn⟩

theorem stateSet_setState (h : Wf c) (hs : c.setState proc n st = .ok (c', cn)) : StateSet c c' n cn := by
  obtain ⟨c₁, hatt, hb, hcase⟩ := setState_cases hs
  have h₁ := h.attached hatt
  refine StateSet.of_attached hatt ?_
  cases hcase with
  | again _ => exact ⟨rfl, rfl, rfl, rfl, fun _ _ => rfl, .same _, .inl ⟨rfl, .inl rfl⟩⟩
  | limbo hact =>
    refine stateSet_store hb not_isCommitted_cnLimbo ?_
    rw [hact]
    exact .prepare
  | dead hold => exact stateSet_store hb not_isCommitted_cnDead (.dead hold)
  | commit hdead hnew =>
    have hcom := h₁.isCommitted_newCommitNumber
    set c₂ : TipCache := { c₁ with header := { c₁.header with latestCommitNumber := c₁.newCommitNumber } }
    have hent : ∀ m, (c₂.store n c₁.newCommitNumber).entry m = if m = n then c₁.newCommitNumber else c₁.entry m :=
      fun m => entry_store (c := c₂) hb
    refine ⟨rfl, rfl, rfl, ?_, fun m hm => ?_, .commit (h₁.unfinished hdead hnew) hcom, .inr ⟨?_, ?_, hnew, hcom⟩⟩
    · rw [hent, if_pos rfl]
    · rw [hent, if_neg hm]
    all_goals exact h₁.newCommitNumber_eq

theorem StateSet.latest_le (h : StateSet c c' n cn) : c.header.latestCommitNumber ≤ c'.header.latestCommitNumber := by
  rcases h.latest with ⟨he, -⟩ | ⟨he, -⟩ <;> lia

theorem StateSet.entry_moves (h : StateSet c c' n cn) (m : TraNumber) : MovesTo (c.entry m) (c'.entry m) := by
  by_cases hm : m = n
  · subst hm
    rw [h.entry_self]
    exact h.moves
  · rw [h.entry_of_ne m hm]
    exact .same _

structure SetStateCall where
  proc : Process
  number : TraNumber
  state : TraState

/-- A call of `setState` that does not stop with a bugcheck. -/
def SetStateStep (c : TipCache) (call : SetStateCall) (c' : TipCache) : Prop :=
  call.number ≤ maxTraNumber ∧ ∃ cn, c.setState call.proc call.number call.state = .ok (c', cn)

theorem Wf.setStateStep {call : SetStateCall} (h : Wf c) (hs : SetStateStep c call c') : Wf c' :=
  have ⟨hn, _, hset⟩ := hs
  h.setState hn hset

theorem setStateRun_moves {calls : List SetStateCall} (h : Wf c) (hrun : Lib.Run SetStateStep c calls c') :
    (∀ n, MovesTo (c.entry n) (c'.entry n)) ∧ c.header.latestCommitNumber ≤ c'.header.latestCommitNumber := by
  refine hrun.rel_of_invariant (I := Wf) (R := fun c c' => (∀ n, MovesTo (c.entry n) (c'.entry n)) ∧
    c.header.latestCommitNumber ≤ c'.header.latestCommitNumber) (fun _ => ⟨fun _ => .same _, le_rfl⟩)
    (fun h₁ h₂ => ⟨fun n => (h₁.1 n).trans (h₂.1 n), h₁.2.trans h₂.2⟩) (fun c call c' hwf hstep => ?_) h
  have ⟨_, _, hset⟩ := hstep
  have hss := stateSet_setState hwf hset
  exact ⟨hwf.setStateStep hstep, hss.entry_moves, hss.latest_le⟩

theorem commit_spec (h : Wf c) (hn : n ≤ maxTraNumber) (hs : c.setState proc n .committed = .ok (c', cn)) :
    IsCommitted cn ∧ cn ≤ c'.header.latestCommitNumber ∧
      (IsCommitted (c.entry n) → cn = c.entry n) ∧
      (¬IsCommitted (c.entry n) → cn = c.header.latestCommitNumber + 1) := by
  have hss := stateSet_setState h hs
  have hcom : IsCommitted cn := by
    obtain ⟨c₁, hatt, -, hcase⟩ := setState_cases hs
    cases hcase with
    | again hst => exact hst.elim And.right fun hst => hst.elim (fun h => nomatch h.1) fun h => nomatch h.1
    | commit _ _ => exact (h.attached hatt).isCommitted_newCommitNumber
  have hle : cn ≤ c'.header.latestCommitNumber := by
    have := (h.setState hn hs).latest n
    rw [hss.entry_self] at this
    exact this hcom
  refine ⟨hcom, hle, fun hold => ?_, fun hold => ?_⟩
  · rcases hss.latest with ⟨-, heq | hnot⟩ | ⟨-, -, hnot, -⟩
    · exact heq
    · exact absurd hcom hnot
    · exact absurd hold hnot
  · rcases hss.latest with ⟨-, heq | hnot⟩ | ⟨-, heq, -⟩
    · exact absurd (heq ▸ hcom) hold
    · exact absurd hcom hnot
    · exact heq

theorem commit_commit {calls : List SetStateCall} {proc' : Process} {cm : CommitNumber} (h : Wf c)
    (hn : n ≤ maxTraNumber) (hm : m ≤ maxTraNumber) (hs : c.setState proc n .committed = .ok (c₁, cn))
    (hrun : Lib.Run SetStateStep c₁ calls c₂) (hs' : c₂.setState proc' m .committed = .ok (c', cm)) :
    (m = n → cm = cn) ∧ (¬IsCommitted (c₂.entry m) → cn < cm) := by
  have h₁ := h.setState hn hs
  have h₂ : Wf c₂ := hrun.invariant (fun _ _ _ => Wf.setStateStep) h₁
  obtain ⟨hmoves, hlat⟩ := setStateRun_moves h₁ hrun
  obtain ⟨hcom, hle, -, -⟩ := commit_spec h hn hs
  obtain ⟨-, -, hagain, hfirst⟩ := commit_spec h₂ hm hs'
  refine ⟨?_, fun hnew => ?_⟩
  · rintro rfl
    have hent : c₁.entry m = cn := (stateSet_setState h hs).entry_self
    have heq : c₂.entry m = cn := by
      rw [← hent] at hcom ⊢
      exact (hmoves m).eq_of_isCommitted hcom
    rw [← heq] at hcom
    rw [hagain hcom, heq]
  · lia

end TipCache
end Firebird.Tpc
