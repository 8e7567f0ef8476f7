import Firebird.Lib.Run
import Firebird.Lock.Safety
import Firebird.Rw.Keeps

/-! # The read/write lock under any interleaving

Every step keeps what holds of each process, and the cached locks of the processes stay compatible, unless the step is
one of those in which the code forgets a caller. -/

namespace Firebird.Rw

open Lib Function
open Lock (Level compatible lowerTo)
open Lib (count)

def Lowered (old new : Level) : Prop := new = old ∨ new = .none ∨ new = lckRead ∧ old ≠ .none

section
variable {T : Type} [DecidableEq T] (p : Process T) (t : T)

theorem lowered_lockWriteStage3 : Lowered p.lckPhysical (p.lockWriteStage3 t).lckPhysical := by
  unfold Process.lockWriteStage3
  split
  · exact .inl rfl
  · split
    · exact .inr (.inl rfl)
    · exact .inl rfl

theorem lowered_lockWriteStage2 : Lowered p.lckPhysical (p.lockWriteStage2 t).lckPhysical := by
  unfold Process.lockWriteStage2
  split
  · exact .inl rfl
  · exact lowered_lockWriteStage3 p t

theorem lowered_lockWriteStage1 : Lowered p.lckPhysical (p.lockWriteStage1 t).lckPhysical := by
  unfold Process.lockWriteStage1
  split
  · exact .inl rfl
  · exact lowered_lockWriteStage2 p t

theorem lckPhysical_lockReadStage2 (queueJump : Bool) : (p.lockReadStage2 t queueJump).lckPhysical = p.lckPhysical := by
  unfold Process.lockReadStage2
  split_ifs <;> rfl

theorem lckPhysical_lockRead (queueJump : Bool) : (p.lockRead t queueJump).lckPhysical = p.lckPhysical := by
  unfold Process.lockRead
  split
  · rfl
  · exact lckPhysical_lockReadStage2 p t queueJump

theorem lowered_goOn : Lowered p.lckPhysical (p.goOn t).lckPhysical := by
  unfold Process.goOn
  split
  · exact lowered_lockWriteStage1 p t
  · exact lowered_lockWriteStage2 p t
  · exact .inl (lckPhysical_lockReadStage2 p t _)
  · exact .inl (lckPhysical_lockRead p t _)
  · exact .inl rfl

theorem lckPhysical_lockWriteGranted (fetched : Bool) : (p.lockWriteGranted t fetched).lckPhysical = p.lckPhysical := by
  unfold Process.lockWriteGranted
  cases fetched with
  | true => rfl
  | false =>
    dsimp only
    rw [if_neg Bool.false_ne_true]
    split <;> rfl

theorem lckPhysical_lockReadGranted (fetched : Bool) : (p.lockReadGranted t fetched).lckPhysical = p.lckPhysical := by
  cases fetched <;> rfl

theorem lckPhysical_lockWriteRefused : (p.lockWriteRefused t).lckPhysical = p.lckPhysical := by
  unfold Process.lockWriteRefused
  dsimp only
  split_ifs <;> rfl

omit [DecidableEq T] in
theorem lowered_lckDowngrade {pending : Level} (hpending : IsRequested pending) (hlevel : IsRequested p.lckPhysical) :
    Lowered p.lckPhysical (p.lckDowngrade pending).lckPhysical := by
  unfold Process.lckDowngrade
  by_cases hnone : p.lckPhysical = .none
  · rw [if_pos hnone]
    exact .inl rfl
  · rw [if_neg hnone]
    dsimp only
    split
    · exact .inr (.inl rfl)
    · next hkept =>
      rcases lowerTo_kept hpending hlevel hkept with hsame | hread
      · exact .inl hsame
      · exact .inr (.inr ⟨hread, hnone⟩)

theorem lowered_unlockWrite {pending : Level} (hpending : IsRequested pending) (hlevel : IsRequested p.lckPhysical)
    (release : Bool) : Lowered p.lckPhysical (p.unlockWrite t release pending).lckPhysical := by
  unfold Process.unlockWrite
  dsimp only
  generalize hout : ({ p with currentWriter := false } : Process T).setCaller t .outside = out
  have hphys : out.lckPhysical = p.lckPhysical := hout ▸ rfl
  rw [← hphys] at hlevel ⊢
  have hlocked : Lowered out.lckPhysical (if out.lockCaching = false ∨ release = true then out.lckRelease
      else if out.blocking then out.lckDowngrade pending else out).lckPhysical := by
    split
    · exact .inr (.inl rfl)
    · split
      · exact lowered_lckDowngrade out hpending hlevel
      · exact .inl rfl
  generalize (if out.lockCaching = false ∨ release = true then out.lckRelease
    else if out.blocking then out.lckDowngrade pending else out) = locked at hlocked ⊢
  split
  all_goals exact hlocked

theorem lowered_unlockRead : Lowered p.lckPhysical (p.unlockRead t).lckPhysical := by
  unfold Process.unlockRead
  dsimp only
  split
  · split
    · exact .inr (.inl rfl)
    · exact .inl rfl
  · exact .inl rfl

omit [DecidableEq T] in
theorem lowered_tryReleaseLock : Lowered p.lckPhysical p.tryReleaseLock.lckPhysical := by
  unfold Process.tryReleaseLock
  split
  · exact .inl rfl
  · split
    · exact .inr (.inl rfl)
    · exact .inl rfl

omit [DecidableEq T] in
theorem lowered_blockingAst {pending : Level} (hpending : IsRequested pending) (hlevel : IsRequested p.lckPhysical)
    (convertible : Bool) : Lowered p.lckPhysical (p.blockingAstHandler pending convertible).lckPhysical := by
  unfold Process.blockingAstHandler
  split
  · have hdown := lowered_lckDowngrade p hpending hlevel
    dsimp only
    split
    all_goals exact hdown
  · split
    · rename_i hinside
      split
      · refine .inr (.inr ⟨rfl, fun hnone => ?_⟩)
        have hlt := hinside.2.2.2
        rw [hnone] at hlt
        exact absurd hlt (by decide)
      · exact .inl rfl
    · exact .inl rfl

end

/-! ### Runs -/

namespace Processes
variable {P T : Type} [Fintype P] [DecidableEq P] [Fintype T] [DecidableEq T] {s t : Processes P T}

structure Inv (s : Processes P T) : Prop where
  process : ∀ p, Rw.Inv (s p)
  compat : ∀ p q, p ≠ q → compatible (s p).lckPhysical (s q).lckPhysical = true

def ForgetsNobody (s : Processes P T) : Op P T → Prop
  | .tryReleaseLock p => (s p).lckPhysical ≠ .none → (s p).pendingLock = 0
  | .granted p _ write fetched =>
    (fetched = false → (s p).blockingSeen = false) ∧
      (write = false → (∀ u, (s p).callers u ≠ .writerFinished true) ∧
        (fetched = true → ∀ u, (s p).callers u ≠ .writerFinished false))
  | .refused p _ true => (s p).pendingWriters = 1 → ∀ u queueJump, (s p).callers u ≠ .readerWaits queueJump true
  | .refused p _ false => ∀ u, (s p).callers u ≠ .writerFinished true
  | _ => True

def Step (s : Processes P T) (op : Op P T) (t : Processes P T) : Prop := Does Allowed after s op t

def CarefulStep (s : Processes P T) (op : Op P T) (t : Processes P T) : Prop :=
  Does (fun s op => s.Allowed op ∧ s.ForgetsNobody op) after s op t

/-- The processes before any call, each with its `lockCaching`. -/
def initial (lockCaching : P → Bool) : Processes P T := fun p => .initial (lockCaching p)

omit [Fintype P] [DecidableEq P] [DecidableEq T] in
theorem Inv.initial (lockCaching : P → Bool) : Inv (initial lockCaching : Processes P T) where
  process p := {
    vars := .released rfl (Nat.zero_le 1) rfl rfl
    readers := (count_eq_zero fun _ => rfl).symm
    pendingLock := (count_eq_zero fun _ => rfl).symm
    pendingWriters := (count_eq_zero fun _ => rfl).symm
    writers := count_eq_zero fun _ => rfl
    callers := fun _ => trivial }
  compat _ _ _ := by
    change compatible .none .none = true
    decide

omit [DecidableEq T] in
theorem isRequested_pendingState (s : Processes P T) (p : P) : IsRequested (s.pendingState p) := by
  unfold pendingState
  split_ifs
  · exact .inr (.inr rfl)
  · exact .inr (.inl rfl)
  · exact .inl rfl

theorem Inv.effect (h : Inv s) (hT : Fintype.card T < ulongSize) {op : Op P T} (hop : s.Allowed op)
    (hcareful : s.ForgetsNobody op) : Rw.Inv (s.effect op).2 := by
  cases op with
  | lockWrite p t => exact (h.process p).lockWrite hT hop
  | lockRead p t queueJump =>
    have hout : (s p).callers t = .outside := hop
    exact (h.process p).lockRead hT (by rw [hout]; exact ⟨rfl, rfl, rfl, rfl⟩) queueJump
  | wake p t => exact (h.process p).wake t
  | goOn p t => exact (h.process p).goOn hT t
  | enqueue p t write => exact (h.process p).enqueue hop
  | grant p t write => exact (h.process p).grant hop.1
  | refuse p t write => exact (h.process p).refuse hop
  | raise p t write => exact (h.process p).raise hop
  | granted p t write fetched =>
    cases write with
    | true => exact (h.process p).lockWriteGranted hop hcareful.1
    | false => exact (h.process p).lockReadGranted hop (hcareful.2 rfl).1 (hcareful.2 rfl).2 hcareful.1
  | refused p t write =>
    cases write with
    | true => exact (h.process p).lockWriteRefused hop hcareful
    | false => exact (h.process p).lockReadRefused hop hcareful
  | unlockWrite p t release => exact (h.process p).unlockWrite hop (isRequested_pendingState s p)
  | unlockRead p t => exact (h.process p).unlockRead hop
  | tryReleaseLock p => exact (h.process p).tryReleaseLock hcareful
  | blockingAst p => exact (h.process p).blockingAst (isRequested_pendingState s p) _

theorem Inv.lowered (h : Inv s) {op : Op P T} (hop : s.Allowed op) :
    Lowered (s (s.effect op).1).lckPhysical (s.effect op).2.lckPhysical ∨
      s.Compatible (s.effect op).1 (s.effect op).2.lckPhysical := by
  cases op with
  | lockWrite p t => exact .inl (lowered_lockWriteStage1 _ t)
  | lockRead p t queueJump => exact .inl (.inl (lckPhysical_lockRead _ t queueJump))
  | wake p t => exact .inl (.inl rfl)
  | goOn p t => exact .inl (lowered_goOn _ t)
  | enqueue p t write => exact .inl (.inl rfl)
  | grant p t write => exact .inr hop.2
  | refuse p t write | raise p t write => exact .inl (.inl rfl)
  | granted p t write fetched =>
    cases write with
    | true => exact .inl (.inl (lckPhysical_lockWriteGranted _ t fetched))
    | false => exact .inl (.inl (lckPhysical_lockReadGranted _ t fetched))
  | refused p t write =>
    cases write with
    | true => exact .inl (.inl (lckPhysical_lockWriteRefused _ t))
    | false => exact .inl (.inl rfl)
  | unlockWrite p t release =>
    exact .inl (lowered_unlockWrite _ t (isRequested_pendingState s p) (h.process p).vars.level release)
  | unlockRead p t => exact .inl (lowered_unlockRead _ t)
  | tryReleaseLock p => exact .inl (lowered_tryReleaseLock _)
  | blockingAst p =>
    exact .inl (lowered_blockingAst ({ s p with blockingSeen := decide ((s p).lckPhysical ≠ .none) } : Process T)
      (isRequested_pendingState s p) (h.process p).vars.level _)

omit [Fintype P] [DecidableEq P] [Fintype T] [DecidableEq T] in
theorem compatible_of_lowered {old new : Level} (other : Level) (hlevel : IsRequested old) (h : Lowered old new)
    (hc : compatible old other = true) : compatible new other = true := by
  rcases h with rfl | rfl | ⟨rfl, hne⟩
  · exact hc
  · cases other <;> rfl
  · rcases hlevel with rfl | rfl | rfl
    · exact absurd rfl hne
    · exact hc
    · revert hc
      cases other <;> decide

theorem Inv.step (h : Inv s) (hT : Fintype.card T < ulongSize) {op : Op P T} (hs : CarefulStep s op t) : Inv t := by
  obtain ⟨⟨hop, hcareful⟩, rfl⟩ := hs
  have hnew : ∀ q, q ≠ (s.effect op).1 →
      compatible (s.effect op).2.lckPhysical (s q).lckPhysical = true := by
    intro q hq
    rcases h.lowered hop with hl | hc
    · exact compatible_of_lowered _ (h.process _).vars.level hl (h.compat _ _ hq.symm)
    · exact hc q hq
  refine ⟨fun p => ?_, fun p q hpq => ?_⟩
  · unfold after
    by_cases hp : p = (s.effect op).1
    · rw [hp, update_self]
      exact h.effect hT hop hcareful
    · rw [update_of_ne hp]
      exact h.process p
  · unfold after
    by_cases hp : p = (s.effect op).1
    · rw [hp, update_self, update_of_ne (hp ▸ hpq.symm)]
      exact hnew q (hp ▸ hpq.symm)
    · rw [update_of_ne hp]
      by_cases hq : q = (s.effect op).1
      · rw [hq, update_self, Lock.compatible_symm]
        exact hnew p hp
      · rw [update_of_ne hq]
        exact h.compat p q hpq

def Starves (v : Vars) : Caller → Prop
  | .noReaders asleep => asleep = true ∧ v.readers = 0
  | .writerFinished asleep => asleep = true ∧ v.currentWriter = false ∧ v.pendingLock = 0
  | .readerWaits _ asleep => asleep = true ∧ v.pendingWriters = 0 ∧ v.currentWriter = false
  | _ => False

structure Safe (s : Processes P T) : Prop where
  exclusive : ∀ p t q u, (p, t) ≠ (q, u) → (s p).callers t = .writes →
    (s q).callers u ≠ .writes ∧ (s q).callers u ≠ .reads
  readLock : ∀ p, 0 < (s p).readers → lckRead.ord ≤ (s p).lckPhysical.ord
  writeLock : ∀ p, (s p).currentWriter = true → (s p).lckPhysical = lckWrite
  readers : ∀ p, (s p).readers = count Caller.isReads (s p).callers
  pendingWriters : ∀ p, (s p).pendingWriters = count Caller.isPendingWriter (s p).callers
  released : ∀ p, (s p).blockingSeen = true → (s p).readers = 0 → (s p).currentWriter = false →
    (s p).pendingLock = 0 → (s p).lckPhysical = .none
  awake : ∀ p t, Starves (s p).toVars ((s p).callers t) → 0 < (s p).readers ∨ (s p).currentWriter = true

omit [Fintype P] [DecidableEq P] [DecidableEq T] in
theorem Inv.exclusive (h : Inv s) {p q : P} {t u : T} (hne : (p, t) ≠ (q, u)) (ht : (s p).callers t = .writes) :
    (s q).callers u ≠ .writes ∧ (s q).callers u ≠ .reads := by
  have hwriter : (s p).currentWriter = true := (h.process p).currentWriter ht
  by_cases hpq : p = q
  · subst hpq
    refine ⟨fun hu => hne ?_, fun hu => ?_⟩
    · have hone : count Caller.isWrites (s p).callers ≤ 1 := by
        rw [(h.process p).writers]
        exact Bool.toNat_le _
      rw [eq_of_count_le_one hone (t := t) (u := u) (by rw [ht]; rfl) (by rw [hu]; rfl)]
    · exact ((h.process p).readers_pos hu).ne' ((h.process p).vars.writerAlone hwriter).1
  · have hcompat := h.compat p q hpq
    rw [(h.process p).vars.writeLevel hwriter] at hcompat
    have hfree : (s q).lckPhysical = .none := by
      rcases (h.process q).vars.level with hl | hl | hl
      · exact hl
      all_goals
        rw [hl] at hcompat
        exact absurd hcompat (by decide)
    refine ⟨fun hu => ?_, fun hu => ?_⟩
    · have hwrite := (h.process q).vars.writeLevel ((h.process q).currentWriter hu)
      rw [hfree] at hwrite
      exact absurd hwrite (by decide)
    · exact (h.process q).vars.readLevel ((h.process q).readers_pos hu).ne' hfree

omit [Fintype P] [DecidableEq P] [DecidableEq T] in
theorem Inv.not_starves (h : Inv s) (p : P) (t : T) : ¬ Starves (s p).toVars ((s p).callers t) := by
  intro hstarves
  cases hc : (s p).callers t with
  | noReaders asleep =>
    rw [hc] at hstarves
    obtain ⟨rfl, hr⟩ := hstarves
    exact (h.process p).noReaders hc hr
  | writerFinished asleep =>
    rw [hc] at hstarves
    obtain ⟨rfl, hw, hl⟩ := hstarves
    rcases (h.process p).writerFinished hc with h' | h'
    · exact Bool.noConfusion (h'.symm.trans hw)
    · exact h' hl
  | readerWaits queueJump asleep =>
    rw [hc] at hstarves
    obtain ⟨rfl, hp, hw⟩ := hstarves
    rcases (h.process p).readerWaits hc with h' | h'
    · exact h' hp
    · exact Bool.noConfusion (h'.symm.trans hw)
  | _ =>
    rw [hc] at hstarves
    exact hstarves

omit [Fintype P] [DecidableEq P] [DecidableEq T] in
theorem Inv.safe (h : Inv s) : Safe s where
  exclusive _ _ _ _ hne ht := h.exclusive hne ht
  readLock p hr := by
    rcases (h.process p).vars.level with hl | hl | hl
    · exact absurd hl ((h.process p).vars.readLevel hr.ne')
    · rw [hl]
    · rw [hl]
      decide
  writeLock p := (h.process p).vars.writeLevel
  readers p := (h.process p).readers
  pendingWriters p := (h.process p).pendingWriters
  released p hs hr hw hl := by
    by_contra hheld
    rcases (h.process p).vars.promise hs hheld with h | h | h
    · exact h hr
    · exact Bool.noConfusion (h.symm.trans hw)
    · exact h hl
  awake p t hstarves := absurd hstarves (h.not_starves p t)

/-- In a run in which every step forgets nobody, every state is safe. -/
theorem safe_of_careful (hT : Fintype.card T < ulongSize) {lockCaching : P → Bool} {ops : List (Op P T)}
    (h : Run CarefulStep (initial lockCaching) ops t) : Safe t :=
  (h.invariant (fun _ _ _ (hi : Inv _) hs => hi.step hT hs) (Inv.initial lockCaching)).safe

instance (s : Processes P T) : (op : Op P T) → Decidable (s.Allowed op)
  | .lockWrite p t | .lockRead p t _ => inferInstanceAs (Decidable ((s p).callers t = .outside))
  | .wake _ _ => inferInstanceAs (Decidable True)
  | .goOn p t => inferInstanceAs (Decidable (((s p).callers t).isAwake = true))
  | .enqueue p t write => inferInstanceAs (Decidable ((s p).callers t = .locks write))
  | .grant p t write =>
    inferInstanceAs (Decidable ((s p).callers t = .queued write ∧ s.Compatible p (requestedLevel write)))
  | .refuse p t write | .raise p t write => inferInstanceAs (Decidable ((s p).callers t = .queued write))
  | .granted p t write _ => inferInstanceAs (Decidable ((s p).callers t = .granted write))
  | .refused p t write => inferInstanceAs (Decidable ((s p).callers t = .refused write))
  | .unlockWrite p t _ => inferInstanceAs (Decidable ((s p).callers t = .writes))
  | .unlockRead p t => inferInstanceAs (Decidable ((s p).callers t = .reads))
  | .tryReleaseLock _ | .blockingAst _ => inferInstanceAs (Decidable True)

instance (s : Processes P T) : (op : Op P T) → Decidable (s.ForgetsNobody op)
  | .tryReleaseLock p => inferInstanceAs (Decidable ((s p).lckPhysical ≠ .none → (s p).pendingLock = 0))
  | .granted p _ write fetched => inferInstanceAs (Decidable ((fetched = false → (s p).blockingSeen = false) ∧
      (write = false → (∀ u, (s p).callers u ≠ .writerFinished true) ∧
        (fetched = true → ∀ u, (s p).callers u ≠ .writerFinished false))))
  | .refused p _ true => inferInstanceAs (Decidable ((s p).pendingWriters = 1 →
      ∀ u queueJump, (s p).callers u ≠ .readerWaits queueJump true))
  | .refused p _ false => inferInstanceAs (Decidable (∀ u, (s p).callers u ≠ .writerFinished true))
  | .lockWrite _ _ | .lockRead _ _ _ | .wake _ _ | .goOn _ _ | .enqueue _ _ _ | .grant _ _ _ | .refuse _ _ _
  | .raise _ _ _ | .unlockWrite _ _ _ | .unlockRead _ _ | .blockingAst _ => inferInstanceAs (Decidable True)

/-- A reader of process 0 and a writer of process 1, who waits until the reader has left after the blocking AST. -/
def readThenWrite : List (Op (Fin 2) (Fin 2)) :=
  [.lockRead 0 0 false, .enqueue 0 0 false, .grant 0 0 false, .granted 0 0 false true, .lockWrite 1 1,
    .enqueue 1 1 true, .blockingAst 0, .unlockRead 0 0, .grant 1 1 true, .granted 1 1 true true, .unlockWrite 1 1 false]

theorem safe_of_careful_readThenWrite : Safe (readThenWrite.foldl after (initial fun _ => true)) :=
  safe_of_careful (by decide) (run_of_allAllowed (by decide +kernel))

/-- A writer comes while a reader's request is on its way, and is not woken when the reader leaves. -/
def writerForgotten : List (Op (Fin 1) (Fin 2)) :=
  [.lockRead 0 0 false, .enqueue 0 0 false, .lockWrite 0 1, .grant 0 0 false, .granted 0 0 false true, .unlockRead 0 0]

theorem writerForgotten_not_safe : ¬ ∀ (lockCaching : Fin 1 → Bool) (ops : List (Op (Fin 1) (Fin 2)))
    (t : Processes (Fin 1) (Fin 2)), Run Step (initial lockCaching) ops t → Safe t := by
  intro hsafe
  have hrun := hsafe (fun _ => true) writerForgotten _ (run_of_allAllowed (by decide +kernel))
  have hstarves : Starves (writerForgotten.foldl after (initial fun _ => true) 0).toVars
      ((writerForgotten.foldl after (initial fun _ => true) 0).callers 1) := by
    have hc : (writerForgotten.foldl after (initial fun _ => true) 0).callers 1 = .writerFinished true := by
      decide +kernel
    exact ⟨rfl, by decide +kernel, by decide +kernel⟩
  exact absurd (hrun.awake 0 1 hstarves) (by decide +kernel)

end Processes
end Firebird.Rw
