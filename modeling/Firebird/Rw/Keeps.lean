import Firebird.Lib.Count
import Firebird.Rw.GlobalRWLock

/-! # What a step of a process keeps -/

namespace Firebird.Rw

open Lib Function
open Lock (Level compatible lowerTo)
open Lib (count)

/-- What a caller went to sleep for still holds, and at the lock manager it finds the lock as it left it. -/
def Caller.Ok (v : Vars) : Caller → Prop
  | .noReaders asleep => asleep = true → v.readers ≠ 0
  | .writerFinished asleep => v.readers = 0 ∧ (asleep = true → v.currentWriter = true ∨ v.pendingLock ≠ 0)
  | .readerWaits _ asleep => asleep = true → v.pendingWriters ≠ 0 ∨ v.currentWriter = true
  | .locks _ => v.lckPhysical = .none
  | .queued _ => v.lckPhysical = .none
  | .granted write => v.lckPhysical = requestedLevel write
  | .refused _ => v.lckPhysical = .none
  | _ => True

/-- The variables of the process fit together, whoever calls. -/
structure VarsInv (v : Vars) : Prop where
  onePending : v.pendingLock ≤ 1
  level : v.lckPhysical = .none ∨ v.lckPhysical = lckRead ∨ v.lckPhysical = lckWrite
  readLevel : v.readers ≠ 0 → v.lckPhysical ≠ .none
  writeLevel : v.currentWriter = true → v.lckPhysical = lckWrite
  writerAlone : v.currentWriter = true → v.readers = 0 ∧ v.pendingLock = 0
  lockAlone : v.pendingLock ≠ 0 → v.readers = 0
  seen : v.blockingSeen = true → v.lckPhysical ≠ .none → v.blocking = true
  promise : v.blockingSeen = true → v.lckPhysical ≠ .none → v.readers ≠ 0 ∨ v.currentWriter = true ∨ v.pendingLock ≠ 0

/-- The counters count the callers, and what each caller relies on is true. -/
structure Inv {T : Type} [Fintype T] (p : Process T) : Prop where
  vars : VarsInv p.toVars
  readers : p.readers = count Caller.isReads p.callers
  pendingLock : p.pendingLock = count Caller.isPendingLock p.callers
  pendingWriters : p.pendingWriters = count Caller.isPendingWriter p.callers
  writers : count Caller.isWrites p.callers = p.currentWriter.toNat
  callers : ∀ t, (p.callers t).Ok p.toVars

theorem increment_of_lt {n : Nat} (h : n + 1 < ulongSize) : increment n = n + 1 := if_neg h.ne

theorem decrement_add_one {n : Nat} (h : 0 < n) : decrement n + 1 = n := by
  unfold decrement
  rw [if_neg h.ne', Nat.sub_add_cancel h]

/-- Waking up changes no caller's part in the counters. -/
structure Wakes (w : Caller → Caller) : Prop where
  isReads : ∀ c, (w c).isReads = c.isReads
  isWrites : ∀ c, (w c).isWrites = c.isWrites
  isPendingLock : ∀ c, (w c).isPendingLock = c.isPendingLock
  isPendingWriter : ∀ c, (w c).isPendingWriter = c.isPendingWriter

theorem wakes_id : Wakes id := ⟨fun _ => rfl, fun _ => rfl, fun _ => rfl, fun _ => rfl⟩

theorem wakes_noReaders : Wakes Caller.wakeNoReaders := by
  constructor <;> intro c <;> cases c <;> rfl

theorem wakes_writerFinished : Wakes Caller.wakeWriterFinished := by
  constructor <;> intro c <;> cases c <;> rfl

section
variable {c : Caller} {v v' : Vars} (h : c.Ok v) (hnoReaders : c = .noReaders true → v'.readers ≠ 0)
  (hreaders : ∀ asleep, c = .writerFinished asleep → v'.readers = 0)
  (hwriterFinished : c = .writerFinished true → v'.currentWriter = true ∨ v'.pendingLock ≠ 0)
  (hreaderWaits : ∀ queueJump, c = .readerWaits queueJump true → v'.pendingWriters ≠ 0 ∨ v'.currentWriter = true)
  (hlock : c.isPendingLock = true → v'.lckPhysical = v.lckPhysical)
include h hnoReaders hreaders hwriterFinished hreaderWaits hlock

/-- One condition for each state that relies on a variable. -/
theorem Caller.Ok.keep : c.Ok v' := by
  cases c with
  | noReaders asleep => exact fun ha => hnoReaders (ha ▸ rfl)
  | writerFinished asleep => exact ⟨hreaders _ rfl, fun ha => hwriterFinished (ha ▸ rfl)⟩
  | readerWaits queueJump asleep => exact fun ha => hreaderWaits queueJump (ha ▸ rfl)
  | locks write | queued write | granted write | refused write => exact (hlock rfl).trans h
  | outside | yields queueJump | raised write | reads | writes => trivial

omit hwriterFinished hreaderWaits in
theorem Caller.Ok.wakeWriterFinished : c.wakeWriterFinished.Ok v' := by
  cases c with
  | writerFinished asleep => exact ⟨hreaders _ rfl, nofun⟩
  | readerWaits queueJump asleep => exact nofun
  | _ => exact h.keep hnoReaders nofun nofun nofun hlock

omit hnoReaders in
theorem Caller.Ok.wakeNoReaders : c.wakeNoReaders.Ok v' := by
  cases c with
  | noReaders asleep => exact nofun
  | _ => exact h.keep nofun hreaders hwriterFinished hreaderWaits hlock

end

section
variable {T : Type} [Fintype T] {p : Process T} {t : T} {c : Caller} {v : Vars} {w : Caller → Caller}

section
variable (h : Inv p)
include h

theorem Inv.not_pendingLock (hp : p.pendingLock = 0) (u : T) : (p.callers u).isPendingLock = false :=
  eq_false_of_count (h.pendingLock ▸ hp) u

theorem Inv.not_pendingWriter (hp : p.pendingWriters = 0) (u : T) : (p.callers u).isPendingWriter = false :=
  eq_false_of_count (h.pendingWriters ▸ hp) u

/-- At most one caller is at the lock manager. -/
theorem Inv.only_pendingLock (ht : (p.callers t).isPendingLock = true) {u : T} (hu : u ≠ t) :
    (p.callers u).isPendingLock = false := by
  by_contra hne
  exact hu (eq_of_count_le_one (h.pendingLock ▸ h.vars.onePending) ht (Bool.eq_true_of_not_eq_false hne))

theorem Inv.noReaders {u : T} (hu : p.callers u = .noReaders true) : p.readers ≠ 0 := by
  have hok := h.callers u
  rw [hu] at hok
  exact hok rfl

theorem Inv.no_readers {u : T} {asleep : Bool} (hu : p.callers u = .writerFinished asleep) : p.readers = 0 := by
  have hok := h.callers u
  rw [hu] at hok
  exact hok.1

theorem Inv.writerFinished {u : T} (hu : p.callers u = .writerFinished true) :
    p.currentWriter = true ∨ p.pendingLock ≠ 0 := by
  have hok := h.callers u
  rw [hu] at hok
  exact hok.2 rfl

theorem Inv.readerWaits {u : T} {queueJump : Bool} (hu : p.callers u = .readerWaits queueJump true) :
    p.pendingWriters ≠ 0 ∨ p.currentWriter = true := by
  have hok := h.callers u
  rw [hu] at hok
  exact hok rfl

/-- A change that takes nothing away from the sleepers keeps every caller. -/
theorem Inv.keepCaller (u : T) {v : Vars} (hreaders : p.readers ≠ 0 → v.readers ≠ 0)
    (hzero : ∀ asleep, p.callers u = .writerFinished asleep → p.readers = 0 → v.readers = 0)
    (hfinished : p.currentWriter = true ∨ p.pendingLock ≠ 0 → v.currentWriter = true ∨ v.pendingLock ≠ 0)
    (hwaits : p.pendingWriters ≠ 0 ∨ p.currentWriter = true → v.pendingWriters ≠ 0 ∨ v.currentWriter = true)
    (hlock : (p.callers u).isPendingLock = true → v.lckPhysical = p.lckPhysical) : (p.callers u).Ok v :=
  (h.callers u).keep (fun hu => hreaders (h.noReaders hu)) (fun asleep hu => hzero asleep hu (h.no_readers hu))
    (fun hu => hfinished (h.writerFinished hu)) (fun _ hu => hwaits (h.readerWaits hu)) hlock

/-- With no reader and nobody at the lock manager a writer may come in. -/
theorem Inv.others (hreaders : p.readers = 0) (hlock : p.pendingLock = 0) (u : T) {v : Vars}
    (hv : v.readers = 0) (hwriter : v.currentWriter = true ∨ v.pendingLock ≠ 0)
    (hpending : v.pendingWriters ≠ 0 ∨ v.currentWriter = true) : (p.callers u).Ok v := by
  refine h.keepCaller u (fun hne => absurd hreaders hne) (fun _ _ _ => hv) (fun _ => hwriter) (fun _ => hpending) ?_
  rw [h.not_pendingLock hlock u]
  exact fun hne => absurd hne Bool.false_ne_true

end

variable [DecidableEq T]

theorem count_move {is : Caller → Bool} (hw : ∀ c, is (w c) = is c) (f : T → Caller) (t : T) (c : Caller) :
    count is (fun u => w (update f t c u)) + (is (f t)).toNat = count is f + (is c).toNat := by
  rw [count_congr fun u => hw _]
  exact count_update t c

/-- One caller goes on, the counters follow it, and sleepers may be woken. Every step is of this kind. -/
theorem Inv.move (h : Inv p) {d : Caller} (ht : p.callers t = d) (hw : Wakes w) (hvars : VarsInv v)
    (hreaders : v.readers + d.isReads.toNat = p.readers + c.isReads.toNat)
    (hlock : v.pendingLock + d.isPendingLock.toNat = p.pendingLock + c.isPendingLock.toNat)
    (hwriters : v.pendingWriters + d.isPendingWriter.toNat = p.pendingWriters + c.isPendingWriter.toNat)
    (hcurrent : v.currentWriter.toNat + d.isWrites.toNat = p.currentWriter.toNat + c.isWrites.toNat)
    (hc : (w c).Ok v) (hothers : ∀ u, u ≠ t → (w (p.callers u)).Ok v) :
    Inv (T := T) ⟨v, fun u => w (update p.callers t c u)⟩ where
  vars := hvars
  readers := by
    have hcount := ht ▸ count_move hw.isReads p.callers t c
    have hp := h.readers
    dsimp only
    omega
  pendingLock := by
    have hcount := ht ▸ count_move hw.isPendingLock p.callers t c
    have hp := h.pendingLock
    dsimp only
    omega
  pendingWriters := by
    have hcount := ht ▸ count_move hw.isPendingWriter p.callers t c
    have hp := h.pendingWriters
    dsimp only
    omega
  writers := by
    have hcount := ht ▸ count_move hw.isWrites p.callers t c
    have hp := h.writers
    dsimp only
    omega
  callers u := by
    by_cases hu : u = t
    · rw [hu]
      dsimp only
      rw [update_self]
      exact hc
    · dsimp only
      rw [update_of_ne hu]
      exact hothers u hu

theorem Inv.setCaller (h : Inv p) {d : Caller} (ht : p.callers t = d) (hreads : c.isReads = d.isReads)
    (hwrites : c.isWrites = d.isWrites) (hlock : c.isPendingLock = d.isPendingLock)
    (hwriter : c.isPendingWriter = d.isPendingWriter) (hc : c.Ok p.toVars) : Inv (p.setCaller t c) :=
  h.move ht wakes_id h.vars (by rw [hreads]) (by rw [hlock]) (by rw [hwriter]) (by rw [hwrites]) hc
    fun u _ => h.callers u

end

/-! ### The calls -/

section
variable {T : Type} [Fintype T] [DecidableEq T] {p : Process T} {t : T}

/-- The caller is counted as a pending writer and as nothing else. -/
structure WaitsToWrite (c : Caller) : Prop where
  reads : c.isReads = false
  writes : c.isWrites = false
  lock : c.isPendingLock = false
  writer : c.isPendingWriter = true

theorem VarsInv.released {v : Vars} (hphys : v.lckPhysical = .none) (hlock : v.pendingLock ≤ 1)
    (hreaders : v.readers = 0) (hwriter : v.currentWriter = false) : VarsInv v where
  onePending := hlock
  level := .inl hphys
  readLevel h := absurd hreaders h
  writeLevel h := absurd (hwriter ▸ h) Bool.false_ne_true
  writerAlone h := absurd (hwriter ▸ h) Bool.false_ne_true
  lockAlone _ := hreaders
  seen _ h := absurd hphys h
  promise _ h := absurd hphys h

omit [Fintype T] [DecidableEq T] in
theorem releaseHeld_eq (p : Process T) : ∃ blocking blockingSeen,
    (if p.lckPhysical ≠ .none then p.lckRelease.invalidate else p) =
      { p with lckPhysical := .none, blocking, blockingSeen } := by
  split
  · exact ⟨false, false, rfl⟩
  · rename_i hphys
    exact ⟨p.blocking, p.blockingSeen, by rw [← not_not.mp hphys]⟩

section
variable (h : Inv p) (hw : WaitsToWrite (p.callers t))
include h hw

theorem Inv.lockWriteStage3 (hreaders : p.readers = 0)
    (hwriter : p.currentWriter = false) (hlock : p.pendingLock = 0) : Inv (p.lockWriteStage3 t) := by
  have hpos : 0 < p.pendingWriters := h.pendingWriters ▸ count_pos hw.writer
  unfold Process.lockWriteStage3
  by_cases hphys : p.lckPhysical = lckWrite
  · rw [if_pos hphys]
    refine h.move rfl wakes_id ?_ ?_ ?_ ?_ ?_ trivial fun u _ => h.others hreaders hlock u
      hreaders (.inl rfl) (.inr rfl)
    · exact { h.vars with
        writeLevel := fun _ => hphys
        writerAlone := fun _ => ⟨hreaders, hlock⟩
        promise := fun _ _ => .inr (.inl rfl) }
    · rw [hw.reads]
      rfl
    · rw [hw.lock]
      rfl
    · rw [hw.writer]
      exact decrement_add_one hpos
    · rw [hw.writes, hwriter]
      rfl
  · rw [if_neg hphys]
    obtain ⟨blocking, blockingSeen, hrelease⟩ := releaseHeld_eq p
    rw [hrelease]
    have hone : increment p.pendingLock = 1 := by rw [hlock]; rfl
    refine h.move rfl wakes_id (.released rfl hone.le hreaders hwriter) ?_ ?_ ?_ ?_ rfl fun u _ =>
      h.others hreaders hlock u hreaders (.inr (hone.trans_ne Nat.one_ne_zero)) (.inl hpos.ne')
    · rw [hw.reads]
      rfl
    · rw [hw.lock, hlock]
      rfl
    · rw [hw.writer]
      rfl
    · rw [hw.writes]
      rfl

theorem Inv.lockWriteStage2 (hreaders : p.readers = 0) : Inv (p.lockWriteStage2 t) := by
  unfold Process.lockWriteStage2
  by_cases hwait : p.currentWriter = true ∨ p.pendingLock ≠ 0
  · rw [if_pos hwait]
    exact h.setCaller rfl hw.reads.symm hw.writes.symm hw.lock.symm hw.writer.symm ⟨hreaders, fun _ => hwait⟩
  · rw [if_neg hwait]
    rw [not_or, not_not] at hwait
    exact h.lockWriteStage3 hw hreaders (Bool.eq_false_iff.mpr hwait.1) hwait.2

theorem Inv.lockWriteStage1 : Inv (p.lockWriteStage1 t) := by
  unfold Process.lockWriteStage1
  by_cases hreaders : 0 < p.readers
  · rw [if_pos hreaders]
    exact h.setCaller rfl hw.reads.symm hw.writes.symm hw.lock.symm hw.writer.symm fun _ => hreaders.ne'
  · rw [if_neg hreaders]
    exact h.lockWriteStage2 hw (Nat.eq_zero_of_not_pos hreaders)

end

omit [Fintype T] in
/-- The stages do not look at the state that they start from. -/
theorem lockWriteStage1_setCaller (p : Process T) (t : T) (c : Caller) :
    (p.setCaller t c).lockWriteStage1 t = p.lockWriteStage1 t := by
  have hset : ∀ (v : Vars) (d : Caller), Process.setCaller ⟨v, update p.callers t c⟩ t d =
      Process.setCaller ⟨v, p.callers⟩ t d := fun v d => by
    unfold Process.setCaller
    dsimp only
    rw [update_idem]
  have hstage3 : (p.setCaller t c).lockWriteStage3 t = p.lockWriteStage3 t := by
    by_cases hwrite : p.lckPhysical = lckWrite
    · exact (if_pos hwrite).trans ((hset _ _).trans (if_pos hwrite).symm)
    · refine (if_neg hwrite).trans (.trans ?_ (if_neg hwrite).symm)
      by_cases hnone : p.lckPhysical ≠ .none
      · rw [if_pos hnone, if_pos (show (p.setCaller t c).lckPhysical ≠ .none from hnone)]
        exact hset _ _
      · rw [if_neg hnone, if_neg (show ¬ (p.setCaller t c).lckPhysical ≠ .none from hnone)]
        exact hset _ _
  have hstage2 : (p.setCaller t c).lockWriteStage2 t = p.lockWriteStage2 t :=
    congrArg₂ (ite (p.currentWriter = true ∨ p.pendingLock ≠ 0)) (hset _ _) hstage3
  exact congrArg₂ (ite (0 < p.readers)) (hset _ _) hstage2

/-- The caller is in none of the counters. -/
structure Uncounted (c : Caller) : Prop where
  reads : c.isReads = false
  writes : c.isWrites = false
  lock : c.isPendingLock = false
  writer : c.isPendingWriter = false

theorem Inv.lockWrite (h : Inv p) (hT : Fintype.card T < ulongSize) (ht : p.callers t = .outside) :
    Inv (p.lockWrite t) := by
  have hlt : p.pendingWriters + 1 < ulongSize :=
    (Nat.succ_le_of_lt (h.pendingWriters ▸ count_lt (t := t) (by rw [ht]; rfl))).trans_lt hT
  have hinc : increment p.pendingWriters = p.pendingWriters + 1 := increment_of_lt hlt
  have hasks : Inv (({ p with pendingWriters := increment p.pendingWriters } : Process T).setCaller t
      (.noReaders false)) := by
    refine h.move ht wakes_id { h.vars with } rfl rfl hinc rfl nofun fun u _ => ?_
    · exact h.keepCaller u id (fun _ _ => id) id (fun _ => .inl (hinc ▸ Nat.succ_ne_zero _)) fun _ => rfl
  have hstage := hasks.lockWriteStage1 (t := t) (by
    unfold Process.setCaller
    dsimp only
    rw [update_self]
    exact ⟨rfl, rfl, rfl, rfl⟩)
  rw [lockWriteStage1_setCaller] at hstage
  exact hstage

section
variable (h : Inv p) (hT : Fintype.card T < ulongSize) (ht : Uncounted (p.callers t))
include h hT ht

/-- A reader comes in under the lock that the process has. -/
theorem Inv.enter (hphys : p.lckPhysical ≠ .none) (hwriter : p.currentWriter = false) (hlock : p.pendingLock = 0)
    (hno : ∀ u asleep, p.callers u ≠ .writerFinished asleep) :
    Inv (({ p with readers := increment p.readers } : Process T).setCaller t .reads) := by
  have hlt : p.readers + 1 < ulongSize :=
    (Nat.succ_le_of_lt (h.readers ▸ count_lt (t := t) ht.reads)).trans_lt hT
  have hinc : increment p.readers = p.readers + 1 := increment_of_lt hlt
  have hne : increment p.readers ≠ 0 := hinc ▸ Nat.succ_ne_zero _
  refine h.move rfl wakes_id ?_ ?_ ?_ ?_ ?_ trivial fun u _ => ?_
  · exact { h.vars with
      readLevel := fun _ => hphys
      writerAlone := fun hw => absurd (hwriter ▸ hw) Bool.false_ne_true
      lockAlone := fun hl => absurd hlock hl
      promise := fun _ _ => .inl hne }
  · rw [ht.reads]
    exact hinc
  · rw [ht.lock]
    rfl
  · rw [ht.writer]
    rfl
  · rw [ht.writes]
    rfl
  · exact h.keepCaller u (fun _ => hne) (fun asleep hu => absurd hu (hno u asleep)) id id fun _ => rfl

theorem Inv.lockReadStage2 (queueJump : Bool) : Inv (p.lockReadStage2 t queueJump) := by
  unfold Process.lockReadStage2
  by_cases hwait : 0 < p.pendingWriters ∨ p.currentWriter = true
  · rw [if_pos hwait]
    exact h.setCaller rfl ht.reads.symm ht.writes.symm ht.lock.symm ht.writer.symm fun _ => hwait.imp Nat.ne_of_gt id
  · rw [if_neg hwait]
    rw [not_or, Nat.not_lt, Nat.le_zero] at hwait
    obtain ⟨hpending, hwriter⟩ := hwait
    have hwriter := Bool.eq_false_iff.mpr hwriter
    by_cases hlock : p.pendingLock ≠ 0
    · rw [if_pos hlock]
      exact h.setCaller rfl ht.reads.symm ht.writes.symm ht.lock.symm ht.writer.symm trivial
    · rw [if_neg hlock]
      rw [not_not] at hlock
      by_cases hphys : lckRead.ord ≤ p.lckPhysical.ord
      · rw [if_pos hphys]
        refine h.enter hT ht (fun hn => ?_) hwriter hlock fun u asleep hu => ?_
        · rw [hn] at hphys
          exact absurd hphys (by decide)
        · have hno := h.not_pendingWriter hpending u
          rw [hu] at hno
          cases hno
      · rw [if_neg hphys]
        have hnone : p.lckPhysical = .none := by
          rcases h.vars.level with hl | hl | hl
          · exact hl
          · exact absurd (hl ▸ Nat.le_refl _) hphys
          · exact absurd (by rw [hl]; decide) hphys
        have hreaders : p.readers = 0 := not_not.mp fun hne => h.vars.readLevel hne hnone
        have hone : increment p.pendingLock = 1 := by rw [hlock]; rfl
        refine h.move rfl wakes_id (.released hnone hone.le hreaders hwriter) ?_ ?_ ?_ ?_ hnone fun u _ => ?_
        · rw [ht.reads]
          rfl
        · rw [ht.lock, hlock]
          rfl
        · rw [ht.writer]
          rfl
        · rw [ht.writes]
          rfl
        · exact h.keepCaller u id (fun _ _ => id) (fun _ => .inr (hone.trans_ne Nat.one_ne_zero)) id fun _ => rfl

theorem Inv.lockRead (queueJump : Bool) : Inv (p.lockRead t queueJump) := by
  unfold Process.lockRead
  by_cases hjump : 0 < p.readers ∧ queueJump = true
  · rw [if_pos hjump]
    have hreaders : p.readers ≠ 0 := hjump.1.ne'
    refine h.enter hT ht (h.vars.readLevel hreaders) ?_ ?_ fun u asleep hu => ?_
    · exact Bool.eq_false_iff.mpr fun hw => hreaders (h.vars.writerAlone hw).1
    · exact not_not.mp fun hl => hreaders (h.vars.lockAlone hl)
    · exact hreaders (h.no_readers hu)
  · rw [if_neg hjump]
    exact h.lockReadStage2 hT ht queueJump

end

omit [DecidableEq T] in
theorem Inv.ok (h : Inv p) {c : Caller} (ht : p.callers t = c) : c.Ok p.toVars := ht ▸ h.callers t

omit [DecidableEq T] in
/-- While a caller is at the lock manager, nobody reads or writes. -/
theorem Inv.pending (h : Inv p) {c : Caller} (ht : p.callers t = c) (hc : c.isPendingLock = true) :
    p.pendingLock = 1 ∧ p.readers = 0 ∧ p.currentWriter = false := by
  subst ht
  have hpos : 0 < p.pendingLock := h.pendingLock ▸ count_pos hc
  refine ⟨le_antisymm h.vars.onePending hpos, h.vars.lockAlone hpos.ne', ?_⟩
  exact Bool.eq_false_iff.mpr fun hw => hpos.ne' (h.vars.writerAlone hw).2

/-- A refused reader wakes nobody, so that no writer may sleep behind it. -/
theorem Inv.lockReadRefused (h : Inv p) (ht : p.callers t = .refused false)
    (hno : ∀ u, p.callers u ≠ .writerFinished true) : Inv (p.lockReadRefused t) := by
  obtain ⟨hlock, hreaders, hwriter⟩ := h.pending ht rfl
  have hphys : p.lckPhysical = .none := h.ok ht
  have hzero : decrement p.pendingLock = 0 := by rw [hlock]; rfl
  refine h.move ht wakes_id (.released hphys (hzero ▸ Nat.zero_le 1) hreaders hwriter) rfl (by rw [hlock]; rfl) rfl rfl
    trivial fun u hu => ?_
  · exact (h.callers u).keep h.noReaders (fun _ _ => hreaders) (fun hc => absurd hc (hno u)) (fun _ => h.readerWaits)
      fun _ => rfl

theorem Inv.lockReadGranted (h : Inv p) (ht : p.callers t = .granted false) {fetched : Bool}
    (hno : ∀ u, p.callers u ≠ .writerFinished true)
    (hawake : fetched = true → ∀ u, p.callers u ≠ .writerFinished false)
    (hseen : fetched = false → p.blockingSeen = false) : Inv (p.lockReadGranted t fetched) := by
  obtain ⟨hlock, hreaders, hwriter⟩ := h.pending ht rfl
  have hphys : p.lckPhysical = lckRead := h.ok ht
  have hheld : p.lckPhysical ≠ .none := by
    rw [hphys]
    decide
  have hzero : decrement p.pendingLock = 0 := by rw [hlock]; rfl
  have hnot : ¬ p.currentWriter = true := by
    rw [hwriter]
    exact Bool.false_ne_true
  cases fetched with
  | true =>
    have hone : increment p.readers = 1 := by rw [hreaders]; rfl
    refine h.move ht wakes_id ?_ (by rw [hreaders]; rfl) (by rw [hlock]; rfl) rfl rfl trivial fun u hu => ?_
    · exact { h.vars with
        onePending := hzero ▸ Nat.zero_le 1
        readLevel := fun _ => hheld
        writerAlone := fun hw => absurd hw hnot
        lockAlone := fun hl => absurd hzero hl
        promise := fun _ _ => .inl (hone.trans_ne Nat.one_ne_zero) }
    · refine (h.callers u).keep (fun _ => hone.trans_ne Nat.one_ne_zero) (fun asleep hc => ?_)
        (fun hc => absurd hc (hno u)) (fun _ => h.readerWaits) fun _ => rfl
      cases asleep with
      | true => exact absurd hc (hno u)
      | false => exact absurd hc (hawake rfl u)
  | false =>
    refine h.move ht wakes_id ?_ rfl (by rw [hlock]; rfl) rfl rfl trivial fun u hu => ?_
    · exact { h.vars with
        onePending := hzero ▸ Nat.zero_le 1
        writerAlone := fun hw => absurd hw hnot
        lockAlone := fun hl => absurd hzero hl
        promise := fun hs => absurd (hs.symm.trans (hseen rfl)) Bool.noConfusion }
    · exact (h.callers u).keep h.noReaders (fun _ _ => hreaders) (fun hc => absurd hc (hno u))
        (fun _ => h.readerWaits) fun _ => rfl

/-- The state in which a writer leaves or does not come in -/
def Process.writerDone (p : Process T) (t : T) (c : Caller) (w : Caller → Caller) : Process T :=
  ⟨{ p.toVars with
    pendingLock := decrement p.pendingLock
    pendingWriters := decrement p.pendingWriters
    currentWriter := c.isWrites }, fun u => w (update p.callers t c u)⟩

/-- The last pending writer wakes no reader, so that none may sleep behind it. -/
theorem Inv.lockWriteRefused (h : Inv p) (ht : p.callers t = .refused true)
    (hno : p.pendingWriters = 1 → ∀ u queueJump, p.callers u ≠ .readerWaits queueJump true) :
    Inv (p.lockWriteRefused t) := by
  obtain ⟨hlock, hreaders, hwriter⟩ := h.pending ht rfl
  have hphys : p.lckPhysical = .none := h.ok ht
  have hzero : decrement p.pendingLock = 0 := by rw [hlock]; rfl
  have hpending : decrement p.pendingWriters + 1 = p.pendingWriters :=
    decrement_add_one (h.pendingWriters ▸ count_pos (t := t) (by rw [ht]; rfl))
  have hdone : ∀ w, Wakes w → (w .outside).Ok (p.writerDone t .outside w).toVars →
      (∀ u, u ≠ t → (w (p.callers u)).Ok (p.writerDone t .outside w).toVars) → Inv (p.writerDone t .outside w) := by
    intro w hw hout hothers
    refine h.move ht hw (.released hphys (hzero ▸ Nat.zero_le 1) hreaders rfl) rfl ?_ hpending ?_ hout hothers
    · rw [hlock]
      rfl
    · rw [hwriter]
      rfl
  by_cases hmore : decrement p.pendingWriters ≠ 0
  · have heq : p.lockWriteRefused t = p.writerDone t .outside Caller.wakeWriterFinished := by
      refine ((if_pos hmore).trans (if_pos hwriter) : p.lockWriteRefused t = _).trans ?_
      unfold Process.writerDone
      rw [show Caller.outside.isWrites = p.currentWriter from hwriter.symm]
      rfl
    rw [heq]
    exact hdone _ wakes_writerFinished trivial fun u _ =>
      (h.callers u).wakeWriterFinished h.noReaders (fun _ _ => hreaders) fun _ => rfl
  · have heq : p.lockWriteRefused t = p.writerDone t .outside id := by
      refine (if_neg hmore : p.lockWriteRefused t = _).trans ?_
      unfold Process.writerDone
      rw [show Caller.outside.isWrites = p.currentWriter from hwriter.symm]
      rfl
    rw [not_not] at hmore
    have hone : p.pendingWriters = 1 := by rw [← hpending, hmore]
    rw [heq]
    refine hdone id wakes_id trivial fun u hu => ?_
    refine (h.callers u).keep h.noReaders (fun _ _ => hreaders) (fun hc => absurd ?_ hu)
      (fun queueJump hc => absurd hc (hno hone u queueJump)) fun _ => rfl
    exact eq_of_count_le_one (h.pendingWriters ▸ hone.le) (by rw [ht]; rfl) (by rw [hc]; rfl)

theorem Inv.lockWriteGranted (h : Inv p) (ht : p.callers t = .granted true) {fetched : Bool}
    (hseen : fetched = false → p.blockingSeen = false) : Inv (p.lockWriteGranted t fetched) := by
  obtain ⟨hlock, hreaders, hwriter⟩ := h.pending ht rfl
  have hphys : p.lckPhysical = lckWrite := h.ok ht
  have hzero : decrement p.pendingLock = 0 := by rw [hlock]; rfl
  have hpending : decrement p.pendingWriters + 1 = p.pendingWriters :=
    decrement_add_one (h.pendingWriters ▸ count_pos (t := t) (by rw [ht]; rfl))
  cases fetched with
  | true =>
    refine h.move ht wakes_id ?_ rfl (by rw [hlock]; rfl) hpending (by rw [hwriter]; rfl) trivial fun u hu => ?_
    · exact { h.vars with
        onePending := hzero ▸ Nat.zero_le 1
        writeLevel := fun _ => hphys
        writerAlone := fun _ => ⟨hreaders, hzero⟩
        lockAlone := fun hl => absurd hzero hl
        promise := fun _ _ => .inr (.inl rfl) }
    · exact (h.callers u).keep h.noReaders (fun _ _ => hreaders) (fun _ => .inl rfl) (fun _ _ => .inr rfl) fun _ => rfl
  | false =>
    have heq : p.lockWriteGranted t false = p.writerDone t .outside Caller.wakeWriterFinished := by
      refine (if_pos hwriter : p.lockWriteGranted t false = _).trans ?_
      unfold Process.writerDone
      rw [show Caller.outside.isWrites = p.currentWriter from hwriter.symm]
      rfl
    rw [heq]
    refine h.move ht wakes_writerFinished ?_ rfl (by rw [hlock]; rfl) hpending (by rw [hwriter]; rfl) trivial
      fun u hu => ?_
    · exact { h.vars with
        onePending := hzero ▸ Nat.zero_le 1
        writeLevel := nofun
        writerAlone := nofun
        lockAlone := fun hl => absurd hzero hl
        promise := fun hs => absurd (hs.symm.trans (hseen rfl)) Bool.noConfusion }
    · exact (h.callers u).wakeWriterFinished h.noReaders (fun _ _ => hreaders) fun _ => rfl

/-! ### Leaving -/

/-- The levels at which the lock is ever requested -/
def IsRequested (level : Level) : Prop := level = .none ∨ level = lckRead ∨ level = lckWrite

theorem isRequested_requestedLevel (write : Bool) : IsRequested (requestedLevel write) := by
  cases write with
  | true => exact .inr (.inr rfl)
  | false => exact .inr (.inl rfl)

/-- A level kept by a downgrade stays as it is or becomes that of a reader. -/
theorem lowerTo_kept {pending level : Level} (hpending : IsRequested pending) (hlevel : IsRequested level)
    (hkept : ¬(lowerTo pending level.ord = .none ∨ lowerTo pending level.ord = .null)) :
    lowerTo pending level.ord = level ∨ lowerTo pending level.ord = lckRead := by
  rcases hlevel with rfl | rfl | rfl <;> rcases hpending with rfl | rfl | rfl <;> revert hkept <;> decide

omit [Fintype T] [DecidableEq T] in
/-- A downgrade ends at such a level, and blocks nobody then. -/
theorem lckDowngrade_eq (p : Process T) {pending : Level} (hpending : IsRequested pending)
    (hlevel : IsRequested p.lckPhysical) : ∃ level seen, p.lckDowngrade pending =
      { p with lckPhysical := level, blockingSeen := seen } ∧ IsRequested level ∧
      (level ≠ .none → seen = false) := by
  unfold Process.lckDowngrade
  by_cases hnone : p.lckPhysical = .none
  · rw [if_pos hnone]
    exact ⟨p.lckPhysical, p.blockingSeen, rfl, hlevel, fun h => absurd hnone h⟩
  · rw [if_neg hnone]
    dsimp only
    split
    · exact ⟨.none, false, rfl, .inl rfl, fun _ => rfl⟩
    · next hkept =>
      refine ⟨_, false, rfl, ?_, fun _ => rfl⟩
      rcases lowerTo_kept hpending hlevel hkept with hsame | hread
      · rwa [hsame]
      · exact .inr (.inl hread)

section
variable (h : Inv p)
include h

omit [DecidableEq T] in
theorem Inv.currentWriter (ht : p.callers t = .writes) : p.currentWriter = true := by
  have hpos : 0 < count Caller.isWrites p.callers := count_pos (t := t) (by rw [ht]; rfl)
  rw [h.writers] at hpos
  cases hw : p.currentWriter with
  | true => rfl
  | false =>
    rw [hw] at hpos
    cases hpos

omit [DecidableEq T] in
theorem Inv.readers_pos (ht : p.callers t = .reads) : 0 < p.readers :=
  h.readers ▸ count_pos (t := t) (by rw [ht]; rfl)

theorem Inv.unlockWrite (ht : p.callers t = .writes) {release : Bool} {pending : Level}
    (hpending : IsRequested pending) : Inv (p.unlockWrite t release pending) := by
  have hwriter : p.currentWriter = true := h.currentWriter ht
  obtain ⟨hreaders, hlock⟩ := h.vars.writerAlone hwriter
  have heq : ∃ level seen, p.unlockWrite t release pending =
      ⟨{ p.toVars with currentWriter := false, blocking := false, lckPhysical := level, blockingSeen := seen },
        fun u => (update p.callers t .outside u).wakeWriterFinished⟩ ∧
      IsRequested level ∧ (level ≠ .none → seen = false) := by
    generalize hout : ({ p with currentWriter := false } : Process T).setCaller t .outside = out
    have hlocked : ∃ level seen, (if out.lockCaching = false ∨ release = true then out.lckRelease
        else if out.blocking then out.lckDowngrade pending else out) =
          { out with lckPhysical := level, blockingSeen := seen } ∧ IsRequested level ∧
          (level ≠ .none → seen = false) := by
      by_cases hrelease : out.lockCaching = false ∨ release = true
      · rw [if_pos hrelease]
        exact ⟨.none, false, rfl, .inl rfl, fun _ => rfl⟩
      · rw [if_neg hrelease]
        have hlevel : IsRequested out.lckPhysical := hout ▸ h.vars.level
        by_cases hblocking : out.blocking = true
        · rw [if_pos hblocking]
          exact lckDowngrade_eq out hpending hlevel
        · rw [if_neg hblocking]
          refine ⟨out.lckPhysical, out.blockingSeen, rfl, hlevel, fun hheld => ?_⟩
          rw [← hout] at hheld hblocking ⊢
          exact Bool.eq_false_iff.mpr fun hs => hblocking (h.vars.seen hs hheld)
    obtain ⟨level, seen, heq, hlevel, hseen⟩ := hlocked
    refine ⟨level, seen, ?_, hlevel, hseen⟩
    unfold Process.unlockWrite
    dsimp only
    rw [hout, heq]
    subst hout
    split
    · rfl
    · rfl
  obtain ⟨level, seen, heq, hlevel, hseen⟩ := heq
  rw [heq]
  refine h.move ht wakes_writerFinished ?_ rfl rfl rfl (by rw [hwriter]; rfl) trivial fun u _ => ?_
  · exact {
      onePending := h.vars.onePending
      level := hlevel
      readLevel := fun hr => absurd hreaders hr
      writeLevel := nofun
      writerAlone := nofun
      lockAlone := fun hl => absurd hlock hl
      seen := fun hs hl => absurd (hs.symm.trans (hseen hl)) Bool.noConfusion
      promise := fun hs hl => absurd (hs.symm.trans (hseen hl)) Bool.noConfusion }
  · refine (h.callers u).wakeWriterFinished h.noReaders (fun _ _ => hreaders) fun hu => ?_
    rw [h.not_pendingLock hlock u] at hu
    cases hu

/-- The last reader releases the lock if another process or a writer waits for it. -/
theorem Inv.unlockRead (ht : p.callers t = .reads) : Inv (p.unlockRead t) := by
  have hpos : 0 < p.readers := h.readers_pos ht
  have hwriter : p.currentWriter = false := Bool.eq_false_iff.mpr fun hw => hpos.ne' (h.vars.writerAlone hw).1
  have hlock : p.pendingLock = 0 := not_not.mp fun hl => hpos.ne' (h.vars.lockAlone hl)
  have hdec : decrement p.readers + 1 = p.readers := decrement_add_one hpos
  have hno : ∀ u asleep, p.callers u ≠ .writerFinished asleep := fun u asleep hu => hpos.ne' (h.no_readers hu)
  have hnoLock : ∀ u level, (p.callers u).isPendingLock = true → level = p.lckPhysical := fun u _ hu => by
    rw [h.not_pendingLock hlock u] at hu
    cases hu
  -- the process when the reader is out, whether the lock is released or not
  have hleave : ∀ (v : Vars) w, Wakes w → VarsInv v → v.readers = decrement p.readers →
      v.pendingLock = p.pendingLock → v.pendingWriters = p.pendingWriters → v.currentWriter = p.currentWriter →
      (w .outside).Ok v → (∀ u, (w (p.callers u)).Ok v) →
      Inv (T := T) ⟨v, fun u => w (update p.callers t .outside u)⟩ := by
    intro v w hw hvars hr hl hpw hcw hout hothers
    refine h.move ht hw hvars (by rw [hr]; exact hdec) (by rw [hl]; rfl) (by rw [hpw]; rfl) (by rw [hcw]; rfl) hout
      fun u _ => hothers u
  by_cases hlast : decrement p.readers = 0
  · by_cases hrelease : p.lockCaching = false ∨ p.pendingWriters ≠ 0 ∨ p.blocking = true
    · have heq : p.unlockRead t = ⟨{ p.toVars with
          readers := decrement p.readers, lckPhysical := .none, blockingSeen := false, blocking := false },
          fun u => (update p.callers t .outside u).wakeNoReaders⟩ :=
        ((if_pos hlast).trans (congrArg Process.notifyNoReaders (if_pos hrelease)) : p.unlockRead t = _)
      rw [heq]
      refine hleave _ _ wakes_noReaders (.released rfl h.vars.onePending hlast hwriter) rfl rfl rfl rfl trivial
        fun u => ?_
      exact (h.callers u).wakeNoReaders (fun asleep hu => absurd hu (hno u asleep)) (fun hu => absurd hu (hno u true))
        (fun _ => h.readerWaits) (hnoLock u _)
    · have heq : p.unlockRead t = ⟨{ p.toVars with readers := decrement p.readers },
          fun u => (update p.callers t .outside u).wakeNoReaders⟩ :=
        ((if_pos hlast).trans (congrArg Process.notifyNoReaders (if_neg hrelease)) : p.unlockRead t = _)
      rw [heq]
      rw [not_or, not_or] at hrelease
      refine hleave _ _ wakes_noReaders ?_ rfl rfl rfl rfl trivial fun u => ?_
      · exact { h.vars with
          readLevel := fun hr => absurd hlast hr
          writerAlone := fun hw => absurd (hwriter ▸ hw) Bool.false_ne_true
          lockAlone := fun _ => hlast
          promise := fun hs hl => absurd (h.vars.seen hs hl) hrelease.2.2 }
      · exact (h.callers u).wakeNoReaders (fun asleep hu => absurd hu (hno u asleep)) (fun hu => absurd hu (hno u true))
          (fun _ => h.readerWaits) (hnoLock u _)
  · have heq : p.unlockRead t = ⟨{ p.toVars with readers := decrement p.readers },
        fun u => id (update p.callers t .outside u)⟩ := (if_neg hlast : p.unlockRead t = _)
    rw [heq]
    refine hleave _ _ wakes_id ?_ rfl rfl rfl rfl trivial fun u => ?_
    · exact { h.vars with
        readLevel := fun _ => h.vars.readLevel hpos.ne'
        writerAlone := fun hw => absurd (hwriter ▸ hw) Bool.false_ne_true
        lockAlone := fun hl => absurd hlock hl
        promise := fun _ _ => .inl hlast }
    · exact (h.callers u).keep (fun _ => hlast) (fun asleep hu => absurd hu (hno u asleep))
        (fun hu => absurd hu (hno u true)) (fun _ => h.readerWaits) (hnoLock u _)

omit [DecidableEq T] in
/-- The lock may change while nobody is at the lock manager. -/
theorem Inv.withLock (level : Level) (seen blocking : Bool)
    (hvars : VarsInv { p.toVars with lckPhysical := level, blockingSeen := seen, blocking })
    (hlock : ∀ u, (p.callers u).isPendingLock = true → level = p.lckPhysical) :
    Inv (T := T) { p with lckPhysical := level, blockingSeen := seen, blocking } where
  vars := hvars
  readers := h.readers
  pendingLock := h.pendingLock
  pendingWriters := h.pendingWriters
  writers := h.writers
  callers u := h.keepCaller u id (fun _ _ => id) id id (hlock u)

omit [DecidableEq T] in
theorem Inv.tryReleaseLock (hlock : p.lckPhysical ≠ .none → p.pendingLock = 0) : Inv p.tryReleaseLock := by
  unfold Process.tryReleaseLock
  split
  · exact h
  · rename_i hinside
    rw [not_or, not_not] at hinside
    split
    · rename_i hheld
      refine h.withLock .none false false (.released rfl h.vars.onePending hinside.1
        (Bool.eq_false_iff.mpr hinside.2)) fun u hu => ?_
      rw [h.not_pendingLock (hlock hheld) u] at hu
      cases hu
    · exact h

omit [DecidableEq T] in
/-- An idle process gives the lock away at once, any other one remembers to do so. -/
theorem Inv.blockingAst {pending : Level} (hpending : IsRequested pending) (convertible : Bool) :
    Inv (({ p with blockingSeen := decide (p.lckPhysical ≠ .none) } : Process T).blockingAstHandler
      pending convertible) := by
  have hset : (p.readers ≠ 0 ∨ p.currentWriter = true ∨ p.pendingLock ≠ 0) →
      Inv (T := T) { p with blockingSeen := decide (p.lckPhysical ≠ .none), blocking := true } := fun hbusy =>
    h.withLock p.lckPhysical _ true { h.vars with
      seen := fun _ _ => rfl
      promise := fun _ _ => hbusy } fun _ _ => rfl
  unfold Process.blockingAstHandler
  by_cases hfree : p.pendingLock = 0 ∧ p.currentWriter = false ∧ p.readers = 0
  · obtain ⟨hlock, hwriter, hreaders⟩ := hfree
    obtain ⟨level, seen, heq, hlevel, hseen⟩ :=
      lckDowngrade_eq ({ p with blockingSeen := decide (p.lckPhysical ≠ .none) } : Process T) hpending h.vars.level
    have hdown : ∀ blocking, Inv (T := T) { p with lckPhysical := level, blockingSeen := seen, blocking } :=
      fun blocking =>
      h.withLock level seen blocking {
        onePending := h.vars.onePending
        level := hlevel
        readLevel := fun hr => absurd hreaders hr
        writeLevel := fun hw => absurd (hwriter ▸ hw) Bool.false_ne_true
        writerAlone := fun hw => absurd (hwriter ▸ hw) Bool.false_ne_true
        lockAlone := fun _ => hreaders
        seen := fun hs hl => absurd (hs.symm.trans (hseen hl)) Bool.noConfusion
        promise := fun hs hl => absurd (hs.symm.trans (hseen hl)) Bool.noConfusion } fun u hu => by
          rw [h.not_pendingLock hlock u] at hu
          cases hu
    rw [if_pos ⟨hlock, hwriter, hreaders⟩, heq]
    dsimp only
    split
    · exact hdown false
    · exact hdown p.blocking
  · have hbusy : p.readers ≠ 0 ∨ p.currentWriter = true ∨ p.pendingLock ≠ 0 := by
      rw [not_and_or, not_and_or] at hfree
      rcases hfree with hl | hw | hr
      · exact .inr (.inr hl)
      · exact .inr (.inl (Bool.eq_true_of_not_eq_false hw))
      · exact .inl hr
    rw [if_neg hfree]
    split
    · rename_i hinside
      obtain ⟨hlock, hwriter, hreaders, -⟩ := hinside
      split
      · refine h.withLock lckRead false p.blocking { h.vars with
          level := .inr (.inl rfl)
          readLevel := fun _ => (by decide : lckRead ≠ .none)
          writeLevel := fun hw => absurd (hw.symm.trans hwriter) Bool.noConfusion
          seen := nofun
          promise := fun _ _ => .inl hreaders } fun u hu => ?_
        rw [h.not_pendingLock hlock u] at hu
        cases hu
      · exact hset hbusy
    · exact hset hbusy

theorem Inv.wake (t : T) : Inv (p.setCaller t (p.callers t).wake) := by
  refine h.setCaller rfl ?_ ?_ ?_ ?_ ?_
  · cases p.callers t <;> rfl
  · cases p.callers t <;> rfl
  · cases p.callers t <;> rfl
  · cases p.callers t <;> rfl
  · have hok := h.callers t
    cases hc : p.callers t with
    | noReaders asleep => exact nofun
    | writerFinished asleep => exact ⟨h.no_readers hc, nofun⟩
    | readerWaits queueJump asleep => exact nofun
    | _ =>
      rw [hc] at hok
      exact hok

/-- A caller that is awake looks again at what it waited for. -/
theorem Inv.goOn (hT : Fintype.card T < ulongSize) (t : T) : Inv (p.goOn t) := by
  unfold Process.goOn
  split
  · rename_i asleep hc
    exact h.lockWriteStage1 (by rw [hc]; exact ⟨rfl, rfl, rfl, rfl⟩)
  · rename_i asleep hc
    exact h.lockWriteStage2 (by rw [hc]; exact ⟨rfl, rfl, rfl, rfl⟩) (h.no_readers hc)
  · rename_i queueJump asleep hc
    exact h.lockReadStage2 hT (by rw [hc]; exact ⟨rfl, rfl, rfl, rfl⟩) queueJump
  · rename_i queueJump hc
    exact h.lockRead hT (by rw [hc]; exact ⟨rfl, rfl, rfl, rfl⟩) queueJump
  · exact h

theorem Inv.enqueue {write : Bool} (ht : p.callers t = .locks write) : Inv (p.setCaller t (.queued write)) :=
  h.setCaller ht rfl rfl rfl rfl (show (Caller.locks write).Ok p.toVars from h.ok ht)

end

section
variable (h : Inv p) {write : Bool} (ht : p.callers t = .queued write)
include h ht

theorem Inv.refuse : Inv (p.setCaller t (.refused write)) :=
  h.setCaller ht rfl rfl rfl rfl (show (Caller.queued write).Ok p.toVars from h.ok ht)

theorem Inv.raise : Inv (p.setCaller t (.raised write)) :=
  h.setCaller ht rfl rfl rfl rfl trivial

theorem Inv.grant :
    Inv (({ p with lckPhysical := requestedLevel write, blockingSeen := false } : Process T).setCaller t
      (.granted write)) := by
  have hmark : (p.callers t).isPendingLock = true := by
    rw [ht]
    rfl
  obtain ⟨hlock, hreaders, hwriter⟩ := h.pending ht rfl
  refine h.move ht wakes_id ?_ rfl rfl rfl rfl rfl fun u hu => ?_
  · exact { h.vars with
      level := isRequested_requestedLevel write
      readLevel := fun hr => absurd hreaders hr
      writeLevel := fun hw => absurd (hw.symm.trans hwriter) Bool.noConfusion
      seen := nofun
      promise := fun _ _ => .inr (.inr (hlock.trans_ne Nat.one_ne_zero)) }
  · refine h.keepCaller u id (fun _ _ => id) id id fun hl => ?_
    rw [h.only_pendingLock hmark hu] at hl
    cases hl

end

end
end Firebird.Rw
