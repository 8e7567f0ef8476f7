import Firebird.Sync.Keeps

/-! # The lock under any interleaving -/

namespace Firebird.Sync

open Lib Function List

variable {T : Type} {t : T} {type : SyncType}

theorem wakeReaders_perm (n : Nat) (l : List (T × SyncType)) :
    (wakeReaders n l).1.map (·, .shared) ++ (wakeReaders n l).2 ~ l := by
  induction n, l using wakeReaders.induct with
  | case1 l =>
    rw [wakeReaders]
    exact .refl l
  | case2 n => cases n <;> exact .refl []
  | case3 n t l ih => exact ih.cons _
  | case4 n t l ih => exact perm_middle.trans (ih.cons _)

theorem length_wakeReaders {n : Nat} {l : List (T × SyncType)} (h : n ≤ l.countP (·.2 = .shared)) :
    (wakeReaders n l).1.length = n := by
  induction n, l using wakeReaders.induct with
  | case1 l => rw [wakeReaders, length_nil]
  | case2 n hn => exact absurd (Nat.le_zero.mp h) hn
  | case3 n t l ih =>
    rw [countP_cons_of_pos rfl] at h
    exact congrArg (· + 1) (ih (Nat.le_of_succ_le_succ h))
  | case4 n t l ih =>
    rw [countP_cons_of_neg (by exact nofun)] at h
    exact ih h

variable [DecidableEq T] {s s' : State T} {old stage : Stage}

omit [DecidableEq T] in
theorem Inv.cntWake (h : Inv s) : s.waiters &&& readersMask = s.waiting .shared % writerIncr := by
  rw [h.waiters, sum_waiterIncr]
  exact (Nat.and_two_pow_sub_one_eq_mod _ 16).trans (Nat.add_mul_mod_self_left ..)

theorem Inv.grantLocks (h : Inv s) : Inv s.grantLocks := by
  unfold State.grantLocks
  split
  · exact h
  · split
    · exact h
    · rename_i hl
      have hle : s.waiters &&& readersMask ≤ s.waiting .shared := h.cntWake ▸ Nat.mod_le ..
      have howned := h.owned.wake (Int.not_lt.mp hl) (wakeReaders (s.waiters &&& readersMask) s.waitingThreads).1
      rw [length_wakeReaders hle] at howned
      refine h.wake (wakeReaders_perm _ _) howned fun u => (h.owner u).trans (and_congr_left fun _ => ?_)
      refine ⟨mem_append_right _, fun hu => (mem_append.mp hu).resolve_left fun hmem => ?_⟩
      obtain ⟨v, -, heq⟩ := mem_map.mp hmem
      cases heq
  · rename_i thread rest hlist
    split
    · rename_i hl
      obtain ⟨hnil, hm⟩ := (hl ▸ h.owned).nobody
      refine h.wake (by rw [hlist]; rfl) (.inl ⟨thread, by rw [hnil, hm]; rfl, rfl⟩) fun u => ?_
      rw [hnil]
      constructor
      · rintro ⟨⟩
        obtain ⟨timeOut, heq⟩ := Stage.eq_asleep ((h.waits thread .exclusive).mp (hlist ▸ .head rest))
        exact ⟨.head _, by rw [heq]; rfl⟩
      · rintro ⟨hu, -⟩
        cases mem_singleton.mp hu
        rfl
    · exact h

theorem stage_grantLocks (ht : s.stage t = .grant) : s.grantLocks.stage t = .grant := by
  have hwake : ∀ woken : List T, (if t ∈ woken then (s.stage t).granted else s.stage t) = .grant := fun woken => by
    rw [ht]
    exact ite_self _
  unfold State.grantLocks
  split
  · exact ht
  · split
    · exact ht
    · exact hwake _
  · split
    · exact hwake _
    · exact ht

def Stage.IsPlain (stage : Stage) : Prop :=
  stage.holds = none ∧ stage.isLast = false ∧ stage.isUnnamed = false ∧ stage.waits = none

theorem Call.isPlain_loop (c : Call) : c.loop.IsPlain := by
  unfold Call.loop
  split <;> exact ⟨rfl, rfl, rfl, rfl⟩

theorem Call.isPlain_start (c : Call) : c.start.IsPlain := by
  unfold Call.start
  split
  · exact ⟨rfl, rfl, rfl, rfl⟩
  · exact c.isPlain_loop

theorem Call.isPlain_miss (c : Call) : c.miss.IsPlain := by
  unfold Call.miss
  split <;> exact ⟨rfl, rfl, rfl, rfl⟩

theorem Inv.plain (h : Inv s) (ht : s.stage t = old) (hold : old.isUnnamed = false ∧ old.waits = none)
    (hstage : stage.IsPlain) : Inv (s.goTo t stage) :=
  h.goTo ht (fun _ hholds => nomatch hstage.1.symm.trans hholds) (fun hlast => nomatch hstage.2.1.symm.trans hlast)
    (hstage.2.2.1.trans hold.1.symm) (hstage.2.2.2.trans hold.2.symm)

omit [DecidableEq T] in
theorem Inv.waiters_ne_zero (h : Inv s) (hne : s.waitingThreads ≠ []) : s.waiters ≠ 0 := by
  obtain ⟨⟨t, type⟩, l, hlist⟩ := exists_cons_of_ne_nil hne
  rw [h.waiters, hlist, map_cons, sum_cons]
  refine Nat.ne_of_gt (Nat.add_pos_left (show 0 < type.waiterIncr from ?_) _)
  cases type <;> decide

/-- While the lock is free and threads wait for it, a thread is about to look at them. -/
def Awake (s : State T) : Prop := s.lockState = 0 → s.waitingThreads ≠ [] → ∃ t, (s.stage t).wakes = true

theorem Awake.of_stays (h : Awake s) (hstate : s'.lockState = s.lockState)
    (hlist : s'.waitingThreads ≠ [] → s.waitingThreads ≠ []) (hstages : s'.stage = update s.stage t stage)
    (ht : s.stage t = old) (hwakes : old.wakes = true → stage.wakes = true) : Awake s' := by
  intro hfree hne
  obtain ⟨u, hu⟩ := h (hstate ▸ hfree) (hlist hne)
  refine ⟨u, ?_⟩
  rw [hstages]
  by_cases hut : u = t
  · subst hut
    rw [update_self]
    exact hwakes (ht ▸ hu)
  · rwa [update_of_ne hut]

theorem Awake.goTo (h : Awake s) (ht : s.stage t = old) (hwakes : old.wakes = true → stage.wakes = true) :
    Awake (s.goTo t stage) :=
  h.of_stays rfl id rfl ht hwakes

theorem locked_ne_zero {lockState : Int} (h : type.Admits lockState) : type.locked lockState ≠ 0 := by
  cases type with
  | shared => exact Int.ne_of_gt (Int.lt_add_one_of_le h)
  | exclusive => exact nofun

theorem admits_zero (type : SyncType) : type.Admits 0 := by
  cases type with
  | shared => exact Int.le_refl 0
  | exclusive => rfl

/-- The list begins with a reader, and 0 is what the low bits of `waiters` say of the readers in it. -/
def State.Miscounts (s : State T) : Prop :=
  s.waitingThreads.head?.map Prod.snd = some .shared ∧ s.waiting .shared % writerIncr = 0

/-- `grantLocks` gives the free lock to some thread, if those that wait are counted. -/
theorem Inv.grantLocks_takes (h : Inv s) (hcounts : s.lockState = 0 → ¬s.Miscounts) :
    s.grantLocks.lockState ≠ 0 ∨ s.grantLocks.waitingThreads = [] := by
  unfold State.grantLocks
  split
  · exact .inr ‹_›
  · rename_i hlist
    split
    · rename_i hl
      exact .inl (Int.ne_of_lt hl)
    · rename_i hl
      refine .inl fun hzero => ?_
      have hsum : s.lockState + ((s.waiters &&& readersMask : Nat) : Int) = 0 := hzero
      obtain ⟨hfree, hnone⟩ : s.lockState = 0 ∧ s.waiters &&& readersMask = 0 := by omega
      exact hcounts hfree ⟨by rw [hlist]; rfl, h.cntWake ▸ hnone⟩
  · split
    · exact .inl nofun
    · exact .inl ‹_›

/-- The step does not enter `grantLocks` for a free lock while the readers in the list are miscounted. -/
def State.Counts (s : State T) : Op T → Prop
  | .step t => s.stage t = .grant → s.lockState = 0 → ¬s.Miscounts
  | _ => True

def Keeps (s : State T) (op : Op T) (s' : State T) : Prop := Inv s' ∧ (Awake s → s.Counts op → Awake s')

theorem Inv.keeps (h : Inv s) {op : Op T} (ht : s.stage t = old) (hold : old.isUnnamed = false ∧ old.waits = none)
    (hwakes : old.wakes = false) (hstage : stage.IsPlain) : Keeps s op (s.goTo t stage) :=
  ⟨h.plain ht hold hstage, fun ha _ => ha.goTo ht fun hold => nomatch hwakes.symm.trans hold⟩

theorem Inv.wait (h : Inv s) {c : Call} (ht : s.stage t = .enter c) : Keeps s (.step t) (s.wait t c) := by
  unfold State.wait
  split
  · rename_i hfree
    exact ⟨h.take ht hfree.2 ⟨rfl, rfl⟩ (.inl rfl) ⟨rfl, rfl⟩ (.inl ⟨rfl, rfl⟩),
      fun _ _ hzero => absurd hzero (locked_ne_zero hfree.2)⟩
  · rename_i hbusy
    split
    · rename_i hmem
      obtain ⟨⟨u, type⟩, hin, rfl⟩ := mem_map.mp hmem
      exact absurd hin (h.notMem (by rw [ht]; rfl) type)
    · refine ⟨h.sleep ht, fun ha _ hfree => ha.of_stays rfl (fun _ hnil => hbusy ⟨hnil, ?_⟩) rfl ht nofun hfree⟩
      rw [show s.lockState = 0 from hfree]
      exact admits_zero _

theorem Inv.step (h : Inv s) (t : T) : Keeps s (.step t) (s.step t) := by
  have hstill : Inv s → Keeps s (.step t) s := fun h => ⟨h, fun ha _ => ha⟩
  unfold State.step
  split <;> rename_i ht
  · exact hstill h
  · refine h.keeps ht ⟨rfl, rfl⟩ rfl ?_
    split
    · exact Call.isPlain_start _
    · exact ⟨rfl, rfl, rfl, rfl⟩
  · split
    · exact ⟨h.again ht ‹_› ⟨rfl, rfl⟩, fun ha _ => ha.of_stays rfl id rfl ht nofun⟩
    · exact h.keeps ht ⟨rfl, rfl⟩ rfl (Call.isPlain_loop _)
  · refine h.keeps ht ⟨rfl, rfl⟩ rfl ?_
    split
    · exact ⟨rfl, rfl, rfl, rfl⟩
    · exact Call.isPlain_miss _
  · refine h.keeps ht ⟨rfl, rfl⟩ rfl ?_
    split
    · exact ⟨rfl, rfl, rfl, rfl⟩
    · exact Call.isPlain_miss _
  · rename_i admits
    split
    · rename_i hsame
      subst hsame
      refine ⟨h.take ht admits ⟨rfl, rfl⟩ ?_ ?_ (.inr ⟨?_, rfl⟩), fun _ _ hzero =>
        absurd hzero (locked_ne_zero admits)⟩ <;>
        split
      · exact .inr ⟨rfl, ‹_›⟩
      · exact .inl rfl
      · exact ⟨rfl, rfl⟩
      · exact ⟨rfl, rfl⟩
      · exact (decide_eq_true ‹_›).symm
      · exact (decide_eq_false ‹_›).symm
    · exact h.keeps ht ⟨rfl, rfl⟩ rfl (Call.isPlain_loop _)
  · exact ⟨h.setOwner ht, fun ha _ => ha.of_stays rfl id rfl ht nofun⟩
  · exact h.wait ht
  · split
    · rename_i hgranted
      subst hgranted
      exact h.keeps ht ⟨rfl, rfl⟩ rfl ⟨rfl, rfl, rfl, rfl⟩
    · exact hstill h
  · split
    · exact ⟨h.leave ht ‹_›, fun ha _ => ha.of_stays rfl id rfl ht nofun⟩
    · rename_i hm
      exact ⟨h.goTo ht (fun type' hholds => h.holds t type' (by rw [ht]; exact hholds)) (fun _ => not_not.mp hm) rfl
        rfl, fun ha _ => ha.goTo ht nofun⟩
  · exact ⟨h.clear ht rfl rfl ⟨rfl, rfl, rfl⟩, fun ha _ => ha.of_stays rfl id rfl ht nofun⟩
  · exact ⟨h.goTo ht (fun type' hholds => h.holds t type' (by rw [ht]; exact hholds))
      (fun _ => h.last t (by rw [ht]; rfl)) rfl rfl, fun ha _ => ha.goTo ht nofun⟩
  · split
    · rename_i hsame
      subst hsame
      refine ⟨h.release ht rfl rfl ⟨rfl, rfl⟩ (.inl rfl) (fun _ => id) ?_, fun _ _ hzero _ => ⟨t, ?_⟩⟩
      · split <;> exact ⟨rfl, rfl⟩
      · change (update s.stage t _ t).wakes = true
        rw [update_self, if_pos hzero]
        rfl
    · exact ⟨h.goTo ht (fun type' hholds => h.holds t type' (by rw [ht]; exact hholds))
        (fun _ => h.last t (by rw [ht]; rfl)) rfl rfl, fun ha _ => ha.goTo ht nofun⟩
  · refine ⟨h.plain ht ⟨rfl, rfl⟩ ?_, fun _ _ _ hne => ⟨t, ?_⟩⟩
    · split <;> exact ⟨rfl, rfl, rfl, rfl⟩
    · change (update s.stage t _ t).wakes = true
      rw [update_self, if_pos (h.waiters_ne_zero hne)]
      rfl
  · exact ⟨h.clear ht rfl rfl ⟨rfl, rfl, rfl⟩, fun ha _ => ha.of_stays rfl id rfl ht nofun⟩
  · split
    · refine ⟨h.release ht rfl rfl ⟨rfl, rfl⟩ (.inr rfl) (fun rest hrest => ?_) ⟨rfl, rfl⟩,
        fun _ _ hzero => absurd hzero Int.one_ne_zero⟩
      exact hrest.take (show SyncType.shared.Admits 0 from Int.le_refl 0)
    · exact hstill h
  · refine h.keeps ht ⟨rfl, rfl⟩ rfl ?_
    split <;> exact ⟨rfl, rfl, rfl, rfl⟩
  · refine ⟨h.grantLocks.plain (stage_grantLocks ht) ⟨rfl, rfl⟩ ⟨rfl, rfl, rfl, rfl⟩, fun _ hcounts hfree hne => ?_⟩
    rcases h.grantLocks_takes (hcounts ht) with htaken | hnil
    · exact absurd hfree htaken
    · exact absurd hnil hne

theorem Inv.after (h : Inv s) {op : Op T} (ha : s.Allowed op) : Keeps s op (s.after op) := by
  cases op with
  | lock t type timeOut => exact h.keeps ha ⟨rfl, rfl⟩ rfl (Call.isPlain_start _)
  | lockConditional t type => exact h.keeps ha ⟨rfl, rfl⟩ rfl ⟨rfl, rfl, rfl, rfl⟩
  | unlock t type =>
    exact ⟨h.goTo ha.1 (fun _ hholds => by cases hholds; exact ha.2) nofun rfl rfl,
      fun hawake _ => hawake.goTo ha.1 nofun⟩
  | downgrade t =>
    exact ⟨h.goTo ha.1 (fun _ hholds => by cases hholds; exact ha.2.1) (fun _ => ha.2.2) rfl rfl,
      fun hawake _ => hawake.goTo ha.1 nofun⟩
  | step t => exact h.step t
  | expire t type timeOut =>
    refine ⟨h.expire ha.1, fun hawake _ => hawake.of_stays rfl (fun hne hnil => hne ?_) rfl ha.1 nofun⟩
    change s.waitingThreads.erase (t, type) = []
    rw [hnil, erase_nil]

structure Safe (s : State T) : Prop where
  exclusive : ∀ t, (t, .exclusive) ∈ s.owners → ∀ o ∈ s.owners, o = (t, .exclusive)
  lockState : (∃ t, (t, .exclusive) ∈ s.owners) ∧ s.lockState = -1 ∨
    (∀ o ∈ s.owners, o.2 = .shared) ∧ s.lockState = s.owners.length
  /-- The list has the threads that have announced themselves, each once, and `waiters` counts them. -/
  waiting : s.waitingThreads.Nodup ∧
    ∀ t type, (t, type) ∈ s.waitingThreads ↔ ∃ timeOut, s.stage t = .asleep type timeOut false
  waiters : s.waiters = s.waiting .shared + writerIncr * s.waiting .exclusive
  owner : ∀ t c, s.stage t = .testOwner c → (s.exclusiveThread = some t ↔ (t, .exclusive) ∈ s.owners)
  awake : s.lockState = 0 → (∀ t, s.stage t = .outside ∨ ∃ type timeOut granted, s.stage t = .asleep type timeOut
    granted) → ∀ t type timeOut, s.stage t ≠ .asleep type timeOut false

omit [DecidableEq T] in
theorem Inv.safe (h : Inv s) (hawake : Awake s) : Safe s where
  exclusive t ht o ho := by
    rw [(h.owned.alone ht).1] at ho
    exact eq_of_mem_replicate ho
  lockState := by
    rcases h.owned with ⟨t, howners, hl⟩ | ⟨hshared, -, hl⟩
    · exact .inl ⟨⟨t, howners ▸ .head _⟩, hl⟩
    · exact .inr ⟨hshared, hl⟩
  waiting := by
    refine ⟨h.nodup, fun t type => (h.waits t type).trans ⟨Stage.eq_asleep, ?_⟩⟩
    rintro ⟨timeOut, ht⟩
    rw [ht]
    rfl
  waiters := h.waiters.trans (sum_waiterIncr _)
  owner t c ht := (h.owner t).trans (and_iff_left (by rw [ht]; rfl))
  awake hfree hquiet t type timeOut ht := by
    have hmem := (h.waits t type).mpr (by rw [ht]; rfl)
    obtain ⟨u, hu⟩ := hawake hfree (ne_nil_of_mem hmem)
    rcases hquiet u with hstage | ⟨_, _, _, hstage⟩ <;> rw [hstage] at hu <;> cases hu

theorem safe_of_counts {ops : List (Op T)} (h : Run (fun s op s' => s.Counts op ∧ Step s op s') (initial T) ops s) :
    Safe s := by
  obtain ⟨hinv, hawake⟩ : Inv s ∧ Awake s :=
    h.invariant (I := fun s => Inv s ∧ Awake s) (fun s op s' hi ⟨hcounts, ha, heq⟩ => by
      subst heq
      exact ⟨(hi.1.after ha).1, (hi.1.after ha).2 hi.2 hcounts⟩) ⟨.initial, fun _ hne => absurd rfl hne⟩
  exact hinv.safe hawake

def writerThenReader : List (Op Bool) :=
  [.lock false .exclusive (-1), .step false, .step false, .step false, .step false,
    .step false, .lock true .shared (-1),
    .step true, .step true, .step true, .unlock false .exclusive, .step false, .step false, .step false, .step false,
    .step false, .step false, .step true]

instance (s : State T) : (op : Op T) → Decidable (s.Counts op ∧ s.Allowed op)
  | .lock t _ _ | .lockConditional t _ => inferInstanceAs (Decidable (True ∧ s.stage t = .outside))
  | .unlock t type => inferInstanceAs (Decidable (True ∧ s.stage t = .outside ∧ (t, type) ∈ s.owners))
  | .downgrade t =>
    inferInstanceAs (Decidable (True ∧ s.stage t = .outside ∧ (t, .exclusive) ∈ s.owners ∧ s.monitorCount = 0))
  | .step t => inferInstanceAs (Decidable ((s.stage t = .grant → s.lockState = 0 → ¬(_ ∧ _)) ∧ True))
  | .expire t type timeOut =>
    inferInstanceAs (Decidable (True ∧ s.stage t = .asleep type timeOut false ∧ timeOut ≠ -1))

theorem safe_of_counts_writerThenReader : Safe (writerThenReader.foldl State.after (initial Bool)) :=
  safe_of_counts <| (run_of_allAllowed (show AllAllowed (fun s op => s.Counts op ∧ s.Allowed op) State.after
    (initial Bool) writerThenReader by decide +kernel)).mono fun _ _ _ h => ⟨h.1.1, h.1.2, h.2⟩

theorem run_steps {op : Op T} (ha : s.Allowed op) (t : T) (n : Nat) :
    Run Step s (op :: replicate n (.step t)) ((State.step · t)^[n] (s.after op)) := by
  refine .cons ⟨ha, rfl⟩ ?_
  generalize s.after op = s
  induction n generalizing s with
  | zero => exact .nil s
  | succ n ih => exact .cons ⟨trivial, rfl⟩ (ih _)

theorem run_reader (hout : s.stage t = .outside) (hl : s.lockState = -1) (hnot : t ∉ s.waitingThreads.map Prod.fst) :
    ∃ ops, Run Step s ops { s.goTo t (.asleep .shared (-1) false) with
      waiters := s.waiters + 1
      waitingThreads := s.waitingThreads ++ [(t, .shared)] } := by
  refine ⟨.lock t .shared (-1) :: replicate (if s.waiters = 0 then 3 else 2) (.step t), ?_⟩
  convert run_steps (show s.Allowed (.lock t .shared (-1)) from hout) t _ using 1
  split <;> simp [Nat.iterate, State.after, State.step, State.goTo, State.wait, Call.start, Call.loop, Call.miss,
    SyncType.Admits, SyncType.waiterIncr, *]

/-- The lock has been given back by the thread, which had it exclusively. -/
def State.freed (s : State T) (t : T) (stage : Stage) : State T :=
  { s.goTo t stage with lockState := 0, exclusiveThread := none, owners := s.owners.erase (t, .exclusive) }

theorem run_unlock (hout : s.stage t = .outside) (hheld : (t, .exclusive) ∈ s.owners) (hm : s.monitorCount = 0)
    (hl : s.lockState = -1) (hwait : s.waiters ≠ 0) : ∃ ops, Run Step s ops (s.freed t .grant) := by
  refine ⟨.unlock t .exclusive :: replicate 5 (.step t), ?_⟩
  convert run_steps (show s.Allowed (.unlock t .exclusive) from ⟨hout, hheld⟩) t 5 using 1
  simp [Nat.iterate, State.after, State.step, State.goTo, State.freed, SyncType.unlocked, *]

theorem Inv.grantLocks_of_miscounts (h : Inv s) (hmiscounts : s.Miscounts) : s.grantLocks = s := by
  have hnone : s.waiters &&& readersMask = 0 := h.cntWake.trans hmiscounts.2
  unfold State.grantLocks
  split
  · rfl
  · split
    · rfl
    · dsimp only
      rw [hnone, wakeReaders]
      simp [State.wake]
  · rename_i hlist
    cases hlist ▸ hmiscounts.1

theorem run_readers (n : Nat) : ∃ ops s, Run Step (initial Nat) ops s ∧ s.lockState = -1 ∧ s.monitorCount = 0 ∧
    (0, .exclusive) ∈ s.owners ∧ s.waitingThreads = (range n).map (fun i => (i + 1, .shared)) ∧
      ∀ i, i = 0 ∨ n < i → s.stage i = .outside := by
  induction n with
  | zero =>
    exact ⟨_, _, run_steps (show (initial Nat).Allowed (.lock 0 .exclusive (-1)) from rfl) 0 5, rfl, rfl, .head _, rfl,
      fun i _ => by cases i <;> rfl⟩
  | succ n ih =>
    obtain ⟨ops, s, hrun, hl, hm, hheld, hlist, hout⟩ := ih
    have hnot : n + 1 ∉ s.waitingThreads.map Prod.fst := by
      rw [hlist, map_map]
      intro hmem
      obtain ⟨i, hi, heq⟩ := mem_map.mp hmem
      cases heq
      exact Nat.lt_irrefl n (mem_range.mp hi)
    obtain ⟨joins, hjoins⟩ := run_reader (hout (n + 1) (.inr (Nat.lt_succ_self n))) hl hnot
    refine ⟨_, _, hrun.append hjoins, hl, hm, hheld, ?_, fun i hi => ?_⟩
    · change s.waitingThreads ++ _ = _
      rw [hlist, range_succ, map_append]
      rfl
    · refine (update_of_ne ?_ _ _).trans (hout i (hi.imp_right Nat.lt_of_succ_lt))
      rintro rfl
      exact hi.elim (Nat.succ_ne_zero n) (Nat.lt_irrefl _)

/-- 65536 readers wait for a writer, who gives the lock back and wakes none of them. -/
theorem readers_forgotten : ¬∀ (T : Type) [DecidableEq T] (ops : List (Op T)) (s : State T),
    Run Step (initial T) ops s → Safe s := by
  intro hsafe
  obtain ⟨ops, s, hrun, hl, hm, hheld, hlist, hout⟩ := run_readers writerIncr
  have hinv : ∀ {ops} {s : State Nat}, Run Step (initial Nat) ops s → Inv s := fun h =>
    h.invariant (fun _ _ _ hi ⟨ha, heq⟩ => heq ▸ (hi.after ha).1) .initial
  obtain ⟨l, hcons⟩ : ∃ l, s.waitingThreads = (1, .shared) :: l := by
    obtain ⟨m, hsucc⟩ : ∃ m, writerIncr = m + 1 := ⟨65535, rfl⟩
    rw [hlist, hsucc, range_succ_eq_map]
    exact ⟨_, rfl⟩
  obtain ⟨frees, hfrees⟩ := run_unlock (hout 0 (.inl rfl)) hheld hm hl
    ((hinv hrun).waiters_ne_zero (by rw [hcons]; exact nofun))
  have hfreed := hrun.append hfrees
  have hcount : s.waiting .shared = writerIncr := by
    rw [State.waiting, hlist, countP_map]
    exact (countP_eq_length.mpr fun _ _ => rfl).trans length_range
  have hgrant : (s.freed 0 .grant).step 0 = s.freed 0 .outside := by
    have hstays := (hinv hfreed).grantLocks_of_miscounts
      ⟨by change s.waitingThreads.head?.map Prod.snd = _; rw [hcons]; rfl, hcount ▸ Nat.mod_self _⟩
    simp only [State.step, State.freed, State.goTo, update_self] at hstays ⊢
    rw [hstays, update_idem]
  have hend := hsafe Nat _ _ (hfreed.append (.single (show Step _ (.step 0) _ from ⟨trivial, hgrant.symm⟩)))
  obtain ⟨timeOut, hasleep⟩ := (hend.waiting.2 1 .shared).mp (hcons ▸ .head _)
  refine hend.awake rfl (fun i => ?_) 1 _ _ hasleep
  by_cases hi : i = 0 ∨ writerIncr < i
  · refine .inl ?_
    change update s.stage 0 .outside i = .outside
    rw [update_apply, hout i hi, ite_self]
  · obtain ⟨hpos, hle⟩ := not_or.mp hi
    obtain ⟨j, rfl⟩ := Nat.exists_eq_succ_of_ne_zero hpos
    obtain ⟨timeOut, hj⟩ := (hend.waiting.2 (j + 1) .shared).mp
      (hlist ▸ mem_map_of_mem (mem_range.mpr (Nat.lt_of_succ_le (Nat.not_lt.mp hle))))
    exact .inr ⟨_, _, _, hj⟩

end Firebird.Sync
