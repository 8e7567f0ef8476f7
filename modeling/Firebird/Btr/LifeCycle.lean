import Firebird.Btr.OwnOperations
import Firebird.Lib.Run

/-! # The life cycle of index slots

A transaction creates, marks, activates and copies indices and ends, and passes look at slots in between and afterwards,
each with its own surroundings. An error unwinds the window that is held and is recorded. -/

namespace Firebird.Btr
open Tpc (TraState)

variable {c : Ctx} {env : Surroundings} {root : IndexRootPage} {trees : List TreeEvent} {id : Nat} {α : Type}

inductive IndexOp where
  | create (creation : IndexCreation)
  | mark (id traNumber : Nat)
  | activate (id : Nat)
  | copy (id : Nat)
  | commit
  | rollback
  | pass (id : Nat)

structure Call where
  op : IndexOp
  env : Surroundings

structure Sys where
  world : World
  c : Ctx
  errors : List RootError

def Ctx.begin (transaction : Nat) (start : IndexRootPage) : Ctx :=
  ⟨transaction, .working, start, fun _ => .untouched, fun _ => false⟩

def Sys.begin (transaction : Nat) (start : IndexRootPage) : Sys :=
  ⟨⟨start, false, 0, true, [], 0, []⟩, .begin transaction start, []⟩

def Ctx.withVisited (c : Ctx) (id : Nat) : Ctx :=
  if c.phase = .working then c else { c with visited := Function.update c.visited id true }

def Sys.run (s : Sys) (x : Act α) (record : α → IndexRootPage → Ctx) : Sys :=
  match x s.world with
  | .ok a w => ⟨w, record a w.page, s.errors⟩
  | .error e w => ⟨{ w with held := false }, s.c, e :: s.errors⟩

def exec (s : Sys) (call : Call) : Sys :=
  match call.op with
  | .create creation => s.run (createIndex call.env creation) fun id page => s.c.afterCreate id (page.rpt id)
  | .mark id traNumber => s.run (markFetched call.env id traNumber) fun _ page => s.c.afterMark id (page.rpt id)
  | .activate id => s.run (activateIndex call.env id) fun _ _ => s.c.afterActivate id
  | .copy id => s.run (copyIndex call.env id) fun _ page => s.c.afterCopy id (s.world.page.rpt id) (page.rpt id)
  | .commit => { s with c := { s.c with phase := .committed } }
  | .rollback => { s with c := { s.c with phase := .rolledBack } }
  | .pass id => s.run (cleanupIndex call.env id) fun _ _ => s.c.withVisited id

structure OwnCall (c : Ctx) (env : Surroundings) : Prop where
  phase : c.phase = .working
  transaction : env.transaction = some c.transaction
  answers : Answers c env

/-- What the states of slots permit (the table in `src/jrd/ods.h`). -/
def Allowed (s : Sys) (call : Call) : Prop :=
  match call.op with
  | .create creation => OwnCall s.c call.env ∧ Fresh call.env s.world.page ∧ creation.createMethod = .forRollback ∧
      creation.traNumber = s.c.transaction ∧ creation.idxId ≤ call.env.maxIdx
  | .mark id traNumber => OwnCall s.c call.env ∧ Markable s.c call.env (s.world.page.rpt id) ∧
      (traNumber = 0 ∨ traNumber = s.c.transaction)
  | .activate id => OwnCall s.c call.env ∧ Activable s.c (s.world.page.rpt id)
  | .copy id => OwnCall s.c call.env ∧ Fresh call.env s.world.page ∧ ((s.world.page.rpt id).state = .normal ∨
      (s.world.page.rpt id).state = .migrate ∧ (s.world.page.rpt id).transaction = s.c.transaction)
  | .commit | .rollback => s.c.phase = .working
  | .pass _ => Answers s.c call.env

structure WellFormed (transaction : Nat) (root : IndexRootPage) : Prop where
  nonzero : transaction ≠ 0
  behind : ∀ id, root.count ≤ id → (root.rpt id).state = .unused
  slots : ∀ id, Foreign transaction (root.rpt id)
  single : ∀ tree, root.refs tree ≤ 1

/-- No error but for want of space, no assertion fails, every slot that was looked at after the end of the transaction
is as the end demands, and no tree is lost or deleted twice. -/
structure LifeCycle (s : Sys) : Prop where
  errors : ∀ e ∈ s.errors, e = .failed
  asserted : s.world.asserted = true
  resolved : ∀ id, s.c.visited id = true → Resolved s.c id (s.world.page.rpt id)
  original : s.c.phase = .rolledBack → ∀ id, s.c.visited id = true → (s.c.start.rpt id).state = .normal →
    (s.world.page.rpt id).Is .normal (s.c.start.rpt id).getRootPage
  single : ∀ tree, s.world.page.refs tree ≤ 1
  ledger : ∀ tree, s.world.trees.count (.built tree) + s.c.start.refs tree =
    s.world.page.refs tree + s.world.trees.count (.deleted tree)

/-- No index is migrated twice, no migration is committed, none is rolled back after its index was marked for deletion,
and passes look at the slot of the copy before the one with the original tree. -/
def Careful (s : Sys) (call : Call) : Prop :=
  match call.op with
  | .copy id => MigrationsGoOn s.c call.env ∧ (s.world.page.rpt id).state ≠ .migrate
  | .commit => ∀ id, (s.world.page.rpt id).state = .migrate → (s.world.page.rpt id).transaction ≠ s.c.transaction
  | .rollback => s.c.NoOrphan
  | .pass id => MigrationsGoOn s.c call.env ∧ ¬ BackPending s.c s.world.page id
  | _ => MigrationsGoOn s.c call.env

structure Good (s : Sys) : Prop where
  held : s.world.held = false
  errors : ∀ e ∈ s.errors, e = .failed
  asserted : s.world.asserted = true
  inv : Inv s.c s.world.page s.world.trees

theorem Good.run {s : Sys} (h : Good s) {x : Act α} {record : α → IndexRootPage → Ctx}
    (hx : Lib.Triple (At false s.world.page s.world.trees) x (fun a w => ∃ root' trees',
      Inv (record a root') root' trees' ∧ At false root' trees' w) (Stops s.c s.world.page)) :
      Good (s.run x record) := by
  have hends := hx s.world ⟨h.held, rfl, rfl, h.asserted⟩
  unfold Sys.run
  cases hrun : x s.world with
  | ok a w =>
    rw [hrun] at hends
    obtain ⟨root', trees', hinv, hw⟩ := hends
    obtain ⟨hheld, rfl, rfl, hasserted⟩ := hw
    exact ⟨hheld, h.errors, hasserted, hinv⟩
  | error e w =>
    rw [hrun] at hends
    obtain ⟨rfl, b, root', trees', hlater, hw⟩ := hends
    obtain ⟨-, rfl, rfl, hasserted⟩ := hw
    exact ⟨rfl, List.forall_mem_cons.mpr ⟨rfl, h.errors⟩, hasserted, hlater.inv⟩

theorem Inv.finish (h : Inv c root trees) (hphase : c.phase = .working) {phase : Phase}
    (hwhole : phase = .rolledBack → c.NoOrphan)
    (hcommitted : phase = .committed → ∀ id original copy back, c.fate id ≠ .migrated original copy back) :
    Inv { c with phase } root trees := by
  refine ⟨h.transaction, h.behind, fun id => .inl ?_, fun id hv => absurd hv (h.not_visited hphase id),
    fun id original copy back hfate => ?_, h.forth, h.origin, hwhole, h.single, h.ledger⟩
  · exact pending_congr (c := c) rfl rfl rfl (h.pending hphase id)
  · obtain ⟨hback, -, hstates⟩ := h.back id original copy back hfate
    exact ⟨hback, fun hp => hcommitted hp id original copy back hfate, hstates⟩

theorem resolved_congr {c' : Ctx} {rpt : IrtRepeat} (hphase : c'.phase = c.phase) (hfate : c'.fate id = c.fate id)
    (hstart : c'.start = c.start) (htransaction : c'.transaction = c.transaction) (h : Resolved c id rpt) :
    Resolved c' id rpt := by
  unfold Resolved at h ⊢
  rw [hphase, hfate, htransaction]
  cases hp : c.phase <;> cases hf : c.fate id <;> simp only [hp, hf] at h ⊢ <;> first | exact h | skip
  all_goals exact ⟨hstart ▸ h.start, htransaction ▸ h.foreign, hstart ▸ h.migrating⟩

theorem Inv.visit (h : Inv c root trees) (hid : c.phase ≠ .working → Resolved c id (root.rpt id)) :
    Inv (c.withVisited id) root trees := by
  unfold Ctx.withVisited
  split
  case isTrue => exact h
  case isFalse hphase =>
    refine ⟨h.transaction, h.behind, fun n => ?_, fun n hv => ?_, h.back, h.forth, h.origin,
      h.whole, h.single, h.ledger⟩
    · exact (h.slots n).imp (pending_congr (c := c) rfl rfl rfl) (resolved_congr (c := c) rfl rfl rfl rfl)
    · by_cases hn : n = id
      · subst hn
        exact resolved_congr (c := c) rfl rfl rfl rfl (hid hphase)
      · exact resolved_congr (c := c) rfl rfl rfl rfl (h.visited n ((Function.update_of_ne hn ..).symm.trans hv))

theorem Good.step {s : Sys} (h : Good s) {call : Call} (hallowed : Allowed s call) (hcareful : Careful s call) :
    Good (exec s call) := by
  obtain ⟨op, env⟩ := call
  cases op with
  | create creation =>
    obtain ⟨hown, hfresh, hmethod, htransaction, hidx⟩ := hallowed
    exact h.run (createIndex_does ⟨hown.answers, hcareful⟩ h.inv hown.phase hfresh creation hmethod htransaction hidx)
  | mark id traNumber =>
    obtain ⟨hown, hmarkable, htra⟩ := hallowed
    exact h.run (markFetched_does ⟨hown.answers, hcareful⟩ h.inv hown.phase hown.transaction htra hmarkable).mayFail
  | activate id =>
    obtain ⟨hown, hactivable⟩ := hallowed
    show Good (s.run (activateIndex env id) fun _ _ => s.c.afterActivate id)
    refine h.run (Does.mayFail (.post (activateIndex_does ⟨hown.answers, hcareful⟩ h.inv hown.phase hown.transaction
      hactivable) fun _ w hw => ?_))
    obtain ⟨root', hinv, hw⟩ := hw
    exact ⟨root', _, hinv, hw⟩
  | copy id =>
    obtain ⟨hown, hfresh, hstate⟩ := hallowed
    exact h.run (copyIndex_does ⟨hown.answers, hcareful.1⟩ h.inv hown.phase hown.transaction hfresh
      (hstate.resolve_right fun hm => hcareful.2 hm.1))
  | commit =>
    refine ⟨h.held, h.errors, h.asserted, h.inv.finish hallowed nofun fun _ id original copy back hfate => ?_⟩
    have hpending := h.inv.pending hallowed id
    unfold Pending at hpending
    rw [hfate] at hpending
    exact hcareful id hpending.1.state hpending.2.1
  | rollback => exact ⟨h.held, h.errors, h.asserted, h.inv.finish hallowed (fun _ => hcareful) nofun⟩
  | pass id =>
    show Good (s.run (cleanupIndex env id) fun _ _ => s.c.withVisited id)
    refine h.run (Does.mayFail (.post (cleanupIndex_does ⟨hallowed, hcareful.1⟩ h.inv id) fun _ w hw => ?_))
    obtain ⟨value, root', trees', hp, hw⟩ := hw
    obtain ⟨hinv, hresolved⟩ := hp.inv h.inv hcareful.2
    exact ⟨root', trees', hinv.visit hresolved, hw⟩

theorem Inv.begin {transaction : Nat} (h : WellFormed transaction root) : Inv (.begin transaction root) root [] where
  transaction := h.nonzero
  behind id hid := ⟨h.behind id hid, rfl⟩
  slots id := .inl ⟨fun hnormal => ⟨hnormal, rfl⟩, h.slots id, fun hm => ⟨hm, rfl⟩⟩
  visited := nofun
  back := nofun
  forth := nofun
  origin := fun _ _ _ => trivial
  whole := nofun
  single := h.single
  ledger _ := (Nat.zero_add _).trans (Nat.add_zero _).symm

theorem Inv.original (h : Inv c root trees) (hphase : c.phase = .rolledBack) (hresolved : Resolved c id (root.rpt id))
    (hnormal : (c.start.rpt id).state = .normal) : (root.rpt id).Is .normal (c.start.rpt id).getRootPage := by
  have hkeeps := h.origin (h.whole hphase) id hnormal
  unfold Resolved at hresolved
  rw [hphase] at hresolved
  cases hfate : c.fate id with
  | untouched =>
    rw [hfate] at hresolved
    exact hresolved.start hnormal
  | marked tree | kept tree | migrated tree copy back =>
    rw [hfate] at hresolved hkeeps
    exact hkeeps ▸ hresolved
  | reserved | created tree | killed tree | backOf original of | orphan original =>
    rw [hfate] at hkeeps
    exact hkeeps.elim

theorem Good.lifeCycle {s : Sys} (h : Good s) : LifeCycle s where
  errors := h.errors
  asserted := h.asserted
  resolved := h.inv.visited
  original hphase id hv := h.inv.original hphase (h.inv.visited id hv)
  single := h.inv.single
  ledger := h.inv.ledger

theorem lifeCycle_of_careful {transaction : Nat} (hstart : WellFormed transaction root) {calls : List Call} {s : Sys}
    (hrun : Lib.Run (Lib.Does (fun s call => Allowed s call ∧ Careful s call) exec) (.begin transaction root) calls s) :
    LifeCycle s := by
  have hgood : Good s := hrun.invariant (fun s call t (h : Good s) (hstep : Lib.Does _ exec s call t) =>
    hstep.2 ▸ h.step hstep.1.1 hstep.1.2) ⟨rfl, nofun, rfl, .begin hstart⟩
  exact hgood.lifeCycle

def oneIndex : IndexRootPage :=
  (IndexRootPage.mk 1 (fun _ => emptyRepeat) (by decide)).setSlot 0 ⟨0, 100, 1, 8000, 0, .normal, 1, 0⟩

def answering (c : Ctx) : Surroundings where
  others _ page := page
  fails _ := false
  cacheState _ number := if number = c.transaction then c.phase.state else .dead
  presence _ id := match c.fate id with
    | .marked _ => false
    | _ => true
  traWait _ number := if number = c.transaction then c.phase.state else .dead
  oldestActive _ := c.transaction
  nextNumber _ := c.transaction + 1
  newTree _ := ⟨2, 200⟩
  codeFound _ := true
  transaction := if c.phase = .working then some c.transaction else none
  hasRootPage := true
  sweeper := false
  useIdxId := false
  maxIdx := 100
  pageSize := 8192

theorem answers_answering (c : Ctx) : Answers c (answering c) where
  others _ _ := rfl
  fails _ := rfl
  cacheState _ := if_pos rfl
  traWait _ := if_pos rfl
  created _ _ id tree hfate := by
    show (match c.fate id with | .marked _ => false | _ => true) = true
    rw [hfate]
  marked _ _ id tree hfate := by
    show (match c.fate id with | .marked _ => false | _ => true) = false
    rw [hfate]
  migrated _ _ id original copy back hfate := by
    show (match c.fate id with | .marked _ => false | _ => true) = true
    rw [hfate]
  nextNumber _ := Nat.succ_ne_self _
  newTree _ := ⟨nofun, nofun⟩
  own h := by
    by_contra hphase
    have hnone : (if c.phase = .working then some c.transaction else none) = some c.transaction := h
    rw [if_neg hphase] at hnone
    exact nomatch hnone
  hasRootPage := rfl
  maxIdx := show 100 + 2 < 2 ^ 16 by decide

theorem oneIndex_refs (tree : PageNumber) : oneIndex.refs tree =
    (decide (some (PageNumber.mk 1 100) = some tree)).toNat := by
  unfold oneIndex
  generalize hempty : IndexRootPage.mk 1 (fun _ => emptyRepeat) (by decide) = empty
  have hrpt : ∀ n, empty.rpt n = emptyRepeat := fun n => hempty ▸ rfl
  have hnone : ∀ n, (empty.rpt n).usedTree = none := fun n => usedTree_of_unused (by rw [hrpt]; rfl)
  have hrefs : empty.refs tree = 0 := Lib.count_eq_zero fun n => by rw [hnone]; rfl
  have hused : (IrtRepeat.mk 0 100 1 8000 0 .normal 1 0).usedTree = some ⟨1, 100⟩ := rfl
  have hset := @refs_setSlot empty 0 ⟨0, 100, 1, 8000, 0, .normal, 1, 0⟩ (Nat.two_pow_pos 16) tree
  simp only [hrefs, hnone, hused, reduceCtorEq, decide_false, Bool.toNat_false] at hset
  omega

theorem oneIndex_rpt (id : Nat) : (oneIndex.rpt id).state = .normal ∧ id = 0 ∨
    (oneIndex.rpt id).state = .unused ∧ id ≠ 0 := by
  by_cases hid : id = 0
  · exact .inl ⟨by rw [hid]; rfl, hid⟩
  · refine .inr ⟨?_, hid⟩
    rw [oneIndex, IndexRootPage.setSlot_of_ne _ hid]
    rfl

theorem oneIndex_wellFormed : WellFormed 5 oneIndex where
  nonzero := by decide
  behind id hid := by
    rcases oneIndex_rpt id with ⟨-, rfl⟩ | ⟨hunused, -⟩
    · exact absurd hid (by decide)
    · exact hunused
  slots id := by
    rcases oneIndex_rpt id with ⟨-, rfl⟩ | ⟨hunused, -⟩
    · exact ⟨fun _ => by decide, fun _ => rfl, fun h => by simp [oneIndex] at h⟩
    · constructor <;> grind
  single tree := by
    rw [oneIndex_refs]
    exact Bool.toNat_le _

def migrating : Sys := exec (.begin 5 oneIndex) ⟨.copy 0, answering (.begin 5 oneIndex)⟩

theorem copy_allowed : Allowed (.begin 5 oneIndex) ⟨.copy 0, answering (.begin 5 oneIndex)⟩ :=
  ⟨⟨rfl, rfl, answers_answering _⟩, fun _ => (oneIndex_refs ⟨2, 200⟩).trans (by decide), .inl rfl⟩

def ended (phase : Phase) : Sys := { migrating with c := { migrating.c with phase } }

def passed (phase : Phase) : Sys := exec (ended phase) ⟨.pass 0, answering (ended phase).c⟩

theorem oneIndex_not_migrating (c : Ctx) (h : c.start = oneIndex) (env : Surroundings) : MigrationsGoOn c env := by
  intro n id hstate
  rw [h] at hstate
  rcases oneIndex_rpt id with ⟨hnormal, -⟩ | ⟨hunused, -⟩
  · exact nomatch hnormal.symm.trans hstate
  · exact nomatch hunused.symm.trans hstate

theorem migrating_c : migrating.c.NoOrphan ∧ migrating.c.start = oneIndex := by
  have hafter : ∀ before after : IrtRepeat, ((Ctx.begin 5 oneIndex).afterCopy 0 before after).NoOrphan ∧
      ((Ctx.begin 5 oneIndex).afterCopy 0 before after).start = oneIndex := by
    intro before after
    unfold Ctx.afterCopy
    split
    · refine ⟨fun id original horphan => ?_, rfl⟩
      by_cases hback : id = after.backslot
      · subst hback
        exact nomatch (Ctx.withFate_self ..).symm.trans horphan
      · rw [Ctx.withFate_of_ne _ _ hback] at horphan
        by_cases hid : id = 0
        · subst hid
          exact nomatch (Ctx.withFate_self ..).symm.trans horphan
        · rw [Ctx.withFate_of_ne _ _ hid] at horphan
          exact nomatch horphan
    · exact ⟨fun _ _ => nofun, rfl⟩
  unfold migrating exec Sys.run
  dsimp only
  split
  · exact hafter _ _
  · exact ⟨fun _ _ => nofun, rfl⟩

theorem lifeCycle_of_careful_rollback : LifeCycle (passed .rolledBack) := by
  have hbegin : (Sys.begin 5 oneIndex).c.start = oneIndex := rfl
  have hworking : migrating.c.phase = .working := by decide +kernel
  have hmigrate : ((ended .rolledBack).world.page.rpt 0).state ≠ .inProgress := by decide +kernel
  have hrun : Lib.Run (Lib.Does (fun s call => Allowed s call ∧ Careful s call) exec) (.begin 5 oneIndex)
      [⟨.copy 0, answering (.begin 5 oneIndex)⟩, ⟨.rollback, answering migrating.c⟩,
        ⟨.pass 0, answering (ended .rolledBack).c⟩]
      (passed .rolledBack) :=
    .cons ⟨⟨copy_allowed, oneIndex_not_migrating _ hbegin _, nofun⟩, rfl⟩ (.cons ⟨⟨hworking, migrating_c.1⟩, rfl⟩
      (.cons ⟨⟨answers_answering _, oneIndex_not_migrating _ migrating_c.2 _, fun h => hmigrate h.2.1⟩, rfl⟩ (.nil _)))
  exact lifeCycle_of_careful oneIndex_wellFormed hrun

/-- A migration that is committed is reverted by the first pass. -/
theorem commit_reverts_migration : ¬ ∀ (transaction : Nat) (root : IndexRootPage), WellFormed transaction root →
    ∀ (calls : List Call) (s : Sys), Lib.Run (Lib.Does Allowed exec) (.begin transaction root) calls s →
    LifeCycle s := by
  intro hall
  have hworking : migrating.c.phase = .working := by decide +kernel
  have hrun : Lib.Run (Lib.Does Allowed exec) (.begin 5 oneIndex)
      [⟨.copy 0, answering (.begin 5 oneIndex)⟩, ⟨.commit, answering migrating.c⟩,
        ⟨.pass 0, answering (ended .committed).c⟩]
      (passed .committed) := .cons ⟨copy_allowed, rfl⟩
      (.cons ⟨hworking, rfl⟩ (.cons ⟨answers_answering _, rfl⟩ (.nil _)))
  have hresolved := (hall 5 oneIndex oneIndex_wellFormed _ _ hrun).resolved 0 (by decide +kernel)
  have hphase : (passed .committed).c.phase = .committed := by decide +kernel
  have hfate : (passed .committed).c.fate 0 = .migrated ⟨1, 100⟩ ⟨2, 200⟩ 1 := by decide +kernel
  unfold Resolved at hresolved
  rw [hphase, hfate] at hresolved
  have hroot : ((passed .committed).world.page.rpt 0).getRootPage = some ⟨1, 100⟩ := by decide +kernel
  exact absurd (hroot.symm.trans hresolved.root) (by decide)

end Firebird.Btr
