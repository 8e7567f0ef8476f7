import Firebird.Btr.Passes
import Firebird.Btr.RootLatch

/-! # The functions on a page with the invariant -/

namespace Firebird.Btr

open Lib
open Tpc (TraState)

variable {c : Ctx} {env : Surroundings} {root : IndexRootPage} {trees : List TreeEvent} {id : Nat}
  {rpt : IrtRepeat} {α : Type} {b : Bool}

/-- The page and what became of trees, with the window held or free and all assertions true. -/
structure At (held : Bool) (root : IndexRootPage) (trees : List TreeEvent) (w : World) : Prop where
  held : w.held = held
  page : w.page = root
  trees : w.trees = trees
  asserted : w.asserted = true

abbrev NoError : RootError → World → Prop := fun _ _ => False

abbrev Does (P : World → Prop) (x : Act α) (Q : α → World → Prop) : Prop := Triple P x Q NoError

/-- The surroundings answer as a transaction in this phase demands. -/
structure Answers (c : Ctx) (env : Surroundings) : Prop where
  others : ∀ n page, env.others n page = page
  fails : ∀ n, env.fails n = false
  cacheState : ∀ n, env.cacheState n c.transaction = c.phase.state
  traWait : ∀ n, env.traWait n c.transaction = c.phase.state
  /-- Once the transaction is committed, its index records are there or not. -/
  created : c.phase = .committed → ∀ n id tree, c.fate id = .created tree → env.presence n id = true
  marked : c.phase = .committed → ∀ n id tree, c.fate id = .marked tree → env.presence n id = false
  migrated : c.phase = .committed → ∀ n id original copy back, c.fate id = .migrated original copy
    back → env.presence n id = true
  nextNumber : ∀ n, env.nextNumber n ≠ c.transaction
  newTree : ∀ n, (env.newTree n).pageNum ≠ 0 ∧ (env.newTree n).pageSpaceId ≠ 0
  own : env.transaction = some c.transaction → c.phase = .working
  hasRootPage : env.hasRootPage = true
  maxIdx : env.maxIdx + 2 < 2 ^ 16

def MigrationsGoOn (c : Ctx) (env : Surroundings) : Prop :=
  ∀ n id, (c.start.rpt id).state = .migrate → env.cacheState n (c.start.rpt id).transaction ≠ .committed ∧
    env.cacheState n (c.start.rpt id).transaction ≠ .dead

structure Fits (c : Ctx) (env : Surroundings) : Prop extends Answers c env where
  migrating : MigrationsGoOn c env

theorem ask_does (answer : Nat → α) :
    Does (At b root trees) (ask answer) fun a w => (∃ n, a = answer n) ∧ At b root trees w :=
  fun w hw => ⟨⟨w.clock, rfl⟩, hw.held, hw.page, hw.trees, hw.asserted⟩

theorem fetchRoot_does (hf : Fits c env) : Does (At false root trees) (fetchRoot env) fun _ => At true root trees := by
  intro w hw
  unfold fetchRoot
  rw [if_neg (ne_true_of_eq_false hw.held), if_neg (ne_true_of_eq_false (hf.fails _)), hf.others]
  exact ⟨rfl, hw.page, hw.trees, hw.asserted⟩

theorem releaseRoot_does : Does (At true root trees) releaseRoot fun _ => At false root trees := by
  intro w hw
  unfold releaseRoot
  rw [if_pos hw.held]
  exact ⟨rfl, hw.page, hw.trees, hw.asserted⟩

theorem readRoot_does : Does (At true root trees) readRoot fun page w => page = root ∧ At true root trees w := by
  intro w hw
  unfold readRoot
  rw [if_pos hw.held]
  exact ⟨hw.page, hw⟩

theorem writeRoot_does (f : IndexRootPage → IndexRootPage) :
    Does (At true root trees) (writeRoot f) fun _ => At true (f root) trees := by
  intro w hw
  unfold writeRoot
  rw [if_pos hw.held]
  exact ⟨hw.held, congrArg f hw.page, hw.trees, hw.asserted⟩

theorem setSlot_does {f : IrtRepeat → Asserted} (hholds : (f (root.rpt id)).holds = true) :
    Does (At true root trees) (setSlot id f) fun _ => At true (root.setSlot id (f (root.rpt id)).slot) trees := by
  intro w hw
  unfold setSlot
  rw [if_pos hw.held]
  obtain ⟨hheld, rfl, hdeleted, hasserted⟩ := hw
  exact ⟨hheld, rfl, hdeleted, Bool.and_eq_true_iff.mpr ⟨hasserted, hholds⟩⟩

theorem pointTo_does (n : Nat) : Does (At b root trees) (pointTo n) fun p w => p.id = n ∧ At b root trees w :=
  fun _ hw => ⟨rfl, hw⟩

theorem usePointer_does (name : RootPointer) (p : SlotPointer) :
    Does (At b root trees) (usePointer name p) fun n w => n = p.id ∧ At b root trees w :=
  fun _ hw => ⟨rfl, hw.held, hw.page, hw.trees, hw.asserted⟩

theorem external_does (hf : Fits c env) : Does (At b root trees) (external env) fun _ => At b root trees := by
  refine (ask_does env.fails).bind fun fails => .assume fun ⟨n, hn⟩ => ?_
  rw [hn, hf.fails]
  exact .pure fun _ hw => hw

theorem onlyIf_does {cond : Bool} {x : Act Unit} (hx : Does (At b root trees) x fun _ => At b root trees) :
    Does (At b root trees) (onlyIf cond x) fun _ => At b root trees := .ite (fun _ => hx) fun _ => .pure fun _ hw => hw

theorem deleteTree_does (hf : Fits c env) (tree : PageNumber) :
    Does (At b root trees) (deleteTree env tree) fun _ => At b root (.deleted tree :: trees) := by
  refine Triple.bind (Q := fun _ => At b root (.deleted tree :: trees)) ?_ fun _ => external_does hf
  exact fun w hw => ⟨hw.held, hw.page, congrArg (.deleted tree :: ·) hw.trees, hw.asserted⟩

theorem buildTree_does : Does (At b root trees) (buildTree env) fun tree w =>
    ∃ n, tree = env.newTree n ∧ At b root (.built tree :: trees) w :=
  fun w hw => ⟨w.clock, rfl, hw.held, hw.page, congrArg (.built (env.newTree w.clock) :: ·) hw.trees, hw.asserted⟩

/-! ### Slots -/

theorem deleteIndex_does (hf : Fits c env) (hid : id < root.count) (withCleanup : Bool) :
    Does (At true root trees) (deleteIndex env id withCleanup) fun _ =>
      At false (root.setSlot id (root.rpt id).setEmpty) ((root.rpt id).getRootPage.toList.map .deleted ++ trees) := by
  refine readRoot_does.bind fun page => .assume fun hpage => ?_
  subst hpage
  rw [if_pos hid]
  cases hroot : (page.rpt id).getRootPage with
  | none =>
    exact (writeRoot_does _).bind fun _ => releaseRoot_does.bind fun _ => (onlyIf_does (external_does hf)).bind fun _ =>
      .pure fun _ hw => hw
  | some tree =>
    refine (ask_does env.fails).bind fun fails => .assume fun ⟨n, hn⟩ => ?_
    rw [hn, hf.fails]
    exact (writeRoot_does _).bind fun _ => releaseRoot_does.bind fun _ => (deleteTree_does hf tree).bind fun _ =>
      (onlyIf_does (external_does hf)).bind fun _ => .pure fun _ hw => hw

theorem Phase.eq_committed {phase : Phase} (h : phase.state = .committed) : phase = .committed := by
  cases phase with
  | committed => rfl
  | working | rolledBack => exact nomatch h

theorem Phase.eq_rolledBack {phase : Phase} (h : phase.state = .dead) : phase = .rolledBack := by
  cases phase with
  | rolledBack => rfl
  | working | committed => exact nomatch h

theorem Phase.eq_working {phase : Phase} {state : TraState} (h : state = phase.state) (hcommitted : state ≠ .committed)
    (hdead : state ≠ .dead) : phase = .working := by
  cases phase with
  | working => rfl
  | committed => exact absurd h hcommitted
  | rolledBack => exact absurd h hdead

theorem transactionState_does (hf : Fits c env) {descTrans : Nat} {creating : Bool}
    (hpresence : descTrans = c.transaction → c.phase = .committed → ∀ n, env.presence n id = creating) :
    Does (At b root trees) (transactionState env descTrans id creating) fun state w =>
      ((descTrans = c.transaction → state = c.phase.state) ∧
        (state ≠ .committed → state ≠ .dead → ∃ n, state = env.cacheState n descTrans)) ∧ At b root trees w := by
  refine (ask_does _).bind fun rc => .assume fun ⟨n, hn⟩ => ?_
  have hrc : descTrans = c.transaction → rc = c.phase.state := fun heq => by rw [hn, heq, hf.cacheState]
  refine .ite (fun hcommitted => ?_) fun _ => .pure fun _ hw => ⟨⟨hrc, fun _ _ => ⟨n, hn⟩⟩, hw⟩
  refine (external_does hf).bind fun _ => (ask_does _).bind fun present => .assume fun ⟨m, hm⟩ => .pure fun _ hw =>
    ⟨⟨fun heq => ?_, fun hno hno' => ?_⟩, hw⟩
  · have hphase : c.phase = .committed := Phase.eq_committed ((hrc heq).symm.trans hcommitted)
    rw [hm, hpresence heq hphase m, if_pos rfl, hphase]
    rfl
  · split at hno
    · exact absurd rfl hno
    · exact absurd (if_neg ‹_›) hno'

theorem transactionState_migrating (hf : Fits c env) {descTrans n : Nat} {creating : Bool}
    (hstate : (c.start.rpt n).state = .migrate) (htransaction : (c.start.rpt n).transaction = descTrans) :
    Does (At b root trees) (transactionState env descTrans id creating) fun state w =>
      (state ≠ .committed ∧ state ≠ .dead) ∧ At b root trees w := by
  refine (ask_does _).bind fun rc => .assume fun ⟨m, hm⟩ => ?_
  have hrc : rc ≠ .committed ∧ rc ≠ .dead := by
    rw [hm, ← htransaction]
    exact hf.migrating m n hstate
  rw [if_neg hrc.1]
  exact .pure fun _ hw => ⟨hrc, hw⟩

theorem Phase.state_ne_active {phase : Phase} (h : phase ≠ .working) : phase.state ≠ .active := by
  cases phase with
  | working => exact absurd rfl h
  | committed | rolledBack => exact nofun

theorem creatorState_does (hf : Fits c env) {irtTrans : Nat} {fromActivate : Bool} :
    Does (At b root trees) (creatorState env irtTrans fromActivate) fun state w =>
      (irtTrans = c.transaction → (state = .active → c.phase = .working) ∧
        (fromActivate = false → state ≠ .active → c.phase ≠ .working)) ∧ At b root trees w := by
  refine .ite (fun hown => .pure fun _ hw => ⟨fun heq => ?_, hw⟩) fun hother => (external_does hf).bind fun _ =>
    (ask_does _).post fun state w ⟨⟨n, hn⟩, hw⟩ => ⟨fun heq => ?_, hw⟩
  · exact ⟨fun _ => hf.own (heq ▸ hown), fun hno hstate => absurd (by rw [hno]; rfl) hstate⟩
  · rw [hn, heq, hf.traWait]
    refine ⟨fun hactive => ?_, fun _ hother hphase => hother (by rw [hphase]; rfl)⟩
    by_contra hphase
    exact Phase.state_ne_active hphase hactive

theorem endMigration_does {original copy : PageNumber} {back : Nat} (hm : Migration c root id back original copy)
    (hstate : (root.rpt id).state = .migrate) (hc : c.transaction ≠ 0) :
    Does (At true root trees) (endMigration id back false) fun _ =>
      At true ((root.setSlot id ((root.rpt id).setNormalRoot original).slot).setSlot back
        ((root.rpt back).setKillRoot copy).slot)
        trees := by
  refine Triple.ite (fun h => absurd h Bool.false_ne_true) fun _ => readRoot_does.bind fun page =>
    .assume fun hpage => ?_
  subst hpage
  rw [hm.original]
  refine (setSlot_does ?_).bind fun _ => ?_
  · simp [IrtRepeat.setNormalRoot, IrtRepeat.rootAssert, hstate, (getRootPage_eq_some hm.original).1]
  rw [hm.copy]
  have hback : (page.setSlot id ((page.rpt id).setNormalRoot original).slot).rpt back = page.rpt back :=
    IndexRootPage.setSlot_of_ne _ hm.ne
  refine Triple.post (setSlot_does ?_) fun _ w hw => ?_
  · rw [hback]
    simp [IrtRepeat.setKillRoot, IrtRepeat.rootAssert, hm.state, hm.transactionBack, hc,
      (getRootPage_eq_some hm.copy).1]
  · rw [hback] at hw
    exact hw

theorem takenBack_eq {original copy : PageNumber} {back : Nat} (hm : Migration c root id back original copy) :
    let root' := (root.setSlot id ((root.rpt id).setNormalRoot original).slot).setSlot back
      ((root.rpt back).setKillRoot copy).slot
    root'.setSlot back (root'.rpt back).setEmpty = takenBack root id back original ∧
      (root'.rpt back).getRootPage = some copy := by
  refine ⟨?_, ?_⟩
  · rw [IndexRootPage.setSlot_self, IndexRootPage.setSlot_setSlot]
    rfl
  · rw [IndexRootPage.setSlot_self]
    exact if_pos (getRootPage_eq_some hm.copy)

theorem hasRootPage_eq (h : rpt.getRootPage.isSome) : rpt.hasRootPage = true := by
  unfold IrtRepeat.getRootPage at h
  split at h
  case isTrue hne => exact Bool.and_eq_true_iff.mpr ⟨decide_eq_true hne.1, decide_eq_true hne.2⟩
  case isFalse => exact nomatch h

theorem Inv.rooted (h : Inv c root trees) (hstate : (root.rpt id).state = .rollback ∨ (root.rpt id).state = .commit) :
    (root.rpt id).hasRootPage = true ∧ (root.rpt id).transaction ≠ 0 := by
  have hcases := h.untouched_or_own id
  have hc := h.transaction
  unfold Own at hcases
  exact ⟨hasRootPage_eq (by grind [Untouched, Foreign]), by grind [Untouched, Foreign]⟩

section
variable (hf : Fits c env) (h : Inv c root trees)
include hf h

theorem modifyIrtRepeat_does {fromActivate : Bool}
    (hactivate : fromActivate = true → (root.rpt id).state ≠ .inProgress ∧ (root.rpt id).state ≠ .concurrently) :
    Does (At true root trees) (modifyIrtRepeat env id fromActivate) fun value w =>
      ∃ root' trees', Passed c env root trees id value root' trees' ∧ At value.held root' trees' w := by
  have hlt : (root.rpt id).state ≠ .unused → id < root.count := h.lt_of_used
  have delete : ∀ withCleanup, id < root.count → ∀ {root' trees'},
      Passed c env root trees id .deleted root' trees' → (root' = root.setSlot id (root.rpt id).setEmpty) →
      trees' = (root.rpt id).getRootPage.toList.map .deleted ++ trees → Does (At true root trees) (do
        let _ ← deleteIndex env id withCleanup
        pure ModifyIrtRepeatValue.deleted) fun value w =>
          ∃ root' trees', Passed c env root trees id value root' trees' ∧ At value.held root' trees' w := by
    intro withCleanup hid root' trees' hp hroot hdeleted
    subst hroot hdeleted
    exact (deleteIndex_does hf hid withCleanup).bind fun _ => .pure fun _ hw => ⟨_, _, hp, hw⟩
  have hown := h.untouched_or_own id
  refine readRoot_does.bind fun page => .assume fun hpage => (ask_does _).bind fun oldestActive => .assume fun _ => ?_
  subst hpage
  cases hstate : (page.rpt id).state with
  | unused | normal => exact .pure fun _ hw => ⟨_, _, .skip (fun _ => by grind) (by grind), hw⟩
  | inProgress | concurrently =>
    have hid := hlt (by rw [hstate]; exact nofun)
    have hno : fromActivate = false := by
      cases fromActivate with
      | true => exact absurd hstate (by grind)
      | false => rfl
    refine releaseRoot_does.bind fun _ => (creatorState_does hf).bind fun state => .assume fun hanswer =>
      (fetchRoot_does hf).bind fun _ => .ite
        (fun hactive => .pure fun _ hw => ⟨_, _, .skip (fun heq => ?_) (by grind), hw⟩) fun hactive => ?_
    · exact .inl ((hanswer heq).1 hactive)
    · refine readRoot_does.bind fun now => .assume fun hnow => ?_
      subst hnow
      rw [if_neg (not_not.mpr hstate)]
      exact delete false hid (.delete hid (.inl ⟨by grind, fun heq => (hanswer heq).2 hno hactive⟩)) rfl rfl
  | rollback =>
    have hid := hlt (by rw [hstate]; exact nofun)
    have hpresence : (page.rpt id).transaction = c.transaction → c.phase = .committed → ∀ n,
        env.presence n id = true := by
      intro heq hphase n
      unfold Own at hown
      rw [hstate] at hown
      rcases hown with hfree | ⟨-, tree, hfate, -⟩
      · exact absurd heq (hfree.2.foreign.other (by rw [hstate]; exact nofun))
      · exact hf.created hphase n id tree hfate
    refine (transactionState_does hf hpresence).bind fun state => .assume fun hanswer =>
      .ite (fun hcommitted => ?_) fun hno =>
      .ite (fun hdead => ?_) fun hother => .pure fun _ hw => ⟨_, _, .skip (fun heq => ?_) fun _ => ?_, hw⟩
    · have hholds : (page.rpt id).setNormal.holds = true := by
        simp [IrtRepeat.setNormal, hstate, h.rooted (.inl hstate)]
      exact (setSlot_does hholds).bind fun _ => .pure fun _ hw =>
        ⟨_, _, .normal (.inl ⟨hstate, fun heq => Phase.eq_committed ((hanswer.1 heq).symm.trans hcommitted)⟩), hw⟩
    · exact delete _ hid (.delete hid
        (.inr (.inl ⟨hstate, fun heq => Phase.eq_rolledBack ((hanswer.1 heq).symm.trans hdead)⟩))) rfl rfl
    · exact .inl (Phase.eq_working (hanswer.1 heq) hno hother)
    · obtain ⟨n, hn⟩ := hanswer.2 hno hother
      exact ⟨n, hn ▸ hno, hn ▸ hother⟩
  | kill =>
    have hid := hlt (by rw [hstate]; exact nofun)
    refine (ask_does _).bind fun state => .assume fun ⟨n, hn⟩ => .ite (fun hended => ?_) fun hother =>
      .pure fun _ hw => ⟨_, _, .skip (fun heq => .inl ?_) (by grind), hw⟩
    · refine delete _ hid (.delete hid (.inl ⟨.inr (.inr hstate), fun heq hphase => ?_⟩)) rfl rfl
      rw [hn, heq, hf.cacheState, hphase] at hended
      exact hended.elim nofun nofun
    · have hanswer : state = c.phase.state := by rw [hn, heq, hf.cacheState]
      exact Phase.eq_working hanswer (fun hs => hother (.inl hs)) fun hs => hother (.inr hs)
  | commit =>
    have hpresence : (page.rpt id).transaction = c.transaction → c.phase = .committed → ∀ n,
        env.presence n id = false := by
      intro heq hphase n
      unfold Own at hown
      rw [hstate] at hown
      rcases hown with hfree | ⟨-, tree, hfate, -⟩
      · exact absurd heq (hfree.2.foreign.other (by rw [hstate]; exact nofun))
      · exact hf.marked hphase n id tree hfate
    have hrooted := h.rooted (.inr hstate)
    refine (transactionState_does hf hpresence).bind fun state => .assume fun hanswer =>
      .ite (fun hcommitted => ?_) fun hno =>
      .ite (fun hdead => ?_) fun hother =>
        .pure fun _ hw => ⟨_, _, .skip (fun heq => ?_) fun _ => ?_, hw⟩
    · refine (ask_does _).bind fun next => .assume fun ⟨n, hn⟩ => (setSlot_does ?_).bind fun _ =>
        releaseRoot_does.bind fun _ =>
        (external_does hf).bind fun _ => .pure fun _ hw => ⟨_, _, .drop next (hn ▸ hf.nextNumber n) hstate fun heq =>
          Phase.eq_committed ((hanswer.1 heq).symm.trans hcommitted), hw⟩
      simp [IrtRepeat.setDrop, hstate, hrooted.1]
    · have hholds : (page.rpt id).setNormal.holds = true := by
        simp [IrtRepeat.setNormal, hstate, hrooted]
      exact (setSlot_does hholds).bind fun _ => .pure fun _ hw =>
        ⟨_, _, .normal (.inr ⟨hstate, fun heq => Phase.eq_rolledBack ((hanswer.1 heq).symm.trans hdead)⟩), hw⟩
    · exact .inl (Phase.eq_working (hanswer.1 heq) hno hother)
    · obtain ⟨n, hn⟩ := hanswer.2 hno hother
      exact ⟨n, hn ▸ hno, hn ▸ hother⟩
  | drop =>
    have hid := hlt (by rw [hstate]; exact nofun)
    exact .ite (fun _ => delete _ hid (.delete hid (.inr (.inr hstate))) rfl rfl) fun _ =>
      .pure fun _ hw => ⟨_, _, .skip (fun _ => .inr (.inr (.inr hstate))) (by grind), hw⟩
  | migrate =>
    unfold Own at hown
    rw [hstate] at hown
    rcases hown with hfree | ⟨htransaction, original, copy, back, hfate, hroot, hbackslot⟩
    · obtain ⟨hstart, hsame⟩ := hfree.2.migrating hstate
      have hother := hfree.2.foreign.other (by rw [hstate]; exact nofun)
      refine (transactionState_migrating hf hstart hsame).bind fun state => .assume fun hanswer => ?_
      rw [if_pos hanswer]
      exact .pure fun _ hw => ⟨_, _, .skip (fun heq => absurd heq hother) (by grind), hw⟩
    have hm := h.migration hfate hstate
    have hphase := (h.back id original copy back hfate).2.1
    refine (@transactionState_does c env page trees id true hf _ _ fun _ hcommitted => absurd hcommitted hphase).bind
      fun state =>
      .assume fun hanswer => .ite
        (fun hother => .pure fun _ hw => ⟨_, _, .skip (fun heq => .inl ?_) (by grind), hw⟩) fun hended => ?_
    · exact Phase.eq_working (hanswer.1 heq) hother.1 hother.2
    have hdead : c.phase = .rolledBack := by
      cases hp : c.phase with
      | rolledBack => rfl
      | committed => exact absurd hp hphase
      | working =>
        rw [hanswer.1 htransaction, hp] at hended
        exact absurd ⟨nofun, nofun⟩ hended
    have hstate' : state = .dead := (hanswer.1 htransaction).trans (congrArg Phase.state hdead)
    have hslot : page.getBackSlot (page.rpt id) = some back := by
      unfold IndexRootPage.getBackSlot
      rw [hbackslot, if_neg (by grind [Migration])]
    rw [hslot, hstate']
    obtain ⟨hpage, htree⟩ := takenBack_eq hm
    refine (endMigration_does hm hstate h.transaction).bind fun _ => Triple.bind (deleteIndex_does hf ?_ false) fun _ =>
      .pure fun _ hw => ⟨_, _, .takeBack original copy back hfate hstate hdead, ?_⟩
    · exact hm.ltBack
    · rw [hpage, htree] at hw
      exact hw

/-- Where slots in progress are not skipped, the answer is no only where `modifyIrtRepeat` would skip the slot. -/
theorem checkIrtRepeat_does (skipInProgress : Bool) :
    Does (At true root trees) (checkIrtRepeat env id skipInProgress) fun needed w =>
      (needed = false → skipInProgress = false → Passed c env root trees id .skip root trees) ∧
        At (!needed || skipInProgress) root trees w := by
  have yes : Does (At true root trees) (do
      onlyIf (!skipInProgress) releaseRoot
      pure true) fun needed w =>
        (needed = false → skipInProgress = false → Passed c env root trees id .skip root trees) ∧
          At (!needed || skipInProgress) root trees w := by
    cases skipInProgress with
    | true => exact Triple.seq (.pure fun _ hw => hw) (.pure fun _ hw => ⟨nofun, hw⟩)
    | false => exact releaseRoot_does.bind fun _ => .pure fun _ hw => ⟨nofun, hw⟩
  refine readRoot_does.bind fun page => .assume fun hpage => (ask_does _).bind fun oldestActive => .assume fun _ => ?_
  subst hpage
  have no : ((page.rpt id).state ≠ .rollback ∧ (page.rpt id).state ≠ .commit) →
      ((page.rpt id).transaction = c.transaction → c.phase = .working ∨
      (page.rpt id).state = .unused ∨ (page.rpt id).state = .normal ∨ (page.rpt id).state = .drop) →
      Does (At true page trees) (pure false) fun needed w =>
        (needed = false → skipInProgress = false → Passed c env page trees id .skip page trees) ∧
          At (!needed || skipInProgress) page trees w := fun hne hskip =>
    .pure fun _ hw => ⟨fun _ _ => .skip hskip fun hstate => hstate.elim (fun h => absurd h hne.1)
      fun h => absurd h hne.2, hw⟩
  cases hstate : (page.rpt id).state with
  | unused | normal => exact no (by grind) fun _ => by grind
  | inProgress | concurrently =>
    refine .ite (fun hskip => .pure fun _ hw => ⟨fun _ hno => absurd hno (by rw [hskip]; exact nofun), hw⟩) fun hskip =>
      (ask_does _).bind fun state => .assume fun ⟨n, hn⟩ => .ite (fun hactive => ?_) fun _ => ?_
    · refine no (by grind) fun heq => .inl ?_
      rw [hn, heq, hf.cacheState] at hactive
      by_contra hphase
      exact Phase.state_ne_active hphase hactive
    · rw [Bool.eq_false_of_not_eq_true hskip]
      exact releaseRoot_does.bind fun _ => .pure fun _ hw => ⟨nofun, hw⟩
  | rollback | commit | kill | migrate =>
    refine (ask_does _).bind fun state => .assume fun ⟨n, hn⟩ => .ite (fun _ => yes) fun hother => ?_
    refine .pure fun _ hw => ⟨fun _ _ => .skip (fun heq => .inl ?_) fun _ => ⟨n, ?_, ?_⟩, hw⟩
    · rw [hn, heq, hf.cacheState] at hother
      exact Phase.eq_working rfl (fun hs => hother (.inl hs)) fun hs => hother (.inr hs)
    · exact fun hs => hother (.inl (hn.trans hs))
    · exact fun hs => hother (.inr (hn.trans hs))
  | drop => exact .ite (fun _ => no (by grind) fun _ => .inr (.inr (.inr hstate))) fun _ => yes

theorem cleanupIndex_does (id : Nat) :
    Does (At false root trees) (cleanupIndex env id) fun _ w =>
      ∃ value root' trees', Passed c env root trees id value root' trees' ∧ At false root' trees' w := by
  refine .ite (fun hno => absurd hf.hasRootPage (ne_true_of_eq_false hno)) fun _ => (fetchRoot_does hf).bind fun _ =>
    (checkIrtRepeat_does hf h false).bind fun needed => .assume fun hskip => ?_
  cases needed with
  | false => exact releaseRoot_does.bind fun _ => .pure fun _ hw => ⟨_, _, _, hskip rfl rfl, hw⟩
  | true =>
    refine (fetchRoot_does hf).bind fun _ => (modifyIrtRepeat_does hf h fun hno : false = true => nomatch hno).bind
      fun value =>
      .choose fun root' => .choose fun trees' => .assume fun hp => ?_
    cases value with
    | skip | modified =>
      exact readRoot_does.bind fun now => .assume fun _ => releaseRoot_does.bind fun _ =>
        .pure fun _ hw => ⟨_, root', trees', hp, hw⟩
    | relock | deleted => exact .pure fun _ hw => ⟨_, root', trees', hp, hw⟩

end

end Firebird.Btr
