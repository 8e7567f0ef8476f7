import Firebird.Btr.RootPage
import Firebird.Lib.Triple

/-! # The latch of the index root page

Each function fetches the window of the index root page only when it is free, releases, reads and writes it only when it
is held, and leaves it as its value tells. -/

namespace Firebird.Btr

open Lib
open Tpc (TraState)

variable {env : Surroundings} {α β : Type} {b : Bool} {c : α → Bool} {w : World} {id : Nat} {p : RootPointer}
  {I : World → Prop}

/-- What depends on the fetches and on the uses of pointers only. -/
class Lasting (I : World → Prop) : Prop where
  quiet : ∀ {w t : World}, I w → t.stale = w.stale → t.fetches = w.fetches → I t

class Surviving (I : World → Prop) : Prop extends Lasting I where
  fetch : ∀ {w t : World}, I w → t.stale = w.stale → t.fetches = w.fetches + 1 → I t

/-- No use of the pointer led into the page of an earlier fetch. -/
def Current (p : RootPointer) (w : World) : Prop := p ∉ w.stale

instance : Surviving (Current p) where
  quiet hw hstale _ := show p ∉ _ from hstale ▸ hw
  fetch hw hstale _ := show p ∉ _ from hstale ▸ hw

/-- From this window, held or free, `x` ends with it as its value tells, and never misuses it; `I` lasts. -/
abbrev LatchedFrom (I : World → Prop) (w : World) (x : Act α) (c : α → Bool) : Prop :=
  Ends (fun a (t : World) => t.held = c a ∧ I t) (fun e t => e ≠ .latch ∧ I t) (x w)

def Latched (I : World → Prop) (b : Bool) (x : Act α) (c : α → Bool) : Prop :=
  ∀ w : World, w.held = b ∧ I w → LatchedFrom I w x c

theorem run_bind {x : Act α} {f : α → Act β} {a : α} {t : World} (h : x w = .ok a t) : (x >>= f) w = f a t := by
  show EStateM.bind x f w = f a t
  unfold EStateM.bind
  rw [h]

theorem run_bind_error {x : Act α} {f : α → Act β} {e : RootError} {t : World} (h : x w = .error e t) :
    (x >>= f) w = .error e t := by
  show EStateM.bind x f w = _
  unfold EStateM.bind
  rw [h]

theorem readRoot_run (h : w.held = true) : readRoot w = .ok w.page w := if_pos h

def World.fetch (env : Surroundings) (w : World) : World :=
  { w with page := env.others w.clock w.page, held := true, clock := w.clock + 1, fetches := w.fetches + 1 }

theorem fetchRoot_run (hfree : w.held = false) (hfails : env.fails w.clock = false) :
    fetchRoot env w = .ok () (w.fetch env) := by
  unfold fetchRoot
  rw [if_neg (ne_true_of_eq_false hfree), if_neg (ne_true_of_eq_false hfails)]
  rfl

theorem fetchRoot_held (h : w.held = true) : fetchRoot env w = .error .latch w := if_pos h

theorem fetchRoot_fails (hfree : w.held = false) (hfails : env.fails w.clock = true) :
    fetchRoot env w = .error .failed { w with clock := w.clock + 1 } := by
  unfold fetchRoot
  rw [if_neg (ne_true_of_eq_false hfree), if_pos hfails]

theorem ask_run (answer : Nat → α) : ask answer w = .ok (answer w.clock) { w with clock := w.clock + 1 } := rfl

namespace Latched

theorem bind {x : Act α} {f : α → Act β} {d : β → Bool} (hx : Latched I b x c) (hf : ∀ a, Latched I (c a) (f a) d) :
    Latched I b (x >>= f) d := Triple.bind hx hf

theorem pure (a : α) (h : b = c a) : Latched I b (Pure.pure a : Act α) c :=
  Triple.pure fun _ hw => ⟨hw.1.trans h, hw.2⟩

theorem raise {e : RootError} (h : e ≠ .latch) : Latched I b (throw e : Act α) c := Triple.raise fun _ hw => ⟨h, hw.2⟩

theorem ite {p : Prop} [Decidable p] {x y : Act α} (hx : p → Latched I b x c) (hy : ¬ p → Latched I b y c) :
    Latched I b (if p then x else y) c := Triple.ite hx hy

end Latched

theorem LatchedFrom.bind {x : Act α} {f : α → Act β} {d : β → Bool} (hx : LatchedFrom I w x c)
    (hf : ∀ a, Latched I (c a) (f a) d) : LatchedFrom I w (x >>= f) d :=
  Triple.bind (P := (· = w)) (fun _ hs => hs ▸ hx) hf w rfl

section
variable [Lasting I]

theorem ask_latched (answer : Nat → α) : Latched I b (ask answer) fun _ => b :=
  fun _ hw => ⟨hw.1, Lasting.quiet hw.2 rfl rfl⟩

theorem releaseRoot_latched : Latched I true releaseRoot fun _ => false := by
  intro w hw
  unfold LatchedFrom releaseRoot
  rw [if_pos hw.1]
  exact ⟨rfl, Lasting.quiet hw.2 rfl rfl⟩

omit [Lasting I] in
theorem readRoot_latched : Latched I true readRoot fun _ => true := by
  intro w hw
  unfold LatchedFrom readRoot
  rw [if_pos hw.1]
  exact hw

theorem writeRoot_latched (f : IndexRootPage → IndexRootPage) : Latched I true (writeRoot f) fun _ => true := by
  intro w hw
  unfold LatchedFrom writeRoot
  rw [if_pos hw.1]
  exact ⟨hw.1, Lasting.quiet hw.2 rfl rfl⟩

theorem setSlot_latched (id : Nat) (f : IrtRepeat → Asserted) : Latched I true (setSlot id f) fun _ => true := by
  intro w hw
  unfold LatchedFrom setSlot
  rw [if_pos hw.1]
  exact ⟨hw.1, Lasting.quiet hw.2 rfl rfl⟩

omit [Lasting I] in
theorem pointTo_latched (id : Nat) : Latched I b (pointTo id) fun _ => b := fun _ hw => hw

omit [Lasting I] in
theorem usePointer_latched {name : RootPointer} (q : SlotPointer)
    (h : ∀ w : World, I w → q.fetch ≠ w.fetches → I { w with stale := name :: w.stale }) :
    Latched I b (usePointer name q) fun _ => b := by
  intro w hw
  refine ⟨hw.1, ?_⟩
  by_cases heq : q.fetch = w.fetches
  · rw [if_pos heq]
    exact hw.2
  · rw [if_neg heq]
    exact h w hw.2 heq

omit [Lasting I] in
theorem onlyIf_latched {c : Bool} {x : Act Unit} (hx : Latched I b x fun _ => b) :
    Latched I b (onlyIf c x) fun _ => b :=
  .ite (fun _ => hx) fun _ => .pure _ rfl

theorem releaseUnless_latched (skip : Bool) : Latched I true (onlyIf (!skip) releaseRoot) fun _ => skip := by
  cases skip with
  | true => exact .pure () rfl
  | false => exact releaseRoot_latched

theorem releaseIfHeld_latched : Latched I b releaseIfHeld fun _ => false := by
  intro w hw
  show LatchedFrom I w (onlyIf w.held releaseRoot) _
  cases hheld : w.held with
  | true => exact releaseRoot_latched w ⟨hheld, hw.2⟩
  | false => exact ⟨hheld, hw.2⟩

theorem tryCatch_latched {x : Act α} (hx : Latched I b x c) :
    Latched I b (tryCatch x fun e => do
      releaseIfHeld
      throw e) c := by
  refine Triple.tryCatch hx fun e => ?_
  intro w hw
  exact releaseIfHeld_latched.bind (fun _ => .raise hw.1) w ⟨rfl, hw.2⟩

theorem external_latched : Latched I b (external env) fun _ => b :=
  (ask_latched _).bind fun _ => .ite (fun _ => .raise nofun) fun _ => .pure _ rfl

theorem deleteTree_latched (rootPage : PageNumber) : Latched I b (deleteTree env rootPage) fun _ => b :=
  Latched.bind (c := fun _ => b) (fun _ hw => ⟨hw.1, Lasting.quiet hw.2 rfl rfl⟩) fun _ => external_latched

theorem buildTree_latched : Latched I b (buildTree env) fun _ => b :=
  (ask_latched _).bind fun _ => Latched.bind (c := fun _ => b) (fun _ hw => ⟨hw.1, Lasting.quiet hw.2 rfl rfl⟩) fun _ =>
    .pure _ rfl

theorem transactionState_latched (descTrans idxId : Nat) (creating : Bool) :
    Latched I b (transactionState env descTrans idxId creating) fun _ => b :=
  (ask_latched _).bind fun _ => .ite
    (fun _ => external_latched.bind fun _ => (ask_latched _).bind fun _ => .pure _ rfl) fun _ => .pure _ rfl

omit [Lasting I] in
theorem getIndexSlot_latched : Latched I true (getIndexSlot env id) fun _ => true := by
  refine readRoot_latched.bind fun root => .ite (fun _ => ?_) fun _ => .pure _ rfl
  split
  · exact .raise nofun
  · exact .pure _ rfl

theorem checkIrtRepeat_latched (id : Nat) (skipInProgress : Bool) :
    Latched I true (checkIrtRepeat env id skipInProgress) fun needed => !needed || skipInProgress := by
  have yes : Latched I true (do
      onlyIf (!skipInProgress) releaseRoot
      pure true) fun needed => !needed || skipInProgress :=
    (releaseUnless_latched skipInProgress).bind fun _ => .pure true rfl
  refine readRoot_latched.bind fun root => (ask_latched _).bind fun oldestActive => ?_
  split
  · exact .pure false rfl
  · exact .pure false rfl
  case h_3 | h_4 =>
    refine .ite (fun _ => .pure false rfl) fun hskip => (ask_latched _).bind fun state =>
      .ite (fun _ => .pure false rfl) fun _ => ?_
    rw [Bool.eq_false_of_not_eq_true hskip]
    exact releaseRoot_latched.bind fun _ => .pure true rfl
  case h_5 | h_6 | h_7 | h_8 =>
    exact (ask_latched _).bind fun state => .ite (fun _ => yes) fun _ => .pure false rfl
  case h_9 => exact .ite (fun _ => .pure false rfl) fun _ => yes

theorem deleteIndex_latched (id : Nat) (withCleanup : Bool) :
    Latched I true (deleteIndex env id withCleanup) fun _ => false := by
  refine readRoot_latched.bind fun root => .ite (fun _ => ?_) fun _ => releaseRoot_latched.bind fun _ => .pure _ rfl
  split
  · exact (ask_latched _).bind fun fails => .ite (fun _ => releaseRoot_latched.bind fun _ => .raise nofun) fun _ =>
      (writeRoot_latched _).bind fun _ => releaseRoot_latched.bind fun _ => (deleteTree_latched _).bind fun _ =>
        (onlyIf_latched external_latched).bind fun _ => .pure _ rfl
  · exact (writeRoot_latched _).bind fun _ => releaseRoot_latched.bind fun _ =>
      (onlyIf_latched external_latched).bind fun _ => .pure _ rfl

theorem endMigration_latched (indexId backId : Nat) (committed : Bool) :
    Latched I true (endMigration indexId backId committed) fun _ => true := by
  refine .ite (fun _ => (setSlot_latched _ _).bind fun _ => setSlot_latched _ _) fun _ =>
    readRoot_latched.bind fun root => ?_
  split
  · exact .raise nofun
  · refine (setSlot_latched _ _).bind fun _ => ?_
    split
    · exact .raise nofun
    · exact setSlot_latched _ _

theorem creatorState_latched (irtTrans : Nat) (fromActivate : Bool) :
    Latched I b (creatorState env irtTrans fromActivate) fun _ => b :=
  .ite (fun _ => .pure _ rfl) fun _ => external_latched.bind fun _ => ask_latched _

def ModifyIrtRepeatValue.held : ModifyIrtRepeatValue → Bool
  | .skip | .modified => true
  | .relock | .deleted => false

theorem lookupIndexCode_latched (rpt : IrtRepeat) : Latched I b (lookupIndexCode env rpt) fun _ => b :=
  .ite (fun _ => external_latched.bind fun _ => ask_latched _) fun _ => .pure _ rfl

theorem description_latched (id : Nat) : Latched I true (description env id) fun _ => true := by
  refine readRoot_latched.bind fun root => .ite (fun _ => .pure _ rfl) fun _ => getIndexSlot_latched.bind fun slot => ?_
  split
  · exact .pure _ rfl
  · exact (lookupIndexCode_latched _).bind fun found => .ite (fun _ => external_latched.bind fun _ => .pure _ rfl)
      fun _ =>
      .ite (fun _ => .pure _ rfl) fun _ => .raise nofun

theorem releaseModified_latched (value : ModifyIrtRepeatValue) : Latched I value.held
    (releaseModified value) fun _ => false := by
  cases value with
  | skip | modified => exact releaseRoot_latched
  | relock | deleted => exact .pure () rfl

omit [Lasting I] in
theorem checkTransactionNumber_latched (rpt : IrtRepeat) (tran : Nat) :
    Latched I b (checkTransactionNumber rpt tran) fun _ => b :=
  .ite (fun _ => .raise nofun) fun _ => .pure _ rfl

theorem markSlot_latched (id traNumber : Nat) : Latched I true (markSlot id traNumber) fun _ => true := by
  refine readRoot_latched.bind fun root => ?_
  dsimp only
  split
  case h_1 | h_2 => exact .pure _ rfl
  case h_3 => exact .ite (fun _ => .pure _ rfl) fun _ => .raise nofun
  case h_4 | h_5 | h_6 => exact .raise nofun
  case h_7 => exact (checkTransactionNumber_latched _ _).bind fun _ => setSlot_latched _ _
  case h_8 | h_9 => exact setSlot_latched _ _

theorem activateSlot_latched (id traNumber : Nat) : Latched I true (activateSlot id traNumber) fun _ => true := by
  refine readRoot_latched.bind fun root => ?_
  dsimp only
  split
  case h_1 | h_2 => exact .pure _ rfl
  case h_3 | h_4 | h_5 | h_6 | h_7 => exact .raise nofun
  case h_8 | h_9 =>
    exact (checkTransactionNumber_latched _ _).bind fun _ => (setSlot_latched _ _).bind fun _ => .pure _ rfl

theorem modifyIrtRepeat_settled {fromActivate : Bool} (hw : w.held = true ∧ I w)
    (hstate : (w.page.rpt id).state ≠ .inProgress ∧ (w.page.rpt id).state ≠ .concurrently) :
    LatchedFrom I w (modifyIrtRepeat env id fromActivate) ModifyIrtRepeatValue.held := by
  have delete : ∀ withCleanup, Latched I true (do
      let _ ← deleteIndex env id withCleanup
      pure .deleted) ModifyIrtRepeatValue.held := fun withCleanup =>
    (deleteIndex_latched id withCleanup).bind fun _ => .pure _ rfl
  unfold LatchedFrom modifyIrtRepeat
  rw [run_bind (readRoot_run hw.1)]
  refine (ask_latched _).bind (fun oldestActive => ?_) w hw
  split
  case h_1 | h_2 => exact .pure _ rfl
  case h_3 h => exact absurd h hstate.1
  case h_4 h => exact absurd h hstate.2
  case h_5 =>
    exact (transactionState_latched _ _ _).bind fun state =>
      .ite (fun _ => (setSlot_latched _ _).bind fun _ => .pure _ rfl) fun _ =>
        .ite (fun _ => delete _) fun _ => .pure _ rfl
  case h_6 => exact (ask_latched _).bind fun state => .ite (fun _ => delete _) fun _ => .pure _ rfl
  case h_7 =>
    refine (transactionState_latched _ _ _).bind fun state =>
      .ite (fun _ => (ask_latched _).bind fun next => ?_) fun _ =>
        .ite (fun _ => (setSlot_latched _ _).bind fun _ => .pure _ rfl) fun _ => .pure _ rfl
    exact (setSlot_latched _ _).bind fun _ => releaseRoot_latched.bind fun _ => external_latched.bind fun _ =>
      .pure _ rfl
  case h_8 => exact .ite (fun _ => delete _) fun _ => .pure _ rfl
  case h_9 =>
    refine (transactionState_latched _ _ _).bind fun state => .ite (fun _ => .pure _ rfl) fun _ => ?_
    split
    · exact releaseRoot_latched.bind fun _ => .raise nofun
    · exact (endMigration_latched _ _ _).bind fun _ => (deleteIndex_latched _ _).bind fun _ => .pure _ rfl

end

section
variable [Surviving I]

theorem fetchRoot_latched : Latched I false (fetchRoot env) fun _ => true := by
  intro w hw
  unfold LatchedFrom fetchRoot
  rw [if_neg (ne_true_of_eq_false hw.1)]
  split
  · exact ⟨nofun, Lasting.quiet hw.2 rfl rfl⟩
  · exact ⟨rfl, Surviving.fetch hw.2 rfl rfl⟩

theorem fetchUnless_latched (held : Bool) : Latched I held (onlyIf (!held) (fetchRoot env)) fun _ => true := by
  cases held with
  | true => exact .pure () rfl
  | false => exact fetchRoot_latched

theorem modifyIrtRepeat_latched (id : Nat) (fromActivate : Bool) :
    Latched I true (modifyIrtRepeat env id fromActivate) ModifyIrtRepeatValue.held := by
  intro w hw
  by_cases hstate : (w.page.rpt id).state ≠ .inProgress ∧ (w.page.rpt id).state ≠ .concurrently
  · exact modifyIrtRepeat_settled hw hstate
  unfold LatchedFrom modifyIrtRepeat
  rw [run_bind (readRoot_run hw.1)]
  refine (ask_latched _).bind (fun oldestActive => ?_) w hw
  split
  case h_3 | h_4 =>
    refine releaseRoot_latched.bind fun _ => (creatorState_latched _ _).bind fun state =>
      fetchRoot_latched.bind fun _ =>
      .ite (fun _ => .pure _ rfl) fun _ => readRoot_latched.bind fun now => ?_
    exact .ite (fun _ => releaseRoot_latched.bind fun _ => .pure _ rfl) fun _ =>
      (deleteIndex_latched id false).bind fun _ => .pure _ rfl
  all_goals grind

theorem refetch_latched (value : ModifyIrtRepeatValue) : Latched I value.held (refetch env value) fun _ => true := by
  cases value with
  | skip | modified => exact .pure () rfl
  | relock | deleted => exact fetchRoot_latched

theorem refreshSlot_latched (id : Nat) : Latched I true (refreshSlot env id) fun _ => true := by
  refine getIndexSlot_latched.bind fun slot => (checkIrtRepeat_latched slot false).bind fun needed => ?_
  cases needed with
  | false => exact .pure false rfl
  | true =>
    exact fetchRoot_latched.bind fun _ => (modifyIrtRepeat_latched id false).bind fun value =>
      (releaseModified_latched value).bind fun _ => fetchRoot_latched.bind fun _ => .pure _ rfl

theorem nextIndexFrom_latched (id : Nat) : Latched I true (nextIndexFrom env id) fun found => found := by
  induction hleft : 2 ^ 16 - id using Nat.strong_induction_on generalizing id with
  | _ left ih =>
    subst hleft
    rw [nextIndexFrom]
    refine readRoot_latched.bind fun root => ?_
    split
    case isFalse => exact releaseRoot_latched.bind fun _ => .pure false rfl
    case isTrue h =>
      have next := ih (2 ^ 16 - (id + 1)) (Nat.sub_lt_sub_left (Nat.lt_trans h root.count_lt) (Nat.lt_succ_self id))
        (id + 1) rfl
      refine (refreshSlot_latched id).bind fun deleted => .ite (fun _ => next) fun _ =>
        (description_latched id).bind fun found => ?_
      exact .ite (fun _ => .pure true rfl) fun _ => next

theorem nextIndexFetched_latched (id : Nat) (held : Bool) : Latched I held (nextIndexFetched env id held) fun found =>
    found :=
  .ite (fun hfree => .pure false hfree.1) fun _ =>
    (fetchUnless_latched held).bind fun _ => tryCatch_latched (nextIndexFrom_latched id)

theorem nextIndex_latched (idxId : Option Nat) (h : idxId = none → b = false) :
    Latched I b (nextIndex env idxId) fun found => found := by
  cases idxId with
  | none => exact h rfl ▸ nextIndexFetched_latched 0 false
  | some id =>
    intro w hw
    exact nextIndexFetched_latched (id + 1) w.held w ⟨rfl, hw.2⟩

theorem cleanupIndex_latched (id : Nat) : Latched I false (cleanupIndex env id) fun _ => false := by
  refine .ite (fun _ => .pure _ rfl) fun _ => fetchRoot_latched.bind fun _ =>
    (checkIrtRepeat_latched id false).bind fun needed => ?_
  cases needed with
  | false => exact releaseRoot_latched.bind fun _ => .pure _ rfl
  | true =>
    refine fetchRoot_latched.bind fun _ => (modifyIrtRepeat_latched id false).bind fun value => ?_
    cases value with
    | skip | modified => exact readRoot_latched.bind fun root => releaseRoot_latched.bind fun _ => .pure _ rfl
    | relock | deleted => exact .pure _ rfl

theorem markIndexForDelete_latched (id traNumber : Nat) :
    Latched I true (markIndexForDelete env id traNumber) fun _ => false := by
  have body : Triple (fun w : World => w.held = true ∧ I w) (markIndex env id traNumber) (fun _ => I)
      fun e w => e ≠ .latch ∧ I w := by
    refine Triple.bind readRoot_latched fun root => .ite (fun _ => ?_) fun _ => .pure fun _ hw => hw.2
    refine Triple.bind (modifyIrtRepeat_latched id false) fun value =>
      .ite (fun _ => .pure fun _ hw => hw.2) fun _ => ?_
    exact .post ((refetch_latched value).bind fun _ => markSlot_latched id _) fun _ _ hw => hw.2
  refine Triple.bind (Triple.tryCatch body fun e w he => ?_) fun _ w hw => releaseIfHeld_latched w ⟨rfl, hw⟩
  exact (Triple.bind releaseIfHeld_latched fun _ => .raise fun _ hw => ⟨he.1, hw.2⟩) w ⟨rfl, he.2⟩

theorem activateIndex_latched (id : Nat) : Latched I false (activateIndex env id) fun _ => false := by
  have body : Latched I true (activate env id) fun _ => true := by
    refine readRoot_latched.bind fun root => ?_
    split
    · exact .pure _ rfl
    · exact .ite (fun _ => (modifyIrtRepeat_latched id true).bind fun value => (refetch_latched value).bind fun _ =>
        activateSlot_latched id _) fun _ => .pure _ rfl
  exact .ite (fun _ => .pure _ rfl) fun _ => fetchRoot_latched.bind fun _ => body.bind fun _ =>
    releaseRoot_latched.bind fun _ => .pure _ rfl

section
variable (creation : IndexCreation)

theorem refreshUsed_latched (retry id : Nat) : Latched I true (refreshUsed env creation retry id) fun _ => true := by
  refine (checkIrtRepeat_latched id _).bind fun needed => ?_
  cases needed with
  | false => exact .pure _ rfl
  | true =>
    refine Latched.bind (c := fun _ => true) ?_ fun _ => (modifyIrtRepeat_latched id false).bind refetch_latched
    exact fetchUnless_latched _

theorem scanSlots_latched (retry id : Nat) (slot : Option SlotPointer) (space : Nat) :
    Latched I true (scanSlots env creation retry id slot space) fun _ => true := by
  induction hleft : 2 ^ 16 - id using Nat.strong_induction_on generalizing id slot space with
  | _ left ih =>
    subst hleft
    rw [scanSlots]
    refine readRoot_latched.bind fun root => ?_
    split
    case isFalse => exact .pure _ rfl
    case isTrue h =>
      have next := ih (2 ^ 16 - (id + 1))
        (Nat.sub_lt_sub_left (Nat.lt_trans h root.count_lt) (Nat.lt_succ_self id)) (id + 1)
      exact (onlyIf_latched (refreshUsed_latched creation retry id)).bind fun _ => readRoot_latched.bind fun now =>
        .ite (fun _ => next _ _ rfl) fun _ => (pointTo_latched id).bind fun here => next _ _ rfl

theorem findPlace_latched (left : Nat) : Latched I true (findPlace env creation left) fun _ => true := by
  induction left with
  | zero =>
    exact (scanSlots_latched _ _ _ _ _).bind fun place => readRoot_latched.bind fun root =>
      .ite (fun _ => releaseRoot_latched.bind fun _ => .raise nofun) fun _ => .pure _ rfl
  | succ left ih =>
    exact (scanSlots_latched _ _ _ _ _).bind fun place => readRoot_latched.bind fun root =>
      .ite (fun _ => (onlyIf_latched (writeRoot_latched _)).bind fun _ => ih) fun _ => .pure _ rfl

end
end

section
variable [Surviving I] (creation : IndexCreation)

omit [Surviving I] in
/-- What `BTR_reserve_slot` does to the slot it has chosen. -/
theorem takeSlot_latched [Lasting I] (slot : Option SlotPointer) (space id : Nat) : Latched I true (do
    onlyIf slot.isNone (writeRoot addSlot)
    writeRoot fun root =>
      root.setSlot id { root.rpt id with desc := space, keys := creation.count, flags := creation.flags }
    startCreation env creation id
    releaseRoot
    pure id) fun _ => false := by
  have start : Latched I true (startCreation env creation id) fun _ => true := by
    unfold startCreation
    split
    · exact setSlot_latched _ _
    · exact setSlot_latched _ _
    · exact external_latched.bind fun _ => buildTree_latched.bind fun _ => setSlot_latched _ _
  exact (onlyIf_latched (writeRoot_latched _)).bind fun _ => (writeRoot_latched _).bind fun _ => start.bind fun _ =>
    releaseRoot_latched.bind fun _ => .pure _ rfl

theorem reserveSlot_latched
    (h : ∀ (w : World) (q : SlotPointer), I w → q.fetch ≠ w.fetches → I { w with stale := .slot :: w.stale }) :
    Latched I false (reserveSlot env creation) fun _ => false := by
  refine fetchRoot_latched.bind fun _ => readRoot_latched.bind fun root =>
    .ite (fun _ => releaseRoot_latched.bind fun _ => .raise nofun) fun _ => ?_
  refine (onlyIf_latched (writeRoot_latched _)).bind fun _ => (findPlace_latched creation 2).bind fun place =>
    readRoot_latched.bind fun now => Latched.bind (c := fun _ => true) ?_ fun id => takeSlot_latched creation _ _ id
  cases place.1 with
  | none => exact .pure _ rfl
  | some q => exact usePointer_latched q fun w => h w q

theorem copyDescribed_latched (indexId : Nat)
    (h : ∀ (w : World) (q : SlotPointer), I w → q.fetch ≠ w.fetches → I { w with stale := .slot :: w.stale }) :
    Latched I true (copyDescribed env indexId) fun _ => true := by
  refine (description_latched indexId).bind fun idx => ?_
  split
  · exact .pure _ rfl
  · exact releaseRoot_latched.bind fun _ => external_latched.bind fun _ => (reserveSlot_latched _ h).bind fun _ =>
      external_latched.bind fun _ => buildTree_latched.bind fun _ => fetchRoot_latched.bind fun _ =>
        (setSlot_latched _ _).bind fun _ => setSlot_latched _ _

end

end Firebird.Btr
