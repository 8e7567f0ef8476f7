import Firebird.Btr.PassKeeps

/-! # Slots while the transaction works -/

namespace Firebird.Btr

open IndexRootPage Lib Function
open Tpc (TraState)

variable {c : Ctx} {env : Surroundings} {root root' root'' : IndexRootPage} {trees trees' trees'' : List TreeEvent}
  {id : Nat} {rpt : IrtRepeat} {α : Type} {b : Bool}

def Ctx.withFate (c : Ctx) (id : Nat) (fate : Fate) : Ctx := { c with fate := update c.fate id fate }

theorem Inv.not_visited (h : Inv c root trees) (hphase : c.phase = .working) (id : Nat) : c.visited id ≠ true := by
  intro hv
  have hr := h.visited id hv
  unfold Resolved at hr
  rw [hphase] at hr
  exact hr

theorem Inv.pending (h : Inv c root trees) (hphase : c.phase = .working) (id : Nat) : Pending c id (root.rpt id) := by
  rcases h.slots id with hp | hr
  · exact hp
  · unfold Resolved at hr
    rw [hphase] at hr
    exact hr.elim

theorem pending_congr {c' : Ctx} (hfate : c'.fate id = c.fate id) (hstart : c'.start = c.start)
    (htransaction : c'.transaction = c.transaction) (h : Pending c id rpt) : Pending c' id rpt := by
  unfold Pending at h ⊢
  rw [hfate, htransaction]
  cases hf : c.fate id <;> rw [hf] at h <;> first | exact h | skip
  exact ⟨hstart ▸ h.start, htransaction ▸ h.foreign, hstart ▸ h.migrating⟩

/-- What the transaction makes of a slot does not lose the index that was there before. -/
structure Moves (c : Ctx) (id : Nat) (fate : Fate) : Prop where
  whole : ∀ original, c.fate id ≠ .orphan original
  keeps : (c.start.rpt id).state = .normal → (c.fate id).Keeps (c.start.rpt id).getRootPage →
    fate.Keeps (c.start.rpt id).getRootPage

section
variable (h : Inv c root trees) (hphase : c.phase = .working) (hid : id < root.count) {fate : Fate}
include h hphase hid

variable (hlinked : (c.fate id).linked = false) (hfate : fate.linked = false) (hmoves : Moves c id fate)
  (hslot : Pending (c.withFate id fate) id rpt)
include hlinked hfate hmoves hslot

theorem Inv.own (hsingle : ∀ tree, (root.setSlot id rpt).refs tree ≤ 1)
    (hledger : ∀ tree, trees'.count (.built tree) + c.start.refs tree =
      (root.setSlot id rpt).refs tree + trees'.count (.deleted tree)) :
    Inv (c.withFate id fate) (root.setSlot id rpt) trees' := by
  have hother : ∀ n, n ≠ id → (c.withFate id fate).fate n = c.fate n := fun n hn => update_of_ne hn ..
  have hself : (c.withFate id fate).fate id = fate := update_self ..
  refine ⟨h.transaction, fun n hn => ?_, fun n => .inl ?_, fun n hn => absurd hn (h.not_visited hphase n),
    fun n original copy b hn => ?_, fun b original n hb => ?_, fun hwhole n hnormal => ?_,
    fun hrolledBack => absurd (hphase.symm.trans hrolledBack) nofun, hsingle, hledger⟩
  · have hne : n ≠ id := fun heq => absurd hn (Nat.not_le.mpr (heq ▸ hid))
    rw [setSlot_of_ne _ hne]
    exact ⟨(h.behind n hn).1, (hother n hne).trans (h.behind n hn).2⟩
  · by_cases hne : n = id
    · subst hne
      rw [setSlot_self]
      exact pending_congr (c := c.withFate n fate) rfl rfl rfl hslot
    · rw [setSlot_of_ne _ hne]
      exact pending_congr (hother n hne) rfl rfl (h.pending hphase n)
  · have hne : n ≠ id := fun heq => by
      have hn' : fate = .migrated original copy b := hself.symm.trans (heq ▸ hn)
      rw [hn'] at hfate
      exact nomatch hfate
    have hn' : c.fate n = .migrated original copy b := (hother n hne).symm.trans hn
    obtain ⟨hback, hno, hstates⟩ := h.back n original copy b hn'
    have hne' : b ≠ id := fun heq => by
      rw [heq] at hback
      rw [hback] at hlinked
      exact nomatch hlinked
    rw [setSlot_of_ne _ hne, setSlot_of_ne _ hne']
    exact ⟨(hother b hne').trans hback, hno, hstates⟩
  · have hne : b ≠ id := fun heq => by
      have hb' : fate = .backOf original n := hself.symm.trans (heq ▸ hb)
      rw [hb'] at hfate
      exact nomatch hfate
    obtain ⟨copy, hn⟩ := h.forth b original n ((hother b hne).symm.trans hb)
    have hne' : n ≠ id := fun heq => by
      rw [heq] at hn
      rw [hn] at hlinked
      exact nomatch hlinked
    exact ⟨copy, (hother n hne').trans hn⟩
  · have hbefore : c.NoOrphan := fun m original hm => by
      by_cases hne : m = id
      · exact hmoves.whole original (hne ▸ hm)
      · exact hwhole m original ((hother m hne).trans hm)
    by_cases hne : n = id
    · subst hne
      rw [hself]
      exact hmoves.keeps hnormal (h.origin hbefore n hnormal)
    · rw [hother n hne]
      exact h.origin hbefore n hnormal

theorem Inv.ownSame (htree : rpt.usedTree = (root.rpt id).usedTree) :
    Inv (c.withFate id fate) (root.setSlot id rpt) trees := by
  have hrefs := @refs_setSlot_same root id rpt (hid.trans root.count_lt) htree
  refine h.own hphase hid hlinked hfate hmoves hslot (fun tree => ?_) fun tree => ?_
  · rw [hrefs]
    exact h.single tree
  · rw [hrefs]
    exact h.ledger tree

theorem Inv.ownBuilt {tree : PageNumber} (hnone : (root.rpt id).usedTree = none)
    (htree : rpt.usedTree = some tree) (hfresh : root.refs tree = 0) :
    Inv (c.withFate id fate) (root.setSlot id rpt) (.built tree :: trees) := by
  have hrefs : ∀ other, (root.setSlot id rpt).refs other = root.refs other + (decide (tree = other)).toNat := by
    intro other
    have hset := @refs_setSlot root id rpt (hid.trans root.count_lt) other
    rw [hnone, htree] at hset
    simp only [reduceCtorEq, decide_false, Bool.toNat_false, add_zero, Option.some.injEq] at hset
    exact hset
  refine h.own hphase hid hlinked hfate hmoves hslot (fun other => ?_) fun other => ?_
  · rw [hrefs]
    by_cases heq : tree = other
    · subst heq
      rw [hfresh, decide_eq_true rfl, Bool.toNat_true]
    · rw [decide_eq_false heq, Bool.toNat_false, Nat.add_zero]
      exact h.single other
  · rw [hrefs, count_built_cons, List.count_cons_of_ne (show TreeEvent.built tree ≠ .deleted other from nofun)]
    have hledger := h.ledger other
    omega

end

structure After (c : Ctx) (root : IndexRootPage) (trees : List TreeEvent) (root' : IndexRootPage)
    (trees' : List TreeEvent) : Prop where
  inv : Inv c root' trees'
  refs : ∀ tree, root'.refs tree ≤ root.refs tree
  count : root'.count = root.count
  unused : ∀ n, (root.rpt n).state = .unused → (root'.rpt n).state = .unused
  normal : ∀ n tree, (root.rpt n).Is .normal tree → (root'.rpt n).Is .normal tree

theorem After.refl (h : Inv c root trees) : After c root trees root trees :=
  ⟨h, fun _ => Nat.le_refl _, rfl, fun _ => id, fun _ _ => id⟩

theorem After.trans (h : After c root trees root' trees') (h' : After c root' trees' root'' trees'') :
    After c root trees root'' trees'' :=
  ⟨h'.inv, fun tree => (h'.refs tree).trans (h.refs tree), h'.count.trans h.count, fun n hn =>
    h'.unused n (h.unused n hn), fun n tree hn => h'.normal n tree (h.normal n tree hn)⟩

theorem Passed.after {value : ModifyIrtRepeatValue} (hp : Passed c env root trees id value root' trees')
    (h : Inv c root trees) (hphase : c.phase = .working) : After c root trees root' trees' := by
  have hinv := (hp.inv h fun hback => hback.1 hphase).1
  have change : ∀ rpt trees', (root.rpt id).state ≠ .unused → (root.rpt id).state ≠ .normal →
      Changes root trees id rpt trees' →
      Inv c (root.setSlot id rpt) trees' → After c root trees (root.setSlot id rpt) trees' := by
    intro rpt trees' hused hnormal hchanges hinv
    refine ⟨hinv, hchanges.refs_le ((h.lt_of_used hused).trans root.count_lt), rfl, fun n hn => ?_, fun n tree hn => ?_⟩
    · rw [setSlot_of_ne _ fun heq : n = id => hused (heq ▸ hn)]
      exact hn
    · rw [setSlot_of_ne _ fun heq : n = id => hnormal (heq ▸ hn.state)]
      exact hn
  cases hp with
  | skip => exact .refl h
  | normal hend
  | drop next hnext hstate hend => exact change _ _ (by grind) (by grind) (changes_same rfl nofun (by grind)) hinv
  | delete hid hend => exact change _ _ (by grind) (by grind) (changes_empty (by grind)) hinv
  | takeBack original copy back hfate hstate hrolledBack => exact absurd (hphase.symm.trans hrolledBack) nofun

def Reaches (c : Ctx) (root : IndexRootPage) (trees : List TreeEvent) (b : Bool) (w : World) : Prop :=
  ∃ root' trees', After c root trees root' trees' ∧ At b root' trees' w

theorem refetch_does (hf : Fits c env) (value : ModifyIrtRepeatValue) :
    Does (At value.held root trees) (refetch env value) fun _ => At true root trees := by
  cases value with
  | skip | modified => exact .pure fun _ hw => hw
  | relock | deleted => exact fetchRoot_does hf

theorem refreshUsed_does (hf : Fits c env) (h : Inv c root trees) (hphase : c.phase = .working)
    (creation : IndexCreation)
    (retry id : Nat) : Does (At true root trees) (refreshUsed env creation retry id) fun _ =>
    Reaches c root trees true := by
  have modify : Does (At true root trees) (do
      let modValue ← modifyIrtRepeat env id false
      refetch env modValue) fun _ => Reaches c root trees true :=
    (modifyIrtRepeat_does hf h fun hno : false = true => nomatch hno).bind fun value => .choose fun root' =>
      .choose fun trees' => .assume fun hp => .post (refetch_does hf value) fun _ w hw =>
      ⟨root', trees', hp.after h hphase, hw⟩
  unfold refreshUsed
  generalize (if creation.idxId = id ∧ env.useIdxId then false else (decide (retry ≠ 1))) = skipInProgress
  refine (checkIrtRepeat_does hf h skipInProgress).bind fun needed => .assume fun _ => ?_
  cases needed with
  | false => exact .pure fun _ hw => ⟨root, trees, .refl h, hw⟩
  | true =>
    cases skipInProgress with
    | true => exact Triple.seq (.pure fun _ hw => hw) modify
    | false => exact (fetchRoot_does hf).bind fun _ => modify

/-- The slot pointed to is empty. -/
def Free (root : IndexRootPage) (slot : Option SlotPointer) : Prop :=
  ∀ p, slot = some p → (root.rpt p.id).state = .unused ∧ p.id < root.count

theorem scanSlots_does (hf : Fits c env) (h : Inv c root trees) (hphase : c.phase = .working) (creation : IndexCreation)
    (retry id : Nat) (slot : Option SlotPointer) (space : Nat) (hslot : Free root slot) :
    Does (At true root trees) (scanSlots env creation retry id slot space) fun place w => ∃ root' trees',
      (After c root trees root' trees' ∧ Free root' place.1) ∧ At true root' trees' w := by
  induction hleft : 2 ^ 16 - id using Nat.strong_induction_on generalizing id slot space root trees with
  | _ left ih =>
    subst hleft
    rw [scanSlots]
    refine readRoot_does.bind fun page => .assume fun hpage => ?_
    subst hpage
    split
    case isFalse => exact .pure fun _ hw => ⟨page, trees, ⟨.refl h, hslot⟩, hw⟩
    case isTrue hid =>
      have hless : 2 ^ 16 - (id + 1) < 2 ^ 16 - id :=
        Nat.sub_lt_sub_left (hid.trans page.count_lt) (Nat.lt_succ_self id)
      have refresh : Does (At true page trees) (onlyIf (page.rpt id).isUsed (refreshUsed env creation retry id))
          fun _ =>
          Reaches c page trees true := .ite (fun _ => refreshUsed_does hf h hphase creation retry id) fun _ =>
        .pure fun _ hw => ⟨page, trees, .refl h, hw⟩
      refine refresh.bind fun _ => .choose fun root' => .choose fun trees' => .assume fun hafter =>
        readRoot_does.bind fun now => .assume fun hnow => ?_
      subst hnow
      have hslot' : Free now slot := fun p hp =>
        ⟨hafter.unused p.id (hslot p hp).1, (hslot p hp).2.trans_eq hafter.count.symm⟩
      have next : ∀ slot space, Free now slot →
          Does (At true now trees') (scanSlots env creation retry (id + 1) slot space) fun place w => ∃ root' trees',
            (After c page trees root' trees' ∧ Free root' place.1) ∧ At true root' trees' w := fun slot space hs =>
        .post (ih _ hless hafter.inv (id + 1) slot space hs rfl) fun place w hend => by
          obtain ⟨root'', trees'', ⟨hafter', hplace⟩, hw⟩ := hend
          exact ⟨root'', trees'', ⟨hafter.trans hafter', hplace⟩, hw⟩
      refine .ite (fun _ => next _ _ hslot') fun hunused => (pointTo_does id).bind fun here => .assume fun hhere =>
        next _ _ fun p hp => ?_
      split at hp
      case isTrue =>
        obtain rfl := Option.some.inj hp
        rw [hhere]
        refine ⟨?_, hid.trans_eq hafter.count.symm⟩
        unfold IrtRepeat.isUsed at hunused
        simpa using hunused
      case isFalse => exact hslot' p hp

/-! ### `BTR_reserve_slot` -/

/-- The slots differ in where their descriptors are and what these say only. -/
structure SameSlot (rpt rpt' : IrtRepeat) : Prop where
  state : rpt'.state = rpt.state
  transaction : rpt'.transaction = rpt.transaction
  pageNum : rpt'.pageNum = rpt.pageNum
  pageSpaceId : rpt'.pageSpaceId = rpt.pageSpaceId
  backslot : rpt'.backslot = rpt.backslot

theorem SameSlot.refl (rpt : IrtRepeat) : SameSlot rpt rpt := ⟨rfl, rfl, rfl, rfl, rfl⟩

theorem SameSlot.trans {rpt rpt' rpt'' : IrtRepeat} (h : SameSlot rpt rpt')
    (h' : SameSlot rpt' rpt'') : SameSlot rpt rpt'' :=
  ⟨h'.state.trans h.state, h'.transaction.trans h.transaction, h'.pageNum.trans h.pageNum,
    h'.pageSpaceId.trans h.pageSpaceId, h'.backslot.trans h.backslot⟩

section
variable {rpt rpt' : IrtRepeat} (h : SameSlot rpt rpt')
include h

theorem SameSlot.getRootPage : rpt'.getRootPage = rpt.getRootPage := by
  unfold IrtRepeat.getRootPage
  rw [h.pageNum, h.pageSpaceId]

theorem SameSlot.noRootPage : rpt'.noRootPage = rpt.noRootPage := by
  unfold IrtRepeat.noRootPage
  rw [h.pageNum, h.pageSpaceId]

theorem SameSlot.usedTree : rpt'.usedTree = rpt.usedTree := by
  unfold IrtRepeat.usedTree IrtRepeat.isUsed
  rw [h.state, h.getRootPage]

theorem SameSlot.is {state : IrtState} {tree : Option PageNumber}
    (his : rpt.Is state tree) : rpt'.Is state tree := ⟨h.state.trans his.state, h.getRootPage.trans his.root⟩

end

theorem Untouched.same {rpt rpt' : IrtRepeat} (hu : Untouched c id rpt) (h : SameSlot rpt rpt') :
    Untouched c id rpt' where
  start hnormal := h.is (hu.start hnormal)
  foreign := by
    have hforeign := hu.foreign
    have hroot := h.getRootPage
    obtain ⟨hstate, htransaction, -, -, -⟩ := h
    constructor <;> grind [Foreign]
  migrating := by
    rw [h.state, h.transaction]
    exact hu.migrating

theorem Pending.same {rpt rpt' : IrtRepeat} (hp : Pending c id rpt) (h : SameSlot rpt rpt') : Pending c id rpt' := by
  unfold Pending at hp ⊢
  cases hf : c.fate id with
  | untouched =>
    rw [hf] at hp
    exact Untouched.same hp h
  | reserved =>
    rw [hf] at hp
    exact ⟨h.is hp.1, h.transaction.trans hp.2.1, h.noRootPage.trans hp.2.2⟩
  | migrated original copy back =>
    rw [hf] at hp
    exact ⟨h.is hp.1, h.transaction.trans hp.2.1, h.backslot.trans hp.2.2⟩
  | kept tree =>
    rw [hf] at hp
    exact h.is hp
  | created tree | killed tree | marked tree | backOf tree | orphan tree =>
    rw [hf] at hp
    exact ⟨h.is hp.1, h.transaction.trans hp.2⟩

structure SameSlots (root root' : IndexRootPage) : Prop where
  count : root.count ≤ root'.count
  slots : ∀ n, SameSlot (root.rpt n) (root'.rpt n) ∨ (root.rpt n).state = .unused ∧ (root'.rpt n).state = .unused

theorem SameSlots.state (h : SameSlots root root') (n : Nat) : (root'.rpt n).state = (root.rpt n).state :=
  (h.slots n).elim (fun hs => hs.state) fun hu => hu.2.trans hu.1.symm

theorem SameSlots.normal (h : SameSlots root root') (n : Nat) (tree : Option PageNumber)
    (hn : (root.rpt n).Is .normal tree) : (root'.rpt n).Is .normal tree := by
  rcases h.slots n with hs | hu
  · exact hs.is hn
  · exact absurd (hn.state.symm.trans hu.1) nofun

theorem SameSlots.refs (h : SameSlots root root') (tree : PageNumber) : root'.refs tree = root.refs tree :=
  count_congr fun n => by
    rcases h.slots n with hs | hu
    · rw [hs.usedTree]
    · rw [usedTree_of_unused hu.1, usedTree_of_unused hu.2]

theorem Inv.untouched_of_unused (h : Inv c root trees) (hphase : c.phase = .working)
    (hunused : (root.rpt id).state = .unused) : c.fate id = .untouched ∧ Untouched c id (root.rpt id) := by
  rcases h.untouched_or_own id with hfree | hown
  · exact hfree
  · unfold Own at hown
    rw [hunused] at hown
    exact absurd hphase hown

theorem Untouched.not_normal (hu : Untouched c id rpt) (hunused : rpt.state = .unused) :
    (c.start.rpt id).state ≠ .normal := by
  intro hnormal
  have hs := (hu.start hnormal).state
  rw [hunused] at hs
  exact nomatch hs

theorem Inv.congr (h : Inv c root trees) (hphase : c.phase = .working)
    (hsame : SameSlots root root') : Inv c root' trees := by
  refine ⟨h.transaction, fun n hn => ?_, fun n => .inl ?_, fun n hn => absurd hn (h.not_visited hphase n),
    fun n original copy b hn => ?_, h.forth, h.origin, h.whole, fun tree => (hsame.refs tree).symm ▸ h.single tree,
    fun tree => ?_⟩
  · obtain ⟨hunused, hfate⟩ := h.behind n (hsame.count.trans hn)
    exact ⟨(hsame.state n).trans hunused, hfate⟩
  · have hp := h.pending hphase n
    rcases hsame.slots n with hs | hu
    · exact hp.same hs
    · obtain ⟨hfate, huntouched⟩ := h.untouched_of_unused hphase hu.1
      unfold Pending
      rw [hfate]
      exact ⟨fun hnormal => absurd hnormal (huntouched.not_normal hu.1), by constructor <;> grind, by grind⟩
  · rw [hsame.state, hsame.state]
    exact h.back n original copy b hn
  · rw [hsame.refs]
    exact h.ledger tree

theorem After.congr (h : Inv c root trees) (hphase : c.phase = .working) (hcount : root'.count = root.count)
    (hsame : SameSlots root root') : After c root trees root' trees :=
  ⟨h.congr hphase hsame, fun tree => (hsame.refs tree).le, hcount, fun n hn => (hsame.state n).trans hn, hsame.normal⟩

theorem setSlot_same (hs : SameSlot (root.rpt id) rpt) (n : Nat) : SameSlot (root.rpt n)
    ((root.setSlot id rpt).rpt n) := by
  by_cases hn : n = id
  · subst hn
    rw [setSlot_self]
    exact hs
  · rw [setSlot_of_ne _ hn]
    exact .refl _

theorem compressRoot_same (pageSize : Nat) (root : IndexRootPage) :
    (compressRoot pageSize root).count = root.count ∧ ∀ n, SameSlot (root.rpt n)
    ((compressRoot pageSize root).rpt n) := by
  unfold compressRoot
  refine List.foldlRecOn (motive := fun page : IndexRootPage × Nat => page.1.count = root.count ∧
    ∀ n, SameSlot (root.rpt n) (page.1.rpt n)) _ _ ⟨rfl, fun n => .refl _⟩ fun page hpage id _ => ?_
  obtain ⟨hcount, hsame⟩ := hpage
  refine ⟨?_, fun n => ?_⟩
  · dsimp only
    split
    all_goals exact hcount
  · dsimp only
    split
    · exact (hsame n).trans (@setSlot_same page.1 id { page.1.rpt id with desc := page.2 - (page.1.rpt id).keys *
        irtdSize } ⟨rfl, rfl, rfl, rfl, rfl⟩ n)
    · exact hsame n

def FailsAfter (c : Ctx) (root : IndexRootPage) (trees : List TreeEvent) (e : RootError) (w : World) : Prop :=
  e = .failed ∧ Reaches c root trees false w

theorem Does.mayFail {P : World → Prop} {x : Act α} {Q : α → World → Prop} {E : RootError → World → Prop}
    (h : Does P x Q) : Triple P x Q E := h.weaken (fun _ => id) (fun _ _ => id) fun _ _ => False.elim

theorem Reaches.trans {w : World} (h : After c root trees root' trees') (hw : Reaches c root' trees' b w) :
    Reaches c root trees b w := by
  obtain ⟨root'', trees'', hafter, hw⟩ := hw
  exact ⟨root'', trees'', h.trans hafter, hw⟩

theorem findPlace_does (hf : Fits c env) (h : Inv c root trees) (hphase : c.phase = .working) (creation : IndexCreation)
    (left : Nat) : Triple (At true root trees) (findPlace env creation left) (fun place w => ∃ root' trees',
      (After c root trees root' trees' ∧ Free root' place.1) ∧ At true root' trees' w) (FailsAfter c root trees) := by
  induction left generalizing root trees with
  | zero =>
    refine Triple.bind (scanSlots_does hf h hphase creation _ 0 none env.pageSize nofun).mayFail fun place =>
      .choose fun root' =>
      .choose fun trees' => .assume fun ⟨hafter, hplace⟩ => readRoot_does.mayFail.bind fun now => .assume fun _ => ?_
    exact .ite (fun _ => releaseRoot_does.mayFail.bind fun _ => .raise fun _ hw => ⟨rfl, root', trees', hafter, hw⟩)
      fun _ =>
      .pure fun _ hw => ⟨root', trees', ⟨hafter, hplace⟩, hw⟩
  | succ left ih =>
    refine Triple.bind (scanSlots_does hf h hphase creation _ 0 none env.pageSize nofun).mayFail fun place =>
      .choose fun root' =>
      .choose fun trees' => .assume fun ⟨hafter, hplace⟩ => readRoot_does.mayFail.bind fun now => .assume fun _ => ?_
    refine .ite (fun _ => ?_) fun _ => .pure fun _ hw => ⟨root', trees', ⟨hafter, hplace⟩, hw⟩
    have compress : Does (At true root' trees') (onlyIf (left = 0) (writeRoot (compressRoot env.pageSize))) fun _ =>
        Reaches c root' trees' true := by
      have hsame := compressRoot_same env.pageSize root'
      exact .ite (fun _ => (writeRoot_does _).post fun _ w hw => ⟨_, trees',
        .congr hafter.inv hphase hsame.1 ⟨hsame.1.ge, fun n => .inl (hsame.2 n)⟩, hw⟩) fun _ =>
          .pure fun _ hw => ⟨root', trees', .refl hafter.inv, hw⟩
    refine compress.mayFail.bind fun _ => .choose fun root₁ => .choose fun trees₁ => .assume fun hafter₁ => ?_
    have hall := hafter.trans hafter₁
    exact (ih hafter₁.inv).weaken (fun _ => id)
      (fun place w ⟨root'', trees'', ⟨hafter', hplace'⟩, hw⟩ => ⟨root'', trees'', ⟨hall.trans hafter', hplace'⟩, hw⟩)
      fun e w ⟨he, hw⟩ => ⟨he, .trans hall hw⟩

theorem startCreation_does (creation : IndexCreation) (hmethod : creation.createMethod = .forRollback)
    (hunused : (root.rpt id).state = .unused) : Does (At true root trees) (startCreation env creation id) fun _ =>
      At true (root.setSlot id ((root.rpt id).setInProgress creation.traNumber).slot) trees := by
  unfold startCreation
  rw [hmethod]
  exact setSlot_does (decide_eq_true hunused)

theorem extendTo_same (h : Inv c root trees) {n : Nat} (hle : root.count ≤ n) (hlt : n + 1 < 2 ^ 16) :
    (extendTo n root).count = n + 1 ∧ SameSlots root (extendTo n root) := by
  have hcount : (extendTo n root).count = n + 1 := Nat.mod_eq_of_lt hlt
  refine ⟨hcount, by omega, fun m => ?_⟩
  by_cases hm : root.count ≤ m ∧ m ≤ n
  · refine .inr ⟨(h.behind m hm.1).1, ?_⟩
    show (if root.count ≤ m ∧ m ≤ n then emptyRepeat else root.rpt m).state = .unused
    rw [if_pos hm]
    rfl
  · refine .inl ?_
    show SameSlot (root.rpt m) (if root.count ≤ m ∧ m ≤ n then emptyRepeat else root.rpt m)
    rw [if_neg hm]
    exact .refl _

theorem Inv.reserve (h : Inv c root trees) (hphase : c.phase = .working) (hid : id < root.count)
    (hunused : (root.rpt id).state = .unused) (rpt : IrtRepeat) :
    Inv (c.withFate id .reserved) (root.setSlot id (rpt.setInProgress c.transaction).slot) trees := by
  obtain ⟨hfate, huntouched⟩ := h.untouched_of_unused hphase hunused
  refine h.ownSame hphase hid (by rw [hfate]; rfl) rfl ⟨by rw [hfate]; exact nofun, fun hnormal =>
    absurd hnormal (huntouched.not_normal hunused)⟩ ?_ ?_
  · unfold Pending Ctx.withFate
    dsimp only
    rw [update_self]
    exact ⟨⟨rfl, rfl⟩, rfl, rfl⟩
  · rw [usedTree_of_unused hunused]
    exact usedTree_eq (show IrtState.inProgress ≠ .unused from nofun)

structure Later (c : Ctx) (root root' : IndexRootPage) (trees' : List TreeEvent) : Prop where
  inv : Inv c root' trees'
  refs : ∀ tree, root'.refs tree ≤ root.refs tree
  normal : ∀ n tree, (root.rpt n).Is .normal tree → (root'.rpt n).Is .normal tree

theorem Later.refl (h : Inv c root trees) : Later c root root trees := ⟨h, fun _ => Nat.le_refl _, fun _ _ => id⟩

theorem Later.congr (h : Inv c root trees) (hphase : c.phase = .working) (hsame : SameSlots root root') :
    Later c root root' trees :=
  ⟨h.congr hphase hsame, fun tree => (hsame.refs tree).le, hsame.normal⟩

theorem After.later (h : After c root trees root' trees') : Later c root root' trees' := ⟨h.inv, h.refs, h.normal⟩

theorem Later.trans (h : Later c root root' trees') (h' : Later c root' root'' trees'') : Later c root root'' trees'' :=
  ⟨h'.inv, fun tree => (h'.refs tree).trans (h.refs tree), fun n tree hn => h'.normal n tree (h.normal n tree hn)⟩

def Stops (c : Ctx) (root : IndexRootPage) (e : RootError) (w : World) : Prop :=
  e = .failed ∧ ∃ b root' trees', Later c root root' trees' ∧ At b root' trees' w

structure Reserved (c : Ctx) (root root' : IndexRootPage) (trees' : List TreeEvent) (id : Nat) : Prop where
  inv : Inv (c.withFate id .reserved) root' trees'
  fate : c.fate id = .untouched
  lt : id < root'.count
  unused : (root.rpt id).state ≠ .normal
  refs : ∀ tree, root'.refs tree ≤ root.refs tree
  normal : ∀ n tree, (root.rpt n).Is .normal tree → (root'.rpt n).Is .normal tree

theorem reserveSlot_does (hf : Fits c env) (h : Inv c root trees) (hphase : c.phase = .working)
    (creation : IndexCreation)
    (hmethod : creation.createMethod = .forRollback) (htransaction : creation.traNumber = c.transaction)
    (hidx : root.count ≤ creation.idxId → creation.idxId ≤ env.maxIdx) :
    Triple (At false root trees) (reserveSlot env creation) (fun id w => ∃ root' trees',
      Reserved c root root' trees' id ∧ At false root' trees' w) (Stops c root) := by
  refine (fetchRoot_does hf).mayFail.bind fun _ => readRoot_does.mayFail.bind fun page => .assume fun hpage => ?_
  subst hpage
  refine .ite (fun _ => releaseRoot_does.mayFail.bind fun _ => .raise fun _ hw =>
    ⟨rfl, false, page, trees, .refl h, hw⟩) fun hmax => ?_
  have hbound := hf.maxIdx
  have extend : Does (At true page trees) (onlyIf (env.useIdxId && page.count ≤ creation.idxId)
      (writeRoot (extendTo creation.idxId)))
      fun _ w => ∃ root₁, (Later c page root₁ trees ∧ root₁.count + 1 < 2 ^ 16) ∧ At true root₁ trees w := by
    refine .ite (fun hextend => ?_) fun _ => .pure fun _ hw => ⟨page, ⟨.refl h, by omega⟩, hw⟩
    have hle : page.count ≤ creation.idxId := of_decide_eq_true (Bool.and_eq_true_iff.mp hextend).2
    obtain ⟨hcount₁, hsame₁⟩ := extendTo_same h hle (by omega)
    exact (writeRoot_does _).post fun _ w hw => ⟨_, ⟨.congr h hphase hsame₁, by omega⟩, hw⟩
  refine extend.mayFail.bind fun _ => .choose fun root₁ => .assume fun ⟨hlater₁, hlt₁⟩ => ?_
  refine Triple.bind ((findPlace_does hf hlater₁.inv hphase creation 2).weaken (fun _ => id) (fun _ _ => id)
    fun e w ⟨he, root', trees', hafter, hw⟩ => ⟨he, false, root', trees', hlater₁.trans hafter.later, hw⟩) fun place =>
      .choose fun root₂ => .choose fun trees₂ => .assume fun ⟨hafter, hplace⟩ =>
        readRoot_does.mayFail.bind fun now => .assume fun hnow => ?_
  subst hnow
  have choose : Does (At true now trees₂) (place.1.elim (pure now.count) (usePointer .slot)) fun id w =>
      id = (place.1.map (·.id)).getD now.count ∧ At true now trees₂ w := by
    cases place.1 with
    | none => exact .pure fun _ hw => ⟨rfl, hw⟩
    | some p => exact usePointer_does .slot p
  refine choose.mayFail.bind fun id => .assume fun hid => ?_
  have add : Does (At true now trees₂) (onlyIf place.1.isNone (writeRoot addSlot)) fun _ w => ∃ root₃,
      (Later c now root₃ trees₂ ∧ id < root₃.count ∧ (root₃.rpt id).state = .unused) ∧ At true root₃ trees₂ w := by
    have hnow := hafter.count
    refine .ite (fun hnone => ?_) fun hsome => .pure fun _ hw => ⟨now, ⟨.refl hafter.inv, ?_⟩, hw⟩
    · obtain rfl : id = now.count := by
        rw [Option.isNone_iff_eq_none.mp hnone] at hid
        exact hid
      have hadd : (addSlot now).count = now.count + 1 := Nat.mod_eq_of_lt (by omega)
      have hsame : SameSlots now (addSlot now) := ⟨by omega, fun n => .inl (.refl _)⟩
      exact (writeRoot_does _).post fun _ w hw => ⟨addSlot now, ⟨.congr hafter.inv hphase hsame,
        hadd.symm ▸ Nat.lt_succ_self _, (hafter.inv.behind now.count (Nat.le_refl _)).1⟩, hw⟩
    · cases hplace' : place.1 with
      | none => exact absurd (congrArg Option.isNone hplace') hsome
      | some p =>
        rw [hplace'] at hid
        obtain rfl : id = p.id := hid
        exact ⟨(hplace p hplace').2, (hplace p hplace').1⟩
  refine add.mayFail.bind fun _ => .choose fun root₃ => .assume fun ⟨hlater₃, hid₃, hunused₃⟩ =>
    (writeRoot_does _).mayFail.bind fun _ => Triple.bind (startCreation_does creation hmethod ?_).mayFail fun _ =>
      releaseRoot_does.mayFail.bind fun _ => .pure fun w hw => ?_
  · rw [setSlot_self]
    exact hunused₃
  · rw [setSlot_setSlot, htransaction] at hw
    have hall := (hlater₁.trans hafter.later).trans hlater₃
    refine ⟨_, trees₂, ⟨hlater₃.inv.reserve hphase hid₃ hunused₃ _, (hlater₃.inv.untouched_of_unused hphase hunused₃).1,
      hid₃, fun hnormal => ?_, fun tree => ?_, fun n tree hn => ?_⟩, hw⟩
    · have hthen := (hall.normal id _ ⟨hnormal, rfl⟩).state
      rw [hunused₃] at hthen
      exact nomatch hthen
    · refine (refs_setSlot_same (hid₃.trans root₃.count_lt) ?_ tree).le.trans (hall.refs tree)
      rw [usedTree_of_unused hunused₃]
      exact usedTree_eq (show IrtState.inProgress ≠ .unused from nofun)
    · have hthen := hall.normal n tree hn
      rw [setSlot_of_ne _ fun heq : n = id => ?_]
      · exact hthen
      · have hstate := hthen.state
        rw [heq, hunused₃] at hstate
        exact nomatch hstate

end Firebird.Btr
