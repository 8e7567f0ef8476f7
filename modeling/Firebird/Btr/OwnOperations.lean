import Firebird.Btr.ReserveSlot

/-! # The operations of a working transaction -/

namespace Firebird.Btr

open IndexRootPage Lib Function
open Tpc (TraState)

variable {c : Ctx} {env : Surroundings} {root root' : IndexRootPage} {trees trees' : List TreeEvent} {id back : Nat}
  {rpt : IrtRepeat} {fate fateBack : Fate} {α : Type} {b : Bool}

def Ctx.afterCreate (c : Ctx) (id : Nat) (after : IrtRepeat) : Ctx :=
  match after.getRootPage with
  | some tree => c.withFate id (.created tree)
  | none => c

/-- An index that was there no longer, since its own transaction has removed it, is not marked. -/
def Fate.afterMark (fate : Fate) (after : IrtRepeat) : Fate :=
  match fate with
  | .created tree => .killed tree
  | .kept root => .marked root
  | .migrated _ copy _ => .marked copy
  | .untouched =>
    if after.state = .unused ∨ after.state = .drop then .untouched
    else match after.getRootPage with
      | some root => .marked root
      | none => .untouched
  | .reserved => .reserved
  | .killed tree => .killed tree
  | .marked root => .marked root
  | .backOf original id => .backOf original id
  | .orphan original => .orphan original

def Ctx.afterMark (c : Ctx) (id : Nat) (after : IrtRepeat) : Ctx :=
  match c.fate id with
  | .migrated original _ back => (c.withFate id ((c.fate id).afterMark after)).withFate back (.orphan original)
  | _ => c.withFate id ((c.fate id).afterMark after)

def Fate.afterActivate : Fate → Fate
  | .marked root => .kept root
  | .killed tree => .created tree
  | fate => fate

def Ctx.afterActivate (c : Ctx) (id : Nat) : Ctx := c.withFate id (c.fate id).afterActivate

def Ctx.afterCopy (c : Ctx) (id : Nat) (before after : IrtRepeat) : Ctx :=
  match after.state, before.getRootPage, after.getRootPage with
  | .migrate, some original, some copy =>
    (c.withFate id (.migrated original copy after.backslot)).withFate after.backslot (.backOf original id)
  | _, _, _ => c

theorem Ctx.withFate_self (c : Ctx) (id : Nat) (fate : Fate) : (c.withFate id fate).fate id = fate := update_self ..

theorem Ctx.withFate_of_ne {n : Nat} (c : Ctx) (fate : Fate) (h : n ≠ id) : (c.withFate id fate).fate n = c.fate n :=
  update_of_ne h ..

theorem Ctx.withFate_withFate (c : Ctx) (id : Nat) (fate fate' : Fate) :
    (c.withFate id fate).withFate id fate' = c.withFate id fate' := by
  unfold Ctx.withFate
  rw [update_idem]

theorem Ctx.withFate_fate (c : Ctx) (id : Nat) : c.withFate id (c.fate id) = c := by
  unfold Ctx.withFate
  rw [update_eq_self]

theorem Inv.pair (h : Inv c root trees) (hphase : c.phase = .working) (hid : id < root.count)
    (hback : back < root.count) (hne : back ≠ id)
    (hbefore : (c.fate id).linked = false ∧ (c.fate back).linked = false ∨ ∃ original copy,
      c.fate id = .migrated original copy back)
    (hafter : fate.linked = false ∧ fateBack.linked = false ∨
      ∃ original copy, fate = .migrated original copy back ∧ fateBack = .backOf original id)
    (hcount : root'.count = root.count) (hother : ∀ n, n ≠ id → n ≠ back → root'.rpt n = root.rpt n)
    (hslot : Pending (c.withFate id fate) id (root'.rpt id))
    (hslotBack : Pending (c.withFate back fateBack) back (root'.rpt back))
    (horigin : ((c.withFate id fate).withFate back fateBack).NoOrphan → c.NoOrphan ∧
      ((c.start.rpt id).state = .normal → (c.fate id).Keeps (c.start.rpt id).getRootPage →
        fate.Keeps (c.start.rpt id).getRootPage) ∧
      ((c.start.rpt back).state = .normal → ¬ (c.fate back).Keeps (c.start.rpt back).getRootPage))
    (hsingle : ∀ tree, root'.refs tree ≤ 1)
    (hledger : ∀ tree, trees'.count (.built tree) + c.start.refs tree = root'.refs
      tree + trees'.count (.deleted tree)) :
    Inv ((c.withFate id fate).withFate back fateBack) root' trees' := by
  have hself : ((c.withFate id fate).withFate back fateBack).fate id = fate :=
    (Ctx.withFate_of_ne _ _ hne.symm).trans (c.withFate_self id fate)
  have hselfBack : ((c.withFate id fate).withFate back fateBack).fate back = fateBack := Ctx.withFate_self ..
  have hfates : ∀ n, n ≠ id → n ≠ back → ((c.withFate id fate).withFate back fateBack).fate n = c.fate n :=
    fun n hn hn' =>
    (Ctx.withFate_of_ne _ _ hn').trans (c.withFate_of_ne fate hn)
  -- no other slot is linked to one of the two
  have hlinks : ∀ n original copy b, n ≠ id → n ≠ back → c.fate n = .migrated original copy b → b ≠ id ∧ b ≠ back := by
    intro n original copy b hn hn' hfate
    have hb := (h.back n original copy b hfate).1
    rcases hbefore with ⟨hunlinked, hunlinked'⟩ | ⟨original', copy', hlinked⟩
    · refine ⟨fun heq => ?_, fun heq => ?_⟩
      · rw [← heq, hb] at hunlinked
        exact nomatch hunlinked
      · rw [← heq, hb] at hunlinked'
        exact nomatch hunlinked'
    · refine ⟨fun heq => ?_, fun heq => ?_⟩
      · rw [heq, hlinked] at hb
        exact nomatch hb
      · rw [heq, (h.back id original' copy' back hlinked).1] at hb
        injection hb with _ hof
        exact hn hof.symm
  have hlinks' : ∀ b original n, b ≠ id → b ≠ back → c.fate b = .backOf original n → n ≠ id ∧ n ≠ back := by
    intro b original n hb hb' hfate
    obtain ⟨copy, hn⟩ := h.forth b original n hfate
    rcases hbefore with ⟨hunlinked, hunlinked'⟩ | ⟨original', copy', hlinked⟩
    · refine ⟨fun heq => ?_, fun heq => ?_⟩
      · rw [← heq, hn] at hunlinked
        exact nomatch hunlinked
      · rw [← heq, hn] at hunlinked'
        exact nomatch hunlinked'
    · refine ⟨fun heq => ?_, fun heq => ?_⟩
      · rw [heq, hlinked] at hn
        injection hn with _ _ hback
        exact hb' hback.symm
      · rw [heq, (h.back id original' copy' back hlinked).1] at hn
        exact nomatch hn
  refine ⟨h.transaction, fun n hn => ?_, fun n => .inl ?_, fun n hn => absurd hn (h.not_visited hphase n),
    fun n original copy b hn => ?_, fun b original n hb => ?_, fun hwhole n hnormal => ?_,
    fun hrolledBack => absurd (hphase.symm.trans hrolledBack) nofun, hsingle, hledger⟩
  · rw [hcount] at hn
    have hni : n ≠ id := Nat.ne_of_gt (hid.trans_le hn)
    have hnb : n ≠ back := Nat.ne_of_gt (hback.trans_le hn)
    rw [hother n hni hnb, hfates n hni hnb]
    exact h.behind n hn
  · by_cases hni : n = id
    · subst hni
      exact pending_congr (hself.trans (c.withFate_self n fate).symm) rfl rfl hslot
    · by_cases hnb : n = back
      · subst hnb
        exact pending_congr (hselfBack.trans (c.withFate_self n fateBack).symm) rfl rfl hslotBack
      · rw [hother n hni hnb]
        exact pending_congr (hfates n hni hnb) rfl rfl (h.pending hphase n)
  · by_cases hni : n = id
    · subst hni
      have hn' : fate = .migrated original copy b := hself.symm.trans hn
      rcases hafter with hunlinked | ⟨original', copy', hmigrated, hbackOf⟩
      · rw [hn'] at hunlinked
        exact nomatch hunlinked.1
      · rw [hn'] at hmigrated
        injection hmigrated with ho hc hb
        subst ho hc hb
        unfold Pending at hslot hslotBack
        rw [Ctx.withFate_self, hn'] at hslot
        rw [Ctx.withFate_self, hbackOf] at hslotBack
        exact ⟨hselfBack.trans hbackOf, fun hcommitted => absurd (hphase.symm.trans hcommitted) nofun,
          ⟨fun _ => hslotBack.1.state, fun _ => hslot.1.state⟩⟩
    · by_cases hnb : n = back
      · subst hnb
        have hn' : fateBack = .migrated original copy b := hselfBack.symm.trans hn
        rcases hafter with hunlinked | ⟨original', copy', -, hbackOf⟩
        · rw [hn'] at hunlinked
          exact nomatch hunlinked.2
        · exact nomatch hn'.symm.trans hbackOf
      · have hn' : c.fate n = .migrated original copy b := (hfates n hni hnb).symm.trans hn
        obtain ⟨hbi, hbb⟩ := hlinks n original copy b hni hnb hn'
        rw [hother n hni hnb, hother b hbi hbb, hfates b hbi hbb]
        exact h.back n original copy b hn'
  · by_cases hbi : b = id
    · subst hbi
      have hb' : fate = .backOf original n := hself.symm.trans hb
      rcases hafter with hunlinked | ⟨original', copy', hmigrated, -⟩
      · rw [hb'] at hunlinked
        exact nomatch hunlinked.1
      · exact nomatch hb'.symm.trans hmigrated
    · by_cases hbb : b = back
      · subst hbb
        have hb' : fateBack = .backOf original n := hselfBack.symm.trans hb
        rcases hafter with hunlinked | ⟨original', copy', hmigrated, hbackOf⟩
        · rw [hb'] at hunlinked
          exact nomatch hunlinked.2
        · have heq := hb'.symm.trans hbackOf
          injection heq with ho hn
          subst ho hn
          exact ⟨copy', hself.trans hmigrated⟩
      · have hb' : c.fate b = .backOf original n := (hfates b hbi hbb).symm.trans hb
        obtain ⟨hni, hnb⟩ := hlinks' b original n hbi hbb hb'
        obtain ⟨copy, hn⟩ := h.forth b original n hb'
        exact ⟨copy, (hfates n hni hnb).trans hn⟩
  · obtain ⟨hbefore', hkeeps, hnot⟩ := horigin hwhole
    by_cases hni : n = id
    · subst hni
      rw [hself]
      exact hkeeps hnormal (h.origin hbefore' n hnormal)
    · by_cases hnb : n = back
      · subst hnb
        exact absurd (h.origin hbefore' n hnormal) (hnot hnormal)
      · rw [hfates n hni hnb]
        exact h.origin hbefore' n hnormal

def Fresh (env : Surroundings) (root : IndexRootPage) : Prop := ∀ n, root.refs (env.newTree n) = 0

def createIndex (env : Surroundings) (creation : IndexCreation) : Act Nat := do
  let id ← reserveSlot env creation
  create env creation id
  pure id

theorem create_does (hf : Fits c env) (hphase : c.phase = .working) (hfresh : Fresh env root)
    (h : Inv (c.withFate id .reserved) root trees) (hid : id < root.count) (creation : IndexCreation)
    (hmethod : creation.createMethod = .forRollback) (htransaction : creation.traNumber = c.transaction) :
    Does (At false root trees) (create env creation id) fun _ w =>
      ∃ root' trees', Inv (c.afterCreate id (root'.rpt id)) root' trees' ∧ At false root' trees' w := by
  have hslot : (root.rpt id).Is .inProgress none ∧ (root.rpt id).transaction = c.transaction ∧
      (root.rpt id).noRootPage = true := by
    have hp := h.pending hphase id
    unfold Pending at hp
    rw [Ctx.withFate_self] at hp
    exact hp
  obtain ⟨his, hown, hnone⟩ := hslot
  refine (external_does hf).bind fun _ => buildTree_does.bind fun tree => .choose fun n => .assume fun hn =>
    (external_does hf).bind fun _ => (fetchRoot_does hf).bind fun _ => ?_
  have htree : tree.pageNum ≠ 0 ∧ tree.pageSpaceId ≠ 0 := hn ▸ hf.newTree n
  have hroot : ((root.rpt id).setRollbackRoot tree creation.traNumber).slot.getRootPage = some tree :=
    if_pos htree
  have finish : Does (At true root (.built tree :: trees)) (finishCreation creation id tree) fun _ =>
      At true (root.setSlot id ((root.rpt id).setRollbackRoot tree creation.traNumber).slot)
      (.built tree :: trees) := by
    unfold finishCreation
    rw [hmethod]
    refine setSlot_does ?_
    simp [IrtRepeat.setRollbackRoot, IrtRepeat.rootAssert, his.state, hown, hnone, htransaction, htree.1]
  refine finish.bind fun _ => releaseRoot_does.post fun _ w hw => ⟨_, _, ?_, hw⟩
  rw [setSlot_self]
  unfold Ctx.afterCreate
  rw [hroot]
  have hinv := @Inv.ownBuilt (c.withFate id .reserved) root trees id
    ((root.rpt id).setRollbackRoot tree creation.traNumber).slot h hphase hid (.created tree)
    (by rw [Ctx.withFate_self]; rfl) rfl ⟨by rw [Ctx.withFate_self]; exact fun _ => Fate.noConfusion,
      fun _ hkeeps => by rw [Ctx.withFate_self] at hkeeps; exact hkeeps⟩ ?_ tree
    (his.usedTree (by decide)) ((usedTree_eq (show IrtState.rollback ≠ .unused by decide)).trans hroot) (hn ▸ hfresh n)
  · rw [Ctx.withFate_withFate] at hinv
    exact hinv
  · unfold Pending
    rw [Ctx.withFate_self]
    exact ⟨⟨rfl, hroot⟩, htransaction⟩

theorem createIndex_does (hf : Fits c env) (h : Inv c root trees) (hphase : c.phase = .working)
    (hfresh : Fresh env root)
    (creation : IndexCreation) (hmethod : creation.createMethod = .forRollback)
    (htransaction : creation.traNumber = c.transaction) (hidx : creation.idxId ≤ env.maxIdx) :
    Triple (At false root trees) (createIndex env creation) (fun id w =>
      ∃ root' trees', Inv (c.afterCreate id (root'.rpt id)) root' trees' ∧ At false root' trees' w) (Stops c root) := by
  refine (reserveSlot_does hf h hphase creation hmethod htransaction fun _ => hidx).bind fun id => .choose fun root₁ =>
    .choose fun trees₁ => .assume fun hreserved => ?_
  have hfresh₁ : Fresh env root₁ := fun n => Nat.le_zero.mp ((hreserved.refs _).trans_eq (hfresh n))
  exact (create_does hf hphase hfresh₁ hreserved.inv hreserved.lt creation hmethod htransaction).mayFail.bind fun _ =>
    .pure fun _ hw => hw

/-! ### Marking for deletion -/

theorem Ctx.afterMark_of_ne (c : Ctx) (after : IrtRepeat)
    (h : ∀ original copy back, c.fate id ≠ .migrated original copy back) :
    c.afterMark id after = c.withFate id ((c.fate id).afterMark after) := by
  unfold Ctx.afterMark
  split
  case h_1 original copy back hfate => exact absurd hfate (h original copy back)
  case h_2 => rfl

section
variable (h : Inv c root trees) (hphase : c.phase = .working) (hstate : (root.rpt id).state = .normal)
include h hphase hstate

theorem Inv.normal :
    ∃ tree, (root.rpt id).getRootPage = some tree ∧ (c.fate id = .untouched ∧ Untouched c id (root.rpt id) ∨
      c.fate id = .kept tree) := by
  rcases h.untouched_or_own id with hfree | hown
  · obtain ⟨tree, htree⟩ := Option.isSome_iff_exists.mp (hfree.2.foreign.root (.inr (.inl hstate)))
    exact ⟨tree, htree, .inl hfree⟩
  · unfold Own at hown
    rw [hstate] at hown
    obtain ⟨tree, htree, hfate⟩ := hown
    refine ⟨tree, htree, .inr ?_⟩
    rcases hfate with hkept | hcommitted | hrolledBack
    · exact hkept
    · exact absurd (hphase.symm.trans hcommitted.1) nofun
    · exact absurd (hphase.symm.trans hrolledBack.1) nofun

theorem keeps_of_normal
    {tree : PageNumber} (htree : (root.rpt id).getRootPage = some tree) (hnormal : (c.start.rpt id).state = .normal)
    (hkeeps : (c.fate id).Keeps (c.start.rpt id).getRootPage) : some tree = (c.start.rpt id).getRootPage := by
  obtain ⟨tree', htree', hfate⟩ := h.normal hphase hstate
  obtain rfl : tree = tree' := Option.some.inj (htree.symm.trans htree')
  rcases hfate with hfree | hkept
  · exact htree.symm.trans (hfree.2.start hnormal).root
  · rw [hkept] at hkeeps
    exact hkeeps

theorem not_orphan_of_normal :
    (c.fate id).linked = false ∧ (∀ original, c.fate id ≠ .orphan original) ∧
      ∀ original copy back, c.fate id ≠ .migrated original copy back := by
  obtain ⟨tree, -, hfate⟩ := h.normal hphase hstate
  rcases hfate with hfree | hkept
  · rw [hfree.1]
    exact ⟨rfl, nofun, nofun⟩
  · rw [hkept]
    exact ⟨rfl, nofun, nofun⟩

end

theorem Inv.own_of_transaction {state : IrtState} (h : Inv c root trees) (hstate : (root.rpt id).state = state)
    (hne : state ≠ .unused) (hown : (root.rpt id).transaction = c.transaction) :
    (root.rpt id).state ≠ .unused ∧ Own c id { root.rpt id with state } := by
  subst hstate
  exact ⟨hne, (h.untouched_or_own id).resolve_left fun hfree => hfree.2.foreign.other hne hown⟩

theorem Inv.restate {rpt : IrtRepeat} {fate : Fate} (h : Inv c root trees) (hphase : c.phase = .working)
    (hused : (root.rpt id).state ≠ .unused) (hlinked : (c.fate id).linked = false) (hfate : fate.linked = false)
    (hmoves : Moves c id fate) (hslot : Pending (c.withFate id fate) id rpt) (hstate : rpt.state ≠ .unused)
    (hroot : rpt.getRootPage = (root.rpt id).getRootPage) : Inv (c.withFate id fate) (root.setSlot id rpt) trees :=
  h.ownSame hphase (h.lt_of_used hused) hlinked hfate hmoves hslot
    ((usedTree_eq hstate).trans (hroot.trans (usedTree_eq hused).symm))

section
variable (h : Inv c root trees) (hphase : c.phase = .working)
include h hphase

theorem Inv.mark (hstate : (root.rpt id).state = .normal) :
    Inv (c.afterMark id ((root.rpt id).setCommit c.transaction).slot)
      (root.setSlot id ((root.rpt id).setCommit c.transaction).slot) trees := by
  obtain ⟨tree, htree, hfate⟩ := h.normal hphase hstate
  obtain ⟨hunlinked, hwhole, hne⟩ := not_orphan_of_normal h hphase hstate
  have hused : (root.rpt id).state ≠ .unused := by rw [hstate]; exact nofun
  have hroot : ((root.rpt id).setCommit c.transaction).slot.getRootPage = some tree := htree
  have hmarked : (c.fate id).afterMark ((root.rpt id).setCommit c.transaction).slot = .marked tree := by
    rcases hfate with hfree | hkept
    · rw [hfree.1]
      unfold Fate.afterMark
      have hcommit : ((root.rpt id).setCommit c.transaction).slot.state = .commit := rfl
      rw [if_neg nofun, hroot]
    · rw [hkept]
      rfl
  rw [c.afterMark_of_ne _ hne, hmarked]
  refine h.restate hphase hused hunlinked rfl
    ⟨hwhole, keeps_of_normal h hphase hstate htree⟩ ?_ nofun rfl
  unfold Pending
  rw [Ctx.withFate_self]
  exact ⟨⟨rfl, hroot⟩, rfl⟩

theorem Inv.kill (hstate : (root.rpt id).state = .rollback)
    (hown : (root.rpt id).transaction = c.transaction) : (root.rpt id).hasRootPage = true ∧
      Inv (c.afterMark id ((root.rpt id).setKill c.transaction).slot)
        (root.setSlot id ((root.rpt id).setKill c.transaction).slot) trees := by
  refine ⟨(h.rooted (.inl hstate)).1, ?_⟩
  obtain ⟨hused, -, tree, hfate, htree⟩ := h.own_of_transaction hstate nofun hown
  have hroot : ((root.rpt id).setKill c.transaction).slot.getRootPage = some tree := htree
  rw [c.afterMark_of_ne _ (by rw [hfate]; exact nofun), hfate]
  refine h.restate hphase hused (by rw [hfate]; rfl) rfl
    ⟨by rw [hfate]; exact nofun, fun _ hkeeps => by rw [hfate] at hkeeps; exact hkeeps.elim⟩ ?_ nofun rfl
  unfold Pending
  rw [Ctx.withFate_self]
  exact ⟨⟨rfl, hroot⟩, rfl⟩

theorem Inv.markMigrated (hstate : (root.rpt id).state = .migrate)
    (hown : (root.rpt id).transaction = c.transaction) : (root.rpt id).hasRootPage = true ∧
      Inv (c.afterMark id ((root.rpt id).setCommit c.transaction).slot)
        (root.setSlot id ((root.rpt id).setCommit c.transaction).slot) trees := by
  obtain ⟨hused, -, original, copy, back, hfate, -⟩ := h.own_of_transaction hstate nofun hown
  have hm := h.migration hfate hstate
  refine ⟨hasRootPage_eq (by rw [hm.copy]; rfl), ?_⟩
  have hroot : ((root.rpt id).setCommit c.transaction).slot.getRootPage = some copy := hm.copy
  have hrefs := @refs_setSlot_same root id ((root.rpt id).setCommit c.transaction).slot (hm.lt.trans root.count_lt) <|
    (usedTree_eq (show IrtState.commit ≠ .unused from nofun)).trans (usedTree_eq hused).symm
  unfold Ctx.afterMark
  rw [hfate]
  refine h.pair hphase hm.lt hm.ltBack hm.ne (.inr ⟨original, copy, hfate⟩) (.inl ⟨rfl, rfl⟩) rfl
    (fun n hn _ => setSlot_of_ne _ hn) ?_ ?_ (fun hwhole => absurd (Ctx.withFate_self ..) (hwhole back original)) ?_ ?_
  · rw [setSlot_self]
    unfold Pending
    rw [Ctx.withFate_self]
    exact ⟨⟨rfl, hroot⟩, rfl⟩
  · rw [setSlot_of_ne _ hm.ne]
    unfold Pending
    rw [Ctx.withFate_self]
    exact ⟨⟨hm.state, hm.original⟩, hm.transactionBack⟩
  · exact fun tree => (hrefs tree).le.trans (h.single tree)
  · intro tree
    rw [hrefs]
    exact h.ledger tree

theorem Inv.markGone
    (hstate : (root.rpt id).state = .unused ∨ (root.rpt id).state = .drop) : c.afterMark id (root.rpt id) = c := by
  have hfate : c.fate id = .untouched := by
    rcases h.untouched_or_own id with hfree | hown
    · exact hfree.1
    · unfold Own at hown
      rcases hstate with hstate | hstate
      · rw [hstate] at hown
        exact absurd hphase hown
      · rw [hstate] at hown
        exact absurd (hphase.symm.trans hown.2.1) nofun
  have hafter : (c.fate id).afterMark (root.rpt id) = c.fate id := by
    rw [hfate]
    exact if_pos hstate
  rw [c.afterMark_of_ne _ (by rw [hfate]; exact nofun), hafter, Ctx.withFate_fate]

end

/-- The index that a slot holds may be marked: it is there, or the transaction has created or migrated it, or another
transaction that has done so is over. -/
def Markable (c : Ctx) (env : Surroundings) (rpt : IrtRepeat) : Prop :=
  rpt.state = .normal ∨ (rpt.state = .rollback ∨ rpt.state = .migrate) ∧ rpt.transaction = c.transaction ∨
    (rpt.state = .rollback ∨ rpt.state = .commit) ∧ rpt.transaction ≠ c.transaction ∧
      ∀ n, env.cacheState n rpt.transaction = .committed ∨ env.cacheState n rpt.transaction = .dead

theorem checkTransactionNumber_does {tran : Nat} (h : rpt.transaction = tran) :
    Does (At b root trees) (checkTransactionNumber rpt tran) fun _ => At b root trees :=
  .ite (fun hne => absurd h hne) fun _ => .pure fun _ hw => hw

theorem markSlot_does (h : Inv c root trees) (hphase : c.phase = .working)
    (hstate : (root.rpt id).state = .normal ∨
      ((root.rpt id).state = .rollback ∨ (root.rpt id).state = .migrate) ∧ (root.rpt id).transaction = c.transaction ∨
      (root.rpt id).state = .drop) :
    Does (At true root trees) (markSlot id c.transaction) fun _ w =>
      ∃ root', Inv (c.afterMark id (root'.rpt id)) root' trees ∧ At true root' trees w := by
  refine readRoot_does.bind fun page => .assume fun hpage => ?_
  subst hpage
  dsimp only
  rcases hstate with hnormal | ⟨hcreated | hmigrated, hown⟩ | hgone
  · obtain ⟨tree, htree, -⟩ := h.normal hphase hnormal
    have hroot : (page.rpt id).hasRootPage = true := hasRootPage_eq (by rw [htree]; rfl)
    rw [hnormal]
    refine (setSlot_does ?_).post fun _ w hw => ⟨_, ?_, hw⟩
    · simp [IrtRepeat.setCommit, hnormal, hroot]
    · rw [setSlot_self]
      exact h.mark hphase hnormal
  · obtain ⟨hroot, hinv⟩ := h.kill hphase hcreated hown
    rw [hcreated]
    refine (checkTransactionNumber_does hown).bind fun _ => (setSlot_does ?_).post fun _ w hw => ⟨_, ?_, hw⟩
    · simp [IrtRepeat.setKill, hcreated, hroot, hown]
    · rw [setSlot_self]
      exact hinv
  · obtain ⟨hroot, hinv⟩ := h.markMigrated hphase hmigrated hown
    rw [hmigrated]
    refine (setSlot_does ?_).post fun _ w hw => ⟨_, ?_, hw⟩
    · simp [IrtRepeat.setCommit, hmigrated, hroot]
    · rw [setSlot_self]
      exact hinv
  · rw [hgone]
    exact .pure fun _ hw => ⟨page, (h.markGone hphase (.inr hgone)).symm ▸ h, hw⟩

/-- `BTR_mark_index_for_delete` with the window fetched before. -/
def markFetched (env : Surroundings) (id traNumber : Nat) : Act Unit := do
  fetchRoot env
  markIndexForDelete env id traNumber

theorem Does.tryCatch {P : World → Prop} {x : Act α} {handle : RootError → Act α} {Q : α → World → Prop}
    (h : Does P x Q) : Does P (MonadExcept.tryCatch x handle) Q := Triple.tryCatch h fun _ _ => False.elim

theorem releaseIfHeld_does : Does (At b root trees) releaseIfHeld fun _ => At false root trees := by
  have look : Does (At b root trees) isHeld fun held w => held = b ∧ At b root trees w := fun w hw => ⟨hw.held, hw⟩
  refine look.bind fun held => .assume fun hheld => ?_
  subst hheld
  cases held with
  | true => exact releaseRoot_does
  | false => exact .pure fun _ hw => hw

theorem Passed.markable {value : ModifyIrtRepeatValue} (hp : Passed c env root trees id value root' trees')
    (hphase : c.phase = .working) (hm : Markable c env (root.rpt id)) :
    value = .deleted ∧ (root'.rpt id).state = .unused ∨ (root'.rpt id).state = .normal ∨
      ((root'.rpt id).state = .rollback ∨ (root'.rpt id).state = .migrate) ∧ (root'.rpt id).transaction =
      c.transaction ∨ (root'.rpt id).state = .drop := by
  cases hp with
  | skip hskip hopen =>
    rcases hm with hnormal | hown | ⟨hstate, -, hended⟩
    · exact .inr (.inl hnormal)
    · exact .inr (.inr (.inl hown))
    · obtain ⟨n, hcommitted, hdead⟩ := hopen hstate
      exact absurd (hended n) (not_or.mpr ⟨hcommitted, hdead⟩)
  | normal hend =>
    rw [setSlot_self]
    exact .inr (.inl rfl)
  | drop next hnext hstate hend =>
    rw [setSlot_self]
    exact .inr (.inr (.inr rfl))
  | delete hid hend =>
    rw [setSlot_self]
    exact .inl ⟨rfl, rfl⟩
  | takeBack original copy back hfate hstate hrolledBack => exact absurd (hphase.symm.trans hrolledBack) nofun

theorem markFetched_does (hf : Fits c env) (h : Inv c root trees) (hphase : c.phase = .working)
    (hown : env.transaction = some c.transaction) {traNumber : Nat} (htra : traNumber = 0 ∨ traNumber = c.transaction)
    (hm : Markable c env (root.rpt id)) :
    Does (At false root trees) (markFetched env id traNumber) fun _ w =>
      ∃ root' trees', Inv (c.afterMark id (root'.rpt id)) root' trees' ∧ At false root' trees' w := by
  have hnumber : (if traNumber = 0 then env.transaction.getD 0 else traNumber) = c.transaction := by
    rw [hown]
    rcases htra with htra | htra
    · exact if_pos htra
    · rw [htra]
      exact if_neg h.transaction
  have hid : id < root.count := h.lt_of_used (by unfold Markable at hm; grind)
  have body : Does (At true root trees) (markIndex env id traNumber) fun _ w => ∃ b root' trees',
      Inv (c.afterMark id (root'.rpt id)) root' trees' ∧ At b root' trees' w := by
    unfold markIndex
    rw [hnumber]
    refine readRoot_does.bind fun page => .assume fun hpage => ?_
    subst hpage
    rw [if_pos ⟨hid, h.transaction⟩]
    refine (modifyIrtRepeat_does hf h fun hno : false = true => nomatch hno).bind fun value => .choose fun root' =>
      .choose fun trees' => .assume fun hp => ?_
    have hinv := (hp.after h hphase).inv
    have hmark := hp.markable hphase hm
    refine .ite (fun hdeleted => ?_) fun hleft => (refetch_does hf value).bind fun _ =>
      (markSlot_does hinv hphase (hmark.resolve_left fun hgone => hleft hgone.1)).post fun _ w ⟨root'', hinv', hw⟩ =>
        ⟨true, root'', trees', hinv', hw⟩
    have hunused : (root'.rpt id).state = .unused := by
      subst hdeleted
      cases hp with
      | delete hid hend => rw [setSlot_self]; rfl
    exact .pure fun _ hw => ⟨_, root', trees', (hinv.markGone hphase (.inl hunused)).symm ▸ hinv, hw⟩
  refine (fetchRoot_does hf).bind fun _ => Triple.bind body.tryCatch fun _ => .choose fun b => .choose fun root' =>
    .choose fun trees' => .assume fun hinv => releaseIfHeld_does.post fun _ w hw => ⟨root', trees', hinv, hw⟩

def Activable (c : Ctx) (rpt : IrtRepeat) : Prop :=
  (rpt.state = .commit ∨ rpt.state = .kill) ∧ rpt.transaction = c.transaction

section
variable (h : Inv c root trees) (hphase : c.phase = .working)
include h hphase

theorem Inv.activate (hstate : (root.rpt id).state = .commit)
    (hown : (root.rpt id).transaction = c.transaction) :
    Inv (c.afterActivate id) (root.setSlot id (root.rpt id).setNormal.slot) trees := by
  obtain ⟨hused, -, tree, hfate, htree⟩ := h.own_of_transaction hstate nofun hown
  have hroot : (root.rpt id).setNormal.slot.getRootPage = some tree := htree
  unfold Ctx.afterActivate
  rw [hfate]
  refine h.restate hphase hused (by rw [hfate]; rfl) rfl
    ⟨by rw [hfate]; exact nofun, fun _ hkeeps => by rw [hfate] at hkeeps; exact hkeeps⟩ ?_ nofun rfl
  unfold Pending
  rw [Ctx.withFate_self]
  exact ⟨rfl, hroot⟩

theorem Inv.revive (hstate : (root.rpt id).state = .kill)
    (hown : (root.rpt id).transaction = c.transaction) : (root.rpt id).hasRootPage = true ∧
      Inv (c.afterActivate id) (root.setSlot id ((root.rpt id).setRollback c.transaction).slot) trees := by
  obtain ⟨hused, -, tree, hfate, htree⟩ := h.own_of_transaction hstate nofun hown
  have hroot : ((root.rpt id).setRollback c.transaction).slot.getRootPage = some tree := htree
  refine ⟨hasRootPage_eq (Option.isSome_iff_exists.mpr ⟨tree, htree⟩), ?_⟩
  unfold Ctx.afterActivate
  rw [hfate]
  refine h.restate hphase hused (by rw [hfate]; rfl) rfl
    ⟨by rw [hfate]; exact nofun, fun _ hkeeps => by rw [hfate] at hkeeps; exact hkeeps⟩ ?_ nofun rfl
  unfold Pending
  rw [Ctx.withFate_self]
  exact ⟨⟨rfl, hroot⟩, rfl⟩

theorem activateSlot_does (hm : Activable c (root.rpt id)) :
    Does (At true root trees) (activateSlot id c.transaction) fun _ w =>
      ∃ root', Inv (c.afterActivate id) root' trees ∧ At true root' trees w := by
  refine readRoot_does.bind fun page => .assume fun hpage => ?_
  subst hpage
  dsimp only
  obtain ⟨hmarked | hkilled, hown⟩ := hm
  · obtain ⟨hroot, hnumber⟩ := h.rooted (.inr hmarked)
    rw [hmarked]
    refine (checkTransactionNumber_does hown).bind fun _ => (setSlot_does ?_).bind fun _ =>
      .pure fun w hw => ⟨_, h.activate hphase hmarked hown, hw⟩
    simp [IrtRepeat.setNormal, hmarked, hroot, hnumber]
  · obtain ⟨hroot, hinv⟩ := h.revive hphase hkilled hown
    rw [hkilled]
    refine (checkTransactionNumber_does hown).bind fun _ => (setSlot_does ?_).bind fun _ =>
      .pure fun w hw => ⟨_, hinv, hw⟩
    simp [IrtRepeat.setRollback, hkilled, hroot, hown]

end

theorem Passed.own {value : ModifyIrtRepeatValue} (hp : Passed c env root trees id value root' trees')
    (hphase : c.phase = .working) (hm : Activable c (root.rpt id)) : value = .skip ∧ root' = root ∧ trees' = trees := by
  unfold Activable at hm
  cases hp with
  | skip => exact ⟨rfl, rfl, rfl⟩
  | takeBack original copy back hfate hstate hrolledBack => exact absurd (hphase.symm.trans hrolledBack) nofun
  | normal hend | drop next hnext hstate hend | delete hid hend => grind

theorem activateIndex_does (hf : Fits c env) (h : Inv c root trees) (hphase : c.phase = .working)
    (hown : env.transaction = some c.transaction) (hm : Activable c (root.rpt id)) :
    Does (At false root trees) (activateIndex env id) fun _ w =>
      ∃ root', Inv (c.afterActivate id) root' trees ∧ At false root' trees w := by
  refine .ite (fun hno => absurd hf.hasRootPage (ne_true_of_eq_false hno)) fun _ => (fetchRoot_does hf).bind fun _ => ?_
  have hid : id < root.count := h.lt_of_used (by unfold Activable at hm; grind)
  have body : Does (At true root trees) (activate env id) fun _ w =>
      ∃ root', Inv (c.afterActivate id) root' trees ∧ At true root' trees w := by
    refine readRoot_does.bind fun page => .assume fun hpage => ?_
    subst hpage
    rw [hown]
    dsimp only
    rw [if_pos hid]
    refine (modifyIrtRepeat_does hf h fun _ => ?_).bind fun value => .choose fun root' => .choose fun trees' =>
      .assume fun hp => ?_
    · unfold Activable at hm
      grind
    · obtain ⟨rfl, rfl, rfl⟩ := hp.own hphase hm
      exact (refetch_does hf _).bind fun _ => activateSlot_does h hphase hm
  exact body.bind fun _ => .choose fun root' => .assume fun hinv => releaseRoot_does.bind fun _ =>
    .pure fun _ hw => ⟨root', hinv, hw⟩

theorem Ctx.withFate_comm (c : Ctx) (hne : back ≠ id) (fate' : Fate) :
    ((c.withFate back fate').withFate id fate).withFate back fateBack = (c.withFate id fate).withFate
    back fateBack := by
  unfold Ctx.withFate
  rw [update_comm hne, update_idem]

/-- The root page with the copy in the slot of the index, and the old tree in the slot taken for it -/
def linked (c : Ctx) (root : IndexRootPage) (id back : Nat) (original copy : PageNumber) : IndexRootPage :=
  (root.setSlot id ((root.rpt id).setMigrate copy c.transaction back).slot).setSlot back
    ((root.rpt back).setInProgressRoot original c.transaction).slot

theorem linked_rpt (c : Ctx) (root : IndexRootPage) (original copy : PageNumber) (hne : back ≠ id) :
    (linked c root id back original copy).rpt id = ((root.rpt id).setMigrate copy c.transaction back).slot := by
  rw [linked, setSlot_of_ne _ hne.symm, setSlot_self]

theorem Inv.link {original copy : PageNumber} (h : Inv (c.withFate back .reserved) root trees)
    (hphase : c.phase = .working)
    (hid : (root.rpt id).Is .normal (some original)) (hback : back < root.count) (hfresh : root.refs copy = 0)
    (hcopy : copy.pageNum ≠ 0 ∧ copy.pageSpaceId ≠ 0) :
    Inv ((c.withFate id (.migrated original copy back)).withFate back (.backOf original id))
      (linked c root id back original copy) (.built copy :: trees) := by
  have hreserved : (c.withFate back .reserved).fate back = .reserved := Ctx.withFate_self ..
  have hpending := h.pending hphase back
  unfold Pending at hpending
  rw [hreserved] at hpending
  have hne : back ≠ id := fun heq => by
    have hstate := hpending.1.state
    rw [heq, hid.state] at hstate
    exact nomatch hstate
  have hlt := @Inv.lt_of_used (c.withFate back .reserved) root trees id h (by rw [hid.state]; exact nofun)
  obtain ⟨hunlinked, hwhole, -⟩ := not_orphan_of_normal h hphase hid.state
  have hroot : ((root.rpt id).setMigrate copy c.transaction back).slot.getRootPage = some copy := if_pos hcopy
  have hrootBack : ((root.rpt back).setInProgressRoot original c.transaction).slot.getRootPage = some original :=
    if_pos (getRootPage_eq_some hid.root)
  have hrefs : ∀ tree, (linked c root id back original copy).refs tree =
      root.refs tree + (decide (copy = tree)).toNat := by
    intro tree
    unfold linked
    have hfirst := @refs_setSlot root id ((root.rpt id).setMigrate copy c.transaction back).slot
      (hlt.trans root.count_lt) tree
    have hsecond := @refs_setSlot (root.setSlot id ((root.rpt id).setMigrate copy c.transaction back).slot) back
      ((root.rpt back).setInProgressRoot original c.transaction).slot (hback.trans root.count_lt) tree
    have hused : (root.rpt id).usedTree = some original := hid.usedTree nofun
    have husedBack : (root.rpt back).usedTree = none := hpending.1.usedTree nofun
    have husedNew : ((root.rpt id).setMigrate copy c.transaction back).slot.usedTree = some copy :=
      (usedTree_eq (show IrtState.migrate ≠ .unused from nofun)).trans hroot
    have husedBackNew : ((root.rpt back).setInProgressRoot original c.transaction).slot.usedTree = some original :=
      (usedTree_eq (show IrtState.inProgress ≠ .unused from nofun)).trans hrootBack
    rw [setSlot_of_ne _ hne, husedBack, husedBackNew] at hsecond
    rw [hused, husedNew] at hfirst
    simp only [Option.some.injEq, reduceCtorEq, decide_false, Bool.toNat_false, add_zero] at hfirst hsecond
    omega
  have hpair := @Inv.pair (c.withFate back .reserved) root (linked c root id back original copy) trees
    (.built copy :: trees) id back (.migrated original copy back) (.backOf original id) h hphase hlt hback hne
    (.inl ⟨hunlinked, by rw [hreserved]; rfl⟩) (.inr ⟨original, copy, rfl, rfl⟩) rfl
    (fun n hn hn' => (setSlot_of_ne _ hn').trans (setSlot_of_ne _ hn)) ?_ ?_ (fun hwhole' => ⟨?_, ?_, ?_⟩)
    ?_ ?_
  · rw [c.withFate_comm hne] at hpair
    exact hpair
  · rw [linked_rpt _ _ _ _ hne]
    unfold Pending
    rw [Ctx.withFate_self]
    exact ⟨⟨rfl, hroot⟩, rfl, rfl⟩
  · rw [linked, setSlot_self]
    unfold Pending
    rw [Ctx.withFate_self]
    exact ⟨⟨rfl, hrootBack⟩, rfl⟩
  · intro n orphan hn
    by_cases hnb : n = back
    · subst hnb
      exact nomatch hreserved.symm.trans hn
    · by_cases hni : n = id
      · subst hni
        exact hwhole orphan hn
      · exact hwhole' n orphan ((Ctx.withFate_of_ne _ _ hnb).trans ((Ctx.withFate_of_ne _ _ hni).trans hn))
  · exact keeps_of_normal h hphase hid.state hid.root
  · rw [hreserved]
    exact fun _ hkeeps => hkeeps
  · intro tree
    rw [hrefs]
    by_cases heq : copy = tree
    · subst heq
      rw [hfresh, decide_eq_true rfl, Bool.toNat_true]
    · rw [decide_eq_false heq, Bool.toNat_false, Nat.add_zero]
      exact h.single tree
  · intro tree
    have hledger := h.ledger tree
    rw [hrefs, count_built_cons, List.count_cons_of_ne (show TreeEvent.built copy ≠ .deleted tree from nofun)]
    have hstart : (c.withFate back .reserved).start = c.start := rfl
    omega

theorem checkIrtRepeat_normal {skipInProgress : Bool} (hstate : (root.rpt id).state = .normal) :
    Does (At true root trees) (checkIrtRepeat env id skipInProgress) fun needed w => needed = false ∧
    At true root trees w := by
  refine readRoot_does.bind fun page => .assume fun hpage => (ask_does _).bind fun oldestActive => .assume fun _ => ?_
  subst hpage
  rw [hstate]
  exact .pure fun _ hw => ⟨rfl, hw⟩

theorem description_does (hf : Fits c env) (h : Inv c root trees) {original : PageNumber}
    (hid : (root.rpt id).Is .normal (some original)) :
    Triple (At true root trees) (description env id) (fun idx w =>
      (∀ d, idx = some d → d.root = original) ∧ At true root trees w) (Stops c root) := by
  have hlt := @Inv.lt_of_used c root trees id h (by rw [hid.state]; exact nofun)
  have slot : Does (At true root trees) (getIndexSlot env id) fun slot w => slot = id ∧ At true root trees w := by
    refine readRoot_does.bind fun page => .assume fun hpage => ?_
    subst hpage
    dsimp only
    rw [hid.state]
    exact .pure fun _ hw => ⟨rfl, hw⟩
  have lookup : ∀ rpt, Does (At true root trees) (lookupIndexCode env rpt) fun _ => At true root trees := fun rpt =>
    .ite (fun _ => (external_does hf).bind fun _ => (ask_does _).post fun _ w hw => hw.2) fun _ => .pure fun _ hw => hw
  refine readRoot_does.mayFail.bind fun page => .assume fun hpage => ?_
  subst hpage
  rw [if_neg (Nat.not_le.mpr hlt)]
  refine Triple.bind slot.mayFail fun slot => .assume fun hslot => ?_
  subst hslot
  rw [hid.root]
  refine Triple.bind (lookup _).mayFail fun found => .ite (fun _ => ?_) fun _ => .ite (fun _ => ?_) fun _ => ?_
  · exact (external_does hf).mayFail.bind fun _ => .pure fun _ hw => ⟨fun d hd => by rw [← Option.some.inj hd], hw⟩
  · exact .pure fun _ hw => ⟨nofun, hw⟩
  · exact .raise fun _ hw => ⟨rfl, true, page, trees, .refl h, hw⟩

theorem copyTree_does (hf : Fits c env) (h : Inv c root trees) (hphase : c.phase = .working) (hfresh : Fresh env root)
    {idx : Described} (hid : (root.rpt id).Is .normal (some idx.root)) (before : IrtRepeat)
    (hbefore : before.getRootPage = some idx.root) :
    Triple (At true root trees) (copyTree env id c.transaction idx) (fun _ w => ∃ root' trees',
      Inv (c.afterCopy id before (root'.rpt id)) root' trees' ∧ At true root' trees' w) (Stops c root) := by
  have hlt := @Inv.lt_of_used c root trees id h (by rw [hid.state]; exact nofun)
  refine releaseRoot_does.mayFail.bind fun _ => (external_does hf).mayFail.bind fun _ => Triple.bind
    (reserveSlot_does hf h hphase ⟨.forRollback, c.transaction, id, idx.count, idx.flags⟩ rfl rfl
      fun hle => absurd hle (Nat.not_le.mpr hlt)) fun back => .choose fun root₁ => .choose fun trees₁ =>
      .assume fun hreserved => ?_
  have hid₁ := hreserved.normal id _ hid
  refine (external_does hf).mayFail.bind fun _ => Triple.bind buildTree_does.mayFail fun copy => .choose fun n =>
    .assume fun hn => (fetchRoot_does hf).mayFail.bind fun _ => ?_
  have hcopy : copy.pageNum ≠ 0 ∧ copy.pageSpaceId ≠ 0 := hn ▸ hf.newTree n
  have hnew : root₁.refs copy = 0 := hn ▸ Nat.le_zero.mp ((hreserved.refs _).trans_eq (hfresh n))
  have hpending := hreserved.inv.pending hphase back
  unfold Pending at hpending
  rw [Ctx.withFate_self] at hpending
  have hne : back ≠ id := fun heq => by
    have hstate := hpending.1.state
    rw [heq, hid₁.state] at hstate
    exact nomatch hstate
  have hroot : (root₁.rpt id).hasRootPage = true := hasRootPage_eq (by rw [hid₁.root]; rfl)
  refine Triple.bind (setSlot_does ?_).mayFail fun _ => Does.mayFail (.post (setSlot_does ?_) fun _ w hw => ?_)
  · simp [IrtRepeat.setMigrate, IrtRepeat.rootAssert, hid₁.state, hroot, hcopy.1]
  · rw [setSlot_of_ne _ hne]
    have hown : (root₁.rpt back).transaction = c.transaction := hpending.2.1
    simp [IrtRepeat.setInProgressRoot, IrtRepeat.rootAssert, hpending.1.state, hown, hpending.2.2,
      (getRootPage_eq_some hid₁.root).1]
  · rw [setSlot_of_ne _ hne] at hw
    refine ⟨_, _, ?_, hw⟩
    have hself := linked_rpt c root₁ idx.root copy hne
    unfold linked at hself
    have hafter : ((root₁.rpt id).setMigrate copy c.transaction back).slot.getRootPage = some copy := if_pos hcopy
    rw [hself]
    unfold Ctx.afterCopy
    rw [hbefore, hafter]
    exact hreserved.inv.link hphase hid₁ hreserved.lt hnew hcopy

theorem Ctx.afterCopy_of_normal (before : IrtRepeat) {after : IrtRepeat} (h : after.state = .normal) :
    c.afterCopy id before after = c := by
  unfold Ctx.afterCopy
  rw [h]

theorem copyIndex_does (hf : Fits c env) (h : Inv c root trees) (hphase : c.phase = .working)
    (hown : env.transaction = some c.transaction) (hfresh : Fresh env root) (hstate : (root.rpt id).state = .normal) :
    Triple (At false root trees) (copyIndex env id) (fun _ w => ∃ root' trees',
      Inv (c.afterCopy id (root.rpt id) (root'.rpt id)) root' trees' ∧ At false root' trees' w) (Stops c root) := by
  obtain ⟨original, horiginal, -⟩ := h.normal hphase hstate
  refine .ite (fun hno => absurd hf.hasRootPage (ne_true_of_eq_false hno)) fun _ =>
    (fetchRoot_does hf).mayFail.bind fun _ => ?_
  have ready : Does (At true root trees) (copyReady env id) fun ready w => ready = true ∧ At true root trees w := by
    refine (pointTo_does id).bind fun indexRpt => .assume fun _ => (checkIrtRepeat_normal hstate).bind fun needed =>
      .assume fun hneeded => ?_
    subst hneeded
    exact .pure fun _ hw => ⟨rfl, hw⟩
  refine Triple.bind ready.mayFail fun ready => .assume fun hready => ?_
  subst hready
  have body : Triple (At true root trees) (copyDescribed env id) (fun _ w => ∃ root' trees',
      Inv (c.afterCopy id (root.rpt id) (root'.rpt id)) root' trees' ∧ At true root' trees' w) (Stops c root) := by
    refine Triple.bind (description_does hf h ⟨hstate, horiginal⟩) fun idx => .assume fun hidx => ?_
    cases idx with
    | none => exact .pure fun _ hw => ⟨root, trees, (c.afterCopy_of_normal _ hstate).symm ▸ h, hw⟩
    | some d =>
      have hd : (root.rpt id).getRootPage = some d.root := (hidx d rfl).symm ▸ horiginal
      rw [hown]
      exact copyTree_does hf h hphase hfresh ⟨hstate, hd⟩ _ hd
  exact Triple.bind body fun _ => .choose fun root' => .choose fun trees' => .assume fun hinv =>
    releaseRoot_does.mayFail.post fun _ w hw => ⟨root', trees', hinv, hw⟩

end Firebird.Btr
