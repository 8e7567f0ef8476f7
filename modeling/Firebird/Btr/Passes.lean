import Firebird.Btr.SlotFates

/-! # Passes over index slots -/

namespace Firebird.Btr
open Tpc (TraState)

variable {c : Ctx} {env : Surroundings} {root root' : IndexRootPage} {trees trees' : List TreeEvent}
  {id : Nat} {rpt : IrtRepeat}

/-- What the state of a slot the transaction has worked on tells about its fate. -/
def Own (c : Ctx) (id : Nat) (rpt : IrtRepeat) : Prop :=
  match rpt.state with
  | .unused => c.phase ≠ .working
  | .inProgress => rpt.transaction = c.transaction ∧
      (c.fate id = .reserved ∧ rpt.getRootPage = none ∨
        ∃ original, (c.fate id = .orphan original ∨ ∃ of, c.fate id = .backOf original of) ∧
        rpt.getRootPage = some original)
  | .rollback => rpt.transaction = c.transaction ∧ ∃ tree, c.fate id = .created tree ∧ rpt.getRootPage = some tree
  | .kill => rpt.transaction = c.transaction ∧ ∃ tree, c.fate id = .killed tree ∧ rpt.getRootPage = some tree
  | .commit => rpt.transaction = c.transaction ∧ ∃ tree, c.fate id = .marked tree ∧ rpt.getRootPage = some tree
  | .drop => rpt.transaction ≠ c.transaction ∧ c.phase = .committed ∧
      ∃ tree, c.fate id = .marked tree ∧ rpt.getRootPage = some tree
  | .migrate => rpt.transaction = c.transaction ∧
      ∃ original copy back, c.fate id = .migrated original copy back ∧ rpt.getRootPage = some copy ∧ rpt.backslot = back
  | .normal => ∃ tree, rpt.getRootPage = some tree ∧
      (c.fate id = .kept tree ∨ c.phase = .committed ∧ c.fate id = .created tree ∨
        c.phase = .rolledBack ∧ (c.fate id = .marked tree ∨ ∃ copy back, c.fate id = .migrated tree copy back))
  | .concurrently => False

theorem Inv.untouched_or_own (h : Inv c root trees) (id : Nat) :
    c.fate id = .untouched ∧ Untouched c id (root.rpt id) ∨ Own c id (root.rpt id) := by
  have hslot := h.slots id
  have hback := h.back id
  unfold Pending Resolved at hslot
  cases hfate : c.fate id <;> cases hphase : c.phase <;> simp only [hfate, hphase] at hslot <;>
    grind [IrtRepeat.Is, Own]

def BackPending (c : Ctx) (root : IndexRootPage) (id : Nat) : Prop :=
  c.phase ≠ .working ∧ (root.rpt id).state = .inProgress ∧ ∃ original of, c.fate id = .backOf original of

def takenBack (root : IndexRootPage) (id back : Nat) (original : PageNumber) : IndexRootPage :=
  (root.setSlot id ((root.rpt id).setNormalRoot original).slot).setSlot back (root.rpt back).setEmpty

/-- What `modifyIrtRepeat` can do to a slot, with what it says and which trees are deleted then. -/
inductive Passed (c : Ctx) (env : Surroundings) (root : IndexRootPage) (trees : List TreeEvent) (id : Nat) :
    ModifyIrtRepeatValue → IndexRootPage → List TreeEvent → Prop
  | skip (h : (root.rpt id).transaction = c.transaction → c.phase = .working ∨ (root.rpt id).state = .unused ∨
      (root.rpt id).state = .normal ∨ (root.rpt id).state = .drop)
      (hopen : (root.rpt id).state = .rollback ∨ (root.rpt id).state = .commit → ∃ n,
        env.cacheState n (root.rpt id).transaction ≠ .committed ∧
        env.cacheState n (root.rpt id).transaction ≠ .dead) : Passed c env root trees id .skip root trees
  | normal (h : (root.rpt id).state = .rollback ∧ ((root.rpt id).transaction = c.transaction → c.phase = .committed) ∨
      (root.rpt id).state = .commit ∧ ((root.rpt id).transaction = c.transaction → c.phase = .rolledBack)) :
      Passed c env root trees id .modified (root.setSlot id (root.rpt id).setNormal.slot) trees
  | drop (next : Nat) (hnext : next ≠ c.transaction) (hstate : (root.rpt id).state = .commit)
      (h : (root.rpt id).transaction = c.transaction → c.phase = .committed) :
      Passed c env root trees id .relock (root.setSlot id ((root.rpt id).setDrop next).slot) trees
  | delete (hid : id < root.count)
      (h : ((root.rpt id).state = .inProgress ∨ (root.rpt id).state = .concurrently ∨ (root.rpt id).state = .kill) ∧
          ((root.rpt id).transaction = c.transaction → c.phase ≠ .working) ∨
        (root.rpt id).state = .rollback ∧ ((root.rpt id).transaction = c.transaction → c.phase = .rolledBack) ∨
        (root.rpt id).state = .drop) :
      Passed c env root trees id .deleted (root.setSlot id (root.rpt id).setEmpty)
        ((root.rpt id).getRootPage.toList.map .deleted ++ trees)
  | takeBack (original copy : PageNumber) (back : Nat) (hfate : c.fate id = .migrated original copy back)
      (hstate : (root.rpt id).state = .migrate) (hphase : c.phase = .rolledBack) :
      Passed c env root trees id .relock (takenBack root id back original) (.deleted copy :: trees)

theorem Foreign.setNormal (h : Foreign c.transaction rpt) (hc : c.transaction ≠ 0)
    (hstate : rpt.state = .rollback ∨ rpt.state = .commit) : Foreign c.transaction rpt.setNormal.slot where
  other _ := hc.symm
  root _ := h.root (by grind)
  creator := nofun

theorem changes_same (h : rpt.getRootPage = (root.rpt id).getRootPage) (hused : rpt.state ≠ .unused)
    (hused' : (root.rpt id).state ≠ .unused) : Changes root trees id rpt trees := by
  refine ⟨.inl ⟨?_, rfl⟩⟩
  unfold IrtRepeat.usedTree IrtRepeat.isUsed
  rw [h, decide_eq_true hused, decide_eq_true hused']

theorem changes_empty (hused : (root.rpt id).state ≠ .unused) :
    Changes root trees id (root.rpt id).setEmpty ((root.rpt id).getRootPage.toList.map .deleted ++ trees) := by
  refine ⟨.inr ⟨usedTree_of_unused rfl, ?_⟩⟩
  unfold IrtRepeat.usedTree IrtRepeat.isUsed
  rw [decide_eq_true hused, if_pos rfl]

def Settled (c : Ctx) (id : Nat) (rpt : IrtRepeat) : Prop :=
  c.fate id = .untouched ∧ Untouched c id rpt ∨ Resolved c id rpt

theorem Settled.slot (h : Settled c id rpt) : Pending c id rpt ∨ Resolved c id rpt := by
  rcases h with h | h
  · left
    unfold Pending
    rw [h.1]
    exact h.2
  · exact .inr h

theorem Settled.resolved (h : Settled c id rpt) (hphase : c.phase ≠ .working) : Resolved c id rpt := by
  rcases h with h | h
  · unfold Resolved
    rw [h.1]
    cases hp : c.phase with
    | working => exact absurd hp hphase
    | committed | rolledBack => exact h.2
  · exact h

theorem settled_normal (h : Inv c root trees)
    (hend : (root.rpt id).state = .rollback ∧ ((root.rpt id).transaction = c.transaction → c.phase = .committed) ∨
      (root.rpt id).state = .commit ∧ ((root.rpt id).transaction = c.transaction → c.phase = .rolledBack)) :
    Settled c id (root.rpt id).setNormal.slot ∧ (c.fate id).linked = false := by
  have hroot : (root.rpt id).setNormal.slot.getRootPage = (root.rpt id).getRootPage := rfl
  have hstate : (root.rpt id).setNormal.slot.state = .normal := rfl
  rcases h.untouched_or_own id with hfree | hown
  · have hne : (c.start.rpt id).state ≠ .normal := by grind [Untouched, IrtRepeat.Is]
    exact ⟨.inl ⟨hfree.1, fun hnormal => absurd hnormal hne, hfree.2.foreign.setNormal h.transaction (by grind),
      nofun⟩, by rw [hfree.1]; rfl⟩
  · unfold Settled Resolved
    unfold Own at hown
    grind [Fate.linked, IrtRepeat.Is]

theorem settled_drop {next : Nat} (h : Inv c root trees) (hnext : next ≠ c.transaction)
    (hstate : (root.rpt id).state = .commit)
    (hend : (root.rpt id).transaction = c.transaction → c.phase = .committed) :
    Settled c id ((root.rpt id).setDrop next).slot ∧ (c.fate id).linked = false := by
  have hroot : ((root.rpt id).setDrop next).slot.getRootPage = (root.rpt id).getRootPage := rfl
  have hstate : ((root.rpt id).setDrop next).slot.state = .drop := rfl
  have hnumber : ((root.rpt id).setDrop next).slot.transaction = next := rfl
  rcases h.untouched_or_own id with hfree | hown
  · have hne : (c.start.rpt id).state ≠ .normal := by grind [Untouched, IrtRepeat.Is]
    exact ⟨.inl ⟨hfree.1, fun hnormal => absurd hnormal hne, by constructor <;> grind, by exact nofun⟩,
      by rw [hfree.1]; rfl⟩
  · unfold Settled Resolved
    unfold Own at hown
    grind [Fate.linked, IrtRepeat.Is]

theorem settled_empty (h : Inv c root trees) (hback : ¬ BackPending c root id)
    (hend : ((root.rpt id).state = .inProgress ∨ (root.rpt id).state = .concurrently ∨ (root.rpt id).state = .kill) ∧
          ((root.rpt id).transaction = c.transaction → c.phase ≠ .working) ∨
        (root.rpt id).state = .rollback ∧ ((root.rpt id).transaction = c.transaction → c.phase = .rolledBack) ∨
        (root.rpt id).state = .drop) : Settled c id (root.rpt id).setEmpty ∧ (c.fate id).linked = false := by
  have hstate : (root.rpt id).setEmpty.state = .unused := rfl
  rcases h.untouched_or_own id with hfree | hown
  · have hne : (c.start.rpt id).state ≠ .normal := by grind [Untouched, IrtRepeat.Is]
    exact ⟨.inl ⟨hfree.1, fun hnormal => absurd hnormal hne, by constructor <;> grind, by exact nofun⟩,
      by rw [hfree.1]; rfl⟩
  · unfold Settled Resolved
    unfold Own at hown
    unfold BackPending at hback
    cases hphase : c.phase <;> grind [Fate.linked, IrtRepeat.Is]

theorem getRootPage_eq_some {tree : PageNumber} (h : rpt.getRootPage = some tree) :
    tree.pageNum ≠ 0 ∧ tree.pageSpaceId ≠ 0 := by
  unfold IrtRepeat.getRootPage at h
  split at h
  case isTrue hne =>
    obtain rfl := Option.some.inj h
    exact hne
  case isFalse => exact nomatch h

theorem usedTree_eq (hused : rpt.state ≠ .unused) : rpt.usedTree = rpt.getRootPage := by
  unfold IrtRepeat.usedTree IrtRepeat.isUsed
  rw [decide_eq_true hused, if_pos rfl]

structure Migration (c : Ctx) (root : IndexRootPage) (id back : Nat) (original copy : PageNumber) : Prop where
  fateBack : c.fate back = .backOf original id
  ne : back ≠ id
  lt : id < root.count
  ltBack : back < root.count
  copy : (root.rpt id).getRootPage = some copy
  transaction : (root.rpt id).transaction = c.transaction
  backslot : (root.rpt id).backslot = back
  state : (root.rpt back).state = .inProgress
  original : (root.rpt back).getRootPage = some original
  transactionBack : (root.rpt back).transaction = c.transaction

section
variable (h : Inv c root trees) {original copy : PageNumber} {back : Nat}
  (hfate : c.fate id = .migrated original copy back) (hstate : (root.rpt id).state = .migrate)
include h hfate hstate

theorem Inv.migration :
    Migration c root id back original copy := by
  obtain ⟨hback, -, hstates⟩ := h.back id original copy back hfate
  have hown := h.untouched_or_own id
  have hown' := h.untouched_or_own back
  unfold Own at hown hown'
  have hlt := @Inv.lt_of_used c root trees id h (by grind)
  have hlt' := @Inv.lt_of_used c root trees back h (by grind)
  constructor <;> grind [Untouched]

theorem Inv.takeBack (hphase : c.phase = .rolledBack) :
    Inv c (takenBack root id back original) (.deleted copy :: trees) ∧
    Resolved c id ((takenBack root id back original).rpt id) := by
  have hm := h.migration hfate hstate
  have hlt := hm.lt.trans root.count_lt
  have hltBack := hm.ltBack.trans root.count_lt
  have hid : (takenBack root id back original).rpt id = ((root.rpt id).setNormalRoot original).slot := by
    rw [takenBack, IndexRootPage.setSlot_of_ne _ hm.ne.symm, IndexRootPage.setSlot_self]
  have hback : (takenBack root id back original).rpt back = (root.rpt back).setEmpty := IndexRootPage.setSlot_self ..
  have hother : ∀ n, n ≠ id → n ≠ back → (takenBack root id back original).rpt n = root.rpt n := by
    intro n hn hn'
    rw [takenBack, IndexRootPage.setSlot_of_ne _ hn', IndexRootPage.setSlot_of_ne _ hn]
  have hroot : ((root.rpt id).setNormalRoot original).slot.getRootPage = some original :=
    if_pos (getRootPage_eq_some hm.original)
  have hresolved : Resolved c id ((root.rpt id).setNormalRoot original).slot := by
    unfold Resolved
    rw [hphase, hfate]
    exact ⟨rfl, hroot⟩
  have hresolvedBack : Resolved c back (root.rpt back).setEmpty := by
    unfold Resolved
    rw [hphase, hm.fateBack]
    rfl
  have hrefs : ∀ tree, (takenBack root id back original).refs tree + (decide (copy = tree)).toNat = root.refs tree := by
    intro tree
    have hfirst := @refs_setSlot root id ((root.rpt id).setNormalRoot original).slot hlt tree
    have hsecond := @refs_setSlot (root.setSlot id ((root.rpt id).setNormalRoot original).slot) back
      (root.rpt back).setEmpty hltBack tree
    rw [IndexRootPage.setSlot_of_ne _ hm.ne] at hsecond
    have husedBack : (root.rpt back).usedTree = some original :=
      (usedTree_eq (by rw [hm.state]; exact nofun)).trans hm.original
    have hused : (root.rpt id).usedTree = some copy := (usedTree_eq (by rw [hstate]; exact nofun)).trans hm.copy
    have husedNew : ((root.rpt id).setNormalRoot original).slot.usedTree = some original :=
      (usedTree_eq (show IrtState.normal ≠ .unused from nofun)).trans hroot
    have hempty : (root.rpt back).setEmpty.usedTree = none := usedTree_of_unused rfl
    rw [husedBack, hempty] at hsecond
    rw [hused, husedNew] at hfirst
    simp only [Option.some.injEq, reduceCtorEq, decide_false, Bool.toNat_false, add_zero] at hfirst hsecond
    rw [takenBack]
    omega
  refine ⟨⟨h.transaction, fun n hn => ?_, fun n => ?_, fun n hn => ?_, fun n original' copy' b hn => ?_, h.forth,
    h.origin, h.whole, fun tree => ?_, fun tree => ?_⟩, hid ▸ hresolved⟩
  · have hn' : root.count ≤ n := hn
    rw [hother n (Nat.ne_of_gt (hm.lt.trans_le hn')) (Nat.ne_of_gt (hm.ltBack.trans_le hn'))]
    exact h.behind n hn'
  · by_cases hn : n = id
    · subst hn
      exact .inr (hid ▸ hresolved)
    · by_cases hn' : n = back
      · subst hn'
        exact .inr (hback ▸ hresolvedBack)
      · rw [hother n hn hn']
        exact h.slots n
  · by_cases heq : n = id
    · subst heq
      exact hid ▸ hresolved
    · by_cases heq' : n = back
      · subst heq'
        exact hback ▸ hresolvedBack
      · rw [hother n heq heq']
        exact h.visited n hn
  · obtain ⟨hfate', hphase', hstates⟩ := h.back n original' copy' b hn
    refine ⟨hfate', hphase', ?_⟩
    have hnb : n ≠ back := fun heq => by rw [heq, hm.fateBack] at hn; exact nomatch hn
    have hbi : b ≠ id := fun heq => by rw [heq, hfate] at hfate'; exact nomatch hfate'
    by_cases heq : n = id
    · subst heq
      obtain rfl : back = b := by
        rw [hfate] at hn
        injection hn
      rw [hid, hback]
      exact ⟨nofun, nofun⟩
    · have hbb : b ≠ back := fun heq' => by
        rw [heq', hm.fateBack] at hfate'
        injection hfate' with _ hof
        exact heq hof.symm
      rw [hother n heq hnb, hother b hbi hbb]
      exact hstates
  · exact (Nat.le.intro (hrefs tree)).trans (h.single tree)
  · have hcount := hrefs tree
    have hledger := h.ledger tree
    rw [List.count_cons_of_ne (show TreeEvent.deleted copy ≠ .built tree from nofun), count_deleted_cons]
    omega

end

theorem Passed.inv {value : ModifyIrtRepeatValue} (hp : Passed c env root trees id value root' trees')
    (h : Inv c root trees)
    (hback : ¬ BackPending c root id) : Inv c root' trees' ∧ (c.phase ≠ .working → Resolved c id (root'.rpt id)) := by
  have change : ∀ {rpt : IrtRepeat} {trees' : List TreeEvent}, (root.rpt id).state ≠ .unused →
      Changes root trees id rpt trees' → Settled c id rpt ∧ (c.fate id).linked = false →
      Inv c (root.setSlot id rpt) trees' ∧
        (c.phase ≠ .working → Resolved c id ((root.setSlot id rpt).rpt id)) := by
    intro rpt trees' hused hchanges hsettled
    have hvisited : c.visited id = true → Resolved c id rpt := fun hv => by
      refine hsettled.1.resolved fun hphase => ?_
      have hr := h.visited id hv
      unfold Resolved at hr
      rw [hphase] at hr
      exact hr
    rw [IndexRootPage.setSlot_self]
    exact ⟨h.change (h.lt_of_used hused) hchanges hsettled.2 hsettled.1.slot hvisited, hsettled.1.resolved⟩
  cases hp with
  | skip hskip hopen =>
    refine ⟨h, fun hphase => ?_⟩
    rcases h.slots id with hpending | hresolved
    · unfold Pending at hpending
      unfold Resolved
      cases hfate : c.fate id <;> cases hp : c.phase <;> simp only [hfate] at hpending <;> grind [IrtRepeat.Is]
    · exact hresolved
  | normal hend =>
    refine change (by grind) (changes_same rfl nofun (by grind)) (settled_normal h hend)
  | drop next hnext hstate hend =>
    exact change (by grind) (changes_same rfl nofun (by grind)) (settled_drop h hnext hstate hend)
  | delete hid hend => exact change (by grind) (changes_empty (by grind)) (settled_empty h hback hend)
  | takeBack original copy back hfate hstate hphase =>
    obtain ⟨hinv, hr⟩ := h.takeBack hfate hstate hphase
    exact ⟨hinv, fun _ => hr⟩

end Firebird.Btr
