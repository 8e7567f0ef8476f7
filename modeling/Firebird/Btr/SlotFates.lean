import Firebird.Btr.RootPage
import Firebird.Lib.Count

/-! # What a transaction does to index slots

A slot a transaction works on has a fate, set by its last operation there. -/

namespace Firebird.Btr

open IndexRootPage List Function
open Tpc (TraState)

/-- What the last operation of the transaction on a slot was, with the roots of the trees. -/
inductive Fate where
  | untouched
  /-- Reserved by `BTR_reserve_slot` for a tree that is to be built. -/
  | reserved
  | created (tree : PageNumber)
  /-- Created, and marked for deletion afterwards. -/
  | killed (tree : PageNumber)
  | marked (root : PageNumber)
  /-- Marked for deletion, and activated afterwards. -/
  | kept (root : PageNumber)
  | migrated (original copy : PageNumber) (back : Nat)
  /-- Keeps the original tree of a migrated index. -/
  | backOf (original : PageNumber) (id : Nat)
  /-- Kept the original tree of an index that was marked for deletion while it was migrated. -/
  | orphan (original : PageNumber)
  deriving DecidableEq

inductive Phase where
  | working | committed | rolledBack
  deriving DecidableEq

def Phase.state : Phase → TraState
  | .working => .active
  | .committed => .committed
  | .rolledBack => .dead

/-- A transaction with what it has done, and the page it started from. -/
structure Ctx where
  transaction : Nat
  phase : Phase
  start : IndexRootPage
  fate : Nat → Fate
  /-- The slots that a pass has looked at since the transaction ended. -/
  visited : Nat → Bool

variable {c : Ctx} {root : IndexRootPage} {trees trees' : List TreeEvent} {id : Nat} {rpt : IrtRepeat}

structure IrtRepeat.Is (rpt : IrtRepeat) (state : IrtState) (tree : Option PageNumber) : Prop where
  state : rpt.state = state
  root : rpt.getRootPage = tree

structure Foreign (transaction : Nat) (rpt : IrtRepeat) : Prop where
  other : rpt.state ≠ .unused → rpt.transaction ≠ transaction
  root : rpt.state = .rollback ∨ rpt.state = .normal ∨ rpt.state = .commit → rpt.getRootPage.isSome
  creator : rpt.state = .rollback ∨ rpt.state = .commit → rpt.transaction ≠ 0

/-- The transaction has not worked on the slot; an index that was there before it is there still. -/
structure Untouched (c : Ctx) (id : Nat) (rpt : IrtRepeat) : Prop where
  start : (c.start.rpt id).state = .normal → rpt.Is .normal (c.start.rpt id).getRootPage
  foreign : Foreign c.transaction rpt
  migrating : rpt.state = .migrate → (c.start.rpt id).state = .migrate ∧ (c.start.rpt id).transaction = rpt.transaction

def Pending (c : Ctx) (id : Nat) (rpt : IrtRepeat) : Prop :=
  match c.fate id with
  | .untouched => Untouched c id rpt
  | .reserved => rpt.Is .inProgress none ∧ rpt.transaction = c.transaction ∧ rpt.noRootPage = true
  | .created tree => rpt.Is .rollback (some tree) ∧ rpt.transaction = c.transaction
  | .killed tree => rpt.Is .kill (some tree) ∧ rpt.transaction = c.transaction
  | .marked root => rpt.Is .commit (some root) ∧ rpt.transaction = c.transaction
  | .kept root => rpt.Is .normal (some root)
  | .migrated _ copy back => rpt.Is .migrate (some copy) ∧ rpt.transaction = c.transaction ∧ rpt.backslot = back
  | .backOf original _ | .orphan original => rpt.Is .inProgress (some original) ∧ rpt.transaction = c.transaction

def Resolved (c : Ctx) (id : Nat) (rpt : IrtRepeat) : Prop :=
  match c.phase, c.fate id with
  | .working, _ => False
  | _, .untouched => Untouched c id rpt
  | .rolledBack, .reserved | .rolledBack, .created _ | .rolledBack, .killed _ | .rolledBack, .backOf _ _
  | .rolledBack, .orphan _ => rpt.state = .unused
  | .rolledBack, .marked root | .rolledBack, .kept root | .rolledBack, .migrated root _ _ => rpt.Is .normal (some root)
  | .committed, .reserved | .committed, .killed _ => rpt.state = .unused
  | .committed, .created tree | .committed, .kept tree => rpt.Is .normal (some tree)
  | .committed, .marked root => rpt.Is .drop (some root) ∧ rpt.transaction ≠ c.transaction ∨ rpt.state = .unused
  | .committed, .migrated _ copy _ => rpt.Is .normal (some copy)
  | .committed, .backOf _ _ | .committed, .orphan _ => rpt.state = .unused

def IrtRepeat.usedTree (rpt : IrtRepeat) : Option PageNumber := if rpt.isUsed then rpt.getRootPage else none

def IndexRootPage.refs (root : IndexRootPage) (tree : PageNumber) : Nat :=
  Lib.count (fun rpt : IrtRepeat => rpt.usedTree = some tree) fun id : Fin (2 ^ 16) => root.rpt id

theorem IrtRepeat.Is.usedTree {state : IrtState} {tree : Option PageNumber} (h : rpt.Is state tree)
    (hused : state ≠ .unused) : rpt.usedTree = tree := by
  unfold IrtRepeat.usedTree IrtRepeat.isUsed
  rw [h.state, decide_eq_true hused, if_pos rfl, h.root]

theorem usedTree_of_unused (h : rpt.state = .unused) : rpt.usedTree = none := by
  unfold IrtRepeat.usedTree IrtRepeat.isUsed
  rw [h]
  rfl

theorem refs_setSlot (hid : id < 2 ^ 16) (tree : PageNumber) :
    (root.setSlot id rpt).refs tree + (decide ((root.rpt id).usedTree = some tree)).toNat =
      root.refs tree + (decide (rpt.usedTree = some tree)).toNat := by
  have hupdate : (fun n : Fin (2 ^ 16) => (root.setSlot id rpt).rpt n) =
      update (fun n : Fin (2 ^ 16) => root.rpt n) ⟨id, hid⟩ rpt := by
    funext n
    by_cases hn : n = ⟨id, hid⟩
    · subst hn
      rw [update_self]
      exact setSlot_self ..
    · rw [update_of_ne hn]
      exact setSlot_of_ne _ fun heq => hn (Fin.ext heq)
  unfold IndexRootPage.refs
  rw [hupdate]
  exact Lib.count_update ..

theorem refs_setSlot_same (hid : id < 2 ^ 16) (h : rpt.usedTree = (root.rpt id).usedTree) (tree : PageNumber) :
    (root.setSlot id rpt).refs tree = root.refs tree := by
  have hrefs := @refs_setSlot root id rpt hid tree
  rw [h] at hrefs
  exact Nat.add_right_cancel hrefs

theorem count_deleted_cons (own tree : PageNumber) :
    (TreeEvent.deleted own :: trees).count (.deleted tree) = trees.count (.deleted tree) +
    (decide (own = tree)).toNat := by
  by_cases heq : own = tree
  · rw [heq, count_cons_self, decide_eq_true rfl, Bool.toNat_true]
  · rw [count_cons_of_ne fun h => heq (TreeEvent.deleted.inj h), decide_eq_false heq, Bool.toNat_false, Nat.add_zero]

theorem count_built_cons (own tree : PageNumber) :
    (TreeEvent.built own :: trees).count (.built tree) = trees.count (.built tree) + (decide (own = tree)).toNat := by
  by_cases heq : own = tree
  · rw [heq, count_cons_self, decide_eq_true rfl, Bool.toNat_true]
  · rw [count_cons_of_ne fun h => heq (TreeEvent.built.inj h), decide_eq_false heq, Bool.toNat_false, Nat.add_zero]

/-- The index that was there before the transaction would get this root back. -/
def Fate.Keeps (fate : Fate) (root : Option PageNumber) : Prop :=
  match fate with
  | .untouched => True
  | .marked tree | .kept tree | .migrated tree _ _ => some tree = root
  | .reserved | .created _ | .killed _ | .backOf _ _ | .orphan _ => False

def Ctx.NoOrphan (c : Ctx) : Prop := ∀ id original, c.fate id ≠ .orphan original

structure Inv (c : Ctx) (root : IndexRootPage) (trees : List TreeEvent) : Prop where
  transaction : c.transaction ≠ 0
  behind : ∀ id, root.count ≤ id → (root.rpt id).state = .unused ∧ c.fate id = .untouched
  slots : ∀ id, Pending c id (root.rpt id) ∨ Resolved c id (root.rpt id)
  visited : ∀ id, c.visited id = true → Resolved c id (root.rpt id)
  back : ∀ id original copy b, c.fate id = .migrated original copy b → c.fate b = .backOf original id ∧
    c.phase ≠ .committed ∧ ((root.rpt id).state = .migrate ↔ (root.rpt b).state = .inProgress)
  forth : ∀ b original id, c.fate b = .backOf original id → ∃ copy, c.fate id = .migrated original copy b
  origin : c.NoOrphan → ∀ id, (c.start.rpt id).state = .normal → (c.fate id).Keeps (c.start.rpt id).getRootPage
  whole : c.phase = .rolledBack → c.NoOrphan
  single : ∀ tree, root.refs tree ≤ 1
  ledger : ∀ tree, trees.count (.built tree) + c.start.refs tree = root.refs tree + trees.count (.deleted tree)

def Fate.linked : Fate → Bool
  | .migrated _ _ _ | .backOf _ _ => true
  | _ => false

theorem Inv.lt_of_used (h : Inv c root trees) (hused : (root.rpt id).state ≠ .unused) : id < root.count :=
  Nat.lt_of_not_le fun hle => hused (h.behind id hle).1

structure Changes (root : IndexRootPage) (trees : List TreeEvent) (id : Nat) (rpt : IrtRepeat)
    (trees' : List TreeEvent) : Prop where
  trees : rpt.usedTree = (root.rpt id).usedTree ∧ trees' = trees ∨
    rpt.usedTree = none ∧ trees' = (root.rpt id).usedTree.toList.map .deleted ++ trees

theorem Changes.built (h : Changes root trees id rpt trees') (tree : PageNumber) :
    trees'.count (.built tree) = trees.count (.built tree) := by
  rcases h.trees with ⟨-, rfl⟩ | ⟨-, rfl⟩
  · rfl
  · cases (root.rpt id).usedTree with
    | none => rfl
    | some own => exact count_cons_of_ne (show TreeEvent.deleted own ≠ .built tree from nofun)

theorem Changes.refs (h : Changes root trees id rpt trees') (hid : id < 2 ^ 16) (tree : PageNumber) :
    (root.setSlot id rpt).refs tree + trees'.count (.deleted tree) = root.refs tree + trees.count (.deleted tree) := by
  have hrefs := @refs_setSlot root id rpt hid tree
  rcases h.trees with ⟨hsame, rfl⟩ | ⟨hnone, rfl⟩
  · rw [refs_setSlot_same hid hsame]
  · rw [hnone] at hrefs
    simp only [reduceCtorEq, decide_false, Bool.toNat_false, add_zero] at hrefs
    cases htree : (root.rpt id).usedTree with
    | none =>
      simp only [htree, reduceCtorEq, decide_false, Bool.toNat_false, add_zero] at hrefs
      rw [Option.toList_none, map_nil, nil_append, hrefs]
    | some own =>
      rw [htree] at hrefs
      simp only [Option.some.injEq] at hrefs
      rw [Option.toList_some, map_cons, map_nil, cons_append, nil_append, count_deleted_cons]
      omega

theorem Changes.refs_le (h : Changes root trees id rpt trees') (hid : id < 2 ^ 16) (tree : PageNumber) :
    (root.setSlot id rpt).refs tree ≤ root.refs tree := by
  have hrefs := @refs_setSlot root id rpt hid tree
  rcases h.trees with ⟨hsame, -⟩ | ⟨hnone, -⟩
  · exact Nat.le_of_eq (refs_setSlot_same hid hsame tree)
  · rw [hnone] at hrefs
    simp only [reduceCtorEq, decide_false, Bool.toNat_false, add_zero] at hrefs
    exact Nat.le.intro hrefs

theorem Inv.change {trees' : List TreeEvent} (h : Inv c root trees) (hid : id < root.count)
    (hchange : Changes root trees id rpt trees') (hlinked : (c.fate id).linked = false)
    (hslot : Pending c id rpt ∨ Resolved c id rpt) (hvisited : c.visited id = true → Resolved c id rpt) :
    Inv c (root.setSlot id rpt) trees' := by
  have hlt : id < 2 ^ 16 := hid.trans root.count_lt
  refine ⟨h.transaction, fun n hn => ?_, fun n => ?_, fun n hn => ?_, fun n original copy b hn => ?_, h.forth, h.origin,
    h.whole, fun tree => ?_, fun tree => ?_⟩
  · have hne : n ≠ id := fun heq => absurd hn (Nat.not_le.mpr (heq ▸ hid))
    rw [setSlot_of_ne _ hne]
    exact h.behind n hn
  · by_cases hne : n = id
    · subst hne
      rw [setSlot_self]
      exact hslot
    · rw [setSlot_of_ne _ hne]
      exact h.slots n
  · by_cases hne : n = id
    · subst hne
      rw [setSlot_self]
      exact hvisited hn
    · rw [setSlot_of_ne _ hne]
      exact h.visited n hn
  · obtain ⟨hback, hphase, hstates⟩ := h.back n original copy b hn
    have hne : n ≠ id := fun heq => by rw [← heq, hn] at hlinked; exact nomatch hlinked
    have hne' : b ≠ id := fun heq => by rw [← heq, hback] at hlinked; exact nomatch hlinked
    rw [setSlot_of_ne _ hne, setSlot_of_ne _ hne']
    exact ⟨hback, hphase, hstates⟩
  · exact (hchange.refs_le hlt tree).trans (h.single tree)
  · rw [hchange.built, h.ledger tree, hchange.refs hlt tree]

end Firebird.Btr
