import Firebird.Tree.AddItem

/-! # Memory runs out -/

namespace Firebird.Tree.BePlusTree

open Function Lib List

variable {V K : Type} {T : Template V K} {t t' : BePlusTree V} {rows : Nat → List PageId} {A B : List PageId}
  {h k : Nat} {m n p q : PageId} {els : List V} {recoveryMap : Nat → Option Nat} {item : V}

/-- The pages that can be come to from the root over any pointers, with the levels they stand on. -/
inductive InTree (t : BePlusTree V) : Nat → PageId → Prop
  | root (r : PageId) : t.root = some r → InTree t t.level r
  | child (h : Nat) (p c : PageId) : InTree t (h + 1) p → c ∈ t.nodes p → InTree t h c
  | parent (h : Nat) (p q : PageId) : InTree t h p → t.parent p = some q → InTree t (h + 1) q
  | next (h : Nat) (p q : PageId) : InTree t h p → t.next p = some q → InTree t h q
  | prev (h : Nat) (p q : PageId) : InTree t h p → t.prev p = some q → InTree t h q

def RefersTo (t : BePlusTree V) (h : Nat) (p q : PageId) : Prop :=
  t.next p = some q ∨ t.prev p = some q ∨ t.parent p = some q ∨ 0 < h ∧ q ∈ t.nodes p

/-- No page that remains linked refers to a released one. -/
def NoneDangling (t : BePlusTree V) : Prop :=
  ∀ h p q, t.InTree h p → t.RefersTo h p q → q ∉ t.released

/-- The items that `step` comes to from a position, one after the other, over pages that were not released. -/
inductive Walk [Inhabited V] (step : Position → Bool × Position) (t : BePlusTree V) : Position → List V → Prop
  | last (at_ : Position) : (∀ p, at_.curr = some p → p ∉ t.released) → (step at_).1 = false →
      Walk step t at_ [t.itemAt at_]
  | step (at_ : Position) (els : List V) : (∀ p, at_.curr = some p → p ∉ t.released) → (step at_).1 = true →
      Walk step t (step at_).2 els → Walk step t at_ (t.itemAt at_ :: els)

def Forwards [Inhabited V] (t : BePlusTree V) (els : List V) : Prop :=
  if (t.getFirst t.defaultAccessor).1 then Walk t.getNext t (t.getFirst t.defaultAccessor).2 els else els = []

def Backwards [Inhabited V] (t : BePlusTree V) (els : List V) : Prop :=
  if (t.getLast t.defaultAccessor).1 then Walk t.getPrev t (t.getLast t.defaultAccessor).2 els else els = []

structure LeftAsBefore [Inhabited V] (t t' : BePlusTree V) : Prop where
  forwards : ∀ els, t'.Forwards els ↔ t.Forwards els
  backwards : ∀ els, t'.Backwards els ↔ t.Backwards els
  noneDangling : t'.NoneDangling

theorem Shape.mem_row (hs : t.Shape T rows) (hp : t.InTree h p) : h ≤ t.level ∧ p ∈ rows h := by
  induction hp with
  | root r hr =>
    obtain ⟨r', hr', -, htop⟩ := hs.top
    cases hr.symm.trans hr'
    exact ⟨Nat.le_refl _, htop ▸ .head []⟩
  | child h p c _ hc ih =>
    exact ⟨Nat.le_of_succ_le ih.1, (hs.storey h ih.1).holds ▸ mem_flatMap.mpr ⟨p, ih.2, hc⟩⟩
  | parent h p q _ hq ih =>
    rcases ih.1.eq_or_lt with rfl | hlt
    · obtain ⟨r, -, hrp, htop⟩ := hs.top
      have hpr := ih.2
      rw [htop, mem_singleton] at hpr
      rw [hpr, hrp] at hq
      exact nomatch hq
    · have hs' := hs.storey h hlt
      have hmem := ih.2
      rw [← hs'.holds] at hmem
      obtain ⟨x, hx, hpx⟩ := mem_flatMap.mp hmem
      cases hq.symm.trans (hs'.parent x hx p hpx)
      exact ⟨hlt, hx⟩
  | next h p q _ hq ih => exact ⟨ih.1, (hs.row h ih.1).mem_next ih.2 hq⟩
  | prev h p q _ hq ih => exact ⟨ih.1, (hs.row h ih.1).mem_prev ih.2 hq⟩

theorem InTree.refers (hp : t.InTree h p) (hq : t.RefersTo h p q) : ∃ k, t.InTree k q := by
  rcases hq with hq | hq | hq | ⟨hpos, hq⟩
  · exact ⟨h, .next h p q hp hq⟩
  · exact ⟨h, .prev h p q hp hq⟩
  · exact ⟨h + 1, .parent h p q hp hq⟩
  · obtain ⟨k, rfl⟩ := Nat.exists_eq_succ_of_ne_zero hpos.ne'
    exact ⟨k, .child k p q hp hq⟩

theorem Shape.noneDangling (hs : t.Shape T rows) : t.NoneDangling := by
  intro h p q hp hq
  obtain ⟨k, hk⟩ := hp.refers hq
  obtain ⟨hle, hmem⟩ := hs.mem_row hk
  exact (hs.row k hle).live q hmem

theorem Holds.noneDangling [LinearOrder K] (hh : t.Holds T els) : t.NoneDangling := by
  rcases hh with ⟨hr, -, -, -⟩ | ⟨rows, hs, -⟩
  · intro h p q hp
    have hnone : ∀ h p, ¬t.InTree h p := by
      induction hp with
      | root r hr' => exact nomatch hr.symm.trans hr'
      | child _ _ _ _ _ ih | parent _ _ _ _ _ ih | next _ _ _ _ _ ih | prev _ _ _ _ _ ih => exact ih
    exact absurd hp (hnone h p)
  · exact hs.noneDangling

variable [Inhabited V]

theorem recover_next : (t.recover recoveryMap h n).next = t.next := by
  induction h generalizing t n with
  | zero =>
    unfold recover
    split <;> rfl
  | succ h ih =>
    unfold recover
    split
    · exact ih
    · exact ih

theorem recover_root : (t.recover recoveryMap h n).root = t.root ∧ (t.recover recoveryMap h n).level = t.level := by
  induction h generalizing t n with
  | zero =>
    unfold recover
    split <;> exact ⟨rfl, rfl⟩
  | succ h ih =>
    unfold recover
    split
    · exact ih
    · exact ih

theorem recover_released : n ∈ (t.recover recoveryMap h n).released ∧
    ∀ p ∈ t.released, p ∈ (t.recover recoveryMap h n).released := by
  induction h generalizing t n with
  | zero =>
    unfold recover
    split <;> exact ⟨.head _, fun p hp => .tail n hp⟩
  | succ h ih =>
    unfold recover
    split
    all_goals exact ⟨ih.2 n (.head _), fun p hp => ih.2 p (.tail n hp)⟩

theorem recover_nodes (hundo : t.Undoable rows recoveryMap h n)
    (hapart : ∀ k ≤ h, ∀ l ≤ h, ∀ p, p ∈ rows k → p ∈ rows l → k = l) (hp : ∀ k ≤ h, p ∉ rows k) :
    (t.recover recoveryMap h n).nodes p = t.nodes p := by
  induction h generalizing t n with
  | zero =>
    unfold recover
    split <;> rfl
  | succ h ih =>
    obtain ⟨-, m, hm, hnm, hlow⟩ := hundo
    have hapart' : ∀ k ≤ h, ∀ l ≤ h, ∀ p, p ∈ rows k → p ∈ rows l → k = l := fun k hk l hl =>
      hapart k (Nat.le_succ_of_le hk) l (Nat.le_succ_of_le hl)
    have hp' : ∀ k ≤ h, p ∉ rows k := fun k hk => hp k (Nat.le_succ_of_le hk)
    unfold recover
    rw [hnm]
    cases hmap : recoveryMap (h + 1) with
    | none =>
      rw [hmap] at hlow
      exact ih (hlow.congr (fun _ _ _ hq => hq) (fun _ _ _ _ => rfl) (fun _ _ _ _ => rfl) fun _ _ => rfl) hapart' hp'
    | some pos =>
      rw [hmap] at hlow
      have hrest : (((t.setNodes m ((t.nodes m).eraseIdx pos ++ [(t.nodes n).headD 0])).setNodeParent
          ((t.nodes n).headD 0) (some m)).release n).Undoable rows recoveryMap h ((t.nodes m).getD pos 0) := by
        refine hlow.congr (fun _ _ _ hq => hq) (fun _ _ _ _ => rfl) (fun k hk q hq => update_of_ne ?_ _ _)
          fun _ _ => rfl
        rintro rfl
        have := hapart k (Nat.le_succ_of_le hk) (h + 1) (Nat.le_refl _) q hq hm
        omega
      refine (ih hrest hapart' hp').trans (update_of_ne ?_ _ _)
      rintro rfl
      exact hp (h + 1) (Nat.le_refl _) hm

omit [Inhabited V] in
theorem Pending.inTree (hp : Pending T t rows h A m n B) (hroot : t'.root = t.root) (hlevel : t'.level = t.level)
    (hnodes : ∀ k, h < k → k ≤ t.level → ∀ p ∈ rows k, t'.nodes p = t.nodes p) : t'.InTree h m := by
  obtain ⟨r, hr, -, htop, htop'⟩ := hp.top
  have hrIn : t'.InTree t.level r := hlevel ▸ .root r (hroot.trans hr)
  have habove : ∀ d k, k + d = t.level → h < k → ∀ p ∈ rows k, t'.InTree k p := by
    intro d
    induction d with
    | zero =>
      intro k hk hlt p hpk
      obtain rfl : k = t.level := hk
      rw [htop hlt, mem_singleton] at hpk
      exact hpk ▸ hrIn
    | succ d ih =>
      intro k hk hlt p hpk
      have hs := hp.above k hlt (by omega)
      rw [← hs.holds] at hpk
      obtain ⟨x, hx, hpx⟩ := mem_flatMap.mp hpk
      refine .child k x p (ih (k + 1) (by omega) (by omega) x hx) ?_
      rwa [hnodes (k + 1) (by omega) (by omega) x hx]
  rcases hp.le.eq_or_lt with heq | hlt
  · obtain ⟨-, rfl, -⟩ := htop' heq
    exact heq ▸ hrIn
  · have hs := hp.here hlt
    have hm : m ∈ A ++ m :: B := mem_append_right A (.head B)
    rw [← hs.holds] at hm
    obtain ⟨x, hx, hmx⟩ := mem_flatMap.mp hm
    refine .child h x m (habove (t.level - (h + 1)) (h + 1) (by omega) (Nat.lt_succ_self h) x hx) ?_
    rwa [hnodes (h + 1) (Nat.lt_succ_self h) hlt x hx]

theorem Pending.dangling (hp : Pending T t rows h A m n B) (hundo : t.Undoable rows recoveryMap h n) :
    ¬(t.recover recoveryMap h n).NoneDangling := by
  intro hnone
  have hle := hp.le
  have hIn : (t.recover recoveryMap h n).InTree h m := by
    refine hp.inTree recover_root.1 recover_root.2 fun k hlt hk p hpk => ?_
    refine recover_nodes hundo (fun k hk l hl => hp.apart k (hk.trans hle) l (hl.trans hle)) fun l hl hpl => ?_
    have := hp.apart k hk l (hl.trans hle) p hpk hpl
    omega
  refine hnone h m n hIn (.inl ?_) recover_released.1
  rw [recover_next]
  exact (hp.split ▸ (hp.row h hle).linked).next_eq

def words : Template Nat Nat := ⟨id, 100, 375, by decide, by decide⟩

def fullPage : BePlusTree Nat :=
  BePlusTree.setItems { (empty : BePlusTree Nat).newItemList none with root := some 0 } 0 (range 100)

theorem fullPage_holds : fullPage.Holds words (range 100) := by
  obtain ⟨hs, -⟩ := first_shape (T := words) (t := empty) rfl nofun rfl
  refine .inr ⟨_, hs.same ⟨rfl, rfl, rfl, rfl, rfl, rfl, rfl, rfl, rfl⟩, ?_, ?_, fun hpos => ?_, ?_⟩
  · exact flatMap_singleton _ _
  · exact forall_mem_singleton.mpr (Nat.le_refl 100)
  · exact absurd hpos (Nat.lt_irrefl 0)
  · exact pairwise_lt_range

theorem fullPage_add : (fullPage.add words 100 (some 1)).map Prod.fst = some .thrown := by decide +kernel

/-- When an allocation in `add` fails, the tree is left as before exactly if no page had been allocated yet. -/
theorem add_thrown_iff [LinearOrder K] (hh : t.Holds T els) {count : Nat}
    (hadd : t.add T item (some count) = some (.thrown, t')) : t.LeftAsBefore t' ↔ count = 0 := by
  obtain ⟨result, s, hadd', hspec⟩ := add_spec hh item (some count)
  cases hadd.symm.trans hadd'
  cases hspec with
  | noPage hcount =>
    exact iff_of_true ⟨fun _ => Iff.rfl, fun _ => Iff.rfl, hh.noneDangling⟩ (Option.some.inj hcount)
  | undone left s rows' h A m n B recoveryMap hcount hp hundo =>
    refine iff_of_false (fun hleft => hp.dangling hundo hleft.noneDangling) ?_
    rw [Option.some.inj hcount]
    exact Nat.succ_ne_zero left

theorem fullPage_add_thrown : ∃ t', fullPage.add words 100 (some 1) = some (.thrown, t') ∧
    (fullPage.LeftAsBefore t' ↔ 1 = 0) := by
  obtain ⟨result, t', hadd, -⟩ := add_spec fullPage_holds 100 (some 1)
  have hresult := fullPage_add
  rw [hadd] at hresult
  cases Option.some.inj hresult
  exact ⟨t', hadd, add_thrown_iff fullPage_holds hadd⟩

/-- The new leaf page is released when no new root can be had, and the old one still points at it. -/
theorem fullPage_not_leftAsBefore : ∃ t', fullPage.add words 100 (some 1) = some (.thrown, t') ∧
    ¬fullPage.LeftAsBefore t' := by
  obtain ⟨result, t', hadd, hspec⟩ := add_spec fullPage_holds 100 (some 1)
  have hresult := fullPage_add
  rw [hadd] at hresult
  cases Option.some.inj hresult
  refine ⟨t', hadd, fun hleft => ?_⟩
  cases hspec with
  | noPage hcount => exact nomatch hcount
  | undone _ s rows h A m n B recoveryMap _ hp hundo => exact hp.dangling hundo hleft.noneDangling

end Firebird.Tree.BePlusTree
