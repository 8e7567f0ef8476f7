import Firebird.Tree.Accessor

/-! # The shape of a tree

The pages of a tree form rows: the leaf pages, and above every row but the last the node pages that hold it. The last
row is the root alone. -/

namespace Firebird.Tree

open Function Lib List

variable {V K : Type} [Inhabited V] [LinearOrder K]

section Lists

variable {α β : Type} {f : α → List β} {row A B : List α} {C D : List β} {m : β} {p : α} {data : List β}

theorem flatMap_split (h : row.flatMap f = C ++ m :: D) :
    ∃ A p B E F, row = A ++ p :: B ∧ f p = E ++ m :: F ∧ C = A.flatMap f ++ E ∧ D = F ++ B.flatMap f := by
  induction row generalizing C with
  | nil => exact absurd h (by simp)
  | cons q row ih =>
    rw [flatMap_cons, append_eq_append_iff] at h
    rcases h with ⟨C', rfl, hrest⟩ | ⟨D', hq, hrest⟩
    · obtain ⟨A, p, B, E, F, rfl, hp, rfl, rfl⟩ := ih hrest
      exact ⟨q :: A, p, B, E, F, rfl, hp, by rw [flatMap_cons, append_assoc], rfl⟩
    · cases D' with
      | nil =>
        obtain ⟨A, p, B, E, F, rfl, hp, hC, rfl⟩ := ih (C := []) hrest.symm
        refine ⟨q :: A, p, B, E, F, rfl, hp, ?_, rfl⟩
        rw [append_nil] at hq
        rw [flatMap_cons, append_assoc, ← hC, append_nil, hq]
      | cons d D' =>
        obtain ⟨rfl, rfl⟩ := cons.inj hrest
        exact ⟨[], q, row, C, D', rfl, hq, rfl, rfl⟩

theorem firsts_sublist (d : β) (h : ∀ p ∈ row, f p ≠ []) :
    (row.map fun p => (f p).headD d).Sublist (row.flatMap f) := by
  induction row with
  | nil => exact .slnil
  | cons p row ih =>
    obtain ⟨b, l, hp⟩ := exists_cons_of_ne_nil (h p (.head row))
    rw [map_cons, flatMap_cons, hp]
    exact ((ih fun q hq => h q (.tail p hq)).trans (sublist_append_right l _)).cons_cons b

theorem flatMap_update_of_notMem [DecidableEq α] (h : p ∉ row) : row.flatMap (update f p data) = row.flatMap f := by
  refine flatMap_congr fun q hq => update_of_ne ?_ _ _
  rintro rfl
  exact h hq

theorem notMem_of_nodup (h : (A ++ p :: B).Nodup) : p ∉ A ∧ p ∉ B :=
  not_or.mp (mem_append.not.mp (nodup_cons.mp (nodup_middle.mp h)).1)

theorem update_of_notMem [DecidableEq α] {f : α → β} {q : α} {b : β} (hp : p ∈ row) (hq : q ∉ row) :
    update f p b q = f q := update_of_ne (ne_of_mem_of_not_mem hp hq).symm b f

end Lists

namespace BePlusTree

variable {T : Template V K} {t : BePlusTree V} {rows : Nat → List PageId} {row upper lower A B : List PageId}
  {h lev : Nat} {p c : PageId} {key : K} {els : List V}

/-- The pages of `upper` hold those of `lower`. No two of them that stand side by side are as empty as can be, and a
page that stands alone is not. -/
structure Storey (T : Template V K) (nodes : PageId → List PageId) (parent : PageId → Option PageId)
    (upper lower : List PageId) : Prop where
  holds : upper.flatMap nodes = lower
  parent : ∀ p ∈ upper, ∀ c ∈ nodes p, parent c = some p
  filled : ∀ p ∈ upper, nodes p ≠ []
  fits : ∀ p ∈ upper, (nodes p).length ≤ T.nodeCount
  crowded : upper.IsChain fun p q => 3 ≤ (nodes p).length + (nodes q).length
  alone : ∀ p, upper = [p] → 2 ≤ (nodes p).length

def Ascending (T : Template V K) (t : BePlusTree V) (h : Nat) (row : List PageId) : Prop :=
  row.Pairwise fun p q => t.generate T h p < t.generate T h q

theorem Ascending.above (hasc : t.Ascending T h (upper.flatMap t.nodes)) (hfilled : ∀ p ∈ upper, t.nodes p ≠ []) :
    t.Ascending T (h + 1) upper := by
  have hfirsts := Pairwise.sublist (firsts_sublist 0 hfilled) hasc
  rwa [pairwise_map] at hfirsts

theorem ascending_leaves (hsorted : (row.flatMap t.items).Pairwise fun a b => T.keyOfValue a < T.keyOfValue b)
    (hfilled : ∀ p ∈ row, t.items p ≠ []) : t.Ascending T 0 row := by
  have hfirsts := Pairwise.sublist (firsts_sublist default hfilled) hsorted
  rwa [pairwise_map] at hfirsts

/-- The way down to the key leads to `p`: it stands at or below the key, unless it is the first page of its row, and all
pages behind it stand above the key. -/
def Leads (T : Template V K) (t : BePlusTree V) (h : Nat) (key : K) (A : List PageId) (p : PageId)
    (B : List PageId) : Prop :=
  (A ≠ [] → t.generate T h p ≤ key) ∧ ∀ b ∈ B, key < t.generate T h b

theorem findNode_leads (key : K) (hlevel : t.nodeLevel p = h) (hfilled : t.nodes p ≠ [])
    (hasc : t.Ascending T h (t.nodes p)) : ∃ E c F, t.nodes p = E ++ c :: F ∧ t.Leads T h key E c F ∧
      (t.nodes p).getD (if (t.findNode T p key).1 then (t.findNode T p key).2 else (t.findNode T p key).2 - 1)
      0 = c := by
  rcases exists_split (t.generate T h) key (t.nodes p) hasc with ⟨E, c, F, hnodes, hc, hE, hF⟩ | ⟨E, F, hnodes, hE, hF⟩
  · refine ⟨E, c, F, hnodes, ⟨fun _ => hc.le, hF⟩, ?_⟩
    have hfind : t.findNode T p key = (true, E.length) := by
      rw [findNode, hlevel, hnodes]
      exact SortedVector.find_present hE hc hF
    rw [hfind, if_pos rfl, hnodes, getD_append_right E _ 0 _ (Nat.le_refl _), Nat.sub_self]
    rfl
  · have hfind : t.findNode T p key = (false, E.length) := by
      rw [findNode, hlevel, hnodes]
      exact SortedVector.find_absent hE hF
    rw [hfind]
    rcases eq_nil_or_concat E with rfl | ⟨E, c, rfl⟩
    · obtain ⟨c, F, rfl⟩ := exists_cons_of_ne_nil (hnodes ▸ hfilled)
      refine ⟨[], c, F, hnodes, ⟨fun hne => absurd rfl hne, fun b hb => hF b (.tail c hb)⟩, ?_⟩
      rw [hnodes]
      rfl
    · rw [concat_eq_append] at *
      refine ⟨E, c, F, by rw [hnodes, append_assoc]; rfl, ⟨fun _ => (hE c ?_).le, hF⟩, ?_⟩
      · exact mem_append_right E (.head [])
      · rw [hnodes, length_append, length_singleton, Nat.add_sub_cancel, if_neg Bool.false_ne_true,
          append_assoc, getD_append_right E _ 0 _ (Nat.le_refl _), Nat.sub_self]
        rfl

theorem ascending_row (hstorey : ∀ k < h, Storey T t.nodes t.parent (rows (k + 1)) (rows k))
    (hasc : t.Ascending T 0 (rows 0)) : t.Ascending T h (rows h) := by
  induction h with
  | zero => exact hasc
  | succ h ih =>
    have hh := hstorey h (Nat.lt_succ_self h)
    refine Ascending.above ?_ hh.filled
    rw [hh.holds]
    exact ih fun k hk => hstorey k (Nat.lt_succ_of_lt hk)

theorem Ascending.children (hasc : t.Ascending T h ((A ++ p :: B).flatMap t.nodes)) : t.Ascending T h (t.nodes p) := by
  rw [flatMap_append] at hasc
  exact (pairwise_append.mp (pairwise_append.mp hasc).2.1).1

theorem descend_leads (hstorey : ∀ k < h, Storey T t.nodes t.parent (rows (k + 1)) (rows k))
    (hlevel : ∀ k < h, ∀ p ∈ rows (k + 1), t.nodeLevel p = k) (hasc : t.Ascending T 0 (rows 0))
    (hrow : rows h = A ++ p :: B) (hleads : t.Leads T h key A p B) :
    ∃ A' B', rows 0 = A' ++ t.descend T key h p :: B' ∧ t.Leads T 0 key A' (t.descend T key h p) B' := by
  induction h generalizing A p B with
  | zero => exact ⟨A, B, hrow, hleads⟩
  | succ h ih =>
    have hlow : ∀ k < h, Storey T t.nodes t.parent (rows (k + 1)) (rows k) := fun k hk =>
      hstorey k (Nat.lt_succ_of_lt hk)
    have hasch : t.Ascending T h (rows h) := ascending_row hlow hasc
    have hh := hstorey h (Nat.lt_succ_self h)
    have hp : p ∈ rows (h + 1) := hrow ▸ mem_append_right A (.head B)
    have hlower : rows h = A.flatMap t.nodes ++ (t.nodes p ++ B.flatMap t.nodes) := by
      rw [← hh.holds, hrow, flatMap_append, flatMap_cons]
    rw [← hh.holds] at hasch
    have hblock : t.Ascending T h (t.nodes p) := Ascending.children (A := A) (B := B) (hrow ▸ hasch)
    obtain ⟨E, c, F, hnodes, hc, hget⟩ :=
      findNode_leads key (hlevel h (Nat.lt_succ_self h) p hp) (hh.filled p hp) hblock
    have hdescend : t.descend T key (h + 1) p = t.descend T key h c := by rw [← hget]; rfl
    rw [hdescend]
    refine ih hlow (fun k hk => hlevel k (Nat.lt_succ_of_lt hk)) (A := A.flatMap t.nodes ++ E)
      (B := F ++ B.flatMap t.nodes) ?_ ⟨fun hne => ?_, fun b hb => ?_⟩
    · rw [hlower, hnodes]
      simp only [append_assoc, cons_append]
    · by_cases hE : E = []
      · have hA : A ≠ [] := by
          rintro rfl
          exact hne (by rw [hE]; rfl)
        have hfirst : t.generate T (h + 1) p = t.generate T h c := by
          rw [generate, leftmost, hnodes, hE]
          rfl
        exact hfirst ▸ hleads.1 hA
      · exact hc.1 hE
    · rcases mem_append.mp hb with hb | hb
      · exact hc.2 b hb
      · obtain ⟨q, hq, hbq⟩ := mem_flatMap.mp hb
        have hqrow : q ∈ rows (h + 1) := hrow ▸ mem_append_right A (.tail p hq)
        obtain ⟨d, l, hqnodes⟩ := exists_cons_of_ne_nil (hh.filled q hqrow)
        have hkey : key < t.generate T h d := by
          have hqkey := hleads.2 q hq
          rwa [generate, leftmost, hqnodes] at hqkey
        rw [hqnodes] at hbq
        rcases mem_cons.mp hbq with rfl | hbl
        · exact hkey
        · refine hkey.trans ?_
          obtain ⟨B₁, B₂, hB⟩ := append_of_mem hq
          have hsplit : rows (h + 1) = (A ++ p :: B₁) ++ q :: B₂ := by
            rw [hrow, hB, append_assoc, cons_append]
          have hqasc : t.Ascending T h (t.nodes q) := Ascending.children (hsplit ▸ hasch)
          rw [hqnodes] at hqasc
          exact (pairwise_cons.mp hqasc).1 b hbl

/-- The pages of one level: linked to each other, in use, each once. -/
structure Row (t : BePlusTree V) (row : List PageId) : Prop where
  linked : Linked t.next t.prev none row none
  nodup : row.Nodup
  known : ∀ p ∈ row, p < t.allocated
  live : ∀ p ∈ row, p ∉ t.released

structure Shape (T : Template V K) (t : BePlusTree V) (rows : Nat → List PageId) : Prop where
  row : ∀ h ≤ t.level, t.Row (rows h)
  apart : ∀ h ≤ t.level, ∀ k ≤ t.level, ∀ p, p ∈ rows h → p ∈ rows k → h = k
  storey : ∀ h < t.level, Storey T t.nodes t.parent (rows (h + 1)) (rows h)
  level : ∀ h < t.level, ∀ p ∈ rows (h + 1), t.nodeLevel p = h
  top : ∃ r, t.root = some r ∧ t.parent r = none ∧ rows t.level = [r]
  released : ∀ p ∈ t.released, p < t.allocated

/-- The items on the leaf pages: in order, and on every page unless it is the only one. -/
structure Sheets (T : Template V K) (t : BePlusTree V) (leaves : List PageId) (els : List V) : Prop where
  holds : leaves.flatMap t.items = els
  fits : ∀ p ∈ leaves, (t.items p).length ≤ T.leafCount
  filled : 0 < t.level → ∀ p ∈ leaves, t.items p ≠ []
  sorted : els.Pairwise fun a b => T.keyOfValue a < T.keyOfValue b

/-- The items of the tree in order. A tree without a root was not used yet. -/
def Holds (T : Template V K) (t : BePlusTree V) (els : List V) : Prop :=
  (t.root = none ∧ t.level = 0 ∧ (∀ p ∈ t.released, p < t.allocated) ∧ els = []) ∨
    ∃ rows, t.Shape T rows ∧ t.Sheets T (rows 0) els

omit [Inhabited V] in
theorem empty_holds (T : Template V K) : (empty : BePlusTree V).Holds T [] := .inl ⟨rfl, rfl, nofun, rfl⟩

omit [Inhabited V] [LinearOrder K] in
theorem Storey.congr {nodes nodes' : PageId → List PageId} {parent parent' : PageId → Option PageId}
    (hs : Storey T nodes parent upper lower) (hnodes : ∀ p ∈ upper, nodes' p = nodes p)
    (hparent : ∀ c ∈ lower, parent' c = parent c) : Storey T nodes' parent' upper lower where
  holds := (flatMap_congr hnodes).trans hs.holds
  parent p hp c hc := by
    rw [hnodes p hp] at hc
    rw [hparent c (hs.holds ▸ mem_flatMap.mpr ⟨p, hp, hc⟩)]
    exact hs.parent p hp c hc
  filled p hp := hnodes p hp ▸ hs.filled p hp
  fits p hp := hnodes p hp ▸ hs.fits p hp
  crowded := hs.crowded.imp_of_mem_imp fun p q hp hq hpq => by rwa [hnodes p hp, hnodes q hq]
  alone p hp := by
    rw [hnodes p (hp ▸ .head [])]
    exact hs.alone p hp

theorem Shape.ascending_leaves (hs : t.Shape T rows) (hi : t.Sheets T (rows 0) els) : t.Ascending T 0 (rows 0) := by
  rcases Nat.eq_zero_or_pos t.level with hzero | hpos
  · obtain ⟨r, -, -, hrow⟩ := hs.top
    rw [hzero] at hrow
    rw [hrow]
    exact pairwise_singleton _ r
  · refine BePlusTree.ascending_leaves ?_ (hi.filled hpos)
    rw [hi.holds]
    exact hi.sorted

theorem Shape.descend_leads (hs : t.Shape T rows) (hi : t.Sheets T (rows 0) els) {r : PageId} (hr : t.root = some r)
    (key : K) : ∃ A B, rows 0 = A ++ t.descend T key t.level r :: B ∧
      t.Leads T 0 key A (t.descend T key t.level r) B := by
  obtain ⟨r', hr', -, hrow⟩ := hs.top
  cases hr.symm.trans hr'
  exact BePlusTree.descend_leads hs.storey hs.level (hs.ascending_leaves hi) (A := []) (B := []) hrow
    ⟨fun hne => absurd rfl hne, nofun⟩

end BePlusTree

end Firebird.Tree
