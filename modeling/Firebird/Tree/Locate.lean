import Firebird.Tree.Shape

/-! # The places of an accessor

An accessor stands on an item of a leaf page, and so at a place among all items of the tree. It goes to the item for a
key, to the ends of the tree, and from item to item. -/

namespace Firebird.Tree.BePlusTree

open Function Lib List

variable {V K : Type} {T : Template V K} {t : BePlusTree V} {rows : Nat → List PageId} {A B leaves : List PageId}
  {h : Nat} {p leaf : PageId} {els E F X Y : List V} {v : V} {key : K} {at_ : Position}

/-- The accessor stands on `v`, with the items `X` before it and `Y` behind it. -/
def Points (t : BePlusTree V) (leaves : List PageId) (at_ : Position) (X : List V) (v : V) (Y : List V) : Prop :=
  ∃ A leaf B E F, leaves = A ++ leaf :: B ∧ t.items leaf = E ++ v :: F ∧ at_ = ⟨some leaf, E.length⟩ ∧
    X = A.flatMap t.items ++ E ∧ Y = F ++ B.flatMap t.items

theorem Points.leaves_eq (hp : t.Points leaves at_ X v Y) : leaves.flatMap t.items = X ++ v :: Y := by
  obtain ⟨A, leaf, B, E, F, rfl, hitems, -, rfl, rfl⟩ := hp
  rw [flatMap_append, flatMap_cons, hitems]
  simp only [append_assoc, cons_append]

theorem Points.itemAt [Inhabited V] (hp : t.Points leaves at_ X v Y) : t.itemAt at_ = v := by
  obtain ⟨A, leaf, B, E, F, -, hitems, rfl, -, -⟩ := hp
  show (t.items leaf).getD E.length default = v
  rw [hitems, getD_append_right _ _ _ _ (Nat.le_refl _), Nat.sub_self]
  rfl

theorem Shape.alone (hs : t.Shape T rows) (hrow : rows 0 = A ++ p :: B) (hlevel : t.level = 0) : A = [] ∧ B = [] := by
  obtain ⟨r, -, -, htop⟩ := hs.top
  rw [hlevel, hrow] at htop
  rcases append_eq_singleton_iff.mp htop with ⟨hA, hB⟩ | ⟨-, hB⟩
  · exact ⟨hA, (cons.inj hB).2⟩
  · exact absurd hB (cons_ne_nil _ _)

variable [LinearOrder K]

/-- The leaf page for a key that no item has, and the place on it. -/
structure Gap (T : Template V K) (t : BePlusTree V) (leaves : List PageId) (A : List PageId) (leaf : PageId)
    (B : List PageId) (E F : List V) (key : K) : Prop where
  leaves_eq : leaves = A ++ leaf :: B
  items_eq : t.items leaf = E ++ F
  left : ∀ x ∈ A.flatMap t.items ++ E, T.keyOfValue x < key
  right : ∀ y ∈ F ++ B.flatMap t.items, key < T.keyOfValue y

theorem Gap.els_eq (hg : t.Gap T leaves A leaf B E F key) (hi : t.Sheets T leaves els) :
    els = (A.flatMap t.items ++ E) ++ (F ++ B.flatMap t.items) := by
  rw [← hi.holds, hg.leaves_eq, flatMap_append, flatMap_cons, hg.items_eq]
  simp only [append_assoc]

variable [Inhabited V]

section
variable (hs : t.Shape T rows) (hi : t.Sheets T (rows 0) els)
include hs hi

theorem Leads.around (hrow : rows 0 = A ++ leaf :: B) (hleads : t.Leads T 0 key A leaf B) :
    (∀ x ∈ A.flatMap t.items, T.keyOfValue x < key) ∧ ∀ y ∈ B.flatMap t.items, key < T.keyOfValue y := by
  have hfilled : A ≠ [] ∨ B ≠ [] → ∀ p ∈ rows 0, t.items p ≠ [] := fun hne => by
    refine hi.filled (Nat.pos_of_ne_zero fun hzero => ?_)
    obtain ⟨hA, hB⟩ := hs.alone hrow hzero
    exact hne.elim (fun h => h hA) fun h => h hB
  have hsorted := hi.sorted
  rw [← hi.holds, hrow, flatMap_append, flatMap_cons] at hsorted
  obtain ⟨-, hright, hleft⟩ := pairwise_append.mp hsorted
  constructor
  · intro x hx
    have hA : A ≠ [] := by
      rintro rfl
      exact nomatch hx
    obtain ⟨a, l, hitems⟩ := exists_cons_of_ne_nil
      (hfilled (.inl hA) leaf (hrow ▸ mem_append_right A (.head B)))
    have hkey := hleads.1 hA
    rw [generate, leftmost, hitems] at hkey
    exact (hleft x hx a (mem_append_left _ (hitems ▸ .head l))).trans_le hkey
  · intro y hy
    obtain ⟨b, hb, hyb⟩ := mem_flatMap.mp hy
    have hBne : B ≠ [] := ne_nil_of_mem hb
    have hbrow : b ∈ rows 0 := hrow ▸ mem_append_right A (.tail leaf hb)
    obtain ⟨a, l, hitems⟩ := exists_cons_of_ne_nil (hfilled (.inr hBne) b hbrow)
    have hkey := hleads.2 b hb
    rw [generate, leftmost, hitems] at hkey
    rw [hitems] at hyb
    rcases mem_cons.mp hyb with rfl | hyl
    · exact hkey
    · refine hkey.trans ?_
      obtain ⟨B₁, B₂, rfl⟩ := append_of_mem hb
      rw [flatMap_append, flatMap_cons, hitems] at hright
      have hblock := (pairwise_append.mp (pairwise_append.mp
        (pairwise_append.mp hright).2.1).2.1).1
      exact (pairwise_cons.mp hblock).1 y hyl

theorem Shape.landing {r : PageId} (hr : t.root = some r) (key : K) :
    (∃ A B E v F, rows 0 = A ++ t.descend T key t.level r :: B ∧ t.items (t.descend T key t.level r) = E ++ v :: F ∧
      T.keyOfValue v = key ∧ t.findItem T (t.descend T key t.level r) key = (true, E.length) ∧
      (∀ x ∈ A.flatMap t.items ++ E, T.keyOfValue x < key) ∧ ∀ y ∈ F ++ B.flatMap t.items, key < T.keyOfValue y) ∨
    ∃ A B E F, t.Gap T (rows 0) A (t.descend T key t.level r) B E F key ∧
      t.findItem T (t.descend T key t.level r) key = (false, E.length) := by
  obtain ⟨A, B, hrow, hleads⟩ := hs.descend_leads hi hr key
  generalize t.descend T key t.level r = leaf at *
  obtain ⟨hleft, hright⟩ := hleads.around hs hi hrow
  have hsorted := hi.sorted
  rw [← hi.holds, hrow, flatMap_append] at hsorted
  have hblock := (pairwise_append.mp (pairwise_append.mp hsorted).2.1).1
  rcases exists_split T.keyOfValue key (t.items leaf) hblock with ⟨E, v, F, hitems, hv, hE, hF⟩ | ⟨E, F, hitems, hE, hF⟩
  · refine .inl ⟨A, B, E, v, F, hrow, hitems, hv, ?_, ?_, ?_⟩
    · rw [findItem, hitems]
      exact SortedVector.find_present hE hv hF
    · exact fun x hx => (mem_append.mp hx).elim (hleft x) (hE x)
    · exact fun y hy => (mem_append.mp hy).elim (hF y) (hright y)
  · refine .inr ⟨A, B, E, F, ⟨hrow, hitems, ?_, ?_⟩, ?_⟩
    · exact fun x hx => (mem_append.mp hx).elim (hleft x) (hE x)
    · exact fun y hy => (mem_append.mp hy).elim (hF y) (hright y)
    · rw [findItem, hitems]
      exact SortedVector.find_absent hE hF

omit [Inhabited V] in
theorem Sheets.filled_of_ne (hrow : rows 0 = A ++ leaf :: B)
    (hne : A ≠ [] ∨ B ≠ []) : ∀ p ∈ rows 0, t.items p ≠ [] := by
  refine hi.filled (Nat.pos_of_ne_zero fun hzero => ?_)
  obtain ⟨hA, hB⟩ := hs.alone hrow hzero
  exact hne.elim (fun h => h hA) fun h => h hB

omit [Inhabited V] in
theorem nextPageAtEnd_spec (hrow : rows 0 = A ++ leaf :: B)
    (hitems : t.items leaf = E ++ F) :
    ((t.nextPageAtEnd leaf E.length).curr.isSome = false ∧ F ++ B.flatMap t.items = []) ∨
      (t.nextPageAtEnd leaf E.length).curr.isSome = true ∧ ∃ v Y, F ++ B.flatMap t.items = v :: Y ∧
        t.Points (rows 0) (t.nextPageAtEnd leaf E.length) (A.flatMap t.items ++ E) v Y := by
  have hnext : t.next leaf = B.head? := (hrow ▸ (hs.row 0 (Nat.zero_le _)).linked).next_eq
  cases F with
  | cons v F =>
    have hpos : t.nextPageAtEnd leaf E.length = ⟨some leaf, E.length⟩ := by
      refine if_neg ?_
      rw [hitems, length_append, length_cons]
      omega
    rw [hpos]
    exact .inr ⟨rfl, v, F ++ B.flatMap t.items, rfl, A, leaf, B, E, F, hrow, hitems, rfl, rfl, rfl⟩
  | nil =>
    have hpos : t.nextPageAtEnd leaf E.length = ⟨B.head?, 0⟩ := by
      rw [← hnext]
      exact if_pos (by rw [hitems, append_nil])
    rw [hpos]
    cases B with
    | nil => exact .inl ⟨rfl, rfl⟩
    | cons b B =>
      have hb : b ∈ rows 0 := hrow ▸ mem_append_right A (.tail leaf (.head B))
      obtain ⟨v, F, hv⟩ := exists_cons_of_ne_nil
        (hi.filled_of_ne hs hrow (.inr (cons_ne_nil b B)) b hb)
      refine .inr ⟨rfl, v, F ++ B.flatMap t.items, by rw [nil_append, flatMap_cons, hv]; rfl, A ++ [leaf], b, B, [],
        F, ?_, hv, rfl, ?_, rfl⟩
      · rw [hrow, ← append_cons]
      · rw [append_nil, flatMap_append, flatMap_singleton, hitems, append_nil]

omit [Inhabited V] in
theorem stepBack_spec (hrow : rows 0 = A ++ leaf :: B)
    (hitems : t.items leaf = E ++ F) :
    ((t.stepBack leaf E.length).1 = false ∧ A.flatMap t.items ++ E = []) ∨
      (t.stepBack leaf E.length).1 = true ∧ ∃ X v, A.flatMap t.items ++ E = X ++ [v] ∧
        t.Points (rows 0) (t.stepBack leaf E.length).2 X v (F ++ B.flatMap t.items) := by
  have hprev : t.prev leaf = A.getLast? := (hrow ▸ (hs.row 0 (Nat.zero_le _)).linked).prev_eq
  rcases eq_nil_or_concat E with rfl | ⟨E, v, rfl⟩
  · rw [stepBack, if_pos length_nil, lastBefore, hprev]
    rcases eq_nil_or_concat A with rfl | ⟨A, a, rfl⟩
    · exact .inl ⟨rfl, rfl⟩
    · rw [concat_eq_append] at *
      have ha : a ∈ rows 0 := hrow ▸ mem_append_left _ (mem_append_right A (.head []))
      obtain ⟨E, v, hv⟩ := (eq_nil_or_concat (t.items a)).resolve_left
        (hi.filled_of_ne hs hrow (.inl (append_ne_nil_of_right_ne_nil A (cons_ne_nil a []))) a ha)
      rw [concat_eq_append] at hv
      rw [getLast?_concat]
      refine .inr ⟨rfl, A.flatMap t.items ++ E, v, ?_, A, a, leaf :: B, E, [], ?_, hv, ?_, rfl, ?_⟩
      · rw [append_nil, flatMap_append, flatMap_singleton, hv, append_assoc]
      · rw [hrow, ← append_cons]
      · show (⟨some a, (t.items a).length - 1⟩ : Position) = _
        rw [hv, length_append, length_singleton, Nat.add_sub_cancel]
      · rw [flatMap_cons, hitems]
        rfl
  · rw [concat_eq_append] at *
    rw [stepBack, if_neg (by rw [length_append]; exact Nat.succ_ne_zero _)]
    refine .inr ⟨rfl, A.flatMap t.items ++ E, v, (append_assoc _ _ _).symm, A, leaf, B, E, F, hrow, ?_, ?_, rfl, rfl⟩
    · rw [hitems, ← append_cons]
    · rw [length_append, length_singleton, Nat.add_sub_cancel]

end

def Relates : LocType → K → K → Prop
  | .locEqual, k, key => k = key
  | .locLess, k, key => k < key
  | .locGreat, k, key => key < k
  | .locGreatEqual, k, key => key ≤ k
  | .locLessEqual, k, key => k ≤ key

/-- The items on the side on which an item closer to the key would stand do not have a key that is looked for. -/
def Nearest (T : Template V K) (lt : LocType) (key : K) (X : List V) (v : V) (Y : List V) : Prop :=
  Relates lt (T.keyOfValue v) key ∧
    ((lt = .locLess ∨ lt = .locLessEqual) → ∀ y ∈ Y, ¬Relates lt (T.keyOfValue y) key) ∧
    ((lt = .locGreat ∨ lt = .locGreatEqual) → ∀ x ∈ X, ¬Relates lt (T.keyOfValue x) key)

/-- `locate` finds the nearest item with a key that is looked for, and tells when there is none. -/
theorem locate_spec (hs : t.Shape T rows) (hi : t.Sheets T (rows 0) els) (lt : LocType) (key : K) :
    ((t.locate T lt key at_).1 = false ∧ ∀ v ∈ els, ¬Relates lt (T.keyOfValue v) key) ∨
      (t.locate T lt key at_).1 = true ∧ ∃ X v Y, els = X ++ v :: Y ∧ Nearest T lt key X v Y ∧
        t.Points (rows 0) (t.locate T lt key at_).2 X v Y := by
  obtain ⟨r, hr, -, -⟩ := hs.top
  unfold locate
  rw [hr]
  dsimp only
  rcases hs.landing hi hr key with ⟨A, B, E, v, F, hrow, hitems, rfl, hfind, hleft, hright⟩ | ⟨A, B, E, F, hgap, hfind⟩
  · have hels : els = (A.flatMap t.items ++ E) ++ v :: (F ++ B.flatMap t.items) := by
      rw [← hi.holds, hrow, flatMap_append, flatMap_cons, hitems]
      simp only [append_assoc, cons_append]
    have hpoints : t.Points (rows 0) ⟨some (t.descend T (T.keyOfValue v) t.level r), E.length⟩ (A.flatMap t.items ++ E)
        v (F ++ B.flatMap t.items) := ⟨A, _, B, E, F, hrow, hitems, rfl, rfl, rfl⟩
    generalize t.descend T (T.keyOfValue v) t.level r = leaf at *
    rw [hfind]
    cases lt with
    | locEqual => exact .inr ⟨rfl, _, v, _, hels, ⟨rfl, nofun, nofun⟩, hpoints⟩
    | locLessEqual =>
      exact .inr ⟨rfl, _, v, _, hels, ⟨le_rfl, fun _ y hy => (hright y hy).not_ge, nofun⟩, hpoints⟩
    | locGreatEqual =>
      have hpos : t.nextPageAtEnd leaf E.length = ⟨some leaf, E.length⟩ :=
        if_neg (by rw [hitems, length_append, length_cons]; omega)
      rw [hpos]
      exact .inr ⟨rfl, _, v, _, hels, ⟨le_rfl, nofun, fun _ x hx => (hleft x hx).not_ge⟩, hpoints⟩
    | locLess =>
      rcases stepBack_spec hs hi hrow hitems with ⟨hfalse, hnil⟩ | ⟨htrue, X, w, hX, hpoints⟩
      · refine .inl ⟨hfalse, fun w hw => ?_⟩
        rw [hels, hnil, nil_append, mem_cons] at hw
        rcases hw with rfl | hw
        · exact lt_irrefl _
        · exact (hright w hw).not_gt
      · rw [hX] at hleft hels
        refine .inr ⟨htrue, X, w, _, by rw [hels, ← append_cons]; rfl, ⟨?_, fun _ y hy => ?_, nofun⟩, hpoints⟩
        · exact hleft w (mem_append_right X (.head []))
        · rcases mem_cons.mp hy with rfl | hy
          · exact lt_irrefl _
          · exact (hright y hy).not_gt
    | locGreat =>
      have hitems' : t.items leaf = (E ++ [v]) ++ F := by rw [hitems, append_cons]
      have hlen : E.length + 1 = (E ++ [v]).length := by rw [length_append, length_singleton]
      rw [hlen]
      rcases nextPageAtEnd_spec hs hi hrow hitems' with ⟨hfalse, hnil⟩ | ⟨htrue, w, Y, hY, hpoints⟩
      · refine .inl ⟨hfalse, fun w hw => ?_⟩
        rw [hels, hnil, mem_append, mem_singleton] at hw
        rcases hw with hw | rfl
        · exact (hleft w hw).not_gt
        · exact lt_irrefl _
      · rw [hY] at hright hels
        refine .inr ⟨htrue, (A.flatMap t.items ++ E) ++ [v], w, Y, by rw [hels, ← append_cons],
          ⟨?_, nofun, fun _ x hx => ?_⟩, by rwa [append_assoc]⟩
        · exact hright w (.head Y)
        · rcases mem_append.mp hx with hx | hx
          · exact (hleft x hx).not_gt
          · rw [mem_singleton.mp hx]
            exact lt_irrefl _
  · have hels := hgap.els_eq hi
    rw [hfind]
    have hleft := hgap.left
    have hright := hgap.right
    have hrow := hgap.leaves_eq
    have hitems := hgap.items_eq
    cases lt with
    | locEqual =>
      refine .inl ⟨rfl, fun w hw => ?_⟩
      rcases mem_append.mp (hels ▸ hw) with hw | hw
      · exact (hleft w hw).ne
      · exact (hright w hw).ne'
    | locLessEqual =>
      rcases stepBack_spec hs hi hrow hitems with ⟨hfalse, hnil⟩ | ⟨htrue, X, w, hX, hpoints⟩
      · refine .inl ⟨hfalse, fun w hw => ?_⟩
        rw [hels, hnil] at hw
        exact (hright w hw).not_ge
      · rw [hX] at hleft hels
        refine .inr ⟨htrue, X, w, _, by rw [hels, ← append_cons], ⟨?_, fun _ y hy => ?_, nofun⟩, hpoints⟩
        · exact (hleft w (mem_append_right X (.head []))).le
        · exact (hright y hy).not_ge
    | locLess =>
      rcases stepBack_spec hs hi hrow hitems with ⟨hfalse, hnil⟩ | ⟨htrue, X, w, hX, hpoints⟩
      · refine .inl ⟨hfalse, fun w hw => ?_⟩
        rw [hels, hnil] at hw
        exact (hright w hw).not_gt
      · rw [hX] at hleft hels
        refine .inr ⟨htrue, X, w, _, by rw [hels, ← append_cons], ⟨?_, fun _ y hy => ?_, nofun⟩, hpoints⟩
        · exact hleft w (mem_append_right X (.head []))
        · exact (hright y hy).not_gt
    | locGreatEqual =>
      rcases nextPageAtEnd_spec hs hi hrow hitems with ⟨hfalse, hnil⟩ | ⟨htrue, w, Y, hY, hpoints⟩
      · refine .inl ⟨hfalse, fun w hw => ?_⟩
        rw [hels, hnil, append_nil] at hw
        exact (hleft w hw).not_ge
      · rw [hY] at hright hels
        refine .inr ⟨htrue, _, w, Y, hels, ⟨?_, nofun, fun _ x hx => ?_⟩, hpoints⟩
        · exact (hright w (.head Y)).le
        · exact (hleft x hx).not_ge
    | locGreat =>
      rcases nextPageAtEnd_spec hs hi hrow hitems with ⟨hfalse, hnil⟩ | ⟨htrue, w, Y, hY, hpoints⟩
      · refine .inl ⟨hfalse, fun w hw => ?_⟩
        rw [hels, hnil, append_nil] at hw
        exact (hleft w hw).not_gt
      · rw [hY] at hright hels
        refine .inr ⟨htrue, _, w, Y, hels, ⟨?_, nofun, fun _ x hx => ?_⟩, hpoints⟩
        · exact hright w (.head Y)
        · exact (hleft x hx).not_gt

omit [LinearOrder K] [Inhabited V] in
theorem leftmost_first (hstorey : ∀ k < h, Storey T t.nodes t.parent (rows (k + 1)) (rows k)) (hrow : rows h = p :: B) :
    ∃ B', rows 0 = t.leftmost h p :: B' := by
  induction h generalizing p B with
  | zero => exact ⟨B, hrow⟩
  | succ h ih =>
    have hh := hstorey h (Nat.lt_succ_self h)
    obtain ⟨c, l, hc⟩ := exists_cons_of_ne_nil (hh.filled p (hrow ▸ .head B))
    rw [leftmost, hc]
    refine ih (fun k hk => hstorey k (Nat.lt_succ_of_lt hk)) (B := l ++ B.flatMap t.nodes) ?_
    rw [← hh.holds, hrow, flatMap_cons, hc]
    rfl

omit [LinearOrder K] [Inhabited V] in
theorem rightmost_last (hstorey : ∀ k < h, Storey T t.nodes t.parent (rows (k + 1)) (rows k))
    (hrow : rows h = A ++ [p]) : ∃ A', rows 0 = A' ++ [t.rightmost h p] := by
  induction h generalizing p A with
  | zero => exact ⟨A, hrow⟩
  | succ h ih =>
    have hh := hstorey h (Nat.lt_succ_self h)
    obtain ⟨l, c, hc⟩ := (eq_nil_or_concat (t.nodes p)).resolve_left
      (hh.filled p (hrow ▸ mem_append_right A (.head [])))
    rw [concat_eq_append] at hc
    have hlast : (t.nodes p).getD ((t.nodes p).length - 1) 0 = c := by
      rw [hc, length_append, length_singleton, Nat.add_sub_cancel,
        getD_append_right _ _ _ _ (Nat.le_refl _), Nat.sub_self]
      rfl
    rw [rightmost, hlast]
    refine ih (fun k hk => hstorey k (Nat.lt_succ_of_lt hk)) (A := A.flatMap t.nodes ++ l) ?_
    rw [← hh.holds, hrow, flatMap_append, flatMap_singleton, hc, append_assoc]

section
variable (hs : t.Shape T rows) (hi : t.Sheets T (rows 0) els)
include hs hi

omit [Inhabited V] in
theorem getFirst_spec :
    ((t.getFirst at_).1 = false ∧ els = []) ∨
      (t.getFirst at_).1 = true ∧ ∃ v Y, els = v :: Y ∧ t.Points (rows 0) (t.getFirst at_).2 [] v Y := by
  obtain ⟨r, hr, -, htop⟩ := hs.top
  obtain ⟨B, hrow⟩ := leftmost_first hs.storey htop
  have hels : els = t.items (t.leftmost t.level r) ++ B.flatMap t.items := by
    rw [← hi.holds, hrow, flatMap_cons]
  unfold getFirst
  rw [hr]
  dsimp only
  cases hitems : t.items (t.leftmost t.level r) with
  | nil =>
    have hB : B = [] := by
      by_contra hB
      exact hi.filled_of_ne (A := []) hs hrow (.inr hB) _ (hrow ▸ .head B) hitems
    rw [hitems, hB] at hels
    exact .inl ⟨rfl, hels⟩
  | cons v F =>
    rw [hitems] at hels
    exact .inr ⟨rfl, v, F ++ B.flatMap t.items, hels, [], _, B, [], F, hrow, hitems, rfl, rfl, rfl⟩

omit [Inhabited V] in
theorem getLast_spec :
    ((t.getLast at_).1 = false ∧ els = []) ∨
      (t.getLast at_).1 = true ∧ ∃ X v, els = X ++ [v] ∧ t.Points (rows 0) (t.getLast at_).2 X v [] := by
  obtain ⟨r, hr, -, htop⟩ := hs.top
  obtain ⟨A, hrow⟩ := rightmost_last (A := []) hs.storey htop
  have hels : els = A.flatMap t.items ++ t.items (t.rightmost t.level r) := by
    rw [← hi.holds, hrow, flatMap_append, flatMap_singleton]
  unfold getLast
  rw [hr]
  dsimp only
  rcases eq_nil_or_concat (t.items (t.rightmost t.level r)) with hitems | ⟨E, v, hitems⟩
  · have hA : A = [] := by
      by_contra hA
      exact hi.filled_of_ne hs hrow (.inl hA) _ (hrow ▸ mem_append_right A (.head [])) hitems
    rw [hitems, hA] at hels
    rw [hitems, if_neg (fun hne => hne rfl)]
    exact .inl ⟨rfl, hels⟩
  · rw [concat_eq_append] at hitems
    rw [hitems, length_append, length_singleton, if_pos (Nat.succ_ne_zero _), Nat.add_sub_cancel]
    rw [hitems, ← append_assoc] at hels
    exact .inr ⟨rfl, _, v, hels, A, _, [], E, [], hrow, hitems, rfl, rfl, rfl⟩

omit [Inhabited V] in
theorem getNext_spec (hp : t.Points (rows 0) at_ X v Y) :
    (t.getNext at_ = (false, at_) ∧ Y = []) ∨
      (t.getNext at_).1 = true ∧ ∃ w Z, Y = w :: Z ∧ t.Points (rows 0) (t.getNext at_).2 (X ++ [v]) w Z := by
  obtain ⟨A, leaf, B, E, F, hrow, hitems, rfl, rfl, rfl⟩ := hp
  have hitems' : t.items leaf = (E ++ [v]) ++ F := by rw [hitems, append_cons]
  have hlen : (E ++ [v]).length = E.length + 1 := by rw [length_append, length_singleton]
  have hX : A.flatMap t.items ++ (E ++ [v]) = (A.flatMap t.items ++ E) ++ [v] := (append_assoc _ _ _).symm
  have hend : t.getNext ⟨some leaf, E.length⟩ =
      if (t.nextPageAtEnd leaf (E ++ [v]).length).curr.isSome then (true, t.nextPageAtEnd leaf (E ++ [v]).length)
      else (false, ⟨some leaf, E.length⟩) := by
    cases F with
    | nil =>
      have hpage : t.nextPageAtEnd leaf (E ++ [v]).length = ⟨t.next leaf, 0⟩ := if_pos (by rw [hitems])
      rw [hpage, getNext]
      dsimp only
      rw [if_pos (by rw [hitems, hlen])]
      cases t.next leaf <;> rfl
    | cons f F =>
      have hlen' : (t.items leaf).length = E.length + (F.length + 2) := by rw [hitems, length_append]; rfl
      have hpage : t.nextPageAtEnd leaf (E ++ [v]).length = ⟨some leaf, E.length + 1⟩ := by
        rw [nextPageAtEnd, hlen, hlen', if_neg (by omega)]
      rw [hpage, getNext]
      dsimp only
      rw [hlen', if_neg (by omega)]
      rfl
  rw [hend]
  rcases nextPageAtEnd_spec hs hi hrow hitems' with ⟨hfalse, hnil⟩ | ⟨htrue, w, Z, hY, hpoints⟩
  · rw [hfalse, if_neg Bool.false_ne_true]
    exact .inl ⟨rfl, hnil⟩
  · rw [htrue, if_pos rfl]
    exact .inr ⟨rfl, w, Z, hY, hX ▸ hpoints⟩

omit [Inhabited V] in
theorem getPrev_spec (hp : t.Points (rows 0) at_ X v Y) :
    (t.getPrev at_ = (false, at_) ∧ X = []) ∨
      (t.getPrev at_).1 = true ∧ ∃ Z w, X = Z ++ [w] ∧ t.Points (rows 0) (t.getPrev at_).2 Z w (v :: Y) := by
  obtain ⟨A, leaf, B, E, F, hrow, hitems, rfl, rfl, rfl⟩ := hp
  have hstep : t.getPrev ⟨some leaf, E.length⟩ =
      if (t.stepBack leaf E.length).1 then t.stepBack leaf E.length else (false, ⟨some leaf, E.length⟩) := by
    unfold getPrev stepBack lastBefore
    dsimp only
    split
    next hzero => cases t.prev leaf <;> simp [hzero]
    next => rfl
  rw [hstep]
  rcases stepBack_spec hs hi hrow hitems with ⟨hfalse, hnil⟩ | ⟨htrue, Z, w, hX, hpoints⟩
  · rw [hfalse, if_neg Bool.false_ne_true]
    exact .inl ⟨rfl, hnil⟩
  · rw [if_pos htrue]
    exact .inr ⟨htrue, Z, w, hX, hpoints⟩

end

end Firebird.Tree.BePlusTree
