import Firebird.Tree.RemovePage
import Firebird.Tree.AddItem

/-! # The current item is removed -/

namespace Firebird.Tree.BePlusTree

open Function Lib List

variable {V K : Type} [Inhabited V] [LinearOrder K]
variable {T : Template V K} {t t' : BePlusTree V} {rows : Nat → List PageId} {A B row : List PageId}
  {p q leaf temp : PageId} {els E F X Y : List V} {v : V}

def Anchored (t : BePlusTree V) (leaves : List PageId) : Prop :=
  ∀ p, t.defaultAccessor.curr = some p → p ∈ leaves

/-- The item behind `X` is gone: the accessor stands on the first of the items behind it, if there is one. -/
structure Removed (T : Template V K) (t' : BePlusTree V) (rows' : Nat → List PageId) (X Y : List V) (result : Bool) :
    Prop where
  shape : t'.Shape T rows'
  sheets : t'.Sheets T (rows' 0) (X ++ Y)
  anchored : t'.Anchored (rows' 0)
  ended : result = false → Y = []
  points : result = true → ∃ w Z, Y = w :: Z ∧ t'.Points (rows' 0) t'.defaultAccessor X w Z

omit [LinearOrder K] [Inhabited V] in
theorem Points.mem {at_ : Position} (hp : t.Points row at_ X v Y) : ∀ p, at_.curr = some p → p ∈ row := by
  obtain ⟨A, leaf, B, E, F, rfl, -, rfl, -, -⟩ := hp
  intro p hp
  cases Option.some.inj hp
  exact mem_append_right A (.head B)

theorem ascending_heads (f : PageId → List V)
    (hsorted : (row.flatMap f).Pairwise fun a b => T.keyOfValue a < T.keyOfValue b) (hfilled : ∀ p ∈ row, f p ≠ [])
    (hhead : ∀ p ∈ row, (t.items p).headD default = (f p).headD default) : t.Ascending T 0 row := by
  have hfirsts := List.Pairwise.sublist (firsts_sublist default hfilled) hsorted
  rw [pairwise_map] at hfirsts
  refine hfirsts.imp_of_mem fun {p q} hp hq hpq => ?_
  rw [generate, generate, leftmost, leftmost, hhead p hp, hhead q hq]
  exact hpq

theorem Shape.leaving (hs : t.Shape T rows) (hlevel : 0 < t.level) (hrow : rows 0 = A ++ leaf :: B)
    (hasc : t.Ascending T 0 (rows 0)) : Leaving T t rows 0 A leaf B :=
  ⟨hlevel, hrow, hs.row, hs.apart, nofun, nofun, fun k _ hk => hs.storey k hk, hs.level, hs.top, hs.released, hasc⟩

omit [Inhabited V] [LinearOrder K] in
theorem Shape.accessor (hs : t.Shape T rows) (curr : Option PageId) (curPos : Nat) :
    (t.setAccessor curr curPos).Shape T rows := hs.same ⟨rfl, rfl, rfl, rfl, rfl, rfl, rfl, rfl, rfl⟩

omit [Inhabited V] in
theorem Sheets.accessor (hi : t.Sheets T row els) (curr : Option PageId) (curPos : Nat) :
    (t.setAccessor curr curPos).Sheets T row els := ⟨hi.holds, hi.fits, hi.filled, hi.sorted⟩

omit [Inhabited V] in
theorem removed_behind (hs : t.Shape T rows) (hi : t.Sheets T (rows 0) (X ++ Y)) (hrow : rows 0 = A ++ B)
    (hfilled : ∀ p ∈ B, t.items p ≠ []) (hX : X = A.flatMap t.items) (hY : Y = B.flatMap t.items) :
    Removed T (t.setAccessor B.head? 0) rows X Y B.head?.isSome := by
  subst hX hY
  refine ⟨hs.accessor _ _, hi.accessor _ _, fun p hp => ?_, fun hnone => ?_, fun hsome => ?_⟩
  · exact hrow ▸ mem_append_right A (mem_of_mem_head? hp)
  · cases B with
    | nil => rfl
    | cons b B => exact nomatch hnone
  · cases B with
    | nil => exact nomatch hsome
    | cons b B =>
      obtain ⟨w, Z, hb⟩ := exists_cons_of_ne_nil (hfilled b (.head B))
      refine ⟨w, Z ++ B.flatMap t.items, by rw [flatMap_cons, hb]; rfl, A, b, B, [], Z, hrow, hb, rfl, ?_, rfl⟩
      exact (append_nil _).symm

omit [Inhabited V] in
theorem removed_next (hs : t.Shape T rows) (hi : t.Sheets T (rows 0) (X ++ Y)) (hrow : rows 0 = A ++ leaf :: B)
    (hitems : t.items leaf = E ++ F) (hX : X = A.flatMap t.items ++ E) (hY : Y = F ++ B.flatMap t.items)
    {at_ : Position} (hat : at_ = t.nextPageAtEnd leaf E.length) :
    Removed T (t.setAccessor at_.curr at_.curPos) rows X Y at_.curr.isSome := by
  subst hX hY hat
  rcases nextPageAtEnd_spec hs hi hrow hitems with ⟨hfalse, hnil⟩ | ⟨htrue, w, Z, hY, hpoints⟩
  · refine ⟨hs.accessor _ _, hi.accessor _ _, fun p hp => ?_, fun _ => hnil, fun htrue => ?_⟩
    · rw [Option.isSome_eq_false_iff, Option.isNone_iff_eq_none] at hfalse
      exact nomatch hfalse.symm.trans hp
    · exact nomatch hfalse.symm.trans htrue
  · refine ⟨hs.accessor _ _, hi.accessor _ _, fun p hp => hpoints.mem p hp, fun hfalse => ?_,
      fun _ => ⟨w, Z, hY, hpoints⟩⟩
    exact nomatch htrue.symm.trans hfalse

omit [Inhabited V] [LinearOrder K] in
theorem adjust_eq (hitems : t.items leaf = E ++ F) :
    (if E.length ≥ (t.items leaf).length then ((t.next leaf).isSome, t.setAccessor (t.next leaf) 0)
      else (true, t.setAccessor (some leaf) E.length)) =
      ((t.nextPageAtEnd leaf E.length).curr.isSome,
        t.setAccessor (t.nextPageAtEnd leaf E.length).curr (t.nextPageAtEnd leaf E.length).curPos) := by
  have hle : E.length ≤ (t.items leaf).length := by
    rw [hitems, length_append]
    exact Nat.le_add_right _ _
  unfold nextPageAtEnd
  by_cases hend : E.length = (t.items leaf).length
  · rw [if_pos hend, if_pos hend.ge]
  · rw [if_neg hend, if_neg (by omega)]
    rfl

theorem Leaving.removed (hl : Leaving T t rows 0 A leaf B)
    (hsorted : els.Pairwise fun a b => T.keyOfValue a < T.keyOfValue b)
    (hholds : (A ++ B).flatMap t.items = els) (hfits : ∀ p ∈ A ++ B, (t.items p).length ≤ T.leafCount)
    (hfilled : ∀ p ∈ A ++ B, t.items p ≠ []) :
    ∃ t' rows', t.removePage T (t.level + 1) leaf = some t' ∧ t'.Shape T rows' ∧ t'.Sheets T (rows' 0) els ∧
      rows' 0 = A ++ B ∧ t'.items = t.items ∧ t'.defaultAccessor = t.defaultAccessor := by
  obtain ⟨t', rows', hremove, hs, hrow, -, -, -, -, hitems, -, hacc⟩ := hl.removePage_spec (t.level + 1) (by omega)
  refine ⟨t', rows', hremove, hs, ⟨?_, ?_, fun _ => ?_, hsorted⟩, hrow, hitems, hacc⟩
  · rw [hrow, hitems, hholds]
  all_goals rwa [hrow, hitems]

omit [Inhabited V] in
theorem Sheets.sorted_without (hi : t.Sheets T row els) (hels : els = X ++ v :: Y) :
    (X ++ Y).Pairwise fun a b => T.keyOfValue a < T.keyOfValue b := by
  have hsorted := hi.sorted
  rw [hels] at hsorted
  exact hsorted.sublist ((sublist_cons_self v Y).append_left X)

omit [Inhabited V] in
theorem Sheets.around (hi : t.Sheets T (rows 0) els) (hrow : rows 0 = A ++ leaf :: B)
    (hitems : t.items leaf = E ++ v :: F) : els = (A.flatMap t.items ++ E) ++ v :: (F ++ B.flatMap t.items) := by
  rw [← hi.holds, hrow, flatMap_append, flatMap_cons, hitems]
  simp only [append_assoc, cons_append]

omit [Inhabited V] in
theorem Sheets.refill (hi : t.Sheets T row els) (hrow : row = A ++ p :: q :: B) (hnodup : row.Nodup)
    (hlevel : t'.level = t.level) (hp : t'.items p = E) (hq : t'.items q = F)
    (hother : ∀ r, r ≠ p → r ≠ q → t'.items r = t.items r) (hE : E ≠ [] ∧ E.length ≤ T.leafCount)
    (hF : F ≠ [] ∧ F.length ≤ T.leafCount)
    (hsorted : (A.flatMap t.items ++ (E ++ F) ++ B.flatMap t.items).Pairwise fun a b =>
      T.keyOfValue a < T.keyOfValue b) :
    t'.Sheets T row (A.flatMap t.items ++ (E ++ F) ++ B.flatMap t.items) ∧ A.flatMap t'.items = A.flatMap t.items ∧
      B.flatMap t'.items = B.flatMap t.items := by
  rw [hrow, nodup_append, nodup_cons, nodup_cons] at hnodup
  obtain ⟨-, ⟨hpB, hqB, -⟩, hAB⟩ := hnodup
  have hA : A.flatMap t'.items = A.flatMap t.items := flatMap_congr fun r hr =>
    hother r (hAB r hr p (.head _)) (hAB r hr q (.tail p (.head _)))
  have hB : B.flatMap t'.items = B.flatMap t.items := flatMap_congr fun r hr =>
    hother r (ne_of_mem_of_not_mem (mem_cons_of_mem q hr) hpB) (ne_of_mem_of_not_mem hr hqB)
  refine ⟨hi.change ?_ (fun r hr => ?_) hlevel hsorted, hA, hB⟩
  · rw [hrow, flatMap_append, flatMap_cons, flatMap_cons, hA, hB, hp, hq]
    simp only [append_assoc]
  · by_cases hrp : r = p
    · exact .inr (by rw [hrp, hp]; exact hE)
    · by_cases hrq : r = q
      · exact .inr (by rw [hrq, hq]; exact hF)
      · exact .inl ⟨hother r hrp hrq, hr⟩

section
variable (hs : t.Shape T rows)
include hs

omit [Inhabited V] [LinearOrder K] in
theorem Shape.row_ne (hlevel : 0 < t.level) (p : PageId) : rows 0 ≠ [p] := fun hrow => by
  have hh := hs.storey 0 hlevel
  have hone := congrArg length (hh.holds.trans hrow)
  cases hupper : rows 1 with
  | nil =>
    rw [hupper] at hone
    exact absurd hone (Nat.zero_ne_one)
  | cons x upper =>
    rw [hupper, flatMap_cons, length_append] at hone
    have hx := length_pos_of_ne_nil (hh.filled x (hupper ▸ .head upper))
    cases upper with
    | nil =>
      have htwo := hh.alone x hupper
      rw [flatMap_nil, length_nil, length_singleton] at hone
      omega
    | cons y upper =>
      have hy := length_pos_of_ne_nil (hh.filled y (hupper ▸ .tail x (.head upper)))
      rw [flatMap_cons, length_append, length_singleton] at hone
      omega

omit [Inhabited V] [LinearOrder K] in
theorem neighbours_of_row (hrow : rows 0 = A ++ leaf :: B) :
    t.next leaf = B.head? ∧ t.prev leaf = A.getLast? ∧ leaf ∉ A ++ B := by
  have hrow0 := hs.row 0 (Nat.zero_le _)
  have hlinked := hrow ▸ hrow0.linked
  have hnodup := hrow ▸ hrow0.nodup
  exact ⟨hlinked.next_eq, hlinked.prev_eq, (nodup_cons.mp (nodup_middle.mp hnodup)).1⟩

theorem removeOnly_spec (hi : t.Sheets T (rows 0) els) (hlevel : 0 < t.level)
    (hrow : rows 0 = A ++ leaf :: B) (hitems : t.items leaf = [v]) (hacc : t.defaultAccessor = ⟨some leaf, 0⟩) :
    ∃ result t' rows', t.removeOnly T leaf 0 = some (result, t') ∧
      Removed T t' rows' (A.flatMap t.items) (B.flatMap t.items) result := by
  obtain ⟨hnext, hprev, hleaf⟩ := neighbours_of_row hs hrow
  have hfilled := hi.filled hlevel
  have hels := hi.around (E := []) (F := []) hrow hitems
  rw [append_nil] at hels
  have hsorted := hi.sorted_without hels
  have hset : ∀ w, (t.items leaf).set 0 w = [w] := fun w => by rw [hitems]; rfl
  unfold removeOnly
  dsimp only
  rw [hprev, hnext]
  split
  next hmerge =>
    have hmem : ∀ p ∈ A ++ B, p ∈ rows 0 := fun p hp => by
      rw [hrow, mem_append]
      rw [mem_append] at hp
      tauto
    obtain ⟨t', rows', hremove, hs', hi', hrow', hitems', -⟩ :=
      (hs.leaving hlevel hrow (hs.ascending_leaves hi)).removed
      hsorted flatMap_append (fun p hp => hi.fits p (hmem p hp)) fun p hp => hfilled p (hmem p hp)
    rw [hremove]
    refine ⟨_, _, rows', rfl, removed_behind hs' hi' hrow' (fun p hp => ?_) ?_ ?_⟩
    · rw [hitems']
      exact hfilled p (hmem p (mem_append_right A hp))
    all_goals rw [hitems']
  next hmerge =>
    rw [Option.not_isSome_iff_eq_none, Option.or_eq_none_iff, toMerge_none, toMerge_none] at hmerge
    rcases eq_nil_or_concat A with rfl | ⟨A, temp, rfl⟩
    · cases B with
      | nil => exact absurd hrow (hs.row_ne hlevel leaf)
      | cons temp B =>
        have htmem : temp ∈ rows 0 := hrow ▸ .tail leaf (.head B)
        obtain ⟨z, G, hz⟩ := exists_cons_of_ne_nil (hfilled temp htmem)
        have hthree := three_le_of_needMerge (hmerge.2 temp rfl) T.two_le_leafCount
        have hfits := hi.fits temp htmem
        rw [hz, length_cons] at hthree hfits
        have htemp : (t.items temp).getD 0 default = z := by rw [hz]; rfl
        have hrest : (t.items temp).eraseIdx 0 = G := by rw [hz]; rfl
        have hne : leaf ≠ temp := fun heq => hleaf (heq ▸ .head B)
        rw [flatMap_cons, hz] at hsorted ⊢
        show ∃ result t' rows', some
            (true, (t.setItems leaf ((t.items leaf).set 0 ((t.items temp).getD 0 default))).setItems
          temp ((t.items temp).eraseIdx 0)) = some (result, t') ∧ _
        rw [hset, htemp, hrest]
        have hleafItems : ((t.setItems leaf [z]).setItems temp G).items leaf = [z] :=
          (update_of_ne hne _ _).trans (update_self _ _ _)
        have hlevel' : ((t.setItems leaf [z]).setItems temp G).level = t.level := rfl
        obtain ⟨hi', -, hB⟩ := hi.refill (A := []) hrow (hs.row 0 (Nat.zero_le _)).nodup hlevel' hleafItems
          (update_self _ _ _) (fun r hp hq => (update_of_ne hq _ _).trans (update_of_ne hp _ _))
          ⟨cons_ne_nil z [], (Nat.le_succ 1).trans T.two_le_leafCount⟩
          ⟨ne_nil_of_length_pos (by omega), by omega⟩ hsorted
        refine ⟨_, _, rows, rfl, hs.same ⟨rfl, rfl, rfl, rfl, rfl, rfl, rfl, rfl, rfl⟩, hi',
          fun p hp => ?_, nofun, fun _ => ?_⟩
        · cases Option.some.inj ((congrArg Position.curr hacc).symm.trans hp)
          exact hrow ▸ .head _
        · refine ⟨z, G ++ B.flatMap t.items, rfl, [], leaf, temp :: B, [], [], hrow, hleafItems, hacc, rfl, ?_⟩
          rw [flatMap_cons, hB]
          exact congrArg (· ++ B.flatMap t.items) (update_self temp G (update t.items leaf [z])).symm
    · rw [concat_eq_append] at *
      have htmem : temp ∈ rows 0 := hrow ▸ mem_append_left _ (mem_append_right A (.head []))
      obtain ⟨G, z, hz⟩ := (eq_nil_or_concat (t.items temp)).resolve_left (hfilled temp htmem)
      rw [concat_eq_append] at hz
      have hthree := three_le_of_needMerge (hmerge.1 temp getLast?_concat) T.two_le_leafCount
      have hfits := hi.fits temp htmem
      rw [hz, length_append, length_singleton] at hthree hfits
      have hget : (t.items temp).getD ((t.items temp).length - 1) default = z := by
        rw [hz, length_append, length_singleton, Nat.add_sub_cancel,
          getD_append_right _ _ _ _ (Nat.le_refl _), Nat.sub_self]
        rfl
      have htake : (t.items temp).take ((t.items temp).length - 1) = G := by
        rw [hz, length_append, length_singleton, Nat.add_sub_cancel, take_left]
      have hne : leaf ≠ temp := fun heq => hleaf (heq ▸ mem_append_left B (mem_append_right A (.head [])))
      rw [getLast?_concat]
      show ∃ result t' rows', some (B.head?.isSome, ((t.setItems leaf ((t.items leaf).set 0
        ((t.items temp).getD ((t.items temp).length - 1) default))).setItems temp
          ((t.items temp).take ((t.items temp).length - 1))).setAccessor B.head? 0) = some (result, t') ∧ _
      rw [hset, hget, htake]
      have hX : (A ++ [temp]).flatMap t.items = A.flatMap t.items ++ (G ++ [z]) := by
        rw [flatMap_append, flatMap_singleton, hz]
      rw [hX] at hsorted ⊢
      have hrow' : rows 0 = A ++ temp :: leaf :: B := by rw [hrow, ← append_cons]
      have hleafItems : ((t.setItems leaf [z]).setItems temp G).items leaf = [z] :=
        (update_of_ne hne _ _).trans (update_self _ _ _)
      have htempItems : ((t.setItems leaf [z]).setItems temp G).items temp = G := update_self _ _ _
      have hlevel' : ((t.setItems leaf [z]).setItems temp G).level = t.level := rfl
      obtain ⟨hi', hA, hB⟩ := hi.refill hrow' (hs.row 0 (Nat.zero_le _)).nodup hlevel' htempItems hleafItems
        (fun r hp hq => (update_of_ne hp _ _).trans (update_of_ne hq _ _))
        ⟨ne_nil_of_length_pos (by omega), by omega⟩
        ⟨cons_ne_nil z [], (Nat.le_succ 1).trans T.two_le_leafCount⟩ hsorted
      refine ⟨_, _, rows, rfl, removed_behind (A := A ++ [temp, leaf]) (hs.same ⟨rfl, rfl, rfl, rfl, rfl, rfl, rfl, rfl,
        rfl⟩) hi' ?_ (fun p hp => ?_) ?_ hB.symm⟩
      · rw [hrow', append_assoc]
        rfl
      · exact hi'.filled hlevel p (hrow ▸ mem_append_right _ (.tail leaf hp))
      · rw [flatMap_append, hA, flatMap_cons, flatMap_singleton, htempItems, hleafItems]

theorem Shape.joined (hlevel : 0 < t.level) (hrow : rows 0 = A ++ p :: q :: B) {f : PageId → List V}
    (hsorted : ((rows 0).flatMap f).Pairwise fun a b => T.keyOfValue a < T.keyOfValue b)
    (hfilled : ∀ r ∈ rows 0, f r ≠ []) (hfits : ∀ r ∈ rows 0, (f r).length ≤ T.leafCount)
    (hmerge : (f p ++ f q).length ≤ T.leafCount) (hp : t.items p = f p ++ f q) (hkept : ∀ r, r ≠ p → t.items r = f r) :
    ∃ t' rows', t.removePage T (t.level + 1) q = some t' ∧ t'.Shape T rows' ∧
    t'.Sheets T (rows' 0) ((rows 0).flatMap f) ∧
      rows' 0 = A ++ p :: B ∧ t'.items = t.items ∧ t'.defaultAccessor = t.defaultAccessor := by
  obtain ⟨-, -, hnot⟩ := neighbours_of_row hs hrow
  have hpmem : p ∈ rows 0 := hrow ▸ mem_append_right A (.head _)
  have hasc : t.Ascending T 0 (rows 0) := by
    refine ascending_heads f hsorted hfilled fun r hr => ?_
    by_cases hrp : r = p
    · obtain ⟨w, l, hw⟩ := exists_cons_of_ne_nil (hfilled p hpmem)
      rw [hrp, hp, hw]
      rfl
    · rw [hkept r hrp]
  have hcases : ∀ r ∈ (A ++ [p]) ++ B, r = p ∨ t.items r = f r ∧ r ∈ rows 0 := fun r hr => by
    by_cases hrp : r = p
    · exact .inl hrp
    · refine .inr ⟨hkept r hrp, ?_⟩
      rw [hrow, append_cons, mem_append]
      rw [mem_append] at hr
      exact hr.imp_right (.tail q)
  have hholds : ((A ++ [p]) ++ B).flatMap t.items = (rows 0).flatMap f := by
    have hA : A.flatMap t.items = A.flatMap f :=
      flatMap_congr fun r hr => hkept r (ne_of_mem_of_not_mem (mem_append_left _ hr) hnot)
    have hB : B.flatMap t.items = B.flatMap f :=
      flatMap_congr fun r hr => hkept r (ne_of_mem_of_not_mem (mem_append_right A (.tail q hr)) hnot)
    rw [hrow, flatMap_append, flatMap_append, flatMap_singleton, hA, hB, hp, flatMap_append, flatMap_cons, flatMap_cons]
    simp only [append_assoc]
  obtain ⟨t', rows', hremove, hs', hi', hrow', hitems, hacc⟩ :=
    (hs.leaving hlevel (hrow.trans (append_cons A p (q :: B))) hasc).removed hsorted hholds
      (fun r hr => by
        rcases hcases r hr with rfl | ⟨hsame, hmem⟩
        · rwa [hp]
        · rw [hsame]
          exact hfits r hmem)
      (fun r hr => by
        rcases hcases r hr with rfl | ⟨hsame, hmem⟩
        · rw [hp]
          exact append_ne_nil_of_left_ne_nil (hfilled r hpmem) _
        · rw [hsame]
          exact hfilled r hmem)
  exact ⟨t', rows', hremove, hs', hi', by rw [hrow', ← append_cons], hitems, hacc⟩

theorem removeOne_spec (hi : t.Sheets T (rows 0) els) (hlevel : 0 < t.level)
    (hrow : rows 0 = A ++ leaf :: B) (hitems : t.items leaf = E ++ v :: F) (hne : E ++ F ≠ [])
    (hacc : t.defaultAccessor = ⟨some leaf, E.length⟩) :
    ∃ result t' rows', t.removeOne T leaf E.length = some (result, t') ∧
      Removed T t' rows' (A.flatMap t.items ++ E) (F ++ B.flatMap t.items) result := by
  obtain ⟨hnext, hprev, hleaf⟩ := neighbours_of_row hs hrow
  have hfilled := hi.filled hlevel
  have hsorted := hi.sorted_without (hi.around hrow hitems)
  have hleafA : leaf ∉ A := fun hmem => hleaf (mem_append_left B hmem)
  have hleafB : leaf ∉ B := fun hmem => hleaf (mem_append_right A hmem)
  have herase : (t.items leaf).eraseIdx E.length = E ++ F := by rw [hitems, eraseIdx_append]
  have hother : ∀ p, p ≠ leaf → update t.items leaf (E ++ F) p = t.items p := fun p hp => update_of_ne hp _ _
  have hself : update t.items leaf (E ++ F) leaf = E ++ F := update_self _ _ _
  -- what the row holds before pages are joined
  have hflat : (rows 0).flatMap (update t.items leaf (E ++ F)) =
      (A.flatMap t.items ++ E) ++ (F ++ B.flatMap t.items) := by
    rw [hrow, flatMap_append, flatMap_cons, hself, flatMap_update_of_notMem hleafA,
      flatMap_update_of_notMem hleafB]
    simp only [append_assoc]
  have hfilled' : ∀ p ∈ rows 0, update t.items leaf (E ++ F) p ≠ [] := fun p hp => by
    by_cases hpl : p = leaf
    · rwa [hpl, hself]
    · rw [hother p hpl]
      exact hfilled p hp
  have hfits : (E ++ F).length ≤ T.leafCount := by
    refine le_trans ?_ (hi.fits leaf (hrow ▸ mem_append_right A (.head B)))
    rw [hitems, length_append, length_append, length_cons]
    omega
  have hfits' : ∀ p ∈ rows 0, (update t.items leaf (E ++ F) p).length ≤ T.leafCount := fun p hp => by
    by_cases hpl : p = leaf
    · rwa [hpl, hself]
    · rw [hother p hpl]
      exact hi.fits p hp
  have hmerge : ∀ {page page'}, page = page' → toMerge (fun p => ((t.setItems leaf (E ++ F)).items p).length)
      ((t.setItems leaf (E ++ F)).items leaf).length T.leafCount page =
        toMerge (fun p => (update t.items leaf (E ++ F) p).length) (E ++ F).length T.leafCount page' := by
    rintro page - rfl
    exact congrArg (fun items => toMerge _ (length items) T.leafCount page) hself
  have hprev' : (t.setItems leaf (E ++ F)).prev leaf = A.getLast? := hprev
  have hnext' : (t.setItems leaf (E ++ F)).next leaf = B.head? := hnext
  unfold removeOne
  rw [herase]
  dsimp only
  rw [hmerge hprev', hmerge hnext']
  cases hleft : toMerge (fun p => (update t.items leaf (E ++ F) p).length) (E ++ F).length T.leafCount A.getLast? with
  | some temp =>
    obtain ⟨htemp, hmerge⟩ := toMerge_eq.mp hleft
    obtain ⟨A, rfl⟩ := getLast?_eq_some_iff.mp htemp
    have htl : temp ≠ leaf := fun heq => hleafA (heq ▸ mem_append_right A (.head []))
    have htmem : temp ∈ rows 0 := hrow ▸ mem_append_left _ (mem_append_right A (.head []))
    obtain ⟨-, -, htemp'⟩ := neighbours_of_row (A := A) hs (hrow.trans (append_assoc ..))
    have htA : temp ∉ A := fun hmem => htemp' (mem_append_left _ hmem)
    have htB : temp ∉ B := fun hmem => htemp' (mem_append_right A (.tail leaf hmem))
    rw [hother temp htl] at hmerge
    show ∃ result t' rows', ((((t.setItems leaf (E ++ F)).setItems temp (update t.items leaf (E ++ F) temp ++
      update t.items leaf (E ++ F) leaf)).removePage T (t.level + 1) leaf).map _) = some (result, t') ∧ _
    rw [hself, hother temp htl]
    have htempItems : ((t.setItems leaf (E ++ F)).setItems temp (t.items temp ++ (E ++ F))).items temp =
      (t.items temp ++ E) ++ F := (update_self _ _ _).trans (append_assoc _ _ _).symm
    have hkept : ∀ p, p ≠ temp → ((t.setItems leaf (E ++ F)).setItems temp (t.items temp ++ (E ++ F))).items p =
      update t.items leaf (E ++ F) p := fun p hpt => update_of_ne hpt _ _
    have hs' : ((t.setItems leaf (E ++ F)).setItems temp (t.items temp ++ (E ++ F))).Shape T rows :=
      hs.same ⟨rfl, rfl, rfl, rfl, rfl, rfl, rfl, rfl, rfl⟩
    have hlevel' : ((t.setItems leaf (E ++ F)).setItems temp (t.items temp ++ (E ++ F))).level = t.level := rfl
    have hpos : E.length + ((t.setItems leaf (E ++ F)).items temp).length = (t.items temp ++ E).length := by
      rw [length_append, Nat.add_comm]
      exact congrArg (length · + E.length) (hother temp htl)
    generalize (t.setItems leaf (E ++ F)).setItems temp (t.items temp ++ (E ++ F)) = s at *
    have hA : A.flatMap s.items = A.flatMap t.items := flatMap_congr fun p hp => by
      rw [hkept p (ne_of_mem_of_not_mem hp htA), hother p (ne_of_mem_of_not_mem (mem_append_left _ hp) hleafA)]
    have hB : B.flatMap s.items = B.flatMap t.items := flatMap_congr fun p hp => by
      rw [hkept p (ne_of_mem_of_not_mem hp htB), hother p (ne_of_mem_of_not_mem hp hleafB)]
    have hjoined : (update t.items leaf (E ++ F) temp ++ update t.items leaf (E ++ F) leaf).length ≤ T.leafCount := by
      rw [hself, hother temp htl, length_append]
      exact le_of_needMerge hmerge
    obtain ⟨t', rows', hremove, hs₁, hi₁, hrow₁, hitems₁, -⟩ := hs'.joined (hlevel' ▸ hlevel)
      (hrow.trans (append_assoc A [temp] (leaf :: B))) (hflat ▸ hsorted) hfilled' hfits' hjoined
      (by rw [htempItems, hself, hother temp htl, append_assoc]) hkept
    rw [hflat] at hi₁
    rw [hlevel'] at hremove
    rw [hremove]
    have hadjust := adjust_eq (t := t') (hitems₁ ▸ htempItems)
    rw [← hpos] at hadjust
    refine ⟨_, _, rows', congrArg some hadjust, removed_next hs₁ hi₁ hrow₁ (hitems₁ ▸ htempItems) ?_ ?_ ?_⟩
    · rw [hitems₁, hA, flatMap_append, flatMap_singleton, append_assoc]
    · rw [hitems₁, hB]
    · rw [hpos]
  | none =>
    cases hright : toMerge (fun p => (update t.items leaf (E ++ F) p).length) (E ++ F).length T.leafCount B.head? with
    | some temp =>
      obtain ⟨htemp, hmerge⟩ := toMerge_eq.mp hright
      obtain ⟨B, rfl⟩ := head?_eq_some_iff.mp htemp
      have htl : temp ≠ leaf := fun heq => hleafB (heq ▸ .head B)
      have htmem : temp ∈ rows 0 := hrow ▸ mem_append_right A (.tail leaf (.head B))
      rw [hother temp htl] at hmerge
      show ∃ result t' rows', ((((t.setItems leaf (E ++ F)).setItems leaf (update t.items leaf (E ++ F) leaf ++
        update t.items leaf (E ++ F) temp)).removePage T (t.level + 1) temp).map _) = some (result, t') ∧ _
      rw [hself, hother temp htl]
      have hleafItems : ((t.setItems leaf (E ++ F)).setItems leaf ((E ++ F) ++ t.items temp)).items leaf =
        E ++ (F ++ t.items temp) := (update_self _ _ _).trans (append_assoc _ _ _)
      have hkept : ∀ p, p ≠ leaf → ((t.setItems leaf (E ++ F)).setItems leaf ((E ++ F) ++ t.items temp)).items p =
        t.items p := fun p hpl => (update_of_ne hpl _ _).trans (hother p hpl)
      have hs' : ((t.setItems leaf (E ++ F)).setItems leaf ((E ++ F) ++ t.items temp)).Shape T rows :=
        hs.same ⟨rfl, rfl, rfl, rfl, rfl, rfl, rfl, rfl, rfl⟩
      have hlevel' : ((t.setItems leaf (E ++ F)).setItems leaf ((E ++ F) ++ t.items temp)).level = t.level := rfl
      have hacc' : ((t.setItems leaf (E ++ F)).setItems leaf ((E ++ F) ++ t.items temp)).defaultAccessor =
        ⟨some leaf, E.length⟩ := hacc
      generalize (t.setItems leaf (E ++ F)).setItems leaf ((E ++ F) ++ t.items temp) = s at *
      have hA : A.flatMap s.items = A.flatMap t.items := flatMap_congr fun p hp =>
        hkept p (ne_of_mem_of_not_mem hp hleafA)
      have hB : B.flatMap s.items = B.flatMap t.items := flatMap_congr fun p hp =>
        hkept p (ne_of_mem_of_not_mem (mem_cons_of_mem temp hp) hleafB)
      have hjoined : (update t.items leaf (E ++ F) leaf ++ update t.items leaf (E ++ F) temp).length ≤ T.leafCount := by
        rw [hself, hother temp htl, length_append, Nat.add_comm]
        exact le_of_needMerge hmerge
      obtain ⟨t', rows', hremove, hs₁, hi₁, hrow₁, hitems₁, hacc₁⟩ :=
        hs'.joined (hlevel' ▸ hlevel) hrow (hflat ▸ hsorted)
        hfilled' hfits' hjoined (by rw [hleafItems, hself, hother temp htl, append_assoc])
        fun p hpl => (hkept p hpl).trans (hother p hpl).symm
      rw [hflat] at hi₁
      rw [hlevel'] at hremove
      rw [hremove]
      obtain ⟨w, Z, hw⟩ := exists_cons_of_ne_nil (append_ne_nil_of_right_ne_nil F (hfilled temp htmem))
      have hpoints : t'.Points (rows' 0) t'.defaultAccessor (A.flatMap t.items ++ E) w (Z ++ B.flatMap t.items) := by
        refine ⟨A, leaf, B, E, Z, hrow₁, ?_, ?_, ?_, ?_⟩
        · rw [hitems₁, hleafItems, hw]
        · rw [hacc₁, hacc']
        · rw [hitems₁, hA]
        · rw [hitems₁, hB]
      refine ⟨true, t', rows', rfl, hs₁, hi₁, fun p hp => hpoints.mem p hp, by simp, fun _ => ⟨w, _, ?_, hpoints⟩⟩
      rw [flatMap_cons, ← append_assoc, hw]
      rfl
    | none =>
      have hi' : (t.setItems leaf (E ++ F)).Sheets T (rows 0) ((A.flatMap t.items ++ E) ++
          (F ++ B.flatMap t.items)) := by
        refine hi.change hflat (fun p hp => ?_) rfl hsorted
        by_cases hpl : p = leaf
        · have hleafItems : (t.setItems leaf (E ++ F)).items leaf = E ++ F := hself
          exact .inr (by rw [hpl, hleafItems]; exact ⟨hne, hfits⟩)
        · exact .inl ⟨hother p hpl, hp⟩
      have hs' : (t.setItems leaf (E ++ F)).Shape T rows := hs.same ⟨rfl, rfl, rfl, rfl, rfl, rfl, rfl, rfl, rfl⟩
      refine ⟨_, _, rows, congrArg some (adjust_eq (t := t.setItems leaf (E ++ F)) hself),
        removed_next hs' hi' hrow hself ?_ ?_ rfl⟩
      · exact congrArg (· ++ E) (flatMap_update_of_notMem hleafA).symm
      · exact congrArg (F ++ ·) (flatMap_update_of_notMem hleafB).symm

/-- `fastRemove` takes the item the accessor stands on out of the tree and goes to the next one. -/
theorem fastRemove_spec (hi : t.Sheets T (rows 0) els)
    (hp : t.Points (rows 0) t.defaultAccessor X v Y) :
    ∃ result t' rows', t.fastRemove T = some (result, t') ∧ Removed T t' rows' X Y result := by
  obtain ⟨A, leaf, B, E, F, hrow, hitems, hacc, rfl, rfl⟩ := hp
  have hlen : (t.items leaf).length = (E ++ F).length + 1 := by
    rw [hitems, length_append, length_cons, length_append, Nat.add_assoc]
  unfold fastRemove
  rw [hacc]
  dsimp only
  split
  next hlevel =>
    obtain ⟨rfl, rfl⟩ := hs.alone hrow hlevel
    rw [nil_append] at hrow
    have hels := hi.around (A := []) hrow hitems
    have hleafItems : (t.setItems leaf (E ++ F)).items leaf = E ++ F := update_self _ _ _
    have herase : (t.items leaf).eraseIdx E.length = E ++ F := by rw [hitems, eraseIdx_append]
    rw [herase, hleafItems]
    rw [flatMap_nil, append_nil] at hels ⊢
    have hfits := hi.fits leaf (hrow ▸ .head [])
    have hi' : (t.setItems leaf (E ++ F)).Sheets T (rows 0) (E ++ F) := by
      refine ⟨?_, fun p hp => ?_, fun hpos => absurd hlevel hpos.ne', hi.sorted_without hels⟩
      · rw [hrow, flatMap_singleton, hleafItems]
      · cases mem_singleton.mp (hrow ▸ hp)
        rw [hleafItems]
        omega
    refine ⟨_, _, rows, rfl, hs.same ⟨rfl, rfl, rfl, rfl, rfl, rfl, rfl, rfl, rfl⟩, hi', fun p hp => ?_, fun hfalse =>
      ?_, fun htrue => ?_⟩
    · cases Option.some.inj ((congrArg Position.curr hacc).symm.trans hp)
      exact hrow ▸ .head _
    · rw [length_append, decide_eq_false_iff_not] at hfalse
      exact eq_nil_of_length_eq_zero (by omega)
    · rw [length_append, decide_eq_true_iff] at htrue
      obtain ⟨w, Z, rfl⟩ := exists_cons_of_ne_nil (ne_nil_of_length_pos (by omega : 0 < F.length))
      exact ⟨w, Z, rfl, [], leaf, [], E, Z, hrow, hleafItems, hacc, rfl, (append_nil Z).symm⟩
  next hlevel =>
    have hpos := Nat.pos_of_ne_zero hlevel
    split
    next hone =>
      obtain ⟨rfl, rfl⟩ := append_eq_nil_iff.mp (eq_nil_of_length_eq_zero (by omega : (E ++ F).length = 0))
      rw [append_nil]
      exact removeOnly_spec hs hi hpos hrow hitems hacc
    next hone =>
      exact removeOne_spec hs hi hpos hrow hitems (ne_nil_of_length_pos (by omega)) hacc

end

end Firebird.Tree.BePlusTree
