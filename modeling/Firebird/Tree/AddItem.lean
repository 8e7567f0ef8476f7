import Firebird.Tree.Climb
import Firebird.Tree.Locate

/-! # An item comes into the tree -/

namespace Firebird.Tree.BePlusTree

open Function Lib List

variable {V K : Type} {T : Template V K} {t t' : BePlusTree V} {rows : Nat → List PageId}
  {A B leaves leaves' : List PageId}
  {h : Nat} {q leaf : PageId} {els els' E F X Y : List V} {item : V}

structure SameLinks (t t' : BePlusTree V) : Prop where
  nodes : t'.nodes = t.nodes
  nodeLevel : t'.nodeLevel = t.nodeLevel
  parent : t'.parent = t.parent
  next : t'.next = t.next
  prev : t'.prev = t.prev
  allocated : t'.allocated = t.allocated
  released : t'.released = t.released
  level : t'.level = t.level
  root : t'.root = t.root

theorem Shape.same (hs : t.Shape T rows) (h : SameLinks t t') : t'.Shape T rows where
  row k hk := by
    have hr := hs.row k (h.level ▸ hk)
    exact ⟨by rw [h.next, h.prev]; exact hr.linked, hr.nodup, h.allocated ▸ hr.known, h.released ▸ hr.live⟩
  apart := h.level ▸ hs.apart
  storey k hk := by
    rw [h.nodes, h.parent]
    exact hs.storey k (h.level ▸ hk)
  level k hk := by
    rw [h.nodeLevel]
    exact hs.level k (h.level ▸ hk)
  top := by
    rw [h.root, h.parent, h.level]
    exact hs.top
  released := by
    rw [h.released, h.allocated]
    exact hs.released

variable [LinearOrder K]

theorem Sheets.change (hi : t.Sheets T leaves els) (hholds : leaves'.flatMap t'.items = els')
    (hkept : ∀ p ∈ leaves', t'.items p = t.items p ∧ p ∈ leaves ∨ t'.items p ≠ [] ∧ (t'.items p).length ≤ T.leafCount)
    (hlevel : t'.level = t.level) (hsorted : els'.Pairwise fun a b => T.keyOfValue a < T.keyOfValue b) :
    t'.Sheets T leaves' els' where
  holds := hholds
  fits p hp := by
    rcases hkept p hp with ⟨heq, hmem⟩ | ⟨-, hfits⟩
    · exact heq ▸ hi.fits p hmem
    · exact hfits
  filled hpos p hp := by
    rcases hkept p hp with ⟨heq, hmem⟩ | ⟨hfilled, -⟩
    · exact heq ▸ hi.filled (hlevel ▸ hpos) p hmem
    · exact hfilled
  sorted := hsorted

theorem sorted_insert (hsorted : (X ++ Y).Pairwise fun a b => T.keyOfValue a < T.keyOfValue b)
    (hX : ∀ x ∈ X, T.keyOfValue x < T.keyOfValue item) (hY : ∀ y ∈ Y, T.keyOfValue item < T.keyOfValue y) :
    (X ++ item :: Y).Pairwise fun a b => T.keyOfValue a < T.keyOfValue b := by
  obtain ⟨hX', hY', hXY⟩ := pairwise_append.mp hsorted
  refine pairwise_append.mpr ⟨hX', pairwise_cons.mpr ⟨hY, hY'⟩, fun x hx y hy => ?_⟩
  rcases mem_cons.mp hy with rfl | hy
  · exact hX x hx
  · exact hXY x hx y hy

section
variable (hg : t.Gap T leaves A leaf B E F (T.keyOfValue item)) (hi : t.Sheets T leaves els)
include hg hi

theorem Gap.sorted :
    ((A.flatMap t.items ++ E) ++ item :: (F ++ B.flatMap t.items)).Pairwise fun a b =>
      T.keyOfValue a < T.keyOfValue b :=
  sorted_insert (hg.els_eq hi ▸ hi.sorted) hg.left hg.right

theorem Gap.insert (hnodup : leaves.Nodup)
    (hspace : (t.items leaf).length < T.leafCount) :
    (t.setItems leaf (E ++ item :: F)).Sheets T leaves
      ((A.flatMap t.items ++ E) ++ item :: (F ++ B.flatMap t.items)) := by
  rw [hg.leaves_eq] at hnodup
  obtain ⟨hA, hB⟩ := notMem_of_nodup hnodup
  refine hi.change ?_ (fun p hp => ?_) rfl (hg.sorted hi)
  · show leaves.flatMap (update t.items leaf _) = _
    rw [hg.leaves_eq, flatMap_append, flatMap_cons, update_self, flatMap_update_of_notMem hA,
      flatMap_update_of_notMem hB]
    simp
  · show update t.items leaf _ p = _ ∧ _ ∨ update t.items leaf _ p ≠ _ ∧ _
    by_cases hpl : p = leaf
    · rw [hg.items_eq, length_append] at hspace
      subst hpl
      refine .inr ⟨by simp, ?_⟩
      show (update t.items p _ p).length ≤ _
      rw [update_self, length_append, length_cons]
      omega
    · exact .inl ⟨update_of_ne hpl _ _, hp⟩

theorem Gap.spill {stays data : List V}
    (hq : q ≠ leaf) (hstays : stays ≠ [] ∧ stays.length ≤ T.leafCount) (hdata : data ≠ [] ∧ data.length ≤ T.leafCount)
    (hleaves : ∀ p ∈ leaves', p = q ∨ p ∈ leaves)
    (hholds : leaves'.flatMap (update (update t.items q data) leaf stays) =
      (A.flatMap t.items ++ E) ++ item :: (F ++ B.flatMap t.items))
    (ht' : t'.items = update (update t.items q data) leaf stays) (hlevel : t'.level = t.level) :
    t'.Sheets T leaves' ((A.flatMap t.items ++ E) ++ item :: (F ++ B.flatMap t.items)) := by
  refine hi.change (ht' ▸ hholds) (fun p hp => ?_) hlevel (hg.sorted hi)
  rw [ht']
  by_cases hpl : p = leaf
  · rw [hpl, update_self]
    exact .inr hstays
  · by_cases hpq : p = q
    · rw [hpq, update_of_ne hq, update_self]
      exact .inr hdata
    · rw [update_of_ne hpl, update_of_ne hpq]
      exact .inl ⟨rfl, (hleaves p hp).resolve_left hpq⟩

end

variable [Inhabited V]

theorem Gap.addItem_spec (hs : t.Shape T rows) (hi : t.Sheets T (rows 0) els)
    (hg : t.Gap T (rows 0) A leaf B E F (T.keyOfValue item)) :
    (∃ t', t.addItem T leaf E.length item = some t' ∧ SameLinks t t' ∧ t'.defaultAccessor = t.defaultAccessor ∧
      t'.Sheets T (rows 0) ((A.flatMap t.items ++ E) ++ item :: (F ++ B.flatMap t.items))) ∨
      t.addItem T leaf E.length item = none ∧ (t.items leaf).length = T.leafCount := by
  have hrow := hs.row 0 (Nat.zero_le _)
  have hlinked := hg.leaves_eq ▸ hrow.linked
  have hnodup := hg.leaves_eq ▸ hrow.nodup
  have hnext : t.next leaf = B.head? := hlinked.next_eq
  have hprev : t.prev leaf = A.getLast? := hlinked.prev_eq
  have hmem : leaf ∈ rows 0 := hg.leaves_eq ▸ mem_append_right A (.head B)
  obtain ⟨hA, hB⟩ := notMem_of_nodup hnodup
  have hlen : (t.items leaf).length = E.length + F.length := by rw [hg.items_eq, length_append]
  unfold addItem
  split
  next hspace =>
    refine .inl ⟨_, rfl, ⟨rfl, rfl, rfl, rfl, rfl, rfl, rfl, rfl, rfl⟩, rfl, ?_⟩
    rw [hg.items_eq, insertIdx_append]
    exact hg.insert hi hrow.nodup hspace
  next hfull =>
    have hfull : (t.items leaf).length = T.leafCount := le_antisymm (hi.fits leaf hmem) (Nat.not_lt.mp hfull)
    split
    next temp htemp =>
      obtain ⟨htemp, hspace⟩ := withSpace_eq.mp htemp
      rw [hnext] at htemp
      obtain ⟨B, rfl⟩ := head?_eq_some_iff.mp htemp
      obtain ⟨stays, goes, hspill, hdata⟩ := spillRight_eq (d := default) (A := E) (B := F) (x := item)
      rw [← hg.items_eq, hfull] at hspill
      have hstays : stays.length = T.leafCount := by
        have := congrArg length hdata
        simp only [length_append, length_cons, length_nil] at this
        omega
      have hstays : stays ≠ [] ∧ stays.length ≤ T.leafCount := ⟨ne_nil_of_length_pos (by omega), by omega⟩
      refine .inl ⟨_, rfl, ⟨rfl, rfl, rfl, rfl, rfl, rfl, rfl, rfl, rfl⟩, rfl, ?_⟩
      rw [hspill]
      have hne : temp ≠ leaf := fun heq => hB (heq ▸ .head B)
      refine hg.spill hi hne hstays ⟨cons_ne_nil goes _, ?_⟩ (fun p hp => .inr hp) ?_ rfl rfl
      · exact hspace
      · have htempB : temp ∉ B := by
          rw [append_cons] at hnodup
          exact fun hmem => (nodup_cons.mp (nodup_middle.mp hnodup)).1 (mem_append_right _ hmem)
        have htempA : temp ∉ A := fun hmem =>
          (nodup_append.mp hnodup).2.2 temp hmem temp (.tail leaf (.head B)) rfl
        rw [hg.leaves_eq, flatMap_append, flatMap_cons, flatMap_cons, update_self, update_of_ne hne,
          update_self, flatMap_update_of_notMem hA, flatMap_update_of_notMem htempA,
          flatMap_update_of_notMem fun hmem => hB (.tail temp hmem), flatMap_update_of_notMem htempB, cons_append,
          append_cons stays, hdata]
        simp
    next hright =>
      split
      next temp htemp =>
        obtain ⟨htemp, hspace⟩ := withSpace_eq.mp htemp
        rw [hprev] at htemp
        obtain ⟨A, rfl⟩ := getLast?_eq_some_iff.mp htemp
        obtain ⟨stays, goes, hspill, hdata⟩ := spillLeft_eq (d := default) (A := E) (B := F) (x := item)
        rw [← hg.items_eq] at hspill
        have hstays : stays.length = T.leafCount := by
          have := congrArg length hdata
          simp only [length_append, length_cons] at this
          omega
        have hstays : stays ≠ [] ∧ stays.length ≤ T.leafCount := ⟨ne_nil_of_length_pos (by omega), by omega⟩
        refine .inl ⟨_, rfl, ⟨rfl, rfl, rfl, rfl, rfl, rfl, rfl, rfl, rfl⟩, rfl, ?_⟩
        rw [hspill]
        have hne : temp ≠ leaf := fun heq => hA (heq ▸ mem_append_right A (.head []))
        refine hg.spill hi hne hstays
          ⟨append_ne_nil_of_right_ne_nil _ (cons_ne_nil goes []), ?_⟩ (fun p hp => .inr hp) ?_ rfl rfl
        · rw [length_append]
          exact hspace
        · have htempA : temp ∉ A := fun hmem =>
            (nodup_append.mp (nodup_append.mp hnodup).1).2.2 temp hmem temp (.head []) rfl
          have htempB : temp ∉ B := fun hmem => (nodup_append.mp hnodup).2.2 temp
            (mem_append_right A (.head [])) temp (.tail leaf hmem) rfl
          rw [hg.leaves_eq, flatMap_append, flatMap_append, flatMap_singleton, flatMap_cons, update_self,
            update_of_ne hne, update_self, flatMap_update_of_notMem fun hmem => hA (mem_append_left _ hmem),
            flatMap_update_of_notMem htempA, flatMap_update_of_notMem hB, flatMap_update_of_notMem htempB,
            append_assoc, append_assoc, singleton_append, ← cons_append, hdata]
          simp
      next => exact .inr ⟨rfl, hfull⟩

omit [LinearOrder K] [Inhabited V] in
theorem Shape.pend (hs : t.Shape T rows) (hrow : rows 0 = A ++ leaf :: B) (hg : Grown t t' leaf)
    (hnodes : t'.nodes = t.nodes) (hparent : t'.parent = update t.parent t.allocated none)
    (hnodeLevel : t'.nodeLevel = t.nodeLevel) (hlevel : t'.level = t.level) (hroot : t'.root = t.root) :
    Pending T t' (update rows 0 (A ++ leaf :: t.allocated :: B)) 0 A leaf t.allocated B := by
  have hfresh : ∀ k ≤ t.level, ∀ p ∈ rows k, p ≠ t.allocated := fun k hk p hmem => ((hs.row k hk).known p hmem).ne
  have hmem : leaf ∈ rows 0 := hrow ▸ mem_append_right A (.head B)
  have hin : ∀ k p, p ∈ update rows 0 (A ++ leaf :: t.allocated :: B) k → p = t.allocated ∧ k = 0 ∨ p ∈ rows k :=
    fun k p hk => by
      by_cases hk0 : k = 0
      · subst hk0
        rw [update_self, append_cons, mem_append, mem_cons, or_left_comm, ← mem_append,
          ← append_cons, ← hrow] at hk
        exact hk.imp_left fun heq => ⟨heq, rfl⟩
      · rw [update_of_ne hk0] at hk
        exact .inr hk
  have hstorey : ∀ k < t.level, Storey T t'.nodes t'.parent (rows (k + 1)) (rows k) := fun k hk =>
    (hs.storey k hk).congr (fun p _ => by rw [hnodes]) fun c hc => by
      rw [hparent, update_of_ne (hfresh k hk.le c hc)]
  refine ⟨Nat.zero_le _, update_self _ _ _, fun k hk => ?_, fun k hk l hl p hpk hpl => ?_, nofun, fun hlt => ?_,
    fun k hk hkl => ?_, fun k hk p hpk _ => ?_, ?_, fun p hpr => ?_⟩
  · rw [hlevel] at hk
    by_cases hk0 : k = 0
    · subst hk0
      rw [update_self]
      exact Row.insert_behind hg (hrow ▸ hs.row 0 hk) hs.released
    · rw [update_of_ne hk0]
      refine (hs.row k hk).grown hg (hs.row 0 (Nat.zero_le _)) hmem fun q hq hqk => hk0 ?_
      exact hs.apart k hk 0 (Nat.zero_le _) q hqk hq
  · rw [hlevel] at hk hl
    rcases hin k p hpk with ⟨rfl, rfl⟩ | hpk
    · rcases hin l _ hpl with ⟨-, rfl⟩ | hpl
      · rfl
      · exact absurd rfl (hfresh l hl _ hpl)
    · rcases hin l p hpl with ⟨rfl, -⟩ | hpl
      · exact absurd rfl (hfresh k hk _ hpk)
      · exact hs.apart k hk l hl p hpk hpl
  · rw [update_of_ne (Nat.succ_ne_zero 0), ← hrow]
    exact hstorey 0 (hlevel ▸ hlt)
  · rw [update_of_ne (by omega), update_of_ne (by omega)]
    exact hstorey k (hlevel ▸ hkl)
  · rw [hnodeLevel]
    rw [hlevel] at hk
    rw [update_of_ne (Nat.succ_ne_zero k)] at hpk
    exact hs.level k hk p hpk
  · obtain ⟨r, hr, hrp, htop⟩ := hs.top
    refine ⟨r, hroot ▸ hr, ?_, fun hlt => ?_, fun hzero => ?_⟩
    · rw [hparent, update_of_ne (hfresh _ (Nat.le_refl _) r (htop ▸ .head [])), hrp]
    · rw [hlevel] at hlt ⊢
      rw [update_of_ne hlt.ne', htop]
    · rw [hlevel] at hzero
      obtain ⟨rfl, rfl⟩ := hs.alone hrow hzero.symm
      rw [← hzero, hrow] at htop
      exact ⟨rfl, singleton_inj.mp htop, rfl⟩
  · rw [hg.released] at hpr
    rw [hg.allocated]
    exact Nat.lt_succ_of_lt (hs.released p hpr)

theorem Gap.splitItems (hs : t.Shape T rows) (hi : t.Sheets T (rows 0) els)
    (hg : t.Gap T (rows 0) A leaf B E F (T.keyOfValue item)) (hfull : (t.items leaf).length = T.leafCount)
    (ht' : t' = t.splitItems T leaf E.length item) :
    Pending T t' (update rows 0 (A ++ leaf :: t.allocated :: B)) 0 A leaf t.allocated B ∧
      t'.Sheets T (A ++ leaf :: t.allocated :: B) ((A.flatMap t.items ++ E) ++ item :: (F ++ B.flatMap t.items)) ∧
      (∀ p ∈ A ++ leaf :: t.allocated :: B, t'.items p ≠ []) ∧ t'.parent leaf = t.parent leaf ∧
      t'.level = t.level ∧ t'.defaultAccessor = t.defaultAccessor := by
  have hrow := hs.row 0 (Nat.zero_le _)
  have hnodup := hg.leaves_eq ▸ hrow.nodup
  have hfresh : ∀ p ∈ A ++ leaf :: B, p ≠ t.allocated := fun p hp => (hrow.known p (hg.leaves_eq ▸ hp)).ne
  have htwo := T.two_le_leafCount
  obtain ⟨hA, hB⟩ := notMem_of_nodup hnodup
  have hlen : (t.items leaf).length = E.length + F.length := by rw [hg.items_eq, length_append]
  obtain ⟨stays, goes, hspill, hdata⟩ := spillRight_eq (d := default) (A := E) (B := F) (x := item)
  rw [← hg.items_eq, hfull] at hspill
  have hlenS : stays.length = T.leafCount := by
    have := congrArg length hdata
    simp only [length_append, length_cons, length_nil] at this
    omega
  have hstays : stays ≠ [] ∧ stays.length ≤ T.leafCount := ⟨ne_nil_of_length_pos (by omega), by omega⟩
  have hne : t.allocated ≠ leaf := (hfresh leaf (mem_append_right A (.head B))).symm
  have hitems : t'.items = update (update t.items t.allocated [goes]) leaf stays := by
    rw [ht', BePlusTree.splitItems, hspill]
    show update (update (update t.items t.allocated []) t.allocated [goes]) leaf stays = _
    rw [update_idem]
  have hcases : ∀ p ∈ A ++ leaf :: t.allocated :: B, p = t.allocated ∨ p ∈ rows 0 := fun p hp => by
    rw [hg.leaves_eq, mem_append, mem_cons]
    rw [mem_append, mem_cons, mem_cons] at hp
    tauto
  have hlevel : t'.level = t.level := by rw [ht']; rfl
  refine ⟨hs.pend hg.leaves_eq ?_ ?_ ?_ ?_ hlevel ?_, ?_, fun p hp => ?_, ?_, hlevel, ?_⟩
  · exact ⟨by rw [ht']; rfl, by rw [ht']; rfl, by rw [ht']; rfl, by rw [ht']; rfl⟩
  · rw [ht']
    rfl
  · rw [ht']
    rfl
  · rw [ht']
    rfl
  · rw [ht']
    rfl
  · refine hg.spill hi hne hstays ⟨cons_ne_nil goes [], by rw [length_singleton]; omega⟩ hcases ?_ hitems hlevel
    have hnewA : t.allocated ∉ A := fun hmem => hfresh _ (mem_append_left _ hmem) rfl
    have hnewB : t.allocated ∉ B := fun hmem => hfresh _ (mem_append_right A (.tail leaf hmem)) rfl
    rw [flatMap_append, flatMap_cons, flatMap_cons, update_self, update_of_ne hne, update_self,
      flatMap_update_of_notMem hA, flatMap_update_of_notMem hnewA, flatMap_update_of_notMem hB,
      flatMap_update_of_notMem hnewB, ← append_assoc stays, hdata]
    simp
  · rw [hitems]
    by_cases hpl : p = leaf
    · rw [hpl, update_self]
      exact hstays.1
    · rw [update_of_ne hpl]
      by_cases hpn : p = t.allocated
      · rw [hpn, update_self]
        exact cons_ne_nil goes []
      · rw [update_of_ne hpn]
        refine hi.filled_of_ne hs hg.leaves_eq ?_ p ((hcases p hp).resolve_left hpn)
        rw [mem_append, mem_cons, mem_cons] at hp
        rcases hp with hp | hp | hp | hp
        · exact .inl (ne_nil_of_mem hp)
        · exact absurd hp hpl
        · exact absurd hp hpn
        · exact .inr (ne_nil_of_mem hp)
  · rw [ht']
    exact update_of_ne hne.symm _ _
  · rw [ht']
    rfl

/-- What `add` does: the item is there already, it comes to its place, or memory runs out. -/
inductive Added (T : Template V K) (t : BePlusTree V) (els : List V) (item : V) (memory : Option Nat) :
    AddResult → BePlusTree V → Prop
  | present (rows : Nat → List PageId) (at_ : Position) (X : List V) (v : V) (Y : List V) : t.Shape T rows →
      t.Sheets T (rows 0) els → t.Points (rows 0) at_ X v Y → T.keyOfValue v = T.keyOfValue item →
      Added T t els item memory .present { t with defaultAccessor := at_ }
  | added (t' : BePlusTree V) (rows' : Nat → List PageId) (X Y : List V) : els = X ++ Y →
      (∀ x ∈ X, T.keyOfValue x < T.keyOfValue item) → (∀ y ∈ Y, T.keyOfValue item < T.keyOfValue y) →
      t'.Shape T rows' → t'.Sheets T (rows' 0) (X ++ item :: Y) → t'.defaultAccessor = t.defaultAccessor →
      (t.root = none ∨ ∃ rows, t.Shape T rows ∧ ∀ p ∈ rows 0, p ∈ rows' 0) → Added T t els item memory .added t'
  | noPage : memory = some 0 → Added T t els item memory .thrown t
  | undone (count : Nat) (s : BePlusTree V) (rows' : Nat → List PageId) (h : Nat) (A : List PageId) (m n : PageId)
      (B : List PageId) (recoveryMap : Nat → Option Nat) : memory = some (count + 1) → Pending T s rows' h A m n B →
      s.Undoable rows' recoveryMap h n → Added T t els item memory .thrown (s.recover recoveryMap h n)

omit [Inhabited V] in
theorem Sheets.same (hi : t.Sheets T leaves els) (hitems : t'.items = t.items)
    (hfilled : ∀ p ∈ leaves, t.items p ≠ []) : t'.Sheets T leaves els where
  holds := hitems ▸ hi.holds
  fits := hitems ▸ hi.fits
  filled _ := hitems ▸ hfilled
  sorted := hi.sorted

theorem Gap.add_climb {memory : Option Nat} (rest : Option Nat) (hs : t.Shape T rows) (hi : t.Sheets T (rows 0) els)
    (hg : t.Gap T (rows 0) A leaf B E F (T.keyOfValue item)) (hfull : (t.items leaf).length = T.leafCount)
    (hrest : rest ≠ none → ∃ count, memory = some (count + 1)) :
    ∃ result t', climb T (t.level + 1) (t.splitItems T leaf E.length item) rest t.allocated (t.parent leaf) 0
        (fun _ => if E.length = T.leafCount then none else some E.length) = some (result, t') ∧
      Added T t els item memory result t' := by
  obtain ⟨hpend, hsheets, hfilled, hparent, hlevel, haccessor⟩ := hg.splitItems hs hi hfull rfl
  have hrow0 : update rows 0 (A ++ leaf :: t.allocated :: B) 0 = A ++ leaf :: t.allocated :: B := update_self _ _ _
  have hasc := ascending_leaves (hsheets.holds ▸ hsheets.sorted) hfilled
  obtain ⟨result, t', hclimb, hspec⟩ := climb_spec (t.level + 1) rest
    (fun _ => if E.length = T.leafCount then none else some E.length) hpend hasc hpend.mem (by omega)
  rw [hparent] at hclimb
  refine ⟨result, t', hclimb, ?_⟩
  cases hspec with
  | added t' rows' hshape hrow hitems hacc _ =>
    refine .added t' rows' _ _ (hg.els_eq hi) hg.left hg.right hshape ?_ (hacc.trans haccessor)
      (.inr ⟨rows, hs, fun p hp => ?_⟩)
    · rw [hrow]
      exact hsheets.same hitems hfilled
    · rw [hg.leaves_eq, mem_append, mem_cons] at hp
      rw [hrow, hrow0, mem_append, mem_cons]
      tauto
  | thrown s rows' h A m n B recoveryMap hmem hp hundo =>
    obtain ⟨count, hcount⟩ := hrest hmem
    exact .undone count s rows' h A m n B recoveryMap hcount hp hundo

theorem addBelow_spec (hs : t.Shape T rows) (hi : t.Sheets T (rows 0) els) {r : PageId} (hr : t.root = some r)
    (item : V) (memory : Option Nat) :
    ∃ result t', t.addBelow T item memory r = some (result, t') ∧ Added T t els item memory result t' := by
  unfold addBelow
  dsimp only
  rcases hs.landing hi hr (T.keyOfValue item) with ⟨A, B, E, v, F, hrow, hitems, hv, hfind, -, -⟩ |
    ⟨A, B, E, F, hgap, hfind⟩
  · rw [hfind]
    exact ⟨_, _, rfl, .present rows _ _ v _ hs hi ⟨A, _, B, E, F, hrow, hitems, rfl, rfl, rfl⟩ hv⟩
  · rw [hfind]
    rcases hgap.addItem_spec hs hi with ⟨t', ht', hlinks, haccessor, hsheets⟩ | ⟨hnone, hfull⟩
    · rw [ht']
      exact ⟨_, _, rfl, .added t' rows _ _ (hgap.els_eq hi) hgap.left hgap.right (hs.same hlinks) hsheets haccessor
        (.inr ⟨rows, hs, fun _ hp => hp⟩)⟩
    · rw [hnone]
      rcases memory with _ | _ | count
      · exact hgap.add_climb none hs hi hfull nofun
      · exact ⟨_, _, rfl, .noPage rfl⟩
      · exact hgap.add_climb (some count) hs hi hfull fun _ => ⟨count, rfl⟩

omit [Inhabited V] in
theorem first_shape (hlevel : t.level = 0) (hreleased : ∀ p ∈ t.released, p < t.allocated)
    (ht' : t' = { t.newItemList none with root := some t.allocated }) :
    t'.Shape T (fun _ => [t.allocated]) ∧ t'.Sheets T [t.allocated] [] := by
  subst ht'
  refine ⟨⟨fun k _ => ?_, fun k hk l hl p _ _ => ?_, fun k hk => ?_, fun k hk => ?_, ?_, fun p hp => ?_⟩, ?_⟩
  · refine ⟨.singleton (update_self _ _ _) (update_self _ _ _), nodup_singleton _, ?_, ?_⟩
    · exact forall_mem_singleton.mpr (Nat.lt_succ_self _)
    · exact forall_mem_singleton.mpr fun hmem => Nat.lt_irrefl _ (hreleased _ hmem)
  · change k ≤ t.level at hk
    change l ≤ t.level at hl
    omega
  · exact absurd (hlevel ▸ hk) (Nat.not_lt_zero k)
  · exact absurd (hlevel ▸ hk) (Nat.not_lt_zero k)
  · exact ⟨t.allocated, rfl, update_self _ _ _, rfl⟩
  · exact Nat.lt_succ_of_lt (hreleased p hp)
  · have hitems : update t.items t.allocated [] t.allocated = [] := update_self _ _ _
    refine ⟨?_, forall_mem_singleton.mpr ?_, fun hpos => ?_, .nil⟩
    · show [t.allocated].flatMap (update t.items t.allocated []) = []
      rw [flatMap_singleton, hitems]
    · show (update t.items t.allocated [] t.allocated).length ≤ _
      rw [hitems]
      exact Nat.zero_le _
    · exact absurd (hlevel ▸ hpos) (Nat.lt_irrefl 0)

theorem addBelow_first (hs : t.Shape T rows) (hi : t.Sheets T (rows 0) []) {r : PageId} (hr : t.root = some r)
    (item : V) (memory : Option Nat) :
    ∃ t' rows', t.addBelow T item memory r = some (.added, t') ∧ t'.Shape T rows' ∧ t'.Sheets T (rows' 0) [item] ∧
      t'.defaultAccessor = t.defaultAccessor := by
  unfold addBelow
  dsimp only
  rcases hs.landing hi hr (T.keyOfValue item) with ⟨A, B, E, v, F, hrow, hitems, -⟩ | ⟨A, B, E, F, hgap, hfind⟩
  · have hnil := hi.holds
    rw [hrow, flatMap_append, flatMap_cons, hitems] at hnil
    simp at hnil
  · rw [hfind]
    have hnil := hgap.els_eq hi
    obtain ⟨hX, hY⟩ := append_eq_nil_iff.mp hnil.symm
    have hE := (append_eq_nil_iff.mp hX).2
    have hF := (append_eq_nil_iff.mp hY).1
    rcases hgap.addItem_spec hs hi with ⟨t', ht', hlinks, haccessor, hsheets⟩ | ⟨-, hfull⟩
    · rw [ht']
      rw [hX, hY] at hsheets
      exact ⟨t', rows, rfl, hs.same hlinks, hsheets, haccessor⟩
    · rw [hgap.items_eq, hE, hF] at hfull
      have := T.two_le_leafCount
      simp at hfull
      omega

theorem add_spec (hh : t.Holds T els) (item : V) (memory : Option Nat) :
    ∃ result t', t.add T item memory = some (result, t') ∧ Added T t els item memory result t' := by
  rcases hh with ⟨hr, hlevel, hreleased, rfl⟩ | ⟨rows, hs, hi⟩
  · unfold add
    rw [hr]
    cases halloc : allocate memory with
    | none =>
      rcases memory with _ | _ | count
      · exact nomatch halloc
      · exact ⟨_, _, rfl, .noPage rfl⟩
      · exact nomatch halloc
    | some rest =>
      obtain ⟨hs, hi⟩ := first_shape (T := T) hlevel hreleased rfl
      obtain ⟨t', rows', hadd, hs', hi', haccessor⟩ := addBelow_first hs hi rfl item rest
      exact ⟨_, t', hadd, .added t' rows' [] [] rfl nofun nofun hs' hi' haccessor (.inl hr)⟩
  · obtain ⟨r, hr, -, -⟩ := hs.top
    unfold add
    rw [hr]
    obtain ⟨result, t', hadd, hspec⟩ := addBelow_spec hs hi hr item memory
    exact ⟨result, t', hadd, hspec⟩

end Firebird.Tree.BePlusTree
