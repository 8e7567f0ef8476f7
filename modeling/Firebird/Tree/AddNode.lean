import Firebird.Tree.Shape

/-! # A new page finds its node page

While a new page is handed up, it stands in its row behind the page it was split from but on no node page yet. It is
added to the node page of that neighbour, or one of the children goes over to the node page beside it. -/

namespace Firebird.Tree.BePlusTree

open Function Lib List

variable {V K : Type} {T : Template V K} {t t' : BePlusTree V} {rows : Nat → List PageId}
  {A B C D E F upper lower lower' : List PageId}
  {h : Nat} {m n p q goes list nodeList : PageId} {nodes nodes' : PageId → List PageId}
  {parent parent' : PageId → Option PageId}

/-- The page `n` stands in row `h` behind `m`, which it was split from, but is on no node page yet. -/
structure Pending (T : Template V K) (t : BePlusTree V) (rows : Nat → List PageId) (h : Nat) (A : List PageId)
    (m n : PageId) (B : List PageId) : Prop where
  le : h ≤ t.level
  split : rows h = A ++ m :: n :: B
  row : ∀ k ≤ t.level, t.Row (rows k)
  apart : ∀ k ≤ t.level, ∀ l ≤ t.level, ∀ p, p ∈ rows k → p ∈ rows l → k = l
  below : ∀ k < h, Storey T t.nodes t.parent (rows (k + 1)) (rows k)
  here : h < t.level → Storey T t.nodes t.parent (rows (h + 1)) (A ++ m :: B)
  above : ∀ k, h < k → k < t.level → Storey T t.nodes t.parent (rows (k + 1)) (rows k)
  level : ∀ k < t.level, ∀ p ∈ rows (k + 1), p ≠ n → t.nodeLevel p = k
  top : ∃ r, t.root = some r ∧ t.parent r = none ∧ (h < t.level → rows t.level = [r]) ∧
    (h = t.level → A = [] ∧ m = r ∧ B = [])
  released : ∀ p ∈ t.released, p < t.allocated

theorem setSpilledParents_eq {newGoes : Bool} (h' : newGoes = true ↔ goes = n) :
    t.setSpilledParents newGoes goes n h list nodeList =
      { t with
        parent := update (update t.parent n (some nodeList)) goes (some list)
        nodeLevel := if h = 0 then t.nodeLevel else update t.nodeLevel n (h - 1) } := by
  unfold setSpilledParents
  split
  next hgoes =>
    cases h'.mp hgoes
    rw [update_idem]
    rfl
  next hgoes =>
    rw [update_comm fun heq : n = goes => hgoes (h'.mpr heq.symm)]
    rfl

theorem holder_unique (hnodup : (upper.flatMap nodes).Nodup) {c x y : PageId} (hx : x ∈ upper) (hy : y ∈ upper)
    (hcx : c ∈ nodes x) (hcy : c ∈ nodes y) : x = y := by
  by_contra hne
  have hdisj := (nodup_flatMap.mp hnodup).2
  have hsymm : Std.Symm (onFun Disjoint nodes) := ⟨fun _ _ hd => disjoint_symm hd⟩
  exact Pairwise.forall hdisj hx hy hne hcx hcy

/-- A storey may hold more children, as long as they fit and know their parents. -/
theorem Storey.grow (hs : Storey T nodes parent upper lower) (hholds : upper.flatMap nodes' = lower')
    (hlen : ∀ p ∈ upper, (nodes p).length ≤ (nodes' p).length) (hfits : ∀ p ∈ upper, (nodes' p).length ≤ T.nodeCount)
    (hparent : ∀ p ∈ upper, ∀ c ∈ nodes' p, parent' c = some p) : Storey T nodes' parent' upper lower' where
  holds := hholds
  parent := hparent
  filled p hp := ne_nil_of_length_pos ((length_pos_of_ne_nil (hs.filled p hp)).trans_le (hlen p hp))
  fits := hfits
  crowded := hs.crowded.imp_of_mem_imp fun p q hp hq hpq => by
    have hp' := hlen p hp
    have hq' := hlen q hq
    omega
  alone p hp := (hs.alone p hp).trans (hlen p (hp ▸ .head []))

/-- The node page of `m`, with the node pages around it and the children around `m`. -/
structure Place (t : BePlusTree V) (upper A : List PageId) (m : PageId) (B C : List PageId) (nodeList : PageId)
    (D E F : List PageId) : Prop where
  upper_eq : upper = C ++ nodeList :: D
  nodes_eq : t.nodes nodeList = E ++ m :: F
  left_eq : A = C.flatMap t.nodes ++ E
  right_eq : B = F ++ D.flatMap t.nodes
  parent_eq : t.parent m = some nodeList

/-- Every neighbour of a new page has its place. -/
theorem Pending.place (hp : Pending T t rows h A m n B) (hlt : h < t.level) :
    ∃ C nodeList D E F, t.Place (rows (h + 1)) A m B C nodeList D E F := by
  have hs := hp.here hlt
  obtain ⟨C, nodeList, D, E, F, hupper, hnodes, hA, hB⟩ := flatMap_split hs.holds
  refine ⟨C, nodeList, D, E, F, hupper, hnodes, hA, hB, ?_⟩
  exact hs.parent nodeList (hupper ▸ mem_append_right C (.head D)) m (hnodes ▸ mem_append_right E (.head F))

/-- Only children and parents differ. -/
structure SamePages (t t' : BePlusTree V) : Prop where
  items : t'.items = t.items
  next : t'.next = t.next
  prev : t'.prev = t.prev
  allocated : t'.allocated = t.allocated
  released : t'.released = t.released
  level : t'.level = t.level
  root : t'.root = t.root
  defaultAccessor : t'.defaultAccessor = t.defaultAccessor

theorem Row.same (hr : t.Row upper) (hsame : SamePages t t') : t'.Row upper where
  linked := by
    rw [hsame.next, hsame.prev]
    exact hr.linked
  nodup := hr.nodup
  known := hsame.allocated ▸ hr.known
  live := hsame.released ▸ hr.live

/-- Once the storey holds the new page, the tree has its shape again. -/
theorem Pending.settle (hp : Pending T t rows h A m n B) (hlt : h < t.level) (hsame : SamePages t t')
    (hstorey : Storey T t'.nodes t'.parent (rows (h + 1)) (rows h))
    (hnodes : ∀ p, p ∉ rows (h + 1) → t'.nodes p = t.nodes p) (hparent : ∀ p, p ∉ rows h → t'.parent p = t.parent p)
    (hlevel : t'.nodeLevel = if h = 0 then t.nodeLevel else update t.nodeLevel n (h - 1)) : t'.Shape T rows where
  row k hk := (hp.row k (hsame.level ▸ hk)).same hsame
  apart := hsame.level ▸ hp.apart
  storey k hk := by
    rw [hsame.level] at hk
    rcases Nat.lt_trichotomy k h with hkh | rfl | hkh
    · refine (hp.below k hkh).congr (fun p hmem => hnodes p fun hmem' => ?_) fun c hc => hparent c fun hc' => ?_
      · have := hp.apart _ (by omega) _ (by omega) p hmem hmem'
        omega
      · have := hp.apart _ (by omega) _ (by omega) c hc hc'
        omega
    · exact hstorey
    · refine (hp.above k hkh hk).congr (fun p hmem => hnodes p fun hmem' => ?_) fun c hc => hparent c fun hc' => ?_
      · have := hp.apart _ (by omega) _ (by omega) p hmem hmem'
        omega
      · have := hp.apart _ (by omega) _ (by omega) c hc hc'
        omega
  level k hk p hmem := by
    rw [hsame.level] at hk
    have hn : n ∈ rows h := hp.split ▸ mem_append_right A (.tail m (.head B))
    rw [hlevel]
    by_cases hpn : p = n
    · subst hpn
      have hkh := hp.apart _ (by omega) _ hp.le p hmem hn
      rw [if_neg (by omega), update_self]
      omega
    · split
      · exact hp.level k hk p hmem hpn
      · rw [update_of_ne hpn]
        exact hp.level k hk p hmem hpn
  top := by
    obtain ⟨r, hr, hrp, hrow, -⟩ := hp.top
    refine ⟨r, hsame.root ▸ hr, ?_, hsame.level ▸ hrow hlt⟩
    rw [hparent r, hrp]
    intro hmem
    have := hp.apart _ (Nat.le_refl _) _ hp.le r (hrow hlt ▸ .head []) hmem
    omega
  released p hmem := hsame.allocated ▸ hp.released p (hsame.released ▸ hmem)

theorem Storey.insert (hs : Storey T nodes parent upper lower) (hp : p ∈ upper) (hn : n ∉ lower)
    (hholds : upper.flatMap nodes' = lower') (hother : ∀ x, x ≠ p → nodes' x = nodes x)
    (hstays : ∀ c ∈ nodes' p, c = n ∨ c ∈ nodes p) (hlen : (nodes p).length ≤ (nodes' p).length)
    (hfits : (nodes' p).length ≤ T.nodeCount) : Storey T nodes' (update parent n (some p)) upper lower' := by
  have hold : ∀ x ∈ upper, ∀ c ∈ nodes x, c ≠ n := fun x hx c hc hcn =>
    hn (hcn ▸ hs.holds ▸ mem_flatMap.mpr ⟨x, hx, hc⟩)
  refine hs.grow hholds (fun x hx => ?_) (fun x hx => ?_) fun x hx c hc => ?_
  · by_cases hxp : x = p
    · exact hxp ▸ hlen
    · rw [hother x hxp]
  · by_cases hxp : x = p
    · exact hxp ▸ hfits
    · rw [hother x hxp]
      exact hs.fits x hx
  · by_cases hxp : x = p
    · subst hxp
      rcases hstays c hc with rfl | hcx
      · rw [update_self]
      · rw [update_of_ne (hold x hx c hcx)]
        exact hs.parent x hx c hcx
    · rw [hother x hxp] at hc
      rw [update_of_ne (hold x hx c hc)]
      exact hs.parent x hx c hc

/-- The new page is put on a full node page, and one child goes over to another node page. -/
theorem Storey.spill (hs : Storey T nodes parent upper lower) (hp : p ∈ upper) (hq : q ∈ upper) (hpq : p ≠ q)
    (hn : n ∉ lower) (hholds : upper.flatMap nodes' = lower') (hnodup : lower'.Nodup)
    (hother : ∀ x, x ≠ p → x ≠ q → nodes' x = nodes x) (hstays : ∀ c ∈ nodes' p, c = n ∨ c ∈ nodes p)
    (hgoes : goes ∈ nodes' q) (hrest : ∀ c ∈ nodes' q, c = goes ∨ c ∈ nodes q)
    (hlenp : (nodes p).length ≤ (nodes' p).length) (hlenq : (nodes q).length ≤ (nodes' q).length)
    (hfitsp : (nodes' p).length ≤ T.nodeCount) (hfitsq : (nodes' q).length ≤ T.nodeCount) :
    Storey T nodes' (update (update parent n (some p)) goes (some q)) upper lower' := by
  have hold : ∀ x ∈ upper, ∀ c ∈ nodes x, c ≠ n := fun x hx c hc hcn =>
    hn (hcn ▸ hs.holds ▸ mem_flatMap.mpr ⟨x, hx, hc⟩)
  refine hs.grow hholds (fun x hx => ?_) (fun x hx => ?_) fun x hx c hc => ?_
  · by_cases hxp : x = p
    · exact hxp ▸ hlenp
    · by_cases hxq : x = q
      · exact hxq ▸ hlenq
      · rw [hother x hxp hxq]
  · by_cases hxp : x = p
    · exact hxp ▸ hfitsp
    · by_cases hxq : x = q
      · exact hxq ▸ hfitsq
      · rw [hother x hxp hxq]
        exact hs.fits x hx
  · by_cases hcg : c = goes
    · have hxq : x = q := holder_unique (hholds ▸ hnodup) hx hq hc (hcg ▸ hgoes)
      rw [hcg, hxq, update_self]
    · rw [update_of_ne hcg]
      by_cases hxp : x = p
      · subst hxp
        rcases hstays c hc with rfl | hcx
        · rw [update_self]
        · rw [update_of_ne (hold x hx c hcx)]
          exact hs.parent x hx c hcx
      · have hcx : c ∈ nodes x := by
          by_cases hxq : x = q
          · subst hxq
            exact (hrest c hc).resolve_left hcg
          · rwa [hother x hxp hxq] at hc
        rw [update_of_ne (hold x hx c hcx)]
        exact hs.parent x hx c hcx

theorem Pending.notMem (hp : Pending T t rows h A m n B) : n ∉ A ++ m :: B := by
  have hnodup := (hp.row h hp.le).nodup
  rw [hp.split, append_cons] at hnodup
  rw [append_cons]
  exact (nodup_cons.mp (nodup_middle.mp hnodup)).1

theorem Pending.mem (hp : Pending T t rows h A m n B) : n ∈ rows h :=
  hp.split ▸ mem_append_right A (.tail m (.head B))

theorem Place.mem (hplace : t.Place (rows (h + 1)) A m B C nodeList D E F) : nodeList ∈ rows (h + 1) :=
  hplace.upper_eq ▸ mem_append_right C (.head D)

theorem Place.length_stays (hplace : t.Place (rows (h + 1)) A m B C nodeList D E F) {stays : List PageId}
    (hlen : stays.length + 1 = ((E ++ [m]) ++ n :: F).length) : stays.length = (t.nodes nodeList).length := by
  rw [hplace.nodes_eq]
  simp only [length_append, length_cons, length_nil] at hlen ⊢
  omega

theorem Place.mem_row (hplace : t.Place (rows (h + 1)) A m B C nodeList D E F) (hp : Pending T t rows h A m n B)
    {c : PageId} (hc : c ∈ (E ++ [m]) ++ n :: F) : c ∈ rows h := by
  rw [hp.split, hplace.left_eq, hplace.right_eq]
  simp only [mem_append, mem_cons, not_mem_nil, or_false] at hc ⊢
  tauto

section
variable (hp : Pending T t rows h A m n B) (hlt : h < t.level)
include hp hlt

theorem Pending.storey_insert
    (hplace : t.Place (rows (h + 1)) A m B C nodeList D E F) (hspace : (t.nodes nodeList).length < T.nodeCount) :
    Storey T (update t.nodes nodeList ((E ++ [m]) ++ n :: F)) (update t.parent n (some nodeList)) (rows (h + 1))
      (rows h) := by
  have hnodup : (C ++ nodeList :: D).Nodup := hplace.upper_eq ▸ (hp.row (h + 1) hlt).nodup
  obtain ⟨hC, hD⟩ := notMem_of_nodup hnodup
  refine (hp.here hlt).insert hplace.mem hp.notMem ?_ (fun x hx => update_of_ne hx _ _) (fun c hc => ?_) ?_ ?_
  · rw [hplace.upper_eq, flatMap_append, flatMap_cons, update_self, flatMap_update_of_notMem hC,
      flatMap_update_of_notMem hD, hp.split, hplace.left_eq, hplace.right_eq]
    simp
  · rw [update_self] at hc
    rw [hplace.nodes_eq]
    simp only [mem_append, mem_cons] at hc ⊢
    tauto
  · rw [update_self, hplace.nodes_eq]
    simp only [length_append, length_cons]
    omega
  · rw [hplace.nodes_eq] at hspace
    rw [update_self]
    simp only [length_append, length_cons, length_nil] at hspace ⊢
    omega

theorem Pending.storey_spill (hplace : t.Place (rows (h + 1)) A m B C nodeList D E F) (hq : q ∈ rows (h + 1))
    (hne : nodeList ≠ q) (hfull : (t.nodes nodeList).length = T.nodeCount) (hspace : (t.nodes q).length < T.nodeCount)
    {stays children : List PageId} (hstays : (goes :: stays).Perm ((E ++ [m]) ++ n :: F))
    (hchildren : children.Perm (goes :: t.nodes q))
    (hholds : (rows (h + 1)).flatMap (update (update t.nodes q children) nodeList stays) = rows h) :
    Storey T (update (update t.nodes q children) nodeList stays)
      (update (update t.parent n (some nodeList)) goes (some q)) (rows (h + 1)) (rows h) := by
  have hlen : stays.length = (t.nodes nodeList).length := hplace.length_stays hstays.length_eq
  have hlength := hchildren.length_eq
  rw [length_cons] at hlength
  have hqnodes : update (update t.nodes q children) nodeList stays q = children := by
    rw [update_of_ne hne.symm, update_self]
  refine (hp.here hlt).spill (p := nodeList) hplace.mem hq hne hp.notMem hholds (hp.row h hp.le).nodup
    (fun x hx hxq => by rw [update_of_ne hx, update_of_ne hxq]) (fun c hc => ?_)
    (by rw [hqnodes]; exact hchildren.mem_iff.mpr (.head _))
    (fun c hc => mem_cons.mp (hchildren.mem_iff.mp (hqnodes ▸ hc)))
    ?_ ?_ ?_ ?_
  · rw [update_self] at hc
    have hc' := hstays.mem_iff.mp (.tail goes hc)
    rw [hplace.nodes_eq]
    simp only [mem_append, mem_cons, not_mem_nil, or_false] at hc' ⊢
    tauto
  · rw [update_self, hlen]
  · rw [hqnodes]
    omega
  · rw [update_self, hlen, hfull]
  · rw [hqnodes]
    omega

/-- The last child goes over to the front of the next node page. -/
theorem Pending.storey_next
    (hplace : t.Place (rows (h + 1)) A m B C nodeList (q :: D) E F) (hfull : (t.nodes nodeList).length = T.nodeCount)
    (hspace : (t.nodes q).length < T.nodeCount) {stays : List PageId} (hdata : stays ++ [goes] = (E ++ [m]) ++ n :: F) :
    Storey T (update (update t.nodes q (goes :: t.nodes q)) nodeList stays)
      (update (update t.parent n (some nodeList)) goes (some q)) (rows (h + 1)) (rows h) := by
  have hnodup : (C ++ nodeList :: q :: D).Nodup := hplace.upper_eq ▸ (hp.row (h + 1) hlt).nodup
  obtain ⟨hC, hqD⟩ := notMem_of_nodup hnodup
  rw [append_cons] at hnodup
  obtain ⟨hqC, hq⟩ := notMem_of_nodup hnodup
  have hne : nodeList ≠ q := fun heq => hqD (heq ▸ .head D)
  refine hp.storey_spill hlt hplace (hplace.upper_eq ▸ mem_append_right C (.tail _ (.head D))) hne hfull hspace
    (hdata ▸ (perm_append_singleton goes stays).symm) (.refl _) ?_
  rw [hplace.upper_eq, flatMap_append, flatMap_cons, flatMap_cons, update_self, update_of_ne hne.symm, update_self,
    flatMap_update_of_notMem hC, flatMap_update_of_notMem (fun hmem => hqC (mem_append_left _ hmem)),
    flatMap_update_of_notMem fun hmem => hqD (.tail q hmem), flatMap_update_of_notMem hq, hp.split, hplace.left_eq,
    hplace.right_eq, cons_append, append_cons stays, hdata]
  simp

/-- The first child goes over to the end of the node page before. -/
theorem Pending.storey_prev (hplace : t.Place (rows (h + 1)) A m B (C ++ [q]) nodeList D E F)
    (hfull : (t.nodes nodeList).length = T.nodeCount) (hspace : (t.nodes q).length < T.nodeCount) {stays : List PageId}
    (hdata : goes :: stays = (E ++ [m]) ++ n :: F) :
    Storey T (update (update t.nodes q (t.nodes q ++ [goes])) nodeList stays)
      (update (update t.parent n (some nodeList)) goes (some q)) (rows (h + 1)) (rows h) := by
  have hupper : rows (h + 1) = C ++ q :: nodeList :: D := hplace.upper_eq.trans (append_cons C q _).symm
  have hnodup : (C ++ q :: nodeList :: D).Nodup := hupper ▸ (hp.row (h + 1) hlt).nodup
  obtain ⟨hqC, hqD⟩ := notMem_of_nodup hnodup
  rw [append_cons] at hnodup
  obtain ⟨hC, hD⟩ := notMem_of_nodup hnodup
  have hne : nodeList ≠ q := fun heq => hqD (heq ▸ .head D)
  refine hp.storey_spill hlt hplace (hupper ▸ mem_append_right C (.head _)) hne hfull hspace (.of_eq hdata)
    (perm_append_singleton goes _) ?_
  rw [hupper, flatMap_append, flatMap_cons, flatMap_cons, update_self, update_of_ne hne.symm, update_self,
    flatMap_update_of_notMem (fun hmem => hC (mem_append_left _ hmem)), flatMap_update_of_notMem hqC,
    flatMap_update_of_notMem hD, flatMap_update_of_notMem fun hmem => hqD (.tail _ hmem), hp.split, hplace.left_eq,
    hplace.right_eq, ← append_cons (t.nodes q), ← cons_append, hdata]
  simp

end

variable [Inhabited V] [LinearOrder K]

/-- The new page is looked for by its first item, which is behind that of its neighbour. -/
theorem Pending.findNode_eq (hp : Pending T t rows h A m n B) (hlt : h < t.level) (hasc : t.Ascending T 0 (rows 0))
    (hplace : t.Place (rows (h + 1)) A m B C nodeList D E F) :
    (t.findNode T nodeList (t.generate T (t.nodeLevel nodeList) n)).2 = (E ++ [m]).length := by
  have hmem : nodeList ∈ rows (h + 1) := hplace.upper_eq ▸ mem_append_right C (.head D)
  have hn : n ∈ rows h := hp.split ▸ mem_append_right A (.tail m (.head B))
  have hne : nodeList ≠ n := by
    rintro rfl
    have hk := hp.apart (h + 1) hlt h hp.le nodeList hmem hn
    omega
  have hrow := ascending_row hp.below hasc
  rw [hp.split, hplace.left_eq, hplace.right_eq] at hrow
  have hblock : t.Ascending T h ((E ++ [m]) ++ n :: F) := by
    refine Pairwise.sublist ?_ hrow
    simp only [append_assoc, cons_append, nil_append]
    refine (Sublist.append_left ?_ E).trans (sublist_append_right _ _)
    exact ((sublist_append_left F _).cons_cons n).cons_cons m
  obtain ⟨-, hright, hleft⟩ := pairwise_append.mp hblock
  rw [findNode, hp.level h hlt nodeList hmem hne, hplace.nodes_eq, append_cons]
  refine congrArg Prod.snd (SortedVector.find_absent (fun a ha => hleft a ha n (.head F)) ?_)
  exact (pairwise_cons.mp hright).1

theorem withSpace_eq {count : PageId → Nat} {capacity : Nat} {beside : Option PageId} :
    withSpace count capacity beside = some q ↔ beside = some q ∧ count q < capacity := by
  rw [withSpace, Option.filter_eq_some_iff, decide_eq_true_iff]

theorem withSpace_none {count : PageId → Nat} {capacity : Nat} {beside : Option PageId} :
    withSpace count capacity beside = none ↔ ∀ q, beside = some q → capacity ≤ count q := by
  rw [withSpace]
  simp

/-- The page is added, or its node page and the one behind it are full. -/
theorem Pending.addNode_spec (hp : Pending T t rows h A m n B) (hlt : h < t.level) (hasc : t.Ascending T 0 (rows 0))
    (hplace : t.Place (rows (h + 1)) A m B C nodeList D E F) :
    (∃ t', t.addNode T n h nodeList = some t' ∧ t'.Shape T rows ∧ SamePages t t') ∨
      t.addNode T n h nodeList = none ∧ (t.nodes nodeList).length = T.nodeCount ∧
        ∀ q, D.head? = some q → (t.nodes q).length = T.nodeCount := by
  have hs := hp.here hlt
  have hlinked := hplace.upper_eq ▸ (hp.row (h + 1) hlt).linked
  have hnext : t.next nodeList = D.head? := hlinked.next_eq
  have hprev : t.prev nodeList = C.getLast? := hlinked.prev_eq
  have hpos := hp.findNode_eq hlt hasc hplace
  have hnodes : t.nodes nodeList = (E ++ [m]) ++ F := by rw [hplace.nodes_eq, append_cons]
  have hnmem := hp.mem
  have hmem := hplace.mem
  unfold addNode
  simp only [hpos]
  split
  next hspace =>
    refine .inl ⟨_, rfl, hp.settle hlt ?_ ?_ (fun x hx => ?_) (fun x hx => ?_) rfl, ?_⟩
    · exact ⟨rfl, rfl, rfl, rfl, rfl, rfl, rfl, rfl⟩
    · rw [hnodes, insertIdx_append]
      exact hp.storey_insert hlt hplace hspace
    · exact update_of_notMem hmem hx
    · exact update_of_notMem hnmem hx
    · exact ⟨rfl, rfl, rfl, rfl, rfl, rfl, rfl, rfl⟩
  next hfull =>
    have hfull : (t.nodes nodeList).length = T.nodeCount := le_antisymm (hs.fits nodeList hmem) (Nat.not_lt.mp hfull)
    split
    next list hlist =>
      obtain ⟨hlist, hspace⟩ := withSpace_eq.mp hlist
      rw [hnext] at hlist
      obtain ⟨D, rfl⟩ := head?_eq_some_iff.mp hlist
      obtain ⟨stays, goes, hspill, hdata⟩ := spillRight_eq (d := 0) (A := E ++ [m]) (B := F) (x := n)
      rw [← hnodes, hfull] at hspill
      have hgoes : decide ((E ++ [m]).length = T.nodeCount) = true ↔ goes = n := by
        have hlen : ((E ++ [m]) ++ F).length = (E ++ [m]).length + F.length := length_append
        rw [decide_eq_true_iff, ← hfull, hnodes, hlen]
        rcases spillRight_goes hdata with ⟨rfl, rfl⟩ | hF
        · exact iff_of_true rfl rfl
        · refine iff_of_false (fun hlen => ?_) fun hgn => hp.notMem ?_
          · have := length_pos_of_mem hF
            omega
          · exact hplace.right_eq ▸ mem_append_right A (.tail m (mem_append_left _ (hgn ▸ hF)))
      have hlmem : list ∈ rows (h + 1) := hplace.upper_eq ▸ mem_append_right C (.tail _ (.head D))
      have hgmem : goes ∈ rows h :=
        hplace.mem_row hp (hdata ▸ mem_append_right stays (.head []))
      refine .inl ⟨_, rfl, hp.settle hlt ?_ ?_ (fun x hx => ?_) (fun x hx => ?_) ?_, ?_⟩
      all_goals rw [hspill, setSpilledParents_eq hgoes]
      · exact ⟨rfl, rfl, rfl, rfl, rfl, rfl, rfl, rfl⟩
      · exact hp.storey_next hlt hplace hfull hspace hdata
      · exact (update_of_notMem hmem hx).trans (update_of_notMem hlmem hx)
      · exact (update_of_notMem hgmem hx).trans (update_of_notMem hnmem hx)
      · rfl
      · exact ⟨rfl, rfl, rfl, rfl, rfl, rfl, rfl, rfl⟩
    next hright =>
      rw [withSpace_none] at hright
      split
      next list hlist =>
        obtain ⟨hlist, hspace⟩ := withSpace_eq.mp hlist
        rw [hprev] at hlist
        obtain ⟨C, rfl⟩ := getLast?_eq_some_iff.mp hlist
        obtain ⟨stays, goes, hspill, hdata⟩ := spillLeft_eq (d := 0) (A := E ++ [m]) (B := F) (x := n)
        rw [← hnodes] at hspill
        have hgoes : decide ((E ++ [m]).length = 0) = true ↔ goes = n := by
          have hE := (spillLeft_goes hdata).resolve_left fun hg => cons_ne_nil _ _ (append_eq_nil_iff.mp hg.2).2
          refine iff_of_false (by rw [decide_eq_true_iff, length_append]; exact Nat.succ_ne_zero _) fun hgn => ?_
          refine hp.notMem ?_
          rw [hplace.left_eq, append_cons, append_assoc _ E]
          exact mem_append_left _ (mem_append_right _ (hgn ▸ hE))
        have hlmem : list ∈ rows (h + 1) :=
          hplace.upper_eq ▸ mem_append_left _ (mem_append_right C (.head []))
        have hgmem : goes ∈ rows h := hplace.mem_row hp (hdata ▸ .head stays)
        refine .inl ⟨_, rfl, hp.settle hlt ?_ ?_ (fun x hx => ?_) (fun x hx => ?_) ?_, ?_⟩
        all_goals rw [hspill, setSpilledParents_eq hgoes]
        · exact ⟨rfl, rfl, rfl, rfl, rfl, rfl, rfl, rfl⟩
        · exact hp.storey_prev hlt hplace hfull hspace hdata
        · exact (update_of_notMem hmem hx).trans (update_of_notMem hlmem hx)
        · exact (update_of_notMem hgmem hx).trans (update_of_notMem hnmem hx)
        · rfl
        · exact ⟨rfl, rfl, rfl, rfl, rfl, rfl, rfl, rfl⟩
      next =>
        refine .inr ⟨rfl, hfull, fun q hq => ?_⟩
        have hq' : q ∈ rows (h + 1) := hplace.upper_eq ▸ mem_append_right C (.tail _ (mem_of_mem_head? hq))
        exact le_antisymm (hs.fits q hq') (hright q (hnext.trans hq))

end Firebird.Tree.BePlusTree
