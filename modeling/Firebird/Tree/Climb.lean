import Firebird.Tree.AddNode

/-! # The climb of a new page -/

namespace Firebird.Tree.BePlusTree

open Function Lib List

variable {V K : Type} {T : Template V K} {t t' : BePlusTree V} {rows rows' : Nat → List PageId}
  {A B C D E F upper lower : List PageId} {h pos : Nat} {m n p q goes nodeList : PageId}
  {recoveryMap recoveryMap' : Nat → Option Nat}

theorem Row.mem_next (hr : t.Row upper) (hp : p ∈ upper) (hq : t.next p = some q) : q ∈ upper := by
  obtain ⟨A, B, rfl⟩ := append_of_mem hp
  rw [hr.linked.next_eq] at hq
  exact mem_append_right A (.tail p (mem_of_mem_head? hq))

theorem Row.mem_prev (hr : t.Row upper) (hp : p ∈ upper) (hq : t.prev p = some q) : q ∈ upper := by
  obtain ⟨A, B, rfl⟩ := append_of_mem hp
  rw [hr.linked.prev_eq] at hq
  exact mem_append_left _ (mem_of_getLast? hq)

/-- A page was allocated and linked in behind `p`. -/
structure Grown (t t' : BePlusTree V) (p : PageId) : Prop where
  next : t'.next = nextBehind t.next p t.allocated
  prev : t'.prev = prevBehind t.next t.prev p t.allocated
  allocated : t'.allocated = t.allocated + 1
  released : t'.released = t.released

/-- The row of `p` has the new page behind it. -/
theorem Row.insert_behind (hg : Grown t t' p) (hr : t.Row (A ++ p :: B))
    (hreleased : ∀ q ∈ t.released, q < t.allocated) : t'.Row (A ++ p :: t.allocated :: B) where
  linked := by
    rw [hg.next, hg.prev]
    exact hr.linked.insert_behind hr.nodup fun hmem => Nat.lt_irrefl _ (hr.known _ hmem)
  nodup := by
    rw [append_cons, nodup_middle, ← append_cons]
    exact nodup_cons.mpr ⟨fun hmem => Nat.lt_irrefl _ (hr.known _ hmem), hr.nodup⟩
  known q hq := by
    rw [hg.allocated]
    rw [append_cons, mem_append, mem_cons, or_left_comm, ← mem_append, ← append_cons] at hq
    rcases hq with rfl | hq
    · exact Nat.lt_succ_self _
    · exact Nat.lt_succ_of_lt (hr.known q hq)
  live q hq hmem := by
    rw [hg.released] at hmem
    rw [append_cons, mem_append, mem_cons, or_left_comm, ← mem_append, ← append_cons] at hq
    rcases hq with rfl | hq
    · exact Nat.lt_irrefl _ (hreleased _ hmem)
    · exact hr.live q hq hmem

theorem Row.grown (hg : Grown t t' p) (hr : t.Row lower) (hrow : t.Row upper) (hp : p ∈ upper)
    (hapart : ∀ q, q ∈ upper → q ∉ lower) : t'.Row lower where
  linked := by
    rw [hg.next, hg.prev]
    have hfresh : ∀ q ∈ lower, q ≠ t.allocated := fun q hq => (hr.known q hq).ne
    refine hr.linked.congr (fun q hq => ?_) fun q hq => ?_
    · exact nextBehind_of_ne (fun hqp => hapart p hp (hqp ▸ hq)) (hfresh q hq)
    · exact prevBehind_of_ne (fun hnext => hapart q (hrow.mem_next hp hnext) hq) (hfresh q hq)
  nodup := hr.nodup
  known q hq := hg.allocated ▸ Nat.lt_succ_of_lt (hr.known q hq)
  live q hq := hg.released ▸ hr.live q hq

/-! ### A full node page is split -/

/-- A chain stays one if the new element stands between its neighbours. -/
theorem isChain_insert {α : Type} {R : α → α → Prop} {A B : List α} {p q : α} (h : IsChain R (A ++ p :: B))
    (hpq : R p q) (hq : ∀ b ∈ B.head?, R q b) : IsChain R (A ++ p :: q :: B) := by
  obtain ⟨hA, hB⟩ := isChain_split.mp h
  exact isChain_split.mpr ⟨hA, isChain_cons_cons.mpr ⟨hpq, isChain_cons.mpr
    ⟨hq, (isChain_cons.mp hB).2⟩⟩⟩

/-- The last child, old or new, goes over to a new page behind the full one. -/
theorem Pending.storey_split (hp : Pending T t rows h A m n B) (hlt : h < t.level)
    (hplace : t.Place (rows (h + 1)) A m B C nodeList D E F) (hfull : (t.nodes nodeList).length = T.nodeCount)
    (hD : ∀ q ∈ D.head?, (t.nodes q).length = T.nodeCount) {stays : List PageId}
    (hdata : stays ++ [goes] = (E ++ [m]) ++ n :: F) (hnew : p ∉ rows (h + 1)) (hnew' : p ∉ rows h) :
    Storey T (update (update t.nodes p [goes]) nodeList stays)
      (update (update (update t.parent p none) n (some nodeList)) goes (some p))
      (C ++ nodeList :: p :: D) (rows h) := by
  have hs := hp.here hlt
  have htwo := T.two_le_nodeCount
  have hnodup : (C ++ nodeList :: D).Nodup := hplace.upper_eq ▸ (hp.row (h + 1) hlt).nodup
  obtain ⟨hC, hDn⟩ := notMem_of_nodup hnodup
  rw [hplace.upper_eq, mem_append, mem_cons] at hnew
  obtain ⟨hpC, hpn, hpD⟩ : p ∉ C ∧ p ≠ nodeList ∧ p ∉ D := by tauto
  have hlen : stays.length = (t.nodes nodeList).length := by
    refine hplace.length_stays (n := n) ?_
    rw [← hdata, length_append, length_singleton]
  have hpnodes : update (update t.nodes p [goes]) nodeList stays p = [goes] := by rw [update_of_ne hpn, update_self]
  have hother : ∀ x, x ≠ nodeList → x ≠ p → update (update t.nodes p [goes]) nodeList stays x = t.nodes x :=
    fun x hx hxp => by rw [update_of_ne hx, update_of_ne hxp]
  have hside : ∀ x, x ∈ C ∨ x ∈ D → update (update t.nodes p [goes]) nodeList stays x = t.nodes x := fun x hx =>
    hother x (by rintro rfl; tauto) (by rintro rfl; tauto)
  have hholds : (C ++ nodeList :: p :: D).flatMap (update (update t.nodes p [goes]) nodeList stays) = rows h := by
    rw [flatMap_append, flatMap_cons, flatMap_cons, update_self, hpnodes,
      flatMap_congr fun x hx => hside x (.inl hx), flatMap_congr fun x hx => hside x (.inr hx),
      ← append_assoc stays, hdata, hp.split, hplace.left_eq, hplace.right_eq]
    simp only [append_assoc, cons_append, nil_append]
  have hupper : ∀ x, x ∈ C ∨ x ∈ D → x ∈ rows (h + 1) := fun x hx => by
    rw [hplace.upper_eq, mem_append]
    tauto
  have hcases : ∀ x ∈ C ++ nodeList :: p :: D, x = nodeList ∨ x = p ∨ (x ∈ C ∨ x ∈ D) := fun x hx => by
    rw [mem_append, mem_cons, mem_cons] at hx
    tauto
  have hold : ∀ x ∈ rows (h + 1), ∀ c ∈ t.nodes x, c ≠ n ∧ c ≠ p := fun x hx c hc => by
    have hmem : c ∈ A ++ m :: B := hs.holds ▸ mem_flatMap.mpr ⟨x, hx, hc⟩
    refine ⟨fun hcn => hp.notMem (hcn ▸ hmem), ?_⟩
    rintro rfl
    refine hnew' ?_
    rw [hp.split, append_cons, mem_append]
    rw [append_cons, mem_append] at hmem
    tauto
  refine ⟨hholds, fun x hx c hc => ?_, fun x hx => ?_, fun x hx => ?_, ?_, fun x hx => ?_⟩
  · by_cases hcg : c = goes
    · have hxp : x = p := by
        refine holder_unique (hholds ▸ (hp.row h hp.le).nodup) hx ?_ hc ?_
        · exact mem_append_right C (.tail _ (.head D))
        · rw [hcg, hpnodes]
          exact .head []
      rw [hcg, hxp, update_self]
    · rw [update_of_ne hcg]
      rcases hcases x hx with rfl | rfl | hx
      · rw [update_self] at hc
        have hc' : c ∈ (E ++ [m]) ++ n :: F := hdata ▸ mem_append_left [goes] hc
        by_cases hcn : c = n
        · rw [hcn, update_self]
        · have hcx : c ∈ t.nodes x := by
            rw [hplace.nodes_eq]
            simp only [mem_append, mem_cons, not_mem_nil, or_false] at hc' ⊢
            tauto
          rw [update_of_ne hcn, update_of_ne (hold x hplace.mem c hcx).2]
          exact hs.parent x hplace.mem c hcx
      · rw [hpnodes, mem_singleton] at hc
        exact absurd hc hcg
      · rw [hside x hx] at hc
        obtain ⟨hcn, hcp⟩ := hold x (hupper x hx) c hc
        rw [update_of_ne hcn, update_of_ne hcp]
        exact hs.parent x (hupper x hx) c hc
  · rcases hcases x hx with rfl | rfl | hx
    · rw [update_self]
      exact ne_nil_of_length_pos (by omega)
    · rw [hpnodes]
      exact cons_ne_nil _ _
    · rw [hside x hx]
      exact hs.filled x (hupper x hx)
  · rcases hcases x hx with rfl | rfl | hx
    · rw [update_self, hlen]
      exact hs.fits x hplace.mem
    · rw [hpnodes, length_singleton]
      omega
    · rw [hside x hx]
      exact hs.fits x (hupper x hx)
  · refine isChain_insert ?_ ?_ fun b hb => ?_
    · have hcrowded := hs.crowded
      rw [hplace.upper_eq] at hcrowded
      refine hcrowded.imp_of_mem_imp fun x y hx hy hxy => ?_
      have hsame : ∀ x ∈ C ++ nodeList :: D,
          (update (update t.nodes p [goes]) nodeList stays x).length = (t.nodes x).length := fun x hx => by
        rw [mem_append, mem_cons, or_left_comm] at hx
        rcases hx with rfl | hx
        · rw [update_self, hlen]
        · rw [hside x hx]
      rwa [hsame x hx, hsame y hy]
    · rw [update_self, hpnodes, length_singleton]
      omega
    · rw [hpnodes, hside b (.inr (mem_of_mem_head? hb)), length_singleton, hD b hb]
      omega
  · have hlen := congrArg length hx
    simp only [length_append, length_cons, length_nil] at hlen
    omega

/-- The recovery finds on each level the neighbour that has to get its last child back. -/
def Undoable (t : BePlusTree V) (rows : Nat → List PageId) (recoveryMap : Nat → Option Nat) : Nat → PageId → Prop
  | 0, n => n ∈ rows 0
  | h + 1, n => n ∈ rows (h + 1) ∧ ∃ m ∈ rows (h + 1), t.prev n = some m ∧
      t.Undoable rows recoveryMap h ((recoveryMap (h + 1)).elim ((t.nodes n).headD 0) fun pos => (t.nodes m).getD pos 0)

theorem Undoable.congr (hu : t.Undoable rows recoveryMap h n) (hrows : ∀ k ≤ h, ∀ p ∈ rows k, p ∈ rows' k)
    (hprev : ∀ k ≤ h, ∀ p ∈ rows k, t'.prev p = t.prev p) (hnodes : ∀ k ≤ h, ∀ p ∈ rows k, t'.nodes p = t.nodes p)
    (hmap : ∀ k ≤ h, recoveryMap' k = recoveryMap k) : t'.Undoable rows' recoveryMap' h n := by
  induction h generalizing n with
  | zero => exact hrows 0 (Nat.le_refl _) n hu
  | succ h ih =>
    obtain ⟨hn, m, hm, hnm, hlow⟩ := hu
    refine ⟨hrows _ (Nat.le_refl _) n hn, m, hrows _ (Nat.le_refl _) m hm, ?_, ?_⟩
    · rw [hprev _ (Nat.le_refl _) n hn, hnm]
    · rw [hnodes _ (Nat.le_refl _) n hn, hnodes _ (Nat.le_refl _) m hm, hmap _ (Nat.le_refl _)]
      exact ih hlow (fun k hk => hrows k (Nat.le_succ_of_le hk)) (fun k hk => hprev k (Nat.le_succ_of_le hk))
        (fun k hk => hnodes k (Nat.le_succ_of_le hk)) fun k hk => hmap k (Nat.le_succ_of_le hk)

theorem splitNodes_eq {stays : List PageId} (hspill : spillRight 0 T.nodeCount (t.nodes nodeList) pos n = (stays, goes))
    (hgoes : pos = T.nodeCount ↔ goes = n) :
    t.splitNodes T n h nodeList pos =
      { t with
        nodes := update (update (update t.nodes t.allocated []) t.allocated [goes]) nodeList stays
        parent := update (update (update t.parent t.allocated none) n (some nodeList)) goes (some t.allocated)
        nodeLevel := if h = 0 then t.nodeLevel else update t.nodeLevel n (h - 1)
        next := nextBehind t.next nodeList t.allocated
        prev := prevBehind t.next t.prev nodeList t.allocated
        allocated := t.allocated + 1 } := by
  rw [splitNodes, hspill, setSpilledParents_eq (by rw [decide_eq_true_iff]; exact hgoes)]
  rfl

/-- The split has added a page to the row above, which is now the one without a node page. -/
theorem Pending.up (hp : Pending T t rows h A m n B) (hlt : h < t.level) (hrow : rows (h + 1) = C ++ nodeList :: D)
    (hg : Grown t t' nodeList)
    (hstorey : Storey T t'.nodes t'.parent (C ++ nodeList :: t.allocated :: D) (rows h))
    (hnodes : ∀ p, p ∉ rows (h + 1) → p ≠ t.allocated → t'.nodes p = t.nodes p)
    (hparent : ∀ p, p ∉ rows h → p ≠ t.allocated → t'.parent p = t.parent p)
    (hlevel : t'.nodeLevel = if h = 0 then t.nodeLevel else update t.nodeLevel n (h - 1)) (hlev : t'.level = t.level)
    (hroot : t'.root = t.root) (hrows' : rows' = update rows (h + 1) (C ++ nodeList :: t.allocated :: D)) :
    Pending T t' rows' (h + 1) C nodeList t.allocated D := by
  have hfresh : ∀ k ≤ t.level, ∀ p ∈ rows k, p ≠ t.allocated := fun k hk p hmem => ((hp.row k hk).known p hmem).ne
  have happart : ∀ k ≤ t.level, ∀ l ≤ t.level, k ≠ l → ∀ p ∈ rows k, p ∉ rows l := fun k hk l hl hne p hpk hpl =>
    hne (hp.apart k hk l hl p hpk hpl)
  have hmem : nodeList ∈ rows (h + 1) := hrow ▸ mem_append_right C (.head D)
  have hself : rows' (h + 1) = C ++ nodeList :: t.allocated :: D := by rw [hrows', update_self]
  have hother : ∀ k, k ≠ h + 1 → rows' k = rows k := fun k hk => by rw [hrows', update_of_ne hk]
  have hin : ∀ k p, p ∈ rows' k → p = t.allocated ∧ k = h + 1 ∨ p ∈ rows k := fun k p hk => by
    by_cases hkh : k = h + 1
    · subst hkh
      rw [hself, append_cons, mem_append, mem_cons, or_left_comm, ← mem_append, ← append_cons,
        ← hrow] at hk
      exact hk.imp_left fun heq => ⟨heq, rfl⟩
    · exact .inr (hother k hkh ▸ hk)
  have hkeep : ∀ k, k ≠ h → k < t.level → Storey T t.nodes t.parent (rows (k + 1)) (rows k) →
      Storey T t'.nodes t'.parent (rows (k + 1)) (rows k) := fun k hkh hk hs =>
    hs.congr (fun p hpk => hnodes p (happart (k + 1) hk (h + 1) hlt (by omega) p hpk) (hfresh (k + 1) hk p hpk))
      fun c hc => hparent c (happart k (by omega) h (by omega) hkh c hc) (hfresh k (by omega) c hc)
  refine ⟨hlev ▸ hlt, hself, fun k hk => ?_, fun k hk l hl p hpk hpl => ?_, fun k hk => ?_, fun hlt' => ?_,
    fun k hk hkl => ?_, fun k hk p hpk hpn => ?_, ?_, fun p hpr => ?_⟩
  · rw [hlev] at hk
    by_cases hkh : k = h + 1
    · subst hkh
      rw [hself]
      exact Row.insert_behind hg (hrow ▸ hp.row (h + 1) hk) hp.released
    · rw [hother k hkh]
      exact (hp.row k hk).grown hg (hp.row (h + 1) hlt) hmem fun q hq => happart (h + 1) hlt k hk (Ne.symm hkh) q hq
  · rw [hlev] at hk hl
    rcases hin k p hpk with ⟨rfl, rfl⟩ | hpk
    · rcases hin l _ hpl with ⟨-, rfl⟩ | hpl
      · rfl
      · exact absurd rfl (hfresh l hl _ hpl)
    · rcases hin l p hpl with ⟨rfl, -⟩ | hpl
      · exact absurd rfl (hfresh k hk _ hpk)
      · exact hp.apart k hk l hl p hpk hpl
  · rw [hother k (by omega)]
    by_cases hkh : k = h
    · subst hkh
      rw [hself]
      exact hstorey
    · rw [hother (k + 1) (by omega)]
      exact hkeep k hkh (by omega) (hp.below k (by omega))
  · rw [hother (h + 2) (by omega), ← hrow]
    exact hkeep (h + 1) (by omega) (hlev ▸ hlt') (hp.above (h + 1) (by omega) (hlev ▸ hlt'))
  · rw [hother k (by omega), hother (k + 1) (by omega)]
    exact hkeep k (by omega) (hlev ▸ hkl) (hp.above k (by omega) (hlev ▸ hkl))
  · rw [hlev] at hk
    have hpk := (hin (k + 1) p hpk).resolve_left fun heq => hpn heq.1
    rw [hlevel]
    by_cases hpn : p = n
    · subst hpn
      have hkh := hp.apart _ (by omega) _ hp.le p hpk hp.mem
      rw [if_neg (by omega), update_self]
      omega
    · split
      · exact hp.level k hk p hpk hpn
      · rw [update_of_ne hpn]
        exact hp.level k hk p hpk hpn
  · obtain ⟨r, hr, hrp, hrl, -⟩ := hp.top
    have hrmem : r ∈ rows t.level := hrl hlt ▸ .head []
    refine ⟨r, hroot ▸ hr, ?_, fun hlt' => ?_, fun heq => ?_⟩
    · rw [hparent r (happart _ (Nat.le_refl _) h hp.le (by omega) r hrmem) (hfresh _ (Nat.le_refl _) r hrmem), hrp]
    · rw [hlev, hother t.level (by omega), hrl hlt]
    · have htop := hrl hlt
      rw [← hlev, ← heq, hrow] at htop
      obtain ⟨rfl, htop⟩ | ⟨-, htop⟩ := append_eq_singleton_iff.mp htop
      · obtain ⟨rfl, rfl⟩ := cons.inj htop
        exact ⟨rfl, rfl, rfl⟩
      · exact absurd htop (cons_ne_nil _ _)
  · rw [hg.released] at hpr
    rw [hg.allocated]
    exact Nat.lt_succ_of_lt (hp.released p hpr)

variable [Inhabited V] [LinearOrder K]

/-- One storey of the climb. -/
theorem Pending.splitNodes (hp : Pending T t rows h A m n B) (hlt : h < t.level) (hasc : t.Ascending T 0 (rows 0))
    (hplace : t.Place (rows (h + 1)) A m B C nodeList D E F) (hfull : (t.nodes nodeList).length = T.nodeCount)
    (hD : ∀ q ∈ D.head?, (t.nodes q).length = T.nodeCount) (hundo : t.Undoable rows recoveryMap h n)
    (ht' : t' = t.splitNodes T n h nodeList (E ++ [m]).length)
    (hrows' : rows' = update rows (h + 1) (C ++ nodeList :: t.allocated :: D))
    (hmap' : recoveryMap' =
      update recoveryMap (h + 1) (if (E ++ [m]).length = T.nodeCount then none else some (E ++ [m]).length)) :
    Pending T t' rows' (h + 1) C nodeList t.allocated D ∧ t'.Ascending T 0 (rows' 0) ∧
      t'.Undoable rows' recoveryMap' (h + 1) t.allocated ∧ t'.parent nodeList = t.parent nodeList ∧
      t'.items = t.items ∧ t'.level = t.level ∧ t'.defaultAccessor = t.defaultAccessor ∧ rows' 0 = rows 0 := by
  have hnodes : t.nodes nodeList = (E ++ [m]) ++ F := by rw [hplace.nodes_eq, append_cons]
  obtain ⟨stays, goes, hspill, hdata⟩ := spillRight_eq (d := 0) (A := E ++ [m]) (B := F) (x := n)
  rw [← hnodes, hfull] at hspill
  have hlen : T.nodeCount = (E ++ [m]).length + F.length := by rw [← hfull, hnodes, length_append]
  have hgoes : (E ++ [m]).length = T.nodeCount ↔ goes = n := by
    rw [hlen]
    rcases spillRight_goes hdata with ⟨rfl, rfl⟩ | hF
    · exact iff_of_true rfl rfl
    · refine iff_of_false (fun hlen => ?_) fun hgn => hp.notMem ?_
      · have := length_pos_of_mem hF
        omega
      · exact hplace.right_eq ▸ mem_append_right A (.tail m (mem_append_left _ (hgn ▸ hF)))
  have hgmem : goes ∈ rows h := hplace.mem_row hp (hdata ▸ mem_append_right stays (.head []))
  have hfresh : ∀ k ≤ t.level, ∀ p ∈ rows k, p ≠ t.allocated := fun k hk p hmem => ((hp.row k hk).known p hmem).ne
  have hnew := hfresh (h + 1) hlt nodeList hplace.mem
  have hrow0 : rows' 0 = rows 0 := by rw [hrows', update_of_ne (Nat.zero_ne_add_one h)]
  rw [splitNodes_eq hspill hgoes] at ht'
  have hnodes' : t'.nodes = update (update t.nodes t.allocated [goes]) nodeList stays := by rw [ht', update_idem]
  have hparent' : t'.parent =
      update (update (update t.parent t.allocated none) n (some nodeList)) goes (some t.allocated) := by rw [ht']
  have hprev' : t'.prev = prevBehind t.next t.prev nodeList t.allocated := by rw [ht']
  have hitems : t'.items = t.items := by rw [ht']
  have hup : Pending T t' rows' (h + 1) C nodeList t.allocated D := by
    refine hp.up hlt hplace.upper_eq ?_ ?_ (fun p hpk hpn => ?_) (fun p hpk hpn => ?_) (by rw [ht']) (by rw [ht'])
      (by rw [ht']) hrows'
    · exact ⟨by rw [ht'], hprev', by rw [ht'], by rw [ht']⟩
    · rw [hnodes', hparent']
      exact hp.storey_split hlt hplace hfull hD hdata (fun hmem => hfresh (h + 1) hlt _ hmem rfl)
        fun hmem => hfresh h hp.le _ hmem rfl
    · rw [hnodes', update_of_notMem hplace.mem hpk, update_of_ne hpn]
    · rw [hparent', update_of_notMem hgmem hpk, update_of_notMem hp.mem hpk,
        update_of_ne hpn]
  refine ⟨hup, ?_, ⟨hup.mem, nodeList, ?_, ?_, ?_⟩, ?_, hitems, by rw [ht'], by rw [ht'], hrow0⟩
  · rw [hrow0]
    exact hasc.imp fun {p q} hpq => by rwa [generate, generate, hitems]
  · exact hup.split ▸ mem_append_right C (.head _)
  · rw [hprev', prevBehind, update_self]
  · have hlower : (recoveryMap' (h + 1)).elim ((t'.nodes t.allocated).headD 0)
        (fun pos => (t'.nodes nodeList).getD pos 0) = n := by
      rw [hmap', update_self, hnodes', update_self, update_of_ne hnew.symm, update_self]
      rcases spillRight_goes hdata with ⟨hgn, hF⟩ | hF
      · rw [if_pos (hgoes.mpr hgn)]
        exact hgn
      · have hne : (E ++ [m]).length ≠ T.nodeCount := by
          have := length_pos_of_mem hF
          omega
        rw [if_neg hne, Option.elim_some]
        obtain ⟨F', f, rfl⟩ := (eq_nil_or_concat F).resolve_left (ne_nil_of_mem hF)
        rw [concat_eq_append, ← cons_append, ← append_assoc] at hdata
        rw [(append_inj' hdata rfl).1, getD_append_right _ _ _ _ (Nat.le_refl _), Nat.sub_self]
        rfl
    rw [hlower]
    refine hundo.congr (fun k hk p hpk => ?_) (fun k hk p hpk => ?_) (fun k hk p hpk => ?_) fun k hk => ?_
    · rwa [hrows', update_of_ne (by omega)]
    · have hkl : k ≤ t.level := hk.trans hp.le
      rw [hprev']
      refine prevBehind_of_ne (fun hnext => ?_) (hfresh k hkl p hpk)
      have := hp.apart _ hlt _ hkl p ((hp.row _ hlt).mem_next hplace.mem hnext) hpk
      omega
    · have hkl : k ≤ t.level := hk.trans hp.le
      rw [hnodes', update_of_ne, update_of_ne (hfresh k hkl p hpk)]
      rintro rfl
      have := hp.apart _ hlt _ hkl p hplace.mem hpk
      omega
    · rw [hmap', update_of_ne (by omega)]
  · have happart : ∀ x ∈ rows h, nodeList ≠ x := fun x hx heq => by
      have := hp.apart _ hlt _ hp.le nodeList hplace.mem (heq ▸ hx)
      omega
    rw [hparent', update_of_ne (happart goes hgmem), update_of_ne (happart n hp.mem), update_of_ne hnew]

/-! ### A new root -/

section
variable (hbelow : ∀ k < h, Storey T t.nodes t.parent (rows (k + 1)) (rows k))
  (hnodes : ∀ k < h, ∀ p ∈ rows (k + 1), t'.nodes p = t.nodes p)
include hbelow hnodes

omit [Inhabited V] [LinearOrder K] in
theorem leftmost_congr (hp : p ∈ rows h) :
    t'.leftmost h p = t.leftmost h p := by
  induction h generalizing p with
  | zero => rfl
  | succ h ih =>
    have hh := hbelow h (Nat.lt_succ_self h)
    rw [leftmost, leftmost, hnodes h (Nat.lt_succ_self h) p hp]
    refine ih (fun k hk => hbelow k (Nat.lt_succ_of_lt hk)) (fun k hk => hnodes k (Nat.lt_succ_of_lt hk)) ?_
    obtain ⟨c, l, hc⟩ := exists_cons_of_ne_nil (hh.filled p hp)
    exact hh.holds ▸ mem_flatMap.mpr ⟨p, hp, hc ▸ .head l⟩

omit [LinearOrder K] in
theorem generate_congr (hitems : t'.items = t.items) (hp : p ∈ rows h) :
    t'.generate T h p = t.generate T h p := by
  rw [generate, generate, leftmost_congr hbelow hnodes hp, hitems]

end

theorem newRoot_eq {r : PageId} (hn : n ≠ t.allocated)
    (hrn : ∀ t' : BePlusTree V, (∀ p, p ≠ t.allocated → t'.nodes p = t.nodes p) → t'.items = t.items →
      t'.generate T t.level r < t'.generate T t.level n) :
    t.newRoot T r n =
      { t with
        nodes := update t.nodes t.allocated [r, n]
        parent := update (update (update t.parent t.allocated none) n (some t.allocated)) r (some t.allocated)
        nodeLevel := if t.level = 0 then update t.nodeLevel t.allocated t.level
          else update (update t.nodeLevel t.allocated t.level) n (t.level - 1)
        next := update t.next t.allocated none
        prev := update t.prev t.allocated none
        allocated := t.allocated + 1
        root := some t.allocated
        level := t.level + 1 } := by
  let s : BePlusTree V := ((({ t.newNodeList none with nodeLevel := update t.nodeLevel t.allocated t.level }.setNodes
    t.allocated [r]).setNodeParentAndLevel n t.level t.allocated).setNodeParent r (some t.allocated))
  have hnodes : s.nodes = update t.nodes t.allocated [r] := by
    show update (update t.nodes t.allocated []) t.allocated [r] = _
    rw [update_idem]
  have hlevel : s.nodeLevel t.allocated = t.level := by
    show (if t.level = 0 then update t.nodeLevel t.allocated t.level
      else update (update t.nodeLevel t.allocated t.level) n (t.level - 1)) t.allocated = t.level
    split
    · exact update_self _ _ _
    · rw [update_of_ne hn.symm, update_self]
  have hself : s.nodes t.allocated = [r] := by rw [hnodes, update_self]
  have hpos : (s.findNode T t.allocated (s.generate T (s.nodeLevel t.allocated) n)).2 = 1 := by
    have hkeys := hrn s (fun p hp => by rw [hnodes, update_of_ne hp]) rfl
    rw [findNode, hlevel, hself]
    refine congrArg Prod.snd (SortedVector.find_absent (A := [r]) (B := []) ?_ (forall_mem_nil _))
    exact forall_mem_singleton.mpr hkeys
  show { s.setNodes t.allocated ((s.nodes t.allocated).insertIdx
    (s.findNode T t.allocated (s.generate T (s.nodeLevel t.allocated) n)).2 n) with
      root := some t.allocated, level := t.level + 1 } = _
  rw [hpos, hself, setNodes, hnodes, update_idem]
  rfl

/-- The old root and the new page become the children of a new root. -/
theorem Pending.newRoot {r : PageId} (hp : Pending T t rows t.level A m n B) (hasc : t.Ascending T 0 (rows 0))
    (hr : t.root = some r) :
    (t.newRoot T r n).Shape T (update rows (t.level + 1) [t.allocated]) ∧ (t.newRoot T r n).items = t.items ∧
      (t.newRoot T r n).defaultAccessor = t.defaultAccessor := by
  obtain ⟨r', hr', hrp, -, htop⟩ := hp.top
  cases hr.symm.trans hr'
  obtain ⟨rfl, rfl, rfl⟩ := htop rfl
  have hsplit : rows t.level = [m, n] := hp.split
  have hfresh : ∀ k ≤ t.level, ∀ p ∈ rows k, p ≠ t.allocated := fun k hk p hmem => ((hp.row k hk).known p hmem).ne
  have hmrow : m ∈ rows t.level := hsplit ▸ .head _
  have hm := hfresh _ (Nat.le_refl _) m hmrow
  have hn := hfresh _ (Nat.le_refl _) n hp.mem
  have hnm : n ≠ m := fun hnm => hp.notMem (hnm ▸ .head _)
  have hkeys := ascending_row hp.below hasc
  rw [hsplit] at hkeys
  have hmn := (pairwise_cons.mp hkeys).1 n (.head [])
  have hin : ∀ k p, p ∈ update rows (t.level + 1) [t.allocated] k → k ≤ t.level + 1 →
      p = t.allocated ∧ k = t.level + 1 ∨ p ∈ rows k ∧ k ≤ t.level := fun k p hk hle => by
    by_cases hkl : k = t.level + 1
    · subst hkl
      rw [update_self, mem_singleton] at hk
      exact .inl ⟨hk, rfl⟩
    · rw [update_of_ne hkl] at hk
      exact .inr ⟨hk, by omega⟩
  rw [newRoot_eq hn fun t' hnodes hitems => ?keys]
  case keys =>
    have hnodes' : ∀ k < t.level, ∀ p ∈ rows (k + 1), t'.nodes p = t.nodes p := fun k hk p hpk =>
      hnodes p (hfresh (k + 1) hk p hpk)
    rwa [generate_congr hp.below hnodes' hitems hmrow, generate_congr hp.below hnodes' hitems hp.mem]
  refine ⟨⟨fun k hk => ?_, fun k hk l hl p hpk hpl => ?_, fun k hk => ?_, fun k hk p hpk => ?_, ?_, fun p hpr => ?_⟩,
    rfl, rfl⟩
  · change k ≤ t.level + 1 at hk
    by_cases hkl : k = t.level + 1
    · rw [hkl, update_self]
      refine ⟨.singleton (update_self _ _ _) (update_self _ _ _), nodup_singleton _, ?_, ?_⟩
      · exact forall_mem_singleton.mpr (Nat.lt_succ_self _)
      · exact forall_mem_singleton.mpr fun hmem => Nat.lt_irrefl _ (hp.released _ hmem)
    · rw [update_of_ne hkl]
      have hrow := hp.row k (by omega)
      have hne := hfresh k (by omega)
      exact ⟨hrow.linked.congr (fun p hpk => update_of_ne (hne p hpk) _ _) fun p hpk => update_of_ne (hne p hpk) _ _,
        hrow.nodup, fun p hpk => Nat.lt_succ_of_lt (hrow.known p hpk), hrow.live⟩
  · rcases hin k p hpk hk with ⟨rfl, rfl⟩ | ⟨hpk, hk⟩
    · rcases hin l _ hpl hl with ⟨-, rfl⟩ | ⟨hpl, hl⟩
      · rfl
      · exact absurd rfl (hfresh l hl _ hpl)
    · rcases hin l p hpl hl with ⟨rfl, -⟩ | ⟨hpl, hl⟩
      · exact absurd rfl (hfresh k hk _ hpk)
      · exact hp.apart k hk l hl p hpk hpl
  · change k < t.level + 1 at hk
    rw [update_of_ne (by omega : k ≠ t.level + 1)]
    by_cases hkl : k = t.level
    · subst hkl
      rw [update_self, hsplit]
      have hself : update t.nodes t.allocated [m, n] t.allocated = [m, n] := update_self _ _ _
      dsimp only
      refine ⟨?_, forall_mem_singleton.mpr fun c hc => ?_, forall_mem_singleton.mpr ?_,
        forall_mem_singleton.mpr ?_, isChain_singleton _, fun p hpl => ?_⟩
      · rw [flatMap_singleton, hself]
      · rw [hself] at hc
        rcases mem_cons.mp hc with rfl | hc
        · exact update_self _ _ _
        · rw [mem_singleton.mp hc]
          rw [update_of_ne hnm, update_self]
      · rw [hself]
        exact cons_ne_nil _ _
      · rw [hself]
        exact T.two_le_nodeCount
      · rw [← singleton_inj.mp hpl, hself]
        exact Nat.le_refl 2
    · rw [update_of_ne (by omega : k + 1 ≠ t.level + 1)]
      refine (hp.below k (by omega)).congr (fun p hpk => update_of_ne (hfresh (k + 1) (by omega) p hpk) _ _) fun c hc =>
        ?_
      have hne : ∀ x ∈ rows t.level, c ≠ x := fun x hx hcx =>
        hkl (hp.apart k (by omega) _ (Nat.le_refl _) c hc (hcx ▸ hx))
      show update (update (update _ _ _) n _) m _ c = _
      rw [update_of_ne (hne m hmrow), update_of_ne (hne n hp.mem), update_of_ne (hfresh k (by omega) c hc)]
  · change k < t.level + 1 at hk
    by_cases hkl : k = t.level
    · subst hkl
      rw [update_self, mem_singleton] at hpk
      subst hpk
      dsimp only
      split
      · exact update_self _ _ _
      · rw [update_of_ne hn.symm, update_self]
    · rw [update_of_ne (by omega)] at hpk
      dsimp only
      rw [if_neg (by omega)]
      by_cases hpn : p = n
      · subst hpn
        have := hp.apart _ (by omega) _ (Nat.le_refl _) p hpk hp.mem
        rw [update_self]
        omega
      · rw [update_of_ne hpn, update_of_ne (hfresh (k + 1) (by omega) p hpk)]
        exact hp.level k (by omega) p hpk hpn
  · refine ⟨t.allocated, rfl, ?_, update_self _ _ _⟩
    show update (update (update _ _ _) n _) m _ t.allocated = _
    rw [update_of_ne hm.symm, update_of_ne hn.symm, update_self]
  · exact Nat.lt_succ_of_lt (hp.released p hpr)

/-- The climb has added the page, or an allocation failed and the splits are undone. -/
inductive Climbed (T : Template V K) (t : BePlusTree V) (rows : Nat → List PageId) (memory : Option Nat) :
    AddResult → BePlusTree V → Prop
  | added (t' : BePlusTree V) (rows' : Nat → List PageId) : t'.Shape T rows' → rows' 0 = rows 0 → t'.items = t.items →
      t'.defaultAccessor = t.defaultAccessor → t.level ≤ t'.level → Climbed T t rows memory .added t'
  | thrown (s : BePlusTree V) (rows' : Nat → List PageId) (h : Nat) (A : List PageId) (m n : PageId) (B : List PageId)
      (recoveryMap : Nat → Option Nat) : memory ≠ none → Pending T s rows' h A m n B →
      s.Undoable rows' recoveryMap h n → Climbed T t rows memory .thrown (s.recover recoveryMap h n)

omit [Inhabited V] [LinearOrder K] in
theorem allocate_none {memory : Option Nat} (h : allocate memory = none) : memory ≠ none := by
  rintro rfl
  exact nomatch h

theorem climb_top {fuel : Nat} {memory : Option Nat} (hp : Pending T t rows t.level A m n B)
    (hasc : t.Ascending T 0 (rows 0)) (hundo : t.Undoable rows recoveryMap t.level n) :
    ∃ r t', climb T fuel t memory n (t.parent m) t.level recoveryMap = some (r, t') ∧ Climbed T t rows memory r t' := by
  obtain ⟨r, hr, hrp, -, htop⟩ := hp.top
  obtain ⟨-, rfl, -⟩ := htop rfl
  rw [hrp, climb]
  cases halloc : allocate memory with
  | none => exact ⟨_, _, rfl, .thrown t rows _ A m n B recoveryMap (allocate_none halloc) hp hundo⟩
  | some _ =>
    obtain ⟨hshape, hitems, haccessor⟩ := hp.newRoot hasc hr
    rw [hr]
    refine ⟨_, _, rfl, .added _ _ hshape ?_ hitems haccessor ?_⟩
    · exact update_of_ne (Nat.zero_ne_add_one _) _ _
    · exact Nat.le_succ _

/-- By induction on the storeys above the page. -/
theorem climb_spec (fuel : Nat) (memory : Option Nat) (recoveryMap : Nat → Option Nat) (hp : Pending T t rows h A m n B)
    (hasc : t.Ascending T 0 (rows 0)) (hundo : t.Undoable rows recoveryMap h n) (hfuel : t.level - h ≤ fuel) :
    ∃ r t', climb T fuel t memory n (t.parent m) h recoveryMap = some (r, t') ∧ Climbed T t rows memory r t' := by
  induction fuel generalizing t rows h A m n B memory recoveryMap with
  | zero =>
    cases le_antisymm hp.le (Nat.sub_eq_zero_iff_le.mp (Nat.le_zero.mp hfuel))
    exact climb_top hp hasc hundo
  | succ fuel ih =>
    rcases hp.le.eq_or_lt with rfl | hlt
    · exact climb_top hp hasc hundo
    · obtain ⟨C, nodeList, D, E, F, hplace⟩ := hp.place hlt
      rw [hplace.parent_eq, climb]
      rcases hp.addNode_spec hlt hasc hplace with ⟨t', ht', hshape, hsame⟩ | ⟨hnone, hfull, hD⟩
      · rw [ht']
        exact ⟨_, _, rfl, .added t' rows hshape rfl hsame.items hsame.defaultAccessor hsame.level.ge⟩
      · rw [hnone]
        cases halloc : allocate memory with
        | none => exact ⟨_, _, rfl, .thrown t rows h A m n B recoveryMap (allocate_none halloc) hp hundo⟩
        | some rest =>
          rw [hp.findNode_eq hlt hasc hplace]
          obtain ⟨hup, hasc', hundo', hparent, hitems, hlevel, haccessor, hrow⟩ :=
            hp.splitNodes hlt hasc hplace hfull hD hundo rfl rfl rfl
          obtain ⟨r, t', hclimb, hspec⟩ := ih rest _ hup hasc' hundo' (by omega)
          rw [hparent] at hclimb
          refine ⟨r, t', hclimb, ?_⟩
          cases hspec with
          | added t' rows' hshape hrow' hitems' haccessor' hlevel' =>
            exact .added t' rows' hshape (hrow'.trans hrow) (hitems'.trans hitems) (haccessor'.trans haccessor)
              (hlevel ▸ hlevel')
          | thrown s rows' h A m n B recoveryMap hmem hp hundo =>
            refine .thrown s rows' h A m n B recoveryMap ?_ hp hundo
            rintro rfl
            exact hmem (Option.some.inj halloc).symm

end Firebird.Tree.BePlusTree
