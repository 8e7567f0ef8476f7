import Firebird.Tree.Climb

/-! # A page leaves the tree -/

namespace Firebird.Tree.BePlusTree

open Function Lib List

variable {V K : Type} {T : Template V K} {t t' : BePlusTree V} {rows : Nat → List PageId}
  {A B C D E F upper lower lower' : List PageId} {h : Nat} {n p q c list temp : PageId}
  {nodes nodes' : PageId → List PageId} {parent : PageId → Option PageId}

/-- The tree after `n` left the list of its level; only children and parents may differ otherwise. -/
structure Unlinked (t t' : BePlusTree V) (n : PageId) : Prop where
  next : t'.next = nextWithout t.next t.prev n
  prev : t'.prev = prevWithout t.next t.prev n
  nodeLevel : t'.nodeLevel = t.nodeLevel
  allocated : t'.allocated = t.allocated
  released : t'.released = t.released
  level : t'.level = t.level
  root : t'.root = t.root
  items : t'.items = t.items
  defaultAccessor : t'.defaultAccessor = t.defaultAccessor

theorem Row.without (hu : Unlinked t t' n) (hr : t.Row (A ++ n :: B)) : t'.Row (A ++ B) where
  linked := by
    rw [hu.next, hu.prev]
    exact hr.linked.without hr.nodup
  nodup := (nodup_cons.mp (nodup_middle.mp hr.nodup)).2
  known p hp := by
    rw [hu.allocated]
    refine hr.known p ?_
    rw [mem_append]
    rw [mem_append] at hp
    tauto
  live p hp := by
    rw [hu.released]
    refine hr.live p ?_
    rw [mem_append]
    rw [mem_append] at hp
    tauto

theorem Row.unlinked (hu : Unlinked t t' n) (hr : t.Row lower) (hrow : t.Row upper) (hn : n ∈ upper)
    (hapart : ∀ q, q ∈ upper → q ∉ lower) : t'.Row lower where
  linked := by
    rw [hu.next, hu.prev]
    refine hr.linked.congr (fun q hq => ?_) fun q hq => ?_
    · exact nextWithout_of_ne fun hprev => hapart q (hrow.mem_prev hn hprev) hq
    · exact prevWithout_of_ne fun hnext => hapart q (hrow.mem_next hn hnext) hq
  nodup := hr.nodup
  known := hu.allocated ▸ hr.known
  live := hu.released ▸ hr.live

/-- `n` is about to leave the row of level `h`: the other pages of the row hold all pages of the level below, while the
level above still holds `n`. -/
structure Leaving [Inhabited V] [LinearOrder K] (T : Template V K) (t : BePlusTree V) (rows : Nat → List PageId)
    (h : Nat) (A : List PageId) (n : PageId) (B : List PageId) : Prop where
  lt : h < t.level
  split : rows h = A ++ n :: B
  row : ∀ k ≤ t.level, t.Row (rows k)
  apart : ∀ k ≤ t.level, ∀ l ≤ t.level, ∀ p, p ∈ rows k → p ∈ rows l → k = l
  below : ∀ k, k + 1 < h → Storey T t.nodes t.parent (rows (k + 1)) (rows k)
  here : ∀ k, k + 1 = h → Storey T t.nodes t.parent (A ++ B) (rows k)
  above : ∀ k, h ≤ k → k < t.level → Storey T t.nodes t.parent (rows (k + 1)) (rows k)
  level : ∀ k < t.level, ∀ p ∈ rows (k + 1), t.nodeLevel p = k
  top : ∃ r, t.root = some r ∧ t.parent r = none ∧ rows t.level = [r]
  released : ∀ p ∈ t.released, p < t.allocated
  ascending : t.Ascending T h (rows h)

variable [Inhabited V] [LinearOrder K]

section
variable (hl : Leaving T t rows h A n B)
include hl

theorem Leaving.mem : n ∈ rows h := hl.split ▸ mem_append_right A (.head B)

theorem Leaving.mem_row (hp : p ∈ A ++ B) : p ∈ rows h := by
  rw [hl.split, mem_append]
  rw [mem_append] at hp
  tauto

theorem Leaving.notMem : n ∉ A ++ B := by
  have hnodup := (hl.row h hl.lt.le).nodup
  rw [hl.split] at hnodup
  exact (nodup_cons.mp (nodup_middle.mp hnodup)).1

theorem Leaving.parent_eq : ∃ C list D E F, t.Place (rows (h + 1)) A n B C list D E F := by
  have hs := hl.above h (Nat.le_refl _) hl.lt
  have hholds := hs.holds
  rw [hl.split] at hholds
  obtain ⟨C, list, D, E, F, hupper, hnodes, hA, hB⟩ := flatMap_split hholds
  refine ⟨C, list, D, E, F, hupper, hnodes, hA, hB, ?_⟩
  exact hs.parent list (hupper ▸ mem_append_right C (.head D)) n (hnodes ▸ mem_append_right E (.head F))

theorem Leaving.row_without (hu : Unlinked t t' n) {k : Nat} (hk : k ≤ t.level) :
    t'.Row (update rows h (A ++ B) k) := by
  by_cases hkh : k = h
  · subst hkh
    rw [update_self]
    exact Row.without hu (hl.split ▸ hl.row k hk)
  · rw [update_of_ne hkh]
    exact (hl.row k hk).unlinked hu (hl.row h hl.lt.le) hl.mem fun q hq hqk => hkh (hl.apart k hk h hl.lt.le q hqk hq)

theorem Leaving.mem_update {k : Nat} (hp : p ∈ update rows h (A ++ B) k) : p ∈ rows k := by
  by_cases hkh : k = h
  · subst hkh
    rw [update_self] at hp
    exact hl.mem_row hp
  · rwa [update_of_ne hkh] at hp

theorem Leaving.keep (hnodes : ∀ p, p ∉ rows (h + 1) → t'.nodes p = t.nodes p)
    (hparent : ∀ p, p ∉ rows h → t'.parent p = t.parent p) {k : Nat} (hk : k < t.level) (hkh : k ≠ h) :
    Storey T t'.nodes t'.parent (update rows h (A ++ B) (k + 1)) (update rows h (A ++ B) k) := by
  have hs : Storey T t.nodes t.parent (update rows h (A ++ B) (k + 1)) (update rows h (A ++ B) k) := by
    rw [update_of_ne hkh]
    rcases Nat.lt_trichotomy (k + 1) h with hlt | rfl | hgt
    · rw [update_of_ne (by omega)]
      exact hl.below k hlt
    · rw [update_self]
      exact hl.here k rfl
    · rw [update_of_ne (by omega)]
      exact hl.above k (by omega) hk
  refine hs.congr (fun p hp => hnodes p fun hp' => hkh ?_) fun c hc => hparent c fun hc' => hkh ?_
  · have := hl.apart _ hk _ hl.lt p (hl.mem_update hp) hp'
    omega
  · exact hl.apart k hk.le h hl.lt.le c (hl.mem_update hc) hc'

section
variable (hu : Unlinked t t' n) (hparent : ∀ p, p ∉ rows h → t'.parent p = t.parent p)
include hu hparent

theorem Leaving.top_without :
    ∃ r, t'.root = some r ∧ t'.parent r = none ∧ update rows h (A ++ B) t'.level = [r] := by
  obtain ⟨r, hr, hrp, htop⟩ := hl.top
  refine ⟨r, hu.root ▸ hr, ?_, ?_⟩
  · rw [hparent r fun hmem => ?_, hrp]
    have := hl.apart _ (Nat.le_refl _) _ hl.lt.le r (htop ▸ .head []) hmem
    exact hl.lt.ne' this
  · rw [hu.level, update_of_ne hl.lt.ne', htop]

variable (hnodes : ∀ p, p ∉ rows (h + 1) → t'.nodes p = t.nodes p)
include hnodes

theorem Leaving.settle (hstorey : Storey T t'.nodes t'.parent (rows (h + 1)) (A ++ B)) :
    t'.Shape T (update rows h (A ++ B)) where
  row k hk := hl.row_without hu (hu.level ▸ hk)
  apart k hk l hl' p hpk hpl :=
    hl.apart k (hu.level ▸ hk) l (hu.level ▸ hl') p (hl.mem_update hpk) (hl.mem_update hpl)
  storey k hk := by
    by_cases hkh : k = h
    · subst hkh
      rw [update_self, update_of_ne (Nat.succ_ne_self k)]
      exact hstorey
    · exact hl.keep hnodes hparent (hu.level ▸ hk) hkh
  level k hk p hp := by
    rw [hu.nodeLevel]
    exact hl.level k (hu.level ▸ hk) p (hl.mem_update hp)
  top := hl.top_without hu hparent
  released p hp := by
    rw [hu.allocated]
    exact hl.released p (hu.released ▸ hp)

theorem Leaving.up (hrow : rows (h + 1) = C ++ p :: D) (hlt : h + 1 < t.level)
    (hstorey : Storey T t'.nodes t'.parent (C ++ D) (A ++ B)) (hasc : t'.Ascending T (h + 1) (rows (h + 1))) :
    Leaving T t' (update rows h (A ++ B)) (h + 1) C p D := by
  have hother : ∀ k, k ≠ h → update rows h (A ++ B) k = rows k := fun k hk => update_of_ne hk _ _
  refine ⟨hu.level ▸ hlt, by rw [hother _ (Nat.succ_ne_self h), hrow], fun k hk => hl.row_without hu (hu.level ▸ hk),
    fun k hk l hl' p hpk hpl => ?_, fun k hk => ?_, fun k hk => ?_, fun k hk hkl => ?_, fun k hk p hp => ?_,
    hl.top_without hu hparent, fun p hp => ?_, ?_⟩
  · exact hl.apart k (hu.level ▸ hk) l (hu.level ▸ hl') p (hl.mem_update hpk) (hl.mem_update hpl)
  · exact hl.keep hnodes hparent (by omega) (by omega)
  · obtain rfl : k = h := by omega
    rw [update_self]
    exact hstorey
  · exact hl.keep hnodes hparent (hu.level ▸ hkl) (by omega)
  · rw [hu.nodeLevel]
    exact hl.level k (hu.level ▸ hk) p (hl.mem_update hp)
  · rw [hu.allocated]
    exact hl.released p (hu.released ▸ hp)
  · rw [hother _ (Nat.succ_ne_self h)]
    exact hasc

end

end

/-! ### The node pages above -/

omit [Inhabited V] [LinearOrder K] in
theorem crowded_at (hC : C.IsChain fun p q => 3 ≤ (nodes p).length + (nodes q).length)
    (hD : D.IsChain fun p q => 3 ≤ (nodes p).length + (nodes q).length)
    (hsame : ∀ x, x ∈ C ∨ x ∈ D → (nodes' x).length = (nodes x).length)
    (hleft : ∀ x ∈ C.getLast?, 3 ≤ (nodes' x).length + (nodes' p).length)
    (hright : ∀ x ∈ D.head?, 3 ≤ (nodes' p).length + (nodes' x).length) :
    (C ++ p :: D).IsChain fun p q => 3 ≤ (nodes' p).length + (nodes' q).length := by
  refine isChain_append.mpr ⟨?_, isChain_cons.mpr ⟨hright, ?_⟩, fun x hx y hy => ?_⟩
  · exact hC.imp_of_mem_imp fun x y hx hy hxy => by rwa [hsame x (.inl hx), hsame y (.inl hy)]
  · exact hD.imp_of_mem_imp fun x y hx hy hxy => by rwa [hsame x (.inr hx), hsame y (.inr hy)]
  · cases Option.some.inj hy
    exact hleft x hx

omit [Inhabited V] [LinearOrder K] in
theorem Storey.one_le (hs : Storey T nodes parent upper lower) (hp : p ∈ upper) : 1 ≤ (nodes p).length :=
  length_pos_of_ne_nil (hs.filled p hp)

section
variable (hl : Leaving T t rows h A n B)
include hl

theorem Leaving.storey (hplace : t.Place (rows (h + 1)) A n B C list D E F) :
    Storey T t.nodes t.parent (C ++ list :: D) (rows h) ∧ (C ++ list :: D).Nodup ∧ list ∉ C ∧ list ∉ D := by
  have hs := hl.above h (Nat.le_refl _) hl.lt
  have hnodup := (hl.row (h + 1) hl.lt).nodup
  rw [hplace.upper_eq] at hs hnodup
  exact ⟨hs, hnodup, notMem_of_nodup hnodup⟩

theorem Leaving.storey_drop (hplace : t.Place (rows (h + 1)) A n B C list D [] []) :
    Storey T t.nodes t.parent (C ++ D) (A ++ B) := by
  obtain ⟨hs, -, -, -⟩ := hl.storey hplace
  have hlen : (t.nodes list).length = 1 := by rw [hplace.nodes_eq]; rfl
  have hmem : ∀ x ∈ C ++ D, x ∈ C ++ list :: D := fun x hx => by
    rw [mem_append]
    rw [mem_append] at hx
    tauto
  obtain ⟨hC, hD, hjoin⟩ := isChain_append.mp hs.crowded
  obtain ⟨hright, hD⟩ := isChain_cons.mp hD
  refine ⟨?_, fun p hp => hs.parent p (hmem p hp), fun p hp => hs.filled p (hmem p hp), fun p hp =>
    hs.fits p (hmem p hp), isChain_append.mpr ⟨hC, hD, fun x hx y hy => ?_⟩, fun p hp => ?_⟩
  · rw [flatMap_append, hplace.left_eq, hplace.right_eq, append_nil]
    rfl
  · have hx' := hjoin x hx list rfl
    have hy' := hright y hy
    omega
  · rcases append_eq_singleton_iff.mp hp with ⟨rfl, rfl⟩ | ⟨rfl, rfl⟩
    · have := hright p rfl
      omega
    · have := hjoin p rfl list rfl
      omega

theorem Leaving.storey_keep (hplace : t.Place (rows (h + 1)) A n B C list D E F)
    (hleft : ∀ x ∈ C.getLast?, 3 ≤ (t.nodes x).length + (E ++ F).length)
    (hright : ∀ x ∈ D.head?, 3 ≤ (E ++ F).length + (t.nodes x).length) (hpos : 1 ≤ (E ++ F).length)
    (halone : rows (h + 1) = [list] → 2 ≤ (E ++ F).length) :
    Storey T (update t.nodes list (E ++ F)) t.parent (rows (h + 1)) (A ++ B) := by
  obtain ⟨hs, hnodup, hC, hD⟩ := hl.storey hplace
  rw [hplace.upper_eq] at halone ⊢
  have hself : update t.nodes list (E ++ F) list = E ++ F := update_self _ _ _
  have hother : ∀ x, x ≠ list → update t.nodes list (E ++ F) x = t.nodes x := fun x hx => update_of_ne hx _ _
  have hside : ∀ x, x ∈ C ∨ x ∈ D → update t.nodes list (E ++ F) x = t.nodes x := fun x hx =>
    hother x (by rintro rfl; tauto)
  have hsub : ∀ x, ∀ c ∈ update t.nodes list (E ++ F) x, c ∈ t.nodes x := fun x c hc => by
    by_cases hx : x = list
    · rw [hx, hself, mem_append] at hc
      rw [hx, hplace.nodes_eq, mem_append]
      tauto
    · rwa [hother x hx] at hc
  refine ⟨?_, fun x hx c hc => hs.parent x hx c (hsub x c hc), fun x hx => ?_, fun x hx => ?_, ?_, fun x hx => ?_⟩
  · rw [flatMap_append, flatMap_cons, hself, flatMap_update_of_notMem hC, flatMap_update_of_notMem hD,
      hplace.left_eq, hplace.right_eq]
    simp
  · by_cases hxl : x = list
    · rw [hxl, hself]
      exact ne_nil_of_length_pos hpos
    · rw [hother x hxl]
      exact hs.filled x hx
  · by_cases hxl : x = list
    · have := hs.fits list (mem_append_right C (.head D))
      rw [hplace.nodes_eq] at this
      rw [hxl, hself]
      simp only [length_append, length_cons] at this ⊢
      omega
    · rw [hother x hxl]
      exact hs.fits x hx
  · obtain ⟨hCc, hDc, -⟩ := isChain_append.mp hs.crowded
    refine crowded_at hCc (isChain_cons.mp hDc).2 (fun x hx => by rw [hside x hx]) (fun x hx => ?_) fun x hx => ?_
    · rw [hself, hside x (.inl (mem_of_getLast? hx))]
      exact hleft x hx
    · rw [hself, hside x (.inr (mem_of_mem_head? hx))]
      exact hright x hx
  · obtain rfl : x = list := by
      have hmem : list ∈ C ++ list :: D := mem_append_right C (.head D)
      rw [hx, mem_singleton] at hmem
      exact hmem.symm
    rw [hself]
    exact halone hx

theorem Leaving.nodup : (A ++ B).Nodup := by
  have hnodup := (hl.row h hl.lt.le).nodup
  rw [hl.split] at hnodup
  exact (nodup_cons.mp (nodup_middle.mp hnodup)).2

end

omit [Inhabited V] [LinearOrder K] in
theorem Storey.give (hs : Storey T nodes parent upper lower) (hlist : list ∈ upper) (htemp : temp ∈ upper)
    (hne : temp ≠ list) (hone : (nodes list).length = 1) (hsub : ∀ d ∈ E, d ∈ nodes temp)
    (hlen : (nodes temp).length = E.length + 1) (hthree : 3 ≤ (nodes temp).length)
    (hholds : upper.flatMap (update (update nodes list [c]) temp E) = lower') (hnodup : lower'.Nodup) :
    Storey T (update (update nodes list [c]) temp E) (update parent c (some list)) upper lower' := by
  have hself : update (update nodes list [c]) temp E temp = E := update_self _ _ _
  have hgot : update (update nodes list [c]) temp E list = [c] := by rw [update_of_ne hne.symm, update_self]
  have hother : ∀ x, x ≠ list → x ≠ temp → update (update nodes list [c]) temp E x = nodes x := fun x hxl hxt => by
    rw [update_of_ne hxt, update_of_ne hxl]
  have hcount : ∀ x, x ≠ temp → (update (update nodes list [c]) temp E x).length = (nodes x).length := fun x hxt => by
    by_cases hxl : x = list
    · rw [hxl, hgot, hone]
      rfl
    · rw [hother x hxl hxt]
  refine ⟨hholds, fun x hx d hd => ?_, fun x hx => ?_, fun x hx => ?_, ?_, fun x hx => ?_⟩
  · by_cases hdc : d = c
    · have hxl : x = list := holder_unique (hholds ▸ hnodup) hx hlist hd (by rw [hdc, hgot]; exact .head [])
      rw [hdc, hxl, update_self]
    · rw [update_of_ne hdc]
      refine hs.parent x hx d ?_
      by_cases hxt : x = temp
      · rw [hxt, hself] at hd
        exact hxt ▸ hsub d hd
      · by_cases hxl : x = list
        · rw [hxl, hgot, mem_singleton] at hd
          exact absurd hd hdc
        · rwa [hother x hxl hxt] at hd
  · refine ne_nil_of_length_pos ?_
    by_cases hxt : x = temp
    · rw [hxt, hself]
      omega
    · rw [hcount x hxt]
      exact hs.one_le hx
  · by_cases hxt : x = temp
    · have := hs.fits temp htemp
      rw [hxt, hself]
      omega
    · rw [hcount x hxt]
      exact hs.fits x hx
  · refine hs.crowded.imp_of_mem_imp fun x y hx hy hxy => ?_
    have hx' := hs.one_le hx
    have hy' := hs.one_le hy
    by_cases hxt : x = temp
    · by_cases hyt : y = temp
      · rw [hxt, hyt, hself]
        omega
      · rw [hxt, hself, hcount y hyt]
        omega
    · by_cases hyt : y = temp
      · rw [hyt, hself, hcount x hxt]
        omega
      · rwa [hcount x hxt, hcount y hyt]
  · rw [hx, mem_singleton] at hlist htemp
    exact absurd (htemp.trans hlist.symm) hne

theorem Leaving.storey_fromPrev (hl : Leaving T t rows h A n B)
    (hplace : t.Place (rows (h + 1)) A n B (C ++ [temp]) list D [] []) (htemp : t.nodes temp = E ++ [c])
    (hlen : 3 ≤ (t.nodes temp).length) :
    Storey T (update (update t.nodes list [c]) temp E) (update t.parent c (some list)) (rows (h + 1)) (A ++ B) := by
  obtain ⟨hs, hnodup, hC, hD⟩ := hl.storey hplace
  have hne : temp ≠ list := fun heq => hC (heq ▸ mem_append_right C (.head []))
  rw [append_assoc, singleton_append] at hs hnodup
  obtain ⟨htC, htD⟩ := notMem_of_nodup hnodup
  rw [hplace.upper_eq, append_assoc]
  refine hs.give (mem_append_right C (.tail temp (.head D))) (mem_append_right C (.head _)) hne
    (by rw [hplace.nodes_eq]; rfl) (fun d hd => htemp ▸ mem_append_left _ hd)
    (by rw [htemp, length_append, length_singleton]) hlen ?_ hl.nodup
  rw [flatMap_append, flatMap_cons, flatMap_cons, update_self, update_of_ne hne.symm, update_self,
    flatMap_update_of_notMem htC, flatMap_update_of_notMem fun hmem => hC (mem_append_left _ hmem),
    flatMap_update_of_notMem fun hmem => htD (.tail list hmem), flatMap_update_of_notMem hD, hplace.left_eq,
    hplace.right_eq, flatMap_append, flatMap_singleton, htemp]
  simp

theorem Leaving.storey_fromNext (hl : Leaving T t rows h A n B)
    (hplace : t.Place (rows (h + 1)) A n B C list (temp :: D) [] []) (htemp : t.nodes temp = c :: E)
    (hlen : 3 ≤ (t.nodes temp).length) :
    Storey T (update (update t.nodes list [c]) temp E) (update t.parent c (some list)) (rows (h + 1)) (A ++ B) := by
  obtain ⟨hs, hnodup, hC, hD⟩ := hl.storey hplace
  have hne : temp ≠ list := fun heq => hD (heq ▸ .head D)
  rw [append_cons] at hnodup
  obtain ⟨htC, htD⟩ := notMem_of_nodup hnodup
  rw [hplace.upper_eq]
  refine hs.give (mem_append_right C (.head _)) (mem_append_right C (.tail list (.head D))) hne
    (by rw [hplace.nodes_eq]; rfl) (fun d hd => htemp ▸ .tail c hd) (by rw [htemp, length_cons]) hlen ?_ hl.nodup
  rw [flatMap_append, flatMap_cons, flatMap_cons, update_self, update_of_ne hne.symm, update_self,
    flatMap_update_of_notMem fun hmem => htC (mem_append_left _ hmem), flatMap_update_of_notMem hC,
    flatMap_update_of_notMem htD, flatMap_update_of_notMem fun hmem => hD (.tail temp hmem), hplace.left_eq,
    hplace.right_eq, flatMap_cons, htemp]
  simp

omit [Inhabited V] [LinearOrder K] in
theorem Storey.join (hs : Storey T nodes parent upper lower)
    (hC : C.IsChain fun p q => 3 ≤ (nodes p).length + (nodes q).length)
    (hD : D.IsChain fun p q => 3 ≤ (nodes p).length + (nodes q).length) (hmem : ∀ x ∈ C ++ p :: D, x ∈ upper)
    (hsame : ∀ x, x ∈ C ∨ x ∈ D → nodes' x = nodes x) (htwo : 2 ≤ (nodes' p).length)
    (hfits : (nodes' p).length ≤ T.nodeCount) (hholds : (C ++ p :: D).flatMap nodes' = lower')
    (hmoved : ∀ x ∈ C ++ p :: D, ∀ c ∈ nodes x, c ∉ E) (hgot : ∀ c ∈ nodes' p, c ∈ nodes p ∨ c ∈ E) :
    Storey T nodes' (fun c => if c ∈ E then some p else parent c) (C ++ p :: D) lower' := by
  have hcases : ∀ x ∈ C ++ p :: D, x = p ∨ (x ∈ C ∨ x ∈ D) := fun x hx => by
    rw [mem_append, mem_cons] at hx
    tauto
  have hkept : ∀ x ∈ C ++ p :: D, ∀ c ∈ nodes x, (if c ∈ E then some p else parent c) = some x := fun x hx c hc => by
    rw [if_neg (hmoved x hx c hc)]
    exact hs.parent x (hmem x hx) c hc
  refine ⟨hholds, fun x hx c hc => ?_, fun x hx => ?_, fun x hx => ?_, ?_, fun x hx => ?_⟩
  · rcases hcases x hx with rfl | hx'
    · rcases hgot c hc with hc | hc
      · exact hkept x hx c hc
      · exact if_pos hc
    · rw [hsame x hx'] at hc
      exact hkept x hx c hc
  · rcases hcases x hx with rfl | hx'
    · exact ne_nil_of_length_pos (by omega)
    · rw [hsame x hx']
      exact hs.filled x (hmem x hx)
  · rcases hcases x hx with rfl | hx'
    · exact hfits
    · rw [hsame x hx']
      exact hs.fits x (hmem x hx)
  · refine crowded_at hC hD (fun x hx => by rw [hsame x hx]) (fun x hx => ?_) fun x hx => ?_
    · have hxC := mem_of_getLast? hx
      have := hs.one_le (hmem x (mem_append_left _ hxC))
      rw [hsame x (.inl hxC)]
      omega
    · have hxD := mem_of_mem_head? hx
      have := hs.one_le (hmem x (mem_append_right C (.tail p hxD)))
      rw [hsame x (.inr hxD)]
      omega
  · obtain rfl : x = p := by
      have hp : p ∈ C ++ p :: D := mem_append_right C (.head D)
      rw [hx, mem_singleton] at hp
      exact hp.symm
    exact htwo

theorem Leaving.storey_joinPrev (hl : Leaving T t rows h A n B)
    (hplace : t.Place (rows (h + 1)) A n B (C ++ [temp]) list D E F) (hpos : 1 ≤ (E ++ F).length)
    (hfits : (t.nodes temp).length + (E ++ F).length ≤ T.nodeCount) :
    Storey T (update (update t.nodes list (E ++ F)) temp (t.nodes temp ++ (E ++ F)))
      (fun c => if c ∈ E ++ F then some temp else t.parent c) ((C ++ [temp]) ++ D) (A ++ B) := by
  obtain ⟨hs, hnodup, hC, hD⟩ := hl.storey hplace
  have hnodupL : (rows h).Nodup := (hl.row h hl.lt.le).nodup
  rw [append_assoc, singleton_append] at hs hnodup
  obtain ⟨htC, htD⟩ := notMem_of_nodup hnodup
  rw [append_assoc, singleton_append]
  have hself : update (update t.nodes list (E ++ F)) temp (t.nodes temp ++ (E ++ F)) temp = t.nodes temp ++ (E ++ F) :=
    update_self _ _ _
  have hside : ∀ x, x ∈ C ∨ x ∈ D → update (update t.nodes list (E ++ F)) temp (t.nodes temp ++ (E ++ F)) x =
      t.nodes x :=
    fun x hx => by
      rw [update_of_ne (by rintro rfl; tauto),
        update_of_ne (by rintro rfl; simp only [mem_append] at hC; tauto)]
  have hmem : ∀ x ∈ C ++ temp :: D, x ∈ C ++ temp :: list :: D := fun x hx => by
    simp only [mem_append, mem_cons] at hx ⊢
    tauto
  have hnotmoved : ∀ x ∈ C ++ temp :: D, ∀ c ∈ t.nodes x, c ∉ E ++ F := fun x hx c hc hcEF => by
    have hxl : x = list := by
      refine holder_unique (hs.holds ▸ hnodupL) (hmem x hx) (mem_append_right C (.tail temp (.head D))) hc ?_
      rw [hplace.nodes_eq, mem_append]
      rw [mem_append] at hcEF
      tauto
    subst hxl
    simp only [mem_append, mem_cons] at hx hC
    tauto
  obtain ⟨hCc, hDc, -⟩ := isChain_append.mp hs.crowded
  refine hs.join hCc (isChain_cons.mp (isChain_cons.mp hDc).2).2 hmem hside ?_ ?_ ?_ hnotmoved fun c hc => ?_
  · have := hs.one_le (mem_append_right C (.head _))
    rw [hself, length_append]
    omega
  · rw [hself, length_append]
    exact hfits
  · rw [flatMap_append, flatMap_cons, hself, flatMap_congr fun x hx => hside x (.inl hx),
      flatMap_congr fun x hx => hside x (.inr hx), hplace.left_eq, hplace.right_eq, flatMap_append,
      flatMap_singleton]
    simp
  · rw [hself, mem_append] at hc
    exact hc

theorem Leaving.storey_joinNext (hl : Leaving T t rows h A n B)
    (hplace : t.Place (rows (h + 1)) A n B C list (temp :: D) E F) (hpos : 1 ≤ (E ++ F).length)
    (hfits : (t.nodes temp).length + (E ++ F).length ≤ T.nodeCount) :
    Storey T (update t.nodes list ((E ++ F) ++ t.nodes temp))
      (fun c => if c ∈ t.nodes temp then some list else t.parent c) (C ++ list :: D) (A ++ B) := by
  obtain ⟨hs, hnodup, hC, hD⟩ := hl.storey hplace
  have hnodupL : (rows h).Nodup := (hl.row h hl.lt.le).nodup
  have hself : update t.nodes list ((E ++ F) ++ t.nodes temp) list = (E ++ F) ++ t.nodes temp := update_self _ _ _
  have hside : ∀ x, x ∈ C ∨ x ∈ D → update t.nodes list ((E ++ F) ++ t.nodes temp) x = t.nodes x := fun x hx =>
    update_of_ne (by rintro rfl; tauto) _ _
  have hmem : ∀ x ∈ C ++ list :: D, x ∈ C ++ list :: temp :: D := fun x hx => by
    simp only [mem_append, mem_cons] at hx ⊢
    tauto
  have htemp : temp ∈ C ++ list :: temp :: D := mem_append_right C (.tail list (.head D))
  have hnotmoved : ∀ x ∈ C ++ list :: D, ∀ c ∈ t.nodes x, c ∉ t.nodes temp := fun x hx c hc hct => by
    have hxt : x = temp := holder_unique (hs.holds ▸ hnodupL) (hmem x hx) htemp hc hct
    subst hxt
    rw [append_cons] at hnodup
    refine (nodup_cons.mp (nodup_middle.mp hnodup)).1 ?_
    rwa [← append_cons]
  obtain ⟨hCc, hDc, -⟩ := isChain_append.mp hs.crowded
  refine hs.join hCc (isChain_cons.mp (isChain_cons.mp hDc).2).2 hmem hside ?_ ?_ ?_ hnotmoved fun c hc => ?_
  · have := hs.one_le htemp
    rw [hself, length_append]
    omega
  · rw [hself, length_append]
    omega
  · rw [flatMap_append, flatMap_cons, hself, flatMap_congr fun x hx => hside x (.inl hx),
      flatMap_congr fun x hx => hside x (.inr hx), hplace.left_eq, hplace.right_eq, flatMap_cons]
    simp
  · rw [hself, mem_append] at hc
    refine hc.imp_left fun hc => ?_
    rw [hplace.nodes_eq, mem_append]
    rw [mem_append] at hc
    tauto

omit [LinearOrder K] in
theorem generate_same (hnodes : t'.nodes = t.nodes) (hitems : t'.items = t.items) (lev : Nat) (p : PageId) :
    t'.generate T lev p = t.generate T lev p := by
  have hleft : t'.leftmost lev p = t.leftmost lev p := by
    induction lev generalizing p with
    | zero => rfl
    | succ lev ih => rw [leftmost, leftmost, hnodes, ih]
  rw [generate, generate, hleft, hitems]

theorem Leaving.findNode_eq (hl : Leaving T t rows h A n B) (hplace : t.Place (rows (h + 1)) A n B C list D E F)
    (hnodes : t'.nodes = t.nodes) (hitems : t'.items = t.items) (hlevel : t'.nodeLevel = t.nodeLevel) :
    (t'.findNode T list (t'.generate T (t'.nodeLevel list) n)).2 = E.length := by
  have hblock : t.Ascending T h (t.nodes list) := by
    have hasc := hl.ascending
    rw [← (hl.above h (Nat.le_refl _) hl.lt).holds, hplace.upper_eq] at hasc
    exact hasc.children
  have hmem : list ∈ rows (h + 1) := hplace.upper_eq ▸ mem_append_right C (.head D)
  rw [hplace.nodes_eq] at hblock
  obtain ⟨-, hright, hleft⟩ := pairwise_append.mp hblock
  rw [findNode, hnodes, hlevel, hl.level h hl.lt list hmem, hplace.nodes_eq]
  have hsame : t'.generate T h = t.generate T h := funext fun p => generate_same hnodes hitems h p
  rw [hsame]
  exact congrArg Prod.snd (SortedVector.find_present (fun a ha => hleft a ha n (.head F)) rfl
    (pairwise_cons.mp hright).1)

theorem Leaving.ascending_up (hl : Leaving T t rows h A n B) (hnodes : ∀ p, p ∉ rows (h + 1) → t'.nodes p = t.nodes p)
    (hitems : t'.items = t.items) (f : PageId → List PageId) (hf : (rows (h + 1)).flatMap f = A ++ B)
    (hfilled : ∀ x ∈ rows (h + 1), f x ≠ []) (hhead : ∀ x ∈ rows (h + 1), (t'.nodes x).headD 0 = (f x).headD 0) :
    t'.Ascending T (h + 1) (rows (h + 1)) := by
  have hlow : ∀ c ∈ A ++ B, t'.generate T h c = t.generate T h c := fun c hc => by
    have hbelow : ∀ k < h, Storey T t.nodes t.parent (update rows h (A ++ B) (k + 1)) (update rows h (A ++ B) k) :=
      fun k hk => hl.keep (fun _ _ => rfl) (fun _ _ => rfl) (hk.trans hl.lt) hk.ne
    refine generate_congr hbelow (fun k hk p hp => hnodes p fun hp' => ?_) hitems (by rwa [update_self])
    have := hl.apart (k + 1) (by have := hl.lt; omega) (h + 1) hl.lt p (hl.mem_update hp) hp'
    omega
  have hasc : t.Ascending T h (A ++ B) := by
    have hrow := hl.ascending
    rw [hl.split] at hrow
    exact hrow.sublist ((sublist_cons_self n B).append_left A)
  have hasc' : t'.Ascending T h (A ++ B) := hasc.imp_of_mem fun {p q} hp hq hpq => by rwa [hlow p hp, hlow q hq]
  rw [← hf] at hasc'
  have hfirsts := List.Pairwise.sublist (firsts_sublist 0 hfilled) hasc'
  rw [pairwise_map] at hfirsts
  refine hfirsts.imp_of_mem fun {p q} hp hq hpq => ?_
  rw [generate, generate, leftmost, leftmost, hhead p hp, hhead q hq]
  exact hpq

/-! ### A page leaves its node page -/

variable {count pageCount : Nat}

theorem toMerge_eq {size : PageId → Nat} {beside : Option PageId} :
    toMerge size count pageCount beside = some q ↔ beside = some q ∧ needMerge (size q + count) pageCount = true := by
  rw [toMerge, Option.filter_eq_some_iff]

theorem toMerge_none {size : PageId → Nat} {beside : Option PageId} :
    toMerge size count pageCount beside = none ↔ ∀ q, beside = some q →
    needMerge (size q + count) pageCount = false := by
  rw [toMerge]
  simp

theorem le_of_needMerge (h : needMerge count pageCount = true) : count ≤ pageCount := by
  rw [needMerge, decide_eq_true_iff] at h
  omega

theorem three_le_of_needMerge (h : needMerge count pageCount = false) (htwo : 2 ≤ pageCount) : 3 ≤ count := by
  rw [needMerge, decide_eq_false_iff_not] at h
  omega

theorem eraseIdx_append {α : Type} {A B : List α} {x : α} : (A ++ x :: B).eraseIdx A.length = A ++ B := by
  induction A with
  | nil => rfl
  | cons a A ih => rw [cons_append, length_cons, eraseIdx_cons_succ, ih, cons_append]

inductive Left (T : Template V K) (t : BePlusTree V) (rows : Nat → List PageId) (h : Nat) :
    BePlusTree V × Option PageId → Prop
  | settled (t' : BePlusTree V) : t'.Shape T rows → t'.items = t.items → t'.allocated = t.allocated →
      t'.defaultAccessor = t.defaultAccessor → h ≤ t'.level → t'.level ≤ t.level → Left T t rows h (t', none)
  | up (t' : BePlusTree V) (C : List PageId) (p : PageId) (D : List PageId) : Leaving T t' rows (h + 1) C p D →
      t'.items = t.items → t'.allocated = t.allocated → t'.defaultAccessor = t.defaultAccessor → t'.level = t.level →
      Left T t rows h (t', some p)

theorem Leaving.root_alone (hl : Leaving T t rows h A n B) (halone : rows (h + 1) = [list]) :
    h + 1 = t.level ∧ t.root = some list := by
  have hlevel : h + 1 = t.level := by
    by_contra hne
    have hs := hl.above (h + 1) (Nat.le_succ h) (by have := hl.lt; omega)
    have hholds := hs.holds
    rw [halone] at hholds
    obtain ⟨C, p, D, E, F, hupper, hp, hC, hD⟩ := flatMap_split (C := []) (D := []) hholds
    have hflat : ∀ (L : List PageId), (∀ x ∈ L, x ∈ rows (h + 2)) → L.flatMap t.nodes = [] → L = [] :=
      fun L hL hnil => by
      cases L with
      | nil => rfl
      | cons x L => exact absurd (append_eq_nil_iff.mp hnil).1 (hs.filled x (hL x (.head L)))
    obtain ⟨hC, hE⟩ := append_eq_nil_iff.mp hC.symm
    obtain ⟨hF, hD⟩ := append_eq_nil_iff.mp hD.symm
    have hCnil := hflat C (fun x hx => hupper ▸ mem_append_left _ hx) hC
    have hDnil := hflat D (fun x hx => hupper ▸ mem_append_right C (.tail p hx)) hD
    have htwo := hs.alone p (by rw [hupper, hCnil, hDnil]; rfl)
    rw [hp, hE, hF] at htwo
    exact absurd htwo (by simp)
  obtain ⟨r, hr, -, htop⟩ := hl.top
  rw [← hlevel, halone] at htop
  exact ⟨hlevel, singleton_inj.mp htop ▸ hr⟩

theorem Leaving.root_mem (hl : Leaving T t rows h A n B) (hp : p ∈ rows (h + 1)) (hroot : t.root = some p) :
    h + 1 = t.level ∧ rows (h + 1) = [p] := by
  obtain ⟨r, hr, -, htop⟩ := hl.top
  cases hroot.symm.trans hr
  have hlevel := hl.apart (h + 1) hl.lt _ (Nat.le_refl _) p hp (htop ▸ .head [])
  exact ⟨hlevel, hlevel ▸ htop⟩

omit [Inhabited V] in
theorem unlinked_unlink : Unlinked t (t.unlink n) n := ⟨rfl, rfl, rfl, rfl, rfl, rfl, rfl, rfl, rfl⟩

section
variable (hl : Leaving T t rows h A n B)
include hl

theorem Leaving.beside (hplace : t.Place (rows (h + 1)) A n B C list D E F) :
    (t.unlink n).prev list = C.getLast? ∧ (t.unlink n).next list = D.head? ∧ list ∈ rows (h + 1) := by
  have hrow := hl.row_without unlinked_unlink (Nat.succ_le_of_lt hl.lt)
  rw [update_of_ne (Nat.succ_ne_self h), hplace.upper_eq] at hrow
  exact ⟨hrow.linked.prev_eq, hrow.linked.next_eq, hplace.upper_eq ▸ mem_append_right C (.head D)⟩

theorem Leaving.leaveAlone_spec (hplace : t.Place (rows (h + 1)) A n B C list D [] []) :
    Left T t (update rows h (A ++ B)) h ((t.unlink n).leaveAlone T list) := by
  have hu : Unlinked t (t.unlink n) n := unlinked_unlink
  obtain ⟨hprev, hnext, hlist⟩ := hl.beside hplace
  obtain ⟨hs, -, -, -⟩ := hl.storey hplace
  have hbeside : C ≠ [] ∨ D ≠ [] := by
    by_contra hnone
    obtain ⟨hC, hD⟩ := not_or.mp hnone
    have := hs.alone list (by rw [not_not.mp hC, not_not.mp hD]; rfl)
    rw [hplace.nodes_eq] at this
    exact absurd this (by simp)
  have hlt : h + 1 < t.level := by
    refine lt_of_le_of_ne hl.lt fun heq => ?_
    obtain ⟨r, -, -, htop⟩ := hl.top
    rw [← heq, hplace.upper_eq] at htop
    rcases append_eq_singleton_iff.mp htop with ⟨hC, hD⟩ | ⟨-, hD⟩
    · exact hbeside.elim (fun h => h hC) fun h => h (cons.inj hD).2
    · exact cons_ne_nil _ _ hD
  unfold leaveAlone
  dsimp only
  rw [hprev, hnext]
  split
  next hmerge =>
    refine .up _ C list D (hl.up hu (fun _ _ => rfl) (fun _ _ => rfl) hplace.upper_eq hlt (hl.storey_drop hplace) ?_)
      rfl rfl rfl rfl
    have hasc := hl.ascending
    rw [← (hl.above h (Nat.le_refl _) hl.lt).holds] at hasc
    have hup := hasc.above (hl.above h (Nat.le_refl _) hl.lt).filled
    have hnodes : (t.unlink n).nodes = t.nodes := rfl
    have hitems : (t.unlink n).items = t.items := rfl
    have hsame : ∀ x, (t.unlink n).generate T (h + 1) x = t.generate T (h + 1) x := generate_same hnodes hitems (h + 1)
    exact hup.imp fun {p q} hpq => by rwa [hsame, hsame]
  next hmerge =>
    rw [Option.not_isSome_iff_eq_none, Option.or_eq_none_iff, toMerge_none, toMerge_none] at hmerge
    have hlen : ∀ q, C.getLast? = some q ∨ D.head? = some q → 3 ≤ (t.nodes q).length := fun q hq => by
      have hq' := hq.elim (hmerge.1 q) (hmerge.2 q)
      exact three_le_of_needMerge hq' T.two_le_nodeCount
    have hset : ∀ c, (t.nodes list).set 0 c = [c] := fun c => by rw [hplace.nodes_eq]; rfl
    have hsettle : ∀ (temp c : PageId) (E : List PageId), temp ∈ rows (h + 1) → c ∈ t.nodes temp →
        Storey T (update (update t.nodes list [c]) temp E) (update t.parent c (some list)) (rows (h + 1)) (A ++ B) →
        Left T t (update rows h (A ++ B)) h
          (((((t.unlink n).setNodes list [c]).setNodeParent c (some list)).setNodes temp E), none) :=
      fun temp c E htemp hc hstorey => by
        have hcrow : c ∈ rows h :=
          (hl.above h (Nat.le_refl _) hl.lt).holds ▸ mem_flatMap.mpr ⟨temp, htemp, hc⟩
        refine .settled _ (hl.settle ⟨rfl, rfl, rfl, rfl, rfl, rfl, rfl, rfl, rfl⟩ (fun p hp => ?_) (fun p hp => ?_)
          hstorey) rfl rfl rfl hl.lt.le (Nat.le_refl _)
        · exact update_of_notMem hcrow hp
        · exact (update_of_notMem htemp hp).trans (update_of_notMem hlist hp)
    cases htemp : C.getLast? with
    | some temp =>
      obtain ⟨C, rfl⟩ := getLast?_eq_some_iff.mp htemp
      have hthree := hlen temp (.inl htemp)
      obtain ⟨E, c, hnodes⟩ := (eq_nil_or_concat (t.nodes temp)).resolve_left
        (ne_nil_of_length_pos (by omega))
      rw [concat_eq_append] at hnodes
      have hmoved : ((t.unlink n).nodes temp).getD (((t.unlink n).nodes temp).length - 1) 0 = c := by
        show (t.nodes temp).getD ((t.nodes temp).length - 1) 0 = c
        rw [hnodes, length_append, length_singleton, Nat.add_sub_cancel,
          getD_append_right _ _ _ _ (Nat.le_refl _), Nat.sub_self]
        rfl
      have htake : ((t.unlink n).nodes temp).take (((t.unlink n).nodes temp).length - 1) = E := by
        show (t.nodes temp).take ((t.nodes temp).length - 1) = E
        rw [hnodes, length_append, length_singleton, Nat.add_sub_cancel, take_left]
      dsimp only
      rw [hmoved, htake]
      show Left T t _ h (((((t.unlink n).setNodes list ((t.nodes list).set 0 c)).setNodeParent c (some list)).setNodes
        temp E), none)
      rw [hset]
      refine hsettle temp c E ?_ (hnodes ▸ mem_append_right E (.head [])) (hl.storey_fromPrev hplace hnodes hthree)
      exact hplace.upper_eq ▸ mem_append_left _ (mem_append_right C (.head []))
    | none =>
      cases htemp' : D.head? with
      | none =>
        refine absurd hbeside (not_or.mpr ⟨not_not.mpr ?_, not_not.mpr ?_⟩)
        · exact getLast?_eq_none_iff.mp htemp
        · exact head?_eq_none_iff.mp htemp'
      | some temp =>
        obtain ⟨D, rfl⟩ := head?_eq_some_iff.mp htemp'
        have hthree := hlen temp (.inr rfl)
        obtain ⟨c, E, hnodes⟩ := exists_cons_of_ne_nil (ne_nil_of_length_pos (by omega : 0 < (t.nodes temp).length))
        have hmoved : ((t.unlink n).nodes temp).getD 0 0 = c := by
          show (t.nodes temp).getD 0 0 = c
          rw [hnodes]
          rfl
        have htake : ((t.unlink n).nodes temp).eraseIdx 0 = E := by
          show (t.nodes temp).eraseIdx 0 = E
          rw [hnodes]
          rfl
        dsimp only
        rw [hmoved, htake]
        show Left T t _ h (((((t.unlink n).setNodes list ((t.nodes list).set 0 c)).setNodeParent c (some list)).setNodes
          temp E), none)
        rw [hset]
        refine hsettle temp c E ?_ (hnodes ▸ .head E) (hl.storey_fromNext hplace hnodes hthree)
        exact hplace.upper_eq ▸ mem_append_right C (.tail list (.head D))

theorem Leaving.inner (hrow : rows (h + 1) = C ++ p :: q :: D) : h + 1 < t.level := by
  refine lt_of_le_of_ne hl.lt fun heq => ?_
  obtain ⟨r, -, -, htop⟩ := hl.top
  have := congrArg length (hrow.symm.trans (heq ▸ htop))
  simp only [length_append, length_cons, length_nil] at this
  omega

theorem Leaving.flatMap_without (hplace : t.Place (rows (h + 1)) A n B C list D E F) (hne : E ++ F ≠ []) :
    (rows (h + 1)).flatMap (update t.nodes list (E ++ F)) = A ++ B ∧
      ∀ x ∈ rows (h + 1), update t.nodes list (E ++ F) x ≠ [] := by
  obtain ⟨hs, -, hC, hD⟩ := hl.storey hplace
  constructor
  · rw [hplace.upper_eq, flatMap_append, flatMap_cons, update_self, flatMap_update_of_notMem hC,
      flatMap_update_of_notMem hD, hplace.left_eq, hplace.right_eq]
    simp
  · intro x hx
    by_cases hxl : x = list
    · rwa [hxl, update_self]
    · rw [update_of_ne hxl]
      exact hs.filled x (hplace.upper_eq ▸ hx)

theorem Leaving.joinNodes_spec (hplace : t.Place (rows (h + 1)) A n B C list D E F)
    (hne : E ++ F ≠ []) (halone : rows (h + 1) = [list] → 2 ≤ (E ++ F).length) :
    Left T t (update rows h (A ++ B)) h (((t.unlink n).setNodes list (E ++ F)).joinNodes T list) := by
  obtain ⟨hprev, hnext, hlist⟩ := hl.beside hplace
  obtain ⟨hs, -, hC, hD⟩ := hl.storey hplace
  have hpos : 1 ≤ (E ++ F).length := length_pos_of_ne_nil hne
  obtain ⟨hflat, hfilled⟩ := hl.flatMap_without hplace hne
  have hEF : ∀ c ∈ E ++ F, c ∈ rows h := fun c hc => by
    refine (hl.above h (Nat.le_refl _) hl.lt).holds ▸ mem_flatMap.mpr ⟨list, hlist, ?_⟩
    rw [hplace.nodes_eq, mem_append]
    rw [mem_append] at hc
    tauto
  have hself : update t.nodes list (E ++ F) list = E ++ F := update_self _ _ _
  have hother : ∀ x, x ≠ list → update t.nodes list (E ++ F) x = t.nodes x := fun x hx => update_of_ne hx _ _
  have hmerge : ∀ page, toMerge (fun p => (((t.unlink n).setNodes list (E ++ F)).nodes p).length)
      (((t.unlink n).setNodes list (E ++ F)).nodes list).length T.nodeCount page =
        toMerge (fun p => (update t.nodes list (E ++ F) p).length) (E ++ F).length T.nodeCount page := fun page =>
    congrArg (fun nodes => toMerge _ (length nodes) T.nodeCount page) hself
  have hprev' : ((t.unlink n).setNodes list (E ++ F)).prev list = C.getLast? := hprev
  have hnext' : ((t.unlink n).setNodes list (E ++ F)).next list = D.head? := hnext
  unfold joinNodes
  dsimp only
  rw [hmerge, hmerge, hprev', hnext']
  cases hleft : toMerge (fun p => (update t.nodes list (E ++ F) p).length) (E ++ F).length T.nodeCount C.getLast? with
  | some temp =>
    obtain ⟨htemp, hmerge⟩ := toMerge_eq.mp hleft
    obtain ⟨C, rfl⟩ := getLast?_eq_some_iff.mp htemp
    have hlt : temp ≠ list := fun heq => hC (heq ▸ mem_append_right C (.head []))
    have htmem : temp ∈ rows (h + 1) := hplace.upper_eq ▸ mem_append_left _ (mem_append_right C (.head []))
    rw [hother temp hlt] at hmerge
    show Left T t _ h ((((t.unlink n).setNodes list (E ++ F)).setNodes temp (update t.nodes list (E ++ F) temp ++
      update t.nodes list (E ++ F) list)).setNodeParents (update t.nodes list (E ++ F) list) temp, some list)
    rw [hself, hother temp hlt]
    refine .up _ (C ++ [temp]) list D (hl.up ⟨rfl, rfl, rfl, rfl, rfl, rfl, rfl, rfl, rfl⟩ (fun p hp => ?_)
      (fun p hp => ?_) hplace.upper_eq ?_ (hl.storey_joinPrev hplace hpos (le_of_needMerge hmerge)) ?_) rfl rfl rfl rfl
    · exact if_neg fun hmem => hp (hEF p hmem)
    · exact (update_of_notMem htmem hp).trans (update_of_notMem hlist hp)
    · exact hl.inner (hplace.upper_eq.trans (append_assoc _ _ _))
    · refine hl.ascending_up (fun p hp => ?_) rfl (update t.nodes list (E ++ F)) hflat hfilled fun x hx => ?_
      · exact (update_of_notMem htmem hp).trans (update_of_notMem hlist hp)
      · show (update (update t.nodes list (E ++ F)) temp (t.nodes temp ++ (E ++ F)) x).headD 0 = _
        by_cases hxt : x = temp
        · obtain ⟨c, l, hc⟩ := exists_cons_of_ne_nil (hs.filled temp (hplace.upper_eq ▸ htmem))
          rw [hxt, update_self, hother temp hlt, hc]
          rfl
        · rw [update_of_ne hxt]
  | none =>
    rw [toMerge_none] at hleft
    cases hright : toMerge (fun p => (update t.nodes list (E ++ F) p).length) (E ++ F).length T.nodeCount D.head? with
    | some temp =>
      obtain ⟨htemp, hmerge⟩ := toMerge_eq.mp hright
      obtain ⟨D, rfl⟩ := head?_eq_some_iff.mp htemp
      have hlt : temp ≠ list := fun heq => hD (heq ▸ .head D)
      have htmem : temp ∈ rows (h + 1) := hplace.upper_eq ▸ mem_append_right C (.tail list (.head D))
      rw [hother temp hlt] at hmerge
      show Left T t _ h ((((t.unlink n).setNodes list (E ++ F)).setNodes list (update t.nodes list (E ++ F) list ++
        update t.nodes list (E ++ F) temp)).setNodeParents (update t.nodes list (E ++ F) temp) list, some temp)
      rw [hself, hother temp hlt]
      have hnodes : (((t.unlink n).setNodes list (E ++ F)).setNodes list ((E ++ F) ++ t.nodes temp)).nodes =
          update t.nodes list ((E ++ F) ++ t.nodes temp) := update_idem _ _ _
      have hstorey := hl.storey_joinNext hplace hpos (le_of_needMerge hmerge)
      rw [← hnodes, append_cons] at hstorey
      refine .up _ (C ++ [list]) temp D (hl.up ⟨rfl, rfl, rfl, rfl, rfl, rfl, rfl, rfl, rfl⟩ (fun p hp => ?_)
        (fun p hp => ?_) ?_ (hl.inner hplace.upper_eq) hstorey ?_) rfl rfl rfl rfl
      · exact if_neg fun hmem => hp ((hl.above h (Nat.le_refl _) hl.lt).holds ▸
          mem_flatMap.mpr ⟨temp, htmem, hmem⟩)
      · exact (congrFun hnodes p).trans (update_of_notMem hlist hp)
      · rw [hplace.upper_eq, append_cons]
      · refine hl.ascending_up (fun p hp => ?_) rfl (update t.nodes list (E ++ F)) hflat hfilled fun x hx => ?_
        · exact (congrFun hnodes p).trans (update_of_notMem hlist hp)
        · refine (congrArg (headD · 0) (congrFun hnodes x)).trans ?_
          by_cases hxl : x = list
          · obtain ⟨c, l, hc⟩ := exists_cons_of_ne_nil hne
            rw [hxl, update_self, hself, hc]
            rfl
          · rw [update_of_ne hxl, hother x hxl]
    | none =>
      rw [toMerge_none] at hright
      refine .settled _ (hl.settle ⟨rfl, rfl, rfl, rfl, rfl, rfl, rfl, rfl, rfl⟩ (fun _ _ => rfl) (fun p hp => ?_)
        (hl.storey_keep hplace (fun x hx => ?_) (fun x hx => ?_) hpos halone)) rfl rfl rfl hl.lt.le (Nat.le_refl _)
      · exact update_of_notMem hlist hp
      · have hx' := three_le_of_needMerge (hleft x hx) T.two_le_nodeCount
        rwa [hother x (by rintro rfl; exact hC (mem_of_getLast? hx))] at hx'
      · have hx' := three_le_of_needMerge (hright x hx) T.two_le_nodeCount
        rw [hother x (by rintro rfl; exact hD (mem_of_mem_head? hx))] at hx'
        omega

end

omit [Inhabited V] [LinearOrder K] in
theorem Shape.release (hs : t.Shape T rows) (hp : ∀ k ≤ t.level, p ∉ rows k) (hlt : p < t.allocated) :
    (t.release p).Shape T rows where
  row k hk := by
    have hr := hs.row k hk
    refine ⟨hr.linked, hr.nodup, hr.known, fun q hq hmem => ?_⟩
    rcases mem_cons.mp hmem with rfl | hmem
    · exact hp k hk hq
    · exact hr.live q hq hmem
  apart := hs.apart
  storey := hs.storey
  level := hs.level
  top := hs.top
  released q hq := by
    rcases mem_cons.mp hq with rfl | hq
    · exact hlt
    · exact hs.released q hq

theorem Leaving.newTop (hl : Leaving T t rows h A n B) (hplace : t.Place (rows (h + 1)) A n B C list D E F)
    (hroot : t.root = some list) (hone : E ++ F = [c]) :
    ((({ (t.unlink n).setNodes list (E ++ F) with root := some c, level := t.level - 1 }).setNodeParent c none).release
      list).Shape T (update rows h (A ++ B)) := by
  have hlist : list ∈ rows (h + 1) := hplace.upper_eq ▸ mem_append_right C (.head D)
  obtain ⟨hlevel, htop⟩ := hl.root_mem hlist hroot
  have hlevel' : t.level - 1 = h := by omega
  have hAB : A ++ B = [c] := by
    have hupper := hplace.upper_eq
    rw [htop] at hupper
    obtain ⟨rfl, hD⟩ | ⟨-, hD⟩ := append_eq_singleton_iff.mp hupper.symm
    · rw [hplace.left_eq, hplace.right_eq, (cons.inj hD).2, ← hone]
      simp
    · exact absurd hD (cons_ne_nil _ _)
  have hc : c ∈ rows h := hl.mem_row (hAB ▸ .head [])
  refine Shape.release ⟨fun k hk => ?_, fun k hk l hl' p hpk hpl => ?_, fun k hk => ?_, fun k hk p hp => ?_, ?_,
    hl.released⟩ (fun k hk hmem => ?_) ((hl.row (h + 1) hl.lt).known list hlist)
  · have hr := hl.row_without unlinked_unlink (hk.trans (Nat.sub_le _ _))
    exact ⟨hr.linked, hr.nodup, hr.known, hr.live⟩
  · exact hl.apart k (hk.trans (Nat.sub_le _ _)) l (hl'.trans (Nat.sub_le _ _)) p
      (hl.mem_update hpk) (hl.mem_update hpl)
  · have hk' : k < t.level - 1 := hk
    refine hl.keep (fun p hp => ?_) (fun p hp => ?_) (by omega) (by omega)
    · exact update_of_notMem hlist hp
    · exact update_of_notMem hc hp
  · have hk' : k < t.level - 1 := hk
    exact hl.level k (by omega) p (hl.mem_update hp)
  · refine ⟨c, rfl, update_self _ _ _, ?_⟩
    show update rows h (A ++ B) (t.level - 1) = [c]
    rw [hlevel', update_self, hAB]
  · have hk' : k ≤ t.level - 1 := hk
    have := hl.apart k (by omega) (h + 1) hl.lt list (hl.mem_update hmem) hlist
    omega

theorem Leaving.leaveList_spec (hl : Leaving T t rows h A n B) (hplace : t.Place (rows (h + 1)) A n B C list D E F) :
    Left T t (update rows h (A ++ B)) h ((t.unlink n).leaveList T n list) := by
  have hlen : (t.nodes list).length = (E ++ F).length + 1 := by
    rw [hplace.nodes_eq]
    simp only [length_append, length_cons]
    omega
  unfold leaveList
  by_cases hEF : E ++ F = []
  · obtain ⟨rfl, rfl⟩ := append_eq_nil_iff.mp hEF
    rw [if_pos (show ((t.unlink n).nodes list).length = 1 from hlen)]
    exact hl.leaveAlone_spec hplace
  · have hpos := length_pos_of_ne_nil hEF
    have hlist : list ∈ rows (h + 1) := hplace.upper_eq ▸ mem_append_right C (.head D)
    have herase : ((t.unlink n).nodes list).eraseIdx E.length = E ++ F := by
      show (t.nodes list).eraseIdx E.length = E ++ F
      rw [hplace.nodes_eq, eraseIdx_append]
    have hself : ((t.unlink n).setNodes list (E ++ F)).nodes list = E ++ F := update_self _ _ _
    rw [if_neg (by show ¬(t.nodes list).length = 1; omega)]
    dsimp only
    have hnodes : (t.unlink n).nodes = t.nodes := rfl
    have hitems : (t.unlink n).items = t.items := rfl
    have hnodeLevel : (t.unlink n).nodeLevel = t.nodeLevel := rfl
    rw [hl.findNode_eq hplace hnodes hitems hnodeLevel, herase, hself]
    split
    next hroot =>
      obtain ⟨c, hc⟩ := length_eq_one_iff.mp hroot.2
      obtain ⟨hlevel, -⟩ := hl.root_mem hlist hroot.1
      have hget : (E ++ F).getD 0 0 = c := by rw [hc]; rfl
      rw [hget]
      refine .settled _ (hl.newTop hplace hroot.1 hc) rfl rfl rfl ?_ (Nat.sub_le _ _)
      show h ≤ t.level - 1
      omega
    next hroot =>
      refine hl.joinNodes_spec hplace hEF fun halone => ?_
      have hlone : (E ++ F).length ≠ 1 := fun hone => hroot ⟨(hl.root_alone halone).2, hone⟩
      omega

/-- `_removePage` takes the page out of its level and leaves a tree in order. -/
theorem Leaving.removePage_spec (fuel : Nat) (hl : Leaving T t rows h A n B) (hfuel : t.level - h ≤ fuel) :
    ∃ t' rows', t.removePage T fuel n = some t' ∧ t'.Shape T rows' ∧ rows' h = A ++ B ∧ (∀ k < h, rows' k = rows k) ∧
      (∀ k ≤ t'.level, ∀ p ∈ rows' k, p ∈ rows k) ∧ h ≤ t'.level ∧ t'.level ≤ t.level ∧ t'.items = t.items ∧
      t'.allocated = t.allocated ∧ t'.defaultAccessor = t.defaultAccessor := by
  induction fuel generalizing t rows h A n B with
  | zero =>
    have := hl.lt
    omega
  | succ fuel ih =>
    obtain ⟨C, list, D, E, F, hplace⟩ := hl.parent_eq
    have hleft := hl.leaveList_spec hplace
    have hnrow : ∀ k ≤ t.level, n ∈ rows k → k = h := fun k hk hmem => hl.apart k hk h hl.lt.le n hmem hl.mem
    have hnlt : n < t.allocated := (hl.row h hl.lt.le).known n hl.mem
    rw [removePage, hplace.parent_eq]
    dsimp only
    generalize (t.unlink n).leaveList T n list = result at hleft
    cases hleft with
    | settled t' hs hitems halloc hacc hle hle' =>
      refine ⟨_, _, rfl, hs.release (fun k hk hmem => ?_) (halloc ▸ hnlt), update_self _ _ _,
        fun k hk => update_of_ne hk.ne _ _, fun k _ p hp => hl.mem_update hp, hle, hle', hitems, halloc, hacc⟩
      have hkh := hnrow k (hk.trans hle') (hl.mem_update hmem)
      rw [hkh, update_self] at hmem
      exact hl.notMem hmem
    | up t' C p D hup hitems halloc hacc hlevel =>
      obtain ⟨s, rows', hremove, hs, hrow, hbelow, hsub, hle, hle', hitems', halloc', hacc'⟩ :=
        ih hup (by omega)
      have hrowh : rows' h = A ++ B := by rw [hbelow h (Nat.lt_succ_self h), update_self]
      refine ⟨s.release n, rows', by dsimp only; rw [hremove]; rfl, hs.release (fun k hk hmem => ?_)
        ?_, hrowh, fun k hk => ?_,
        fun k hk q hq => hl.mem_update
        (hsub k hk q hq), by show h ≤ s.level; omega, hlevel ▸ hle', hitems'.trans hitems,
        halloc'.trans halloc, hacc'.trans hacc⟩
      · have hmem' := hsub k hk n hmem
        have hkh := hnrow k (hk.trans (hlevel ▸ hle')) (hl.mem_update hmem')
        rw [hkh, update_self] at hmem'
        exact hl.notMem hmem'
      · rw [halloc', halloc]
        exact hnlt
      · rw [hbelow k (Nat.lt_succ_of_lt hk), update_of_ne hk.ne]

end Firebird.Tree.BePlusTree
