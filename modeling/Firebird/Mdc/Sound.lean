import Firebird.Mdc.Transactions

/-! # Uncommitted versions belong to one transaction, committed ones are not lost

As long as no transaction asks for an element between the end of another one in the inventory and its commit in the
cache, the list shows the history of commits: its newest committed entry is the one marked last, the entries above are
those of one transaction that has not ended, and a commit marks that transaction's newest entry. -/

namespace Firebird.Mdc

open ListEntry Lib Function List
open Tpc (TraNumber TraState)

variable {Obj : Type}

section NewlyCommitted
variable {gone : TraNumber → Prop} {e : ListEntry Obj} {l k l' : List (ListEntry Obj)}

theorem committedOf_cons_committed (h : e.cacheFlags.committed = true) : committedOf (e :: l) = e :: committedOf l :=
  filter_cons_of_pos h

theorem committedOf_cons_uncommitted (h : e.cacheFlags.committed = false) : committedOf (e :: l) = committedOf l :=
  filter_cons_of_neg (by simp [h])

theorem Freed.committedOf_eq (h : Freed gone l k) : committedOf k = committedOf l := by
  rcases h with rfl | ⟨rfl, -⟩
  · rfl
  · exact committedOf_eq_confirmed l

theorem Freed.subset (h : Freed gone l k) : k.Sublist l := by
  rcases h with rfl | ⟨rfl, -⟩
  · exact .refl _
  · exact dropWhile_sublist _

theorem committedOf_kept (hf : Freed gone l k) (hk : Kept k l') :
    (committedOf l').map (·.id) <+: (committedOf l).map (·.id) :=
  hf.committedOf_eq ▸ hk.committed_prefix

theorem newlyCommitted_eq_nil (h : (committedOf l').map (·.id) <+: (committedOf l).map (·.id)) :
    World.newlyCommitted l l' = [] := by
  rw [World.newlyCommitted, filter_eq_nil_iff]
  intro id hid
  simpa using h.subset hid

theorem mem_ids_of_committedOf {id : EntryId} (h : id ∈ (committedOf l).map (·.id)) : id ∈ l.map (·.id) := by
  obtain ⟨e, he, rfl⟩ := mem_map.mp h
  exact mem_map_of_mem (mem_of_mem_filter he)

theorem committedOf_ne_nil (hk : Kept l l') (h : committedOf l ≠ []) : committedOf l' ≠ [] := by
  obtain ⟨e, older, he⟩ := exists_cons_of_ne_nil h
  obtain ⟨e', he', -⟩ := hk.newest_same (e := e) (by rw [newest_eq_head?, he]; rfl)
  rw [newest_eq_head?] at he'
  intro hnil
  rw [hnil] at he'
  cases he'

section
variable (hf : Freed gone l k) (hk : Kept k l')
include hf hk

theorem exists_mem_above {e' : ListEntry Obj} (h : e' ∈ above l') : ∃ e ∈ above l, SameVersion e e' := by
  obtain ⟨e, he, hs⟩ := forall₂_mem_right hk.above_same h
  rcases hf with rfl | ⟨rfl, -⟩
  · exact ⟨e, he, hs⟩
  · rw [above_confirmed] at he
    cases he

theorem exists_mem_of_freed {e' : ListEntry Obj} (h : e' ∈ l') : ∃ e ∈ l, SameVersion e e' := by
  obtain ⟨e, he, hs⟩ := hk.exists_mem h
  exact ⟨e, hf.subset.subset he, hs⟩

theorem ids_nodup (h : (l.map (·.id)).Nodup) : (l'.map (·.id)).Nodup :=
  (h.sublist (hf.subset.map _)).sublist hk.ids_prefix.sublist

end

theorem newlyCommitted_cons (h : (committedOf l').map (·.id) <+: (committedOf l).map (·.id))
    (hid : e.id ∉ (committedOf l).map (·.id)) :
    World.newlyCommitted l (e :: l') = if e.cacheFlags.committed then [e.id] else [] := by
  have hrest := newlyCommitted_eq_nil h
  rw [World.newlyCommitted] at hrest ⊢
  cases hc : e.cacheFlags.committed with
  | true =>
    rw [committedOf_cons_committed hc, map_cons, filter_cons_of_pos, hrest]
    · rfl
    · rw [Bool.not_eq_true', contains_eq_mem, decide_eq_false_iff_not]
      exact hid
  | false =>
    rw [committedOf_cons_uncommitted hc, hrest]
    rfl

end NewlyCommitted

namespace World
variable {w : World Obj} {T : TraNumber}

/-- What the run keeps: the list is the history of commits, below the entries of one transaction. -/
structure Inv (w : World Obj) : Prop where
  fresh : ∀ e ∈ w.element.list, e.id < w.element.nextId
  nodup : (w.element.list.map (·.id)).Nodup
  single : ∃ T, OwnedBy T w.element.list ∧ (above w.element.list ≠ [] → w.ended T = false)
  creators : ∀ e ∈ above w.element.list, w.creator e.id = e.traNumber
  history : (committedOf w.element.list).map (·.id) <+: w.marked.map (·.1)
  notLost : w.marked ≠ [] → committedOf w.element.list ≠ []
  marks : ∀ x ∈ w.marked, x.1 < w.element.nextId ∧ w.creator x.1 = x.2
  stays : ∀ T id, w.latest T = some id → w.ended T = false ∧
    (w.tip T ≠ .dead → ∃ e older, above w.element.list = e :: older ∧ e.id = id ∧ e.traNumber = T)

theorem Inv.start : Inv ({} : World Obj) where
  fresh e he := by cases he
  nodup := .nil
  single := ⟨0, fun e he => (by cases he), fun h => absurd rfl h⟩
  creators e he := by cases he
  history := prefix_rfl
  notLost h := absurd rfl h
  marks x hx := by cases hx
  stays T id h := by cases h

theorem Inv.setState (h : Inv w) {number : TraNumber} {state : TraState}
    (hopen : w.tip number = .active ∨ w.tip number = .limbo) :
    Inv { w with tip := update w.tip number state } where
  fresh := h.fresh
  nodup := h.nodup
  single := h.single
  creators := h.creators
  history := h.history
  notLost := h.notLost
  marks := h.marks
  stays T id hlatest := by
    obtain ⟨hended, htop⟩ := h.stays T id hlatest
    refine ⟨hended, fun hdead => htop fun hwas => ?_⟩
    by_cases hT : T = number
    · subst hT
      rw [hwas] at hopen
      rcases hopen with h | h <;> cases h
    · exact hdead ((update_of_ne hT _ _).trans hwas)

theorem observe_creator (w : World Obj) (T : TraNumber) (el : CacheElement Obj) {id : EntryId}
    (h : id < w.element.nextId) : (w.observe T el).creator id = w.creator id :=
  if_neg (Nat.not_le.mpr h)

/-- Transactions whose entries may go: dead ones, and those with nothing left to commit. -/
def Gone (w : World Obj) (T : TraNumber) : Prop := w.tip T = .dead ∨ w.latest T = none

section
variable (h : Inv w)
include h

theorem Inv.observe_shrunk {k : List (ListEntry Obj)} {el : CacheElement Obj}
    (hf : Freed w.Gone w.element.list k) (hk : Kept k el.list) :
    (w.observe T el).marked = w.marked ∧ (w.observe T el).latest = w.latest := by
  refine ⟨by rw [observe, newlyCommitted_eq_nil (committedOf_kept hf hk), map_nil, nil_append], ?_⟩
  rw [observe]
  split
  · rfl
  · rename_i e' l' hl
    obtain ⟨e, he, hs⟩ := exists_mem_of_freed hf hk (show e' ∈ el.list from hl ▸ mem_cons_self)
    rw [if_neg (Nat.not_le.mpr (hs.id ▸ h.fresh e he))]

theorem Inv.top_kept {k l' : List (ListEntry Obj)} (hf : Freed w.Gone w.element.list k) (hk : Kept k l') {id : EntryId}
    (hlatest : w.latest T = some id) (hdead : w.tip T ≠ .dead) :
    ∃ e older, above l' = e :: older ∧ e.id = id ∧ e.traNumber = T := by
  obtain ⟨e, older, habove, hid, htra⟩ := (h.stays T id hlatest).2 hdead
  have hkeep : k = w.element.list := by
    rcases hf with rfl | ⟨-, O, hO, hgone⟩
    · rfl
    · have hOT : O = T := (hO e (habove ▸ mem_cons_self)).symm.trans htra
      rcases hgone with hOdead | hnone
      · exact absurd (hOT ▸ hOdead) hdead
      · rw [hOT, hlatest] at hnone
        cases hnone
  have hsame := hk.above_same
  rw [hkeep, habove] at hsame
  generalize hl : above l' = a at hsame
  cases hsame with
  | cons hs _ => exact ⟨_, _, rfl, hs.id.trans hid, hs.traNumber.trans htra⟩

theorem Inv.shrink {k : List (ListEntry Obj)} {el : CacheElement Obj}
    (hf : Freed w.Gone w.element.list k) (hk : Kept k el.list) (hn : w.element.nextId ≤ el.nextId) :
    Inv (w.observe T el) := by
  obtain ⟨hmarked, hlatest⟩ := h.observe_shrunk (T := T) hf hk
  obtain ⟨O, hO, hended⟩ := h.single
  exact {
    fresh := fun e' he' => by
      obtain ⟨e, he, hs⟩ := exists_mem_of_freed hf hk he'
      exact hs.id ▸ (h.fresh e he).trans_le hn
    nodup := ids_nodup hf hk h.nodup
    single := by
      refine ⟨O, (hO.freed hf).kept hk, fun hne => hended ?_⟩
      obtain ⟨e', _, he'⟩ := exists_cons_of_ne_nil hne
      obtain ⟨e, he, -⟩ := exists_mem_above hf hk (show e' ∈ above el.list from he' ▸ mem_cons_self)
      exact ne_nil_of_mem he
    creators := fun e' he' => by
      obtain ⟨e, he, hs⟩ := exists_mem_above hf hk he'
      rw [hs.traNumber, hs.id, observe_creator w T el (h.fresh e (mem_of_mem_above he))]
      exact h.creators e he
    history := hmarked ▸ (committedOf_kept hf hk).trans h.history
    notLost := fun hne => committedOf_ne_nil hk (hf.committedOf_eq ▸ h.notLost (hmarked ▸ hne))
    marks := fun x hx => by
      obtain ⟨hlt, hcreator⟩ := h.marks x (hmarked ▸ hx)
      exact ⟨hlt.trans_le hn, by rw [observe_creator w T el hlt, hcreator]⟩
    stays := fun U id hU => by
      rw [hlatest] at hU
      exact ⟨(h.stays U id hU).1, h.top_kept hf hk hU⟩ }

theorem Inv.not_mem_ids {l : List (ListEntry Obj)}
    (hl : ∀ e' ∈ l, ∃ e ∈ w.element.list, SameVersion e e') {id : EntryId} (hid : w.element.nextId ≤ id) :
    id ∉ l.map (·.id) := by
  intro hmem
  obtain ⟨e', he', rfl⟩ := mem_map.mp hmem
  obtain ⟨e, he, hs⟩ := hl e' he'
  exact absurd (hs.id ▸ h.fresh e he) (Nat.not_lt.mpr hid)

section
variable {k l : List (ListEntry Obj)} {e : ListEntry Obj} {el : CacheElement Obj} (heq : el.list = e :: l)
  (hf : Freed w.Gone w.element.list k) (hk : Kept k l)
include heq hf hk

theorem Inv.observe_pushed (hid : e.id = w.element.nextId) :
    (w.observe T el).marked = (if e.cacheFlags.committed then [(e.id, T)] else []) ++ w.marked ∧
    (w.observe T el).latest = update w.latest T (if e.cacheFlags.committed then none else some e.id) := by
  have hnew : e.id ∉ w.element.list.map (·.id) :=
    h.not_mem_ids (fun x hx => ⟨x, hx, .refl x⟩) (Nat.le_of_eq hid.symm)
  have hmarks := newlyCommitted_cons (committedOf_kept hf hk) fun hm => hnew (mem_ids_of_committedOf hm)
  rw [observe, heq, hmarks]
  refine ⟨?_, if_pos (Nat.le_of_eq hid.symm)⟩
  cases e.cacheFlags.committed <;> rfl

theorem Inv.push (hown : OwnedBy T l)
    (hid : e.id = w.element.nextId) (hn : w.element.nextId < el.nextId)
    (hc : e.cacheFlags.committed = false → w.ended T = false ∧ e.traNumber = T) : Inv (w.observe T el) := by
  obtain ⟨hmarked, hlatest⟩ := h.observe_pushed (T := T) heq hf hk hid
  have hel : (w.observe T el).element.list = e :: l := heq
  have hcreatorNew : (w.observe T el).creator e.id = T := if_pos (Nat.le_of_eq hid.symm)
  have hprefix := (committedOf_kept hf hk).trans h.history
  have hmem : ∀ x ∈ l, ∃ y ∈ w.element.list, SameVersion y x := fun x hx => exists_mem_of_freed hf hk hx
  exact {
    fresh := by
      rw [hel]
      intro x hx
      rcases mem_cons.mp hx with rfl | hx
      · exact hid ▸ hn
      · obtain ⟨y, hy, hs⟩ := hmem x hx
        exact hs.id ▸ (h.fresh y hy).trans hn
    nodup := by
      rw [hel, map_cons, nodup_cons]
      exact ⟨h.not_mem_ids hmem (Nat.le_of_eq hid.symm), ids_nodup hf hk h.nodup⟩
    single := by
      rw [hel]
      refine ⟨T, ?_⟩
      cases hce : e.cacheFlags.committed with
      | true =>
        rw [OwnedBy, above_cons_committed hce]
        exact ⟨fun x hx => (by cases hx), fun hne => absurd rfl hne⟩
      | false =>
        rw [OwnedBy, above_cons_uncommitted hce]
        exact ⟨forall_mem_cons.mpr ⟨(hc hce).2, hown⟩, fun _ => (hc hce).1⟩
    creators := by
      rw [hel]
      cases hce : e.cacheFlags.committed with
      | true =>
        rw [above_cons_committed hce]
        intro x hx
        cases hx
      | false =>
        rw [above_cons_uncommitted hce, forall_mem_cons]
        refine ⟨hcreatorNew.trans (hc hce).2.symm, fun x hx => ?_⟩
        obtain ⟨y, hy, hs⟩ := exists_mem_above hf hk hx
        rw [hs.traNumber, hs.id, observe_creator w T el (h.fresh y (mem_of_mem_above hy))]
        exact h.creators y hy
    history := by
      rw [hel, hmarked]
      cases hce : e.cacheFlags.committed with
      | true =>
        rw [committedOf_cons_committed hce]
        exact (prefix_cons_inj _).mpr hprefix
      | false =>
        rw [committedOf_cons_uncommitted hce]
        exact hprefix
    notLost := by
      rw [hel, hmarked]
      cases hce : e.cacheFlags.committed with
      | true =>
        rw [committedOf_cons_committed hce]
        exact fun _ => cons_ne_nil _ _
      | false =>
        rw [committedOf_cons_uncommitted hce]
        exact fun hne => committedOf_ne_nil hk (hf.committedOf_eq ▸ h.notLost hne)
    marks := by
      have hold : ∀ x ∈ w.marked, x.1 < el.nextId ∧ (w.observe T el).creator x.1 = x.2 := fun x hx => by
        obtain ⟨hlt, hcreator⟩ := h.marks x hx
        exact ⟨hlt.trans hn, (observe_creator w T el hlt).trans hcreator⟩
      rw [hmarked]
      cases hce : e.cacheFlags.committed with
      | true => exact forall_mem_cons.mpr ⟨⟨hid ▸ hn, hcreatorNew⟩, hold⟩
      | false => exact hold
    stays := by
      intro U id hU
      rw [hlatest] at hU
      by_cases hUT : U = T
      · subst hUT
        rw [update_self] at hU
        cases hce : e.cacheFlags.committed with
        | true =>
          rw [hce] at hU
          cases hU
        | false =>
          rw [hce] at hU
          cases hU
          refine ⟨(hc hce).1, fun _ => ⟨e, above l, ?_, rfl, (hc hce).2⟩⟩
          rw [hel, above_cons_uncommitted hce]
      · rw [update_of_ne hUT] at hU
        refine ⟨(h.stays U id hU).1, fun hdead => ?_⟩
        obtain ⟨x, older, hx, -, htra⟩ := h.top_kept hf hk hU hdead
        exact absurd (htra.symm.trans (hown x (hx ▸ mem_cons_self))) hUT }

end

end

section
variable [DecidableEq Obj] (h : Inv w)
include h

theorem Inv.call {out : Outside Obj} {c : Call Obj} (hall : w.Allowed (.call out c))
    (hquiet : w.Quiet (.call out c)) : Inv (w.after (.call out c)) := by
  obtain ⟨O, hown, -⟩ := h.single
  have heff := c.run_effect (w.context out) hown hquiet
  have hgone : ∀ T, Dead w.tip T → w.Gone T := fun T hT => .inl hT
  cases heff with
  | shrunk hf hk hn => exact h.shrink (hf.mono hgone) hk hn
  | pushed heq hf hk hO hid hn hc =>
    exact h.push heq (hf.mono hgone) hk hO hid hn fun hce => ⟨hall (hc hce).1, (hc hce).2⟩

theorem Inv.commit_marks {cur : TraNumber} {id : EntryId} (hlatest : w.latest cur = some id)
    (hdead : w.tip cur ≠ .dead) :
    ∃ e e' older, w.element.list = e :: older ∧ e.cacheFlags.committed = false ∧ e'.id = e.id ∧ e.id = id ∧
      e.traNumber = cur ∧ e'.cacheFlags.committed = true ∧
      (w.after (.commit cur)).element = { w.element with list := e' :: older } ∧
      (w.after (.commit cur)).marked = (id, cur) :: w.marked ∧
      (w.after (.commit cur)).latest = update w.latest cur none := by
  obtain ⟨e, above', habove, hid, htra⟩ := (h.stays cur id hlatest).2 hdead
  have hc : e.cacheFlags.committed = false := uncommitted_of_mem_above (habove ▸ mem_cons_self)
  obtain ⟨older, hlist⟩ := head?_eq_some_iff.mp (head?_eq_of_above habove)
  have hafter : w.element.commit (w.context quietOutside) =
      { w.element with list := (e.commit (w.context quietOutside).next).2 :: older } := by
    rw [CacheElement.commit, hlist]
  have hnot : e.id ∉ (committedOf older).map (·.id) := by
    have hnodup := h.nodup
    rw [hlist, map_cons, nodup_cons] at hnodup
    exact fun hm => hnodup.1 (mem_ids_of_committedOf hm)
  have hold : e.id < w.element.nextId := h.fresh e (hlist ▸ mem_cons_self)
  refine ⟨e, _, older, hlist, hc, commit_id, hid, htra, commit_committed, hafter, ?_, ?_⟩
  · rw [after, hafter, observe, hlist]
    rw [newlyCommitted_cons, commit_committed, commit_id, hid]
    · rfl
    · rw [committedOf_cons_uncommitted hc]
    · rw [committedOf_cons_uncommitted hc, commit_id]
      exact hnot
  · rw [after, hafter, finish, observe]
    dsimp only
    rw [commit_id, if_neg (Nat.not_le.mpr hold)]

theorem Inv.commit {cur : TraNumber} (hall : w.Allowed (.commit cur)) : Inv (w.after (.commit cur)) := by
  obtain ⟨hended, hdead, hne⟩ := hall
  obtain ⟨id, hlatest⟩ := Option.ne_none_iff_exists'.mp hne
  obtain ⟨e, e', older, hlist, hc, hid', hid, htra, hc', hel, hmarked, hafterLatest⟩ := h.commit_marks hlatest hdead
  have hnext : (w.after (.commit cur)).element.nextId = w.element.nextId := by rw [hel]
  have hcreator : ∀ {id : EntryId}, id < w.element.nextId → (w.after (.commit cur)).creator id = w.creator id :=
    fun hlt => observe_creator w cur (w.element.commit (w.context quietOutside)) hlt
  have hold : e.id < w.element.nextId := h.fresh e (hlist ▸ mem_cons_self)
  have hids : (w.after (.commit cur)).element.list.map (·.id) = w.element.list.map (·.id) := by
    rw [hel, hlist, map_cons, map_cons, hid']
  have habove : above (w.after (.commit cur)).element.list = [] := by
    rw [hel]
    exact above_cons_committed hc'
  have hcommitted : committedOf (w.after (.commit cur)).element.list = e' :: committedOf w.element.list := by
    rw [hel, hlist, committedOf_cons_uncommitted hc]
    exact committedOf_cons_committed hc'
  have htop : ∀ {U : TraNumber} {id : EntryId}, w.latest U = some id → w.tip U ≠ .dead → U = cur := by
    intro U id hU hUdead
    obtain ⟨x, xs, hx, -, hxU⟩ := (h.stays U id hU).2 hUdead
    rw [hlist, above_cons_uncommitted hc] at hx
    cases hx
    exact hxU.symm.trans htra
  exact {
    fresh := by
      rw [hnext]
      intro x hx
      obtain ⟨y, hy, hyx⟩ := mem_map.mp (hids ▸ mem_map_of_mem hx)
      exact hyx ▸ h.fresh y hy
    nodup := hids ▸ h.nodup
    single := by
      refine ⟨cur, ?_, fun hne => absurd habove hne⟩
      rw [OwnedBy, habove]
      intro x hx
      cases hx
    creators := by
      rw [habove]
      intro x hx
      cases hx
    history := by
      rw [hcommitted, hmarked, map_cons, hid', hid]
      exact (prefix_cons_inj _).mpr h.history
    notLost := by
      rw [hcommitted]
      exact fun _ => cons_ne_nil _ _
    marks := by
      rw [hmarked, hnext, forall_mem_cons]
      refine ⟨⟨hid ▸ hold, ?_⟩, fun x hx => ?_⟩
      · rw [hcreator (hid ▸ hold), ← hid, h.creators e, htra]
        rw [hlist, above_cons_uncommitted hc]
        exact mem_cons_self
      · obtain ⟨hlt, hx⟩ := h.marks x hx
        exact ⟨hlt, (hcreator hlt).trans hx⟩
    stays := by
      intro U id' hU
      rw [hafterLatest] at hU
      by_cases hUcur : U = cur
      · rw [hUcur, update_self] at hU
        cases hU
      · rw [update_of_ne hUcur] at hU
        exact ⟨(update_of_ne hUcur _ _).trans (h.stays U id' hU).1,
          fun hUdead => absurd (htop hU hUdead) hUcur⟩ }

end

/-- What a transaction added no longer counts as its latest version. -/
def forget (w : World Obj) (T : TraNumber) : World Obj := { w with latest := update w.latest T none }

theorem Inv.forget (h : Inv w) (T : TraNumber) : Inv (w.forget T) where
  fresh := h.fresh
  nodup := h.nodup
  single := h.single
  creators := h.creators
  history := h.history
  notLost := h.notLost
  marks := h.marks
  stays U id hU := by
    change update w.latest T none U = some id at hU
    by_cases hUT : U = T
    · rw [hUT, update_self] at hU
      cases hU
    · rw [update_of_ne hUT] at hU
      exact h.stays U id hU

theorem finish_observe_forget (w : World Obj) (T : TraNumber) (el : CacheElement Obj) :
    ((w.forget T).observe T el).finish T = (w.observe T el).finish T := by
  have hlatest : ((w.forget T).observe T el).latest = (w.observe T el).latest ∨
      ((w.forget T).observe T el).latest = update (w.observe T el).latest T none := by
    rw [observe, observe, World.forget]
    split
    · exact .inr rfl
    · split
      · exact .inl (update_idem _ _ _)
      · exact .inr rfl
  have hfinish : update ((w.forget T).observe T el).latest T none =
      update (w.observe T el).latest T none := by
    rcases hlatest with h | h
    · rw [h]
    · rw [h, update_idem]
  rw [finish, hfinish]
  rfl

theorem Inv.finish (h : Inv w) (hnone : OwnedBy T w.element.list → above w.element.list = []) :
    Inv (w.finish T) where
  fresh := h.fresh
  nodup := h.nodup
  single := by
    obtain ⟨O, hO, hended⟩ := h.single
    refine ⟨O, hO, fun hne => ?_⟩
    have hOT : O ≠ T := fun hOT => hne (hnone (hOT ▸ hO))
    exact (update_of_ne hOT _ _).trans (hended hne)
  creators := h.creators
  history := h.history
  notLost := h.notLost
  marks := h.marks
  stays U id hU := by
    change update w.latest T none U = some id at hU
    by_cases hUT : U = T
    · rw [hUT, update_self] at hU
      cases hU
    · rw [update_of_ne hUT] at hU
      exact ⟨(update_of_ne hUT _ _).trans (h.stays U id hU).1, (h.stays U id hU).2⟩

theorem rollback_list (cur : TraNumber) (el : CacheElement Obj) :
    (el.rollback cur).list = ListEntry.rollback cur el.list ∧ (el.rollback cur).nextId = el.nextId := by
  rw [CacheElement.rollback]
  split
  · rename_i h
    exact ⟨h.symm, rfl⟩
  · exact ⟨rfl, rfl⟩

theorem Inv.rollback_freed (h : Inv w) (cur : TraNumber) :
    Freed (w.forget cur).Gone w.element.list (w.element.rollback cur).list := by
  obtain ⟨O, hO, -⟩ := h.single
  rw [(rollback_list cur w.element).1]
  by_cases hOcur : O = cur
  · subst hOcur
    exact .inr ⟨rollback_own hO, O, hO, .inr (update_self ..)⟩
  · exact .inl (rollback_other hO hOcur)

theorem Inv.rollback [DecidableEq Obj] (h : Inv w) (cur : TraNumber) : Inv (w.after (.rollback cur)) := by
  obtain ⟨hl, hn⟩ := rollback_list cur w.element
  rw [after, ← finish_observe_forget]
  refine ((h.forget cur).shrink (h.rollback_freed cur) (.refl _ _) (Nat.le_of_eq hn.symm)).finish fun hcur => ?_
  change above (w.element.rollback cur).list = []
  obtain ⟨O, hO, -⟩ := h.single
  by_cases hOcur : O = cur
  · rw [hl, rollback_own (hOcur ▸ hO), above_confirmed]
  · by_contra hne
    obtain ⟨e, older, he⟩ := exists_cons_of_ne_nil hne
    have hmem : e ∈ above (w.element.rollback cur).list := he ▸ mem_cons_self
    exact hOcur ((hO e (rollback_other hO hOcur ▸ hl ▸ hmem)).symm.trans (hcur e hmem))

end World

def served (vs : Versioned Obj) (fl : CacheFlag) : Option (ListEntry Obj) → Except Exception (Option (ListEntry Obj))
  | none => .ok none
  | some e =>
    if e.cacheFlags.erased then .ok (if fl.erased then some e else none)
    else
      match e.scan vs fl with
      | (.ok .miss, _) => .ok none
      | (.ok _, e') => .ok (some e')
      | (.error x, _) => .error x

theorem ListEntry.getEntry_eq (vs : Versioned Obj) (T : TraNumber) (fl : CacheFlag) (hfl : fl.noerased = false)
    (l : List (ListEntry Obj)) :
    (getEntry vs T fl l).1 = served vs fl (l.find? fun e => e.cacheFlags.committed || e.traNumber == T) := by
  induction l with
  | nil => rfl
  | cons e older ih =>
    cases hvis : e.cacheFlags.committed || e.traNumber == T with
    | false =>
      rw [getEntry, hvis, find?_cons_of_neg (by rw [hvis]; exact Bool.false_ne_true)]
      exact ih
    | true =>
      have hfind : (e :: older).find? (fun e => e.cacheFlags.committed || e.traNumber == T) = some e :=
        find?_cons_of_pos hvis
      rw [getEntry, hvis, if_pos rfl, hfind, served, hfl]
      split
      · rw [if_neg Bool.false_ne_true]
        split <;> rfl
      · generalize e.scan vs fl = r
        rcases r with ⟨x | _ | _ | _ | _, e'⟩ <;> rfl

variable {T : TraNumber}

theorem find?_visible_own {e : ListEntry Obj} {l older : List (ListEntry Obj)}
    (h : above l = e :: older) (hT : e.traNumber = T) :
    l.find? (fun e => e.cacheFlags.committed || e.traNumber == T) = some e := by
  obtain ⟨rest, rfl⟩ := head?_eq_some_iff.mp (head?_eq_of_above h)
  exact find?_cons_of_pos (by simp [hT])

theorem find?_visible_other {l : List (ListEntry Obj)} (h : ∀ e ∈ above l, e.traNumber ≠ T) :
    l.find? (fun e => e.cacheFlags.committed || e.traNumber == T) = newest l := by
  induction l with
  | nil => rfl
  | cons e l ih =>
    cases hc : e.cacheFlags.committed with
    | true => rw [newest_cons_committed hc, find?_cons_of_pos (by rw [hc]; rfl)]
    | false =>
      rw [above_cons_uncommitted hc, forall_mem_cons] at h
      rw [newest_cons_uncommitted hc, find?_cons_of_neg (by simp [hc, h.1])]
      exact ih h.2

theorem CacheElement.getEntry_fst (cx : Context Obj) (T : TraNumber) {fl : CacheFlag} {el : CacheElement Obj}
    (h : fl.autocreate = false ∨ el.list ≠ []) (hfl : fl.noerased = false) :
    (el.getEntry cx T fl).1 = served cx.versioned { fl with autocreate := false }
      (el.list.find? fun e => e.cacheFlags.committed || e.traNumber == T) := by
  rw [← getEntry_eq cx.versioned T { fl with autocreate := false } hfl]
  cases hl : el.list with
  | nil =>
    simp only [getEntry, hl, h.resolve_right (not_not_intro hl)]
    rfl
  | cons e older => simp only [getEntry, hl]

namespace World
variable {w s t u : World Obj}

/-- The entries above the newest committed one belong to one transaction that has not ended; it reads its newest one,
    the others the newest committed version, which is the one marked last; a commit marks the newest version of its
    transaction. -/
structure Sound [DecidableEq Obj] (w : World Obj) : Prop where
  single : ∃ T, ∀ e ∈ above w.element.list, e.traNumber = T ∧ w.creator e.id = T ∧ w.ended T = false
  ownRead : ∀ (cx : Context Obj) (T : TraNumber) (fl : CacheFlag) (e : ListEntry Obj) (older : List (ListEntry Obj)),
    above w.element.list = e :: older → e.traNumber = T → fl.noerased = false →
    (w.element.getEntry cx T fl).1 = served cx.versioned { fl with autocreate := false } (some e)
  otherRead : ∀ (cx : Context Obj) (T : TraNumber) (fl : CacheFlag), (∀ e ∈ above w.element.list, e.traNumber ≠ T) →
    fl.noerased = false → fl.autocreate = false ∨ w.element.list ≠ [] →
    (w.element.getEntry cx T fl).1 = served cx.versioned { fl with autocreate := false } (newest w.element.list)
  lastMarked : (newest w.element.list).map (·.id) = w.marked.head?.map (·.1)
  ownMarks : ∀ x ∈ w.marked, w.creator x.1 = x.2
  commits : ∀ (T : TraNumber) (id : EntryId), w.latest T = some id → w.tip T ≠ .dead →
    (w.after (.commit T)).marked = (id, T) :: w.marked

/-- No mark is taken back, and as long as none is added the newest committed version is the same. -/
structure Later (s t : World Obj) : Prop where
  marked : s.marked <:+ t.marked
  same : t.marked = s.marked → ∀ e, newest s.element.list = some e →
    ∃ e', newest t.element.list = some e' ∧ SameVersion e e'

theorem Inv.sound [DecidableEq Obj] (h : Inv w) : Sound w where
  single := by
    obtain ⟨T, hT, hended⟩ := h.single
    refine ⟨T, fun e he => ⟨hT e he, (h.creators e he).trans (hT e he), hended (ne_nil_of_mem he)⟩⟩
  ownRead cx T fl e older habove hT hfl := by
    obtain ⟨rest, hl⟩ := head?_eq_some_iff.mp (head?_eq_of_above habove)
    rw [CacheElement.getEntry_fst cx T (.inr (hl ▸ cons_ne_nil _ _)) hfl, find?_visible_own habove hT]
  otherRead cx T fl hne hfl hauto := by
    rw [CacheElement.getEntry_fst cx T hauto hfl, find?_visible_other hne]
  lastMarked := by
    rw [newest_eq_head?, ← head?_map, ← head?_map]
    cases hm : w.marked with
    | nil =>
      have hp := h.history
      rw [hm, map_nil, prefix_nil] at hp
      rw [hp, map_nil]
    | cons x xs =>
      obtain ⟨e, older, he⟩ := exists_cons_of_ne_nil (h.notLost (hm ▸ cons_ne_nil _ _))
      have hp := h.history
      rw [hm, he, map_cons, map_cons, cons_prefix_cons] at hp
      rw [he, map_cons, map_cons, head?_cons, head?_cons, hp.1]
  ownMarks x hx := (h.marks x hx).2
  commits T id hlatest hdead := by
    obtain ⟨_, _, _, _, _, _, _, _, _, _, hmarked, _⟩ := h.commit_marks hlatest hdead
    exact hmarked

theorem Later.refl (s : World Obj) : Later s s where
  marked := suffix_rfl
  same _ e he := ⟨e, he, .refl e⟩

theorem Later.trans (h : Later s t) (h' : Later t u) : Later s u where
  marked := h.marked.trans h'.marked
  same heq e he := by
    have hst : t.marked = s.marked :=
      (h.marked.eq_of_length_le (heq ▸ h'.marked.length_le)).symm
    obtain ⟨e', he', hs⟩ := h.same hst e he
    obtain ⟨e'', he'', hs'⟩ := h'.same (heq.trans hst.symm) e' he'
    exact ⟨e'', he'', hs.trans hs'⟩

theorem Inv.later_shrink (h : Inv w) {k : List (ListEntry Obj)} {el : CacheElement Obj}
    (hf : Freed w.Gone w.element.list k) (hk : Kept k el.list) : Later w (w.observe T el) where
  marked := (h.observe_shrunk (T := T) hf hk).1 ▸ suffix_rfl
  same _ e he := by
    rw [newest_eq_head?, ← hf.committedOf_eq, ← newest_eq_head?] at he
    exact hk.newest_same he

theorem Inv.later_push (h : Inv w) {k l : List (ListEntry Obj)} {e : ListEntry Obj}
    {el : CacheElement Obj} (heq : el.list = e :: l) (hf : Freed w.Gone w.element.list k) (hk : Kept k l)
    (hid : e.id = w.element.nextId) : Later w (w.observe T el) where
  marked := (h.observe_pushed (T := T) heq hf hk hid).1 ▸ suffix_append _ _
  same hsame x hx := by
    rw [(h.observe_pushed (T := T) heq hf hk hid).1] at hsame
    have hc : e.cacheFlags.committed = false := by
      cases hc : e.cacheFlags.committed with
      | true =>
        rw [hc] at hsame
        exact absurd hsame (cons_ne_self _ _)
      | false => rfl
    change ∃ e', newest el.list = some e' ∧ SameVersion x e'
    rw [heq, newest_cons_uncommitted hc]
    rw [newest_eq_head?, ← hf.committedOf_eq, ← newest_eq_head?] at hx
    exact hk.newest_same hx

section Steps
variable [DecidableEq Obj]

def Step (s : World Obj) (op : Op Obj) (t : World Obj) : Prop := Does Allowed after s op t

/-- A step in which no call meets an entry of a transaction that is committed in the inventory and has not
    committed the entry in the cache. -/
def QuietStep (s : World Obj) (op : Op Obj) (t : World Obj) : Prop :=
  Does (fun w op => w.Allowed op ∧ w.Quiet op) after s op t

theorem Inv.step (h : Inv s) {op : Op Obj} (hs : QuietStep s op t) : Inv t ∧ Later s t := by
  obtain ⟨⟨hall, hquiet⟩, rfl⟩ := hs
  cases op with
  | start => exact ⟨⟨h.fresh, h.nodup, h.single, h.creators, h.history, h.notLost, h.marks, h.stays⟩,
      suffix_rfl, fun _ e he => ⟨e, he, .refl e⟩⟩
  | setState number state => exact ⟨h.setState hall, ⟨suffix_rfl, fun _ e he => ⟨e, he, .refl e⟩⟩⟩
  | call out c =>
    refine ⟨h.call hall hquiet, ?_⟩
    obtain ⟨O, hown, -⟩ := h.single
    have hgone : ∀ T, Dead s.tip T → s.Gone T := fun T hT => .inl hT
    cases c.run_effect (s.context out) hown hquiet with
    | shrunk hf hk hn => exact h.later_shrink (hf.mono hgone) hk
    | pushed heq hf hk hO hid hn hc => exact h.later_push heq (hf.mono hgone) hk hid
  | commit cur =>
    refine ⟨h.commit hall, ?_⟩
    obtain ⟨id, hlatest⟩ := Option.ne_none_iff_exists'.mp hall.2.2
    obtain ⟨_, _, _, _, _, _, _, _, _, _, hmarked, _⟩ := h.commit_marks hlatest hall.2.1
    refine ⟨hmarked ▸ suffix_cons _ _, fun hsame => ?_⟩
    rw [hmarked] at hsame
    exact absurd hsame (cons_ne_self _ _)
  | rollback cur =>
    refine ⟨h.rollback cur, ?_⟩
    have hlater := (h.forget cur).later_shrink (T := cur) (h.rollback_freed cur) (.refl _ _)
    exact ⟨hlater.marked, hlater.same⟩

/-- In a run without such calls every state is sound, and later states keep what was committed. -/
theorem sound_of_quiet {as bs : List (Op Obj)} (hs : Run QuietStep {} as s) (ht : Run QuietStep s bs t) :
    Sound t ∧ Later s t := by
  have hinv : Inv s := hs.invariant (fun _ _ _ h hstep => (h.step hstep).1) .start
  refine ⟨(ht.invariant (fun _ _ _ h hstep => (h.step hstep).1) hinv).sound, ?_⟩
  exact ht.rel_of_invariant Later.refl Later.trans (fun _ _ _ h hstep => h.step hstep) hinv

end Steps

section Runs

def commitThenAdd : List (Op Unit) :=
  [.start, .call quietOutside (.newVersion 1), .setState 1 .committed, .commit 1, .start,
    .call quietOutside (.newVersion 2)]

def addBeforeCommit : List (Op Unit) :=
  [.start, .call quietOutside (.newVersion 1), .setState 1 .committed, .start, .call quietOutside (.newVersion 2),
    .commit 1]

instance (w : World Unit) : (op : Op Unit) → Decidable (w.Quiet op)
  | .call _ c => inferInstanceAs (Decidable (c.asks = true → ∀ e ∈ w.element.list.head?, e.isBusy c.caller = true →
      w.tip e.traNumber ≠ .committed))
  | .start | .setState _ _ | .commit _ | .rollback _ => inferInstanceAs (Decidable True)

theorem sound_of_quiet_commitThenAdd :
    Sound (commitThenAdd.foldl after {}) ∧ Later (({} : World Unit)) (commitThenAdd.foldl after {}) :=
  sound_of_quiet (.nil _) (run_of_allAllowed (by decide +kernel))

/-- The commit of the first transaction marks the entry that the second one added. -/
theorem addBeforeCommit_not_sound : ¬ ∀ (as : List (Op Unit)) (w : World Unit), Run Step {} as w → Sound w := by
  intro h
  have hrun : Run Step {} addBeforeCommit (addBeforeCommit.foldl after {}) :=
    run_of_allAllowed (by decide +kernel)
  have hmarked : (1, 1) ∈ (addBeforeCommit.foldl after {}).marked := by decide +kernel
  have hcreator : (addBeforeCommit.foldl after {}).creator 1 = 1 := (h _ _ hrun).ownMarks _ hmarked
  revert hcreator
  decide +kernel

end Runs
end World
end Firebird.Mdc
