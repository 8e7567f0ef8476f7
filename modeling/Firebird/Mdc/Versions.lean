import Firebird.Mdc.CacheElement

/-! # What a call does to the versions

A scan loads an entry and leaves the version it stands for; garbage collection cuts the list below a committed entry. -/

namespace Firebird.Mdc

open List
open Tpc (TraNumber TraState)

variable {Obj : Type}

/-- The two entries stand for one version: the second may have been loaded in between. -/
structure SameVersion (e e' : ListEntry Obj) : Prop where
  id : e'.id = e.id
  traNumber : e'.traNumber = e.traNumber
  committed : e'.cacheFlags.committed = e.cacheFlags.committed
  erased : e'.cacheFlags.erased = e.cacheFlags.erased
  object : e.object = none ∨ e'.object = e.object

namespace SameVersion
variable {a b c : ListEntry Obj}

@[refl] theorem refl (e : ListEntry Obj) : SameVersion e e := ⟨rfl, rfl, rfl, rfl, .inr rfl⟩

theorem trans (h : SameVersion a b) (h' : SameVersion b c) : SameVersion a c where
  id := h'.id.trans h.id
  traNumber := h'.traNumber.trans h.traNumber
  committed := h'.committed.trans h.committed
  erased := h'.erased.trans h.erased
  object := by
    rcases h.object with hn | heq
    · exact .inl hn
    · rcases h'.object with hn | heq'
      · exact .inl (heq ▸ hn)
      · exact .inr (heq'.trans heq)

end SameVersion

def above (list : List (ListEntry Obj)) : List (ListEntry Obj) := list.takeWhile fun e => !e.cacheFlags.committed

def confirmed (list : List (ListEntry Obj)) : List (ListEntry Obj) := list.dropWhile fun e => !e.cacheFlags.committed

def committedOf (list : List (ListEntry Obj)) : List (ListEntry Obj) := list.filter fun e => e.cacheFlags.committed

def newest (list : List (ListEntry Obj)) : Option (ListEntry Obj) := list.find? fun e => e.cacheFlags.committed

section Parts
variable {e x : ListEntry Obj} {l : List (ListEntry Obj)}

theorem above_cons_committed (h : e.cacheFlags.committed = true) : above (e :: l) = [] := by simp [above, h]

theorem above_cons_uncommitted (h : e.cacheFlags.committed = false) : above (e :: l) = e :: above l := by
  simp [above, h]

theorem confirmed_cons_committed (h : e.cacheFlags.committed = true) : confirmed (e :: l) = e :: l := by
  simp [confirmed, h]

theorem confirmed_cons_uncommitted (h : e.cacheFlags.committed = false) : confirmed (e :: l) = confirmed l := by
  simp [confirmed, h]

theorem above_append_confirmed (l : List (ListEntry Obj)) : above l ++ confirmed l = l :=
  takeWhile_append_dropWhile

theorem uncommitted_of_mem_above (h : x ∈ above l) : x.cacheFlags.committed = false := by
  have := mem_takeWhile_imp h
  simpa using this

theorem mem_of_mem_above (h : x ∈ above l) : x ∈ l := takeWhile_subset _ h

section
variable (l : List (ListEntry Obj))

@[simp] theorem above_confirmed : above (confirmed l) = [] := by
  induction l with
  | nil => rfl
  | cons e l ih =>
    cases hc : e.cacheFlags.committed with
    | true => rw [confirmed_cons_committed hc, above_cons_committed hc]
    | false => rw [confirmed_cons_uncommitted hc, ih]

theorem confirmed_confirmed : confirmed (confirmed l) = confirmed l := by
  have h := above_append_confirmed (confirmed l)
  rwa [above_confirmed] at h

theorem committedOf_eq_confirmed : committedOf (confirmed l) = committedOf l := by
  induction l with
  | nil => rfl
  | cons e l ih =>
    cases hc : e.cacheFlags.committed with
    | true => rw [confirmed_cons_committed hc]
    | false =>
      rw [confirmed_cons_uncommitted hc, ih]
      simp [committedOf, hc]

end

theorem newest_cons_committed (h : e.cacheFlags.committed = true) : newest (e :: l) = some e :=
  find?_cons_of_pos h

theorem newest_cons_uncommitted (h : e.cacheFlags.committed = false) : newest (e :: l) = newest l :=
  find?_cons_of_neg (by simp [h])

theorem newest_eq_head? (l : List (ListEntry Obj)) : newest l = (committedOf l).head? := by
  rw [newest, committedOf, head?_filter]

theorem head?_eq_of_above {older : List (ListEntry Obj)} (h : above l = e :: older) : l.head? = some e := by
  rw [← above_append_confirmed l, h]
  rfl

end Parts

/-! ### Scans and garbage collection -/

theorem forall₂_mem_right {α β : Type*} {R : α → β → Prop} {l : List α} {l' : List β} (h : Forall₂ R l l')
    {b : β} (hb : b ∈ l') : ∃ a ∈ l, R a b := by
  obtain ⟨i, hi, rfl⟩ := getElem_of_mem hb
  have hi' : i < l.length := h.length_eq ▸ hi
  exact ⟨l[i], getElem_mem _, h.get hi' hi⟩

/-- The second list is the first one, some entries loaded, cut below a committed entry; `passed` tells that one is
    above. -/
inductive KeptFrom : Bool → List (ListEntry Obj) → List (ListEntry Obj) → Prop
  | nil (passed : Bool) : KeptFrom passed [] []
  | cons {passed : Bool} {e e' : ListEntry Obj} {l l' : List (ListEntry Obj)} :
      SameVersion e e' → KeptFrom (passed || e.cacheFlags.committed) l l' → KeptFrom passed (e :: l) (e' :: l')
  | cut (l : List (ListEntry Obj)) : KeptFrom true l []

def Kept (l l' : List (ListEntry Obj)) : Prop := KeptFrom false l l'

namespace KeptFrom
variable {passed : Bool} {e e' : ListEntry Obj} {l l' l'' : List (ListEntry Obj)}

theorem refl (passed : Bool) (l : List (ListEntry Obj)) : KeptFrom passed l l := by
  induction l generalizing passed with
  | nil => exact .nil passed
  | cons e l ih => exact .cons (.refl e) (ih _)

section
variable (h : KeptFrom passed l l')
include h

theorem trans (h' : KeptFrom passed l' l'') : KeptFrom passed l l'' := by
  induction h generalizing l'' with
  | nil => exact h'
  | cons hs _ ih =>
    cases h' with
    | cons hs' hk' =>
      rw [hs.committed] at hk'
      exact .cons (hs.trans hs') (ih hk')
    | cut => exact .cut _
  | cut l =>
    cases h' with
    | nil | cut => exact .cut l

theorem exists_mem (hmem : e' ∈ l') : ∃ e ∈ l, SameVersion e e' := by
  induction h with
  | nil => cases hmem
  | cons hs _ ih =>
    rcases mem_cons.mp hmem with rfl | hmem
    · exact ⟨_, mem_cons_self, hs⟩
    · obtain ⟨x, hx, hxs⟩ := ih hmem
      exact ⟨x, mem_cons_of_mem _ hx, hxs⟩
  | cut => cases hmem

theorem ids_prefix : l'.map (·.id) <+: l.map (·.id) := by
  induction h with
  | nil => exact prefix_rfl
  | cons hs _ ih =>
    rw [map_cons, hs.id]
    exact (prefix_cons_inj _).mpr ih
  | cut => exact nil_prefix

theorem committed_prefix : (committedOf l').map (·.id) <+: (committedOf l).map (·.id) := by
  induction h with
  | nil => exact prefix_rfl
  | @cons _ e _ l l' hs _ ih =>
    cases hc : e.cacheFlags.committed with
    | true =>
      rw [committedOf, committedOf, filter_cons_of_pos (by rw [hs.committed, hc]),
        filter_cons_of_pos (by rw [hc]), map_cons, hs.id]
      exact (prefix_cons_inj _).mpr ih
    | false =>
      rw [committedOf, committedOf, filter_cons_of_neg (by simp [hs.committed, hc]),
        filter_cons_of_neg (by simp [hc])]
      exact ih
  | cut => exact nil_prefix

end

theorem above_same (h : KeptFrom false l l') : Forall₂ SameVersion (above l) (above l') := by
  induction l generalizing l' with
  | nil =>
    cases h
    exact .nil
  | cons e l ih =>
    cases h with
    | cons hs hk =>
      cases hc : e.cacheFlags.committed with
      | true =>
        rw [above_cons_committed hc, above_cons_committed (hs.committed.trans hc)]
        exact .nil
      | false =>
        rw [hc] at hk
        rw [above_cons_uncommitted hc, above_cons_uncommitted (hs.committed.trans hc)]
        exact .cons hs (ih hk)

theorem confirmed_kept (h : KeptFrom false l l') : KeptFrom false (confirmed l) (confirmed l') := by
  induction l generalizing l' with
  | nil =>
    cases h
    exact .nil _
  | cons e l ih =>
    cases h with
    | cons hs hk =>
      cases hc : e.cacheFlags.committed with
      | true =>
        rw [confirmed_cons_committed hc, confirmed_cons_committed (hs.committed.trans hc)]
        exact .cons hs hk
      | false =>
        rw [hc] at hk
        rw [confirmed_cons_uncommitted hc, confirmed_cons_uncommitted (hs.committed.trans hc)]
        exact ih hk

theorem newest_same (h : KeptFrom false l l') (he : newest l = some e) :
    ∃ e', newest l' = some e' ∧ SameVersion e e' := by
  induction l generalizing l' with
  | nil => cases he
  | cons x l ih =>
    cases h with
    | cons hs hk =>
      cases hc : x.cacheFlags.committed with
      | true =>
        rw [newest_cons_committed hc] at he
        cases he
        exact ⟨_, newest_cons_committed (hs.committed.trans hc), hs⟩
      | false =>
        rw [newest_cons_uncommitted hc] at he
        rw [hc] at hk
        rw [newest_cons_uncommitted (hs.committed.trans hc)]
        exact ih hk he

end KeptFrom

namespace ListEntry

theorem load_same (vs : Versioned Obj) (e : ListEntry Obj) (fl : CacheFlag) (reason : Bool) :
    SameVersion e (load vs e fl reason).2 := by
  rw [load]
  split
  · exact .refl e
  · refine ⟨rfl, rfl, ?_, ?_, .inr rfl⟩
    all_goals
      split <;> rfl

theorem scan_same (vs : Versioned Obj) (fl : CacheFlag) (e : ListEntry Obj) : SameVersion e (scan vs fl e).2 := by
  rw [scan]
  split
  · exact .refl e
  split
  · exact .refl e
  split
  · split
    · exact ⟨rfl, rfl, rfl, rfl, .inr rfl⟩
    · refine SameVersion.trans ?_ (load_same ..)
      split
      · rename_i hn
        exact ⟨rfl, rfl, rfl, rfl, .inl (Option.isNone_iff_eq_none.mp hn)⟩
      · exact .refl e
  · exact load_same ..
  · exact .refl e

theorem getEntry_kept (vs : Versioned Obj) (currentTrans : TraNumber) (fl : CacheFlag) (passed : Bool)
    (l : List (ListEntry Obj)) : KeptFrom passed l (getEntry vs currentTrans fl l).2 := by
  induction l generalizing passed with
  | nil => exact .nil passed
  | cons e older ih =>
    rw [getEntry]
    split
    · split
      · split
        · exact .cons (.refl e) (ih _)
        · split
          all_goals exact .refl _ _
      · have hs := scan_same vs fl e
        split <;> (rename_i he; rw [he] at hs; exact .cons hs (.refl _ _))
    · exact .cons (.refl e) (ih _)

theorem gc_kept (oldest rc : TraNumber) {passed : Bool} (hrc : rc ≠ 0 → passed = true) (l : List (ListEntry Obj)) :
    KeptFrom passed l (gc oldest rc l).2 := by
  induction l generalizing rc passed with
  | nil => exact .nil passed
  | cons e older ih =>
    rw [gc]
    split
    · exact .cons (.refl e) (ih rc fun h => by rw [hrc h]; rfl)
    · rename_i hc
      have hc : e.cacheFlags.committed = true := by simpa using hc
      split
      · rename_i hold
        split
        · exact .refl _ _
        · rw [hrc hold.1]
          exact .cut _
      · exact .cons (.refl e) (ih _ fun _ => by rw [hc, Bool.or_true])

end ListEntry

/-- All the entries above the newest committed one were added by `T`. -/
def OwnedBy (T : TraNumber) (l : List (ListEntry Obj)) : Prop := ∀ e ∈ above l, e.traNumber = T

/-- The entries above the newest committed one stay, or their transaction is gone and they are too. -/
def Freed (gone : TraNumber → Prop) (l l' : List (ListEntry Obj)) : Prop :=
  l' = l ∨ l' = confirmed l ∧ ∃ T, OwnedBy T l ∧ gone T

def Dead (tip : TraNumber → TraState) (T : TraNumber) : Prop := tip T = .dead

/-- No entry of a transaction that is committed in the inventory stands in the way of `T`. -/
def Clear (tip : TraNumber → TraState) (T : TraNumber) (l : List (ListEntry Obj)) : Prop :=
  ∀ e ∈ l.head?, e.isBusy T = true → tip e.traNumber ≠ .committed

section Owned
variable {tip : TraNumber → TraState} {gone gone' : TraNumber → Prop} {T O : TraNumber} {e : ListEntry Obj}
  {l l' l'' : List (ListEntry Obj)}

theorem ListEntry.isBusy_iff : e.isBusy T = true ↔ e.cacheFlags.committed = false ∧ e.traNumber ≠ T := by
  rw [isBusy]
  cases e.cacheFlags.committed <;> simp

theorem ownedBy_confirmed (T : TraNumber) (l : List (ListEntry Obj)) : OwnedBy T (confirmed l) := by
  intro e he
  rw [above_confirmed] at he
  cases he

theorem OwnedBy.kept (h : OwnedBy T l) (hk : Kept l l') : OwnedBy T l' := by
  intro e' he'
  obtain ⟨e, he, hs⟩ := forall₂_mem_right hk.above_same he'
  rw [hs.traNumber]
  exact h e he

theorem OwnedBy.of_kept (h : OwnedBy T l') (hk : Kept l l') : OwnedBy T l := by
  intro e he
  obtain ⟨e', he', hs⟩ := forall₂_mem_right hk.above_same.flip he
  rw [← hs.traNumber]
  exact h e' he'

theorem OwnedBy.freed (h : OwnedBy T l) (hf : Freed gone l l') : OwnedBy T l' := by
  rcases hf with rfl | ⟨rfl, -⟩
  · exact h
  · exact ownedBy_confirmed T l

theorem OwnedBy.cons_uncommitted (h : OwnedBy T (e :: l)) (hc : e.cacheFlags.committed = false) : e.traNumber = T :=
  h e (by rw [above_cons_uncommitted hc]; exact mem_cons_self)

theorem not_busy_confirmed (he : e ∈ (confirmed l).head?) : e.isBusy T = false := by
  cases hl : confirmed l with
  | nil =>
    rw [hl] at he
    cases he
  | cons x older =>
    rw [hl] at he
    cases he
    have habove : above (e :: older) = [] := hl ▸ above_confirmed l
    cases hc : e.cacheFlags.committed with
    | true => simp [ListEntry.isBusy, hc]
    | false =>
      rw [above_cons_uncommitted hc] at habove
      cases habove

theorem Clear.freed (h : Clear tip T l) (hf : Freed gone l l') : Clear tip T l' := by
  rcases hf with rfl | ⟨rfl, -⟩
  · exact h
  · intro e he hb
    rw [not_busy_confirmed he] at hb
    cases hb

theorem Clear.kept (h : Clear tip T l) (hk : Kept l l') : Clear tip T l' := by
  cases hk with
  | nil => exact h
  | @cons _ x x' l l' hs hk =>
    rintro e ⟨⟩ hb
    rw [ListEntry.isBusy_iff, hs.committed, hs.traNumber] at hb
    rw [hs.traNumber]
    exact h x rfl (ListEntry.isBusy_iff.mpr hb)

theorem Freed.mono (h : Freed gone l l') (hg : ∀ T, gone T → gone' T) : Freed gone' l l' := by
  rcases h with rfl | ⟨rfl, T, hown, hT⟩
  · exact .inl rfl
  · exact .inr ⟨rfl, T, hown, hg T hT⟩

theorem Freed.trans (h : Freed gone l l') (h' : Freed gone l' l'') : Freed gone l l'' := by
  rcases h with rfl | ⟨rfl, hd⟩
  · exact h'
  · rcases h' with rfl | ⟨rfl, -⟩
    · exact .inr ⟨rfl, hd⟩
    · refine .inr ⟨?_, hd⟩
      exact confirmed_confirmed l

theorem Freed.of_kept (hk : Kept l l') (hf : Freed gone l' l'') : ∃ k, Freed gone l k ∧ Kept k l'' := by
  rcases hf with rfl | ⟨rfl, O, hO, hdead⟩
  · exact ⟨l, .inl rfl, hk⟩
  · exact ⟨confirmed l, .inr ⟨rfl, O, hO.of_kept hk, hdead⟩, hk.confirmed_kept⟩

namespace ListEntry

theorem rollback_own (h : OwnedBy T l) : rollback T l = confirmed l := by
  induction l with
  | nil => rfl
  | cons e l ih =>
    cases hc : e.cacheFlags.committed with
    | true => rw [rollback, if_pos hc, confirmed_cons_committed hc]
    | false =>
      rw [rollback, hc, if_neg (not_not_intro (h.cons_uncommitted hc)),
        confirmed_cons_uncommitted hc]
      rw [OwnedBy, above_cons_uncommitted hc] at h
      exact ih fun x hx => h x (mem_cons_of_mem _ hx)

theorem rollback_other (h : OwnedBy O l) (hne : O ≠ T) : rollback T l = l := by
  cases l with
  | nil => rfl
  | cons e l =>
    cases hc : e.cacheFlags.committed with
    | true => rw [rollback, if_pos hc]
    | false => rw [rollback, hc, if_neg Bool.false_ne_true, if_pos (h.cons_uncommitted hc ▸ hne)]

theorem add_of_not_busy {isNotActive : TraNumber → Bool} {newVal : ListEntry Obj}
    (h : ∀ e ∈ l.head?, e.isBusy newVal.traNumber = false) : add isNotActive newVal l = (true, newVal :: l) := by
  cases l with
  | nil => rw [add]
  | cons e older =>
    have hb := h e rfl
    rw [add, if_neg (by rw [hb]; exact Bool.false_ne_true)]

end ListEntry

theorem Context.isNotActive_iff {cx : Context Obj} :
    cx.isNotActive T = true ↔ cx.tip T = .committed ∨ cx.tip T = .dead := by
  simp [Context.isNotActive]

variable (cx : Context Obj) (newVal : ListEntry Obj)

theorem ListEntry.add_spec (hown : OwnedBy O l) (hclear : Clear cx.tip newVal.traNumber l) :
    ∃ k, Freed (Dead cx.tip) l k ∧ (add cx.isNotActive newVal l = (false, k) ∨
      add cx.isNotActive newVal l = (true, newVal :: k) ∧ OwnedBy newVal.traNumber k) := by
  cases l with
  | nil =>
    refine ⟨[], .inl rfl, .inr ⟨by rw [add], ?_⟩⟩
    intro e he
    cases he
  | cons e older =>
    by_cases hb : e.isBusy newVal.traNumber = true
    · obtain ⟨hc, hne⟩ := isBusy_iff.mp hb
      have hO : e.traNumber = O := hown.cons_uncommitted hc
      by_cases hact : cx.isNotActive e.traNumber = true
      · have hdead : cx.tip e.traNumber = .dead :=
          (Context.isNotActive_iff.mp hact).resolve_left (hclear e rfl hb)
        refine ⟨confirmed (e :: older), .inr ⟨rfl, O, hown, hO ▸ hdead⟩, .inr ⟨?_, ownedBy_confirmed _ _⟩⟩
        rw [add, if_pos hb, if_pos hact, hO, rollback_own hown]
        exact add_of_not_busy fun x hx => not_busy_confirmed hx
      · exact ⟨e :: older, .inl rfl, .inl (by rw [add, if_pos hb, if_neg hact])⟩
    · refine ⟨e :: older, .inl rfl, .inr ⟨by rw [add, if_neg hb], ?_⟩⟩
      intro x hx
      cases hc : e.cacheFlags.committed with
      | true =>
        rw [above_cons_committed hc] at hx
        cases hx
      | false =>
        have he : e.traNumber = newVal.traNumber := by
          by_contra hne
          exact hb (isBusy_iff.mpr ⟨hc, hne⟩)
        rw [hown x hx, ← hown.cons_uncommitted hc, he]

theorem CacheElement.available_spec (hown : OwnedBy O l) (hclear : Clear cx.tip T l) :
    Freed (Dead cx.tip) l (available cx T l).2 := by
  cases l with
  | nil =>
    rw [available]
    exact .inl rfl
  | cons e older =>
    by_cases hb : e.isBusy T = true
    · obtain ⟨hc, hne⟩ := ListEntry.isBusy_iff.mp hb
      have hO : e.traNumber = O := hown.cons_uncommitted hc
      by_cases hact : cx.isNotActive e.traNumber = true
      · have hdead : cx.tip e.traNumber = .dead :=
          (Context.isNotActive_iff.mp hact).resolve_left (hclear e rfl hb)
        rw [available, if_pos hb, if_pos hact, hO, ListEntry.rollback_own hown]
        refine .inr ⟨?_, O, hown, hO ▸ hdead⟩
        cases hl : confirmed (e :: older) with
        | nil => rw [available]
        | cons x xs =>
          have hx : x.isBusy T = false := not_busy_confirmed (l := e :: older) (by rw [hl]; rfl)
          rw [available, if_neg (by rw [hx]; exact Bool.false_ne_true)]
      · rw [available, if_pos hb, if_neg hact]
        exact .inl rfl
    · rw [available, if_neg hb]
      exact .inl rfl

end Owned
end Firebird.Mdc
