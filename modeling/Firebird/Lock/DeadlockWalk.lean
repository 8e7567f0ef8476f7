import Firebird.Lock.Safety

/-! # What the deadlock scan sees

`deadlock_walk` looks for the requests that block a waiting one: a conversion is blocked by what is granted to others,
any other request by what is granted to those before it or what they ask for. -/

namespace Firebird.Lock

open List

def Level.max (a b : Level) : Level := if b.ord < a.ord then a else b

/-- `request->lrq_state > LCK_null` -/
def Lrq.conversion (request : Lrq) : Bool := decide (Level.null.ord < request.state.ord)

/-- The requests that the loop of `deadlock_walk` takes for blocking. -/
def blockers (request : Lrq) : List Lrq → List Lrq
  | [] => []
  | block :: rest =>
    if request.conversion then
      if request.id = block.id then blockers request rest
      else if compatible request.requested block.state then blockers request rest
      else block :: blockers request rest
    else
      if request.id = block.id then []
      else if compatible request.requested (block.state.max block.requested) then blockers request rest
      else block :: blockers request rest

/-- What others see of a request: the granted level, and the higher one of that and the level asked for. -/
structure Look where
  granted : Level
  shown : Level

def Lrq.look (x : Lrq) : Look := { granted := x.state, shown := x.state.max x.requested }

/-- The first one comes before the second one in the queue. -/
def Ahead (ids : List RequestId) (a b : RequestId) : Prop := [a, b].Sublist ids

instance (ids : List RequestId) (a b : RequestId) : Decidable (Ahead ids a b) :=
  inferInstanceAs (Decidable ([a, b].Sublist ids))

/-- The request would find the other one blocking if that looked so. -/
def Lrq.Sees (r : Lrq) (ahead : Prop) (look : Look) : Prop :=
  if r.conversion then compatible r.requested look.granted = false
  else ahead ∧ compatible r.requested look.shown = false

instance (r : Lrq) (ahead : Prop) [Decidable ahead] (look : Look) : Decidable (r.Sees ahead look) :=
  inferInstanceAs (Decidable (if r.conversion then _ else _))

/-- How the request may look while the one of the id waits: as now, after a rejection, or, where it waits before
    the other one, when it has been granted. -/
def Lrq.looks (ids : List RequestId) (id : RequestId) (x : Lrq) : List Look :=
  [x.look, { granted := x.state, shown := x.state }] ++
    if x.pending = true ∧ Ahead ids x.id id then [{ granted := x.requested, shown := x.requested }] else []

/-- What keeps the first request waiting is seen by it, and seen by those that wait behind it unless they see it. -/
def Lrq.Orderly (ids : List RequestId) (l : List Lrq) (f x : Lrq) (look : Look) : Prop :=
  compatible f.requested look.granted = false ∨ f.Sees (Ahead ids x.id f.id) look →
    f.Sees (Ahead ids x.id f.id) look ∧ ∀ r ∈ l, r.pending = true → Ahead ids f.id r.id →
      r.Sees True f.look ∨ r.id ≠ x.id ∧ r.Sees (Ahead ids x.id r.id) look

/-- Whatever may keep a request waiting is seen by it, and by those that wait behind it unless they see it. -/
def Orderly (l : List Lrq) : Prop :=
  ∀ f ∈ l, f.pending = true → ∀ x ∈ l, x.id ≠ f.id → ∀ look ∈ x.looks (l.map (·.id)) f.id,
    f.Orderly (l.map (·.id)) l x look

instance (ids : List RequestId) (l : List Lrq) (f x : Lrq) (look : Look) : Decidable (f.Orderly ids l x look) :=
  inferInstanceAs (Decidable (_ → _))

instance (l : List Lrq) : Decidable (Orderly l) :=
  inferInstanceAs (Decidable (∀ f ∈ l, f.pending = true → ∀ x ∈ l, x.id ≠ f.id →
    ∀ look ∈ x.looks (l.map (·.id)) f.id, f.Orderly (l.map (·.id)) l x look))

def Lrq.Blocked (l : List Lrq) (r : Lrq) : Prop := ∃ x ∈ l, x.id ≠ r.id ∧ r.Sees (Ahead (l.map (·.id)) x.id r.id) x.look

/-- Nobody waits for nobody. -/
def AllBlocked (l : List Lrq) : Prop := ∀ r ∈ l, r.pending = true → r.Blocked l

def Stopped (l : List Lrq) : Prop :=
  (∀ y ∈ l, y.pending = false) ∨ ∃ a f b, l = a ++ f :: b ∧ f.pending = true ∧ (∀ y ∈ a, y.pending = false) ∧
    ∃ x ∈ a ++ b, compatible f.requested x.state = false

section Order
variable {ids ids' : List RequestId} {a b : RequestId} {l : List Lrq} {r x : Lrq} {p q : Prop} {look : Look}

theorem Ahead.mono (h : Ahead ids' a b) (hsub : ids'.Sublist ids) : Ahead ids a b := Sublist.trans h hsub

theorem ahead_total (ha : a ∈ ids) (hb : b ∈ ids) (hne : a ≠ b) : Ahead ids a b ∨ Ahead ids b a := by
  obtain ⟨s, t, rfl⟩ := append_of_mem ha
  rcases mem_append.mp hb with hb | hb
  · exact .inr ((singleton_sublist.mpr hb).append (singleton_sublist.mpr mem_cons_self))
  · rcases mem_cons.mp hb with rfl | hb
    · exact absurd rfl hne
    · refine .inl (sublist_append_of_sublist_right (Sublist.cons_cons a ?_))
      exact singleton_sublist.mpr hb

theorem ahead_asymm (hnodup : ids.Nodup) (h : Ahead ids a b) : ¬ Ahead ids b a := by
  intro h'
  induction ids with
  | nil => cases h
  | cons c ids ih =>
    obtain ⟨hc, hnodup⟩ := nodup_cons.mp hnodup
    cases h with
    | cons _ h =>
      cases h' with
      | cons _ h' => exact ih hnodup h h'
      | cons_cons _ h' => exact hc (h.subset (mem_cons_of_mem _ mem_cons_self))
    | cons_cons _ h =>
      cases h' with
      | cons _ h' => exact hc (h'.subset (mem_cons_of_mem _ mem_cons_self))
      | cons_cons _ h' => exact hc (singleton_sublist.mp h)

theorem Ahead.restrict (h : Ahead ids a b) (hnodup : ids.Nodup) (hsub : ids'.Sublist ids) (ha : a ∈ ids')
    (hb : b ∈ ids') (hne : a ≠ b) : Ahead ids' a b :=
  (ahead_total ha hb hne).resolve_right fun h' => ahead_asymm hnodup h (h'.mono hsub)

theorem Lrq.Sees.imp (h : r.Sees p look) (hpq : p → q) : r.Sees q look := by
  unfold Lrq.Sees at h ⊢
  split
  · rwa [if_pos ‹_›] at h
  · rw [if_neg ‹_›] at h
    exact ⟨hpq h.1, h.2⟩

end Order

section Blockers
variable {l a b : List Lrq} {r x : Lrq}

theorem mem_blockers_conversion (hr : r.conversion = true) (hx : x ∈ l) (hne : x.id ≠ r.id)
    (hc : compatible r.requested x.state = false) : x ∈ blockers r l := by
  induction l with
  | nil => cases hx
  | cons y l ih =>
    unfold blockers
    rw [if_pos hr]
    rcases mem_cons.mp hx with rfl | hx
    · rw [if_neg (Ne.symm hne), if_neg (by rw [hc]; exact Bool.false_ne_true)]
      exact mem_cons_self
    · split
      · exact ih hx
      · split
        · exact ih hx
        · exact mem_cons_of_mem _ (ih hx)

theorem mem_blockers_ahead (hr : r.conversion = false) (hx : x ∈ a) (ha : ∀ y ∈ a, y.id ≠ r.id)
    (hc : compatible r.requested (x.state.max x.requested) = false) : x ∈ blockers r (a ++ r :: b) := by
  have hcase : ¬ r.conversion = true := by
    rw [hr]
    exact Bool.false_ne_true
  induction a with
  | nil => cases hx
  | cons y a ih =>
    obtain ⟨hy, ha⟩ := forall_mem_cons.mp ha
    rw [cons_append]
    unfold blockers
    rw [if_neg hcase, if_neg (Ne.symm hy)]
    rcases mem_cons.mp hx with rfl | hx
    · rw [if_neg (by rw [hc]; exact Bool.false_ne_true)]
      exact mem_cons_self
    · split
      · exact ih hx ha
      · exact mem_cons_of_mem _ (ih hx ha)

theorem ahead_of_mem (hnodup : ((a ++ r :: b).map (·.id)).Nodup) (hx : x ∈ a ++ b)
    (h : Ahead ((a ++ r :: b).map (·.id)) x.id r.id) : x ∈ a := by
  rcases mem_append.mp hx with hx | hx
  · exact hx
  · refine absurd h (ahead_asymm hnodup ?_)
    rw [map_append]
    refine sublist_append_of_sublist_right (Sublist.cons_cons _ ?_)
    exact singleton_sublist.mpr (mem_map_of_mem hx)

theorem Lrq.Blocked.blockers_ne (h : r.Blocked l) (hnodup : (l.map (·.id)).Nodup) (hr : r ∈ l) : blockers r l ≠ [] := by
  obtain ⟨x, hx, hne, hsees⟩ := h
  unfold Lrq.Sees at hsees
  cases hconv : r.conversion with
  | true =>
    rw [if_pos hconv] at hsees
    exact ne_nil_of_mem (mem_blockers_conversion hconv hx hne hsees)
  | false =>
    rw [if_neg (by rw [hconv]; exact Bool.false_ne_true)] at hsees
    obtain ⟨a, b, rfl⟩ := append_of_mem hr
    have hx' : x ∈ a ++ b := by
      rcases mem_append.mp hx with hx | hx
      · exact mem_append_left _ hx
      · rcases mem_cons.mp hx with rfl | hx
        · exact absurd rfl hne
        · exact mem_append_right _ hx
    refine ne_nil_of_mem (mem_blockers_ahead hconv (ahead_of_mem hnodup hx' hsees.1) ?_ hsees.2)
    exact fun y hy => ne_of_nodup hnodup y (mem_append_left _ hy)

end Blockers
end Firebird.Lock
