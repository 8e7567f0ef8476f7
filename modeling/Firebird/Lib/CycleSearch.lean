import Mathlib

/-! # Depth-first search for a cycle

A search that marks the vertices of its current path and those it is done with, and returns a vertex of the path that it
meets again. -/

namespace Firebird.Lib

open List Function

section Loops
variable {ι κ β σ τ : Type*}

/-- The body for one element after another, until it finds something; nothing when a body has no fuel. -/
def firstFound (body : ι → σ → Option (Option β × σ)) : List ι → σ → Option (Option β × σ)
  | [], s => some (none, s)
  | x :: xs, s =>
    match body x s with
    | some (none, s) => firstFound body xs s
    | result => result

variable {body : ι → σ → Option (Option β × σ)} {x : ι} {xs ys : List ι} {s s' : σ}

theorem firstFound_append (body : ι → σ → Option (Option β × σ)) (xs ys : List ι) (s : σ) :
    firstFound body (xs ++ ys) s =
      match firstFound body xs s with
      | some (none, s) => firstFound body ys s
      | result => result := by
  induction xs generalizing s with
  | nil => rfl
  | cons x xs ih =>
    rw [cons_append, firstFound, firstFound]
    rcases body x s with _ | ⟨_ | found, s⟩
    · rfl
    · exact ih s
    · rfl

theorem firstFound_flatMap (body : κ → σ → Option (Option β × σ)) (f : ι → List κ) (xs : List ι) (s : σ) :
    firstFound body (xs.flatMap f) s = firstFound (fun x => firstFound body (f x)) xs s := by
  induction xs generalizing s with
  | nil => rfl
  | cons x xs ih =>
    rw [flatMap_cons, firstFound_append, firstFound]
    rcases firstFound body (f x) s with _ | ⟨_ | found, s⟩
    · rfl
    · exact ih s
    · rfl

theorem firstFound_map (part : σ → τ) {body' : ι → τ → Option (Option β × τ)}
    (h : ∀ x ∈ xs, ∀ s, (body x s).map (Prod.map id part) = body' x (part s)) (s : σ) :
    (firstFound body xs s).map (Prod.map id part) = firstFound body' xs (part s) := by
  induction xs generalizing s with
  | nil => rfl
  | cons x xs ih =>
    have hfirst := h x mem_cons_self s
    rw [firstFound, firstFound, ← hfirst]
    rcases body x s with _ | ⟨_ | found, s⟩
    · rfl
    · exact ih (fun y hy => h y (mem_cons_of_mem _ hy)) s
    · rfl

theorem firstFound_cons_none (h : firstFound body (x :: xs) s = some (none, s')) :
    ∃ s₁, body x s = some (none, s₁) ∧ firstFound body xs s₁ = some (none, s') := by
  rw [firstFound] at h
  cases hbody : body x s with
  | none =>
    rw [hbody] at h
    exact nomatch h
  | some result =>
    obtain ⟨found, s₁⟩ := result
    rw [hbody] at h
    cases found with
    | none => exact ⟨s₁, rfl, h⟩
    | some found => exact nomatch h

/-- What every pass of the body satisfies, a loop that finds nothing satisfies. -/
theorem firstFound_rel {R : σ → σ → Prop} (refl : ∀ s, R s s) (trans : ∀ {s t u}, R s t → R t u → R s u)
    (keep : ∀ x ∈ xs, ∀ s s', body x s = some (none, s') → R s s') (h : firstFound body xs s = some (none, s')) :
    R s s' := by
  induction xs generalizing s with
  | nil =>
    obtain ⟨-, rfl⟩ := Prod.mk.inj (Option.some.inj h)
    exact refl s
  | cons x xs ih =>
    obtain ⟨s₁, hfirst, hrest⟩ := firstFound_cons_none h
    exact trans (keep x mem_cons_self s s₁ hfirst) (ih (fun y hy => keep y (mem_cons_of_mem _ hy)) hrest)

/-- A loop that finds nothing passes every element. -/
theorem firstFound_passes (h : firstFound body xs s = some (none, s')) (hx : x ∈ xs) :
    ∃ s₁ s₂ ys, body x s₁ = some (none, s₂) ∧ ys ⊆ xs ∧ firstFound body ys s₂ = some (none, s') := by
  induction xs generalizing s with
  | nil => exact nomatch hx
  | cons y xs ih =>
    obtain ⟨s₁, hfirst, hrest⟩ := firstFound_cons_none h
    rcases mem_cons.mp hx with rfl | hx
    · exact ⟨s, s₁, xs, hfirst, subset_cons_self _ _, hrest⟩
    · obtain ⟨s₂, s₃, ys, hpass, hsub, hlater⟩ := ih hrest hx
      exact ⟨s₂, s₃, ys, hpass, fun z hz => mem_cons_of_mem _ (hsub hz), hlater⟩

end Loops

section Graph
variable {α : Type*} {next : α → List α} {x y : α}

def Follows (next : α → List α) (x y : α) : Prop := y ∈ next x

def Reaches (next : α → List α) : α → α → Prop := Relation.ReflTransGen (Follows next)

def OnCycle (next : α → List α) (x : α) : Prop := Relation.TransGen (Follows next) x x

def ReachesCycle (next : α → List α) (x : α) : Prop := ∃ y, Reaches next x y ∧ OnCycle next y

theorem ReachesCycle.successor (h : ReachesCycle next x) : ∃ y ∈ next x, ReachesCycle next y := by
  obtain ⟨c, hreach, hcycle⟩ := h
  rcases Relation.ReflTransGen.cases_head hreach with rfl | ⟨y, hy, hrest⟩
  · obtain ⟨y, hy, hback⟩ := Relation.TransGen.head'_iff.mp hcycle
    exact ⟨y, hy, x, hback, hcycle⟩
  · exact ⟨y, hy, c, hrest, hcycle⟩

end Graph

structure Marks (α : Type*) where
  path : α → Bool
  done : α → Bool

section Search
variable {α : Type*} [DecidableEq α]

namespace Marks

def enter (m : Marks α) (x : α) : Marks α := { m with path := update m.path x true }

def leave (m : Marks α) (x : α) : Marks α :=
  { path := update m.path x false, done := update m.done x true }

end Marks

def search (next : α → List α) : Nat → α → Marks α → Option (Option α × Marks α)
  | 0, _, _ => none
  | fuel + 1, x, m =>
    if m.done x then some (none, m)
    else if m.path x then some (some x, m)
    else
      match firstFound (search next fuel) (next x) (m.enter x) with
      | some (none, m) => some (none, m.leave x)
      | result => result

/-! ### What the search finds -/

def Closed (next : α → List α) (u : Finset α) : Prop := ∀ x ∈ u, ∀ y ∈ next x, y ∈ u

/-- Nothing that is done leads to a cycle, or to anything that is not done. -/
structure Sound (next : α → List α) (u : Finset α) (m : Marks α) : Prop where
  safe : ∀ x ∈ u, m.done x = true → ¬ ReachesCycle next x
  closed : ∀ x ∈ u, m.done x = true → ∀ y ∈ next x, m.done y = true

def LeadsTo (next : α → List α) (u : Finset α) (m : Marks α) (x : α) : Prop :=
  ∀ p ∈ u, m.path p = true → Relation.TransGen (Follows next) p x

structure Grows (m m' : Marks α) : Prop where
  path : m'.path = m.path
  done : ∀ x, m.done x = true → m'.done x = true

/-- All the vertices are done, with what can be reached from them and nothing else; or there is a cycle. -/
def Outcome (next : α → List α) (u : Finset α) (xs : List α) (m : Marks α) : Option α × Marks α → Prop
  | (none, m') => Grows m m' ∧ Sound next u m' ∧ (∀ x ∈ xs, m'.done x = true) ∧
      ∀ y ∈ u, m'.done y = true → m.done y = true ∨ ∃ x ∈ xs, Reaches next x y
  | (some v, _) => OnCycle next v ∧ ∃ x ∈ xs, Reaches next x v

variable {next : α → List α} {x y : α} {xs ys : List α} {m m' : Marks α} {u : Finset α} {fuel : Nat}
  {visit : α → Marks α → Option (Option α × Marks α)} {result : Option α × Marks α}

theorem enter_path_of_ne (h : y ≠ x) (m : Marks α) : (m.enter x).path y = m.path y := update_of_ne h ..

theorem leave_done_cases (h : (m.leave x).done y = true) : y = x ∨ m.done y = true := by
  by_cases heq : y = x
  · exact .inl heq
  · exact .inr ((update_of_ne heq ..).symm.trans h)

theorem leave_done (h : m.done y = true) : (m.leave x).done y = true := by
  by_cases heq : y = x
  · exact heq ▸ update_self ..
  · exact (update_of_ne heq ..).trans h

theorem leave_path (hx : m.path x = false) (hpath : m'.path = (m.enter x).path) : (m'.leave x).path = m.path := by
  funext y
  by_cases heq : y = x
  · subst heq
    exact (update_self ..).trans hx.symm
  · refine (update_of_ne heq ..).trans ?_
    rw [hpath]
    exact enter_path_of_ne heq m

omit [DecidableEq α] in
theorem sound_of_clear (h : ∀ x ∈ u, m.done x = false) : Sound next u m where
  safe := fun x hx hdone => Bool.noConfusion ((h x hx).symm.trans hdone)
  closed := fun x hx hdone => Bool.noConfusion ((h x hx).symm.trans hdone)

omit [DecidableEq α] in
theorem leadsTo_of_clear (h : ∀ x ∈ u, m.path x = false) (x : α) : LeadsTo next u m x := fun p hp hpath =>
  Bool.noConfusion ((h p hp).symm.trans hpath)

omit [DecidableEq α] in
theorem Closed.reaches (h : Closed next u) (hx : x ∈ u) (hreach : Reaches next x y) : y ∈ u := by
  induction hreach with
  | refl => exact hx
  | tail _ hstep ih => exact h _ ih _ hstep

omit [DecidableEq α] in
theorem Sound.reaches (h : Sound next u m) (hclosed : Closed next u) (hu : x ∈ u) (hx : m.done x = true)
    (hreach : Reaches next x y) : m.done y = true := by
  induction hreach with
  | refl => exact hx
  | tail hbefore hstep ih => exact h.closed _ (hclosed.reaches hu hbefore) ih _ hstep

theorem LeadsTo.enter (h : LeadsTo next u m x) (hy : y ∈ next x) : LeadsTo next u (m.enter x) y := by
  intro p hu hp
  by_cases heq : p = x
  · exact heq ▸ .single hy
  · rw [enter_path_of_ne heq] at hp
    exact (h p hu hp).tail hy

omit [DecidableEq α] in
theorem LeadsTo.grows (h : LeadsTo next u m x) (hgrows : Grows m m') : LeadsTo next u m' x := by
  intro p hu hp
  rw [hgrows.path] at hp
  exact h p hu hp

omit [DecidableEq α] in
/-- The loop over the vertices, by what each visit does. -/
theorem firstFound_outcome (hvisit : ∀ y ∈ xs, ∀ m result, Sound next u m → LeadsTo next u m y →
    visit y m = some result →
      Outcome next u [y] m result) (hsound : Sound next u m) (hleads : ∀ y ∈ xs, LeadsTo next u m y)
    (h : firstFound visit xs m = some result) : Outcome next u xs m result := by
  induction xs generalizing m with
  | nil =>
    obtain rfl := Option.some.inj h
    exact ⟨⟨rfl, fun _ => id⟩, hsound, nofun, fun _ _ => .inl⟩
  | cons y ys ih =>
    rw [firstFound] at h
    have hfirst := hvisit y mem_cons_self m
    split at h
    case h_1 m₁ heq =>
      obtain ⟨hgrows, hsound₁, hdone, honly⟩ := hfirst _ hsound (hleads y mem_cons_self) heq
      have hrest := ih (fun z hz => hvisit z (mem_cons_of_mem _ hz)) hsound₁
        (fun z hz => (hleads z (mem_cons_of_mem _ hz)).grows hgrows) h
      obtain ⟨found, m₂⟩ := result
      cases found with
      | some v => exact ⟨hrest.1, hrest.2.imp fun z hz => ⟨mem_cons_of_mem _ hz.1, hz.2⟩⟩
      | none =>
        obtain ⟨hgrows', hsound₂, hdone', honly'⟩ := hrest
        refine ⟨⟨hgrows'.path.trans hgrows.path, fun z hz => hgrows'.done z (hgrows.done z hz)⟩, hsound₂, fun z hz =>
          ?_, fun z hu hz => ?_⟩
        · rcases mem_cons.mp hz with rfl | hz
          · exact hgrows'.done _ (hdone _ mem_cons_self)
          · exact hdone' z hz
        · rcases honly' z hu hz with hold | ⟨w, hw, hreach⟩
          · rcases honly z hu hold with hold | ⟨w, hw, hreach⟩
            · exact .inl hold
            · exact .inr ⟨y, mem_cons_self, mem_singleton.mp hw ▸ hreach⟩
          · exact .inr ⟨w, mem_cons_of_mem _ hw, hreach⟩
    case h_2 hfound =>
      have hout := hfirst _ hsound (hleads y mem_cons_self) h
      obtain ⟨found, m₂⟩ := result
      cases found with
      | some v => exact ⟨hout.1, y, mem_cons_self, hout.2.elim fun w hw => mem_singleton.mp hw.1 ▸ hw.2⟩
      | none => exact absurd h (hfound _)

omit [DecidableEq α] in
theorem Sound.not_reachesCycle (h : Sound next u m) (hclosed : Closed next u) (hx : x ∈ u)
    (hall : ∀ y ∈ next x, m.done y = true) : ¬ ReachesCycle next x := by
  intro hcycle
  obtain ⟨y, hy, hrest⟩ := hcycle.successor
  exact h.safe y (hclosed x hx y hy) (hall y hy) hrest

theorem Sound.leave (h : Sound next u m) (hclosed : Closed next u) (hall : ∀ y ∈ next x, m.done y = true) :
    Sound next u (m.leave x) where
  safe := fun y hu hy => by
    rcases leave_done_cases hy with rfl | hold
    · exact h.not_reachesCycle hclosed hu hall
    · exact h.safe y hu hold
  closed := fun y hu hy z hz => by
    rcases leave_done_cases hy with rfl | hold
    · exact leave_done (hall z hz)
    · exact leave_done (h.closed y hu hold z hz)

/-- The search is right whatever it returns. -/
theorem search_outcome (hclosed : Closed next u) (hx : x ∈ u) (hsound : Sound next u m) (hleads : LeadsTo next u m x)
    (h : search next fuel x m = some result) : Outcome next u [x] m result := by
  induction fuel generalizing x m result with
  | zero => exact nomatch h
  | succ fuel ih =>
    rw [search] at h
    split at h
    case isTrue hdone =>
      obtain rfl := Option.some.inj h
      exact ⟨⟨rfl, fun _ => id⟩, hsound, fun y hy => mem_singleton.mp hy ▸ hdone, fun _ _ => .inl⟩
    case isFalse =>
      split at h
      case isTrue hpath =>
        obtain rfl := Option.some.inj h
        exact ⟨hleads x hx hpath, x, mem_cons_self, .refl⟩
      case isFalse hpath =>
        have hbelow : ∀ result, firstFound (search next fuel) (next x) (m.enter x) = some result →
            Outcome next u (next x) (m.enter x) result := fun result =>
          firstFound_outcome (fun y hy m result hs hl heq => ih (hclosed x hx y hy) hs hl heq) ⟨hsound.safe,
            hsound.closed⟩ fun y hy => hleads.enter hy
        split at h
        case h_1 m₁ heq =>
          obtain rfl := Option.some.inj h
          obtain ⟨hgrows, hsound₁, hall, honly⟩ := hbelow _ heq
          refine ⟨⟨leave_path (Bool.not_eq_true _ ▸ hpath) hgrows.path, fun y hy => leave_done (hgrows.done y hy)⟩,
            hsound₁.leave hclosed hall, fun y hy => ?_, fun y hu hy => ?_⟩
          · exact mem_singleton.mp hy ▸ update_self ..
          · rcases leave_done_cases hy with rfl | hold
            · exact .inr ⟨y, mem_cons_self, .refl⟩
            · rcases honly y hu hold with hbefore | ⟨z, hz, hreach⟩
              · exact .inl hbefore
              · exact .inr ⟨x, mem_cons_self, .head hz hreach⟩
        case h_2 hfound =>
          have hout := hbelow _ h
          obtain ⟨found, m₁⟩ := result
          cases found with
          | none => exact absurd h (hfound _)
          | some v =>
            obtain ⟨hcycle, z, hz, hreach⟩ := hout
            exact ⟨hcycle, x, mem_cons_self, .head hz hreach⟩

def free (u : Finset α) (m : Marks α) : Finset α := u.filter fun x => m.path x = false ∧ m.done x = false

omit [DecidableEq α] in
theorem free_grows (h : Grows m m') (u : Finset α) : (free u m').card ≤ (free u m).card := by
  refine Finset.card_le_card fun y hy => ?_
  unfold free at hy ⊢
  rw [Finset.mem_filter, h.path] at hy
  refine Finset.mem_filter.mpr ⟨hy.1, hy.2.1, Bool.not_eq_true _ ▸ fun hdone => ?_⟩
  exact Bool.noConfusion (hy.2.2.symm.trans (h.done y hdone))

theorem free_enter (hx : x ∈ u) (hpath : m.path x = false) (hdone : m.done x = false) :
    (free u (m.enter x)).card < (free u m).card := by
  refine Finset.card_lt_card (Finset.ssubset_iff_of_subset (fun y hy => ?_) |>.mpr ⟨x, ?_, fun hmem => ?_⟩)
  · obtain ⟨hu, hfree, hnot⟩ := Finset.mem_filter.mp hy
    refine Finset.mem_filter.mpr ⟨hu, ?_, hnot⟩
    by_cases heq : y = x
    · exact heq ▸ hpath
    · exact (enter_path_of_ne heq m).symm.trans hfree
  · exact Finset.mem_filter.mpr ⟨hx, hpath, hdone⟩
  · exact Bool.noConfusion ((Finset.mem_filter.mp hmem).2.1.symm.trans (update_self ..))

omit [DecidableEq α] in
theorem firstFound_isSome (hvisit : ∀ y ∈ xs, ∀ m', Grows m m' → Sound next u m' → ∃ result, visit y m' = some result ∧
    Outcome next u [y] m' result) (hsound : Sound next u m) : ∃ result, firstFound visit xs m = some result := by
  induction xs generalizing m with
  | nil => exact ⟨_, rfl⟩
  | cons y ys ih =>
    obtain ⟨result, heq, hout⟩ := hvisit y mem_cons_self m ⟨rfl, fun _ => id⟩ hsound
    rw [firstFound, heq]
    obtain ⟨found, m₁⟩ := result
    cases found with
    | some v => exact ⟨_, rfl⟩
    | none =>
      obtain ⟨hgrows, hsound₁, -, -⟩ := hout
      exact ih (fun z hz m' hgrows' => hvisit z (mem_cons_of_mem _ hz) m'
        ⟨hgrows'.path.trans hgrows.path, fun w hw => hgrows'.done w (hgrows.done w hw)⟩) hsound₁

/-- With more fuel than there are vertices to visit the search returns. -/
theorem search_isSome (hclosed : Closed next u) (hx : x ∈ u) (hsound : Sound next u m) (hleads : LeadsTo next u m x)
    (hfuel : (free u m).card < fuel) : ∃ result, search next fuel x m = some result := by
  induction fuel generalizing x m with
  | zero => exact absurd hfuel (Nat.not_lt_zero _)
  | succ fuel ih =>
    rw [search]
    split
    case isTrue => exact ⟨_, rfl⟩
    case isFalse hdone =>
      split
      case isTrue => exact ⟨_, rfl⟩
      case isFalse hpath =>
        have hless := free_enter hx (Bool.not_eq_true _ ▸ hpath) (Bool.not_eq_true _ ▸ hdone)
        obtain ⟨result, heq⟩ : ∃ result, firstFound (search next fuel) (next x) (m.enter x) = some result := by
          refine firstFound_isSome (u := u) (fun y hy m' hgrows hsound' => ?_) ⟨hsound.safe, hsound.closed⟩
          have hleads' := (hleads.enter hy).grows hgrows
          have hless' := free_grows hgrows u
          obtain ⟨result, heq⟩ := ih (hclosed x hx y hy) hsound' hleads' (by omega)
          exact ⟨result, heq, search_outcome hclosed (hclosed x hx y hy) hsound' hleads' heq⟩
        rw [heq]
        split <;> exact ⟨_, rfl⟩

end Search
end Firebird.Lib
