import Firebird.Lock.Runs

/-! # What a downgrade leaves

`downgrade` lowers a request until its state is compatible with the highest level that others wait for, and tells the
new state. -/

namespace Firebird.Lock
open Lib Function List

/-- Another request waits for this level. -/
def Asked (l : List Lrq) (id : RequestId) (s : Level) : Prop := ∃ x ∈ l, x.id ≠ id ∧ x.pending = true ∧ x.requested = s

/-- Others wait for both `LCK_PR` and `LCK_SW` and for nothing higher, and the request holds one of the levels that are
    lowered to `LCK_SW`. -/
def Lrq.BetweenReadAndWrite (r : Lrq) (l : List Lrq) : Prop :=
  (r.state = .sw ∨ r.state = .pw ∨ r.state = .ex) ∧ Asked l r.id .pr ∧ Asked l r.id .sw ∧
  ¬ Asked l r.id .pw ∧ ¬ Asked l r.id .ex

/-- One of several requests that hold `LCK_SW` is to be lowered to `LCK_PR`, the highest level that others wait for. -/
def Lrq.OneOfWriters (r : Lrq) (l : List Lrq) : Prop :=
  r.state = .sw ∧ (∃ x ∈ l, x.id ≠ r.id ∧ x.state = .sw) ∧ Asked l r.id .pr ∧ ¬ Asked l r.id .sw ∧ ¬ Asked l r.id .pw ∧
    ¬ Asked l r.id .ex

instance (l : List Lrq) (id : RequestId) (s : Level) : Decidable (Asked l id s) :=
  inferInstanceAs (Decidable (∃ x ∈ l, x.id ≠ id ∧ x.pending = true ∧ x.requested = s))

instance (r : Lrq) (l : List Lrq) : Decidable (r.BetweenReadAndWrite l) := inferInstanceAs (Decidable (_ ∧ _))

instance (r : Lrq) (l : List Lrq) : Decidable (r.OneOfWriters l) :=
  inferInstanceAs (Decidable (r.state = .sw ∧ (∃ x ∈ l, x.id ≠ r.id ∧ x.state = .sw) ∧ _))

namespace Table

/-- `LockManager::downgrade`: the table that it leaves, and the state that it returns. -/
def downgraded (t : Table) (ownCount : OwnerId → Nat) (h : Handle) : Table × Level :=
  match t.request h with
  | none => (t, .none)
  | some (lock, r) =>
    if ownCount r.owner = 0 then (t, .none)
    else
      let state := downgradeState lock r
      (t.downgrade h, if state = .none ∨ state = .null then .none else state)

def stateOf (t : Table) (h : Handle) : Level :=
  match t.request h with
  | none => .none
  | some (_, r) => r.state

/-- The request is left in the state that is told, which is no higher and blocks nobody who waits. -/
structure Downgrades (t : Table) (ownCount : OwnerId → Nat) (h : Handle) : Prop where
  left : (t.downgraded ownCount h).1.stateOf h = (t.downgraded ownCount h).2
  unblocks : ∀ lock r, t.request h = some (lock, r) → ∀ x ∈ lock.requests, x.id ≠ r.id → x.pending = true →
    compatible x.requested (t.downgraded ownCount h).2 = true
  le : (t.downgraded ownCount h).2.ord ≤ (t.stateOf h).ord

end Table

section Levels
variable {l : List Lrq} {id : RequestId} {s p q : Level} {lock : Lbl} {r : Lrq} {rest : List Lrq}

theorem pendingState_append (l : List Lrq) (x : Lrq) (id : RequestId) : pendingState (l ++ [x]) id =
    if x.pending = true ∧ x.id ≠ id ∧ (pendingState l id).ord < x.requested.ord then x.requested else pendingState
      l id := by
  unfold pendingState
  rw [foldl_append]
  rfl

theorem Asked.append (h : Asked l id s) (x : Lrq) : Asked (l ++ [x]) id s := by
  obtain ⟨y, hy, hasked⟩ := h
  exact ⟨y, mem_append_left _ hy, hasked⟩

theorem pendingState_spec (l : List Lrq) (id : RequestId) :
    (pendingState l id = .none ∨ Asked l id (pendingState l id)) ∧ ∀ s, Asked l id s →
    s.ord ≤ (pendingState l id).ord := by
  induction l using reverseRecOn with
  | nil => exact ⟨.inl rfl, fun _ ⟨_, hx, _⟩ => nomatch hx⟩
  | append_singleton l x ih =>
    obtain ⟨hfound, hhighest⟩ := ih
    have hcases : ∀ s, Asked (l ++ [x]) id s → Asked l id s ∨ x.pending = true ∧ x.id ≠ id ∧ x.requested = s := by
      rintro s ⟨y, hy, hne, hp, hs⟩
      rcases mem_append.mp hy with hy | hy
      · exact .inl ⟨y, hy, hne, hp, hs⟩
      · obtain rfl := mem_singleton.mp hy
        exact .inr ⟨hp, hne, hs⟩
    rw [pendingState_append]
    split
    case isTrue hhigher =>
      obtain ⟨hp, hne, hlt⟩ := hhigher
      refine ⟨.inr ⟨x, mem_append_right _ mem_cons_self, hne, hp, rfl⟩, fun s hs => ?_⟩
      rcases hcases s hs with hold | ⟨-, -, rfl⟩
      · exact Nat.le_trans (hhighest s hold) (Nat.le_of_lt hlt)
      · exact Nat.le_refl _
    case isFalse hlower =>
      refine ⟨hfound.imp_right fun h => h.append x, fun s hs => ?_⟩
      rcases hcases s hs with hold | ⟨hp, hne, rfl⟩
      · exact hhighest s hold
      · exact Nat.le_of_not_lt fun hlt => hlower ⟨hp, hne, hlt⟩

theorem lowerTo_ord : ∀ p s : Level, (lowerTo p s.ord).ord ≤ s.ord := by decide

theorem lowerTo_blocks : ∀ p s q : Level, q.ord ≤ p.ord →
    (compatible q (lowerTo p s.ord) = false ↔ (s = .sw ∨ s = .pw ∨ s = .ex) ∧ p = .sw ∧ q = .pr) := by decide

theorem lowerTo_refused : ∀ p s held : Level, compatible s held = true →
    (compatible (lowerTo p s.ord) held = false ↔ s = .sw ∧ p = .pr ∧ held = .sw) := by decide

theorem eq_sw_of_compatible : ∀ s : Level, compatible .sw s = true → Level.sw.ord ≤ s.ord → s = .sw := by decide

theorem pendingState_eq_sw : pendingState l id = .sw ↔ Asked l id .sw ∧ ¬ Asked l id .pw ∧ ¬ Asked l id .ex := by
  obtain ⟨hfound, hhighest⟩ := pendingState_spec l id
  constructor
  · intro heq
    rw [heq] at hfound hhighest
    exact ⟨hfound.resolve_left nofun, fun h => absurd (hhighest _ h) (by decide), fun h =>
      absurd (hhighest _ h) (by decide)⟩
  · rintro ⟨hsw, hpw, hex⟩
    have hle := hhighest _ hsw
    generalize pendingState l id = p at *
    cases p with
    | sw => rfl
    | none | null | sr | pr => exact absurd hle (by decide)
    | pw => exact absurd (hfound.resolve_left nofun) hpw
    | ex => exact absurd (hfound.resolve_left nofun) hex

theorem pendingState_eq_pr : pendingState l id = .pr ↔
    Asked l id .pr ∧ ¬ Asked l id .sw ∧ ¬ Asked l id .pw ∧ ¬ Asked l id .ex := by
  obtain ⟨hfound, hhighest⟩ := pendingState_spec l id
  constructor
  · intro heq
    rw [heq] at hfound hhighest
    exact ⟨hfound.resolve_left nofun, fun h => absurd (hhighest _ h) (by decide), fun h => absurd (hhighest _ h)
      (by decide), fun h => absurd (hhighest _ h) (by decide)⟩
  · rintro ⟨hpr, hsw, hpw, hex⟩
    have hle := hhighest _ hpr
    generalize pendingState l id = p at *
    cases p with
    | pr => rfl
    | none | null | sr => exact absurd hle (by decide)
    | sw => exact absurd (hfound.resolve_left nofun) hsw
    | pw => exact absurd (hfound.resolve_left nofun) hpw
    | ex => exact absurd (hfound.resolve_left nofun) hex

theorem compatible_lockState (hc : Counts lock rest) (hall : ∀ x ∈ rest, compatible s x.state = true) :
    compatible s (lockState lock) = true := by
  by_cases hnone : lockState lock = .none
  · rw [hnone]
    exact compatible_none s
  · have hpos := lockState_counts hnone
    rw [hc _ hnone] at hpos
    obtain ⟨x, hx, hin⟩ := countP_pos_iff.mp (Nat.pos_of_ne_zero hpos)
    rw [← eq_of_beq hin]
    exact hall x hx

theorem lockState_eq_sw (hc : Counts lock rest) (hall : ∀ x ∈ rest, compatible .sw x.state = true) :
    lockState lock = .sw ↔ ∃ x ∈ rest, x.state = .sw := by
  constructor
  · intro heq
    have hpos : lock.counts (lockState lock) ≠ 0 := lockState_counts (by rw [heq]; exact nofun)
    rw [heq, hc .sw nofun] at hpos
    obtain ⟨x, hx, hin⟩ := countP_pos_iff.mp (Nat.pos_of_ne_zero hpos)
    exact ⟨x, hx, eq_of_beq hin⟩
  · rintro ⟨x, hx, hsw⟩
    refine eq_sw_of_compatible _ (compatible_lockState hc hall) (ord_le_lockState nofun ?_)
    rw [hc .sw nofun]
    exact (countP_pos_iff.mpr ⟨x, hx, by rw [Lrq.isIn, hsw]; rfl⟩).ne'

end Levels

section Grants
variable {key : LockKey} {own : Pending} {lock : Lbl}

theorem grant_granted (key : LockKey) (own : Pending) (lock : Lbl) (r : Lrq) :
    (grant key own lock r).2.2.state = r.requested ∧ (grant key own lock r).2.2.pending = false := by
  unfold grant
  dsimp only
  split
  · exact ⟨rfl, rfl⟩
  case isFalse hp => exact ⟨rfl, Bool.not_eq_true _ ▸ hp⟩

theorem Bounded.sub (h : Bounded lock) (s : Level) : Bounded (lock.sub s) :=
  h.update (Nat.mod_lt _ (by decide))

theorem postPending_sameRequests (key : LockKey) (own : Pending) (h : Bounded lock) : SameRequests lock.requests
    (postPending key own lock).1.requests := by
  unfold postPending
  split
  · exact ⟨rfl, fun _ hx _ => hx⟩
  · exact (grantPending_grants key own lock [] lock.requests h).sameRequests

end Grants

/-! ### The table -/

namespace Table
variable {t : Table} {h : Handle} {lock : Lbl} {r x : Lrq} {s : Level} {ownCount : OwnerId → Nat}

theorem request_of_mem (hl : t.locks h.key = some lock) (hnodup : (lock.requests.map (·.id)).Nodup)
    (hr : r ∈ lock.requests) (hid : r.id = h.id) : t.request h = some (lock, r) := by
  unfold request
  rw [hl]
  cases hfind : lock.requests.find? fun x => x.id = h.id with
  | none => exact absurd (decide_eq_true hid) (find?_eq_none.mp hfind r hr)
  | some x =>
    have hx : x.id = h.id := by simpa using find?_some hfind
    have heq : x = r := inj_on_of_nodup_map hnodup (mem_of_find?_eq_some hfind) hr (hx.trans hid.symm)
    rw [heq] at hfind
    exact congrArg (Option.map fun r => (lock, r)) hfind

theorem request_eq_none (hne : ∀ lock, t.locks h.key = some lock → h.id ∉ lock.requests.map (·.id)) :
    t.request h = none := by
  cases hreq : t.request h with
  | none => rfl
  | some found =>
    obtain ⟨hl, hr, hid⟩ := mem_of_request hreq
    exact absurd (hid ▸ mem_map_of_mem hr) (hne _ hl)

theorem stateOf_eq (hreq : t.request h = some (lock, r)) : t.stateOf h = r.state := by
  unfold stateOf
  rw [hreq]

theorem stateOf_setLock (own : Pending) (hnodup : (lock.requests.map (·.id)).Nodup) (hr : r ∈ lock.requests)
    (hid : r.id = h.id) : (t.setLock h.key (some lock, own)).stateOf h = r.state :=
  stateOf_eq (request_of_mem (update_self ..) hnodup hr hid)

theorem stateOf_dequeue (hi : Inv t) (hreq : t.request h = some (lock, r)) : (t.dequeue h).stateOf h = .none := by
  obtain ⟨hl, hr, hid⟩ := mem_of_request hreq
  have hnone : (t.dequeue h).request h = none := by
    refine request_eq_none fun lock' hl' hmem => ?_
    unfold dequeue at hl'
    rw [hreq] at hl'
    change update t.locks h.key (releaseRequest h.key t.ownPending lock r).1 h.key = some lock' at hl'
    rw [update_self, releaseRequest_eq] at hl'
    obtain ⟨hrequests, hinv⟩ := uncounted_unlinked_spec (hi.locks _ _ hl) hr
    split at hl'
    · exact nomatch hl'
    · rw [← Option.some.inj hl', (postPending_spec hinv).2.2.ids, hrequests] at hmem
      obtain ⟨x, hx, hsame⟩ := mem_map.mp hmem
      exact of_decide_eq_true (mem_filter.mp hx).2 (hsame.trans hid.symm)
  unfold stateOf
  rw [hnone]

/-- A request is left with the level asked for if that suits what others hold, and else as it was. -/
theorem stateOf_convert (hi : Inv t) (hreq : t.request h = some (lock, r)) (type : Level) :
    (t.convert h type false).stateOf h = if compatible type (lockState (lock.sub r.state)) then type else r.state := by
  obtain ⟨hl, hr, hid⟩ := mem_of_request hreq
  have hinv := hi.locks _ _ hl
  obtain ⟨a, b, hsplit⟩ := append_of_mem hr
  have hnodup : ((a ++ r :: b).map (·.id)).Nodup := hsplit ▸ hinv.ids.nodup
  have hset : ∀ x : Lrq, x.id = r.id → x ∈ setRequest x lock.requests ∧ (setRequest x lock.requests).map (·.id) =
      lock.requests.map (·.id) := by
    intro x hx
    rw [hsplit, setRequest_middle hnodup hx]
    exact ⟨mem_append_right _ mem_cons_self, by simp [hx]⟩
  unfold convert
  rw [hreq]
  by_cases hc : compatible type (lockState (lock.sub r.state)) = true
  · rw [if_pos hc]
    unfold internalConvert
    dsimp only
    rw [if_pos hc]
    obtain ⟨hstate, hpending⟩ := grant_granted h.key t.ownPending (lock.sub r.state) { r with requested := type }
    have hsame := grant_id h.key t.ownPending (lock.sub r.state) { r with requested := type }
    have hbounded : Bounded { (grant h.key t.ownPending (lock.sub r.state) { r with requested := type }).1 with
        requests := setRequest (grant h.key t.ownPending (lock.sub r.state) { r with requested := type }).2.2
          lock.requests } :=
      (hinv.bounded.sub r.state).grant
    have hrequests := grant_requests h.key t.ownPending (lock.sub r.state) { r with requested := type }
    generalize grant h.key t.ownPending (lock.sub r.state) { r with requested := type } = g at *
    obtain ⟨lock₁, own₁, r₁⟩ := g
    obtain ⟨hmem, hids⟩ := hset r₁ hsame
    rw [hrequests]
    have hposted : SameRequests (setRequest r₁ lock.requests)
        (postPending h.key own₁ { lock₁ with requests := setRequest r₁ lock.requests }).1.requests :=
      postPending_sameRequests h.key own₁ hbounded
    have hkept := hposted.kept r₁ hmem hpending
    exact (stateOf_setLock _ (hposted.ids ▸ hids ▸ hinv.ids.nodup) hkept (hsame.trans hid)).trans hstate
  · rw [if_neg hc]
    unfold internalConvert
    dsimp only
    rw [if_neg hc]
    obtain ⟨hmem, hids⟩ := hset { r with requested := r.state } rfl
    have hleft : (t.setLock h.key (some { (lock.sub r.state).add r.state with
        requests := setRequest { r with requested := r.state } lock.requests }, t.ownPending)).stateOf h = r.state :=
      stateOf_setLock (r := { r with requested := r.state }) _ (hids ▸ hinv.ids.nodup) hmem hid
    exact hleft

theorem blocks_iff : (∃ x ∈ lock.requests, x.id ≠ r.id ∧ x.pending = true ∧
    compatible x.requested (downgradeState lock r) = false) ↔ r.BetweenReadAndWrite lock.requests := by
  have hspec := pendingState_spec lock.requests r.id
  constructor
  · rintro ⟨x, hx, hne, hp, hblocked⟩
    have hle := hspec.2 _ ⟨x, hx, hne, hp, rfl⟩
    obtain ⟨hstate, hsw, hpr⟩ := (lowerTo_blocks _ r.state x.requested hle).mp hblocked
    exact ⟨hstate, ⟨x, hx, hne, hp, hpr⟩, pendingState_eq_sw.mp hsw⟩
  · rintro ⟨hstate, ⟨x, hx, hne, hp, hpr⟩, hhighest⟩
    have hsw := pendingState_eq_sw.mpr hhighest
    refine ⟨x, hx, hne, hp, (lowerTo_blocks _ r.state x.requested ?_).mpr ⟨hstate, hsw, hpr⟩⟩
    rw [hsw, hpr]
    decide

theorem refused_iff (hi : Inv t) (hreq : t.request h = some (lock, r)) :
    compatible (downgradeState lock r) (lockState (lock.sub r.state)) = false ↔ r.OneOfWriters lock.requests := by
  obtain ⟨hl, hr, -⟩ := mem_of_request hreq
  have hinv := hi.locks _ _ hl
  obtain ⟨a, b, hsplit⟩ := append_of_mem hr
  have hperm : lock.requests.Perm (r :: (a ++ b)) := hsplit ▸ perm_middle
  have hcons := hinv.perm hperm
  have hcompat : ∀ x ∈ a ++ b, compatible r.state x.state = true := (pairwise_cons.mp hcons.compat).1
  have hne := ne_of_nodup (hsplit ▸ hinv.ids.nodup : ((a ++ r :: b).map (·.id)).Nodup)
  have hother : (∃ x ∈ a ++ b, x.state = .sw) ↔ ∃ x ∈ lock.requests, x.id ≠ r.id ∧ x.state = .sw := by
    constructor
    · rintro ⟨x, hx, hsw⟩
      exact ⟨x, hperm.mem_iff.mpr (mem_cons_of_mem _ hx), hne x hx, hsw⟩
    · rintro ⟨x, hx, hid, hsw⟩
      refine ⟨x, ?_, hsw⟩
      rcases mem_cons.mp (hperm.mem_iff.mp hx) with rfl | hmem
      · exact absurd rfl hid
      · exact hmem
  unfold downgradeState
  rw [lowerTo_refused _ r.state _ (compatible_lockState hcons.counts_sub hcompat), Lrq.OneOfWriters, ← hother,
    pendingState_eq_pr]
  constructor
  · rintro ⟨hstate, hpending, hheld⟩
    exact ⟨hstate, (lockState_eq_sw hcons.counts_sub (hstate ▸ hcompat)).mp hheld, hpending⟩
  · rintro ⟨hstate, hheld, hpending⟩
    exact ⟨hstate, hpending, (lockState_eq_sw hcons.counts_sub (hstate ▸ hcompat)).mpr hheld⟩

theorem compatible_of_low : ∀ q s : Level, s = .none ∨ s = .null → compatible q s = true := by decide

theorem downgraded_eq (hreq : t.request h = some (lock, r)) (hcount : ownCount r.owner ≠ 0) : t.downgraded ownCount h =
    if downgradeState lock r = .none ∨ downgradeState lock r = .null then (t.dequeue h, .none)
    else (t.convert h (downgradeState lock r) false, downgradeState lock r) := by
  unfold downgraded downgrade
  rw [hreq]
  dsimp only
  rw [if_neg hcount]
  split <;> rfl

/-- `downgrade` does what it is for unless its owner is being shut down, others wait for both `LCK_PR` and `LCK_SW`, or
    another request holds `LCK_SW` beside this one. -/
theorem downgrades_iff (hi : Inv t) (hreq : t.request h = some (lock, r)) (hgranted : r.state ≠ .none) :
    t.Downgrades ownCount h ↔ ownCount r.owner ≠ 0 ∧ ¬ r.BetweenReadAndWrite lock.requests ∧
      ¬ r.OneOfWriters lock.requests := by
  by_cases hcount : ownCount r.owner = 0
  · -- the state is told as `LCK_none`, and the request stays
    refine ⟨fun hdone => absurd ?_ hgranted, fun hcond => absurd hcount hcond.1⟩
    have hleft := hdone.left
    unfold downgraded at hleft
    rw [hreq] at hleft
    dsimp only at hleft
    rw [if_pos hcount] at hleft
    exact (stateOf_eq hreq).symm.trans hleft
  · have heq := downgraded_eq (h := h) hreq hcount
    rw [← blocks_iff, ← refused_iff hi hreq]
    by_cases hlow : downgradeState lock r = .none ∨ downgradeState lock r = .null
    · rw [if_pos hlow] at heq
      have hnever : ∀ q, compatible q (downgradeState lock r) = true := fun q => compatible_of_low q _ hlow
      refine ⟨fun _ => ⟨hcount, fun ⟨x, _, _, _, hblocked⟩ => ?_, fun hrefused => ?_⟩, fun _ =>
        ⟨?_, fun _ _ _ x _ _ _ => ?_, ?_⟩⟩
      · exact Bool.noConfusion (hblocked.symm.trans (hnever _))
      · rw [compatible_symm, hnever] at hrefused
        exact Bool.noConfusion hrefused
      · rw [heq]
        exact stateOf_dequeue hi hreq
      · rw [heq]
        exact compatible_none _
      · rw [heq]
        exact Nat.zero_le _
    · rw [if_neg hlow] at heq
      have hleft := stateOf_convert hi hreq (downgradeState lock r)
      constructor
      · intro hdone
        have hstate := hdone.left
        have hunblocks := hdone.unblocks lock r hreq
        rw [heq] at hstate hunblocks
        refine ⟨hcount, fun ⟨x, hx, hne, hp, hblocked⟩ => ?_, fun hrefused => ?_⟩
        · exact Bool.noConfusion (hblocked.symm.trans (hunblocks x hx hne hp))
        · dsimp only at hstate
          rw [hleft, hrefused] at hstate
          obtain ⟨hsw, -, hpr⟩ := (refused_iff hi hreq).mp hrefused
          rw [downgradeState, pendingState_eq_pr.mpr hpr, hsw] at hstate
          exact absurd hstate (by decide)
      · rintro ⟨-, hunblocked, hunrefused⟩
        refine ⟨?_, fun lock' r' hreq' x hx hne hp => ?_, ?_⟩
        · rw [heq]
          rw [hleft, if_pos (Bool.not_eq_false _ ▸ hunrefused)]
        · obtain ⟨rfl, rfl⟩ := Prod.mk.inj (Option.some.inj (hreq.symm.trans hreq'))
          rw [heq]
          exact Bool.not_eq_false _ ▸ fun hblocked => hunblocked ⟨x, hx, hne, hp, hblocked⟩
        · rw [heq, stateOf_eq hreq]
          exact lowerTo_ord _ r.state

def readerWaits : List Op := [.enqueue 0 someKey .pw false none, .enqueue 1 someKey .pr true none]

theorem inv_of_roomy {ops : List Op} (hrun : Run RoomyStep Table.empty ops t) : Inv t :=
  hrun.invariant (fun _ _ _ (hi : Inv _) hs => hi.step hs) Inv.empty

theorem downgrades_iff_readerWaits : (readerWaits.foldl after Table.empty).Downgrades (fun _ => 1) ⟨someKey, 0⟩ := by
  have hrun : Run RoomyStep Table.empty readerWaits (readerWaits.foldl after Table.empty) :=
    run_of_allAllowed (by decide)
  refine (downgrades_iff (r := ⟨0, 0, .pw, .pw, false, false⟩) (inv_of_roomy hrun) rfl (by decide)).mpr ⟨?_, ?_, ?_⟩
  all_goals decide

/-- A reader waits for two writers; one of them is told that it holds `LCK_PR` now. -/
def twoWriters : List Op :=
  [.enqueue 0 someKey .sw false none, .enqueue 1 someKey .sw false none, .enqueue 2 someKey .pr true none]

theorem twoWriters_not_downgraded : ¬ ∀ (ops : List Op) (t : Table), Run RoomyStep Table.empty ops t →
    ∀ (ownCount : OwnerId → Nat) (h : Handle), (∀ owner, ownCount owner ≠ 0) → t.stateOf h ≠ .none →
    t.Downgrades ownCount h := by
  intro hall
  have hdone := hall twoWriters _ (run_of_allAllowed (by decide)) (fun _ => 1) ⟨someKey, 0⟩ (fun _ =>
    Nat.one_ne_zero) (by decide)
  have htold : ((twoWriters.foldl after Table.empty).downgraded (fun _ => 1) ⟨someKey, 0⟩).2 = .pr := by decide
  have hholds : ((twoWriters.foldl after Table.empty).downgraded (fun _ => 1) ⟨someKey, 0⟩).1.stateOf ⟨someKey,
      0⟩ = .sw := by
    decide
  exact absurd (hholds.symm.trans (hdone.left.trans htold)) (by decide)

end Table
end Firebird.Lock
