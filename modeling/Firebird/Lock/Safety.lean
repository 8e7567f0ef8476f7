import Firebird.Lock.Table

/-! # One lock

What a lock keeps while its requests are granted, converted, rejected and released: the counters count the requests,
the state is the highest one granted, granted states are compatible, and the requests that wait are those in the
pending queues. -/

namespace Firebird.Lock
open List Function

/-- The request is granted at this level. -/
def Lrq.isIn (s : Level) (r : Lrq) : Bool := r.state == s

/-- The request is granted at this level or asks for it. -/
def Lrq.mayBe (s : Level) (r : Lrq) : Bool := r.state == s || r.requested == s

/-- The request is the one that waits in the owner's queue under this id. -/
def Lrq.waitsAs (o : OwnerId) (id : RequestId) (r : Lrq) : Bool := r.pending && (r.id == id && r.owner == o)

/-- Different addresses of blocks allocated so far. -/
structure Ids (next : RequestId) (ids : List RequestId) : Prop where
  nodup : ids.Nodup
  lt : ∀ id ∈ ids, id < next

/-- The states granted to the two requests are compatible. -/
def Lrq.Compatible (a b : Lrq) : Prop := compatible a.state b.state = true

/-- The requests of a lock, their owners' queues and the count of those that wait. -/
structure QueueInv (key : LockKey) (next : RequestId) (own : Pending) (pendingCount : Nat) (l : List Lrq) : Prop where
  ids : Ids next (l.map (·.id))
  room : ∀ s, s ≠ .none → l.countP (·.mayBe s) < ushortSize
  roomPending : l.countP (·.pending) < ushortSize
  pendingCount : pendingCount = l.countP (·.pending)
  own : ∀ o id, (own o).count ⟨key, id⟩ = l.countP (·.waitsAs o id)
  compat : l.Pairwise Lrq.Compatible

def Counts (lock : Lbl) (l : List Lrq) : Prop := ∀ s, s ≠ .none → lock.counts s = l.countP (·.isIn s)

structure LockInv (key : LockKey) (next : RequestId) (own : Pending) (lock : Lbl) (l : List Lrq) : Prop extends
    QueueInv key next own lock.pendingLrqCount l where
  counts : Counts lock l
  state : lock.state = lockState lock

section Levels

theorem compatible_symm (a b : Level) : compatible a b = compatible b a := by
  revert a b
  decide

instance : Std.Symm Lrq.Compatible := ⟨fun a b h => (compatible_symm b.state a.state).trans h⟩

theorem compatible_none (a : Level) : compatible a .none = true := by
  revert a
  decide

theorem compatible_of_highest : ∀ req hi s : Level, compatible req hi = true → compatible s hi = true →
    s.ord ≤ hi.ord → compatible req s = true := by decide

theorem lockState_counts {lock : Lbl} (h : lockState lock ≠ .none) : lock.counts (lockState lock) ≠ 0 := by
  unfold lockState at h ⊢
  split_ifs at h ⊢ <;> first | assumption | exact absurd rfl h

theorem ord_le_lockState {lock : Lbl} {s : Level} (hs : s ≠ .none) (h : lock.counts s ≠ 0) :
    s.ord ≤ (lockState lock).ord := by
  unfold lockState
  cases s <;> first | exact absurd rfl hs | (split_ifs <;> decide)

theorem lockState_congr_zero {lock lock' : Lbl}
    (h : ∀ s, s ≠ .none → (lock'.counts s = 0 ↔ lock.counts s = 0)) : lockState lock' = lockState lock := by
  unfold lockState
  simp [h .ex nofun, h .pw nofun, h .sw nofun, h .pr nofun, h .sr nofun, h .null nofun]

theorem lockState_congr {lock lock' : Lbl} (h : ∀ s, s ≠ .none → lock'.counts s = lock.counts s) :
    lockState lock' = lockState lock :=
  lockState_congr_zero fun s hs => by rw [h s hs]

end Levels

section Counting
variable {lock : Lbl} {l rest : List Lrq} {r x : Lrq} {req s : Level}

theorem compatible_of_lockState (hc : Counts lock l) (hp : l.Pairwise Lrq.Compatible)
    (h : compatible req (lockState lock) = true) (hx : x ∈ l) : compatible req x.state = true := by
  by_cases hnone : x.state = .none
  · rw [hnone]
    exact compatible_none req
  · have hpos : lock.counts x.state ≠ 0 := by
      rw [hc _ hnone]
      exact (countP_pos_iff.mpr ⟨x, hx, by simp [Lrq.isIn]⟩).ne'
    have hord := ord_le_lockState hnone hpos
    have hhi : lockState lock ≠ .none := by
      intro hhi
      rw [hhi] at hord
      revert hord hnone
      cases x.state <;> decide
    have hhold := lockState_counts hhi
    rw [hc _ hhi] at hhold
    obtain ⟨y, hy, hys⟩ := countP_pos_iff.mp (Nat.pos_of_ne_zero hhold)
    have hys : y.state = lockState lock := by simpa [Lrq.isIn] using hys
    by_cases hxy : x = y
    · rw [hxy, hys]
      exact h
    · have hcompat : compatible x.state y.state = true := hp.forall hx hy hxy
      exact compatible_of_highest req _ _ h (hys ▸ hcompat) hord

theorem increment_of_lt {n : Nat} (h : n + 1 < ushortSize) : increment n = n + 1 := Nat.mod_eq_of_lt h

theorem decrement_succ {n : Nat} (h : n < ushortSize) : decrement (n + 1) = n := by
  unfold decrement ushortSize at *
  omega

theorem countP_isIn_le (l : List Lrq) (s : Level) : l.countP (·.isIn s) ≤ l.countP (·.mayBe s) :=
  countP_mono_left fun x _ hx => by simp_all [Lrq.isIn, Lrq.mayBe]

end Counting

section Granting
variable {key : LockKey} {next : RequestId} {own : Pending} {lock lock₀ : Lbl} {n : Nat}
  {l l' rest : List Lrq} {r : Lrq}

theorem QueueInv.perm (h : QueueInv key next own n l) (hp : l.Perm l') : QueueInv key next own n l' where
  ids := ⟨(hp.map _).nodup_iff.mp h.ids.nodup, fun id hid => h.ids.lt id ((hp.map _).mem_iff.mpr hid)⟩
  room s hs := hp.countP_eq _ ▸ h.room s hs
  roomPending := hp.countP_eq _ ▸ h.roomPending
  pendingCount := hp.countP_eq _ ▸ h.pendingCount
  own o id := hp.countP_eq _ ▸ h.own o id
  compat := hp.pairwise h.compat fun hab => Std.Symm.symm _ _ hab

theorem Counts.perm (h : Counts lock l) (hp : l.Perm l') : Counts lock l' := fun s hs => by
  rw [h s hs, hp.countP_eq]

theorem LockInv.perm (h : LockInv key next own lock l) (hp : l.Perm l') : LockInv key next own lock l' where
  toQueueInv := h.toQueueInv.perm hp
  counts := h.counts.perm hp
  state := h.state

theorem LockInv.counts_sub (h : LockInv key next own lock (r :: rest)) : Counts (lock.sub r.state) rest := by
  intro s hs
  have hcount := h.counts s hs
  have hroom := (countP_isIn_le (r :: rest) s).trans_lt (h.room s hs)
  unfold Lbl.sub
  by_cases hr : s = r.state
  · subst hr
    rw [countP_cons_of_pos (by simp [Lrq.isIn])] at hcount hroom
    dsimp only
    rw [update_self, hcount, decrement_succ (by omega)]
  · rw [countP_cons_of_neg (by simpa [Lrq.isIn] using fun h => hr h.symm)] at hcount
    dsimp only
    rw [update_of_ne hr, hcount]

theorem Counts.add {s : Level} (h : Counts lock rest) (hr : r.state = s)
    (hroom : s ≠ .none → (r :: rest).countP (·.isIn s) < ushortSize) : Counts (lock.add s) (r :: rest) := by
  intro u hu
  unfold Lbl.add
  by_cases hus : u = s
  · subst hus
    have hlt := hroom hu
    rw [countP_cons_of_pos (by simp [Lrq.isIn, hr])] at hlt ⊢
    dsimp only
    rw [update_self, h u hu, increment_of_lt hlt]
  · rw [countP_cons_of_neg (by simpa [Lrq.isIn, hr] using fun h => hus h.symm)]
    dsimp only
    rw [update_of_ne hus, h u hu]

theorem removePending_count (h : QueueInv key next own n (r :: rest)) (hr : r.pending = true) (o : OwnerId)
    (id : RequestId) :
    (update own r.owner ((own r.owner).erase ⟨key, r.id⟩) o).count ⟨key, id⟩ =
      rest.countP (·.waitsAs o id) := by
  have hown := h.own o id
  by_cases ho : o = r.owner
  · subst ho
    rw [update_self, count_erase, hown]
    by_cases hid : id = r.id
    · simp [Lrq.waitsAs, hr, hid]
    · simp [Lrq.waitsAs, Ne.symm hid]
  · rw [update_of_ne ho, hown]
    simp [Lrq.waitsAs, Ne.symm ho]

theorem mayBe_grant {s : Level} {b : Bool} (h : ({ r with state := r.requested, pending := b } : Lrq).mayBe s = true) :
    r.mayBe s = true := by
  simp only [Lrq.mayBe, Bool.or_self] at h
  simp [Lrq.mayBe, h]

theorem countP_cons_le {p : Lrq → Bool} {r' : Lrq} (h : p r' = true → p r = true) :
    (r' :: rest).countP p ≤ (r :: rest).countP p := by
  rw [countP_cons, countP_cons]
  split_ifs with h₁ h₂
  · exact Nat.le_refl _
  · exact absurd (h h₁) h₂
  · omega
  · exact Nat.le_refl _

/-- `grant` keeps what holds of a lock when the level asked for is compatible with all the other requests. -/
theorem QueueInv.grant (h : QueueInv key next own lock₀.pendingLrqCount (r :: rest)) (hc : Counts lock₀ rest)
    (hcompat : ∀ x ∈ rest, compatible r.requested x.state = true) :
    LockInv key next (grant key own lock₀ r).2.1 (grant key own lock₀ r).1 ((grant key own lock₀ r).2.2 :: rest) := by
  have hroom : ∀ (b : Bool) (s : Level), s ≠ .none →
      (({ r with state := r.requested, pending := b } : Lrq) :: rest).countP (·.mayBe s) < ushortSize :=
    fun b s hs => (countP_cons_le mayBe_grant).trans_lt (h.room s hs)
  have hcounts : ∀ b : Bool, Counts (lock₀.add r.requested) (({ r with state := r.requested, pending := b } : Lrq) ::
      rest) :=
    fun b => hc.add rfl fun hs => (countP_isIn_le _ _).trans_lt (hroom b _ hs)
  have hpairwise : ∀ b : Bool, (({ r with state := r.requested, pending := b } : Lrq) :: rest).Pairwise
      Lrq.Compatible :=
    fun b => pairwise_cons.mpr ⟨hcompat, (pairwise_cons.mp h.compat).2⟩
  unfold Lock.grant
  by_cases hp : r.pending = true
  · have hlt := h.roomPending
    have hcount := h.pendingCount
    rw [countP_cons_of_pos hp] at hlt hcount
    rw [if_pos hp]
    exact {
      ids := h.ids
      room := hroom false
      roomPending := by
        exact Nat.lt_of_succ_lt hlt
      pendingCount := by
        rw [countP_cons_of_neg Bool.false_ne_true]
        show decrement lock₀.pendingLrqCount = _
        rw [hcount, decrement_succ (Nat.lt_of_succ_lt hlt)]
      own := fun o id => by
        exact removePending_count h hp o id
      compat := hpairwise false
      counts := hcounts false
      state := lockState_congr fun _ _ => rfl }
  · have hpf : r.pending = false := by simpa using hp
    have hr : ({ r with state := r.requested } : Lrq) = { r with state := r.requested, pending := false } := by
      rw [← hpf]
    rw [hr]
    exact {
      ids := h.ids
      room := hroom false
      roomPending := by
        have hlt := h.roomPending
        rw [countP_cons_of_neg hp] at hlt
        exact hlt
      pendingCount := by
        have hcount := h.pendingCount
        rw [countP_cons_of_neg hp] at hcount
        exact hcount
      own := fun o id => by
        have hown := h.own o id
        rw [countP_cons_of_neg (by simp [Lrq.waitsAs, hpf])] at hown
        exact hown
      compat := hpairwise false
      counts := hcounts false
      state := lockState_congr fun _ _ => rfl }

/-! ### The cascade of grants -/

structure SameLock (lock lock' : Lbl) : Prop where
  counts : ∀ s, s ≠ .none → lock'.counts s = lock.counts s
  state : lock'.state = lock.state
  pendingLrqCount : lock'.pendingLrqCount = lock.pendingLrqCount

def without (lock : Lbl) (r : Lrq) : Lbl := if r.state ≠ .none then lock.sub r.state else lock

def others (lock : Lbl) (r : Lrq) : Level := if r.state ≠ .none then lockState (lock.sub r.state) else lock.state

inductive Grants (key : LockKey) : Lbl → Pending → List Lrq → Lbl → Pending → List Lrq → Prop
  | done {lock lock' : Lbl} {own : Pending} {l : List Lrq} : SameLock lock lock' → Grants key lock own l lock' own l
  | grant {lock lock' : Lbl} {own own' : Pending} {a b l' : List Lrq} {r : Lrq} : r.pending = true →
      compatible r.requested (others lock r) = true →
      Grants key (grant key own (without lock r) r).1 (grant key own (without lock r) r).2.1
        (a ++ (grant key own (without lock r) r).2.2 :: b) lock' own' l' →
      Grants key lock own (a ++ r :: b) lock' own' l'

def Bounded (lock : Lbl) : Prop := ∀ s, s ≠ .none → lock.counts s < ushortSize

theorem Bounded.update (h : Bounded lock) {s : Level} {n : Nat} (hn : n < ushortSize) :
    Bounded { lock with counts := update lock.counts s n } := by
  intro u hu
  by_cases hus : u = s
  · subst hus
    simpa using hn
  · simpa [update_of_ne hus] using h u hu

theorem Bounded.without (h : Bounded lock) (r : Lrq) : Bounded (without lock r) := by
  unfold Lock.without
  split
  · exact h.update (Nat.mod_lt _ (by decide))
  · exact h

theorem Bounded.grant (h : Bounded lock) : Bounded (grant key own lock r).1 := by
  have hadd : Bounded (lock.add r.requested) := h.update (Nat.mod_lt _ (by decide))
  unfold Lock.grant
  dsimp only
  split
  · exact hadd
  · exact hadd

theorem Bounded.sameLock_sub_add (h : Bounded lock) {s : Level} (hs : s ≠ .none) :
    SameLock lock ((lock.sub s).add s) := by
  refine ⟨fun u _ => ?_, rfl, rfl⟩
  have hlt := h s hs
  unfold Lbl.add Lbl.sub
  dsimp only
  by_cases hus : u = s
  · subst hus
    rw [update_self, update_self]
    unfold increment decrement ushortSize at *
    omega
  · rw [update_of_ne hus, update_of_ne hus]

theorem grantPending_grants (key : LockKey) (own : Pending) (lock : Lbl) (a l : List Lrq) (h : Bounded lock) :
    Grants key lock own (a ++ l) (grantPending key own lock l).1 (grantPending key own lock l).2.1
      (a ++ (grantPending key own lock l).2.2) := by
  induction l generalizing own lock a with
  | nil => exact .done ⟨fun _ _ => rfl, rfl, rfl⟩
  | cons r rest ih =>
    have hskip := ih own lock (a ++ [r]) h
    have hgrant := ih (Lock.grant key own (without lock r) r).2.1 (Lock.grant key own (without lock r) r).1
      (a ++ [(Lock.grant key own (without lock r) r).2.2]) (h.without r).grant
    unfold grantPending
    by_cases hp : r.pending = true
    · by_cases hs : r.state = .none
      · by_cases hcompat : compatible r.requested lock.state = true
        · simp only [hp, hs, hcompat, Bool.not_true, Bool.false_eq_true, if_false, if_true, ne_eq, not_true_eq_false]
          refine .grant hp (by simpa [others, hs] using hcompat) ?_
          simpa [without, hs] using hgrant
        · simp only [hp, hs, hcompat, Bool.not_true, Bool.false_eq_true, if_false, ne_eq, not_true_eq_false]
          exact .done ⟨fun _ _ => rfl, rfl, rfl⟩
      · by_cases hcompat : compatible r.requested (lockState (lock.sub r.state)) = true
        · simp only [hp, hs, hcompat, Bool.not_true, Bool.false_eq_true, if_false, if_true, ne_eq, not_false_eq_true]
          refine .grant hp (by simpa [others, hs] using hcompat) ?_
          simpa [without, hs] using hgrant
        · simp only [hp, hs, hcompat, Bool.not_true, Bool.false_eq_true, if_false, if_true, ne_eq, not_false_eq_true]
          exact .done (h.sameLock_sub_add hs)
    · simp only [hp, Bool.not_false, if_true]
      simpa using hskip

theorem LockInv.counts_without (h : LockInv key next own lock (r :: rest)) : Counts (without lock r) rest := by
  unfold without
  split
  · exact h.counts_sub
  · next hs =>
    intro s hne
    rw [h.counts s hne, countP_cons_of_neg]
    simpa [Lrq.isIn, not_not.mp hs] using hne.symm

theorem LockInv.grant_without (h : LockInv key next own lock (r :: rest))
    (hcompat : compatible r.requested (others lock r) = true) :
    LockInv key next (Lock.grant key own (without lock r) r).2.1 (Lock.grant key own (without lock r) r).1
      ((Lock.grant key own (without lock r) r).2.2 :: rest) := by
  have hpend : (without lock r).pendingLrqCount = lock.pendingLrqCount := by
    unfold without
    split <;> rfl
  refine QueueInv.grant (hpend ▸ h.toQueueInv) h.counts_without fun x hx => ?_
  refine compatible_of_lockState h.counts_without (pairwise_cons.mp h.compat).2 ?_ hx
  unfold others at hcompat
  unfold without
  split at hcompat
  · rename_i hs
    rw [if_pos hs]
    exact hcompat
  · rename_i hs
    rw [if_neg hs, ← h.state]
    exact hcompat

theorem LockInv.same {lock' : Lbl} (h : LockInv key next own lock l) (hs : SameLock lock lock') :
    LockInv key next own lock' l where
  toQueueInv := hs.pendingLrqCount ▸ h.toQueueInv
  counts s hne := (hs.counts s hne).trans (h.counts s hne)
  state := by rw [hs.state, h.state, lockState_congr hs.counts]

theorem LockInv.bounded (h : LockInv key next own lock l) : Bounded lock := fun s hs => by
  rw [h.counts s hs]
  exact (countP_isIn_le _ _).trans_lt (h.room s hs)

theorem LockInv.grants {lock' : Lbl} {own' : Pending} (h : LockInv key next own lock l)
    (hg : Grants key lock own l lock' own' l') : LockInv key next own' lock' l' := by
  induction hg with
  | done hs => exact h.same hs
  | grant hp hcompat _ ih => exact ih (((h.perm perm_middle).grant_without hcompat).perm perm_middle.symm)

def Frame (key : LockKey) (own own' : Pending) : Prop :=
  ∀ o h, h.key ≠ key → (own' o).count h = (own o).count h

structure SameRequests (l l' : List Lrq) : Prop where
  ids : l'.map (·.id) = l.map (·.id)
  kept : ∀ x ∈ l, x.pending = false → x ∈ l'

theorem Frame.refl (key : LockKey) (own : Pending) : Frame key own own := fun _ _ _ => rfl

theorem Frame.trans {own' own'' : Pending} (h : Frame key own own') (h' : Frame key own' own'') : Frame key own own'' :=
  fun o x hx => (h' o x hx).trans (h o x hx)

theorem frame_update {o : OwnerId} {q : List Handle} (h : ∀ x : Handle, x.key ≠ key → q.count x = (own o).count x) :
    Frame key own (update own o q) := by
  intro u x hx
  by_cases hu : u = o
  · subst hu
    rw [update_self]
    exact h x hx
  · rw [update_of_ne hu]

section
variable (key : LockKey) (own : Pending)

theorem frame_erase (o : OwnerId) (id : RequestId) :
    Frame key own (update own o ((own o).erase ⟨key, id⟩)) := by
  refine frame_update fun x hx => ?_
  rw [count_erase]
  have hne : (⟨key, id⟩ : Handle) ≠ x := fun h => hx (h ▸ rfl)
  simp [hne]

theorem frame_append (o : OwnerId) (id : RequestId) : Frame key own (update own o (own o ++ [⟨key, id⟩])) := by
  refine frame_update fun x hx => ?_
  have hne : (⟨key, id⟩ : Handle) ≠ x := fun h => hx (h ▸ rfl)
  simp [count_append, hne]

theorem frame_grant (lock : Lbl) (r : Lrq) : Frame key own (grant key own lock r).2.1 := by
  unfold Lock.grant
  dsimp only
  split
  · exact frame_erase key own r.owner r.id
  · exact .refl key own

theorem grant_id (lock : Lbl) (r : Lrq) : (grant key own lock r).2.2.id = r.id := by
  unfold Lock.grant
  dsimp only
  split <;> rfl

theorem grant_requests (lock : Lbl) (r : Lrq) : (grant key own lock r).1.requests = lock.requests := by
  unfold Lock.grant
  dsimp only
  split <;> rfl

end

theorem Grants.frame {lock' : Lbl} {own' : Pending} (h : Grants key lock own l lock' own' l') : Frame key own own' := by
  induction h with
  | done => exact .refl key _
  | grant _ _ _ ih => exact Frame.trans (frame_grant _ _ _ _) ih

theorem Grants.sameRequests {lock' : Lbl} {own' : Pending} (h : Grants key lock own l lock' own' l') :
    SameRequests l l' := by
  induction h with
  | done => exact ⟨rfl, fun x hx _ => hx⟩
  | grant hp _ _ ih =>
    refine ⟨by rw [ih.ids]; simp [grant_id], fun x hx hpx => ih.kept x ?_ hpx⟩
    rw [mem_append, mem_cons] at hx ⊢
    rcases hx with hx | rfl | hx
    · exact .inl hx
    · rw [hp] at hpx
      cases hpx
    · exact .inr (.inr hx)

theorem postPending_spec (h : LockInv key next own lock lock.requests) :
    LockInv key next (postPending key own lock).2 (postPending key own lock).1 (postPending key own lock).1.requests ∧
    Frame key own (postPending key own lock).2 ∧
    SameRequests lock.requests (postPending key own lock).1.requests := by
  unfold postPending
  split
  · exact ⟨h, .refl key own, rfl, fun x hx _ => hx⟩
  · have hg := grantPending_grants key own lock [] lock.requests h.bounded
    have hinv := h.grants hg
    exact ⟨⟨hinv.toQueueInv, hinv.counts, hinv.state⟩, hg.frame, hg.sameRequests⟩

end Granting

/-! ### The operations -/

section Operations
variable {key : LockKey} {next : RequestId} {own : Pending} {lock : Lbl} {n : Nat} {a b l rest : List Lrq} {r r' : Lrq}

section
variable (h : ((a ++ r :: b).map (·.id)).Nodup)
include h

theorem ne_of_nodup : ∀ x ∈ a ++ b, x.id ≠ r.id := by
  have hp : ((r :: (a ++ b)).map (·.id)).Nodup := (perm_middle.map _).nodup_iff.mp h
  rw [map_cons, nodup_cons] at hp
  exact fun x hx hid => hp.1 (hid ▸ mem_map_of_mem hx)

theorem removeRequest_middle : removeRequest r.id (a ++ r :: b) = a ++ b := by
  have hne := ne_of_nodup h
  unfold removeRequest
  rw [filter_append, filter_cons_of_neg (by simp), ← filter_append, filter_eq_self]
  intro x hx
  simpa using hne x hx

theorem setRequest_middle (hid : r'.id = r.id) : setRequest r' (a ++ r :: b) = a ++ r' :: b := by
  have hne := ne_of_nodup h
  have hmap : ∀ c : List Lrq, (∀ x ∈ c, x.id ≠ r.id) → c.map (fun x => if x.id = r'.id then r' else x) = c := by
    intro c hc
    conv_rhs => rw [← map_id c]
    exact map_congr_left fun x hx => if_neg (hid ▸ hc x hx)
  unfold setRequest
  rw [map_append, map_cons, hmap a fun x hx => hne x (mem_append_left b hx),
    hmap b fun x hx => hne x (mem_append_right a hx), if_pos hid.symm]

end

theorem setRequest_perm (h : (l.map (·.id)).Nodup) (hr : r ∈ l) :
    ∃ rest, l.Perm (r :: rest) ∧ (∀ x : Lrq, x.id = r.id → (setRequest x l).Perm (x :: rest)) ∧
      (removeRequest r.id l).Perm rest := by
  obtain ⟨a, b, rfl⟩ := append_of_mem hr
  exact ⟨a ++ b, perm_middle, fun x hx => setRequest_middle h hx ▸ perm_middle,
    removeRequest_middle h ▸ .refl _⟩

theorem QueueInv.tail (h : QueueInv key next own n (r :: rest)) (hp : r.pending = false) :
    QueueInv key next own n rest where
  ids := ⟨(nodup_cons.mp h.ids.nodup).2, fun id hid => h.ids.lt id (mem_cons_of_mem _ hid)⟩
  room s hs := (Sublist.countP_le (sublist_cons_self r rest)).trans_lt (h.room s hs)
  roomPending := (Sublist.countP_le (sublist_cons_self r rest)).trans_lt h.roomPending
  pendingCount := by
    have hcount := h.pendingCount
    rwa [countP_cons_of_neg (by simp [hp])] at hcount
  own o id := by
    have hown := h.own o id
    rwa [countP_cons_of_neg (by simp [Lrq.waitsAs, hp])] at hown
  compat := (pairwise_cons.mp h.compat).2

theorem QueueInv.removePending (h : QueueInv key next own lock.pendingLrqCount (r :: rest)) (hp : r.pending = true) :
    QueueInv key next (removePending key own lock r).2.1 (removePending key own lock r).1.pendingLrqCount
      ((removePending key own lock r).2.2 :: rest) := by
  have hlt := h.roomPending
  have hcount := h.pendingCount
  rw [countP_cons_of_pos hp] at hlt hcount
  exact {
    ids := h.ids
    room := h.room
    roomPending := by
      exact Nat.lt_of_succ_lt hlt
    pendingCount := by
      show decrement lock.pendingLrqCount = countP (·.pending) ({ r with pending := false } :: rest)
      rw [countP_cons_of_neg Bool.false_ne_true, hcount, decrement_succ (Nat.lt_of_succ_lt hlt)]
    own := fun o id => by
      exact removePending_count h hp o id
    compat := pairwise_cons.mpr ⟨(pairwise_cons.mp h.compat).1, (pairwise_cons.mp h.compat).2⟩ }

def unlinked (key : LockKey) (own : Pending) (lock : Lbl) (r : Lrq) : Lbl × Pending :=
  let lock := { lock with requests := removeRequest r.id lock.requests }
  if r.pending then ((removePending key own lock r).1, (removePending key own lock r).2.1) else (lock, own)

theorem unlinked_spec (h : LockInv key next own lock (r :: rest)) :
    QueueInv key next (unlinked key own lock r).2 (unlinked key own lock r).1.pendingLrqCount rest ∧
    (unlinked key own lock r).1.requests = removeRequest r.id lock.requests ∧
    (unlinked key own lock r).1.counts = lock.counts ∧ (unlinked key own lock r).1.state = lock.state ∧
    Frame key own (unlinked key own lock r).2 := by
  unfold unlinked
  by_cases hp : r.pending = true
  · rw [if_pos hp]
    exact ⟨(h.toQueueInv.removePending hp).tail rfl, rfl, rfl, rfl, frame_erase key own r.owner r.id⟩
  · rw [if_neg hp]
    exact ⟨h.toQueueInv.tail (by simpa using hp), rfl, rfl, rfl, .refl key own⟩

def uncounted (lock : Lbl) (r : Lrq) : Lbl :=
  let lock' := if r.state ≠ .none then lock.sub r.state else lock
  if r.state ≠ .none ∧ lock'.counts r.state = 0 then { lock' with state := lockState lock' } else lock'

theorem uncounted_spec (h : LockInv key next own lock (r :: rest)) :
    Counts (uncounted lock r) rest ∧ (uncounted lock r).state = lockState (uncounted lock r) ∧
    (uncounted lock r).requests = lock.requests ∧ (uncounted lock r).pendingLrqCount = lock.pendingLrqCount := by
  unfold uncounted
  by_cases hs : r.state = .none
  · simp only [ne_eq, hs, not_true_eq_false, if_false, false_and]
    refine ⟨fun s hne => ?_, h.state, trivial, trivial⟩
    rw [h.counts s hne, countP_cons_of_neg]
    simpa [Lrq.isIn, hs] using hne.symm
  · simp only [ne_eq, hs, not_false_eq_true, if_true, true_and]
    by_cases hz : (lock.sub r.state).counts r.state = 0
    · rw [if_pos hz]
      exact ⟨h.counts_sub, lockState_congr fun _ _ => rfl, rfl, rfl⟩
    · rw [if_neg hz]
      refine ⟨h.counts_sub, ?_, rfl, rfl⟩
      show lock.state = _
      rw [h.state]
      refine (lockState_congr_zero fun s hne => ?_).symm
      by_cases hsr : s = r.state
      · subst hsr
        have hpos := h.counts r.state hs
        rw [countP_cons_of_pos (by simp [Lrq.isIn])] at hpos
        omega
      · show update lock.counts r.state _ s = 0 ↔ _
        rw [update_of_ne hsr]

theorem releaseRequest_eq (key : LockKey) (own : Pending) (lock : Lbl) (r : Lrq) :
    releaseRequest key own lock r =
      (if (unlinked key own lock r).1.requests = [] then (none, (unlinked key own lock r).2)
      else
        (some (postPending key (unlinked key own lock r).2 (uncounted (unlinked key own lock r).1 r)).1,
          (postPending key (unlinked key own lock r).2 (uncounted (unlinked key own lock r).1 r)).2)) := by
  unfold releaseRequest unlinked uncounted
  by_cases hp : r.pending = true
  · simp only [hp, if_true]
  · simp only [hp, Bool.false_eq_true, if_false]

theorem uncounted_unlinked_spec (h : LockInv key next own lock lock.requests) (hr : r ∈ lock.requests) :
    (uncounted (unlinked key own lock r).1 r).requests = removeRequest r.id lock.requests ∧
    LockInv key next (unlinked key own lock r).2 (uncounted (unlinked key own lock r).1 r)
      (uncounted (unlinked key own lock r).1 r).requests := by
  obtain ⟨rest, hperm, -, hrest⟩ := setRequest_perm h.ids.nodup hr
  have hcons := h.perm hperm
  obtain ⟨hqueue, hreq, hcounts, hstate, -⟩ := unlinked_spec hcons
  generalize unlinked key own lock r = u at hqueue hreq hcounts hstate ⊢
  obtain ⟨lock₁, own₁⟩ := u
  obtain ⟨hc, hs, hr₁, hp₁⟩ := uncounted_spec hcons
  have hsame : uncounted lock₁ r = { uncounted lock r with
      requests := lock₁.requests, pendingLrqCount := lock₁.pendingLrqCount } := by
    unfold uncounted Lbl.sub lockState
    rw [hcounts]
    by_cases hnone : r.state = .none
    · simp only [ne_eq, hnone, not_true_eq_false, if_false, false_and, ← hcounts, ← hstate]
    · simp only [ne_eq, hnone, not_false_eq_true, if_true, true_and, ← hstate]
      split <;> rfl
  rw [hsame]
  refine ⟨hreq, LockInv.perm ⟨hqueue, hc, hs.trans (lockState_congr fun _ _ => rfl)⟩ ?_⟩
  exact (hreq ▸ hrest).symm

theorem releaseRequest_spec (h : LockInv key next own lock lock.requests) (hr : r ∈ lock.requests) :
    Frame key own (releaseRequest key own lock r).2 ∧
    match (releaseRequest key own lock r).1 with
    | none => ∀ o id, ((releaseRequest key own lock r).2 o).count ⟨key, id⟩ = 0
    | some lock' => LockInv key next (releaseRequest key own lock r).2 lock' lock'.requests := by
  obtain ⟨rest, hperm, -, hrest⟩ := setRequest_perm h.ids.nodup hr
  obtain ⟨hqueue, hreq, -, -, hframe⟩ := unlinked_spec (h.perm hperm)
  obtain ⟨-, hinv⟩ := uncounted_unlinked_spec h hr
  rw [releaseRequest_eq]
  by_cases hnil : (unlinked key own lock r).1.requests = []
  · rw [if_pos hnil]
    refine ⟨hframe, fun o id => ?_⟩
    rw [← hreq, hnil] at hrest
    rw [hqueue.own o id, ← hrest.nil_eq, countP_nil]
  · rw [if_neg hnil]
    obtain ⟨hpost, hframe', -⟩ := postPending_spec hinv
    exact ⟨hframe.trans hframe', hpost⟩

structure RoomFor (l : List Lrq) : Prop where
  states : ∀ s, s ≠ .none → l.countP (·.mayBe s) < ushortSize
  pending : l.countP (·.pending) < ushortSize

theorem RoomFor.perm {l' : List Lrq} (h : RoomFor l) (hp : l.Perm l') : RoomFor l' where
  states s hs := hp.countP_eq _ ▸ h.states s hs
  pending := hp.countP_eq _ ▸ h.pending

theorem QueueInv.ask (h : QueueInv key next own n (r :: rest)) {type : Level} {b : Bool}
    (hroom : RoomFor ({ r with requested := type, pending := b } :: rest)) :
    QueueInv key next own n ({ r with requested := type } :: rest) where
  ids := h.ids
  room := hroom.states
  roomPending := h.roomPending
  pendingCount := h.pendingCount
  own := h.own
  compat := pairwise_cons.mpr ⟨(pairwise_cons.mp h.compat).1, (pairwise_cons.mp h.compat).2⟩

theorem LockInv.withdraw (h : LockInv key next own lock (r :: rest)) :
    LockInv key next own lock ({ r with requested := r.state } :: rest) where
  ids := h.ids
  room s hs := by
    refine (countP_cons_le fun hm => ?_).trans_lt (h.room s hs)
    simp only [Lrq.mayBe, Bool.or_self] at hm
    simp [Lrq.mayBe, hm]
  roomPending := h.roomPending
  pendingCount := h.pendingCount
  own := h.own
  compat := pairwise_cons.mpr ⟨(pairwise_cons.mp h.compat).1, (pairwise_cons.mp h.compat).2⟩
  counts := h.counts
  state := h.state

theorem LockInv.wait (h : LockInv key next own lock (r :: rest)) (hp : r.pending = false)
    (hroom : rest.countP (·.pending) + 1 < ushortSize) :
    LockInv key next (update own r.owner (own r.owner ++ [⟨key, r.id⟩]))
      { lock with pendingLrqCount := increment lock.pendingLrqCount }
      ({ r with rejected := false, pending := true } :: rest)
    where
  ids := h.ids
  room := h.room
  roomPending := by
    rw [countP_cons_of_pos rfl]
    exact hroom
  pendingCount := by
    have hcount := h.pendingCount
    rw [countP_cons_of_neg (by simp [hp])] at hcount
    rw [countP_cons_of_pos rfl]
    rw [hcount, increment_of_lt hroom]
  own o id := by
    have hown := h.own o id
    rw [countP_cons_of_neg (by simp [Lrq.waitsAs, hp])] at hown
    by_cases ho : o = r.owner
    · subst ho
      rw [update_self, count_append, hown]
      by_cases hid : id = r.id
      · simp [Lrq.waitsAs, hid]
      · simp [Lrq.waitsAs, Ne.symm hid]
    · rw [update_of_ne ho, hown]
      simp [Lrq.waitsAs, Ne.symm ho]
  compat := pairwise_cons.mpr ⟨(pairwise_cons.mp h.compat).1, (pairwise_cons.mp h.compat).2⟩
  counts := h.counts
  state := h.state

theorem LockInv.withRequests (h : LockInv key next own lock l) (l' : List Lrq) :
    LockInv key next own { lock with requests := l' } l where
  toQueueInv := h.toQueueInv
  counts := h.counts
  state := h.state

theorem waitForRequest_spec (h : LockInv key next own lock (r :: rest)) (hp : r.pending = false)
    (hroom : rest.countP (·.pending) + 1 < ushortSize)
    (hset : ∀ x : Lrq, x.id = r.id → (setRequest x lock.requests).Perm (x :: rest))
    (hremove : (removeRequest r.id lock.requests).Perm rest) :
    LockInv key next (waitForRequest key own lock r).2 (waitForRequest key own lock r).1
      (waitForRequest key own lock r).1.requests ∧ Frame key own (waitForRequest key own lock r).2 := by
  refine ⟨?_, frame_append key own r.owner r.id⟩
  unfold waitForRequest
  dsimp only
  refine ((h.wait hp hroom).perm (Perm.symm ?_)).withRequests _
  split
  · exact (hremove.append_right _).trans (perm_append_comm.trans (.refl _))
  · exact hset _ rfl

theorem LockInv.grant_post (h : LockInv key next (grant key own lock r).2.1 (grant key own lock r).1
      ((grant key own lock r).2.2 :: rest))
    (hset : (setRequest (grant key own lock r).2.2 l).Perm ((grant key own lock r).2.2 :: rest)) :
    let lock' := { (grant key own lock r).1 with requests := setRequest (grant key own lock r).2.2 l }
    LockInv key next (postPending key (grant key own lock r).2.1 lock').2 (postPending key (grant key own lock r).2.1
      lock').1 (postPending key (grant key own lock r).2.1 lock').1.requests ∧
    Frame key own (postPending key (grant key own lock r).2.1 lock').2 := by
  obtain ⟨hinv, hframe, -⟩ := postPending_spec ((h.perm hset.symm).withRequests _)
  exact ⟨hinv, Frame.trans (frame_grant key own lock r) hframe⟩

theorem internalConvert_spec (h : LockInv key next own lock lock.requests) (hr : r ∈ lock.requests) {type : Level}
    {lckWait : Bool}
    (hroom : RoomFor (setRequest { r with requested := type, pending := lckWait || r.pending } lock.requests))
    (hwait : lckWait = true → r.pending = false) :
    LockInv key next (internalConvert key own lock r type lckWait).2 (internalConvert key own lock r type lckWait).1
      (internalConvert key own lock r type lckWait).1.requests ∧
    Frame key own (internalConvert key own lock r type lckWait).2 := by
  obtain ⟨rest, hperm, hset, hremove⟩ := setRequest_perm h.ids.nodup hr
  have hcons := h.perm hperm
  have hroom' := hroom.perm (hset { r with requested := type, pending := lckWait || r.pending } rfl)
  have hask := hcons.toQueueInv.ask hroom'
  unfold internalConvert
  dsimp only
  by_cases hc : compatible type (lockState (lock.sub r.state)) = true
  · rw [if_pos hc]
    have hall : ∀ x ∈ rest, compatible type x.state = true := fun x hx =>
      compatible_of_lockState hcons.counts_sub (pairwise_cons.mp hcons.compat).2 hc hx
    have hsub : QueueInv key next own (lock.sub r.state).pendingLrqCount ({ r with requested := type } :: rest) := hask
    exact (hsub.grant hcons.counts_sub hall).grant_post
      (grant_requests key own (lock.sub r.state) _ ▸ hset _ (grant_id key own _ _))
  · rw [if_neg hc]
    have hsame : SameLock lock ((lock.sub r.state).add r.state) := by
      by_cases hs : r.state = .none
      · refine ⟨fun u hu => ?_, rfl, rfl⟩
        unfold Lbl.add Lbl.sub
        dsimp only
        rw [hs, update_of_ne hu, update_of_ne hu]
      · exact h.bounded.sameLock_sub_add hs
    have hasked : LockInv key next own ((lock.sub r.state).add r.state) ({ r with requested := type } :: rest) :=
      LockInv.same ⟨hask, hcons.counts, h.state⟩ hsame
    cases lckWait with
    | true =>
      have hpend := hroom'.pending
      rw [countP_cons_of_pos (by simp)] at hpend
      exact waitForRequest_spec hasked (hwait rfl) hpend hset hremove
    | false =>
      exact ⟨(hasked.withdraw.perm (hset { r with requested := r.state } rfl).symm).withRequests _, .refl key own⟩

theorem convertRejected_spec (h : LockInv key next own lock lock.requests) (hr : r ∈ lock.requests)
    (hp : r.pending = false) :
    LockInv key next (convertRejected key own lock r).2 (convertRejected key own lock r).1
      (convertRejected key own lock r).1.requests ∧ Frame key own (convertRejected key own lock r).2 := by
  obtain ⟨hinv, hframe, hsame⟩ := postPending_spec h
  obtain ⟨rest, hperm, hset, -⟩ := setRequest_perm hinv.ids.nodup (hsame.kept r hr hp)
  exact ⟨((hinv.perm hperm).withdraw.perm (hset { r with requested := r.state } rfl).symm).withRequests _, hframe⟩

theorem removePending_lockState (key : LockKey) (own : Pending) (lock : Lbl) (r : Lrq) :
    lockState (removePending key own lock r).1 = lockState lock := by
  unfold removePending lockState
  rfl

theorem reject_spec (h : LockInv key next own lock lock.requests) (hr : r ∈ lock.requests) (hp : r.pending = true) :
    let rejected := removePending key own lock { r with rejected := true }
    LockInv key next rejected.2.1 rejected.1 (setRequest rejected.2.2 lock.requests) ∧ Frame key own rejected.2.1 := by
  obtain ⟨rest, hperm, hset, -⟩ := setRequest_perm h.ids.nodup hr
  have hcons := h.perm hperm
  have hmark : QueueInv key next own lock.pendingLrqCount ({ r with rejected := true } :: rest) :=
    ⟨hcons.ids, hcons.room, hcons.roomPending, hcons.pendingCount, hcons.own,
      pairwise_cons.mpr ⟨(pairwise_cons.mp hcons.compat).1, (pairwise_cons.mp hcons.compat).2⟩⟩
  have hqueue := QueueInv.removePending (r := { r with rejected := true }) hmark hp
  have hcleared := hset (removePending key own lock { r with rejected := true }).2.2 rfl
  have hcounts : Counts (removePending key own lock { r with rejected := true }).1
      ((removePending key own lock { r with rejected := true }).2.2 :: rest) := by
    intro s hs
    have hcount := hcons.counts s hs
    exact hcount
  have hstate : (removePending key own lock { r with rejected := true }).1.state =
      lockState (removePending key own lock { r with rejected := true }).1 := by
    have hkept : ∀ n, { lock with pendingLrqCount := n }.state = lock.state := fun _ => rfl
    rw [removePending_lockState, ← h.state]
    exact hkept _
  exact ⟨LockInv.perm ⟨hqueue, hcounts, hstate⟩ hcleared.symm, frame_erase key own r.owner r.id⟩

theorem LockInv.new (h : LockInv key next own lock l) (hlt : r.id < next) (hnew : ∀ x ∈ l, x.id ≠ r.id)
    (hs : r.state = .none) (hp : r.pending = false) {b : Bool} (hroom : RoomFor (l ++ [{ r with pending := b }])) :
    LockInv key next own lock (r :: l) where
  ids := by
    refine ⟨nodup_cons.mpr ⟨fun hmem => ?_, h.ids.nodup⟩, forall_mem_cons.mpr ⟨hlt, h.ids.lt⟩⟩
    obtain ⟨x, hx, hid⟩ := mem_map.mp hmem
    exact hnew x hx hid
  room := (hroom.perm perm_append_comm).states
  roomPending := by
    rw [countP_cons_of_neg (by simp [hp])]
    exact h.roomPending
  pendingCount := by
    rw [countP_cons_of_neg (by simp [hp])]
    exact h.pendingCount
  own o id := by
    rw [countP_cons_of_neg (by simp [Lrq.waitsAs, hp])]
    exact h.own o id
  compat := by
    refine pairwise_cons.mpr ⟨fun x _ => ?_, h.compat⟩
    unfold Lrq.Compatible
    rw [hs, compatible_symm]
    exact compatible_none _
  counts s hne := by
    rw [countP_cons_of_neg (by simpa [Lrq.isIn, hs] using hne.symm)]
    exact h.counts s hne
  state := h.state

theorem grantOrQue_spec (h : LockInv key next own lock l) (hl : lock.requests = l ++ [r]) (hlt : r.id < next)
    (hnew : ∀ x ∈ l, x.id ≠ r.id) (hs : r.state = .none) (hp : r.pending = false) {lckWait : Bool}
    (hroom : RoomFor (l ++ [{ r with pending := lckWait }])) :
    Frame key own (grantOrQue key own lock r lckWait).2 ∧
    match (grantOrQue key own lock r lckWait).1 with
    | none => ∀ o id, ((grantOrQue key own lock r lckWait).2 o).count ⟨key, id⟩ = 0
    | some lock' => LockInv key next (grantOrQue key own lock r lckWait).2 lock' lock'.requests := by
  have hcons := h.new hlt hnew hs hp hroom
  have hall : LockInv key next own lock lock.requests := by
    rw [hl]
    exact hcons.perm (perm_append_singleton r l).symm
  have hr : r ∈ lock.requests := by
    rw [hl]
    exact mem_append_right l mem_cons_self
  have hset : ∀ x : Lrq, x.id = r.id → (setRequest x lock.requests).Perm (x :: l) := by
    intro x hx
    rw [hl, setRequest_middle (by rw [← hl]; exact hall.ids.nodup) hx]
    exact perm_append_comm
  have hremove : (removeRequest r.id lock.requests).Perm l := by
    rw [hl, removeRequest_middle (by rw [← hl]; exact hall.ids.nodup), append_nil]
  unfold grantOrQue
  split
  · rename_i hc
    have hok : ∀ x ∈ l, compatible r.requested x.state = true := fun x hx =>
      compatible_of_lockState h.counts h.compat (h.state ▸ hc.1) hx
    obtain ⟨hinv, hframe⟩ := (hcons.toQueueInv.grant h.counts hok).grant_post
      (grant_requests key own lock r ▸ hset _ (grant_id key own lock r))
    exact ⟨hframe, hinv⟩
  · split
    · rename_i hw
      have hpend := (hroom.perm perm_append_comm).pending
      rw [countP_append, hw] at hpend
      obtain ⟨hinv, hframe⟩ := waitForRequest_spec hcons hp (by simpa [Nat.add_comm] using hpend) hset hremove
      exact ⟨hframe, hinv⟩
    · exact releaseRequest_spec hall hr

end Operations
end Firebird.Lock
