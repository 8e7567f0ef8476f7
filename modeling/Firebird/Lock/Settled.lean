import Firebird.Lock.Orderly

/-! # Calls on an orderly queue -/

namespace Firebird.Lock
open List

section Calls
variable {key : LockKey} {next : RequestId} {own : Pending} {lock : Lbl} {a b l : List Lrq} {r r' : Lrq}

/-- An orderly queue in which everybody who waits is blocked. -/
structure Settled (l : List Lrq) : Prop where
  orderly : Orderly l
  blocked : AllBlocked l

theorem settled_of_none (h : ∀ y ∈ l, y.pending = false) : Settled l where
  orderly := orderly_of_none h
  blocked := fun r hr hp => by
    rw [h r hr] at hp
    exact Bool.noConfusion hp

theorem postPending_settled (h : LockInv key next own lock lock.requests) (horderly : Orderly lock.requests) :
    Settled (postPending key own lock).1.requests := by
  obtain ⟨hord, hstop⟩ := postPending_orderly h horderly
  obtain ⟨hinv, -, -⟩ := postPending_spec h
  exact ⟨hord, hord.allBlocked hinv.ids.nodup hstop⟩

theorem releaseRequest_settled (h : LockInv key next own lock lock.requests) (hr : r ∈ lock.requests)
    (horderly : Orderly (removeRequest r.id lock.requests)) :
    ∀ lock' ∈ (releaseRequest key own lock r).1, Settled lock'.requests := by
  obtain ⟨hreq, hinv⟩ := uncounted_unlinked_spec h hr
  rw [releaseRequest_eq]
  split
  · exact nofun
  · intro lock' hl
    cases hl
    refine postPending_settled hinv ?_
    rw [hreq]
    exact horderly

theorem Lrq.Blocked.mono {l' : List Lrq} (h : r.Blocked l) (hsub : l.Sublist l') : r.Blocked l' := by
  obtain ⟨x, hx, hne, hsees⟩ := h
  exact ⟨x, hsub.subset hx, hne, hsees.imp fun hahead => hahead.mono (hsub.map _)⟩

theorem Orderly.blocked_last (h : Orderly (l ++ [r])) (hnodup : ((l ++ [r]).map (·.id)).Nodup) (hp : r.pending = true)
    {x : Lrq} (hx : x ∈ l) (hc : compatible r.requested x.state = false) : r.Blocked (l ++ [r]) := by
  have hr : r ∈ l ++ [r] := mem_append_right _ mem_cons_self
  have hx' : x ∈ l ++ [r] := mem_append_left _ hx
  have hne : x.id ≠ r.id := ne_of_nodup hnodup x (mem_append_left _ hx)
  obtain ⟨hsees, -⟩ := h r hr hp x hx' hne x.look (mem_append_left _ mem_cons_self) (.inl hc)
  exact ⟨x, hx', hne, hsees⟩

theorem Orderly.blocked_behind (h : Orderly (l ++ [r])) (hnodup : ((l ++ [r]).map (·.id)).Nodup) (hp : r.pending = true)
    {f : Lrq} (hf : f ∈ l) (hfp : f.pending = true) (hblocked : f.Blocked l) : r.Blocked (l ++ [r]) := by
  have hr : r ∈ l ++ [r] := mem_append_right _ mem_cons_self
  have hmem : ∀ {y : Lrq}, y ∈ l → y ∈ l ++ [r] := fun hy => mem_append_left _ hy
  have hne : ∀ {y : Lrq}, y ∈ l → y.id ≠ r.id := fun {y} hy => ne_of_nodup hnodup y (mem_append_left _ hy)
  have hahead : ∀ {y : Lrq}, y ∈ l → Ahead ((l ++ [r]).map (·.id)) y.id r.id := fun hy => by
    rw [map_append, map_cons]
    exact (singleton_sublist.mpr (mem_map_of_mem hy)).append (Sublist.refl _)
  obtain ⟨x, hx, hxf, hsees⟩ := hblocked.mono (sublist_append_left l [r])
  obtain ⟨-, hbehind⟩ := h f (hmem hf) hfp x hx hxf x.look (mem_append_left _ mem_cons_self) (.inr hsees)
  rcases hbehind r hr hp (hahead hf) with hs | ⟨hrx, hs⟩
  · exact ⟨f, hmem hf, hne hf, hs.imp fun _ => hahead hf⟩
  · exact ⟨x, hx, Ne.symm hrx, hs⟩

theorem Orderly.append_null (h : Orderly l) (hnodup : ((l ++ [r]).map (·.id)).Nodup) (hs : r.state = .null)
    (hreq : r.requested = .null) (hp : r.pending = false) : Orderly (l ++ [r]) := by
  have hnull : ∀ type : Level, compatible type .null = true := by decide
  have hlook : ∀ {ids : List RequestId} {id : RequestId}, ∀ look ∈ r.looks ids id,
      look = { granted := .null, shown := .null } := fun look hlook => by
    unfold Lrq.looks Lrq.look at hlook
    rw [hs, hreq, hp, if_neg (fun hcase => Bool.noConfusion hcase.1)] at hlook
    rcases mem_cons.mp hlook with rfl | hlook
    · rfl
    · exact mem_singleton.mp hlook
  have hsub := sublist_append_left l [r]
  have hids := hsub.map (·.id)
  have hold : ∀ {y : Lrq}, y ∈ l ++ [r] → y.pending = true → y ∈ l := fun hy hyp => by
    rcases mem_append.mp hy with hy | hy
    · exact hy
    · rw [mem_singleton.mp hy, hp] at hyp
      exact Bool.noConfusion hyp
  intro f hf hfp x hx hne look hl htrigger
  rcases mem_append.mp hx with hx | hx
  · have hfl := hold hf hfp
    have hdown : ∀ {c d : Lrq}, c ∈ l → d ∈ l → c.id ≠ d.id → Ahead ((l ++ [r]).map (·.id)) c.id d.id →
        Ahead (l.map (·.id)) c.id d.id := fun hc hd hcd hahead =>
      hahead.restrict hnodup hids (mem_map_of_mem hc) (mem_map_of_mem hd) hcd
    have hl' : look ∈ x.looks (l.map (·.id)) f.id := by
      rcases mem_append.mp hl with hl | hl
      · exact mem_append_left _ hl
      · refine mem_append_right _ ?_
        split at hl
        · rename_i hcase
          rwa [if_pos ⟨hcase.1, hdown hx hfl hne hcase.2⟩]
        · cases hl
    obtain ⟨hsees, hbehind⟩ := h f hfl hfp x hx hne look hl' (htrigger.imp id fun hs => hs.imp (hdown hx hfl hne))
    refine ⟨hsees.imp fun hahead => hahead.mono hids, fun y hy hyp hahead => ?_⟩
    have hyl := hold hy hyp
    have hfy : f.id ≠ y.id := by
      intro heq
      rw [heq] at hahead
      exact ahead_asymm hnodup hahead hahead
    rcases hbehind y hyl hyp (hdown hfl hyl hfy hahead) with hs | ⟨hyx, hs⟩
    · exact .inl hs
    · exact .inr ⟨hyx, hs.imp fun hahead => hahead.mono hids⟩
  · rw [mem_singleton.mp hx] at hl
    rw [hlook look hl] at htrigger
    unfold Lrq.Sees at htrigger
    rcases htrigger with ht | ht
    · rw [hnull] at ht
      exact Bool.noConfusion ht
    · split at ht
      · rw [hnull] at ht
        exact Bool.noConfusion ht
      · rw [hnull] at ht
        exact Bool.noConfusion ht.2

def GrantedAtOnce (lock : Lbl) (type : Level) : Prop :=
  compatible type lock.state = true ∧ (type = .null ∨ lock.pendingLrqCount = 0)

instance (lock : Lbl) (type : Level) : Decidable (GrantedAtOnce lock type) :=
  inferInstanceAs (Decidable (_ ∧ _))

theorem pending_of_count {l : List Lrq} (h : l.countP (·.pending) = 0) : ∀ y ∈ l, y.pending = false := fun y hy =>
  Bool.not_eq_true _ ▸ countP_eq_zero.mp h y hy

theorem grantOrQue_settled (h : LockInv key next own lock l) (hl : lock.requests = l ++ [r]) (hlt : r.id < next)
    (hnew : ∀ x ∈ l, x.id ≠ r.id) (hs : r.state = .none) (hp : r.pending = false) {lckWait : Bool}
    (hroom : RoomFor (l ++ [{ r with pending := lckWait }])) (hsettled : Settled l)
    (hwait : lckWait = true → ¬ GrantedAtOnce lock r.requested →
      Orderly (l ++ [{ r with rejected := false, pending := true }])) :
    ∀ lock' ∈ (grantOrQue key own lock r lckWait).1, Settled lock'.requests := by
  have hcons := h.new hlt hnew hs hp hroom
  have hall : LockInv key next own lock lock.requests := by
    rw [hl]
    exact hcons.perm (perm_append_singleton r l).symm
  have hnodup : ((l ++ [r]).map (·.id)).Nodup := hl ▸ hall.ids.nodup
  have hset : ∀ x : Lrq, x.id = r.id → setRequest x lock.requests = l ++ [x] := fun x hx => by
    rw [hl]
    exact setRequest_middle hnodup hx
  have hremove : removeRequest r.id lock.requests = l := by
    rw [hl, removeRequest_middle hnodup, append_nil]
  have hr : r ∈ lock.requests := by
    rw [hl]
    exact mem_append_right l mem_cons_self
  have hothers : others lock r = lock.state := if_neg (not_not.mpr hs)
  unfold grantOrQue
  dsimp only
  split
  · rename_i hc
    intro lock' hlock
    cases hlock
    have hgrant : (grant key own lock r).2.2 = { r with state := r.requested } := by
      unfold grant
      rw [if_neg (by rw [hp]; exact Bool.false_ne_true)]
    have hok : ∀ x ∈ l, compatible r.requested x.state = true := fun x hx =>
      compatible_of_lockState h.counts h.compat (h.state ▸ hc.1) hx
    have hinv := (hcons.toQueueInv.grant h.counts hok).perm (perm_append_singleton _ l).symm
    rw [grant_requests, hset _ (grant_id key own lock r)]
    refine postPending_settled (hinv.withRequests _) ?_
    rcases hc.2 with hnull | hzero
    · rw [hgrant]
      refine hsettled.orderly.append_null ?_ hnull hnull hp
      simpa using hnodup
    · have hnone := pending_of_count (h.pendingCount.symm.trans hzero)
      refine orderly_of_none fun y hy => ?_
      rcases mem_append.mp hy with hy | hy
      · exact hnone y hy
      · rw [mem_singleton.mp hy, hgrant]
        exact hp
  · rename_i hc
    split
    · rename_i hw
      intro lock' hlock
      cases hlock
      unfold waitForRequest
      dsimp only
      rw [if_pos hs, hremove]
      have horderly := hwait hw hc
      have hnodup' : ((l ++ [({ r with rejected := false, pending := true } : Lrq)]).map (·.id)).Nodup := by
        simpa using hnodup
      refine ⟨horderly, fun y hy hyp => ?_⟩
      rcases mem_append.mp hy with hy | hy
      · exact (hsettled.blocked y hy hyp).mono (sublist_append_left _ _)
      · rw [mem_singleton.mp hy]
        by_cases hcompat : compatible r.requested lock.state = true
        · have hcount : ¬ l.countP (·.pending) = 0 := fun hzero =>
            hc ⟨hcompat, .inr (h.pendingCount.trans hzero)⟩
          obtain ⟨f, hf, hfp⟩ := countP_pos_iff.mp (Nat.pos_of_ne_zero hcount)
          exact horderly.blocked_behind hnodup' rfl hf hfp (hsettled.blocked f hf hfp)
        · obtain ⟨x, hx, hxc⟩ := hcons.exists_other (hothers ▸ (Bool.not_eq_true _ ▸ hcompat))
          exact horderly.blocked_last hnodup' rfl hx hxc
    · refine releaseRequest_settled hall hr ?_
      rw [hremove]
      exact hsettled.orderly

theorem Stopped.map (h : Stopped l) (g : Lrq → Lrq) (hp : ∀ y ∈ l, (g y).pending = y.pending)
    (hs : ∀ y ∈ l, (g y).state = y.state) (hreq : ∀ y ∈ l, y.pending = true → (g y).requested = y.requested) :
    Stopped (l.map g) := by
  rcases h with hnone | ⟨a, f, b, rfl, hfp, ha, x, hx, hc⟩
  · refine .inl fun y hy => ?_
    obtain ⟨z, hz, rfl⟩ := mem_map.mp hy
    exact (hp z hz).trans (hnone z hz)
  · have hmem : ∀ {y : Lrq}, y ∈ a ++ b → y ∈ a ++ f :: b := fun hy =>
      mem_append.mpr ((mem_append.mp hy).imp id (mem_cons_of_mem _))
    have hf : f ∈ a ++ f :: b := mem_append_right _ mem_cons_self
    refine .inr ⟨a.map g, g f, b.map g, by rw [map_append, map_cons], (hp f hf).trans hfp, fun y hy => ?_,
      g x, ?_, ?_⟩
    · obtain ⟨z, hz, rfl⟩ := mem_map.mp hy
      exact (hp z (mem_append_left _ hz)).trans (ha z hz)
    · rw [← map_append]
      exact mem_map_of_mem hx
    · rw [hreq f hf hfp, hs x (hmem hx)]
      exact hc

theorem convertRejected_settled (h : LockInv key next own lock lock.requests) (hr : r ∈ lock.requests)
    (hp : r.pending = false) (horderly : Orderly lock.requests) :
    Settled (convertRejected key own lock r).1.requests := by
  obtain ⟨hord, hstop⟩ := postPending_orderly h horderly
  obtain ⟨hinv, -, hsame⟩ := postPending_spec h
  have hr' := hsame.kept r hr hp
  have hone : ∀ y ∈ (postPending key own lock).1.requests, y.id = r.id → y = r := fun y hy hid =>
    inj_on_of_nodup_map hinv.ids.nodup hy hr' hid
  have hnodup : ((setRequest { r with requested := r.state } (postPending key own lock).1.requests).map
      (·.id)).Nodup := by
    obtain ⟨a, b, heq⟩ := append_of_mem hr'
    have hn := hinv.ids.nodup
    rw [heq] at hn ⊢
    have hset : ∀ x : Lrq, x.id = r.id → setRequest x (a ++ r :: b) = a ++ x :: b := fun _ => setRequest_middle hn
    rw [hset { r with requested := r.state } rfl]
    simpa using hn
  have hord' : Orderly (setRequest { r with requested := r.state } (postPending key own lock).1.requests) := by
    obtain ⟨a, b, heq⟩ := append_of_mem hr'
    have hn := hinv.ids.nodup
    rw [heq] at hn hord ⊢
    have hset : ∀ x : Lrq, x.id = r.id → setRequest x (a ++ r :: b) = a ++ x :: b := fun _ => setRequest_middle hn
    rw [hset { r with requested := r.state } rfl]
    refine hord.replace hn rfl hp fun f _ _ look hlook => ?_
    unfold Lrq.looks Lrq.look at hlook ⊢
    rw [Level.max_self, if_neg (fun hcase => by rw [hp] at hcase; exact Bool.noConfusion hcase.1)] at hlook
    refine mem_append_left _ (mem_cons_of_mem _ (mem_singleton.mpr ?_))
    rcases mem_cons.mp hlook with rfl | hlook
    · rfl
    · exact mem_singleton.mp hlook
  have hstop' : Stopped (setRequest { r with requested := r.state } (postPending key own lock).1.requests) := by
    refine hstop.map _ (fun y hy => ?_) (fun y hy => ?_) fun y hy hyp => ?_
    · split
      · rw [hone y hy ‹_›]
      · rfl
    · split
      · rw [hone y hy ‹_›]
      · rfl
    · split
      · rw [hone y hy ‹_›, hp] at hyp
        exact Bool.noConfusion hyp
      · rfl
  exact ⟨hord', hord'.allBlocked hnodup hstop'⟩

theorem Lrq.Blocked.replace {y : Lrq} (h : y.Blocked (a ++ r :: b)) (hid : r'.id = r.id) (hlook : r'.look = r.look) :
    y.Blocked (a ++ r' :: b) := by
  have hids : (a ++ r' :: b).map (·.id) = (a ++ r :: b).map (·.id) := by
    rw [map_append, map_append, map_cons, map_cons, hid]
  obtain ⟨x, hx, hne, hsees⟩ := h
  have hother : x ∈ a ++ b → y.Blocked (a ++ r' :: b) := fun hx =>
    ⟨x, mem_append.mpr ((mem_append.mp hx).imp_right (mem_cons_of_mem _)), hne, hids ▸ hsees⟩
  rcases mem_append.mp hx with hx | hx
  · exact hother (mem_append_left _ hx)
  · rcases mem_cons.mp hx with rfl | hx
    · refine ⟨r', mem_append_right _ mem_cons_self, hid ▸ hne, ?_⟩
      rw [hlook, hids, hid]
      exact hsees
    · exact hother (mem_append_right _ hx)

theorem reject_settled (key : LockKey) (own : Pending) (hnodup : (lock.requests.map (·.id)).Nodup)
    (hr : r ∈ lock.requests) (hsettled : Settled lock.requests) :
    Settled (setRequest (removePending key own lock { r with rejected := true }).2.2 lock.requests) := by
  obtain ⟨a, b, heq⟩ := append_of_mem hr
  rw [heq] at hnodup hsettled ⊢
  have hset : ∀ x : Lrq, x.id = r.id → setRequest x (a ++ r :: b) = a ++ x :: b := fun _ => setRequest_middle hnodup
  rw [hset (removePending key own lock { r with rejected := true }).2.2 rfl]
  have hlook : ∀ {ids : List RequestId} {id : RequestId},
      ∀ look ∈ (removePending key own lock { r with rejected := true }).2.2.looks ids id, look ∈ r.looks ids id := by
    intro ids id look hlook
    unfold Lrq.looks at hlook
    exact mem_append_left _ hlook
  refine ⟨hsettled.orderly.replace hnodup rfl rfl fun f _ _ look => hlook look, fun y hy hyp => ?_⟩
  have hold : y ∈ a ++ r :: b := by
    rcases mem_append.mp hy with hy | hy
    · exact mem_append_left _ hy
    · rcases mem_cons.mp hy with rfl | hy
      · exact Bool.noConfusion hyp
      · exact mem_append_right _ (mem_cons_of_mem _ hy)
  exact (hsettled.blocked y hold hyp).replace rfl rfl

def converted (lock : Lbl) (r : Lrq) (type : Level) (lckWait : Bool) : List Lrq :=
  if compatible type (lockState (lock.sub r.state)) then
    setRequest { r with requested := type, state := type } lock.requests
  else if lckWait then
    if r.state = .none then
      removeRequest r.id lock.requests ++ [{ r with requested := type, rejected := false, pending := true }]
    else setRequest { r with requested := type, rejected := false, pending := true } lock.requests
  else lock.requests

theorem settled_of_wait (hinv : LockInv key next own lock (a ++ r :: b)) (hsettled : Settled (a ++ r :: b))
    (hp : r.pending = false) (hreq : r.requested = r.state) {type : Level}
    (hc : ¬ compatible type (others lock r) = true)
    (horderly : Orderly (a ++ { r with requested := type, rejected := false, pending := true } :: b)) :
    Settled (a ++ { r with requested := type, rejected := false, pending := true } :: b) := by
  have hids : (a ++ ({ r with requested := type, rejected := false, pending := true } : Lrq) :: b).map (·.id) =
      (a ++ r :: b).map (·.id) := by
    rw [map_append, map_append, map_cons, map_cons]
  refine ⟨horderly, fun y hy hyp => ?_⟩
  have hw : ({ r with requested := type, rejected := false, pending := true } : Lrq) ∈
      a ++ ({ r with requested := type, rejected := false, pending := true } : Lrq) :: b :=
    mem_append_right _ mem_cons_self
  have hcase : y ∈ a ++ b ∨ y = { r with requested := type, rejected := false, pending := true } := by
    rcases mem_append.mp hy with hy | hy
    · exact .inl (mem_append_left _ hy)
    · exact (mem_cons.mp hy).symm.imp_left (mem_append_right _)
  have hblocked : ∀ x ∈ a ++ { r with requested := type, rejected := false, pending := true } :: b, x.id ≠ y.id →
      compatible y.requested x.state = false → y.Blocked
        (a ++ { r with requested := type, rejected := false, pending := true } :: b) := fun x hx hne hcx =>
    ⟨x, hx, hne, (horderly y hy hyp x hx hne x.look (mem_append_left _ mem_cons_self) (.inl hcx)).1⟩
  rcases hcase with hy' | rfl
  · have hold : y ∈ a ++ r :: b := mem_append.mpr ((mem_append.mp hy').imp_right (mem_cons_of_mem _))
    obtain ⟨x, hx, hxy, hsees⟩ := hsettled.blocked y hold hyp
    have hother : x ∈ a ++ b → y.Blocked (a ++ { r with requested := type, rejected := false, pending := true } :: b) :=
      fun hx => ⟨x, mem_append.mpr ((mem_append.mp hx).imp_right (mem_cons_of_mem _)), hxy, hids ▸ hsees⟩
    rcases mem_append.mp hx with hx | hx
    · exact hother (mem_append_left _ hx)
    · rcases mem_cons.mp hx with rfl | hx
      · -- what was shown of the request is what it is granted
        refine hblocked _ hw hxy ?_
        unfold Lrq.Sees Lrq.look at hsees
        rw [hreq, Level.max_self] at hsees
        split at hsees
        · exact hsees
        · exact hsees.2
      · exact hother (mem_append_right _ hx)
  · obtain ⟨x, hx, hcx⟩ := (hinv.perm perm_middle).exists_other (Bool.not_eq_true _ ▸ hc)
    refine hblocked x (mem_append.mpr ((mem_append.mp hx).imp_right (mem_cons_of_mem _))) ?_ hcx
    exact ne_of_nodup hinv.ids.nodup x hx

theorem settled_of_waitLast (hinv : LockInv key next own lock (a ++ r :: b)) (hsettled : Settled (a ++ r :: b))
    (hs : r.state = .none) (hreq : r.requested = r.state) {type : Level}
    (hc : ¬ compatible type (others lock r) = true)
    (horderly : Orderly (a ++ b ++ [{ r with requested := type, rejected := false, pending := true }])) :
    Settled (a ++ b ++ [{ r with requested := type, rejected := false, pending := true }]) := by
  have hnodup := hinv.ids.nodup
  have hnodup' : ((a ++ b ++ [({ r with requested := type, rejected := false, pending := true } : Lrq)]).map
      (·.id)).Nodup := by
    have hperm : (a ++ r :: b).Perm (a ++ b ++ [r]) := perm_middle.trans (perm_append_singleton r (a ++ b)).symm
    have hn := (hperm.map (·.id)).nodup_iff.mp hnodup
    simpa using hn
  refine ⟨horderly, fun y hy hyp => ?_⟩
  rcases mem_append.mp hy with hy | hy
  · have hold : y ∈ a ++ r :: b := mem_append.mpr ((mem_append.mp hy).imp_right (mem_cons_of_mem _))
    obtain ⟨x, hx, hxy, hsees⟩ := hsettled.blocked y hold hyp
    have hx' : x ∈ a ++ b := by
      rcases mem_append.mp hx with hx | hx
      · exact mem_append_left _ hx
      · rcases mem_cons.mp hx with rfl | hx
        · -- nobody waits for a request without a level
          unfold Lrq.Sees Lrq.look at hsees
          rw [hreq, Level.max_self, hs, compatible_none] at hsees
          split at hsees
          · exact Bool.noConfusion hsees
          · exact Bool.noConfusion hsees.2
        · exact mem_append_right _ hx
    have hsub : ((a ++ b).map (·.id)).Sublist ((a ++ r :: b).map (·.id)) :=
      (Sublist.append (Sublist.refl a) (sublist_cons_self r b)).map _
    have hblocked : y.Blocked (a ++ b) := ⟨x, hx', hxy, hsees.imp fun hahead =>
      hahead.restrict hnodup hsub (mem_map_of_mem hx') (mem_map_of_mem hy) hxy⟩
    exact hblocked.mono (sublist_append_left _ _)
  · obtain ⟨x, hx, hcx⟩ := (hinv.perm perm_middle).exists_other (Bool.not_eq_true _ ▸ hc)
    rw [mem_singleton.mp hy]
    exact horderly.blocked_last hnodup' rfl hx hcx

/-- `internal_convert`, up to its wait, of a request that neither waits nor was rejected in a call that goes on. -/
theorem internalConvert_settled (h : LockInv key next own lock lock.requests) (hr : r ∈ lock.requests) {type : Level}
    {lckWait : Bool} (hp : r.pending = false) (hreq : r.requested = r.state)
    (hroom : RoomFor (setRequest { r with requested := type, pending := lckWait || r.pending } lock.requests))
    (hsettled : Settled lock.requests) (horderly : Orderly (converted lock r type lckWait)) :
    Settled (internalConvert key own lock r type lckWait).1.requests := by
  obtain ⟨rest, hperm, hset, hremove⟩ := setRequest_perm h.ids.nodup hr
  have hcons := h.perm hperm
  have hothers : others lock r = lockState (lock.sub r.state) := by
    unfold others
    split
    · rfl
    · rename_i hs
      rw [h.state]
      refine lockState_congr fun u hu => ?_
      rw [not_not.mp hs]
      exact (Function.update_of_ne hu _ _).symm
  unfold converted at horderly
  unfold internalConvert
  dsimp only
  by_cases hc : compatible type (lockState (lock.sub r.state)) = true
  · rw [if_pos hc] at horderly
    rw [if_pos hc]
    have hroom' := hroom.perm (hset { r with requested := type, pending := lckWait || r.pending } rfl)
    have hask := hcons.toQueueInv.ask hroom'
    have hall : ∀ x ∈ rest, compatible type x.state = true := fun x hx =>
      compatible_of_lockState hcons.counts_sub (pairwise_cons.mp hcons.compat).2 hc hx
    have hsub : QueueInv key next own (lock.sub r.state).pendingLrqCount ({ r with requested := type } :: rest) := hask
    have hgrant : (grant key own (lock.sub r.state) { r with requested := type }).2.2 =
        { r with requested := type, state := type } := by
      unfold grant
      rw [if_neg (by rw [hp]; exact Bool.false_ne_true)]
    have hgranted := hsub.grant hcons.counts_sub hall
    rw [hgrant] at hgranted
    have hinv := hgranted.perm (hset { r with requested := type, state := type } rfl).symm
    rw [grant_requests, hgrant]
    exact postPending_settled (hinv.withRequests _) horderly
  · rw [if_neg hc] at horderly
    rw [if_neg hc]
    obtain ⟨a, b, heq⟩ := append_of_mem hr
    have hnodup := h.ids.nodup
    rw [heq] at h hnodup hsettled horderly
    have hsetr : ∀ x : Lrq, x.id = r.id → setRequest x (a ++ r :: b) = a ++ x :: b := fun _ => setRequest_middle hnodup
    cases lckWait with
    | true =>
      unfold waitForRequest
      show Settled (if r.state = .none then removeRequest r.id lock.requests ++ _ else setRequest _ lock.requests)
      rw [heq]
      split
      · rename_i hs
        rw [if_pos hs, removeRequest_middle hnodup] at horderly
        rw [removeRequest_middle hnodup]
        exact settled_of_waitLast h hsettled hs hreq (hothers ▸ hc) horderly
      · rename_i hs
        rw [if_neg hs, hsetr { r with requested := type, rejected := false, pending := true } rfl] at horderly
        rw [hsetr { r with requested := type, rejected := false, pending := true } rfl]
        exact settled_of_wait h hsettled hp hreq (hothers ▸ hc) horderly
    | false =>
      show Settled (setRequest { r with requested := r.state } lock.requests)
      rw [heq, hsetr { r with requested := r.state } rfl]
      have hsame : ({ r with requested := r.state } : Lrq) = r :=
        congrArg (fun s => ({ r with requested := s } : Lrq)) hreq.symm
      rw [hsame]
      exact hsettled

end Calls
end Firebird.Lock
