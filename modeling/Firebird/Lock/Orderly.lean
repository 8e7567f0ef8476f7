import Firebird.Lock.DeadlockWalk

/-! # Queues in which nobody is forgotten

In an orderly queue that `post_pending` has gone through, the first request that waits is kept by a granted one, and
everybody behind it sees that one or the first. -/

namespace Firebird.Lock

open List

section Queues
variable {l l' a b : List Lrq} {r r' x : Lrq} {look : Look} {ids : List RequestId} {id : RequestId}

theorem Orderly.shadow (h : Orderly l) (hnodup : (l.map (·.id)).Nodup) (hids : (l'.map (·.id)).Sublist (l.map (·.id)))
    (hback : ∀ y' ∈ l', ∃ y ∈ l, y.id = y'.id ∧ (y'.pending = true → y' = y) ∧
      ∀ f ∈ l', f.pending = true → f.id ≠ y'.id → ∀ look ∈ y'.looks (l'.map (·.id)) f.id,
        look ∈ y.looks (l.map (·.id)) f.id) : Orderly l' := by
  have hmem : ∀ {y : Lrq}, y ∈ l' → y.id ∈ l'.map (·.id) := fun hy => mem_map_of_mem hy
  have hsame : ∀ {y : Lrq}, y ∈ l' → y.pending = true → y ∈ l := fun hy hp => by
    obtain ⟨y₀, hy₀, -, heq, -⟩ := hback _ hy
    rw [heq hp]
    exact hy₀
  intro f hf hfp x' hx' hne look hlook htrigger
  obtain ⟨x, hx, hid, -, hlooks⟩ := hback x' hx'
  have hup : ∀ {c d : RequestId}, Ahead (l'.map (·.id)) c d → Ahead (l.map (·.id)) c d := fun hcd => hcd.mono hids
  have hdown : ∀ {r : Lrq}, r ∈ l' → x'.id ≠ r.id → Ahead (l.map (·.id)) x.id r.id → Ahead (l'.map (·.id)) x'.id r.id :=
    fun hr hne hahead => (hid ▸ hahead).restrict hnodup hids (hmem hx') (hmem hr) hne
  obtain ⟨hf', hbehind⟩ := h f (hsame hf hfp) hfp x hx (hid ▸ hne) look (hlooks f hf hfp (Ne.symm hne) look hlook)
    (htrigger.imp id fun hs => hs.imp fun hahead => hid ▸ hup hahead)
  refine ⟨hf'.imp (hdown hf hne), fun r hr hrp hahead => ?_⟩
  rcases hbehind r (hsame hr hrp) hrp (hup hahead) with hs | ⟨hrne, hs⟩
  · exact .inl hs
  · have hrne' : r.id ≠ x'.id := hid ▸ hrne
    exact .inr ⟨hrne', hs.imp (hdown hr (Ne.symm hrne'))⟩

theorem Orderly.sublist (h : Orderly l) (hnodup : (l.map (·.id)).Nodup) (hsub : l'.Sublist l) : Orderly l' := by
  have hids := hsub.map (·.id)
  refine h.shadow hnodup hids fun y hy => ⟨y, hsub.subset hy, rfl, fun _ => rfl, fun f hf _ hne look hlook => ?_⟩
  rcases mem_append.mp hlook with hlook | hlook
  · exact mem_append_left _ hlook
  · refine mem_append_right _ ?_
    split at hlook
    · rename_i hcase
      rwa [if_pos ⟨hcase.1, hcase.2.mono hids⟩]
    · cases hlook

theorem Orderly.replace (h : Orderly (a ++ r :: b)) (hnodup : ((a ++ r :: b).map (·.id)).Nodup) (hid : r'.id = r.id)
    (hp : r'.pending = false) (hlooks : ∀ f ∈ a ++ b, f.pending = true →
      ∀ look ∈ r'.looks ((a ++ r :: b).map (·.id)) f.id,
      look ∈ r.looks ((a ++ r :: b).map (·.id)) f.id) : Orderly (a ++ r' :: b) := by
  have hids : (a ++ r' :: b).map (·.id) = (a ++ r :: b).map (·.id) := by
    rw [map_append, map_append, map_cons, map_cons, hid]
  refine h.shadow hnodup (hids ▸ Sublist.refl _) fun y hy => ?_
  have hother : y ∈ a ++ b → ∃ y₀ ∈ a ++ r :: b, y₀.id = y.id ∧ (y.pending = true → y = y₀) ∧
      ∀ f ∈ a ++ r' :: b, f.pending = true → f.id ≠ y.id → ∀ look ∈ y.looks ((a ++ r' :: b).map (·.id)) f.id,
        look ∈ y₀.looks ((a ++ r :: b).map (·.id)) f.id := fun hy =>
    ⟨y, mem_append.mpr ((mem_append.mp hy).imp id (mem_cons_of_mem _)), rfl, fun _ => rfl,
      fun f _ _ _ look hlook => hids ▸ hlook⟩
  rcases mem_append.mp hy with hya | hyb
  · exact hother (mem_append_left _ hya)
  · rcases mem_cons.mp hyb with rfl | hyb
    · refine ⟨r, mem_append_right _ mem_cons_self, hid.symm, ?_, fun f hf hfp hne look hlook => ?_⟩
      · intro hp'
        rw [hp] at hp'
        exact Bool.noConfusion hp'
      · rw [hids] at hlook
        refine hlooks f ?_ hfp look hlook
        rcases mem_append.mp hf with hfa | hfb
        · exact mem_append_left _ hfa
        · rcases mem_cons.mp hfb with rfl | hfb
          · exact absurd rfl hne
          · exact mem_append_right _ hfb
    · exact hother (mem_append_right _ hyb)

theorem orderly_of_none (h : ∀ y ∈ l, y.pending = false) : Orderly l := by
  intro f hf hfp
  rw [h f hf] at hfp
  exact Bool.noConfusion hfp

theorem Orderly.allBlocked (h : Orderly l) (hnodup : (l.map (·.id)).Nodup) (hstop : Stopped l) : AllBlocked l := by
  intro r hr hrp
  rcases hstop with hnone | ⟨a, f, b, rfl, hfp, hfirst, x, hx, hc⟩
  · rw [hnone r hr] at hrp
    exact Bool.noConfusion hrp
  have hx' : x ∈ a ++ f :: b :=
    mem_append.mpr ((mem_append.mp hx).imp id (mem_cons_of_mem _))
  have hf : f ∈ a ++ f :: b := mem_append_right _ mem_cons_self
  have hxf : x.id ≠ f.id := ne_of_nodup hnodup x hx
  obtain ⟨hsees, hbehind⟩ := h f hf hfp x hx' hxf x.look (mem_append_left _ mem_cons_self) (.inl hc)
  rcases mem_append.mp hr with hra | hrb
  · rw [hfirst r hra] at hrp
    exact Bool.noConfusion hrp
  · rcases mem_cons.mp hrb with rfl | hrb
    · exact ⟨x, hx', hxf, hsees⟩
    · have hahead : Ahead ((a ++ f :: b).map (·.id)) f.id r.id := by
        rw [map_append]
        refine sublist_append_of_sublist_right (Sublist.cons_cons _ ?_)
        exact singleton_sublist.mpr (mem_map_of_mem hrb)
      have hne := ne_of_nodup hnodup r (mem_append_right _ hrb)
      rcases hbehind r hr hrp hahead with hs | ⟨hrx, hs⟩
      · exact ⟨f, hf, Ne.symm hne, hs.imp fun _ => hahead⟩
      · exact ⟨x, hx', Ne.symm hrx, hs⟩

end Queues

section PostPending
variable {key : LockKey} {next : RequestId} {own : Pending} {lock : Lbl} {a b l rest : List Lrq} {r : Lrq}

theorem LockInv.exists_other (h : LockInv key next own lock (r :: rest)) {type : Level}
    (hc : compatible type (others lock r) = false) : ∃ x ∈ rest, compatible type x.state = false := by
  have heq : others lock r = lockState (without lock r) := by
    unfold others without
    split
    · rfl
    · exact h.state
  rw [heq] at hc
  have hne : lockState (without lock r) ≠ .none := by
    intro hnone
    rw [hnone, compatible_none] at hc
    exact Bool.noConfusion hc
  have hpos := lockState_counts hne
  rw [h.counts_without _ hne] at hpos
  obtain ⟨x, hx, hin⟩ := countP_pos_iff.mp (Nat.pos_of_ne_zero hpos)
  refine ⟨x, hx, ?_⟩
  rw [eq_of_beq hin]
  exact hc

theorem grant_request (key : LockKey) (own : Pending) (lock : Lbl) (r : Lrq) (hp : r.pending = true) :
    (grant key own lock r).2.2 = { r with state := r.requested, pending := false } := by
  unfold grant
  rw [if_pos hp]
  rfl

theorem Level.max_self (s : Level) : s.max s = s := by
  cases s <;> rfl

theorem looks_granted {ids : List RequestId} {id : RequestId} (hp : r.pending = true) (hahead : Ahead ids r.id id)
    {look : Look} (h : look ∈ ({ r with state := r.requested, pending := false } : Lrq).looks ids id) :
    look ∈ r.looks ids id := by
  unfold Lrq.looks Lrq.look at h
  rw [Level.max_self, if_neg (fun hcase => Bool.noConfusion hcase.1)] at h
  unfold Lrq.looks
  rw [if_pos ⟨hp, hahead⟩]
  refine mem_append_right _ (mem_singleton.mpr ?_)
  rcases mem_cons.mp h with rfl | h
  · rfl
  · exact mem_singleton.mp h

theorem Orderly.grant (h : Orderly (a ++ r :: b)) (hnodup : ((a ++ r :: b).map (·.id)).Nodup) (hp : r.pending = true)
    (ha : ∀ y ∈ a, y.pending = false) (key : LockKey) (own : Pending) (lock : Lbl) :
    Orderly (a ++ (Lock.grant key own lock r).2.2 :: b) := by
  rw [grant_request key own lock r hp]
  refine h.replace hnodup rfl rfl fun f hf hfp look hlook => looks_granted hp ?_ hlook
  rcases mem_append.mp hf with hf | hf
  · rw [ha f hf] at hfp
    exact Bool.noConfusion hfp
  · rw [map_append]
    refine sublist_append_of_sublist_right (Sublist.cons_cons _ ?_)
    exact singleton_sublist.mpr (mem_map_of_mem hf)

theorem grantPending_orderly (h : LockInv key next own lock (a ++ l)) (horderly : Orderly (a ++ l))
    (ha : ∀ y ∈ a, y.pending = false) :
    Orderly (a ++ (grantPending key own lock l).2.2) ∧ Stopped (a ++ (grantPending key own lock l).2.2) := by
  induction l generalizing own lock a with
  | nil =>
    refine ⟨horderly, .inl ?_⟩
    rw [grantPending, append_nil]
    exact ha
  | cons r rest ih =>
    have hcons := h.perm perm_middle
    have hskip : r.pending = false → Orderly (a ++ r :: (grantPending key own lock rest).2.2) ∧
        Stopped (a ++ r :: (grantPending key own lock rest).2.2) := fun hp => by
      have hinv : LockInv key next own lock (a ++ [r] ++ rest) := by simpa using h
      have hord : Orderly (a ++ [r] ++ rest) := by simpa using horderly
      have hi := ih hinv hord fun y hy => by
        rcases mem_append.mp hy with hy | hy
        · exact ha y hy
        · rw [mem_singleton.mp hy]
          exact hp
      simpa using hi
    have hgrant : r.pending = true → compatible r.requested (others lock r) = true →
        Orderly (a ++ (grant key own (without lock r) r).2.2 ::
          (grantPending key (grant key own (without lock r) r).2.1 (grant key own (without lock r) r).1 rest).2.2) ∧
        Stopped (a ++ (grant key own (without lock r) r).2.2 ::
          (grantPending key (grant key own (without lock r) r).2.1 (grant key own (without lock r) r).1 rest).2.2) :=
      fun hp hc => by
        have hgranted := (hcons.grant_without hc).perm (@perm_middle _ _ a rest).symm
        have hinv : LockInv key next (grant key own (without lock r) r).2.1 (grant key own (without lock r) r).1
            (a ++ [(grant key own (without lock r) r).2.2] ++ rest) := by simpa using hgranted
        have hord : Orderly (a ++ [(grant key own (without lock r) r).2.2] ++ rest) := by
          simpa using horderly.grant h.ids.nodup hp ha key own (without lock r)
        have hi := ih hinv hord fun y hy => by
          rcases mem_append.mp hy with hy | hy
          · exact ha y hy
          · rw [mem_singleton.mp hy, grant_request _ _ _ _ hp]
        simpa using hi
    have hstop : r.pending = true → ¬ compatible r.requested (others lock r) = true → Stopped (a ++ r :: rest) :=
      fun hp hc => .inr ⟨a, r, rest, rfl, hp, ha, hcons.exists_other (Bool.not_eq_true _ ▸ hc)⟩
    unfold grantPending
    by_cases hp : r.pending = true
    · by_cases hs : r.state = .none
      · have hothers : others lock r = lock.state := if_neg (not_not.mpr hs)
        have hwithout : without lock r = lock := if_neg (not_not.mpr hs)
        rw [hothers] at hgrant hstop
        rw [hwithout] at hgrant
        rw [if_neg (by rw [hp]; exact Bool.false_ne_true), if_neg (not_not.mpr hs)]
        split
        · exact hgrant hp ‹_›
        · exact ⟨horderly, hstop hp ‹_›⟩
      · have hothers : others lock r = lockState (lock.sub r.state) := if_pos hs
        have hwithout : without lock r = lock.sub r.state := if_pos hs
        rw [hothers] at hgrant hstop
        rw [hwithout] at hgrant
        rw [if_neg (by rw [hp]; exact Bool.false_ne_true), if_pos hs]
        split
        · exact hgrant hp ‹_›
        · exact ⟨horderly, hstop hp ‹_›⟩
    · have hp' : r.pending = false := Bool.not_eq_true _ ▸ hp
      rw [if_pos (by rw [hp']; rfl)]
      exact hskip hp'

theorem postPending_orderly (h : LockInv key next own lock lock.requests) (horderly : Orderly lock.requests) :
    Orderly (postPending key own lock).1.requests ∧ Stopped (postPending key own lock).1.requests := by
  unfold postPending
  split
  · rename_i hz
    have hnone : lock.requests.countP (·.pending) = 0 := h.pendingCount.symm.trans hz
    refine ⟨horderly, .inl fun y hy => ?_⟩
    exact Bool.not_eq_true _ ▸ countP_eq_zero.mp hnone y hy
  · exact grantPending_orderly (a := []) h horderly nofun

end PostPending

end Firebird.Lock
