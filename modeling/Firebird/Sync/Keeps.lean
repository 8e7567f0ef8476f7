import Firebird.Sync.SyncObject

/-! # What the steps of threads keep -/

namespace Firebird.Sync

open Function List

variable {T : Type} {owners : List (T × SyncType)} {monitorCount : Nat} {lockState : Int} {t u : T} {type : SyncType}

/-- One thread has the lock exclusively, once more for each of `monitorCount`, or all that have it share it. -/
def Owned (owners : List (T × SyncType)) (monitorCount : Nat) (lockState : Int) : Prop :=
  (∃ t, owners = replicate (monitorCount + 1) (t, .exclusive) ∧ lockState = -1) ∨
    (∀ o ∈ owners, o.2 = .shared) ∧ monitorCount = 0 ∧ lockState = owners.length

namespace Owned

section
variable (h : Owned owners monitorCount lockState)
include h

theorem alone (ht : (t, .exclusive) ∈ owners) :
    owners = replicate (monitorCount + 1) (t, .exclusive) ∧ lockState = -1 := by
  rcases h with ⟨u, rfl, hl⟩ | ⟨hshared, -, -⟩
  · cases eq_of_mem_replicate ht
    exact ⟨rfl, hl⟩
  · cases hshared _ ht

theorem eq_of_mem (hu : (u, .exclusive) ∈ owners) (ht : (t, type) ∈ owners) :
    u = t := by
  rw [(h.alone hu).1] at ht
  cases eq_of_mem_replicate ht
  rfl

theorem shares (hl : 0 ≤ lockState) :
    (∀ o ∈ owners, o.2 = .shared) ∧ monitorCount = 0 ∧ lockState = owners.length := by
  rcases h with ⟨u, -, rfl⟩ | h
  · exact absurd hl (by decide)
  · exact h

end

theorem nobody (h : Owned owners monitorCount 0) : owners = [] ∧ monitorCount = 0 := by
  obtain ⟨-, hm, hl⟩ := h.shares (Int.le_refl 0)
  exact ⟨length_eq_zero_iff.mp (Int.ofNat_eq_zero.mp hl.symm), hm⟩

section
variable (h : Owned owners monitorCount lockState)
include h

theorem take (ha : type.Admits lockState) :
    Owned ((t, type) :: owners) monitorCount (type.locked lockState) := by
  cases type with
  | shared =>
    obtain ⟨hshared, hm, rfl⟩ := h.shares ha
    refine .inr ⟨forall_mem_cons.mpr ⟨rfl, hshared⟩, hm, ?_⟩
    rfl
  | exclusive =>
    obtain rfl : lockState = 0 := ha
    obtain ⟨rfl, rfl⟩ := h.nobody
    exact .inl ⟨t, rfl, rfl⟩

theorem again (ht : (t, .exclusive) ∈ owners) :
    Owned ((t, .exclusive) :: owners) (monitorCount + 1) lockState := by
  obtain ⟨rfl, hl⟩ := h.alone ht
  exact .inl ⟨t, rfl, hl⟩

theorem wake (hl : 0 ≤ lockState) (woken : List T) :
    Owned (woken.map (·, .shared) ++ owners) monitorCount (lockState + woken.length) := by
  obtain ⟨hshared, hm, rfl⟩ := h.shares hl
  refine .inr ⟨forall_mem_append.mpr ⟨forall_mem_map.mpr fun _ _ => rfl, hshared⟩, hm, ?_⟩
  rw [length_append, length_map, Int.natCast_add, Int.add_comm]

end

variable [DecidableEq T]

theorem leave (h : Owned owners monitorCount lockState) (hm : monitorCount ≠ 0) (ht : (t, type) ∈ owners) :
    (t, .exclusive) ∈ owners.erase (t, type) ∧ Owned (owners.erase (t, type)) (monitorCount - 1) lockState := by
  rcases h with ⟨u, rfl, hl⟩ | ⟨-, hzero, -⟩
  · cases eq_of_mem_replicate ht
    obtain ⟨m, rfl⟩ := Nat.exists_eq_succ_of_ne_zero hm
    rw [replicate_succ, erase_cons_head]
    exact ⟨.head _, .inl ⟨t, rfl, hl⟩⟩
  · exact absurd hzero hm

theorem release (h : Owned owners 0 lockState) (ht : (t, type) ∈ owners) :
    (∀ u, (u, .exclusive) ∉ owners.erase (t, type)) ∧ Owned (owners.erase (t, type)) 0 (type.unlocked lockState) := by
  cases type with
  | shared =>
    rcases h with ⟨u, rfl, -⟩ | ⟨hshared, -, rfl⟩
    · cases eq_of_mem_replicate ht
    · have herased : ∀ o ∈ owners.erase (t, .shared), o.2 = .shared := fun o ho => hshared o (mem_of_mem_erase ho)
      refine ⟨fun u hu => (nomatch herased _ hu), .inr ⟨herased, rfl, ?_⟩⟩
      rw [length_erase_of_mem ht, Int.natCast_pred_of_pos (length_pos_of_mem ht)]
      rfl
  | exclusive =>
    obtain ⟨rfl, -⟩ := h.alone ht
    rw [replicate_succ, erase_cons_head]
    exact ⟨nofun, .inr ⟨nofun, rfl, rfl⟩⟩

end Owned

namespace Stage

def holds : Stage → Option SyncType
  | setOwner => some .exclusive
  | asleep type _ true => some type
  | testMonitor type => some type
  | clearOwner type => some type
  | readHeld type => some type
  | release type _ => some type
  | clearWriter => some .exclusive
  | turnReader => some .exclusive
  | _ => none

def isLast : Stage → Bool
  | clearOwner _ => true
  | readHeld _ => true
  | release _ _ => true
  | clearWriter => true
  | turnReader => true
  | _ => false

theorem isSome_holds {stage : Stage} (h : stage.isLast = true) : stage.holds.isSome = true := by
  cases stage <;> first | rfl | cases h

def isUnnamed : Stage → Bool
  | setOwner => true
  | readHeld _ => true
  | release _ _ => true
  | turnReader => true
  | _ => false

def waits : Stage → Option SyncType
  | asleep type _ false => some type
  | _ => none

def wakes : Stage → Bool
  | testWaiting => true
  | grant => true
  | _ => false

end Stage

structure Inv (s : State T) : Prop where
  owned : Owned s.owners s.monitorCount s.lockState
  holds : ∀ t type, (s.stage t).holds = some type → (t, type) ∈ s.owners
  last : ∀ t, (s.stage t).isLast = true → s.monitorCount = 0
  owner : ∀ t, s.exclusiveThread = some t ↔ (t, .exclusive) ∈ s.owners ∧ (s.stage t).isUnnamed = false
  waits : ∀ t type, (t, type) ∈ s.waitingThreads ↔ (s.stage t).waits = some type
  nodup : s.waitingThreads.Nodup
  waiters : s.waiters = (s.waitingThreads.map (·.2.waiterIncr)).sum

theorem Inv.initial : Inv (initial T) where
  owned := .inr ⟨nofun, rfl, rfl⟩
  holds := nofun
  last := nofun
  owner := fun _ => ⟨nofun, fun h => nomatch h.1⟩
  waits := fun _ _ => ⟨nofun, nofun⟩
  nodup := .nil
  waiters := rfl

variable [DecidableEq T] {s : State T} {stage old : Stage} {exclusiveThread : Option T}

theorem apply_update {β : Type} {f : Stage → β} (ht : s.stage t = old) (hf : f stage = f old) (u : T) :
    f (update s.stage t stage u) = f (s.stage u) := by
  by_cases hut : u = t
  · subst hut
    rw [update_self, ht, hf]
  · rw [update_of_ne hut]

section
variable (h : Inv s) (ht : s.stage t = old)
include h ht

theorem Inv.move (howned : Owned owners monitorCount lockState)
    (hother : ∀ u type, u ≠ t → (s.stage u).holds = some type → (u, type) ∈ owners)
    (hholds : ∀ type, stage.holds = some type → (t, type) ∈ owners)
    (hothers : ∀ u, u ≠ t → (s.stage u).isLast = true → monitorCount = 0)
    (hlast : stage.isLast = true → monitorCount = 0)
    (howner : ∀ u, exclusiveThread = some u ↔ (u, .exclusive) ∈ owners ∧ (update s.stage t stage u).isUnnamed = false)
    (hwaits : stage.waits = old.waits) :
    Inv ⟨lockState, s.waiters, monitorCount, exclusiveThread, s.waitingThreads, update s.stage t stage, owners⟩ where
  owned := howned
  holds u type hu := by
    dsimp only at hu ⊢
    by_cases hut : u = t
    · subst hut
      rw [update_self] at hu
      exact hholds type hu
    · rw [update_of_ne hut] at hu
      exact hother u type hut hu
  last u hu := by
    dsimp only at hu
    by_cases hut : u = t
    · subst hut
      rw [update_self] at hu
      exact hlast hu
    · rw [update_of_ne hut] at hu
      exact hothers u hut hu
  owner := howner
  waits u type := by
    dsimp only
    rw [h.waits u type, apply_update ht hwaits]
  nodup := h.nodup
  waiters := h.waiters

theorem Inv.goTo (hholds : ∀ type, stage.holds = some type → (t, type) ∈ s.owners)
    (hlast : stage.isLast = true → s.monitorCount = 0) (hunnamed : stage.isUnnamed = old.isUnnamed)
    (hwaits : stage.waits = old.waits) : Inv (s.goTo t stage) :=
  h.move ht h.owned (fun u type _ => h.holds u type) hholds (fun u _ => h.last u) hlast
    (fun u => (apply_update ht hunnamed u).symm ▸ h.owner u) hwaits

/-- The lock is taken, and `exclusiveThread` is set for an exclusive one, now or in the next step. -/
theorem Inv.take (ha : type.Admits s.lockState)
    (hold : old.isUnnamed = false ∧ old.waits = none) (hstage : stage.holds = none ∨
      stage = .setOwner ∧ type = .exclusive)
    (hplain : stage.isLast = false ∧ stage.waits = none)
    (hset : stage.isUnnamed = false ∧ exclusiveThread = (if type = .exclusive then some t else s.exclusiveThread) ∨
      stage.isUnnamed = decide (type = .exclusive) ∧ exclusiveThread = s.exclusiveThread) :
    Inv { s.take t type stage with exclusiveThread := exclusiveThread } := by
  refine h.move ht (h.owned.take ha) (fun u type _ hu => .tail _ (h.holds u type hu)) ?_ (fun u _ => h.last u) ?_ ?_
    (hplain.2.trans hold.2.symm)
  · intro type' hholds
    rcases hstage with hnone | ⟨rfl, rfl⟩
    · exact nomatch hnone.symm.trans hholds
    · cases hholds
      exact .head _
  · intro hlast
    exact nomatch hplain.1.symm.trans hlast
  · intro u
    cases type with
    | shared =>
      obtain ⟨hunnamed, rfl⟩ : stage.isUnnamed = false ∧ exclusiveThread = s.exclusiveThread := by simpa using hset
      rw [apply_update ht (hunnamed.trans hold.1.symm), h.owner u]
      exact and_congr_left fun _ => ⟨.tail _, fun hu => (mem_cons.mp hu).resolve_left nofun⟩
    | exclusive =>
      obtain ⟨hnil, -⟩ : s.owners = [] ∧ _ := ((show s.lockState = 0 from ha) ▸ h.owned).nobody
      have hnone : ∀ v, s.exclusiveThread ≠ some v := fun v hv => by
        have hmem := ((h.owner v).mp hv).1
        rw [hnil] at hmem
        cases hmem
      show exclusiveThread = some u ↔ (u, .exclusive) ∈ (t, .exclusive) :: s.owners ∧ _
      rw [hnil, mem_singleton]
      rcases hset with ⟨hunnamed, rfl⟩ | ⟨hunnamed, rfl⟩
      · constructor
        · rintro ⟨⟩
          exact ⟨rfl, by rw [update_self, hunnamed]⟩
        · rintro ⟨⟨⟩, -⟩
          rfl
      · refine ⟨fun hu => absurd hu (hnone u), ?_⟩
        rintro ⟨⟨⟩, hnamed⟩
        rw [update_self, hunnamed] at hnamed
        cases hnamed

theorem Inv.again (howner : s.exclusiveThread = some t)
    (hold : old.isUnnamed = false ∧ old.waits = none) :
    Inv { s.goTo t .outside with monitorCount := s.monitorCount + 1, owners := (t, .exclusive) :: s.owners } := by
  have hmem := ((h.owner t).mp howner).1
  refine h.move ht (h.owned.again hmem) (fun u type _ hu => .tail _ (h.holds u type hu)) nofun ?_ nofun ?_ hold.2.symm
  · intro u hne hlast
    obtain ⟨type, hholds⟩ := Option.isSome_iff_exists.mp (Stage.isSome_holds hlast)
    exact absurd (h.owned.eq_of_mem hmem (h.holds u type hholds)).symm hne
  · intro u
    rw [apply_update ht (show Stage.outside.isUnnamed = _ from hold.1.symm)]
    refine (h.owner u).trans (and_congr_left fun _ => ⟨.tail _, fun hu => ?_⟩)
    rcases mem_cons.mp hu with heq | hu
    · exact heq ▸ hmem
    · exact hu

end

theorem Inv.setOwner (h : Inv s) (ht : s.stage t = .setOwner) :
    Inv { s.goTo t .outside with exclusiveThread := some t } := by
  have hmem := h.holds t .exclusive (by rw [ht]; rfl)
  refine h.move ht h.owned (fun u type _ => h.holds u type) nofun (fun u _ => h.last u) nofun ?_ rfl
  intro u
  constructor
  · rintro ⟨⟩
    exact ⟨hmem, by rw [update_self]; rfl⟩
  · intro hu
    rw [h.owned.eq_of_mem hu.1 hmem]

theorem Inv.clear (h : Inv s) (ht : s.stage t = old) (hheld : old.holds = some type) (hlast : old.isLast = true)
    (hstage : stage.holds = some type ∧ stage.isUnnamed = true ∧ stage.waits = old.waits) :
    Inv { s.goTo t stage with exclusiveThread := none } := by
  have hmem := h.holds t type (by rw [ht, hheld])
  refine h.move ht h.owned (fun u type _ => h.holds u type) ?_ (fun u _ => h.last u)
    (fun _ => h.last t (by rw [ht, hlast])) ?_ hstage.2.2
  · intro type' hholds
    cases hstage.1.symm.trans hholds
    exact hmem
  · refine fun u => ⟨nofun, fun ⟨hu, hnamed⟩ => ?_⟩
    rw [h.owned.eq_of_mem hu hmem, update_self, hstage.2.1] at hnamed
    cases hnamed

theorem Inv.leave (h : Inv s) (ht : s.stage t = .testMonitor type) (hm : s.monitorCount ≠ 0) :
    Inv { s.goTo t .outside with monitorCount := s.monitorCount - 1, owners := s.owners.erase (t, type) } := by
  have hmem := h.holds t type (by rw [ht]; rfl)
  obtain ⟨howner, howned⟩ := h.owned.leave hm hmem
  refine h.move ht howned ?_ nofun (fun u _ hlast => absurd (h.last u hlast) hm) nofun ?_ rfl
  · exact fun u type' hne hu => (mem_erase_of_ne fun heq => hne (congrArg Prod.fst heq)).mpr (h.holds u type' hu)
  · intro u
    rw [apply_update ht (show Stage.outside.isUnnamed = _ from rfl)]
    refine (h.owner u).trans (and_congr_left fun _ => ⟨fun hu => ?_, mem_of_mem_erase⟩)
    rw [h.owned.eq_of_mem hu hmem]
    exact howner

theorem Inv.release (h : Inv s) (ht : s.stage t = old) (hheld : old.holds = some type) (hlast : old.isLast = true)
    (hold : old.isUnnamed = true ∧ old.waits = none) {kept : List (T × SyncType)}
    (hkept : kept = [] ∨ kept = [(t, .shared)])
    (howned : ∀ rest, Owned rest 0 (type.unlocked s.lockState) → Owned (kept ++ rest) 0 lockState)
    (hstage : stage.holds = none ∧ stage.waits = none) :
    Inv { s.goTo t stage with lockState := lockState, owners := kept ++ s.owners.erase (t, type) } := by
  have hmem := h.holds t type (by rw [ht, hheld])
  have hm := h.last t (by rw [ht, hlast])
  obtain ⟨hnobody, hrest⟩ := (hm ▸ h.owned).release hmem
  refine h.move ht (hm ▸ howned _ hrest) ?_ ?_ (fun u _ => h.last u) (fun _ => hm) ?_ (hstage.2.trans hold.2.symm)
  · exact fun u type' hne hu => mem_append_right _
      ((mem_erase_of_ne fun heq => hne (congrArg Prod.fst heq)).mpr (h.holds u type' hu))
  · exact fun type' hholds => nomatch hstage.1.symm.trans hholds
  · refine fun u => ⟨fun hu => ?_, fun ⟨hu, _⟩ => ?_⟩
    · obtain ⟨hu, hnamed⟩ := (h.owner u).mp hu
      rw [h.owned.eq_of_mem hu hmem, ht, hold.1] at hnamed
      cases hnamed
    · rcases hkept with rfl | rfl
      · exact absurd hu (hnobody u)
      · exact absurd ((mem_cons.mp hu).resolve_left nofun) (hnobody u)

/-- The number of threads in the list that wait for a lock of the type. -/
def State.waiting (s : State T) (type : SyncType) : Nat := s.waitingThreads.countP (·.2 = type)

omit [DecidableEq T] in
theorem sum_waiterIncr (l : List (T × SyncType)) :
    (l.map (·.2.waiterIncr)).sum = l.countP (·.2 = .shared) + writerIncr * l.countP (·.2 = .exclusive) := by
  induction l with
  | nil => rfl
  | cons r l ih =>
    obtain ⟨u, type⟩ := r
    rw [map_cons, sum_cons, ih]
    cases type with
    | shared =>
      rw [countP_cons_of_pos rfl, countP_cons_of_neg (by exact nofun)]
      exact (Nat.add_comm ..).trans (Nat.add_right_comm ..)
    | exclusive =>
      rw [countP_cons_of_neg (by exact nofun), countP_cons_of_pos rfl]
      exact (Nat.add_left_comm ..).trans (congrArg _ (Nat.add_comm ..))

theorem Inv.requeue (h : Inv s) (ht : s.stage t = old) (hholds : stage.holds = old.holds)
    (hlast : stage.isLast = old.isLast) (hunnamed : stage.isUnnamed = old.isUnnamed) {l : List (T × SyncType)} {n : Nat}
    (hwaits : ∀ u type, (u, type) ∈ l ↔ (update s.stage t stage u).waits = some type) (hnodup : l.Nodup)
    (hsum : n = (l.map (·.2.waiterIncr)).sum) : Inv { s.goTo t stage with waiters := n, waitingThreads := l } where
  owned := h.owned
  holds u type hu := h.holds u type ((apply_update ht hholds u).symm.trans hu)
  last u hu := h.last u ((apply_update ht hlast u).symm.trans hu)
  owner u := (apply_update ht hunnamed u).symm ▸ h.owner u
  waits := hwaits
  nodup := hnodup
  waiters := hsum

omit [DecidableEq T] in
theorem Inv.notMem (h : Inv s) (ht : (s.stage t).waits = none) (type : SyncType) : (t, type) ∉ s.waitingThreads :=
  fun hmem => nomatch ht.symm.trans ((h.waits t type).mp hmem)

theorem Inv.sleep (h : Inv s) {c : Call} (ht : s.stage t = .enter c) :
    Inv { s.goTo t (.asleep c.type c.timeOut false) with
      waiters := s.waiters + c.type.waiterIncr
      waitingThreads := s.waitingThreads ++ [(t, c.type)] } := by
  have hnot : ∀ type, (t, type) ∉ s.waitingThreads := h.notMem (by rw [ht]; rfl)
  refine h.requeue ht (show (Stage.asleep c.type c.timeOut false).holds = _ from rfl) rfl rfl (fun u type => ?_) ?_ ?_
  · rw [mem_append, mem_singleton]
    by_cases hut : u = t
    · subst hut
      rw [update_self]
      exact ⟨fun hu => by cases hu.resolve_left (hnot type); rfl, fun hu => .inr (by cases hu; rfl)⟩
    · rw [update_of_ne hut, h.waits]
      exact or_iff_left fun heq => hut (congrArg Prod.fst heq)
  · exact nodup_append.mpr ⟨h.nodup, pairwise_singleton _ _, fun a ha b hb heq =>
      hnot c.type (mem_singleton.mp hb ▸ heq ▸ ha)⟩
  · rw [h.waiters, map_append, sum_append]
    rfl

theorem Inv.expire (h : Inv s) {timeOut : Int} (ht : s.stage t = .asleep type timeOut false) :
    Inv (s.expire t type) := by
  have hmem : (t, type) ∈ s.waitingThreads := (h.waits t type).mpr (by rw [ht]; rfl)
  refine h.requeue ht (show Stage.outside.holds = _ from rfl) rfl rfl (fun u type' => ?_) (h.nodup.erase _) ?_
  · rw [h.nodup.mem_erase_iff, h.waits]
    by_cases hut : u = t
    · subst hut
      rw [update_self, ht]
      exact ⟨fun ⟨hne, heq⟩ => by cases heq; exact absurd rfl hne, nofun⟩
    · rw [update_of_ne hut]
      exact and_iff_right fun heq => hut (congrArg Prod.fst heq)
  · rw [h.waiters, ((perm_cons_erase hmem).map _).sum_eq, map_cons, sum_cons]
    exact Nat.add_sub_cancel_left ..

theorem Stage.eq_asleep (h : stage.waits = some type) : ∃ timeOut, stage = .asleep type timeOut false := by
  cases stage with
  | asleep type' timeOut lockGranted =>
    cases lockGranted with
    | false =>
      cases h
      exact ⟨timeOut, rfl⟩
    | true => cases h
  | _ => cases h

@[simp] theorem Stage.isLast_granted (stage : Stage) : stage.granted.isLast = stage.isLast := by
  cases stage <;> rfl

@[simp] theorem Stage.isUnnamed_granted (stage : Stage) : stage.granted.isUnnamed = stage.isUnnamed := by
  cases stage <;> rfl

theorem Inv.wake (h : Inv s) {woken : List T} {rest : List (T × SyncType)}
    (hperm : woken.map (·, type) ++ rest ~ s.waitingThreads)
    (howned : Owned (woken.map (·, type) ++ s.owners) s.monitorCount lockState)
    (howner : ∀ u, exclusiveThread = some u ↔
      (u, .exclusive) ∈ woken.map (·, type) ++ s.owners ∧ (s.stage u).isUnnamed = false) :
    Inv { s.wake woken type rest with lockState := lockState, exclusiveThread := exclusiveThread } := by
  have hnodup := hperm.nodup_iff.mpr h.nodup
  have hwoken : ∀ u ∈ woken, ∃ timeOut, s.stage u = .asleep type timeOut false := fun u hu =>
    Stage.eq_asleep ((h.waits u type).mp (hperm.subset (mem_append_left _ (mem_map_of_mem hu))))
  refine ⟨howned, fun u type' hu => ?_, fun u hu => ?_, fun u => ?_, fun u type' => ?_,
    (nodup_append.mp hnodup).2.1, ?_⟩
  · change (if u ∈ woken then (s.stage u).granted else s.stage u).holds = some type' at hu
    split at hu
    · rename_i hmem
      obtain ⟨timeOut, heq⟩ := hwoken u hmem
      rw [heq] at hu
      cases hu
      exact mem_append_left _ (mem_map_of_mem hmem)
    · exact mem_append_right _ (h.holds u type' hu)
  · change (if u ∈ woken then (s.stage u).granted else s.stage u).isLast = true at hu
    refine h.last u ?_
    split at hu
    · rwa [Stage.isLast_granted] at hu
    · exact hu
  · change _ ↔ _ ∧ (if u ∈ woken then (s.stage u).granted else s.stage u).isUnnamed = false
    rw [apply_ite Stage.isUnnamed, Stage.isUnnamed_granted, ite_self]
    exact howner u
  · change _ ↔ (if u ∈ woken then (s.stage u).granted else s.stage u).waits = some type'
    by_cases hmem : u ∈ woken
    · obtain ⟨timeOut, heq⟩ := hwoken u hmem
      rw [if_pos hmem, heq]
      refine ⟨fun hrest => ?_, nofun⟩
      have htype := (h.waits u type').mp (hperm.subset (mem_append_right _ hrest))
      rw [heq] at htype
      cases htype
      exact absurd rfl ((nodup_append.mp hnodup).2.2 _ (mem_map_of_mem hmem) _ hrest)
    · rw [if_neg hmem, ← h.waits, ← hperm.mem_iff, mem_append]
      refine (or_iff_right fun hu => hmem ?_).symm
      obtain ⟨v, hv, heq⟩ := mem_map.mp hu
      cases heq
      exact hv
  · change s.waiters - woken.length * type.waiterIncr = (rest.map (·.2.waiterIncr)).sum
    rw [h.waiters, ← (hperm.map _).sum_eq, map_append, map_map, sum_append]
    change (woken.map fun _ => type.waiterIncr).sum + _ - _ = _
    rw [map_const', sum_replicate_nat, Nat.add_sub_cancel_left]

end Firebird.Sync
