import Firebird.Btr.RootLatch

/-! # Pointers into the index root page that outlive a fetch

`BTR_reserve_slot` points to the first empty slot and goes on over the page, which is let go and fetched again where a
later slot has to be brought up to date. `BTR_copy_index` fetches the page a second time where its own slot has to be:
while it holds the page, unless the index is number 0, and then it still uses the pointer of the first fetch. -/

namespace Firebird.Btr

open Lib
open Tpc (TraState)

variable {env : Surroundings} {α β : Type} {w t : World} {id n : Nat} {I : World → Prop} {p : RootPointer}

theorem run_bind_ok {x : Act α} {f : α → Act β} {a : β} (h : (x >>= f) w = .ok a t) :
    ∃ b s, x w = .ok b s ∧ f b s = .ok a t := by
  cases hrun : x w with
  | ok b s => exact ⟨b, s, rfl, (run_bind hrun).symm.trans h⟩
  | error e s => exact absurd ((run_bind_error hrun).symm.trans h) nofun

theorem anyway {P : World → Prop} (x : Act α) : Triple P x (fun _ _ => True) fun _ _ => True := by
  intro w _
  cases x w with
  | ok | error => trivial

theorem answers {P : World → Prop} (x : Act β) (a : α) :
    Triple P (x >>= fun _ => pure a) (fun found _ => found = a) fun _ _ => True :=
  (anyway x).bind fun _ => .pure fun _ _ => rfl

/-! ### Slots that are brought up to date -/

/-- `checkIrtRepeat` finds something to modify in the slot; `n` questions were asked before. -/
def Outdated (env : Surroundings) (n : Nat) (skipInProgress : Bool) (rpt : IrtRepeat) : Prop :=
  match rpt.state with
  | .unused | .normal => False
  | .inProgress | .concurrently => skipInProgress = false ∧ env.cacheState (n + 1) rpt.transaction ≠ .active
  | .rollback | .commit | .kill | .migrate =>
    env.cacheState (n + 1) rpt.transaction = .committed ∨ env.cacheState (n + 1) rpt.transaction = .dead
  | .drop => rpt.transaction < env.oldestActive n

/-- What `checkIrtRepeat` asks before it answers that the slot has to be modified -/
def IrtRepeat.questions (rpt : IrtRepeat) : Nat := if rpt.state = .drop then 1 else 2

/-- What `transactionState` answers, unless a call fails. -/
def finalState (env : Surroundings) (n descTrans idxId : Nat) (creating : Bool) : TraState :=
  if env.cacheState n descTrans = .committed then
    if env.presence (n + 2) idxId = creating then .committed else .dead
  else env.cacheState n descTrans

/-- `modifyIrtRepeat` lets the page go. -/
def LetsGo (env : Surroundings) (n indexId : Nat) (rpt : IrtRepeat) : Prop :=
  match rpt.state with
  | .unused | .normal => False
  | .inProgress | .concurrently => True
  | .rollback => finalState env (n + 1) rpt.transaction indexId true = .dead
  | .kill => env.cacheState (n + 1) rpt.transaction = .committed ∨ env.cacheState (n + 1) rpt.transaction = .dead
  | .commit => finalState env (n + 1) rpt.transaction indexId false = .committed
  | .drop => rpt.transaction < env.oldestActive n
  | .migrate =>
    finalState env (n + 1) rpt.transaction indexId false = .committed ∨
      finalState env (n + 1) rpt.transaction indexId false = .dead

theorem checkIrtRepeat_outdated {skip : Bool} (hheld : w.held = true) (h : Outdated env w.clock skip (w.page.rpt id)) :
    checkIrtRepeat env id skip w =
      .ok true { w with held := skip, clock := w.clock + (w.page.rpt id).questions } := by
  have release : ∀ k, (do
      onlyIf (!skip) releaseRoot
      pure true : Act Bool) { w with clock := w.clock + k } =
        .ok true { w with held := skip, clock := w.clock + k } := by
    intro k
    cases skip with
    | true =>
      have hsame : ({ w with held := true, clock := w.clock + k } : World) = { w with clock := w.clock + k } := by
        rw [← hheld]
      rw [hsame]
      rfl
    | false =>
      exact run_bind (a := ()) (show releaseRoot _ = _ from if_pos hheld)
  unfold checkIrtRepeat
  rw [run_bind (readRoot_run hheld), run_bind (ask_run _)]
  unfold Outdated at h
  unfold IrtRepeat.questions
  cases hstate : (w.page.rpt id).state with
  | unused | normal =>
    rw [hstate] at h
    exact h.elim
  | inProgress | concurrently =>
    rw [hstate] at h
    obtain ⟨rfl, hactive⟩ := h
    dsimp only
    rw [if_neg nofun, run_bind (ask_run _), if_neg hactive]
    exact release 2
  | rollback | commit | kill | migrate =>
    rw [hstate] at h
    dsimp only
    rw [run_bind (ask_run _), if_pos h]
    exact release 2
  | drop =>
    rw [hstate] at h
    dsimp only
    rw [if_neg (Nat.not_le.mpr h)]
    exact release 1

theorem checkIrtRepeat_current {skip : Bool} (hheld : w.held = true)
    (h : ¬ Outdated env w.clock skip (w.page.rpt id)) :
    ∃ k, checkIrtRepeat env id skip w = .ok false { w with clock := k } := by
  unfold checkIrtRepeat
  rw [run_bind (readRoot_run hheld), run_bind (ask_run _)]
  unfold Outdated at h
  cases hstate : (w.page.rpt id).state with
  | unused | normal => exact ⟨w.clock + 1, rfl⟩
  | inProgress | concurrently =>
    rw [hstate] at h
    dsimp only
    cases skip with
    | true => exact ⟨w.clock + 1, if_pos rfl ▸ rfl⟩
    | false =>
      rw [if_neg nofun, run_bind (ask_run _), if_pos (Decidable.not_not.mp fun hactive => h ⟨rfl, hactive⟩)]
      exact ⟨w.clock + 2, rfl⟩
  | rollback | commit | kill | migrate =>
    rw [hstate] at h
    dsimp only
    rw [run_bind (ask_run _), if_neg h]
    exact ⟨w.clock + 2, rfl⟩
  | drop =>
    rw [hstate] at h
    dsimp only
    rw [if_pos (Nat.not_lt.mp h)]
    exact ⟨w.clock + 1, rfl⟩

theorem external_clock : Triple (fun w => w.clock = n) (external env) (fun _ t => t.clock = n + 1) fun _ _ => True := by
  rintro w rfl
  unfold external
  rw [run_bind (ask_run _)]
  split
  · trivial
  · rfl

theorem transactionState_value (descTrans idxId : Nat) (creating : Bool) :
    Triple (fun w => w.clock = n) (transactionState env descTrans idxId creating)
      (fun state _ => state = finalState env n descTrans idxId creating) fun _ _ => True := by
  rintro w rfl
  unfold transactionState finalState
  rw [run_bind (ask_run _)]
  by_cases hcommitted : env.cacheState w.clock descTrans = .committed
  · rw [if_pos hcommitted, if_pos hcommitted]
    refine external_clock.bind (fun _ => ?_) _ rfl
    rintro t ht
    rw [run_bind (ask_run _), ht]
    rfl
  · rw [if_neg hcommitted, if_neg hcommitted]
    rfl

/-- A slot that is not in progress: the page is not fetched again under way. -/
theorem modifyIrtRepeat_value {fromActivate : Bool} (hheld : w.held = true)
    (hstate : (w.page.rpt id).state ≠ .inProgress ∧ (w.page.rpt id).state ≠ .concurrently) :
    Ends (fun value _ => value.held = false ↔ LetsGo env w.clock id (w.page.rpt id)) (fun _ _ => True)
      (modifyIrtRepeat env id fromActivate w) := by
  have gives : ∀ {x : Act ModifyIrtRepeatValue} {value : ModifyIrtRepeatValue} {p : Prop},
      Triple (fun _ => True) x (fun v _ => v = value) (fun _ _ => True) → (value.held = false ↔ p) →
        Triple (fun _ => True) x (fun v _ => v.held = false ↔ p) fun _ _ => True := fun hx hp =>
    hx.post fun v _ hv => hv ▸ hp
  have keeps : ∀ {p : Prop}, ¬ p → ((ModifyIrtRepeatValue.skip).held = false ↔ p) := fun h =>
    ⟨nofun, fun h' => absurd h' h⟩
  unfold modifyIrtRepeat LetsGo
  rw [run_bind (readRoot_run hheld), run_bind (ask_run _)]
  generalize hroot : w.page = root at hstate ⊢
  cases hslot : (root.rpt id).state with
  | unused | normal => exact ⟨nofun, nofun⟩
  | inProgress => exact absurd hslot hstate.1
  | concurrently => exact absurd hslot hstate.2
  | rollback =>
    refine (transactionState_value _ _ _).bind (fun state s hs => ?_) _ rfl
    rw [← hs]
    refine Triple.ite (P := fun _ => True) (fun hcommitted => ?_)
      (fun _ => .ite (fun hdead => ?_) fun hdead => ?_) s trivial
    · exact gives (answers _ _) ⟨nofun, fun hdead => nomatch hcommitted.symm.trans hdead⟩
    · exact gives (answers _ _) ⟨fun _ => hdead, fun _ => rfl⟩
    · exact gives (.pure fun _ _ => rfl) (keeps hdead)
  | kill =>
    dsimp only
    rw [run_bind (ask_run _)]
    refine Triple.ite (P := fun _ => True) (fun hend => ?_) (fun hend => ?_) _ trivial
    · exact gives (answers _ _) ⟨fun _ => hend, fun _ => rfl⟩
    · exact gives (.pure fun _ _ => rfl) (keeps hend)
  | commit =>
    refine (transactionState_value _ _ _).bind (fun state s hs => ?_) _ rfl
    rw [← hs]
    refine Triple.ite (P := fun _ => True) (fun hcommitted => ?_)
      (fun hopen => .ite (fun _ => ?_) fun _ => ?_) s trivial
    · exact gives ((anyway _).bind fun _ => (anyway _).bind fun _ => (anyway _).bind fun _ => answers _ _)
        ⟨fun _ => hcommitted, fun _ => rfl⟩
    · exact gives (answers _ _) ⟨nofun, fun h => absurd h hopen⟩
    · exact gives (.pure fun _ _ => rfl) (keeps hopen)
  | drop =>
    dsimp only
    refine Triple.ite (P := fun _ => True) (fun hend => ?_) (fun hend => ?_) _ trivial
    · exact gives (answers _ _) ⟨fun _ => hend, fun _ => rfl⟩
    · exact gives (.pure fun _ _ => rfl) (keeps hend)
  | migrate =>
    refine (transactionState_value _ _ _).bind (fun state s hs => ?_) _ rfl
    rw [← hs]
    refine Triple.ite (P := fun _ => True) (fun hopen => ?_) (fun hend => ?_) s trivial
    · exact gives (.pure fun _ _ => rfl) (keeps fun h => h.elim hopen.1 hopen.2)
    · dsimp only
      split
      · exact (anyway _).bind fun _ => .raise fun _ _ => trivial
      · exact gives ((anyway _).bind fun _ => answers _ _)
          ⟨fun _ => by rwa [not_and_or, Decidable.not_not, Decidable.not_not] at hend, fun _ => rfl⟩

/-! ### `BTR_reserve_slot` -/

def FetchedSince (n : Nat) (w : World) : Prop := n ≤ w.fetches

instance : Surviving (FetchedSince n) where
  quiet hw _ hfetches := hw.trans hfetches.ge
  fetch hw _ hfetches := hw.trans ((Nat.le_succ _).trans hfetches.ge)

def FetchedOften (n : Nat) (w : World) : Prop := w.fetches = n

instance : Lasting (FetchedOften n) where
  quiet hw _ hfetches := hfetches.trans hw

section
variable (env) (creation : IndexCreation) (retry : Nat)

def skips (id : Nat) : Bool := if creation.idxId = id ∧ env.useIdxId then false else retry ≠ 1

/-- A used slot is brought up to date, and the page is fetched again on the way. -/
def Refetches (id : Nat) (w : World) : Prop :=
  Outdated env w.clock (skips env creation retry id) (w.page.rpt id) ∧
    (skips env creation retry id = true → LetsGo env (w.clock + (w.page.rpt id).questions) id (w.page.rpt id))

/-- The scan comes to the end of the page, and the page was fetched again after an empty slot was kept. -/
def ScanRefetches (id : Nat) (kept : Bool) (refetched : Prop) (w : World) : Prop :=
  if _ : id < w.page.count then
    match onlyIf (w.page.rpt id).isUsed (refreshUsed env creation retry id) w with
    | .error _ _ => False
    | .ok _ t => ScanRefetches (id + 1) (kept || (!(t.page.rpt id).isUsed && (!env.useIdxId || id = creation.idxId)))
        (refetched ∨ kept = true ∧ (w.page.rpt id).isUsed = true ∧ Refetches env creation retry id w) t
  else refetched
termination_by 2 ^ 16 - id
decreasing_by all_goals
  have := w.page.count_lt
  omega

end

variable {creation : IndexCreation} {retry : Nat}

theorem fetchRoot_ok (hheld : w.held = false) (hrun : fetchRoot env w = .ok () t) : t = w.fetch env := by
  cases hfails : env.fails w.clock with
  | true => exact absurd ((fetchRoot_fails hheld hfails).symm.trans hrun) nofun
  | false =>
    have hfetch := (fetchRoot_run hheld hfails).symm.trans hrun
    injection hfetch with _ hend
    exact hend.symm

theorem refetch_fetches {value : ModifyIrtRepeatValue} (hheld : w.held = value.held)
    (hrun : refetch env value w = .ok () t) : w.fetches ≤ t.fetches ∧ (t.fetches ≠ w.fetches ↔ value.held = false) := by
  cases value with
  | skip | modified =>
    obtain rfl : w = t := by injection hrun
    exact ⟨Nat.le_refl _, fun h => absurd rfl h, nofun⟩
  | relock | deleted =>
    obtain rfl := fetchRoot_ok hheld hrun
    exact ⟨Nat.le_succ _, fun _ => rfl, fun _ => Nat.succ_ne_self _⟩

theorem refreshUsed_fetches (hheld : w.held = true) (hrun : refreshUsed env creation retry id w = .ok () t) :
    w.fetches ≤ t.fetches ∧ (t.fetches ≠ w.fetches ↔ Refetches env creation retry id w) := by
  unfold refreshUsed at hrun
  unfold Refetches skips
  generalize (if creation.idxId = id ∧ env.useIdxId then false else (decide (retry ≠ 1))) = skip at hrun ⊢
  by_cases hold : Outdated env w.clock skip (w.page.rpt id)
  · rw [run_bind (checkIrtRepeat_outdated hheld hold), if_pos rfl] at hrun
    cases skip with
    | false =>
      obtain ⟨⟨⟩, v, hv, hrun⟩ := run_bind_ok hrun
      have hfetch := @fetchRoot_ok env { w with held := false, clock := w.clock + (w.page.rpt id).questions } v rfl hv
      have hafter : Latched (FetchedSince (w.fetches + 1)) true (do
          let modValue ← modifyIrtRepeat env id false
          refetch env modValue) fun _ => true := (modifyIrtRepeat_latched id false).bind refetch_latched
      have hend := hafter v (hfetch ▸ ⟨rfl, Nat.le_refl (w.fetches + 1)⟩)
      unfold LatchedFrom at hend
      rw [hrun] at hend
      exact ⟨(Nat.le_succ _).trans hend.2, fun _ => ⟨hold, nofun⟩, fun _ => (Nat.lt_of_succ_le hend.2).ne'⟩
    | true =>
      obtain ⟨⟨⟩, v, hv, hrun⟩ := run_bind_ok hrun
      have hstart : v.held = true ∧ FetchedOften w.fetches v ∧ v.page = w.page ∧
          v.clock = w.clock + (w.page.rpt id).questions := by
        injection hv with _ hv
        exact hv ▸ ⟨rfl, rfl, rfl, rfl⟩
      obtain ⟨hv, hfetches, hpage, hclock⟩ := hstart
      have hstate : (v.page.rpt id).state ≠ .inProgress ∧ (v.page.rpt id).state ≠ .concurrently := by
        rw [hpage]
        unfold Outdated at hold
        grind
      have hmodify := @modifyIrtRepeat_settled env v id (FetchedOften w.fetches) _ false ⟨hv, hfetches⟩ hstate
      have hvalue := @modifyIrtRepeat_value env v id false hv hstate
      obtain ⟨value, s, hs, hrun⟩ := run_bind_ok hrun
      unfold LatchedFrom at hmodify
      rw [hs] at hmodify hvalue
      rw [hpage, hclock] at hvalue
      have hrefetch := refetch_fetches hmodify.1 hrun
      rw [show s.fetches = w.fetches from hmodify.2] at hrefetch
      exact ⟨hrefetch.1, hrefetch.2.trans (hvalue.trans ⟨fun h => ⟨hold, fun _ => h⟩, fun h => h.2 rfl⟩)⟩
  · obtain ⟨k, hcheck⟩ := checkIrtRepeat_current hheld hold
    rw [run_bind hcheck] at hrun
    obtain rfl : { w with clock := k } = t := by
      injection hrun
    exact ⟨Nat.le_refl _, fun h => absurd rfl h, fun h => absurd h.1 hold⟩

/-- The slot pointed to was found before the last fetch. -/
def LeftBehind (slot : Option SlotPointer) (w : World) : Prop := ∃ q, slot = some q ∧ q.fetch ≠ w.fetches

/-- The condition holds exactly if `x` comes to its end with a slot of an earlier fetch. -/
def Foretells (p : Prop) (x : Act (Option SlotPointer × Nat)) (w : World) : Prop :=
  Ends (fun place t => p ↔ LeftBehind place.1 t) (fun _ _ => ¬ p) (x w)

theorem scanStep_fetches (hheld : w.held = true)
    (hrun : onlyIf (w.page.rpt id).isUsed (refreshUsed env creation retry id) w = .ok () t) :
    t.held = true ∧ w.fetches ≤ t.fetches ∧
      (t.fetches ≠ w.fetches ↔ (w.page.rpt id).isUsed = true ∧ Refetches env creation retry id w) := by
  cases hused : (w.page.rpt id).isUsed with
  | false =>
    rw [hused] at hrun
    obtain rfl : w = t := by injection hrun
    exact ⟨hheld, Nat.le_refl _, fun h => absurd rfl h, nofun⟩
  | true =>
    rw [hused] at hrun
    have hlatched := @refreshUsed_latched env (FetchedSince 0) _ creation retry id w ⟨hheld, Nat.zero_le _⟩
    unfold LatchedFrom at hlatched
    rw [show refreshUsed env creation retry id w = .ok () t from hrun] at hlatched
    obtain ⟨hle, hiff⟩ := refreshUsed_fetches hheld hrun
    exact ⟨hlatched.1, hle, hiff.trans ⟨fun h => ⟨rfl, h⟩, fun h => h.2⟩⟩

theorem leftBehind_some {q : SlotPointer} : LeftBehind (some q) w ↔ q.fetch ≠ w.fetches :=
  ⟨fun ⟨_, hq, hfetch⟩ => Option.some.inj hq ▸ hfetch, fun h => ⟨q, rfl, h⟩⟩

theorem leftBehind_none : ¬ LeftBehind none w := fun ⟨_, hq, _⟩ => nomatch hq

/-- The slot that was kept goes on being kept. -/
theorem leftBehind_step {slot slot' : Option SlotPointer} {kept : Bool} {refetched step : Prop}
    (hkept : slot.isSome = kept) (hbefore : ∀ q, slot = some q → q.fetch ≤ w.fetches) (hle : w.fetches ≤ t.fetches)
    (hstep : t.fetches ≠ w.fetches ↔ step) (hrefetched : refetched ↔ LeftBehind slot w)
    (hslot : slot' = slot ∨ slot = none ∧ slot' = some ⟨id, t.fetches⟩) :
    (∀ q, slot' = some q → q.fetch ≤ t.fetches) ∧ (refetched ∨ kept = true ∧ step ↔ LeftBehind slot' t) := by
  subst hkept
  cases slot with
  | none =>
    have hnot : ¬ (refetched ∨ (none : Option SlotPointer).isSome = true ∧ step) := fun h =>
      h.elim (fun h => leftBehind_none (hrefetched.mp h)) fun h => nomatch h.1
    obtain rfl | ⟨-, rfl⟩ := hslot
    · exact ⟨nofun, fun h => absurd h hnot, fun h => absurd h leftBehind_none⟩
    · refine ⟨fun q hq => (Option.some.inj hq ▸ Nat.le_refl _), fun h => absurd h hnot, fun h => ?_⟩
      exact absurd rfl (leftBehind_some.mp h)
  | some q =>
    obtain rfl : slot' = some q := hslot.elim (fun h => h) fun h => nomatch h.1
    have hq := hbefore q rfl
    refine ⟨fun q' hq' => Option.some.inj hq' ▸ hq.trans hle, ?_⟩
    rw [hrefetched, leftBehind_some, leftBehind_some, ← hstep]
    constructor
    · rintro (h | ⟨-, h⟩) <;> omega
    · intro h
      by_cases hw : q.fetch = w.fetches
      · exact .inr ⟨rfl, fun heq => h (hw.trans heq.symm)⟩
      · exact .inl hw

theorem scanSlots_step {slot : Option SlotPointer} {space : Nat} (hheld : w.held = true) (hid : id < w.page.count)
    (hrun : onlyIf (w.page.rpt id).isUsed (refreshUsed env creation retry id) w = .ok () t) (ht : t.held = true) :
    scanSlots env creation retry id slot space w = if (t.page.rpt id).isUsed then
      scanSlots env creation retry (id + 1) slot (min space (t.page.rpt id).desc) t
    else scanSlots env creation retry (id + 1)
      (if slot.isNone && (!env.useIdxId || id = creation.idxId) then some ⟨id, t.fetches⟩ else slot) space t := by
  rw [scanSlots, run_bind (readRoot_run hheld), dif_pos hid, run_bind hrun, run_bind (readRoot_run ht)]
  cases (t.page.rpt id).isUsed <;> rfl

theorem scanSlots_end {slot : Option SlotPointer} {space : Nat} (hheld : w.held = true) (hid : ¬ id < w.page.count) :
    scanSlots env creation retry id slot space w = .ok (slot, space) w := by
  rw [scanSlots, run_bind (readRoot_run hheld), dif_neg hid]
  rfl

theorem scanSlots_leftBehind {slot : Option SlotPointer} {kept : Bool} {refetched : Prop} (space : Nat)
    (hheld : w.held = true)
    (hkept : slot.isSome = kept) (hbefore : ∀ q, slot = some q → q.fetch ≤ w.fetches)
    (hrefetched : refetched ↔ LeftBehind slot w) :
    Foretells (ScanRefetches env creation retry id kept refetched w)
      (scanSlots env creation retry id slot space) w := by
  induction hleft : 2 ^ 16 - id using Nat.strong_induction_on generalizing id slot kept refetched space w with
  | _ left ih =>
    subst hleft
    unfold Foretells ScanRefetches
    by_cases hid : id < w.page.count
    · rw [dif_pos hid]
      cases hrun : onlyIf (w.page.rpt id).isUsed (refreshUsed env creation retry id) w with
      | error e t =>
        rw [scanSlots, run_bind (readRoot_run hheld), dif_pos hid, run_bind_error hrun]
        exact fun h => h
      | ok a t =>
        obtain ⟨ht, hle, hiff⟩ := scanStep_fetches hheld hrun
        rw [scanSlots_step hheld hid hrun ht]
        have hless := Nat.sub_lt_sub_left (hid.trans w.page.count_lt) (Nat.lt_succ_self id)
        have next : ∀ slot' space', (slot' = slot ∨ slot = none ∧ slot' = some ⟨id, t.fetches⟩) → ∀ kept',
            slot'.isSome = kept' → Foretells (ScanRefetches env creation retry (id + 1) kept'
              (refetched ∨ kept = true ∧ (w.page.rpt id).isUsed = true ∧ Refetches env creation retry id w) t)
                (scanSlots env creation retry (id + 1) slot' space') t := fun slot' space' hslot kept' hsome =>
          have hnow := leftBehind_step hkept hbefore hle hiff hrefetched hslot
          ih _ hless space' ht hsome hnow.1 hnow.2 rfl
        dsimp only
        cases hused : (t.page.rpt id).isUsed with
        | true =>
          rw [if_pos rfl, Bool.not_true, Bool.false_and, Bool.or_false]
          exact next slot _ (.inl rfl) kept hkept
        | false =>
          rw [if_neg Bool.false_ne_true, Bool.not_false, Bool.true_and]
          refine next _ _ ?_ _ ?_
          · split
            case isTrue h => exact .inr ⟨Option.isNone_iff_eq_none.mp (Bool.and_eq_true_iff.mp h).1, rfl⟩
            case isFalse => exact .inl rfl
          · subst hkept
            cases slot with
            | none =>
              cases hfree : !env.useIdxId || decide (id = creation.idxId) <;> rfl
            | some q => rfl
    · rw [dif_neg hid, scanSlots_end hheld hid]
      exact hrefetched

def NoRoom (creation : IndexCreation) (space : Nat) (root : IndexRootPage) : Prop :=
  (space + 2 ^ 16 - creation.count * irtdSize % 2 ^ 16) % 2 ^ 16 < irtRepeatSize + irtRepeatSize * (root.count + 1)

instance (space : Nat) (root : IndexRootPage) : Decidable (NoRoom creation space root) := by
  unfold NoRoom
  infer_instance

/-- The page is fetched again behind the empty slot in the try that finds room. -/
def SearchRefetches (env : Surroundings) (creation : IndexCreation) (left : Nat) (w : World) : Prop :=
  match scanSlots env creation (2 - left) 0 none env.pageSize w with
  | .error _ _ => False
  | .ok (_, space) t =>
    if NoRoom creation space t.page then
      match left with
      | 0 => False
      | left + 1 => SearchRefetches env creation left
          (if left = 0 then { t with page := compressRoot env.pageSize t.page } else t)
    else ScanRefetches env creation (2 - left) 0 false False w

/-- One try, after which `again` follows where there is no room. -/
theorem oneTry_leftBehind {again : Act (Option SlotPointer × Nat)} {q : World → Prop} (hheld : w.held = true)
    (hagain : ∀ t : World, t.held = true → Foretells (q t) again t) :
    Foretells (match scanSlots env creation retry 0 none env.pageSize w with
      | .error _ _ => False
      | .ok (_, space) t =>
        if NoRoom creation space t.page then q t else ScanRefetches env creation retry 0 false False w)
      (do
        let (slot, space) ← scanSlots env creation retry 0 none env.pageSize
        let root ← readRoot
        let space := (space + 2 ^ 16 - creation.count * irtdSize % 2 ^ 16) % 2 ^ 16
        if space < irtRepeatSize + irtRepeatSize * (root.count + 1) then again else pure (slot, space)) w := by
  have hscan := @scanSlots_leftBehind env w 0 creation retry none false False env.pageSize hheld rfl nofun
    ⟨False.elim, leftBehind_none⟩
  have hlatched := @scanSlots_latched env (FetchedSince 0) _ creation retry 0 none env.pageSize w ⟨hheld, Nat.zero_le _⟩
  unfold Foretells at hscan ⊢
  unfold LatchedFrom at hlatched
  cases hrun : scanSlots env creation retry 0 none env.pageSize w with
  | error e t =>
    rw [run_bind_error hrun]
    exact fun h => h
  | ok place t =>
    obtain ⟨slot, space⟩ := place
    rw [hrun] at hscan hlatched
    rw [run_bind hrun]
    dsimp only
    rw [run_bind (readRoot_run hlatched.1)]
    by_cases hroom : NoRoom creation space t.page
    · rw [if_pos hroom, if_pos (show _ < irtRepeatSize + _ from hroom)]
      exact hagain t hlatched.1
    · rw [if_neg hroom, if_neg (show ¬ _ < irtRepeatSize + _ from hroom)]
      exact hscan

theorem findPlace_leftBehind (left : Nat) (hheld : w.held = true) :
    Foretells (SearchRefetches env creation left w) (findPlace env creation left) w := by
  induction left generalizing w with
  | zero =>
    unfold SearchRefetches findPlace
    refine @oneTry_leftBehind env w creation 2 (do
      releaseRoot
      throw .failed) (fun _ => False) hheld fun t ht => ?_
    unfold Foretells
    rw [run_bind (a := ()) (show releaseRoot t = _ from if_pos ht)]
    exact fun h => h
  | succ left ih =>
    have compress : ∀ t : World, t.held = true → Foretells (SearchRefetches env creation left
        (if left = 0 then { t with page := compressRoot env.pageSize t.page } else t)) (do
          onlyIf (left = 0) (writeRoot (compressRoot env.pageSize))
          findPlace env creation left) t := by
      intro t ht
      unfold Foretells
      cases left with
      | zero =>
        have hwrite : onlyIf (decide (0 = 0)) (writeRoot (compressRoot env.pageSize)) t =
            .ok () { t with page := compressRoot env.pageSize t.page } := if_pos ht
        rw [run_bind hwrite]
        exact ih ht
      | succ left => exact ih ht
    unfold SearchRefetches findPlace
    exact oneTry_leftBehind hheld compress

def Stale (p : RootPointer) (w : World) : Prop := p ∈ w.stale

instance : Surviving (Stale p) where
  quiet hw hstale _ := show p ∈ _ from hstale ▸ hw
  fetch hw hstale _ := show p ∈ _ from hstale ▸ hw

theorem LatchedFrom.stale {x : Act α} {c d : α → Bool} (h : LatchedFrom (Stale p) w x c) :
    ¬ LatchedFrom (Current p) w x d := by
  unfold LatchedFrom at h ⊢
  cases hrun : x w with
  | ok a t =>
    rw [hrun] at h
    exact fun hcurrent => hcurrent.2 h.2
  | error e t =>
    rw [hrun] at h
    exact fun hcurrent => hcurrent.2 h.2

/-- The page as `BTR_reserve_slot` begins to scan it -/
def World.opened (env : Surroundings) (creation : IndexCreation) (w : World) : World :=
  if env.useIdxId && (w.fetch env).page.count ≤ creation.idxId then
    { w.fetch env with page := extendTo creation.idxId (w.fetch env).page }
  else w.fetch env

/-- `BTR_reserve_slot` finds room on the page, after it has fetched it again behind the empty slot that it takes. -/
def LosesSlot (env : Surroundings) (creation : IndexCreation) (w : World) : Prop :=
  env.fails w.clock = false ∧ (w.fetch env).page.count ≤ env.maxIdx ∧
    SearchRefetches env creation 2 (w.opened env creation)

theorem takePlace_latched_iff {place : Option SlotPointer × Nat} (hw : w.held = true ∧ Current .slot w) :
    LatchedFrom (Current .slot) w (do
      let root ← readRoot
      let id ← place.1.elim (pure root.count) (usePointer .slot)
      onlyIf place.1.isNone (writeRoot addSlot)
      writeRoot fun root =>
        root.setSlot id { root.rpt id with desc := place.2, keys := creation.count, flags := creation.flags }
      startCreation env creation id
      releaseRoot
      pure id) (fun _ => false) ↔ ¬ LeftBehind place.1 w := by
  obtain ⟨slot, space⟩ := place
  unfold LatchedFrom
  rw [run_bind (readRoot_run hw.1)]
  cases slot with
  | none => exact ⟨fun _ => leftBehind_none, fun _ => takeSlot_latched creation none space w.page.count w hw⟩
  | some q =>
    have huse : (some q).elim (pure w.page.count) (usePointer .slot) w =
        .ok q.id { w with stale := if q.fetch = w.fetches then w.stale else .slot :: w.stale } := rfl
    rw [leftBehind_some, run_bind huse]
    by_cases hfetch : q.fetch = w.fetches
    · rw [if_pos hfetch]
      exact ⟨fun _ h => h hfetch, fun _ => takeSlot_latched creation (some q) space q.id w hw⟩
    · rw [if_neg hfetch]
      have hstale := @takeSlot_latched env (Stale .slot) creation _ (some q) space q.id
        { w with stale := .slot :: w.stale } ⟨hw.1, List.mem_cons_self⟩
      exact ⟨fun h => absurd h hstale.stale, fun h => absurd hfetch h⟩

theorem reserveSlot_latched_iff (hw : w.held = false ∧ Current .slot w) :
    LatchedFrom (Current .slot) w (reserveSlot env creation) (fun _ => false) ↔ ¬ LosesSlot env creation w := by
  unfold LatchedFrom reserveSlot LosesSlot
  cases hfails : env.fails w.clock with
  | true =>
    rw [run_bind_error (fetchRoot_fails hw.1 hfails)]
    exact ⟨fun _ h => absurd h.1 nofun, fun _ => ⟨nofun, hw.2⟩⟩
  | false =>
    rw [run_bind (fetchRoot_run hw.1 hfails), run_bind (readRoot_run rfl)]
    by_cases hmax : env.maxIdx < (w.fetch env).page.count
    · rw [if_pos hmax]
      exact ⟨fun _ h => absurd h.2.1 (Nat.not_le.mpr hmax), fun _ => ⟨nofun, hw.2⟩⟩
    rw [if_neg hmax]
    have hopen : onlyIf (env.useIdxId && (w.fetch env).page.count ≤ creation.idxId)
        (writeRoot (extendTo creation.idxId)) (w.fetch env) = .ok () (w.opened env creation) := by
      unfold World.opened
      cases env.useIdxId && decide ((w.fetch env).page.count ≤ creation.idxId) <;> rfl
    have hopened : (w.opened env creation).held = true ∧ Current .slot (w.opened env creation) := by
      unfold World.opened
      split
      · exact ⟨rfl, hw.2⟩
      · exact ⟨rfl, hw.2⟩
    rw [run_bind hopen]
    have hplace := @findPlace_leftBehind env _ creation 2 hopened.1
    have hlatched := @findPlace_latched env (Current .slot) _ creation 2 _ hopened
    unfold Foretells at hplace
    unfold LatchedFrom at hlatched
    cases hrun : findPlace env creation 2 (w.opened env creation) with
    | error e t =>
      rw [hrun] at hplace hlatched
      rw [run_bind_error hrun]
      exact ⟨fun _ h => hplace h.2.2, fun _ => hlatched⟩
    | ok place t =>
      rw [hrun] at hplace hlatched
      rw [run_bind hrun]
      refine (takePlace_latched_iff hlatched).trans (not_congr ?_)
      exact ⟨fun h => ⟨rfl, Nat.not_lt.mp hmax, hplace.mpr h⟩, fun h => hplace.mp h.2.2⟩

/-! ### `BTR_copy_index` -/

/-- `BTR_copy_index` finds its slot outdated, and of index 0 fetches the page a second time. -/
def FindsOutdated (env : Surroundings) (w : World) (indexId : Nat) : Prop :=
  env.hasRootPage = true ∧ env.fails w.clock = false ∧
    Outdated env (w.clock + 1) (indexId ≠ 0) ((w.fetch env).page.rpt indexId) ∧
      (indexId = 0 → env.fails (w.clock + 1 + ((w.fetch env).page.rpt indexId).questions) = false)

theorem copyReady_current (hw : w.held = true ∧ I w) [Lasting I]
    (h : ¬ Outdated env w.clock (id ≠ 0) (w.page.rpt id)) : LatchedFrom I w (copyReady env id) fun ready => ready := by
  obtain ⟨k, hcheck⟩ := checkIrtRepeat_current hw.1 h
  unfold LatchedFrom copyReady
  rw [run_bind (show pointTo id w = _ from rfl), run_bind hcheck]
  exact ⟨hw.1, Lasting.quiet hw.2 rfl rfl⟩

theorem copyReady_twice (hheld : w.held = true) (hid : id ≠ 0)
    (h : Outdated env w.clock (id ≠ 0) (w.page.rpt id)) : ∃ t, copyReady env id w = .error .latch t := by
  have hcheck := checkIrtRepeat_outdated hheld h
  unfold copyReady
  rw [run_bind (show pointTo id w = _ from rfl), run_bind hcheck, if_pos rfl]
  exact ⟨_, run_bind_error (fetchRoot_held (decide_eq_true hid))⟩

theorem copyReady_stale (hheld : w.held = true) (h : Outdated env w.clock (decide (0 ≠ 0)) (w.page.rpt 0))
    (hfails : env.fails (w.clock + (w.page.rpt 0).questions) = false) :
    LatchedFrom (Stale .indexRpt) w (copyReady env 0) fun ready => ready := by
  have use : ∀ q, Latched (Stale .indexRpt) true (usePointer .indexRpt q) fun _ => true := fun q =>
    usePointer_latched q fun _ hw _ => List.mem_cons_of_mem _ hw
  have hcheck := checkIrtRepeat_outdated hheld h
  have huse : ∀ v : World, w.fetches ≠ v.fetches →
      usePointer .indexRpt ⟨0, w.fetches⟩ v = .ok 0 { v with stale := .indexRpt :: v.stale } := fun v hv => by
    unfold usePointer
    rw [if_neg hv]
  unfold LatchedFrom copyReady
  rw [run_bind (show pointTo 0 w = _ from rfl), run_bind hcheck, if_pos rfl, run_bind (fetchRoot_run rfl hfails),
    run_bind (huse _ (Nat.succ_ne_self _).symm)]
  refine (modifyIrtRepeat_latched 0 false).bind (fun value => ?_) _ ⟨rfl, List.mem_cons_self⟩
  cases value with
  | skip | modified =>
    exact (use _).bind fun id => readRoot_latched.bind fun root =>
      .ite (fun _ => releaseRoot_latched.bind fun _ => .pure _ rfl) fun _ => .pure _ rfl
  | relock => exact fetchRoot_latched.bind fun _ => .pure _ rfl
  | deleted => exact .pure _ rfl

theorem copyReady_unfetched (hw : w.held = true ∧ Current .indexRpt w)
    (h : Outdated env w.clock (decide (0 ≠ 0)) (w.page.rpt 0))
    (hfails : env.fails (w.clock + (w.page.rpt 0).questions) = true) :
    LatchedFrom (Current .indexRpt) w (copyReady env 0) fun ready => ready := by
  have hcheck := checkIrtRepeat_outdated hw.1 h
  unfold LatchedFrom copyReady
  rw [run_bind (show pointTo 0 w = _ from rfl), run_bind hcheck, if_pos rfl,
    run_bind_error (fetchRoot_fails rfl hfails)]
  exact ⟨nofun, hw.2⟩

theorem copyIndex_latched_iff (hw : w.held = false ∧ Current .indexRpt w) :
    LatchedFrom (Current .indexRpt) w (copyIndex env id) (fun _ => false) ↔ ¬ FindsOutdated env w id := by
  unfold LatchedFrom copyIndex FindsOutdated
  cases hroot : env.hasRootPage with
  | false =>
    rw [if_pos rfl]
    exact ⟨fun _ h => absurd h.1 nofun, fun _ => hw⟩
  | true =>
  rw [if_neg Bool.noConfusion]
  cases hfails : env.fails w.clock with
  | true =>
    rw [run_bind_error (fetchRoot_fails hw.1 hfails)]
    exact ⟨fun _ h => absurd h.2.1 nofun, fun _ => ⟨nofun, hw.2⟩⟩
  | false =>
  rw [run_bind (fetchRoot_run hw.1 hfails)]
  have rest : ∀ {I : World → Prop} [Surviving I], (∀ (w : World) (q : SlotPointer), I w → q.fetch ≠ w.fetches →
      I { w with stale := .slot :: w.stale }) → ∀ ready, Latched I ready (if ready then do
      copyDescribed env id
      releaseRoot else pure ()) fun _ => false := by
    intro I _ hI ready
    cases ready with
    | true => exact (copyDescribed_latched id hI).bind fun _ => releaseRoot_latched
    | false => exact .pure () rfl
  have current : ∀ (w : World) (q : SlotPointer), Current .indexRpt w → q.fetch ≠ w.fetches →
      Current .indexRpt { w with stale := .slot :: w.stale } := fun w q h _ hmem =>
    (List.mem_cons.mp hmem).elim nofun h
  have hfetched : (w.fetch env).held = true ∧ Current .indexRpt (w.fetch env) := ⟨rfl, hw.2⟩
  by_cases hold : Outdated env (w.fetch env).clock (id ≠ 0) ((w.fetch env).page.rpt id)
  · by_cases hid : id = 0
    · subst hid
      cases hagain : env.fails ((w.fetch env).clock + ((w.fetch env).page.rpt 0).questions) with
      | true =>
        refine ⟨fun _ h => ?_, fun _ => (copyReady_unfetched hfetched hold hagain).bind (rest current)⟩
        exact Bool.false_ne_true ((h.2.2.2 rfl).symm.trans hagain)
      | false =>
        have hstale := (copyReady_stale hfetched.1 hold hagain).bind (rest fun w _ h _ => List.mem_cons_of_mem _ h)
        exact ⟨fun h => absurd h hstale.stale, fun h => absurd ⟨rfl, rfl, hold, fun _ => hagain⟩ h⟩
    · obtain ⟨t, ht⟩ := copyReady_twice rfl hid hold
      rw [run_bind_error ht]
      exact ⟨fun h => absurd rfl h.1, fun h => absurd ⟨rfl, rfl, hold, fun h => absurd h hid⟩ h⟩
  · exact ⟨fun _ h => hold h.2.2.1, fun _ => (copyReady_current hfetched hold).bind (rest current)⟩

/-! ### All functions -/

/-- Every function, called with the window held or free as its callers leave it, never misuses it and leaves it free;
    `BTR_next_index` leaves it held exactly when it returns true. What a function points to in the page it does not use
    once the page is released; `BTR_copy_index` answers for its own window and not for that of `BTR_reserve_slot`. -/
structure LatchDiscipline (env : Surroundings) (w : World) (id : Nat) : Prop where
  nextIndex : ∀ p idxId, (idxId = none → w.held = false) → Current p w →
    LatchedFrom (Current p) w (nextIndex env idxId) fun found => found
  cleanupIndex : ∀ p, w.held = false ∧ Current p w → LatchedFrom (Current p) w (cleanupIndex env id) fun _ => false
  markIndexForDelete : ∀ p traNumber, w.held = true ∧ Current p w →
    LatchedFrom (Current p) w (markIndexForDelete env id traNumber) fun _ => false
  activateIndex : ∀ p, w.held = false ∧ Current p w → LatchedFrom (Current p) w (activateIndex env id) fun _ => false
  reserveSlot : ∀ creation, w.held = false ∧ Current .slot w →
    LatchedFrom (Current .slot) w (reserveSlot env creation) fun _ => false
  copyIndex : w.held = false ∧ Current .indexRpt w →
    LatchedFrom (Current .indexRpt) w (copyIndex env id) fun _ => false

theorem latchDiscipline_iff : LatchDiscipline env w id ↔ (w.held = false →
    (Current .slot w → ∀ creation, ¬ LosesSlot env creation w) ∧
      (Current .indexRpt w → ¬ FindsOutdated env w id)) := by
  refine ⟨fun h hfree => ⟨fun hslot creation => ?_, fun hrpt => ?_⟩, fun hclear => ?_⟩
  · exact (reserveSlot_latched_iff ⟨hfree, hslot⟩).mp (h.reserveSlot creation ⟨hfree, hslot⟩)
  · exact (copyIndex_latched_iff ⟨hfree, hrpt⟩).mp (h.copyIndex ⟨hfree, hrpt⟩)
  · exact {
      nextIndex := fun p idxId hfirst hw => nextIndex_latched idxId hfirst w ⟨rfl, hw⟩
      cleanupIndex := fun p hw => cleanupIndex_latched id w hw
      markIndexForDelete := fun p traNumber hw => markIndexForDelete_latched id traNumber w hw
      activateIndex := fun p hw => activateIndex_latched id w hw
      reserveSlot := fun creation hw => (reserveSlot_latched_iff hw).mpr ((hclear hw.1).1 hw.2 creation)
      copyIndex := fun hw => (copyIndex_latched_iff hw).mpr ((hclear hw.1).2 hw.2) }

def rolledBackPage : IndexRootPage where
  count := 2
  rpt id := if id = 1 then ⟨7, 300, 1, 8000, 0, .rollback, 1, 0⟩ else emptyRepeat
  count_lt := by decide

def rolledBackSurroundings : Surroundings where
  others _ page := page
  fails _ := false
  cacheState _ number := if number = 7 then .dead else .active
  presence _ _ := false
  traWait _ _ := .dead
  oldestActive _ := 9
  nextNumber _ := 10
  newTree n := ⟨1, 400 + n⟩
  codeFound _ := true
  transaction := some 9
  hasRootPage := true
  sweeper := false
  useIdxId := false
  maxIdx := 100
  pageSize := 8192

def rolledBackWorld : World := ⟨rolledBackPage, false, 0, true, [], 0, []⟩

theorem current_rolledBack : rolledBackWorld.held = false ∧ Current p rolledBackWorld := ⟨rfl, List.not_mem_nil⟩

/-- `BTR_copy_index` fetches the page twice. -/
theorem copyIndex_latches_twice : ¬ ∀ env w id, LatchDiscipline env w id := fun h =>
  (copyIndex_latched_iff current_rolledBack).mp ((h rolledBackSurroundings _ 1).copyIndex current_rolledBack)
    ⟨rfl, rfl, .inr rfl, nofun⟩

def rolledBackCreation : IndexCreation := ⟨.atOnce, 9, 5, 1, 0⟩

/-- `BTR_reserve_slot` deletes the index of slot 1 after it has pointed to slot 0. -/
theorem reserveSlot_loses_slot : ¬ LatchedFrom (Current .slot) rolledBackWorld
    (reserveSlot rolledBackSurroundings rolledBackCreation) fun _ => false := by
  rw [reserveSlot_latched_iff current_rolledBack, not_not]
  refine ⟨rfl, by decide, ?_⟩
  generalize hworld : rolledBackWorld.opened rolledBackSurroundings rolledBackCreation = v
  have hopen : v.held = true := hworld ▸ rfl
  have hdelete : ∃ t : World, onlyIf (v.page.rpt 1).isUsed
      (refreshUsed rolledBackSurroundings rolledBackCreation (2 - 2) 1) v = .ok () t ∧ t.held = true ∧ t.fetches = 2 ∧
        t.page.count = 2 ∧ (t.page.rpt 1).isUsed = false := hworld ▸ ⟨_, rfl, rfl, rfl, rfl, rfl⟩
  obtain ⟨t, hdelete, ht, hfetches, hcount, hunused⟩ := hdelete
  have hfirst : onlyIf (v.page.rpt 0).isUsed (refreshUsed rolledBackSurroundings rolledBackCreation (2 - 2) 0) v =
      .ok () v := hworld ▸ rfl
  have hempty : (v.page.rpt 0).isUsed = false := hworld ▸ rfl
  have hslots : v.page.count = 2 ∧ v.fetches = 1 := hworld ▸ ⟨rfl, rfl⟩
  have hscan : scanSlots rolledBackSurroundings rolledBackCreation (2 - 2) 0 none rolledBackSurroundings.pageSize v =
      .ok (some ⟨0, 1⟩, 8192) t := by
    rw [scanSlots_step hopen (by omega) hfirst hopen, hempty, if_neg Bool.false_ne_true,
      scanSlots_step hopen (by omega) hdelete ht, hunused, if_neg Bool.false_ne_true, scanSlots_end ht (by omega),
      hslots.2]
    rfl
  have hroom : ¬ NoRoom rolledBackCreation 8192 t.page := by
    unfold NoRoom
    rw [hcount]
    decide
  have hplace := @findPlace_leftBehind rolledBackSurroundings _ rolledBackCreation 2 hopen
  unfold Foretells findPlace at hplace
  rw [run_bind hscan] at hplace
  dsimp only at hplace
  rw [run_bind (readRoot_run ht), if_neg (show ¬ _ < irtRepeatSize + _ from hroom)] at hplace
  exact hplace.mpr (leftBehind_some.mpr (hfetches ▸ by decide))

end Firebird.Btr
