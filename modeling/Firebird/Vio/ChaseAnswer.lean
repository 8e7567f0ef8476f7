import Firebird.Vio.Chase

/-! # The chase finds the version

The version found is the newest one whose transaction the reader sees, and its data are what was written. -/

namespace Firebird.Vio

open List
open Tpc (TraNumber TraState)

variable {env : ChaseEnv} {formats : Formats} {pages : Pages} {relation : Relation} {primary : Address}
  {chained gcActive : Bool} {newer : Option StoredVersion} {head v w : StoredVersion} {older : List StoredVersion}
  {rpb : RecordParam} {state : TraState} {fuel : Nat}

def ChaseEnv.stateAt (env : ChaseEnv) (n : TraNumber) : TraState :=
  if env.snapshotState n = .committed ∧ env.temporary then
    if n = env.traNumber then .us else if n ∈ env.attTransactions then .active else .committed
  else env.snapshotState n

def ChaseEnv.Sees (env : ChaseEnv) (n : TraNumber) : Prop := env.stateAt n = .committed ∨ env.stateAt n = .us

instance (env : ChaseEnv) (n : TraNumber) : Decidable (env.Sees n) := inferInstanceAs (Decidable (_ ∨ _))

def ChaseEnv.Dead (env : ChaseEnv) (n : TraNumber) : Prop := env.stateAt n = .dead ∨ env.stateAt n = .precommitted

instance (env : ChaseEnv) (n : TraNumber) : Decidable (env.Dead n) := inferInstanceAs (Decidable (_ ∨ _))

/-- The version of the record for the transaction: the newest one it sees, unless that is a deletion. -/
def ChaseEnv.visibleVersion (env : ChaseEnv) (versions : List Version) : Option Version :=
  (versions.find? fun v => env.Sees v.transaction).filter fun v => ¬v.deleted

/-- The record parameter block is on the version, and `VIO_data` gives its bytes. -/
structure Positioned (formats : Formats) (pages : Pages) (rpb : RecordParam) (v : Version) : Prop where
  stored : dpmFetch pages rpb.address = some rpb.slot
  transaction : rpb.slot.transaction = v.transaction
  format : rpb.slot.format = v.format
  deleted : rpb.slot.deleted = false
  data : ∃ rpb' record, rpb.data formats = .ok rpb' ∧ rpb'.record = some record ∧ record.bytes formats = v.data

/-- The call returns true on the version, or false if there is none. -/
def IsAnswer (formats : Formats) (pages : Pages) : Option RecordParam → Option Version → Prop
  | some rpb, some v => Positioned formats pages rpb v
  | none, none => True
  | _, _ => False

/-- The chase ends on the version that the transaction sees. -/
def ChaseEnv.Answers (env : ChaseEnv) (versions : List StoredVersion)
    (result : Except VioError (Relation × Option RecordParam)) : Prop :=
  ∃ relation' answer, result = .ok (relation', answer) ∧
    IsAnswer env.formats relation'.pages answer (env.visibleVersion (versions.map (·.toVersion)))

structure AtVersion (formats : Formats) (newer : Option StoredVersion) (v : StoredVersion) (older : List StoredVersion)
    (chained gcActive : Bool) (rpb : RecordParam) : Prop where
  address : rpb.address = v.address
  slot : rpb.slot = v.slot chained gcActive older
  prior : rpb.prior = v.difference.isSome
  ready : ReadyFor formats (rpb.record.getD (Record.new formats rpb.slot.format)) newer v

section
variable (h : AtVersion formats newer v older chained gcActive rpb) (hfits : v.Fits formats)
  (hdecodes : v.DecodesFrom newer) (hdeleted : v.deleted = false) (hchained : newer.isSome → chained = true)
include h hfits hdecodes hdeleted hchained

theorem AtVersion.data_spec :
    ∃ record, rpb.data formats = .ok { rpb with record := some record, prior := rpb.slot.back.isSome && rpb.slot.delta
      } ∧ record.Holds formats v.toVersion ∧ record.Counted formats := by
  obtain ⟨record, hread, hholds, hcounted⟩ := vioData_eq gcActive older h.ready hfits hdecodes hchained hdeleted
  refine ⟨record, ?_, hholds, hcounted⟩
  rw [RecordParam.data, h.prior, h.slot] at *
  rw [hread]

theorem AtVersion.positioned (hstored : dpmFetch pages v.address = some (v.slot chained gcActive older)) :
    Positioned formats pages rpb v.toVersion where
  stored := by rw [h.address, h.slot, hstored]
  transaction := by rw [h.slot]; rfl
  format := by rw [h.slot]; rfl
  deleted := by rw [h.slot]; exact hdeleted
  data := by
    obtain ⟨record, hdata, hholds, -⟩ := h.data_spec hfits hdecodes hdeleted hchained
    exact ⟨_, record, hdata, rfl, hholds.bytes⟩

end

theorem AtVersion.fetchBack (h : AtVersion formats newer v (w :: older) chained gcActive rpb)
    (hfetch : dpmFetch pages w.address = some (w.slot true false older)) (record : Option Record)
    (hcounted : ∀ r, record = some r → r.Counted formats)
    (hholds : ∀ d, w.difference = some d → ∃ r, record = some r ∧ r.Holds formats v.toVersion) :
    ∃ rpb', dpmFetchBack pages { rpb with record, prior := w.difference.isSome } = .ok rpb' ∧
      AtVersion formats (some v) w older true false rpb' := by
  have hback : rpb.slot.back = some w.address := by rw [h.slot]; rfl
  refine ⟨_, by rw [dpmFetchBack, hback]; dsimp only; rw [hfetch], rfl, rfl, rfl, ?_, fun n d hn hd => ?_⟩
  · cases record with
    | none => exact Record.counted_new ..
    | some r => exact hcounted r rfl
  · cases hn
    obtain ⟨r, rfl, hr⟩ := hholds d hd
    exact hr

theorem AtVersion.counted (h : AtVersion formats newer v older chained gcActive rpb) :
    ∀ r, rpb.record = some r → r.Counted formats := by
  intro r hr
  have := h.ready.counted
  rwa [hr] at this

theorem AtVersion.delta_eq (h : AtVersion formats newer v (w :: older) chained gcActive rpb) :
    rpb.slot.delta = w.difference.isSome ∧ rpb.slot.back = some w.address ∧ rpb.slot.deleted = v.deleted := by
  rw [h.slot]
  exact ⟨rfl, rfl, rfl⟩

section
variable (h : AtVersion env.formats newer v (w :: older) chained gcActive rpb)
  (hdec : Decodable env.formats newer (v :: w :: older)) (hchained : newer.isSome → chained = true)
  (hfetch : dpmFetch pages w.address = some (w.slot true false older))
include h hdec hchained hfetch

theorem chasePastActive_spec :
    ∃ rpb', env.chasePastActive pages rpb = .ok rpb' ∧ AtVersion env.formats (some v) w older true false rpb' := by
  obtain ⟨hdelta, hback, -⟩ := h.delta_eq
  unfold ChaseEnv.chasePastActive
  cases hdiff : w.difference with
  | none =>
    obtain ⟨rpb', hrpb, hat⟩ := h.fetchBack hfetch rpb.record h.counted fun d hd => by
      rw [hdiff] at hd
      cases hd
    rw [hdiff] at hdelta hrpb
    exact ⟨rpb', by rw [if_pos (by rw [hdelta]; exact Bool.false_ne_true)]; exact hrpb, hat⟩
  | some d =>
    obtain ⟨n, hn, hdeleted, -⟩ := hdec.2.2.2.1 d hdiff
    cases hn
    obtain ⟨record, hdata, hholds, hcounted⟩ := h.data_spec hdec.1 hdec.2.1 hdeleted hchained
    obtain ⟨rpb', hrpb, hat⟩ := h.fetchBack hfetch (some record)
      (fun r hr => by cases hr; exact hcounted) fun _ _ => ⟨record, rfl, hholds⟩
    rw [hback, hdelta, hdiff] at hdata
    rw [hdiff] at hdelta hrpb
    refine ⟨rpb', ?_, hat⟩
    rw [if_neg (by rw [hdelta]; exact not_not.mpr rfl), hdata]
    exact hrpb

theorem chasePastDead_spec :
    ∃ rpb', env.chasePastDead pages rpb = .ok rpb' ∧ AtVersion env.formats (some v) w older true false rpb' := by
  obtain ⟨hdelta, hback, hslotDeleted⟩ := h.delta_eq
  unfold ChaseEnv.chasePastDead
  cases hdeleted : v.deleted with
  | true =>
    have hwhole : w.difference = none := difference_of_deleted hdec.2.2.2.1 hdeleted
    have hprior : rpb.prior = w.difference.isSome := by
      rw [h.prior, hwhole, (difference_of_deleted_self hdec.1 hdeleted).2]
    obtain ⟨rpb', hrpb, hat⟩ := h.fetchBack hfetch rpb.record h.counted fun d hd => by
      rw [hwhole] at hd
      cases hd
    rw [← hprior] at hrpb
    refine ⟨rpb', ?_, hat⟩
    rw [if_neg (by simp [hslotDeleted, hdeleted, hdelta, hwhole])]
    exact hrpb
  | false =>
    obtain ⟨record, hdata, hholds, hcounted⟩ := h.data_spec hdec.1 hdec.2.1 hdeleted hchained
    obtain ⟨rpb', hrpb, hat⟩ := h.fetchBack hfetch (some record)
      (fun r hr => by cases hr; exact hcounted) fun _ _ => ⟨record, rfl, hholds⟩
    rw [hback, hdelta] at hdata
    refine ⟨rpb', ?_, hat⟩
    rw [if_pos (.inl (by simp [hslotDeleted, hdeleted])), hdata]
    exact hrpb

theorem chasePast_spec :
    ∃ rpb', (if env.Dead v.transaction then env.chasePastDead pages rpb else env.chasePastActive pages rpb) = .ok rpb' ∧
      AtVersion env.formats (some v) w older true false rpb' := by
  split
  · exact chasePastDead_spec h hdec hchained hfetch
  · exact chasePastActive_spec h hdec hchained hfetch

end

def Handles (env : ChaseEnv) (slot : Slot) (state : TraState) (v : StoredVersion) : Prop :=
  (if state = .committed then env.checkPrecommitted slot else state) = env.stateAt v.transaction

theorem AtVersion.handles (h : AtVersion formats newer v older chained gcActive rpb)
    (hactive : gcActive = true → env.snapshotState v.transaction = .dead) :
    Handles env rpb.slot (env.stateOf rpb.slot) v := by
  rw [Handles, h.slot]
  unfold ChaseEnv.stateOf ChaseEnv.stateAt ChaseEnv.checkPrecommitted
  cases gcActive with
  | true =>
    have hdead := hactive rfl
    cases chained <;> simp [StoredVersion.slot, hdead]
  | false =>
    by_cases hcommitted : env.snapshotState v.transaction = .committed
    · cases htemporary : env.temporary
      · simp [StoredVersion.slot, hcommitted]
      · simp [StoredVersion.slot, hcommitted]
        rfl
    · simp [StoredVersion.slot, hcommitted]

theorem Handles.check {slot : Slot} (h : Handles env slot state v) :
    Handles env slot (if state = .committed then env.checkPrecommitted slot else state) v := by
  unfold Handles at h ⊢
  by_cases hcommitted : state = .committed
  · rw [if_pos hcommitted] at h ⊢
    rw [h, ite_self]
  · rw [if_neg hcommitted, h]

theorem visibleVersion_of_sees (h : env.Sees v.transaction) : env.visibleVersion ((v :: older).map (·.toVersion)) =
    if v.deleted then none else some v.toVersion := by
  rw [ChaseEnv.visibleVersion, map_cons, find?_cons, decide_eq_true h]
  cases hd : v.deleted <;> simp [Option.filter, hd]

theorem visibleVersion_of_not_sees (h : ¬env.Sees v.transaction) : env.visibleVersion ((v :: older).map (·.toVersion)) =
    env.visibleVersion (older.map (·.toVersion)) := by
  rw [ChaseEnv.visibleVersion, map_cons, find?_cons, decide_eq_false h]
  rfl

/-- Dead versions are backed out when they are met at the head. -/
def ChaseEnv.BacksOut (env : ChaseEnv) : Prop := ¬env.noCleanup ∧ ¬env.notifyGc ∧ env.gcEnabled

theorem chaseFrom_past (hstate : Handles env rpb.slot state v)
    (hat : AtVersion env.formats newer v older chained gcActive rpb)
    (hnot : ¬env.Sees v.transaction) (hkeep : chained = true ∨ ¬env.BacksOut ∨ ¬env.Dead v.transaction) :
    (rpb.slot.back = none → env.chaseFrom primary (fuel + 1) relation rpb state = .ok (relation, none)) ∧
    ∀ rpb', rpb.slot.back ≠ none →
      (if env.Dead v.transaction then env.chasePastDead relation.pages rpb
        else env.chasePastActive relation.pages rpb) = .ok rpb' →
      env.chaseFrom primary (fuel + 1) relation rpb state =
        env.chaseFrom primary fuel relation rpb' (env.stateOf rpb'.slot) := by
  have hchained : rpb.slot.chained = chained := by
    rw [hat.slot]
    rfl
  have hnot : env.stateAt v.transaction ≠ .committed ∧ env.stateAt v.transaction ≠ .us := not_or.mp hnot
  have hdead : env.Dead v.transaction →
      (env.noCleanup ∨ env.notifyGc ∨ ¬env.gcEnabled ∨ rpb.slot.chained) := by
    intro hd
    rcases hkeep with hc | hb | hn
    · exact .inr (.inr (.inr (hchained.trans hc)))
    · unfold ChaseEnv.BacksOut at hb
      tauto
    · exact absurd hd hn
  have hcases : env.Dead v.transaction ∧ (env.stateAt v.transaction = .dead ∨
      env.stateAt v.transaction = .precommitted) ∨
      ¬env.Dead v.transaction ∧ (env.stateAt v.transaction = .active ∨ env.stateAt v.transaction = .limbo ∨
        env.stateAt v.transaction = .unknown) := by
    unfold ChaseEnv.Dead
    generalize env.stateAt v.transaction = st at hnot
    cases st <;> simp_all
  rw [ChaseEnv.chaseFrom, hstate]
  rcases hcases with ⟨hd, hs | hs⟩ | ⟨hd, hs | hs | hs⟩
  · rw [hs, if_pos hd]
    exact ⟨fun hback => (if_pos (hdead hd)).trans (if_pos hback), fun rpb' hback hpast =>
      (if_pos (hdead hd)).trans ((if_neg hback).trans (by rw [hpast]))⟩
  · rw [hs, if_pos hd]
    exact ⟨fun hback => (if_pos (hdead hd)).trans (if_pos hback), fun rpb' hback hpast =>
      (if_pos (hdead hd)).trans ((if_neg hback).trans (by rw [hpast]))⟩
  all_goals
    rw [hs, if_neg hd]
    exact ⟨fun hback => if_pos hback, fun rpb' hback hpast => (if_neg hback).trans (by rw [hpast])⟩

section
variable (fuel : Nat) (hstate : Handles env rpb.slot state v) (hsees : env.Sees v.transaction)
include hstate hsees

theorem chaseFrom_deleted (hdeleted : rpb.slot.deleted = true)
    (hexpunge : ∃ relation', expunge env.oldestSnapshot env.noCleanup relation primary = .ok relation') :
    ∃ relation', env.chaseFrom primary (fuel + 1) relation rpb state = .ok (relation', none) := by
  obtain ⟨relation', hexpunge⟩ := hexpunge
  rw [ChaseEnv.chaseFrom, hstate]
  rcases hsees with hs | hs
  · rw [hs]
    dsimp only
    rw [if_pos hdeleted, hexpunge]
    split
    · split
      · exact ⟨relation, rfl⟩
      · exact ⟨relation', rfl⟩
    · exact ⟨relation, rfl⟩
  · rw [hs]
    exact ⟨relation, by rw [if_pos hdeleted]⟩

theorem chaseFrom_found (hdeleted : rpb.slot.deleted = false) (hends : rpb.slot.back = none ∨ rpb.slot.chained = true) :
    env.chaseFrom primary (fuel + 1) relation rpb state = .ok (relation, some rpb) := by
  have hdeleted : ¬rpb.slot.deleted = true := Bool.eq_false_iff.mp hdeleted
  rw [ChaseEnv.chaseFrom, hstate]
  rcases hsees with hs | hs
  · rw [hs]
    dsimp only
    rw [if_neg hdeleted, if_pos (.inr (hends.imp_right .inl))]
  · rw [hs]
    rw [if_neg hdeleted]

end

section
variable {n : StoredVersion} (hback : BackVersions relation.pages (v :: older))
  (hdec : Decodable env.formats (some n) (v :: older)) (hat : AtVersion env.formats (some n) v older true false rpb)
  (hstate : Handles env rpb.slot state v)
  (hexpunge : ∃ relation', expunge env.oldestSnapshot env.noCleanup relation primary = .ok relation')
include hback hdec hat hstate hexpunge

theorem chaseFrom_back_sees (hsees : env.Sees v.transaction) :
    env.Answers (v :: older) (env.chaseFrom primary (fuel + 1) relation rpb state) := by
  have hslot : rpb.slot.deleted = v.deleted := by rw [hat.slot]; rfl
  rw [ChaseEnv.Answers, visibleVersion_of_sees hsees]
  cases hdeleted : v.deleted with
  | true =>
    obtain ⟨relation', hends⟩ := chaseFrom_deleted fuel hstate hsees (hslot.trans hdeleted) hexpunge
    exact ⟨relation', none, hends, trivial⟩
  | false =>
    exact ⟨relation, some rpb,
      chaseFrom_found fuel hstate hsees (hslot.trans hdeleted) (.inr (by rw [hat.slot]; rfl)),
      hat.positioned hdec.1 hdec.2.1 hdeleted (fun _ => rfl) hback.1⟩

theorem chaseFrom_back (hfuel : older.length < fuel) :
    env.Answers (v :: older) (env.chaseFrom primary fuel relation rpb state) := by
  obtain ⟨fuel, rfl⟩ : ∃ k, fuel = k + 1 := ⟨fuel - 1, by omega⟩
  induction older generalizing v n rpb state fuel with
  | nil =>
    by_cases hsees : env.Sees v.transaction
    · exact chaseFrom_back_sees hback hdec hat hstate hexpunge hsees
    · rw [ChaseEnv.Answers, visibleVersion_of_not_sees hsees]
      exact ⟨relation, none, (chaseFrom_past hstate hat hsees (.inl rfl)).1 (by rw [hat.slot]; rfl), trivial⟩
  | cons w older ih =>
    by_cases hsees : env.Sees v.transaction
    · exact chaseFrom_back_sees hback hdec hat hstate hexpunge hsees
    · obtain ⟨rpb', hpast, hat'⟩ := chasePast_spec hat hdec (fun _ => rfl) hback.2.1
      rw [ChaseEnv.Answers, visibleVersion_of_not_sees hsees,
        (chaseFrom_past hstate hat hsees (.inl rfl)).2 rpb' (by rw [hat.slot]; exact Option.some_ne_none _) hpast]
      obtain ⟨fuel, rfl⟩ : ∃ k, fuel = k + 1 := ⟨fuel - 1, by simp only [length_cons] at hfuel; omega⟩
      exact ih hback.2 hdec.2.2 hat' (hat'.handles nofun) fuel
        (by simp only [length_cons] at hfuel; omega)

end

/-! ### At the primary version -/

theorem fetchPrimary_eq (h : Stored formats pages primary gcActive head older) (rpb : RecordParam)
    (hcounted : ∀ r, rpb.record = some r → r.Counted formats) :
    ∃ rpb', ChaseEnv.fetchPrimary pages primary rpb = some rpb' ∧
      AtVersion formats none head older false gcActive rpb' := by
  refine ⟨_, by rw [ChaseEnv.fetchPrimary, h.dpmGet_eq]; rfl, h.atPrimary.symm, rfl, ?_, ?_, nofun⟩
  · rw [h.difference_head]
    rfl
  · cases hr : rpb.record with
    | none => exact Record.counted_new ..
    | some r => exact hcounted r hr

theorem AtVersion.positioned_head (h : Stored env.formats relation.pages primary gcActive head older)
    (hat : AtVersion env.formats none head older false gcActive rpb) (hdeleted : head.deleted = false) :
    Positioned env.formats relation.pages rpb head.toVersion :=
  hat.positioned h.decodable.1 h.decodable.2.1 hdeleted nofun (h.atPrimary ▸ h.slot)

theorem chaseFrom_head_sees (fuel : Nat) (h : Stored env.formats relation.pages primary false head older)
    (hfitting : ∀ r ∈ relation.gcRecords, r.Fitting env.formats)
    (hat : AtVersion env.formats none head older false false rpb) (hstate : Handles env rpb.slot state head)
    (hsees : env.Sees head.transaction) (hdeleted : head.deleted = false) :
    ∃ relation' rpb', env.chaseFrom primary (fuel + 2) relation rpb state = .ok (relation', some rpb') ∧
      Positioned env.formats relation'.pages rpb' head.toVersion := by
  have hslotDeleted : ¬rpb.slot.deleted = true := by
    rw [hat.slot]
    exact Bool.not_eq_true _ ▸ hdeleted
  have hhere := hat.positioned_head h hdeleted
  obtain ⟨relation', hpurge, hfitting', hstored, -⟩ := h.purge_spec env.currentFormat hfitting hdeleted
  obtain ⟨rpb', hfetch, hat'⟩ := fetchPrimary_eq hstored rpb hat.counted
  have hagain : env.chaseFrom primary (fuel + 1) relation' rpb' (env.stateOf rpb'.slot) = .ok (relation', some rpb') :=
    chaseFrom_found fuel (hat'.handles nofun) hsees (by rw [hat'.slot]; exact hdeleted) (.inl (by rw [hat'.slot]; rfl))
  have hstate' := hstate
  rw [ChaseEnv.chaseFrom, hstate']
  rcases hsees with hs | hs
  · rw [hs]
    dsimp only
    rw [if_neg hslotDeleted]
    split
    · exact ⟨relation, rpb, rfl, hhere⟩
    · split
      · exact ⟨relation, rpb, rfl, hhere⟩
      · rw [hat.slot, hpurge]
        dsimp only
        rw [hfetch]
        exact ⟨relation', rpb', hagain, hat'.positioned_head hstored hdeleted⟩
  · rw [hs]
    exact ⟨relation, rpb, by rw [if_neg hslotDeleted], hhere⟩

theorem chaseFrom_backsOut (hstate : Handles env rpb.slot state head) (hchained : rpb.slot.chained = false)
    (hdead : env.Dead head.transaction) (hbacks : env.BacksOut) :
    env.chaseFrom primary (fuel + 1) relation rpb state =
      match vioBackout env.formats env.currentFormat env.samePage relation primary rpb.slot with
      | .error e => .error e
      | .ok relation =>
        match ChaseEnv.fetchPrimary relation.pages primary rpb with
        | none => .ok (relation, none)
        | some rpb => env.chaseFrom primary fuel relation rpb (env.stateOf rpb.slot) := by
  have hnot : ¬(env.noCleanup ∨ env.notifyGc ∨ ¬env.gcEnabled ∨ rpb.slot.chained) := by
    obtain ⟨hcleanup, hnotify, henabled⟩ := hbacks
    rw [hchained]
    tauto
  rw [ChaseEnv.chaseFrom, hstate]
  rcases hdead with hs | hs
  · rw [hs]
    exact if_neg hnot
  · rw [hs]
    exact if_neg hnot

section
variable (h : Stored env.formats relation.pages primary gcActive head older)
  (hfitting : ∀ r ∈ relation.gcRecords, r.Fitting env.formats)
  (hat : AtVersion env.formats none head older false gcActive rpb)
  (hactive : gcActive = true → env.snapshotState head.transaction = .dead)
include h hfitting hat hactive

theorem chaseFrom_head_of_sees (hstate : Handles env rpb.slot state head) (hsees : env.Sees head.transaction) :
    env.Answers (head :: older) (env.chaseFrom primary (fuel + 2) relation rpb state) := by
  rw [ChaseEnv.Answers, visibleVersion_of_sees hsees]
  cases hdeleted : head.deleted with
  | true =>
    obtain ⟨relation', hends⟩ := chaseFrom_deleted (fuel + 1) hstate hsees (by rw [hat.slot]; exact hdeleted)
      (h.expunge_spec env.oldestSnapshot env.noCleanup)
    exact ⟨relation', none, hends, trivial⟩
  | false =>
    have hquiet : gcActive = false := by
      cases gcActive with
      | false => rfl
      | true =>
        unfold ChaseEnv.Sees ChaseEnv.stateAt at hsees
        rw [hactive rfl] at hsees
        simp at hsees
    subst hquiet
    obtain ⟨relation', rpb', hfound, hpositioned⟩ := chaseFrom_head_sees fuel h hfitting hat hstate hsees hdeleted
    exact ⟨relation', some rpb', hfound, hpositioned⟩

theorem chaseFrom_head (hstate : Handles env rpb.slot state head)
    (hcovered : env.BacksOut → BackoutsCovered env.currentFormat env.Dead
      (gcCount env.formats relation.gcRecords env.currentFormat) (head :: older))
    (hfuel : older.length + 1 < fuel) :
    env.Answers (head :: older) (env.chaseFrom primary fuel relation rpb state) := by
  obtain ⟨fuel, rfl⟩ : ∃ k, fuel = k + 2 := ⟨fuel - 2, by omega⟩
  induction older generalizing head relation gcActive rpb state fuel with
  | nil =>
    by_cases hsees : env.Sees head.transaction
    · exact chaseFrom_head_of_sees h hfitting hat hactive hstate hsees
    · rw [ChaseEnv.Answers, visibleVersion_of_not_sees hsees]
      have hback : rpb.slot.back = none := by rw [hat.slot]; rfl
      by_cases hbacks : env.BacksOut ∧ env.Dead head.transaction
      · obtain ⟨relation', hbackout, -, hpages⟩ :=
          h.vioBackout_last env.currentFormat env.samePage hfitting hback (by rw [hat.slot]; rfl)
        have hgone : ChaseEnv.fetchPrimary relation'.pages primary rpb = none := by
          rw [ChaseEnv.fetchPrimary, hpages, dpmGet, dpmFetch_dpmDelete, if_pos rfl]
          rfl
        rw [chaseFrom_backsOut hstate (by rw [hat.slot]; rfl) hbacks.2 hbacks.1, hbackout]
        dsimp only
        rw [hgone]
        exact ⟨relation', none, rfl, trivial⟩
      · exact ⟨relation, none, (chaseFrom_past hstate hat hsees (.inr (not_and_or.mp hbacks))).1 hback, trivial⟩
  | cons w older ih =>
    by_cases hsees : env.Sees head.transaction
    · exact chaseFrom_head_of_sees h hfitting hat hactive hstate hsees
    · rw [ChaseEnv.Answers, visibleVersion_of_not_sees hsees]
      have hback : rpb.slot.back = some w.address := by rw [hat.slot]; rfl
      by_cases hbacks : env.BacksOut ∧ env.Dead head.transaction
      · have hcov := hcovered hbacks.1 hbacks.2
        obtain ⟨relation', hbackout, hfitting', hstored, -, hcovered'⟩ :=
          h.vioBackout_spec env.currentFormat env.samePage
          hfitting hback (by rw [hat.slot]; rfl) fun _ hf => (hcov (.inr hf)).1
        obtain ⟨rpb', hfetch, hat'⟩ := fetchPrimary_eq hstored rpb hat.counted
        rw [chaseFrom_backsOut hstate (by rw [hat.slot]; rfl) hbacks.2 hbacks.1, hbackout]
        dsimp only
        rw [hfetch]
        obtain ⟨fuel, rfl⟩ : ∃ k, fuel = k + 1 := ⟨fuel - 1, by simp only [length_cons] at hfuel; omega⟩
        exact ih hstored hfitting' hat' Bool.noConfusion (hat'.handles Bool.noConfusion)
          (fun _ => hcovered' env.Dead fun hcase => (hcov hcase).2) fuel
          (by simp only [length_cons] at hfuel; omega)
      · obtain ⟨rpb', hpast, hat'⟩ := chasePast_spec hat h.decodable Bool.noConfusion h.back.1
        rw [(chaseFrom_past hstate hat hsees (.inr (not_and_or.mp hbacks))).2 rpb'
          (by rw [hback]; exact Option.some_ne_none _) hpast]
        exact chaseFrom_back h.back h.decodable.2.2 hat' (hat'.handles Bool.noConfusion) (h.expunge_spec ..)
          (by simp only [length_cons] at hfuel; omega)

theorem Stored.vioChaseRecordVersion_spec
    (hcovered : env.BacksOut → BackoutsCovered env.currentFormat env.Dead
      (gcCount env.formats relation.gcRecords env.currentFormat) (head :: older)) :
    env.Answers (head :: older) (vioChaseRecordVersion env relation primary rpb) := by
  have hstate := hat.handles hactive
  have hchecked := hstate.check
  unfold vioChaseRecordVersion
  dsimp only
  rw [hstate] at hchecked ⊢
  split
  · rename_i hquick
    obtain ⟨hseen, hdeleted, -⟩ := hquick
    have hkept : head.deleted = false := by
      rw [hat.slot] at hdeleted
      exact Bool.eq_false_iff.mpr hdeleted
    rw [ChaseEnv.Answers, visibleVersion_of_sees hseen, if_neg (by rw [hkept]; exact Bool.false_ne_true)]
    exact ⟨relation, some rpb, rfl, hat.positioned_head h hkept⟩
  · exact chaseFrom_head h hfitting hat hactive hchecked hcovered
      (Nat.add_lt_add_right (Nat.lt_succ_of_le h.length_le) 1)

end

end Firebird.Vio
