import Firebird.Vio.ChaseAnswer

/-! # Reading as of a snapshot

A concurrency transaction finds its own version of a record, or the newest one that was committed before its snapshot.
-/

namespace Firebird.Vio

open Prod

open Tpc (TraNumber TraState CommitNumber IsCommitted JrdTra Database)

variable {env : ChaseEnv} {relation : Relation} {primary : Address} {gcActive : Bool} {head : StoredVersion}
  {older : List StoredVersion} {d : Database} {trans : JrdTra}
  {reader : Database.Reader} {n : TraNumber}

/-- The garbage collect record blocks after `VIO_update_in_place`. -/
def vioUpdateInPlace (formats : Formats) (currentFormat : FormatNumber) (gcRecords : List Record)
    (prior : Option Record) (back : Slot) : Except VioError (List Record) :=
  match prior with
  | none => .ok gcRecords
  | some prior =>
    match vioData formats (getGCRecord formats gcRecords 0 currentFormat) (.record prior) back with
    | .error e => .error e
    | .ok record => .ok (releaseGCRecord gcRecords 0 record)

/-- A live concurrency transaction, its snapshot taken, chases in this database. -/
structure Reads (d : Database) (reader : Database.Reader) (trans : JrdTra) (env : ChaseEnv) : Prop where
  inv : d.Inv
  concurrency : trans.Concurrency
  subTrans : trans.traCommitSubTrans = ∅
  taken : trans.traSnapshotNumber ≤ d.tipCache.header.latestCommitNumber
  number : env.traNumber = trans.traNumber
  states : ∀ n, ∃ d' snapshot, d.traSnapshotState reader trans n = .ok (d', env.snapshotState n, snapshot)

/-- Committed for the transaction: with a number up to its snapshot number, or older than its oldest. -/
def CommittedFor (d : Database) (trans : JrdTra) (n : TraNumber) : Prop :=
  n < trans.traOldest ∨ n = Tpc.traSystemTransaction ∨
    (IsCommitted (d.tipCache.stateOf n) ∧ d.tipCache.stateOf n ≤ trans.traSnapshotNumber)

instance (d : Database) (trans : JrdTra) (n : TraNumber) : Decidable (CommittedFor d trans n) :=
  inferInstanceAs (Decidable (_ ∨ _ ∨ _))

/-- A version is visible if it is the transaction's own or committed for it. In a temporary table a
    transaction of the attachment that has only been precommitted is not committed. -/
def Visible (d : Database) (trans : JrdTra) (env : ChaseEnv) (n : TraNumber) : Prop :=
  n = trans.traNumber ∨ (CommittedFor d trans n ∧ ¬(env.temporary ∧ n ∈ env.attTransactions))

instance (d : Database) (trans : JrdTra) (env : ChaseEnv) (n : TraNumber) : Decidable (Visible d trans env n) :=
  inferInstanceAs (Decidable (_ ∨ _))

theorem traSnapshotState_ne_us {d' : Database} {state : TraState} {snapshot : CommitNumber} (hn : n ≠ trans.traNumber)
    (hs : d.traSnapshotState reader trans n = .ok (d', state, snapshot)) : state ≠ .us := by
  have hstate : ∀ cn, Database.stateOfCn cn ≠ .us := by
    intro cn
    unfold Database.stateOfCn
    split
    · exact TraState.noConfusion
    · split
      · exact TraState.noConfusion
      · split <;> exact TraState.noConfusion
  have hfound := d.stateFound reader trans n
  rw [hs] at hfound
  cases hfound with
  | own hown => exact absurd hown hn
  | ended => exact TraState.noConfusion
  | found _ _ h =>
    rcases h with rfl | rfl | rfl
    · exact TraState.noConfusion
    · exact TraState.noConfusion
    · exact hstate _

section
variable (h : Reads d reader trans env) (n : TraNumber)
include h

theorem Reads.us_iff : env.snapshotState n = .us ↔ n = trans.traNumber := by
  obtain ⟨d', snapshot, hstate⟩ := h.states n
  refine ⟨fun hus => ?_, fun hn => ?_⟩
  · by_contra hn
    exact traSnapshotState_ne_us hn hstate hus
  · unfold Database.traSnapshotState at hstate
    rw [if_pos hn] at hstate
    exact (mk.inj (mk.inj (Except.ok.inj hstate)).2).1.symm

theorem Reads.committed_iff : env.snapshotState n = .committed ↔ n ≠ trans.traNumber ∧ CommittedFor d trans n := by
  by_cases hus : n = trans.traNumber
  · rw [(h.us_iff n).mpr hus]
    exact ⟨nofun, fun hne => absurd hus hne.1⟩
  obtain ⟨d', snapshot, hstate⟩ := h.states n
  unfold CommittedFor
  by_cases hset : d.tipCache.stateOf n = Tpc.cnDead ∨ IsCommitted (d.tipCache.stateOf n)
  · obtain ⟨d'', snapshot', hanswer⟩ := Database.answers_settled h.inv h.concurrency h.subTrans hset reader
    rw [hanswer] at hstate
    rw [← (mk.inj (mk.inj (Except.ok.inj hstate)).2).1]
    unfold Database.settledAnswer
    rw [if_neg hus]
    by_cases hold : n < trans.traOldest ∨ n = Tpc.traSystemTransaction
    · rw [if_pos hold]
      exact ⟨fun _ => ⟨hus, hold.imp_right .inl⟩, fun _ => rfl⟩
    · rw [if_neg hold]
      obtain ⟨hold, hsys⟩ := not_or.mp hold
      rcases hset with hdead | hcom
      · rw [hdead]
        exact ⟨nofun, fun hne => absurd hne.2 (by simp [hold, hsys, Tpc.TipCache.not_isCommitted_cnDead])⟩
      · have hdead : d.tipCache.stateOf n ≠ Tpc.cnDead := fun he => Tpc.TipCache.not_isCommitted_cnDead (he ▸ hcom)
        rw [if_neg hdead]
        split
        · rename_i hlt
          exact ⟨nofun, fun hne => absurd hne.2 (by simp [hold, hsys, not_le.mpr hlt])⟩
        · rename_i hle
          exact ⟨fun _ => ⟨hus, .inr (.inr ⟨hcom, not_lt.mp hle⟩)⟩, fun _ => rfl⟩
  · have hcom : ¬IsCommitted (d.tipCache.stateOf n) := fun hc => hset (.inr hc)
    by_cases hold : n < trans.traOldest ∨ n = Tpc.traSystemTransaction
    · have hcommitted : env.snapshotState n = .committed := by
        unfold Database.traSnapshotState at hstate
        rw [if_neg hus] at hstate
        split at hstate
        · exact (mk.inj (mk.inj (Except.ok.inj hstate)).2).1.symm
        · rename_i hge
          rw [if_pos (hold.resolve_left hge)] at hstate
          exact (mk.inj (mk.inj (Except.ok.inj hstate)).2).1.symm
      exact ⟨fun _ => ⟨hus, hold.imp_right .inl⟩, fun _ => hcommitted⟩
    · obtain ⟨hold, hsys⟩ := not_or.mp hold
      have hne := Database.ne_committed_of_hidden h.inv h.concurrency h.subTrans h.taken
        (not_lt.mp hold) hsys (.inl hcom) hstate
      exact ⟨fun hc => absurd hc hne, fun hv => absurd hv.2 (by simp [hold, hsys, hcom])⟩

theorem Reads.sees_iff : env.Sees n ↔ Visible d trans env n := by
  have hus := h.us_iff n
  have hcommitted := h.committed_iff n
  have hnumber := h.number
  unfold ChaseEnv.Sees ChaseEnv.stateAt Visible
  by_cases htemporary : env.snapshotState n = .committed ∧ env.temporary
  · obtain ⟨hne, hc⟩ := hcommitted.mp htemporary.1
    rw [if_pos htemporary, hnumber, if_neg hne]
    by_cases hatt : n ∈ env.attTransactions
    · simp [hne, hatt, htemporary.2]
    · simp [hc, hatt]
  · rw [if_neg htemporary]
    constructor
    · rintro (hc | hc)
      · exact .inr ⟨(hcommitted.mp hc).2, fun hboth => htemporary ⟨hc, hboth.1⟩⟩
      · exact .inl (hus.mp hc)
    · rintro (hn | ⟨hc, -⟩)
      · exact .inr (hus.mpr hn)
      · by_cases hn : n = trans.traNumber
        · exact .inr (hus.mpr hn)
        · exact .inl (hcommitted.mpr ⟨hn, hc⟩)

end

/-- The version of the record for the transaction: the newest visible one, unless that is a deletion. -/
def snapshotVersion (d : Database) (trans : JrdTra) (env : ChaseEnv) (versions : List Version) : Option Version :=
  (versions.find? fun v => Visible d trans env v.transaction).filter fun v => ¬v.deleted

theorem Reads.visibleVersion_eq (h : Reads d reader trans env) (versions : List Version) :
    env.visibleVersion versions = snapshotVersion d trans env versions := by
  unfold ChaseEnv.visibleVersion snapshotVersion
  simp only [h.sees_iff]

/-- The primary version of the record is fetched, nothing read yet. -/
def RecordParam.fetched (primary : Address) (slot : Slot) : RecordParam where
  address := primary
  slot := slot
  record := none
  prior := false

theorem atVersion_fetched (h : Stored env.formats relation.pages primary gcActive head older) :
    AtVersion env.formats none head older false gcActive (.fetched primary (head.slot false gcActive older)) where
  address := h.atPrimary.symm
  slot := rfl
  prior := by rw [h.difference_head]; rfl
  ready := ⟨Record.counted_new .., fun n d hn => nomatch hn⟩

/-- The transaction finds the version as of its snapshot, whatever garbage is collected on the way, if
    the dead versions that are backed out can be read from the bytes that the record blocks count. -/
theorem vioChaseRecordVersion_finds (hreads : Reads d reader trans env)
    (hstored : Stored env.formats relation.pages primary gcActive head older)
    (hfitting : ∀ r ∈ relation.gcRecords, r.Fitting env.formats)
    (hactive : gcActive = true → env.snapshotState head.transaction = .dead)
    (hcovered : env.BacksOut → BackoutsCovered env.currentFormat env.Dead
      (gcCount env.formats relation.gcRecords env.currentFormat) (head :: older)) :
    ∃ relation' answer, vioChaseRecordVersion env relation primary (.fetched primary (head.slot false gcActive older)) =
        .ok (relation', answer) ∧
      IsAnswer env.formats relation'.pages answer (snapshotVersion d trans env
        ((head :: older).map (·.toVersion))) := by
  rw [← hreads.visibleVersion_eq]
  exact hstored.vioChaseRecordVersion_spec hfitting (atVersion_fetched hstored) hactive hcovered

def deadWriterCalls : List Database.Call :=
  [.start 0 7 Database.concurrencyFlags 0, .start 0 8 Database.concurrencyFlags 0, .setState 0 2 .committed, .release 2,
    .setState 0 3 .dead, .release 3, .start 0 9 Database.concurrencyFlags 0]

def deadWriterDatabase : Database :=
  ((deadWriterCalls.foldlM (Database.exec 1) Database.emptyDatabase).toOption).getD Database.emptyDatabase

theorem inv_deadWriterDatabase : deadWriterDatabase.Inv := by
  have hrun : Lib.Run (Database.Step 1) Database.emptyDatabase deadWriterCalls deadWriterDatabase :=
    .cons ⟨(by decide : (7 : Nat) ≠ 0), rfl⟩ (.cons ⟨(by decide : (8 : Nat) ≠ 0), rfl⟩
      (.cons ⟨(by decide : (2 : Nat) ≤ Tpc.maxTraNumber), rfl⟩ (.cons ⟨trivial, rfl⟩
        (.cons ⟨(by decide : (3 : Nat) ≤ Tpc.maxTraNumber), rfl⟩ (.cons ⟨trivial, rfl⟩
          (.cons ⟨(by decide : (9 : Nat) ≠ 0), rfl⟩ (.nil _)))))))
  exact hrun.invariant (fun _ _ _ hi hs => (hi.step hs).1) Database.opened_emptyDatabase.inv

def deadWriterReader : Database.Reader where
  proc := 0
  lockData _ := true
  activeSnapshots := { snapshots := ∅, lastCommit := 2, releaseCount := 0, slotsUsed := 0 }
  requestSnapshot := none

/-- The reader's transaction: its snapshot number is the one transaction 2 committed with. -/
def deadWriterTransaction : JrdTra where
  traNumber := 4
  traOldest := 1
  traFlags := Database.concurrencyFlags
  traAttachment := 9
  traSnapshotHandle := some 0
  traSnapshotNumber := 2
  traCommitSubTrans := ∅

/-- The reader's statement was compiled before the column was dropped: format 1 is current for it. -/
def deadWriterEnv : ChaseEnv where
  formats := droppedColumnFormats
  currentFormat := 1
  samePage _ _ := false
  snapshotState n :=
    match deadWriterDatabase.traSnapshotState deadWriterReader deadWriterTransaction n with
    | .ok (_, state, _) => state
    | .error _ => .unknown
  traNumber := 4
  attTransactions := [4]
  temporary := false
  oldestSnapshot := 4
  noCleanup := false
  notifyGc := false
  gcCooperative := true
  gcEnabled := true

theorem traSnapshotState_of_lockData (h : reader.lockData n = true) :
    ∃ d' state snapshot, d.traSnapshotState reader trans n = .ok (d', state, snapshot) := by
  have hstate : ∃ d' cn, d.snapshotState reader.proc reader.lockData n = .ok (d', cn) := by
    unfold Database.snapshotState
    dsimp only
    split <;> exact ⟨_, _, rfl⟩
  obtain ⟨d', cn, hstate⟩ := hstate
  have hfound := d.stateFound reader trans n
  generalize d.traSnapshotState reader trans n = answer at hfound
  cases hfound with
  | own | ended | found => exact ⟨_, _, _, rfl⟩
  | failed hfailed => exact nomatch hstate.symm.trans hfailed

theorem reads_deadWriter : Reads deadWriterDatabase deadWriterReader deadWriterTransaction deadWriterEnv where
  inv := inv_deadWriterDatabase
  concurrency := ⟨rfl, rfl⟩
  subTrans := rfl
  taken := by decide +kernel
  number := rfl
  states n := by
    have h : deadWriterReader.lockData n = true := rfl
    obtain ⟨d', state, snapshot, h⟩ : ∃ d' state snapshot,
        deadWriterDatabase.traSnapshotState deadWriterReader deadWriterTransaction n = .ok (d', state, snapshot) :=
      traSnapshotState_of_lockData h
    refine ⟨d', snapshot, ?_⟩
    unfold deadWriterEnv
    dsimp only
    rw [h]

def deadWriterHead : StoredVersion where
  transaction := 3
  format := 1
  deleted := false
  data := [1, 2, 3, 4, 5, 6]
  address := 0
  difference := none

def deadWriterBack : StoredVersion where
  transaction := 2
  format := 1
  deleted := false
  data := [9, 2, 3, 4, 5, 6]
  address := 1
  difference := some [1, 9, 251]

def deadWriterRelation (gcRecords : List Record) : Relation where
  pages := [some (deadWriterHead.slot false false [deadWriterBack]), some (deadWriterBack.slot true false [])]
  gcRecords := gcRecords

theorem deadWriter_stored (gcRecords : List Record) :
    Stored deadWriterEnv.formats (deadWriterRelation gcRecords).pages 0 false deadWriterHead [deadWriterBack] where
  atPrimary := rfl
  slot := rfl
  back := ⟨rfl, trivial⟩
  distinct := by decide
  decodable := by
    refine ⟨rfl, nofun, rfl, ?_, trivial⟩
    intro d hd
    cases hd
    exact ⟨_, rfl, rfl, Sqz.Difference.isDifference_make (by decide +kernel)⟩

/-- Nothing has collected garbage in the relation before. -/
theorem vioChaseRecordVersion_finds_deadWriter :
    ∃ relation' answer, vioChaseRecordVersion deadWriterEnv (deadWriterRelation []) 0
        (.fetched 0 (deadWriterHead.slot false false [deadWriterBack])) = .ok (relation', answer) ∧
      IsAnswer deadWriterEnv.formats relation'.pages answer (snapshotVersion deadWriterDatabase deadWriterTransaction
        deadWriterEnv ([deadWriterHead, deadWriterBack].map (·.toVersion))) :=
  vioChaseRecordVersion_finds reads_deadWriter (deadWriter_stored []) nofun nofun
    fun _ => backoutsCovered_of_le le_rfl (deadWriter_stored []).decodable

/-- The first version of another record, stored as a difference from the one without the column. -/
def droppedColumnBack : Slot where
  transaction := 2
  format := 1
  deleted := false
  delta := false
  chained := true
  gcActive := false
  back := none
  data := [252, 2, 5, 6]

def droppedColumnGcRecord : Record where
  format := 1
  data := [1, 2, 3, 4, 5, 6]
  count := 4

/-- The transaction that has dropped the column updates that record for the second time. The reader's backout then
    loses the bytes 5 and 6 of the committed version. -/
theorem vioChaseRecordVersion_loses_bytes :
    vioUpdateInPlace deadWriterEnv.formats 2 [] (some { format := 2, data := [1, 2, 3, 4], count := 4 })
    droppedColumnBack =
        .ok [droppedColumnGcRecord] ∧
      Reads deadWriterDatabase deadWriterReader deadWriterTransaction deadWriterEnv ∧
      Stored deadWriterEnv.formats (deadWriterRelation [droppedColumnGcRecord]).pages 0 false deadWriterHead
      [deadWriterBack] ∧ (∀ r ∈ [droppedColumnGcRecord], r.Fitting deadWriterEnv.formats) ∧
      ¬∃ relation' answer, vioChaseRecordVersion deadWriterEnv (deadWriterRelation [droppedColumnGcRecord]) 0
          (.fetched 0 (deadWriterHead.slot false false [deadWriterBack])) = .ok (relation', answer) ∧
        IsAnswer deadWriterEnv.formats relation'.pages answer (snapshotVersion deadWriterDatabase deadWriterTransaction
          deadWriterEnv ([deadWriterHead, deadWriterBack].map (·.toVersion))) := by
  refine ⟨by decide +kernel, reads_deadWriter, deadWriter_stored _, fun r hr => ?_, ?_⟩
  · rw [List.mem_singleton.mp hr]
    exact ⟨by decide, by decide⟩
  rintro ⟨relation', answer, hchase, hanswer⟩
  have hversion : snapshotVersion deadWriterDatabase deadWriterTransaction deadWriterEnv
      ([deadWriterHead, deadWriterBack].map (·.toVersion)) = some deadWriterBack.toVersion := by
    decide +kernel
  have hread : ((vioChaseRecordVersion deadWriterEnv (deadWriterRelation [droppedColumnGcRecord]) 0
      (.fetched 0 (deadWriterHead.slot false false [deadWriterBack]))).toOption.bind (·.2)).bind
        (fun rpb => (rpb.data deadWriterEnv.formats).toOption.bind
          fun rpb => rpb.record.map (·.bytes deadWriterEnv.formats)) = some [9, 2, 3, 4, 0, 0] := by
    decide +kernel
  cases answer with
  | none => exact hanswer
  | some rpb =>
    obtain ⟨rpb', record, hdata, hrecord, hbytes⟩ := hanswer.data
    rw [hchase, Except.toOption, Option.bind_some, Option.bind_some, hdata, Except.toOption, Option.bind_some, hrecord,
      Option.map_some, hbytes] at hread
    revert hread
    decide

end Firebird.Vio
