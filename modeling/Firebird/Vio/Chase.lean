import Firebird.Tpc.SnapshotStable
import Firebird.Vio.BackoutKeeps

/-! # The version a transaction sees

`VIO_chase_record_version` of `src/jrd/vio.cpp` walks from the primary version of a record to the one
that is for the transaction, and collects what garbage it meets: dead versions are backed out, the
versions behind a fully mature one purged, a fully mature deleted record expunged. Nobody else is
active, the record was not touched under the current savepoint, and the stream skips no locked records. -/

namespace Firebird.Vio

open Tpc (TraNumber TraState)

/-- What the call reads of its attachment, its relation and its transaction. `snapshotState` is what
    `TRA_snapshot_state` answers. -/
structure ChaseEnv where
  formats : Formats
  currentFormat : FormatNumber
  samePage : Address → Address → Bool
  snapshotState : TraNumber → TraState
  traNumber : TraNumber
  attTransactions : List TraNumber
  temporary : Bool
  oldestSnapshot : TraNumber
  noCleanup : Bool
  notifyGc : Bool
  gcCooperative : Bool
  gcEnabled : Bool

/-- The record parameter block: the version it is positioned on, and the record it reads into. -/
structure RecordParam where
  address : Address
  slot : Slot
  record : Option Record
  prior : Bool

/-- Read the version; the record becomes the prior one of a difference behind it. -/
def RecordParam.data (formats : Formats) (rpb : RecordParam) : Except VioError RecordParam :=
  match vioData formats (rpb.record.getD (Record.new formats rpb.slot.format)) (.ofDelta rpb.prior) rpb.slot with
  | .error e => .error e
  | .ok record => .ok { rpb with record := some record, prior := rpb.slot.back.isSome && rpb.slot.delta }

def dpmFetchBack (pages : Pages) (rpb : RecordParam) : Except VioError RecordParam :=
  match rpb.slot.back with
  | none => .error .noBackVersion
  | some back =>
    match dpmFetch pages back with
    | none => .error .noBackVersion
    | some slot => .ok { rpb with address := back, slot }

namespace ChaseEnv

/-- A committed transaction that is still active in the attachment has only been precommitted. -/
def checkPrecommitted (env : ChaseEnv) (slot : Slot) : TraState :=
  if ¬slot.gcActive ∧ env.temporary then
    if slot.transaction = env.traNumber then .us
    else if slot.transaction ∈ env.attTransactions then .active
    else .committed
  else .committed

/-- The state of the version's transaction. A backout that was not finished is tried again: nobody is at it. -/
def stateOf (env : ChaseEnv) (slot : Slot) : TraState :=
  if ¬slot.chained ∧ slot.gcActive then .dead else env.snapshotState slot.transaction

def fetchPrimary (pages : Pages) (primary : Address) (rpb : RecordParam) : Option RecordParam :=
  (dpmGet pages primary).map fun slot => { rpb with address := primary, slot, prior := false }

/-- The version of a dead transaction is passed when it cannot be backed out. -/
def chasePastDead (env : ChaseEnv) (pages : Pages) (rpb : RecordParam) : Except VioError RecordParam :=
  if ¬rpb.slot.deleted ∨ rpb.slot.delta then
    match rpb.data env.formats with
    | .error e => .error e
    | .ok rpb => dpmFetchBack pages rpb
  else dpmFetchBack pages rpb

/-- The version of an active transaction is passed; it is read only for a difference behind it. -/
def chasePastActive (env : ChaseEnv) (pages : Pages) (rpb : RecordParam) : Except VioError RecordParam :=
  if ¬rpb.slot.delta then dpmFetchBack pages { rpb with prior := false }
  else
    match rpb.data env.formats with
    | .error e => .error e
    | .ok rpb => dpmFetchBack pages rpb

/-- The version chased from `rpb` on, which is positioned on a version in this state. -/
def chaseFrom (env : ChaseEnv) (primary : Address) : Nat → Relation → RecordParam → TraState →
    Except VioError (Relation × Option RecordParam)
  | 0, _, _, _ => .error .outOfFuel
  | fuel + 1, relation, rpb, state =>
    match if state = .committed then env.checkPrecommitted rpb.slot else state with
    | .us => .ok (relation, if rpb.slot.deleted then none else some rpb)
    | .committed =>
      if rpb.slot.deleted then
        if rpb.slot.transaction < env.oldestSnapshot ∧ ¬env.noCleanup then
          if (¬env.gcCooperative ∧ env.notifyGc ∧ ¬env.temporary) ∨ ¬env.gcEnabled then .ok (relation, none)
          else
            match expunge env.oldestSnapshot env.noCleanup relation primary with
            | .error e => .error e
            | .ok relation => .ok (relation, none)
        else .ok (relation, none)
      else if env.oldestSnapshot ≤ rpb.slot.transaction ∨ rpb.slot.back = none ∨ rpb.slot.chained ∨ env.noCleanup then
        .ok (relation, some rpb)
      else if (¬env.gcCooperative ∧ env.notifyGc ∧ ¬env.temporary) ∨ ¬env.gcEnabled then .ok (relation, some rpb)
      else
        match purge env.formats env.currentFormat relation primary rpb.slot with
        | .error e => .error e
        | .ok relation =>
          match fetchPrimary relation.pages primary rpb with
          | none => .ok (relation, none)
          | some rpb => chaseFrom env primary fuel relation rpb (env.stateOf rpb.slot)
    | .dead | .precommitted =>
      -- a backout that was not finished is no obstacle any more: `checkGCActive` has taken the flag off
      if env.noCleanup ∨ env.notifyGc ∨ ¬env.gcEnabled ∨ rpb.slot.chained then
        if rpb.slot.back = none then .ok (relation, none)
        else
          match env.chasePastDead relation.pages rpb with
          | .error e => .error e
          | .ok rpb => chaseFrom env primary fuel relation rpb (env.stateOf rpb.slot)
      else
        match vioBackout env.formats env.currentFormat env.samePage relation primary rpb.slot with
        | .error e => .error e
        | .ok relation =>
          match fetchPrimary relation.pages primary rpb with
          | none => .ok (relation, none)
          | some rpb => chaseFrom env primary fuel relation rpb (env.stateOf rpb.slot)
    | _ =>
      if rpb.slot.back = none then .ok (relation, none)
      else
        match env.chasePastActive relation.pages rpb with
        | .error e => .error e
        | .ok rpb => chaseFrom env primary fuel relation rpb (env.stateOf rpb.slot)

end ChaseEnv

/-- The version of the record for the transaction, `rpb` being positioned on the primary one. -/
def vioChaseRecordVersion (env : ChaseEnv) (relation : Relation) (primary : Address) (rpb : RecordParam) :
    Except VioError (Relation × Option RecordParam) :=
  let state := env.stateOf rpb.slot
  let state := if state = .committed then env.checkPrecommitted rpb.slot else state
  if (state = .committed ∨ state = .us) ∧ ¬rpb.slot.deleted ∧
      (rpb.slot.back = none ∨ env.oldestSnapshot ≤ rpb.slot.transaction) then .ok (relation, some rpb)
  else env.chaseFrom primary (relation.pages.length + 2) relation rpb state

end Firebird.Vio
