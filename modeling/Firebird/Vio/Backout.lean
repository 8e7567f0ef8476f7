import Firebird.Vio.IntermediateGcKeeps

/-! # Backing out, purging and expunging

`VIO_backout`, `purge` and `expunge` of `src/jrd/vio.cpp`, which get rid of a dead version, of the
versions behind a fully mature one, and of a fully mature deleted record. They read into record
blocks that the relation keeps for garbage collection. Nobody changes the record meanwhile. -/

namespace Firebird.Vio

open Tpc (TraNumber)

/-- The pages of a relation, and its garbage collect record blocks (`rel_gc_records`), all idle. -/
structure Relation where
  pages : Pages
  gcRecords : List Record

def getGCRecord (formats : Formats) (gcRecords : List Record) (active : Nat) (format : FormatNumber) : Record :=
  match gcRecords[active]? with
  | some record => record.reset formats format
  | none => Record.new formats format

def releaseGCRecord (gcRecords : List Record) (active : Nat) (record : Record) : List Record :=
  if active < gcRecords.length then gcRecords.set active record else gcRecords ++ [record]

/-- The version before takes the primary slot: both are on the same page. -/
def dpmBackout (pages : Pages) (primary back : Address) (old : Slot) : Pages :=
  dpmDelete (pages.set primary (some { old with chained := false, gcActive := false })) back

/-- The data of the current version: none for a deleted one without a difference behind it. -/
def backoutData (formats : Formats) (currentFormat : FormatNumber) (gcRecords : List Record) (head : Slot) :
    Except VioError (Option Record) :=
  if head.deleted ∧ ¬head.delta then .ok none
  else
    match vioData formats (getGCRecord formats gcRecords 0 currentFormat) .none head with
    | .error e => .error e
    | .ok record => .ok (some record)

/-- The data of the version before it, unless that is deleted. -/
def backoutOldData (formats : Formats) (gcRecord : Record) (data : Option Record)
    (head old : Slot) : Except VioError Record :=
  if old.deleted then .ok gcRecord
  else
    vioData formats gcRecord (if head.delta then data.elim .none .record else .none) old

/-- Back out the current version of a record: the version before it is brought forward. `rpb` is the
    version the caller has found. -/
def vioBackout (formats : Formats) (currentFormat : FormatNumber) (samePage : Address → Address → Bool)
    (relation : Relation) (primary : Address) (rpb : Slot) : Except VioError Relation :=
  match dpmGet relation.pages primary with
  | none => .ok relation
  | some head =>
    if head.back ≠ rpb.back ∨ head.transaction ≠ rpb.transaction then .ok relation
    else
      match backoutData formats currentFormat relation.gcRecords head with
      | .error e => .error e
      | .ok data =>
        let gcRecords := data.elim relation.gcRecords (releaseGCRecord relation.gcRecords 0)
        match head.back with
        | none => .ok { pages := dpmDelete relation.pages primary, gcRecords }
        | some back =>
          match dpmFetch relation.pages back with
          | none => .error .noBackVersion
          | some old =>
            let active := data.elim 0 fun _ => 1
            match backoutOldData formats (getGCRecord formats gcRecords active currentFormat) data head old with
            | .error e => .error e
            | .ok oldData =>
              let gcRecords := releaseGCRecord gcRecords active oldData
              if samePage primary back ∧ ¬head.delta then
                .ok { pages := dpmBackout relation.pages primary back old, gcRecords }
              else
                let forward : Slot :=
                  { transaction := old.transaction, format := old.format, deleted := old.deleted
                    delta := if old.deleted then head.delta else old.back.isSome && old.delta
                    chained := false, gcActive := false, back := old.back
                    data := if old.deleted then old.data else oldData.bytes formats }
                .ok { pages := dpmDelete (dpmUpdate relation.pages primary forward) back, gcRecords }

/-- Purge the versions behind a fully mature record. -/
def purge (formats : Formats) (currentFormat : FormatNumber) (relation : Relation) (primary : Address) (rpb : Slot) :
    Except VioError Relation :=
  match vioData formats (getGCRecord formats relation.gcRecords 0 currentFormat) .none rpb with
  | .error e => .error e
  | .ok record =>
    let gcRecords := releaseGCRecord relation.gcRecords 0 record
    match dpmGet relation.pages primary with
    | none => .ok { relation with gcRecords }
    | some head =>
      if rpb.transaction ≠ head.transaction ∨ rpb.back ≠ head.back ∨ head.back = none then .ok
        { relation with gcRecords }
      else
        match deleteVersionChain
            (dpmRewriteHeader relation.pages primary { head with back := none, delta := false, gcActive := false })
            (relation.pages.length + 1) rpb.back with
        | .error e => .error e
        | .ok pages => .ok { pages, gcRecords }

def expunge (oldestSnapshot : TraNumber) (noCleanup : Bool) (relation : Relation) (primary : Address) :
    Except VioError Relation :=
  if noCleanup then .ok relation
  else
    match dpmGet relation.pages primary with
    | none => .ok relation
    | some head =>
      if ¬head.deleted ∨ oldestSnapshot ≤ head.transaction then .ok relation
      else
        match deleteVersionChain (dpmDelete relation.pages primary) (relation.pages.length + 1) head.back with
        | .error e => .error e
        | .ok pages => .ok { relation with pages }

end Firebird.Vio
