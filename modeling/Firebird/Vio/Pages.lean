import Firebird.Tpc.TipCache
import Firebird.Sqz.Difference

/-! # Record versions on data pages

The slots of data pages (`src/jrd/dpm.epp`) that hold the versions of a record, their data unpacked,
and the blocks they are read into (`src/jrd/Record.h`, `VIO_data` of `src/jrd/vio.cpp`). The primary
version of a record has a fixed slot; each version points to the next older one. -/

namespace Firebird.Vio

open Tpc (TraNumber)

abbrev FormatNumber := Nat
abbrev Bytes := List UInt8

abbrev Address := Nat

/-- The length of the records of each format (`fmt_length`). -/
abbrev Formats := FormatNumber → Nat

/-- The header of a stored version, with its data. The flag `delta` speaks of the next older version:
    it is stored as a difference. -/
structure Slot where
  transaction : TraNumber
  format : FormatNumber
  deleted : Bool
  delta : Bool
  chained : Bool
  gcActive : Bool
  back : Option Address
  data : Bytes
  deriving DecidableEq

abbrev Pages := List (Option Slot)

inductive VioError
  | wrongRecordLength | decompressionOverran | badDifference (e : Sqz.DifferenceError) | noBackVersion
  | recordDisappeared | outOfFuel
  deriving DecidableEq

def dpmFetch (pages : Pages) (address : Address) : Option Slot := pages[address]?.join

def dpmGet (pages : Pages) (primary : Address) : Option Slot :=
  (dpmFetch pages primary).filter fun slot => !slot.chained

def locateSpace (pages : Pages) : Address := pages.findIdx Option.isNone

def dpmStore (pages : Pages) (slot : Slot) : Pages × Address :=
  if locateSpace pages < pages.length then (pages.set (locateSpace pages) (some slot), locateSpace pages)
  else (pages ++ [some slot], pages.length)

def dpmDelete (pages : Pages) (address : Address) : Pages := pages.set address none

def dpmRewriteHeader (pages : Pages) (address : Address) (slot : Slot) : Pages := pages.set address (some slot)

def dpmUpdate (pages : Pages) (address : Address) (slot : Slot) : Pages :=
  pages.set address (some { slot with chained := false, gcActive := false })

/-- A record block: the memory allocated for it, and how many bytes of that the array counts. -/
structure Record where
  format : FormatNumber
  data : Bytes
  count : Nat
  deriving DecidableEq

namespace Record

def new (formats : Formats) (format : FormatNumber) : Record :=
  { format, data := List.replicate (formats format) 0, count := formats format }

/-- Resize the array: new bytes are zero, and it does not shrink in memory. -/
def resize (r : Record) (newCount : Nat) : Record :=
  if r.count < newCount then
    { r with
      data := r.data.take r.count ++ List.replicate (newCount - r.count) 0 ++ r.data.drop newCount
      count := newCount }
  else { r with count := newCount }

def reset (formats : Formats) (r : Record) (format : FormatNumber) : Record :=
  if r.format = format then r else { r.resize (formats format) with format }

def getLength (formats : Formats) (r : Record) : Nat := formats r.format

/-- Copy what the other array counts; what is behind it in memory stays. -/
def copyDataFrom (r other : Record) : Record :=
  { r with data := other.data.take other.count ++ r.data.drop other.count, count := other.count }

def bytes (formats : Formats) (r : Record) : Bytes := r.data.take (r.getLength formats)

end Record

/-- The record a difference is applied to: none, the block that is read into, or another one. -/
inductive Prior
  | none
  | same
  | record (r : Record)
  deriving DecidableEq

/-- Read a version into a record block. Only a chained version is a difference, if there is a prior record. -/
def vioData (formats : Formats) (record : Record) (prior : Prior) (slot : Slot) : Except VioError Record :=
  let record := record.reset formats slot.format
  let apply (record : Record) : Except VioError Record :=
    if Sqz.maxDifferences < slot.data.length then .error .decompressionOverran
    else
      match Sqz.Difference.apply slot.data (record.getLength formats) record.data with
      | .error e => .error (.badDifference e)
      | .ok (length, data) =>
        if length ≠ record.getLength formats then .error .wrongRecordLength else .ok { record with data }
  match slot.chained, prior with
  | true, .same => apply record
  | true, .record r => apply (record.copyDataFrom r)
  | _, _ =>
    if record.getLength formats < slot.data.length then .error .decompressionOverran
    else if slot.data.length ≠ record.getLength formats then .error .wrongRecordLength
    else .ok { record with data := slot.data ++ record.data.drop slot.data.length }

end Firebird.Vio
