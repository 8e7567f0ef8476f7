import Firebird.Dpm.DataPage

/-! # Operations on a data page

`find_space`, `DPM_update` with the first and the last part of `fragment`, `DPM_chain`, `DPM_backout`
and `DPM_delete` of `src/jrd/dpm.epp`, as far as they change one data page. -/

namespace Firebird.Dpm

inductive RecordStorageType
  | primary | secondary | other
  deriving DecidableEq

structure NewRecord where
  header : Bytes
  data : Bytes

/-- It is padded to the length of the header of a fragmented record. -/
def NewRecord.content (record : NewRecord) : Bytes :=
  record.header ++ record.data ++ List.replicate (rhdfSize - record.header.length - record.data.length) 0

/-- What `DPM_update` is called with: the record's line and new content, whether it is the transaction's
    own version, whether the version behind it is a difference, and where that is. -/
structure UpdateParam where
  line : Nat
  record : NewRecord
  own : Bool
  delta : Bool
  traNumber : Nat
  bPage : Nat
  bLine : Nat

def makeRoom (dbb : Dbb) (top length : Int) (page : DataPage) (space : Nat) : Except LayoutError (DataPage × Nat) :=
  if space - top < length then compress dbb page else .ok (page, space)

namespace DataPage

/-- Space is held back for a version that the record at this offset may get. -/
def reserves (page : DataPage) (header : Nat) : Bool :=
  page.rhdBPage header = 0 ∧
    page.rhdFlags header &&& (rhdChain ||| rhdBlob ||| rhdDeleted ||| rhdFragment) = 0

def findSpaceScan (page : DataPage) (reserving : Bool) : List DpgRepeat → Nat → Nat → Nat → Nat →
    Except LayoutError (Nat × Nat × Nat)
  | [], _, space, slot, used => .ok (space, slot, used)
  | index :: rest, i, space, slot, used =>
    if index.dpgOffset ≠ 0 then
      match ushort (used + roundUp index.dpgLength : Nat) with
      | .error e => .error e
      | .ok used =>
        match (if reserving ∧ page.reserves index.dpgOffset then ushort (used + spaceFudge : Nat) else .ok used) with
        | .error e => .error e
        | .ok used => findSpaceScan page reserving rest (i + 1) (min space index.dpgOffset) slot used
    else findSpaceScan page reserving rest (i + 1) space (if slot = 0 then i else slot) used

/-- Find space for a record and put it there. The result names its line; there is none if the page has
    no room, or is not for primary records. -/
def findSpace (dbb : Dbb) (type : RecordStorageType) (content : Bytes) (page : DataPage) :
    Except LayoutError (DataPage × Option Nat) := do
  let size ← sshort content.length
  let alignedSize ← sshort (roundUp size.toNat)
  if 0 < page.dpgCount ∧ type = .primary ∧ page.secondary then return (page, none)
  let used ← ushort (highWater page.dpgCount)
  let (space, slot, used) ← page.findSpaceScan (type = .primary ∧ ¬dbb.noReserve) page.dpgRpt 0 dbb.pageSize 0 used
  let grown := if slot = 0 then 1 else 0
  let used ← ushort (used + sizeofDpgRepeat * grown : Nat)
  if (dbb.pageSize : Int) - used < alignedSize then return ({ page with full := true }, none)
  let recSegments ← ushort (page.dpgCount + grown : Nat)
  fbAssert (recSegments ≠ 0)
  let (page, space) ← makeRoom dbb (highWater recSegments) alignedSize page space
  let slot := if slot = 0 then page.dpgCount else slot
  fbAssert (alignedSize ≤ space)
  let space ← ushort (space - alignedSize)
  let page := page.putLine slot { dpgOffset := space, dpgLength := size.toNat }
  let page := if page.dpgCount = 1 then { page with secondary := type ≠ .primary } else page
  return (page.write space content, some slot)

def updateScan : List DpgRepeat → Int → Nat → Except LayoutError (Int × Nat)
  | [], available, space => .ok (available, space)
  | index :: rest, available, space =>
    if index.dpgOffset ≠ 0 then
      match sshort (available - roundUp index.dpgLength) with
      | .error e => .error e
      | .ok available => updateScan rest available (min space index.dpgOffset)
    else updateScan rest available space

def line (page : DataPage) (line : Nat) : Except LayoutError DpgRepeat :=
  match page.dpgRpt[line]? with
  | none => .error .noSuchLine
  | some index => .ok index

/-- `fragment` claims space for the head of a record that does not fit, before it stores the rest. -/
def fragmentClaim (dbb : Dbb) (rpb : UpdateParam) (available : Int) (oldLength : Nat) (page : DataPage) :
    Except LayoutError DataPage := do
  let index ← page.line rpb.line
  if ¬rpb.own then
    let available ← sshort oldLength
    let _ ← ushort (available - rhdfSize)
    let page := page.setLine rpb.line { index with dpgLength := oldLength }
    return page.setRhdFlags index.dpgOffset (page.rhdFlags index.dpgOffset ||| rhdGcActive)
  else if rpb.delta then
    let available ← sshort oldLength
    let _ ← ushort (available - rhdfSize)
    let page := page.setRhdFlags index.dpgOffset (page.rhdFlags index.dpgOffset ||| rhdDelta)
    let page := page.setLine rpb.line { index with dpgLength := oldLength }
    let page := (page.setRhdBPage index.dpgOffset rpb.bPage).setRhdBLine index.dpgOffset rpb.bLine
    return page.setRhdFlags index.dpgOffset (page.rhdFlags index.dpgOffset ||| rhdGcActive)
  else
    let (page, space) ← compress dbb page
    let space ← ushort (space - available)
    let _ ← ushort (available - rhdfSize)
    let page := (page.setRhdFlags space rhdDeleted).clearRhdfF space
    let page := page.writeTraNum space rpb.traNumber
    let page := page.setLine rpb.line { dpgOffset := space, dpgLength := available.toNat }
    let page := (page.setRhdBPage space rpb.bPage).setRhdBLine space rpb.bLine
    return page.setRhdFlags space (page.rhdFlags space ||| rhdGcActive)

/-- Replace an existing record, or claim the space for its head. -/
def dpmUpdate (dbb : Dbb) (rpb : UpdateParam) (page : DataPage) : Except LayoutError DataPage := do
  let content := rpb.record.content
  let top ← ushort (highWater page.dpgCount)
  let available ← sshort (dbb.pageSize - top)
  let old ← page.line rpb.line
  let page := page.setLine rpb.line { old with dpgLength := 0 }
  let (available, space) ← updateScan page.dpgRpt available dbb.pageSize
  if available < roundUp content.length then page.fragmentClaim dbb rpb available old.dpgLength
  else
    let (page, space) ← makeRoom dbb top (roundUp content.length) page space
    fbAssert (roundUp content.length ≤ space)
    let space ← ushort (space - roundUp content.length)
    fbAssert (top ≤ space)
    let page := page.setLine rpb.line { dpgOffset := space, dpgLength := content.length }
    return page.write space content

/-- `fragment` comes back to the page and fills the space it has claimed. -/
def fragmentFill (line : Nat) (content : Bytes) (page : DataPage) : Except LayoutError DataPage := do
  let index ← page.line line
  return page.write index.dpgOffset content

def chainScan (count : Nat) : List DpgRepeat → Nat → Nat → Int → Nat → Except LayoutError (Nat × Int × Nat)
  | [], _, slot, available, space => .ok (slot, available, space)
  | index :: rest, n, slot, available, space =>
    let slot := if index.dpgLength = 0 ∧ slot = count then n else slot
    if index.dpgLength ≠ 0 ∧ index.dpgOffset ≠ 0 then
      match sshort (available - roundUp index.dpgLength) with
      | .error e => .error e
      | .ok available => chainScan count rest (n + 1) slot available (min space index.dpgOffset)
    else chainScan count rest (n + 1) slot available space

/-- Put a new version of a record into its line; the old one moves to a free line, which is the result. -/
def dpmChain (dbb : Dbb) (line : Nat) (record : NewRecord) (page : DataPage) :
    Except LayoutError (DataPage × Option Nat) := do
  if (dbb.pageSize : Int) - (sizeofDataPage + record.header.length) < record.data.length then return (page, none)
  let content := record.content
  let length := roundUp content.length
  let top ← ushort (highWater page.dpgCount)
  let available ← sshort (dbb.pageSize - top)
  let (slot, available, space) ← chainScan page.dpgCount page.dpgRpt 0 page.dpgCount available dbb.pageSize
  let grown := if slot = page.dpgCount then 1 else 0
  let top ← ushort (top + sizeofDpgRepeat * grown : Nat)
  let available ← sshort (available - (sizeofDpgRepeat * grown : Nat))
  if available < length then return (page, none)
  let (page, space) ← makeRoom dbb top length page space
  fbAssert (length ≤ space)
  let space ← ushort (space - length)
  fbAssert (top ≤ space)
  let index2 ← page.line line
  let page := page.setRhdFlags index2.dpgOffset (page.rhdFlags index2.dpgOffset ||| rhdChain)
  let page := page.putLine slot index2
  let page := page.setLine line { dpgOffset := space, dpgLength := content.length }
  return (page.write space content, some slot)

def backoutLast (lines : List DpgRepeat) : Nat → Except LayoutError Nat
  | 0 => .error .ushortRange
  | 1 => .ok 0
  | n + 2 => if (lines[n + 1]?.map (·.dpgLength)).getD 0 ≠ 0 then .ok (n + 1) else backoutLast lines (n + 1)

def dpmBackout (line bLine : Nat) (page : DataPage) : Except LayoutError DataPage := do
  let _ ← page.line line
  let index2 ← page.line bLine
  let page := (page.setLine line index2).setLine bLine { dpgOffset := 0, dpgLength := 0 }
  let page := page.setRhdFlags index2.dpgOffset
    (page.rhdFlags index2.dpgOffset &&& (65535 - (rhdChain ||| rhdGcActive)))
  let n ← backoutLast page.dpgRpt page.dpgCount
  return { page with dpgRpt := page.dpgRpt.take (n + 1) }

def deleteCount (lines : List DpgRepeat) : Nat → Nat
  | 0 => 0
  | n + 1 => if (lines[n]?.map (·.dpgOffset)).getD 0 ≠ 0 then n + 1 else deleteCount lines n

/-- Delete a line. A full page is full until a quarter of it is free. -/
def dpmDelete (dbb : Dbb) (line : Nat) (page : DataPage) : Except LayoutError DataPage := do
  let _ ← page.line line
  let page := page.setLine line { dpgOffset := 0, dpgLength := 0 }
  let page := { page with dpgRpt := page.dpgRpt.take (deleteCount page.dpgRpt page.dpgCount) }
  let used := highWater page.dpgCount +
    (page.dpgRpt.map fun index => if index.dpgOffset ≠ 0 then roundUp index.dpgLength else 0).sum
  let staysFull := page.dpgCount ≠ 0 ∧ page.full ∧ (dbb.pageSize * 3 / 4 : Nat) ≤ used
  return { page with full := staysFull }

end DataPage
end Firebird.Dpm
