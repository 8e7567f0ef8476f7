import Mathlib

/-! # Data pages

The lines of a data page (`src/jrd/ods.h`, `src/jrd/dpm.epp`): an index of offsets and lengths grows
up from the page header, the records grow down from the end of the page. Sizes are computed in 16-bit
variables; a value that one of them cannot hold is an error here, as is an assertion that fails. -/

namespace Firebird.Dpm

abbrev Bytes := List UInt8

def odsAlignment : Nat := 4
def sizeofDataPage : Nat := 28
def sizeofDpgRepeat : Nat := 4

def rhdfSize : Nat := 22

def minPageSize : Nat := 8192
def maxPageSize : Nat := 32768

def roundUp (n : Nat) : Nat := (n + odsAlignment - 1) / odsAlignment * odsAlignment

def highWater (x : Nat) : Int := sizeofDataPage + sizeofDpgRepeat * ((x : Int) - 1)

/-- Space held back for each record that has no older version yet. -/
def spaceFudge : Nat := roundUp rhdfSize + sizeofDpgRepeat

def rhdDeleted : Nat := 1
def rhdChain : Nat := 2
def rhdFragment : Nat := 4
def rhdBlob : Nat := 16
def rhdDelta : Nat := 32
def rhdGcActive : Nat := 256
def rhdLongTranum : Nat := 1024

inductive LayoutError
  | ushortRange | sshortRange | assertion | noSuchLine

def ushort (x : Int) : Except LayoutError Nat := if 0 ≤ x ∧ x ≤ 65535 then .ok x.toNat else .error .ushortRange

def sshort (x : Int) : Except LayoutError Int := if -32768 ≤ x ∧ x ≤ 32767 then .ok x else .error .sshortRange

def fbAssert (p : Prop) [Decidable p] : Except LayoutError Unit := if p then .ok () else .error .assertion

structure Dbb where
  pageSize : Nat
  noReserve : Bool
  pageSize_min : minPageSize ≤ pageSize
  pageSize_max : pageSize ≤ maxPageSize
  pageSize_aligned : odsAlignment ∣ pageSize

/-- A line of the index; the offset of an unused one is zero. -/
structure DpgRepeat where
  dpgOffset : Nat
  dpgLength : Nat

/-- A data page. `dpg_count` is the number of lines. -/
structure DataPage where
  dpgRpt : List DpgRepeat
  bytes : Nat → UInt8
  full : Bool
  secondary : Bool

namespace DataPage

def dpgCount (page : DataPage) : Nat := page.dpgRpt.length

def write (page : DataPage) (offset : Nat) (content : Bytes) : DataPage :=
  { page with bytes := fun i => if offset ≤ i then (content[i - offset]?).getD (page.bytes i) else page.bytes i }

def readU16 (page : DataPage) (offset : Nat) : Nat :=
  (page.bytes offset).toNat + 256 * (page.bytes (offset + 1)).toNat

def readU32 (page : DataPage) (offset : Nat) : Nat :=
  page.readU16 offset + 65536 * page.readU16 (offset + 2)

def u16Bytes (n : Nat) : Bytes := [UInt8.ofNat n, UInt8.ofNat (n / 256)]

def u32Bytes (n : Nat) : Bytes := u16Bytes n ++ u16Bytes (n / 65536)

def rhdBPage (page : DataPage) (header : Nat) : Nat := page.readU32 (header + 4)
def rhdFlags (page : DataPage) (header : Nat) : Nat := page.readU16 (header + 10)

def setRhdBPage (page : DataPage) (header bPage : Nat) : DataPage := page.write (header + 4) (u32Bytes bPage)
def setRhdBLine (page : DataPage) (header bLine : Nat) : DataPage := page.write (header + 8) (u16Bytes bLine)
def setRhdFlags (page : DataPage) (header flags : Nat) : DataPage := page.write (header + 10) (u16Bytes flags)

def writeTraNum (page : DataPage) (header traNumber : Nat) : DataPage :=
  let page := page.write header (u32Bytes traNumber)
  let highWord := traNumber / 4294967296
  let page := if highWord ≠ 0 then page.setRhdFlags header (page.rhdFlags header ||| rhdLongTranum) else page
  if page.rhdFlags header &&& rhdLongTranum ≠ 0 then page.write (header + 14) (u16Bytes highWord) else page

/-- The pointer to the next fragment is none yet. -/
def clearRhdfF (page : DataPage) (header : Nat) : DataPage :=
  (page.write (header + 16) (u32Bytes 0)).write (header + 20) (u16Bytes 0)

def setLine (page : DataPage) (line : Nat) (index : DpgRepeat) : DataPage :=
  { page with dpgRpt := page.dpgRpt.set line index }

def putLine (page : DataPage) (line : Nat) (index : DpgRepeat) : DataPage :=
  if line = page.dpgCount then { page with dpgRpt := page.dpgRpt ++ [index] } else page.setLine line index

def record (page : DataPage) (line : Nat) : Option Bytes :=
  match page.dpgRpt[line]? with
  | none => none
  | some index =>
    if index.dpgOffset = 0 then none
    else some ((List.range index.dpgLength).map fun i => page.bytes (index.dpgOffset + i))

end DataPage

/-- Copy the lines to the end of the temporary page, one below the other. -/
def compressLines (bytes : Nat → UInt8) : List DpgRepeat → Nat → (Nat → UInt8) →
    Except LayoutError (List DpgRepeat × Nat × (Nat → UInt8))
  | [], space, tempPage => .ok ([], space, tempPage)
  | index :: rest, space, tempPage =>
    if index.dpgOffset ≠ 0 then
      match ushort ((space : Int) - roundUp index.dpgLength) with
      | .error e => .error e
      | .ok space =>
        let tempPage := fun i =>
          if space ≤ i ∧ i < space + roundUp index.dpgLength then bytes (index.dpgOffset + (i - space)) else tempPage i
        match compressLines bytes rest space tempPage with
        | .error e => .error e
        | .ok (rest, free, tempPage) => .ok ({ index with dpgOffset := space } :: rest, free, tempPage)
    else
      match compressLines bytes rest space tempPage with
      | .error e => .error e
      | .ok (rest, free, tempPage) => .ok (index :: rest, free, tempPage)

def compress (dbb : Dbb) (page : DataPage) : Except LayoutError (DataPage × Nat) :=
  match compressLines page.bytes page.dpgRpt dbb.pageSize fun _ => 0 with
  | .error e => .error e
  | .ok (dpgRpt, space, tempPage) =>
    .ok ({ page with dpgRpt, bytes := fun i => if space ≤ i then tempPage i else page.bytes i }, space)

end Firebird.Dpm
