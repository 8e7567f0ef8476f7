import Firebird.Lib.Wire

/-! # Index keys

How the values of a record become the key of an index entry (`compress` and `IndexKey::compose`, `src/jrd/btr.cpp`).
Keys compare byte by byte. The string types and the types of fixed size are modelled, without multiple keys for
`STARTING` and without text type conversions; formats and expressions that make a key impossible are not. -/

namespace Firebird.Btr

def stuffCount : Nat := 4

/-- `sizeof(temporary_key::key_data)` -/
def keyDataSize : Nat := 8192 + 1

inductive IType where
  | string | byteArray | sqlDate | sqlTime | timestamp | boolean
  deriving DecidableEq

/-- A value, by what the conversions give for it (`MOV_get_string`, …). -/
structure Desc where
  string : List UInt8
  sqlDate : Int
  sqlTime : Nat
  timestamp : Int × Nat
  boolean : Bool

def bigEndian (size : Nat) (n : Int) : List UInt8 := (Lib.leBytes size (n % 256 ^ size).toNat).reverse

def trim (pad : UInt8) (l : List UInt8) : List UInt8 :=
  if l.all (· == pad) then l.take 1 else (l.reverse.dropWhile (· == pad)).reverse

def descEndValuePrefix : UInt8 := 1
def descEndValueCheck : UInt8 := 0

def startsLikeEnd : List UInt8 → Bool
  | [] => false
  | b :: _ => b == descEndValuePrefix || b == descEndValueCheck

/-- The string part of `compress`. The flag tells that the value is not an empty string. -/
def compressString (pad : UInt8) (ilength : Nat) (descending : Bool) (string : List UInt8) : List UInt8 × Bool :=
  let string := if ilength ≠ 0 ∧ ilength ≤ string.length then string.take ilength else string
  if string.length ≠ 0 then
    let length := min string.length keyDataSize
    if descending && startsLikeEnd string then
      (trim pad (descEndValuePrefix :: string.take (min length (keyDataSize - 1))), true)
    else (trim pad (string.take length), true)
  else if descending && startsLikeEnd [pad] then (trim pad [descEndValuePrefix, pad], false)
  else (trim pad [pad], false)

def fixedBytes (desc : Desc) : IType → List UInt8
  | .sqlDate => bigEndian 4 desc.sqlDate
  | .sqlTime => bigEndian 4 desc.sqlTime
  | .timestamp => bigEndian 8 (desc.timestamp.1 * (24 * 60 * 60 * 10000) + desc.timestamp.2)
  | .boolean => bigEndian 1 (if desc.boolean then 1 else 0)
  | .string | .byteArray => []

def zapSign : List UInt8 → List UInt8
  | [] => []
  | b :: l => (b ^^^ 128) :: l

/-- The rest of `compress`: the bytes, the highest one first, without trailing zeros. -/
def compressFixed (descending : Bool) (bytes : List UInt8) : List UInt8 :=
  let key := trim 0 (zapSign bytes)
  if descending && startsLikeEnd key then descEndValuePrefix :: key else key

/-- `compress`: the key of one value, and whether the flag `key_empty` is cleared. -/
def compress (desc : Option Desc) (itype : IType) (ilength : Nat) (descending : Bool) : List UInt8 × Bool :=
  match desc, itype with
  | none, _ => (if descending then [0] else [], true)
  | some desc, .string => compressString 32 ilength descending desc.string
  | some desc, .byteArray => compressString 0 ilength descending desc.string
  | some desc, itype => (compressFixed descending (fixedBytes desc itype), true)

structure IdxRepeat where
  field : Nat
  itype : IType
  length : Nat

/-- The values of a record by field, as `EVL_field` gives them. -/
abbrev Record := Nat → Option Desc

structure IndexDesc where
  rpt : List IdxRepeat
  descending : Bool
  expression : Option (Record → Option Desc)

/-- `temporary_key`; `empty` is the flag `key_empty`. -/
structure TemporaryKey where
  data : List UInt8
  empty : Bool
  nulls : List Bool

inductive IdxE where
  | keyTooBig

def putByte (maxKeyLength : Nat) (data : List UInt8) (byte : UInt8) : Except IdxE (List UInt8) :=
  if maxKeyLength ≤ data.length + 1 then .error .keyTooBig else .ok (data ++ [byte])

def putPadding (maxKeyLength : Nat) : Nat → List UInt8 → Except IdxE (List UInt8)
  | 0, data => .ok data
  | stuff + 1, data => do putPadding maxKeyLength stuff (← putByte maxKeyLength data 0)

def putSegment (maxKeyLength : Nat) (marker : UInt8) : List UInt8 → Nat → List UInt8 → Except IdxE (Nat × List UInt8)
  | [], stuff, data => .ok (stuff, data)
  | byte :: bytes, 0, data => do
    let data ← putByte maxKeyLength data marker
    let data ← putByte maxKeyLength data byte
    putSegment maxKeyLength marker bytes (stuffCount - 1) data
  | byte :: bytes, stuff + 1, data => do
    let data ← putByte maxKeyLength data byte
    putSegment maxKeyLength marker bytes stuff data

structure Composing where
  data : List UInt8
  stuff : Nat
  tempEmpty : Bool
  nulls : List Bool

def composeSegments (idx : IndexDesc) (maxKeyLength : Nat) (record : Record) :
    Nat → List IdxRepeat → Composing → Except IdxE Composing
  | _, [], s => .ok s
  | n, tail :: tails, s => do
    let data ← putPadding maxKeyLength s.stuff s.data
    let desc := record tail.field
    let (bytes, cleared) := compress desc tail.itype tail.length idx.descending
    let (stuff, data) ← putSegment maxKeyLength (UInt8.ofNat (idx.rpt.length - n)) bytes 0 data
    composeSegments idx maxKeyLength record (n + 1) tails
      ⟨data, stuff, s.tempEmpty && !cleared, s.nulls ++ [desc.isNone]⟩

def complementKey (data : List UInt8) : List UInt8 := data.map fun byte => ~~~byte

def composeKey (idx : IndexDesc) (segments maxKeyLength : Nat) (record : Record) : Except IdxE TemporaryKey :=
  match idx.rpt with
  | [tail] =>
    let desc := match idx.expression with
      | some expression => expression record
      | none => record tail.field
    let own := compress desc tail.itype tail.length idx.descending
    .ok ⟨own.1, !own.2, [desc.isNone]⟩
  | rpt => do
    let s ← composeSegments idx maxKeyLength record 0 (rpt.take segments) ⟨[], 0, true, []⟩
    pure ⟨s.data, s.tempEmpty, s.nulls⟩

def compose (idx : IndexDesc) (segments maxKeyLength : Nat) (record : Record) : Except IdxE TemporaryKey := do
  let key ← composeKey idx segments maxKeyLength record
  if maxKeyLength ≤ key.data.length then .error .keyTooBig
  else if idx.descending then pure { key with data := complementKey key.data }
  else pure key

end Firebird.Btr
