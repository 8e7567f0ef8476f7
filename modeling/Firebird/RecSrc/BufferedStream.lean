import Firebird.Lib.Run

/-! # Scrollable cursors

`Cursor` (`src/jrd/recsrc/Cursor.cpp`) moves over a `BufferedStream` (`src/jrd/recsrc/BufferedStream.cpp`), which has
copied every row of the stream below into a record buffer before it gives one back. The cursor is open and scrollable,
and its request passes `validate`. -/

namespace Firebird.RecSrc.Scroll

abbrev StreamType := Nat

/-- A record with its format and its fields, which are null where there is no value. -/
structure Record (Value : Type) where
  format : Nat
  data : Nat → Option Value
  fakeNulls : Bool

/-- `record_param` of a stream; `rpb_number` is a number and whether it is valid. -/
structure RecordParam (Value : Type) where
  record : Option (Record Value)
  transactionNr : BitVec 64
  number : BitVec 64
  valid : Bool

abbrev Rpbs (Value : Type) := StreamType → RecordParam Value

inductive MapType
  | regularField
  | transactionId
  | dbkeyNumber
  | dbkeyValid

structure FieldMap where
  mapType : MapType
  mapStream : StreamType
  mapId : Nat

/-- A field of the buffer record. -/
inductive Field (Value : Type)
  | value (v : Option Value)
  | int64 (n : BitVec 64)
  | text (valid : Bool)

/-- A buffered stream, with what its request knows of the streams and what the stream below delivers: the rows, as they
    are left in the streams, and what its end leaves there. -/
structure BufferedStream (Value : Type) where
  streams : List StreamType
  csbFields : StreamType → List Nat
  isRelation : StreamType → Bool
  currentFormat : StreamType → Nat
  hasField : StreamType → Nat → Nat → Bool
  fmtDefault : StreamType → Nat → Nat → Option Value
  /-- What the bytes of a record say in another format. -/
  resized : StreamType → Option (Record Value) → Nat → Option Value
  hasField_csbFields : ∀ s, ∀ id ∈ csbFields s, hasField s (currentFormat s) id = true
  rows : List (Rpbs Value)
  finish : Rpbs Value

inductive CursorState
  | bos
  | positioned
  | eos
  deriving DecidableEq

/-- The request with the impure areas of the buffered stream and of the cursor. -/
structure State (Value : Type) where
  rpb : Rpbs Value
  /-- The rows that the stream below has not delivered yet. -/
  next : List (Rpbs Value)
  mustread : Bool
  buffer : List (List (Field Value))
  streamPosition : BitVec 64
  state : CursorState
  position : BitVec 64

inductive Fetch
  | next
  | prior
  | first
  | last
  | absolute (offset : BitVec 64)
  | relative (offset : BitVec 64)

namespace BufferedStream
variable {Value : Type} (b : BufferedStream Value)

/-- The map that the constructor builds. -/
def map : List FieldMap :=
  b.streams.flatMap (fun s => (b.csbFields s).map (⟨.regularField, s, ·⟩)) ++
    b.streams.flatMap (fun s => [⟨.transactionId, s, 0⟩, ⟨.dbkeyNumber, s, 0⟩]) ++
      b.streams.map (⟨.dbkeyValid, ·, 0⟩)

/-- `EVL_field`: a field that the format lacks has a default if the stream is a relation. -/
def evlField (s : StreamType) (rpb : RecordParam Value) (id : Nat) : Option Value :=
  match rpb.record with
  | none => none
  | some r =>
    if r.fakeNulls then none
    else if b.hasField s r.format id then r.data id
    else if b.isRelation s then b.fmtDefault s r.format id else none

/-- `VIO_record` with the current format. -/
def vioRecord (s : StreamType) (rpb : RecordParam Value) : RecordParam Value :=
  match rpb.record with
  | some r =>
    if r.format = b.currentFormat s then { rpb with record := some { r with fakeNulls := false } }
    else { rpb with record := some ⟨b.currentFormat s, b.resized s rpb.record, false⟩ }
  | none => { rpb with record := some ⟨b.currentFormat s, b.resized s none, false⟩ }

/-- What is stored for an item of the map. -/
def toBuffer (rpb : Rpbs Value) (m : FieldMap) : Field Value :=
  match m.mapType with
  | .regularField => .value (b.evlField m.mapStream (rpb m.mapStream) m.mapId)
  | .transactionId => .int64 (rpb m.mapStream).transactionNr
  | .dbkeyNumber => .int64 (rpb m.mapStream).number
  | .dbkeyValid => .text (rpb m.mapStream).valid

/-- A field goes back to its stream. A field that the record's format lacks has no place there. -/
def assign (m : FieldMap) (field : Field Value) (rpb : RecordParam Value) : RecordParam Value :=
  match m.mapType, field with
  | .regularField, .value v =>
    { rpb with record := rpb.record.map fun r =>
        { r with
          fakeNulls := false
          data := if b.hasField m.mapStream r.format m.mapId then Function.update r.data m.mapId v else r.data } }
  | .transactionId, .int64 n => { rpb with transactionNr := n }
  | .dbkeyNumber, .int64 n => { rpb with number := n }
  | .dbkeyValid, .text c => { rpb with valid := c }
  | _, _ => rpb

/-- Before the first item of a stream, its record is upgraded unless the record number is valid. -/
def upgrade (stream : Option StreamType) (s : StreamType) (rpb : RecordParam Value) : RecordParam Value :=
  if stream ≠ some s ∧ b.isRelation s ∧ ¬rpb.valid then b.vioRecord s rpb else rpb

/-- One turn of the loop that assigns the fields back, with the stream of the turn before. -/
def assignBack (st : Option StreamType × Rpbs Value) (item : FieldMap × Field Value) : Option StreamType × Rpbs Value :=
  let s := item.1.mapStream
  (some s, Function.update st.2 s (b.assign item.1 item.2 (b.upgrade st.1 s (st.2 s))))

def internalGetRecord (s : State Value) : Bool × State Value :=
  if s.mustread then
    match s.next with
    | [] => (false, { s with rpb := b.finish, mustread := false })
    | row :: rest =>
      (true, { s with
        rpb := row, next := rest, buffer := s.buffer ++ [b.map.map (b.toBuffer row)]
        streamPosition := s.streamPosition + 1 })
  else
    match s.buffer[s.streamPosition.toNat]? with
    | none => (false, s)
    | some record =>
      (true, { s with
        rpb := ((b.map.zip record).foldl b.assignBack (none, s.rpb)).2
        streamPosition := s.streamPosition + 1 })

def getRecords : Nat → State Value → State Value
  | 0, s => s
  | n + 1, s => if (b.internalGetRecord s).1 then getRecords n (b.internalGetRecord s).2 else (b.internalGetRecord s).2

/-- The stream below is fetched and cached completely, at its end at the latest. -/
def cacheAll (s : State Value) : State Value :=
  if s.mustread then b.getRecords (s.next.length + 1) s else s

def locate (position : BitVec 64) (s : State Value) : State Value := { b.cacheAll s with streamPosition := position }

def getCount (s : State Value) : BitVec 64 × State Value :=
  (BitVec.ofNat 64 (b.cacheAll s).buffer.length, b.cacheAll s)

def fetchAt (offset position count : BitVec 64) (s : State Value) : Bool × State Value :=
  if position.slt 0 then (false, { s with state := .bos })
  else if count.sle position then (false, { s with state := .eos })
  else
    let r := b.internalGetRecord (b.locate position { s with position := position })
    if r.1 then (true, { r.2 with state := .positioned })
    else (false, { r.2 with state := if (0#64).slt offset then .eos else .bos })

def fetchAbsolute (offset : BitVec 64) (s : State Value) : Bool × State Value :=
  if offset = 0 then (false, { s with state := .bos })
  else
    let (count, s) := b.getCount s
    b.fetchAt offset (if (0#64).slt offset then offset - 1 else count + offset) count s

def fetchRelative (offset : BitVec 64) (s : State Value) : Bool × State Value :=
  if offset = 0 then (s.state = .positioned, s)
  else
    let (count, s) := b.getCount s
    match s.state with
    | .bos => if offset.slt 0 then (false, s) else b.fetchAt offset (offset - 1) count s
    | .eos => if (0#64).slt offset then (false, s) else b.fetchAt offset (count + offset) count s
    | .positioned => b.fetchAt offset (s.position + offset) count s

def fetch (s : State Value) : Fetch → Bool × State Value
  | .next => b.fetchRelative 1 s
  | .prior => b.fetchRelative (-1) s
  | .first => b.fetchAbsolute 1 s
  | .last => b.fetchAbsolute (-1) s
  | .absolute offset => b.fetchAbsolute offset s
  | .relative offset => b.fetchRelative offset s

/-- `Cursor::open`, whatever an earlier use has left. -/
def opened (s : State Value) : State Value :=
  { s with next := b.rows, mustread := true, buffer := [], streamPosition := 0, state := .bos }

end BufferedStream
end Firebird.RecSrc.Scroll
