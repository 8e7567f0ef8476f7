import Firebird.Lib.Cells

/-! # Temporary space

A `TempSpace` is a chain of blocks of virtual memory and of temporary files (`src/jrd/TempSpace.cpp`). A dynamic
one begins as one small buffer that is resized, and copied into a large block when it has grown. Offsets do not
wrap around here; the sizes that the code keeps in 32 bits do. Only free segments of released space are left out:
without releases there are none. -/

namespace Firebird.Temp
open Lib Function

abbrev BlockId := Nat

/-- There is one temporary file in a directory. -/
abbrev FileId := Nat

def minTempBlockSize : Nat := 64 * 1024

/-- The settings: `minBlockSize` is `TempBlockSize` made a multiple of the smallest size. -/
structure Config where
  initiallyDynamic : Bool
  minBlockSize : Nat
  tempDirs : List FileId
  minBlockSize_ge : minTempBlockSize ≤ minBlockSize

/-- What the bytes of a block are on. A block of virtual memory has memory of its own. -/
inductive Device
  | initialBuffer
  | memory (id : BlockId)
  | file (file : FileId)
  deriving DecidableEq

/-- `InitialBlock`, `MemoryBlock` and `FileBlock`; the memory of the first two begins at 0. -/
structure Block where
  size : Nat
  device : Device
  seek : Nat

structure TempSpace where
  logicalSize : Nat
  physicalSize : Nat
  head : Option BlockId
  tail : Option BlockId
  next : BlockId → Option BlockId
  prev : BlockId → Option BlockId
  block : BlockId → Block
  blocks : Nat
  bytes : Device → Nat → UInt8
  fileSize : FileId → Nat
  initialSize : Nat

inductive TempSpaceError
  | invalidPosition (position size : Nat)
  | badAlloc
  | outOfTempSpace
  | ioError
  deriving DecidableEq

/-- How it goes when a file is made, if there is none yet, and extended. -/
inductive FileAnswer
  | extended
  | noRoom (written : Nat)
  | raised

/-- What the surroundings of one call give: memory, with what it holds, or room in files. -/
structure Answers where
  fresh : Nat → UInt8
  initialBuffer : Bool
  virtualMemory : Bool
  file : FileId → FileAnswer
  fileBlock : Bool
  /-- The initial contents can be written, or only so many bytes of them. -/
  preserve : Option Nat

def TempSpace.empty : TempSpace where
  logicalSize := 0
  physicalSize := 0
  head := none
  tail := none
  next _ := none
  prev _ := none
  block _ := ⟨0, .initialBuffer, 0⟩
  blocks := 0
  bytes _ _ := 0
  fileSize _ := 0
  initialSize := 0

namespace TempSpace

def walkForward (s : TempSpace) : Nat → Option BlockId → Nat → Option BlockId × Nat
  | 0, block, offset => (block, offset)
  | _, none, offset => (none, offset)
  | fuel + 1, some b, offset =>
    if (s.block b).size ≤ offset then s.walkForward fuel (s.next b) (offset - (s.block b).size) else (some b, offset)

def walkBackward (s : TempSpace) : Nat → Option BlockId → Nat → Option BlockId × Nat
  | 0, block, offset => (block, offset)
  | _, none, offset => (none, offset)
  | fuel + 1, some b, offset =>
    if (s.block b).size < s.physicalSize - offset then s.walkBackward fuel (s.prev b) (offset + (s.block b).size)
    else (some b, offset - (s.physicalSize - (s.block b).size))

def findBlock (s : TempSpace) (offset : Nat) : Option BlockId × Nat :=
  if offset < s.physicalSize / 2 then s.walkForward s.blocks s.head offset else s.walkBackward s.blocks s.tail offset

def blockLength (s : TempSpace) (b : BlockId) (offset length : Nat) : Nat :=
  if (s.block b).size < offset + length then (s.block b).size - offset else length

def readBlocks (s : TempSpace) : Nat → Option BlockId → Nat → Nat → List UInt8
  | 0, _, _, _ => []
  | _, none, _, _ => []
  | fuel + 1, some b, offset, length =>
    if length = 0 then []
    else
      let n := s.blockLength b offset length
      cells (s.bytes (s.block b).device) ((s.block b).seek + offset) n ++ s.readBlocks fuel (s.next b) 0 (length - n)

def read (s : TempSpace) (offset length : Nat) : Except TempSpaceError (List UInt8) :=
  if s.logicalSize < offset + length then .error (.invalidPosition (offset + length) s.logicalSize)
  else if length = 0 then .ok []
  else
    let (block, offset) := s.findBlock offset
    .ok (s.readBlocks s.blocks block offset length)

def writeBlocks (s : TempSpace) : Nat → Option BlockId → Nat → List UInt8 →
    (Device → Nat → UInt8) → Device → Nat → UInt8
  | 0, _, _, _, bytes => bytes
  | _, none, _, _, bytes => bytes
  | fuel + 1, some b, offset, data, bytes =>
    if data = [] then bytes
    else
      let n := s.blockLength b offset data.length
      let device := (s.block b).device
      s.writeBlocks fuel (s.next b) 0 (data.drop n)
        (update bytes device (store (bytes device) ((s.block b).seek + offset) (data.take n)))

def fbAlign (n b : Nat) : Nat := (n + b - 1) - ((n + b - 1) &&& (b - 1))

/-- A dynamic space stays in its initial buffer. -/
def staysInitial (cfg : Config) (s : TempSpace) : Bool := cfg.initiallyDynamic && s.logicalSize < minTempBlockSize

def growth (cfg : Config) (s : TempSpace) : Nat :=
  if s.initialSize ≠ 0 then fbAlign s.logicalSize cfg.minBlockSize else fbAlign
    (s.logicalSize - s.physicalSize) cfg.minBlockSize

def extendInitial (s : TempSpace) (size : Nat) (a : Answers) : Except (TempSpaceError × TempSpace) TempSpace :=
  if a.initialBuffer then
    if s.initialSize = 0 then
      .ok { s with
        head := some s.blocks, tail := some s.blocks
        next := update s.next s.blocks none, prev := update s.prev s.blocks none
        block := update s.block s.blocks ⟨size, .initialBuffer, 0⟩, blocks := s.blocks + 1
        bytes := update s.bytes .initialBuffer a.fresh, initialSize := size, physicalSize := size }
    else
      let size := size + s.initialSize
      let kept := cells (s.bytes .initialBuffer) 0 s.initialSize
      match s.head with
      | none => .error (.badAlloc, s)
      | some head =>
        .ok { s with
          next := update s.next head none, prev := update s.prev head none
          block := update s.block head ⟨size, .initialBuffer, 0⟩
          bytes := update s.bytes .initialBuffer (store a.fresh 0 kept), initialSize := size, physicalSize := size }
  else .error (.badAlloc, s)

/-- The constructor of a block: it is linked in behind the tail. -/
def makeBlock (s : TempSpace) (block : Block) : TempSpace :=
  let next := update s.next s.blocks none
  { s with
    next := match s.tail with
      | some tail => update next tail (some s.blocks)
      | none => next
    prev := update s.prev s.blocks s.tail
    block := update s.block s.blocks block
    blocks := s.blocks + 1 }

def extendFile (s : TempSpace) (file : FileId) (n : Nat) : TempSpace :=
  { s with
    bytes := update s.bytes (.file file) (store (s.bytes (.file file)) (s.fileSize file) (List.replicate n 0))
    fileSize := update s.fileSize file (s.fileSize file + n) }

def setupFile (s : TempSpace) (size : Nat) (a : Answers) : List FileId → Except TempSpaceError FileId × TempSpace
  | [] => (.error .outOfTempSpace, s)
  | file :: tempDirs =>
    match a.file file with
    | .extended => (.ok file, s.extendFile file size)
    | .noRoom written => (s.extendFile file (min written size)).setupFile size a tempDirs
    | .raised => (.error .ioError, s)

/-- Preserve the initial contents in the new block, and append it to the chain. -/
def appendBlock (s : TempSpace) (b : BlockId) (preserve : Option Nat) : Except (TempSpaceError × TempSpace) TempSpace :=
  let append (s : TempSpace) : TempSpace := { s with head := s.head.or (some b), tail := some b }
  if s.initialSize = 0 then .ok (append s)
  else
    let device := (s.block b).device
    let contents := cells (s.bytes .initialBuffer) 0 (s.blockLength b 0 s.initialSize)
    let written (n : Nat) : TempSpace :=
      { s with bytes := update s.bytes device (store (s.bytes device) (s.block b).seek (contents.take n)) }
    match preserve with
    | none => .ok (append { written contents.length with initialSize := 0 })
    | some n => .error (.ioError, written n)

def allocateBlock (cfg : Config) (s : TempSpace) (size : Nat)
    (a : Answers) : Except (TempSpaceError × TempSpace) TempSpace :=
  if a.virtualMemory then
    let s' := s.makeBlock ⟨size, .memory s.blocks, 0⟩
    { s' with bytes := update s'.bytes (.memory s.blocks) a.fresh }.appendBlock s.blocks none
  else
    match s.setupFile size a cfg.tempDirs with
    | (.error e, s) => .error (e, s)
    | (.ok file, s) =>
      match s.tail.filter fun tail => (s.block tail).device = .file file with
      -- the last block is at the end of this file
      | some tail => .ok { s with block := update s.block tail { s.block tail with size := (s.block tail).size + size }
          }
      | none =>
        if a.fileBlock then (s.makeBlock ⟨size, .file file, s.fileSize file - size⟩).appendBlock s.blocks a.preserve
        else .error (.badAlloc, s)

/-- Large blocks, that take over from the initial buffer, if there is one. -/
def extendBlocks (cfg : Config) (s : TempSpace) (a : Answers) : Except (TempSpaceError × TempSpace) TempSpace :=
  let size := s.growth cfg % 2 ^ 32
  if s.initialSize ≠ 0 then { s with head := none, tail := none, physicalSize := size }.allocateBlock cfg size a
  else { s with physicalSize := s.physicalSize + size }.allocateBlock cfg size a

def extend (cfg : Config) (s : TempSpace) (size : Nat) (a : Answers) : Except TempSpaceError Unit × TempSpace :=
  let grown := { s with logicalSize := s.logicalSize + size }
  if grown.logicalSize ≤ s.physicalSize then (.ok (), grown)
  else
    match if grown.staysInitial cfg then grown.extendInitial size a else grown.extendBlocks cfg a with
    | .ok s' => (.ok (), s')
    | .error (e, s') =>
      -- the head has been saved only on the way out of the initial buffer
      let originalHead := if !grown.staysInitial cfg && s.initialSize ≠ 0 then s.head else none
      (.error e, { s' with
        logicalSize := s.logicalSize, physicalSize := s.physicalSize, head := originalHead, tail := s.tail })

def writeInside (s : TempSpace) (offset : Nat) (data : List UInt8) : TempSpace :=
  if data = [] then s
  else
    let (block, offset) := s.findBlock offset
    { s with bytes := s.writeBlocks s.blocks block offset data s.bytes }

def write (cfg : Config) (s : TempSpace) (offset : Nat) (data : List UInt8) (a : Answers) :
    Except TempSpaceError Unit × TempSpace :=
  if s.logicalSize < offset then (.error (.invalidPosition offset s.logicalSize), s)
  else
    -- not enough space: extend it
    let extended :=
      if s.logicalSize < offset + data.length then s.extend cfg (offset + data.length - s.logicalSize)
        a else (.ok (), s)
    match extended with
    | (.error e, s) => (.error e, s)
    | (.ok (), s) => (.ok (), s.writeInside offset data)

def allocateSpace (cfg : Config) (s : TempSpace) (size : Nat) (a : Answers) : Except TempSpaceError Nat × TempSpace :=
  match s.extend cfg size a with
  | (.error e, s) => (.error e, s)
  | (.ok (), s) => (.ok (s.logicalSize - size), s)

end TempSpace

end Firebird.Temp
