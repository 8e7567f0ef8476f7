import Firebird.Btr.NodeChain

/-! # Deleting an index node

`delete_node` of `src/jrd/btr.cpp`: the node is removed from the page, the next one takes over the bytes it had in
common with it, and the jump table is rebuilt. The data of new jump nodes are kept in a buffer of the size of the jump
table; what the function asserts about the buffer and the jump key comes with the result. -/

namespace Firebird.Btr
open Lib Cursor

inductive Contents where
  | empty | single | belowThreshold | aboveThreshold

def nextAfter (removingNode nextNode : IndexNode) : IndexNode :=
  if removingNode.prefixLen < nextNode.prefixLen then
    { nextNode with
      prefixLen := removingNode.prefixLen
      data := removingNode.data.take (nextNode.prefixLen - removingNode.prefixLen) ++ nextNode.data }
  else nextNode

def removeNode (page : BtreePage) (pointer : Nat) : BtreePage :=
  let (removingNode, offsetNextPoint) := page.readNode pointer
  let (nextNode, localPointer) := page.readNode offsetNextPoint
  let newNode := nextAfter removingNode nextNode
  let bytes := put page.bytes pointer (newNode.writeNode page.leafPage)
  let pointer := pointer + (newNode.writeNode page.leafPage).length
  let length := page.length - localPointer
  { page with
    prefixTotal := page.prefixTotal - (removingNode.prefixLen + (nextNode.prefixLen - newNode.prefixLen))
    bytes := move bytes pointer localPointer length
    length := pointer + length }

/-- A key that is put together, of which so many bytes are known. -/
structure JumpKey where
  keyData : Memory
  keyLength : Nat

def JumpKey.copy (key : JumpKey) (place : Nat) (data : List UInt8) : JumpKey :=
  ⟨put key.keyData place data, place + data.length⟩

def JumpKey.fill (key : JumpKey) (newPrefix : Nat) (prevNode : IndexNode) : JumpKey :=
  if prevNode.prefixLen < newPrefix ∧ prevNode.length ≠ 0 then
    key.copy prevNode.prefixLen (prevNode.data.take (newPrefix - prevNode.prefixLen))
  else key

def walkNodes (page : BtreePage) (newPrefix endPtr prevPtr : Nat) (key : JumpKey) : JumpKey :=
  if prevPtr < endPtr then
    walkNodes page newPrefix endPtr (page.readNode prevPtr).2 (key.fill newPrefix (page.readNode prevPtr).1)
  else key
termination_by endPtr - prevPtr
decreasing_by
  have hlt := readNode_lt page.leafPage page.bytes prevPtr
  have hlt' : prevPtr < (page.readNode prevPtr).2 := hlt
  omega

structure Deletion where
  page : BtreePage
  offsetDeletePoint : Nat
  offsetNextPoint : Nat
  delta : Nat

structure Rebuild where
  rebuild : Bool
  delJumpNode : IndexJumpNode
  jumpKey : JumpKey
  jumpNodes : List IndexJumpNode
  jumpersNewSize : Nat
  tempData : Nat
  asserted : Bool

namespace Deletion
variable (d : Deletion)

def newOffset (offset : Nat) : Nat :=
  if offset = d.offsetNextPoint then d.offsetDeletePoint
  else if d.offsetDeletePoint < offset then offset - d.delta
  else offset

def moved (s : Rebuild) (jumpNode : IndexJumpNode) : IndexJumpNode :=
  if s.rebuild ∧ s.delJumpNode.prefixLen < jumpNode.prefixLen then
    { prefixLen := s.delJumpNode.prefixLen
      data := s.delJumpNode.data.take (jumpNode.prefixLen - s.delJumpNode.prefixLen) ++ jumpNode.data
      offset := d.newOffset jumpNode.offset }
  else { jumpNode with offset := d.newOffset jumpNode.offset }

def movedKey (s : Rebuild) (jumpNode : IndexJumpNode) : JumpKey :=
  if s.rebuild ∧ s.delJumpNode.prefixLen < jumpNode.prefixLen then
    { s.jumpKey with keyData := put s.jumpKey.keyData (d.moved s jumpNode).prefixLen (d.moved s jumpNode).data }
  else s.jumpKey

def cut (newPrefix : Nat) (jumpNode : IndexJumpNode) : IndexJumpNode :=
  if newPrefix < jumpNode.prefixLen + jumpNode.length then
    if newPrefix < jumpNode.prefixLen then { jumpNode with prefixLen := newPrefix, data := [] }
    else { jumpNode with data := jumpNode.data.take (newPrefix - jumpNode.prefixLen) }
  else jumpNode

/-- A jump node that is too short may be all in the one before. -/
def shared (newPrefix : Nat) (jumpPrev : Option IndexJumpNode) (jumpNode : IndexJumpNode) : IndexJumpNode :=
  match jumpPrev with
  | some prev =>
    if jumpNode.prefixLen + jumpNode.length < newPrefix ∧ newPrefix ≤ prev.prefixLen + prev.length then
      { jumpNode with prefixLen := newPrefix, data := [] }
    else jumpNode
  | none => jumpNode

/-- A jump node is not all known, or has more in common with the one before than this has. -/
def incomplete (newPrefix : Nat) (jumpPrev : Option IndexJumpNode) (jumpNode : IndexJumpNode) : Bool :=
  jumpNode.prefixLen + jumpNode.length ≠ newPrefix ||
    match jumpPrev with
    | some prev => prev.prefixLen + prev.length < jumpNode.prefixLen
    | none => false

/-- The data of an incomplete jump node are found by a walk over the nodes from the last jump on. -/
def completed (newPrefix : Nat) (jumpPrev : Option IndexJumpNode) (key : JumpKey) (jumpNode : IndexJumpNode) :
    IndexJumpNode × JumpKey × Bool :=
  let prefixLen := match jumpPrev with
    | some prev => prev.prefixLen + prev.length
    | none => 0
  let prevPtr := match jumpPrev with
    | some prev => prev.offset
    | none => d.page.firstNode
  let key' := walkNodes d.page newPrefix jumpNode.offset prevPtr key
  let data := ((getBytes (newPrefix - prefixLen)).read key'.keyData prefixLen).1
  ({ jumpNode with prefixLen, data }, key', decide (jumpPrev.isSome → prefixLen ≤ key.keyLength) &&
    newPrefix ≤ key'.keyLength)

def fit (newPrefix : Nat) (jumpPrev : Option IndexJumpNode) (key : JumpKey) (jumpNode : IndexJumpNode) :
    IndexJumpNode × JumpKey × Bool :=
  let jumpNode := shared newPrefix jumpPrev (cut newPrefix jumpNode)
  if incomplete newPrefix jumpPrev jumpNode then d.completed newPrefix jumpPrev key jumpNode else (jumpNode, key, true)

def keep (s : Rebuild) (jumpNode : IndexJumpNode) : Rebuild × Bool :=
  let moved := d.moved s jumpNode
  let newPrefix := (d.page.readNode moved.offset).1.prefixLen
  let (newJumpNode, jumpKey, known) := d.fit newPrefix s.jumpNodes.getLast? (d.movedKey s jumpNode) moved
  let jumpKey := jumpKey.copy newJumpNode.prefixLen newJumpNode.data
  let asserted := s.asserted && decide (s.tempData + moved.length < d.page.jumpSize) && known &&
    decide (s.tempData + newJumpNode.length < d.page.jumpSize)
  let jumpersNewSize := s.jumpersNewSize + newJumpNode.getJumpNodeSize
  if d.page.jumpSize < jumpersNewSize then ({ s with jumpKey, jumpersNewSize, asserted }, false)
  else
    ({ s with
        rebuild := false
        jumpKey, jumpersNewSize, asserted
        jumpNodes := s.jumpNodes ++ [newJumpNode]
        tempData := s.tempData + newJumpNode.length }, true)

def dropFirst (s : Rebuild) (jumpNode : IndexJumpNode) : Rebuild :=
  { s with
    rebuild := true
    delJumpNode := jumpNode
    jumpKey := (d.movedKey s jumpNode).copy jumpNode.prefixLen jumpNode.data
    asserted := s.asserted && decide (s.tempData + (d.moved s jumpNode).length < d.page.jumpSize) &&
      s.jumpNodes.isEmpty }

def rebuildJumpNodes : Nat → Nat → Rebuild → Rebuild
  | 0, _, s => s
  | n + 1, pointer, s =>
    let (jumpNode, pointer) := d.page.readJumpNode pointer
    if jumpNode.offset < d.offsetDeletePoint ∨ d.offsetNextPoint ≤ jumpNode.offset then
      if (d.moved s jumpNode).offset = d.page.firstNode then rebuildJumpNodes n pointer (d.dropFirst s jumpNode)
      else
        let (s, more) := d.keep s jumpNode
        if more then rebuildJumpNodes n pointer s else s
    else rebuildJumpNodes n pointer { s with rebuild := true, delJumpNode := jumpNode }

end Deletion

def Rebuild.start : Rebuild := ⟨false, ⟨0, [], 0⟩, ⟨fun _ => 0, 0⟩, [], 0, 0, true⟩

def writeJumpNodes : Memory → Nat → List IndexJumpNode → Memory
  | bytes, _, [] => bytes
  | bytes, pointer, jumpNode :: jumps =>
    writeJumpNodes (put bytes pointer jumpNode.writeJumpNode) (pointer + jumpNode.writeJumpNode.length) jumps

def contentsOf (pageSize : Nat) (page : BtreePage) : Contents :=
  let (node, pointer) := page.readNode page.firstNode
  if node.isEndBucket || node.isEndLevel then .empty
  else
    let (node, _) := page.readNode pointer
    if node.isEndBucket || node.isEndLevel then .single
    else if page.length < pageSize / 4 then .belowThreshold
    else .aboveThreshold

structure DeletedNode where
  page : BtreePage
  contents : Contents
  asserted : Bool

def deleteNode (pageSize : Nat) (page : BtreePage) (pointer : Nat) : DeletedNode :=
  let removed := removeNode page pointer
  let d : Deletion := ⟨removed, pointer, (page.readNode pointer).2, page.length - removed.length⟩
  let s := d.rebuildJumpNodes page.jumpCount btrNodes .start
  let page := { removed with
    jumpCount := s.jumpNodes.length % 256
    bytes := writeJumpNodes removed.bytes btrNodes s.jumpNodes }
  ⟨page, contentsOf pageSize page, s.asserted⟩

end Firebird.Btr
