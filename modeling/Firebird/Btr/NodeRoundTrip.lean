import Firebird.Btr.IndexNode

/-! # What is read back of a written node

Sizes, writers and reader agree on the end of a node, and a node whose data lies on the page is written as from a copy.
-/

namespace Firebird.Btr
open Lib Cursor List

def numberSize (number : Nat) : Nat :=
  if 2 ^ 28 ≤ number then 5 else if 2 ^ 21 ≤ number then 4 else if 2 ^ 14 ≤ number then 3 else if 2
    ^ 7 ≤ number then 2 else 1

/-- `readNode` into a node object, which on a leaf page keeps its page number. -/
def readNodeInto (old : IndexNode) (leafNode : Bool) : Cursor IndexNode := do
  let node ← readNode leafNode
  pure (if leafNode && !node.isEndLevel then { node with pageNumber := old.pageNumber } else node)

namespace IndexNode
variable (node : IndexNode) (leafNode : Bool)

def getNodeSize : Nat :=
  if node.isEndLevel then 1
  else 1 + numberSize (node.recordNumber / 32) + (if leafNode then 0 else numberSize node.pageNumber) +
    (if node.internalFlags = btnZeroPrefixZeroLengthFlag then 0 else sizeSize node.prefixLen) +
    (if node.internalFlags = btnZeroLengthFlag ∨ node.internalFlags = btnZeroPrefixZeroLengthFlag ∨
      node.internalFlags = btnOneLengthFlag then 0 else sizeSize node.length) + node.length

def header : List UInt8 :=
  UInt8.ofNat (node.internalFlags * 32 + node.recordNumber % 32) ::
    if node.isEndLevel then []
    else groups 256 4 (node.recordNumber / 32) ++ (node.pageNumberBytes leafNode ++
      (node.prefixBytes ++ node.lengthBytes))

/-- `writeNode` with `withData` false: the data at `src` is moved first, by an offset that is a `USHORT`. -/
def writeInPlace (m : Memory) (p src : Nat) : Memory :=
  let offset := (2 ^ 16 + node.getNodeSize leafNode - node.length) % 2 ^ 16
  put (move m (p + offset) src node.length) p (node.header leafNode)

def readBack (old : IndexNode) : IndexNode :=
  if node.isEndLevel then .endLevel else if leafNode then { node with pageNumber := old.pageNumber } else node

end IndexNode

variable {node old : IndexNode} {leafNode : Bool} {m : Memory} {p src : Nat}

theorem groups_numberSize {last n : Nat} : (groups last 4 n).length = numberSize n := by
  simp only [groups, numberSize, apply_ite length, length_cons, length_nil, Nat.div_div_eq_div_mul]
  split_ifs <;> omega

theorem writeNode_header : node.writeNode leafNode = node.header leafNode ++
    if node.isEndLevel then [] else node.data := by
  unfold IndexNode.writeNode IndexNode.header
  cases node.isEndLevel <;> simp

theorem writeNode_size (hprefixLen : node.prefixLen < 2 ^ 14) (hlength : node.length < 2 ^ 14) :
    (node.writeNode leafNode).length = node.getNodeSize leafNode := by
  unfold IndexNode.getNodeSize
  cases hend : node.isEndLevel with
  | true => simp [IndexNode.writeNode, hend]
  | false =>
    rw [writeNode_length hend, groups_numberSize, IndexNode.pageNumberBytes, IndexNode.prefixBytes,
      IndexNode.lengthBytes, ← groups_size hprefixLen, ← groups_size hlength]
    cases leafNode <;> simp only [apply_ite length, length_nil, groups_numberSize, if_true,
      if_false, Bool.false_eq_true]

theorem readNodeInto_writeNode (hrecord : node.recordNumber < 2 ^ 41) (hpage : node.pageNumber < 2 ^ 32)
    (hprefixLen : node.prefixLen < 2 ^ 14) (hlength : node.length < 2 ^ 14) :
    Decodes (readNodeInto old leafNode) (node.writeNode leafNode) (node.readBack leafNode old) := by
  have hinto : ∀ {read : IndexNode}, Decodes (readNode leafNode) (node.writeNode leafNode) read →
      Decodes (readNodeInto old leafNode) (node.writeNode leafNode)
        (if leafNode && !read.isEndLevel then { read with pageNumber := old.pageNumber } else read) := fun h => h.map _
  cases hend : node.isEndLevel with
  | true => simpa [IndexNode.readBack, hend, IndexNode.endLevel] using hinto (decodes_endLevel hend)
  | false =>
    cases leafNode with
    | true =>
      -- A leaf node is written as one without a page number.
      have hread : Decodes (readNode true) (node.writeNode true) { node with pageNumber := 0 } :=
        @decodes_writeNode true { node with pageNumber := 0 }
          ⟨fun h => absurd (hend.symm.trans h) nofun, hrecord, Nat.two_pow_pos 32, fun _ => rfl, hprefixLen, hlength⟩
      simpa [IndexNode.readBack, hend] using hinto hread
    | false =>
      simpa [IndexNode.readBack, hend] using hinto
        (decodes_writeNode ⟨fun h => absurd (hend.symm.trans h) nofun, hrecord, hpage, nofun, hprefixLen, hlength⟩)

theorem header_length_le : (node.header leafNode).length ≤ 17 := by
  have hnumber := @groups_length_le (node.recordNumber / 32) 256 4
  have hpage := @groups_length_le node.pageNumber 16 4
  have hprefixLen := @groups_length_le node.prefixLen 128 1
  have hlength := @groups_length_le node.length 128 1
  simp only [IndexNode.header, IndexNode.pageNumberBytes, IndexNode.prefixBytes, IndexNode.lengthBytes, length_cons,
    length_append, apply_ite length, length_nil]
  split_ifs <;> omega

theorem writeInPlace_eq (hsize : (node.writeNode leafNode).length = node.getNodeSize leafNode)
    (hdata : Holds m src node.data) (hend : node.isEndLevel = true → node.data = []) :
    node.writeInPlace leafNode m p src = put m p (node.writeNode leafNode) := by
  have hwrite : node.writeNode leafNode = node.header leafNode ++ node.data := by
    rw [writeNode_header]
    split
    · rename_i h
      rw [hend h]
    · rfl
  have hbytes := congrArg length hwrite
  rw [length_append, hsize] at hbytes
  have hsmall := @header_length_le node leafNode
  have hoffset : (2 ^ 16 + node.getNodeSize leafNode - node.length) % 2 ^ 16 = (node.header leafNode).length := by
    unfold IndexNode.length
    omega
  unfold IndexNode.writeInPlace
  rw [hoffset, hwrite, put_append]
  exact congrArg (put · p _) (move_eq_put hdata)

/-- Written and read back, a node is as it was. -/
theorem writeNode_readNode (node old : IndexNode) (leafNode : Bool) (m : Memory) (p src : Nat)
    (hrecord : node.recordNumber < 2 ^ 41) (hpage : node.pageNumber < 2 ^ 32) (hprefixLen : node.prefixLen < 2 ^ 14)
    (hlength : node.length < 2 ^ 14) :
    (readNodeInto old leafNode).read (put m p (node.writeNode leafNode)) p =
      (node.readBack leafNode old, p + node.getNodeSize leafNode) ∧
    (node.writeNode leafNode).length = node.getNodeSize leafNode ∧
    (Holds m src node.data → (node.isEndLevel = true → node.data = []) →
      node.writeInPlace leafNode m p src = put m p (node.writeNode leafNode)) := by
  have hsize := @writeNode_size node leafNode hprefixLen hlength
  refine ⟨?_, hsize, writeInPlace_eq hsize⟩
  rw [← hsize]
  exact readNodeInto_writeNode hrecord hpage hprefixLen hlength _ p holds_put

/-- A node of a non-leaf page, whose data lies one place further on. -/
theorem writeNode_readNode_nonLeaf : (⟨2, [7, 8], 300, 5, false, false⟩ : IndexNode).writeInPlace false
    (fun i => i.toUInt8) 1 7 =
    put (fun i => i.toUInt8) 1 ((⟨2, [7, 8], 300, 5, false, false⟩ : IndexNode).writeNode false) :=
  (writeNode_readNode ⟨2, [7, 8], 300, 5, false, false⟩ .endLevel false (fun i => i.toUInt8) 1 7 (by decide) (by decide)
    (by decide) (by decide)).2.2 (fun i hi => match i, hi with | 0, _ => rfl | 1, _ => rfl) (by decide)

/-- On a leaf page the page number of a node is not stored. -/
theorem leaf_pageNumber_lost : ((readNodeInto .endLevel true).read
    (put (fun _ => 0) 0 ((⟨0, [], 0, 1, false, false⟩ : IndexNode).writeNode true)) 0).1.pageNumber ≠ 1 := by
  decide

end Firebird.Btr
