import Firebird.Tree.BePlusTree

/-! # Accessors of a tree -/

namespace Firebird.Tree

open Function Lib

variable {V K : Type} [Inhabited V] [LinearOrder K]

inductive LocType
  | locEqual
  | locLess
  | locGreat
  | locGreatEqual
  | locLessEqual
deriving DecidableEq

/-- What is left of a page that is joined to one beside it: `NEED_MERGE`. -/
def needMerge (currentCount pageCount : Nat) : Bool := decide (currentCount * 4 / 3 ≤ pageCount)

namespace BePlusTree

def itemAt (t : BePlusTree V) (at_ : Position) : V :=
  ((at_.curr.elim [] t.items).getD at_.curPos default)

def lastBefore (t : BePlusTree V) (curr : PageId) : Bool × Position :=
  match t.prev curr with
  | none => (false, ⟨none, 0⟩)
  | some prev => (true, ⟨some prev, (t.items prev).length - 1⟩)

/-- The item before a place of a leaf page, or the last of the page before. -/
def stepBack (t : BePlusTree V) (curr : PageId) (curPos : Nat) : Bool × Position :=
  if curPos = 0 then t.lastBefore curr else (true, ⟨some curr, curPos - 1⟩)

/-- The place itself, or the first of the next page if the place is behind the last item of its page. -/
def nextPageAtEnd (t : BePlusTree V) (curr : PageId) (curPos : Nat) : Position :=
  if curPos = (t.items curr).length then ⟨t.next curr, 0⟩ else ⟨some curr, curPos⟩

/-- `ConstAccessor::locate`. -/
def locate (T : Template V K) (t : BePlusTree V) (lt : LocType) (key : K) (at_ : Position) : Bool × Position :=
  match t.root with
  | none => (false, at_)
  | some list =>
    let curr := t.descend T key t.level list
    let (found, curPos) := t.findItem T curr key
    match lt with
    | .locEqual => (found, ⟨some curr, curPos⟩)
    | .locGreatEqual =>
      let at_ := t.nextPageAtEnd curr curPos
      (found || at_.curr.isSome, at_)
    | .locLessEqual => if found then (true, ⟨some curr, curPos⟩) else t.stepBack curr curPos
    | .locLess => t.stepBack curr curPos
    | .locGreat =>
      let at_ := t.nextPageAtEnd curr (if found then curPos + 1 else curPos)
      (at_.curr.isSome, at_)

def rightmost (t : BePlusTree V) : Nat → PageId → PageId
  | 0, item => item
  | lev + 1, item => t.rightmost lev ((t.nodes item).getD ((t.nodes item).length - 1) 0)

def getFirst (t : BePlusTree V) (at_ : Position) : Bool × Position :=
  match t.root with
  | none => (false, at_)
  | some items =>
    let curr := t.leftmost t.level items
    (decide ((t.items curr).length ≠ 0), ⟨some curr, 0⟩)

def getLast (t : BePlusTree V) (at_ : Position) : Bool × Position :=
  match t.root with
  | none => (false, at_)
  | some items =>
    let curr := t.rightmost t.level items
    if (t.items curr).length ≠ 0 then (true, ⟨some curr, (t.items curr).length - 1⟩)
    else (false, ⟨some curr, at_.curPos⟩)

/-- `getNext`; without a position there is nothing to move. -/
def getNext (t : BePlusTree V) (at_ : Position) : Bool × Position :=
  match at_.curr with
  | none => (false, at_)
  | some curr =>
    if at_.curPos + 1 ≥ (t.items curr).length then
      match t.next curr with
      | some next => (true, ⟨some next, 0⟩)
      | none => (false, at_)
    else (true, ⟨some curr, at_.curPos + 1⟩)

/-- `getPrev`; without a position there is nothing to move. -/
def getPrev (t : BePlusTree V) (at_ : Position) : Bool × Position :=
  match at_.curr with
  | none => (false, at_)
  | some curr =>
    if at_.curPos = 0 then
      match t.prev curr with
      | some prev => (true, ⟨some prev, (t.items prev).length - 1⟩)
      | none => (false, ⟨some curr, 0⟩)
    else (true, ⟨some curr, at_.curPos - 1⟩)

def unlink (t : BePlusTree V) (node : PageId) : BePlusTree V :=
  { t with next := nextWithout t.next t.prev node, prev := prevWithout t.next t.prev node }

/-- The page beside, if there is one that `count` further items go on with room to spare. -/
def toMerge (size : PageId → Nat) (count pageCount : Nat) (beside : Option PageId) : Option PageId :=
  beside.filter fun temp => needMerge (size temp + count) pageCount

/-- The page that leaves was the only one on its node page `list`: the node page leaves its level too, or it is given
    a page from beside it. -/
def leaveAlone (T : Template V K) (t : BePlusTree V) (list : PageId) : BePlusTree V × Option PageId :=
  let count := fun p => (t.nodes p).length
  if ((toMerge count 0 T.nodeCount (t.prev list)).or (toMerge count 0 T.nodeCount (t.next list))).isSome then
    (t, some list)
  else
    match t.prev list, t.next list with
    | some temp, _ =>
      let moved := (t.nodes temp).getD (count temp - 1) 0
      (((t.setNodes list ((t.nodes list).set 0 moved)).setNodeParent moved (some list)).setNodes temp
        ((t.nodes temp).take (count temp - 1)), none)
    | none, some temp =>
      let moved := (t.nodes temp).getD 0 0
      (((t.setNodes list ((t.nodes list).set 0 moved)).setNodeParent moved (some list)).setNodes temp
        ((t.nodes temp).eraseIdx 0), none)
    | none, none => (t, none)

/-- What is left on a node page is joined to a page beside it, if there is room. -/
def joinNodes (T : Template V K) (t : BePlusTree V) (list : PageId) : BePlusTree V × Option PageId :=
  let count := fun p => (t.nodes p).length
  match toMerge count (count list) T.nodeCount (t.prev list), toMerge count (count list) T.nodeCount (t.next list) with
  | some temp, _ => ((t.setNodes temp (t.nodes temp ++ t.nodes list)).setNodeParents (t.nodes list) temp, some list)
  | none, some temp => ((t.setNodes list (t.nodes list ++ t.nodes temp)).setNodeParents (t.nodes temp) list, some temp)
  | none, none => (t, none)

/-- A page leaves its node page. The result names the node page that is to leave its own level in turn. -/
def leaveList (T : Template V K) (t : BePlusTree V) (node list : PageId) : BePlusTree V × Option PageId :=
  if (t.nodes list).length = 1 then t.leaveAlone T list
  else
    let pos := (t.findNode T list (t.generate T (t.nodeLevel list) node)).2
    let t := t.setNodes list ((t.nodes list).eraseIdx pos)
    if t.root = some list ∧ (t.nodes list).length = 1 then
      let root := (t.nodes list).getD 0 0
      (({ t with root := some root, level := t.level - 1 }.setNodeParent root none).release list, none)
    else t.joinNodes T list

def removePage (T : Template V K) : Nat → BePlusTree V → PageId → Option (BePlusTree V)
  | 0, _, _ => none
  | fuel + 1, t, node =>
    match t.parent node with
    | none => none
    | some list =>
      match (t.unlink node).leaveList T node list with
      | (t, none) => some (t.release node)
      | (t, some upper) => (removePage T fuel t upper).map fun t => t.release node

def setAccessor (t : BePlusTree V) (curr : Option PageId) (curPos : Nat) : BePlusTree V :=
  { t with defaultAccessor := ⟨curr, curPos⟩ }

/-- The only item of a leaf page is removed: the page leaves, or it is given an item from beside it. -/
def removeOnly (T : Template V K) (t : BePlusTree V) (curr : PageId) (curPos : Nat) : Option (Bool × BePlusTree V) :=
  let count := fun p => (t.items p).length
  if ((toMerge count 0 T.leafCount (t.prev curr)).or (toMerge count 0 T.leafCount (t.next curr))).isSome then
    (t.removePage T (t.level + 1) curr).map fun t' => ((t.next curr).isSome, t'.setAccessor (t.next curr) curPos)
  else
    match t.prev curr, t.next curr with
    | some temp, next =>
      let t := (t.setItems curr ((t.items curr).set 0 ((t.items temp).getD (count temp - 1) default))).setItems temp
        ((t.items temp).take (count temp - 1))
      some (next.isSome, t.setAccessor next curPos)
    | none, some temp =>
      some (true, (t.setItems curr ((t.items curr).set 0 ((t.items temp).getD 0 default))).setItems temp
        ((t.items temp).eraseIdx 0))
    | none, none => none

/-- One of several items of a leaf page is removed, and what is left is joined to a page beside it, if there is room. -/
def removeOne (T : Template V K) (t : BePlusTree V) (curr : PageId) (curPos : Nat) : Option (Bool × BePlusTree V) :=
  let t := t.setItems curr ((t.items curr).eraseIdx curPos)
  let count := fun p => (t.items p).length
  let adjust := fun (t : BePlusTree V) (curr : PageId) (curPos : Nat) =>
    if curPos ≥ (t.items curr).length then ((t.next curr).isSome, t.setAccessor (t.next curr) 0)
    else (true, t.setAccessor (some curr) curPos)
  match toMerge count (count curr) T.leafCount (t.prev curr), toMerge count (count curr) T.leafCount (t.next curr) with
  | some temp, _ =>
    ((t.setItems temp (t.items temp ++ t.items curr)).removePage T (t.level + 1) curr).map fun t' =>
      adjust t' temp (curPos + count temp)
  | none, some temp =>
    ((t.setItems curr (t.items curr ++ t.items temp)).removePage T (t.level + 1) temp).map fun t' => (true, t')
  | none, none => some (adjust t curr curPos)

/-- `fastRemove` through the default accessor, which has to stand on an item. -/
def fastRemove (T : Template V K) (t : BePlusTree V) : Option (Bool × BePlusTree V) :=
  match t.defaultAccessor.curr with
  | none => none
  | some curr =>
    let curPos := t.defaultAccessor.curPos
    if t.level = 0 then
      let t := t.setItems curr ((t.items curr).eraseIdx curPos)
      some (decide (curPos < (t.items curr).length), t)
    else if (t.items curr).length = 1 then t.removeOnly T curr curPos
    else t.removeOne T curr curPos

end BePlusTree

end Firebird.Tree
