import Firebird.Lib.LinkedRow
import Firebird.Tree.SortedVector

/-! # The tree of sorted pages

A `BePlusTree` keeps its items on leaf pages (`ItemList`) and the leaf pages under levels of node pages (`NodeList`).
The pages of one level are linked to each other and know the page above them. Pages are numbered in the order in which
they are allocated, and each field of the pages is a map of its own. -/

namespace Firebird.Tree

open Function Lib

abbrev PageId := Nat

/-- Where an accessor stands: `curr` and `curPos`. -/
structure Position where
  curr : Option PageId
  curPos : Nat
deriving DecidableEq

/-- What a tree is instantiated with: `KeyOfValue`, and how many items go on a page. -/
structure Template (V K : Type) where
  keyOfValue : V → K
  leafCount : Nat
  nodeCount : Nat
  two_le_leafCount : 2 ≤ leafCount
  two_le_nodeCount : 2 ≤ nodeCount

structure BePlusTree (V : Type) where
  items : PageId → List V
  nodes : PageId → List PageId
  nodeLevel : PageId → Nat
  parent : PageId → Option PageId
  next : PageId → Option PageId
  prev : PageId → Option PageId
  allocated : Nat
  released : List PageId
  level : Nat
  root : Option PageId
  defaultAccessor : Position

variable {V K : Type} [Inhabited V] [LinearOrder K]

namespace BePlusTree

def empty : BePlusTree V where
  items _ := []
  nodes _ := []
  nodeLevel _ := 0
  parent _ := none
  next _ := none
  prev _ := none
  allocated := 0
  released := []
  level := 0
  root := none
  defaultAccessor := ⟨none, 0⟩

def setItems (t : BePlusTree V) (p : PageId) (data : List V) : BePlusTree V :=
  { t with items := update t.items p data }

def setNodes (t : BePlusTree V) (p : PageId) (data : List PageId) : BePlusTree V :=
  { t with nodes := update t.nodes p data }

def setNodeParent (t : BePlusTree V) (node : PageId) (parent : Option PageId) : BePlusTree V :=
  { t with parent := update t.parent node parent }

def setNodeParentAndLevel (t : BePlusTree V) (node : PageId) (level : Nat) (parent : PageId) : BePlusTree V :=
  { t with
    parent := update t.parent node (some parent)
    nodeLevel := if level = 0 then t.nodeLevel else update t.nodeLevel node (level - 1) }

def setNodeParents (t : BePlusTree V) (nodes : List PageId) (parent : PageId) : BePlusTree V :=
  { t with parent := fun p => if p ∈ nodes then some parent else t.parent p }

def newPage (t : BePlusTree V) : Option PageId → BePlusTree V
  | none =>
    { t with
      allocated := t.allocated + 1
      parent := update t.parent t.allocated none
      next := update t.next t.allocated none
      prev := update t.prev t.allocated none }
  | some items =>
    { t with
      allocated := t.allocated + 1
      parent := update t.parent t.allocated none
      next := nextBehind t.next items t.allocated
      prev := prevBehind t.next t.prev items t.allocated }

def newItemList (t : BePlusTree V) (items : Option PageId) : BePlusTree V :=
  (t.newPage items).setItems t.allocated []

def newNodeList (t : BePlusTree V) (items : Option PageId) : BePlusTree V :=
  (t.newPage items).setNodes t.allocated []

def release (t : BePlusTree V) (p : PageId) : BePlusTree V :=
  { t with released := p :: t.released }

def leftmost (t : BePlusTree V) : Nat → PageId → PageId
  | 0, item => item
  | lev + 1, item => t.leftmost lev ((t.nodes item).headD 0)

/-- The key of a child of a node page on level `lev`: the key of the first item below it. -/
def generate (T : Template V K) (t : BePlusTree V) (lev : Nat) (item : PageId) : K :=
  T.keyOfValue ((t.items (t.leftmost lev item)).headD default)

def findItem (T : Template V K) (t : BePlusTree V) (leaf : PageId) (key : K) : Bool × Nat :=
  SortedVector.find default T.keyOfValue (t.items leaf) key

def findNode (T : Template V K) (t : BePlusTree V) (list : PageId) (key : K) : Bool × Nat :=
  SortedVector.find 0 (t.generate T (t.nodeLevel list)) (t.nodes list) key

/-- The way down from a page `lev` levels above the leaf pages to the leaf page for the key. -/
def descend (T : Template V K) (t : BePlusTree V) (key : K) : Nat → PageId → PageId
  | 0, list => list
  | lev + 1, list =>
    let found := t.findNode T list key
    t.descend T key lev ((t.nodes list).getD (if found.1 then found.2 else found.2 - 1) 0)

/-- How many more pages can be allocated, if there is a limit; `none`: the allocation throws. -/
def allocate : Option Nat → Option (Option Nat)
  | none => some none
  | some 0 => none
  | some (n + 1) => some (some n)

/-- `add` added the item, found it there already, or threw because memory ran out. -/
inductive AddResult
  | added
  | present
  | thrown
deriving DecidableEq

def withSpace (count : PageId → Nat) (capacity : Nat) (beside : Option PageId) : Option PageId :=
  beside.filter fun temp => decide (count temp < capacity)

/-- An item finds space on its leaf page or on one of the two beside it; otherwise they are full. -/
def addItem (T : Template V K) (t : BePlusTree V) (leaf : PageId) (pos : Nat) (item : V) : Option (BePlusTree V) :=
  if (t.items leaf).length < T.leafCount then some (t.setItems leaf ((t.items leaf).insertIdx pos item))
  else
    match withSpace (fun p => (t.items p).length) T.leafCount (t.next leaf) with
    | some temp =>
      let spilled := spillRight default T.leafCount (t.items leaf) pos item
      some ((t.setItems temp (spilled.2 :: t.items temp)).setItems leaf spilled.1)
    | none =>
      match withSpace (fun p => (t.items p).length) T.leafCount (t.prev leaf) with
      | some temp =>
        let spilled := spillLeft default (t.items leaf) pos item
        some ((t.setItems temp (t.items temp ++ [spilled.2])).setItems leaf spilled.1)
      | none => none

/-- The parents of the page that goes over to `list` and of the new page, which stays on `nodeList` unless it is the one
that goes. -/
def setSpilledParents (t : BePlusTree V) (newGoes : Bool) (goes newNode : PageId) (curLevel : Nat)
    (list nodeList : PageId) : BePlusTree V :=
  if newGoes then t.setNodeParentAndLevel newNode curLevel list
  else (t.setNodeParent goes (some list)).setNodeParentAndLevel newNode curLevel nodeList

/-- A new page on level `curLevel` finds space on its node page or on one of the two beside it; otherwise they are full.
-/
def addNode (T : Template V K) (t : BePlusTree V) (newNode : PageId) (curLevel : Nat) (nodeList : PageId) :
    Option (BePlusTree V) :=
  let pos := (t.findNode T nodeList (t.generate T (t.nodeLevel nodeList) newNode)).2
  if (t.nodes nodeList).length < T.nodeCount then
    some ((t.setNodeParentAndLevel newNode curLevel nodeList).setNodes nodeList
      ((t.nodes nodeList).insertIdx pos newNode))
  else
    match withSpace (fun p => (t.nodes p).length) T.nodeCount (t.next nodeList) with
    | some list =>
      let spilled := spillRight 0 T.nodeCount (t.nodes nodeList) pos newNode
      some (((t.setSpilledParents (pos = T.nodeCount) spilled.2 newNode curLevel list nodeList).setNodes list
        (spilled.2 :: t.nodes list)).setNodes nodeList spilled.1)
    | none =>
      match withSpace (fun p => (t.nodes p).length) T.nodeCount (t.prev nodeList) with
      | some list =>
        let spilled := spillLeft 0 (t.nodes nodeList) pos newNode
        some (((t.setSpilledParents (pos = 0) spilled.2 newNode curLevel list nodeList).setNodes list
          (t.nodes list ++ [spilled.2])).setNodes nodeList spilled.1)
      | none => none

def splitItems (T : Template V K) (t : BePlusTree V) (leaf : PageId) (pos : Nat) (item : V) : BePlusTree V :=
  let spilled := spillRight default T.leafCount (t.items leaf) pos item
  ((t.newItemList (some leaf)).setItems t.allocated [spilled.2]).setItems leaf spilled.1

def splitNodes (T : Template V K) (t : BePlusTree V) (newNode : PageId) (curLevel : Nat) (nodeList : PageId)
    (pos : Nat) : BePlusTree V :=
  let spilled := spillRight 0 T.nodeCount (t.nodes nodeList) pos newNode
  ((((t.newNodeList (some nodeList)).setSpilledParents (pos = T.nodeCount) spilled.2 newNode curLevel t.allocated
    nodeList).setNodes t.allocated [spilled.2]).setNodes nodeList spilled.1)

def newRoot (T : Template V K) (t : BePlusTree V) (oldRoot newNode : PageId) : BePlusTree V :=
  let nodeList := t.allocated
  let t := { t.newNodeList none with nodeLevel := update t.nodeLevel nodeList t.level }
  let t := t.setNodes nodeList [oldRoot]
  let t := t.setNodeParentAndLevel newNode t.level nodeList
  let t := t.setNodeParent oldRoot (some nodeList)
  let pos := (t.findNode T nodeList (t.generate T (t.nodeLevel nodeList) newNode)).2
  let t := t.setNodes nodeList ((t.nodes nodeList).insertIdx pos newNode)
  { t with root := some nodeList, level := t.level + 1 }

/-- The handler: what was moved on the levels up to `curLevel` is moved back and the new pages are released. -/
def recover (t : BePlusTree V) (recoveryMap : Nat → Option Nat) : Nat → PageId → BePlusTree V
  | 0, itemL =>
    match recoveryMap 0, t.prev itemL with
    | some pos, some prev =>
      (t.setItems prev ((t.items prev).eraseIdx pos ++ [(t.items itemL).headD default])).release itemL
    | _, _ => t.release itemL
  | curLevel + 1, itemL =>
    match recoveryMap (curLevel + 1), t.prev itemL with
    | some pos, some prev =>
      let first := (t.nodes itemL).headD 0
      ((t.setNodes prev ((t.nodes prev).eraseIdx pos ++ [first])).setNodeParent first (some prev)).release itemL
        |>.recover recoveryMap curLevel ((t.nodes prev).getD pos 0)
    | _, _ => (t.release itemL).recover recoveryMap curLevel ((t.nodes itemL).headD 0)

/-- The climb from level to level with a page that is new on it. -/
def climb (T : Template V K) : Nat → BePlusTree V → Option Nat → PageId → Option PageId → Nat → (Nat → Option Nat) →
    Option (AddResult × BePlusTree V)
  | _, t, memory, newNode, none, curLevel, recoveryMap =>
    match allocate memory, t.root with
    | some _, some root => some (.added, t.newRoot T root newNode)
    | some _, none => none
    | none, _ => some (.thrown, t.recover recoveryMap curLevel newNode)
  | 0, _, _, _, some _, _, _ => none
  | fuel + 1, t, memory, newNode, some nodeList, curLevel, recoveryMap =>
    match t.addNode T newNode curLevel nodeList with
    | some t => some (.added, t)
    | none =>
      match allocate memory with
      | none => some (.thrown, t.recover recoveryMap curLevel newNode)
      | some memory =>
        let pos := (t.findNode T nodeList (t.generate T (t.nodeLevel nodeList) newNode)).2
        climb T fuel (t.splitNodes T newNode curLevel nodeList pos) memory t.allocated (t.parent nodeList)
        (curLevel + 1)
          (update recoveryMap (curLevel + 1) (if pos = T.nodeCount then none else some pos))

def addBelow (T : Template V K) (t : BePlusTree V) (item : V) (memory : Option Nat) (root : PageId) :
    Option (AddResult × BePlusTree V) :=
  let leaf := t.descend T (T.keyOfValue item) t.level root
  let found := t.findItem T leaf (T.keyOfValue item)
  let pos := found.2
  if found.1 then some (.present, { t with defaultAccessor := ⟨some leaf, pos⟩ })
  else
    match t.addItem T leaf pos item with
    | some t => some (.added, t)
    | none =>
      match allocate memory with
      | none => some (.thrown, t)
      | some memory =>
        climb T (t.level + 1) (t.splitItems T leaf pos item) memory t.allocated (t.parent leaf) 0
          fun _ => if pos = T.leafCount then none else some pos

def add (T : Template V K) (t : BePlusTree V) (item : V) (memory : Option Nat) : Option (AddResult × BePlusTree V) :=
  match t.root with
  | some root => t.addBelow T item memory root
  | none =>
    match allocate memory with
    | none => some (.thrown, t)
    | some memory => { t.newItemList none with root := some t.allocated }.addBelow T item memory t.allocated

end BePlusTree

end Firebird.Tree
