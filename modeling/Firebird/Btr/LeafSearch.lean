import Firebird.Btr.NodeChain
import Firebird.Lib.Cells

/-! # Searching a leaf page

`find_node_start_point` and `find_area_start_point` for a whole key, as the scanner of duplicates calls them: without a
retrieval and without a record number. A place on the page is the number of a node. -/

namespace Firebird.Btr
open Lib

/-- `IndexJumpNode`, with the node it leads to. -/
structure LeafJump where
  prefixLen : Nat
  data : List UInt8
  target : Nat

structure LeafPage where
  nodes : List IndexNode
  jumps : List LeafJump

def LeafPage.readNode (page : LeafPage) (i : Nat) : IndexNode := page.nodes.getD i .endLevel

/-- What is left of the key is compared to what is left of a node: none when the search is done, and otherwise how many
bytes they have in common. -/
def walkBytes : Bool → List UInt8 → List UInt8 → Option Nat
  | false, [], _ => none
  | false, _ :: _, [] => some 0
  | true, _, [] => none
  | true, [], _ :: _ => some 0
  | descending, x :: p, y :: q =>
    if x > y then some 0
    else if x < y then none
    else (walkBytes descending p q).map (· + 1)

def findArea (descending : Bool) (page : LeafPage) (key : Key) : List LeafJump →
    (Nat → UInt8) → Nat → Nat → Nat → Nat × Nat
  | [], _, prefixLen, _, target => (target, prefixLen)
  | jumpNode :: jumps, jumpKey, prefixLen, testPrefix, target =>
    let node := page.readNode jumpNode.target
    let jumpKey := store (store jumpKey jumpNode.prefixLen jumpNode.data) node.prefixLen node.data
    let size := jumpNode.data.length + jumpNode.prefixLen
    if jumpNode.prefixLen ≤ testPrefix then
      match walkBytes descending (key.drop jumpNode.prefixLen)
          (cells jumpKey jumpNode.prefixLen (node.prefixLen + node.length - jumpNode.prefixLen)) with
      | none => (target, prefixLen)
      | some n => findArea descending page key jumps jumpKey (min size (jumpNode.prefixLen + n))
          (jumpNode.prefixLen + n) jumpNode.target
    else findArea descending page key jumps jumpKey (min size testPrefix) testPrefix jumpNode.target

def findAreaStartPoint (descending : Bool) (page : LeafPage) (key : Key) : Nat × Nat :=
  findArea descending page key page.jumps (fun _ => 0) 0 0 0

/-- The loop over the nodes. There is no result for nodes without a marker, where the index is inconsistent. -/
def findStart (descending : Bool) (key : Key) : Nat → List IndexNode → Nat → Bool → Option (Option Nat)
  | _, [], _, _ => none
  | i, node :: nodes, prefixLen, firstPass =>
    if node.isEndLevel ∨ node.prefixLen < prefixLen then
      some (some i)
    else if node.prefixLen = prefixLen ∧ (descending ∨ 0 < node.length ∨ firstPass) then
      match walkBytes descending (key.drop prefixLen) node.data with
      | none => some (some i)
      | some n =>
        if node.isEndBucket then some none
        else findStart descending key (i + 1) nodes (prefixLen + n) (descending && firstPass)
    else if node.isEndBucket then some none
    else findStart descending key (i + 1) nodes prefixLen firstPass

def findNodeStartPoint (descending : Bool) (page : LeafPage) (key : Key) : Option (Option Nat) :=
  let (start, prefixLen) := findAreaStartPoint descending page key
  findStart descending key start (page.nodes.drop start) prefixLen true

/-! ### The scanner of duplicates

`IndexDuplicateScanner`: every call finds the next group of entries with equal keys, and saves where it ended. Between
two calls the page may leave the cache and come back with another incarnation. The pages of a leaf level stand in a row,
and the index is inconsistent where there is no result. -/

structure ScannedIndex where
  descending : Bool
  nullKey : Key
  keySize : Nat

structure IndexDuplicateScanner where
  initialized : Bool := false
  key : Nat → UInt8 := fun _ => 0
  keyLength : Nat := 0
  savePage : Option Nat := none
  saveOffset : Nat := 0
  saveIncarnation : Nat := 0

structure FindState where
  key : Nat → UInt8
  keyLength : Nat
  recs : List Int
  first : Bool
  duplicate : Bool
  prevRecno : Int

inductive NodesEnd
  | groupEnd (offset : Nat) (state : FindState)
  | marker (node : IndexNode) (offset : Nat) (state : FindState)
  | allNulls (state : FindState)

structure FindResult where
  found : Bool
  recs : List Int
  scanner : IndexDuplicateScanner

/-- The bitmap of records is read in the order of their numbers. -/
def setRecord (recs : List Int) (recno : Int) : List Int :=
  if recno ∈ recs then recs else recs.orderedInsert (· ≤ ·) recno

variable (index : ScannedIndex) (incarnation : Nat → Nat)

def FindState.isDuplicate (state : FindState) (node : IndexNode) : Bool :=
  node.length + node.prefixLen = state.keyLength &&
    (node.length = 0 || (node.prefixLen = 0 && state.first && cells state.key 0 state.keyLength = node.data))

def FindState.record (state : FindState) (node : IndexNode) (duplicate : Bool) : FindState where
  key := store state.key node.prefixLen node.data
  keyLength := node.length + node.prefixLen
  recs :=
    if duplicate then
      setRecord (if state.duplicate then state.recs else setRecord state.recs state.prevRecno) node.recordNumber
    else state.recs
  first := false
  duplicate
  prevRecno := node.recordNumber

def FindState.isAllNulls (state : FindState) : Bool :=
  !state.duplicate && index.descending && state.keyLength = index.nullKey.length &&
    cells state.key 0 state.keyLength = index.nullKey

def findNodes : Nat → List IndexNode → FindState → Option NodesEnd
  | _, [], _ => none
  | offset, node :: nodes, state =>
    if node.isEndBucket || node.isEndLevel then some (.marker node offset state)
    else if index.keySize < node.prefixLen + node.length then none
    else if node.length = 0 && node.prefixLen = 0 && !index.descending then findNodes (offset + 1) nodes state
    else if !state.isDuplicate node && state.duplicate then some (.groupEnd offset state)
    else if (state.record node (state.isDuplicate node)).isAllNulls index then some
      (.allNulls (state.record node (state.isDuplicate node)))
    else findNodes (offset + 1) nodes (state.record node (state.isDuplicate node))

def savePosition (state : FindState) (page : Nat) (offset : Nat) : IndexDuplicateScanner where
  initialized := true
  key := state.key
  keyLength := state.keyLength
  savePage := some page
  saveOffset := offset
  saveIncarnation := incarnation page

def saveNoPosition (state : FindState) : IndexDuplicateScanner where
  initialized := true
  key := state.key
  keyLength := state.keyLength

def finish (page offset : Nat) (state : FindState) : FindResult :=
  if state.duplicate then ⟨true, state.recs, savePosition incarnation state page offset⟩
  else ⟨false, state.recs, saveNoPosition state⟩

def findPages : Nat → Nat → List IndexNode → List LeafPage → FindState → Option FindResult
  | pageNo, offset, nodes, pages, state =>
    match findNodes index offset nodes state, pages with
    | none, _ => none
    | some (.groupEnd offset state), _ => some ⟨true, state.recs, savePosition incarnation state pageNo offset⟩
    | some (.allNulls state), _ => some ⟨false, state.recs, saveNoPosition state⟩
    | some (.marker _ offset state), [] => some (finish incarnation pageNo offset state)
    | some (.marker node offset state), page :: pages =>
      if node.isEndLevel then some (finish incarnation pageNo offset state)
      else findPages (pageNo + 1) 0 page.nodes pages { state with first := true }

inductive SkipEnd
  | node (offset : Nat)
  | endLevel
  | endBucket (skip : Bool)

def skipNodes (scanner : IndexDuplicateScanner) : Nat → List IndexNode → Bool → Bool → Option SkipEnd
  | _, [], _, _ => none
  | offset, node :: nodes, skip, first =>
    if node.isEndLevel then some .endLevel
    else if node.isEndBucket then some (.endBucket skip)
    else if skip then skipNodes scanner (offset + 1) nodes false first
    else if (node.length = 0 && node.prefixLen = scanner.keyLength) ||
        (first && node.length = scanner.keyLength && cells scanner.key 0 scanner.keyLength = node.data) then
      skipNodes scanner (offset + 1) nodes false false
    else some (.node offset)

def skipPages (scanner : IndexDuplicateScanner) : Nat → Nat → List IndexNode → List LeafPage → Bool →
    Option (Option (Nat × Nat))
  | pageNo, offset, nodes, pages, skip =>
    match skipNodes scanner offset nodes skip (offset = 0), pages with
    | none, _ => none
    | some (.node offset), _ => some (some (pageNo, offset))
    | some .endLevel, _ => some none
    | some (.endBucket _), [] => none
    | some (.endBucket skip), page :: pages => skipPages scanner (pageNo + 1) 0 page.nodes pages skip

def findStartPage (key : Key) : Nat → List LeafPage → Option (Nat × Nat)
  | _, [] => none
  | pageNo, page :: pages =>
    match findNodeStartPoint index.descending page key with
    | none => none
    | some (some offset) => some (pageNo, offset)
    | some none => findStartPage key (pageNo + 1) pages

def nodesFrom (chain : List LeafPage) (pageNo offset : Nat) : List IndexNode :=
  ((chain.map LeafPage.nodes).getD pageNo []).drop offset

def restorePosition (chain : List LeafPage) (scanner : IndexDuplicateScanner) : Option (Option (Nat × Nat)) :=
  match scanner.savePage with
  | none => none
  | some page =>
    if incarnation page = scanner.saveIncarnation then some (some (page, scanner.saveOffset))
    else
      match findStartPage index (cells scanner.key 0 scanner.keyLength) page (chain.drop page) with
      | none => none
      | some (pageNo, offset) =>
        skipPages scanner pageNo offset (nodesFrom chain pageNo offset) (chain.drop (pageNo + 1)) true

def find (chain : List LeafPage) (scanner : IndexDuplicateScanner) : Option FindResult :=
  match if scanner.initialized then restorePosition index incarnation chain scanner else some (some (0, 0)) with
  | none => none
  | some none => some ⟨false, [], scanner⟩
  | some (some (pageNo, offset)) =>
    findPages index incarnation pageNo offset (nodesFrom chain pageNo offset) (chain.drop (pageNo + 1))
      { key := scanner.key, keyLength := scanner.keyLength, recs := [], first := offset = 0,
        duplicate := false, prevRecno := -1 }

/-- The groups that calls of `find` bring, each at a time with its own incarnations of the pages, and whether they came
to the end. -/
def findGroups (chain : List LeafPage) : List (Nat → Nat) → IndexDuplicateScanner → Option (List (List Int) × Bool)
  | [], _ => some ([], false)
  | incarnation :: rest, scanner =>
    match find index incarnation chain scanner with
    | none => none
    | some result =>
      if result.found then
        match findGroups chain rest result.scanner with
        | none => none
        | some (groups, ended) => some (result.recs :: groups, ended)
      else some ([], true)

end Firebird.Btr
