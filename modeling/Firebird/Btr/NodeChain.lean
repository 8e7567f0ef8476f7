import Firebird.Btr.IndexNode
import Firebird.Lib.FrontCoding

/-! # The nodes of a B-tree page

A page holds a jump table and behind it a chain of nodes whose keys leave out what they have in common with the key
before. -/

namespace Firebird.Btr
open Lib Cursor

/-- `btree_page`, as far as the nodes are concerned. -/
structure BtreePage where
  level : Nat
  length : Nat
  prefixTotal : Int
  jumpSize : Nat
  jumpCount : Nat
  bytes : Memory

/-- `offsetof(btree_page, btr_nodes)` -/
def btrNodes : Nat := 39

def maxKey : Nat := 8192

abbrev Key := List UInt8

namespace BtreePage
variable (page : BtreePage)

def leafPage : Bool := page.level = 0

def firstNode : Nat := btrNodes + page.jumpSize

def readNode (pointer : Nat) : IndexNode × Nat := (Btr.readNode page.leafPage).read page.bytes pointer

def readJumpNode (pointer : Nat) : IndexJumpNode × Nat := Btr.readJumpNode.read page.bytes pointer

end BtreePage

variable {leafNode : Bool} {m m' : Memory} {p p' q q' r : Nat} {node : IndexNode} {xs ys nodes : List IndexNode}
  {jumps : List IndexJumpNode}

def Chain (leafNode : Bool) (m : Memory) : Nat → List IndexNode → Nat → Prop
  | p, [], q => p = q
  | p, node :: nodes, q => ∃ r, (readNode leafNode).read m p = (node, r) ∧ Chain leafNode m r nodes q

theorem chain_append : Chain leafNode m p (xs ++ ys) q ↔ ∃ r, Chain leafNode m p xs r ∧ Chain leafNode m r ys q := by
  induction xs generalizing p with
  | nil => exact ⟨fun h => ⟨p, rfl, h⟩, fun ⟨_, h, h'⟩ => h ▸ h'⟩
  | cons node xs ih =>
    constructor
    · rintro ⟨r, hread, h⟩
      obtain ⟨s, hxs, hys⟩ := ih.mp h
      exact ⟨s, ⟨r, hread, hxs⟩, hys⟩
    · rintro ⟨s, ⟨r, hread, hxs⟩, hys⟩
      exact ⟨r, hread, ih.mpr ⟨s, hxs, hys⟩⟩

theorem Chain.le (h : Chain leafNode m p nodes q) : p ≤ q := by
  induction nodes generalizing p with
  | nil => exact Nat.le_of_eq h
  | cons node nodes ih =>
    obtain ⟨r, hread, h⟩ := h
    have hlt := readNode_lt leafNode m p
    rw [hread] at hlt
    exact (Nat.le_of_lt hlt).trans (ih h)

theorem Chain.lt (h : Chain leafNode m p (node :: nodes) q) : p < q := by
  obtain ⟨r, hread, h⟩ := h
  have hlt := readNode_lt leafNode m p
  rw [hread] at hlt
  exact hlt.trans_le h.le

section
variable (h : Chain leafNode m p nodes q)
include h

theorem Chain.end_eq (h' : Chain leafNode m p nodes q') : q = q' := by
  induction nodes generalizing p with
  | nil => exact h.symm.trans h'
  | cons node nodes ih =>
    obtain ⟨r, hread, h⟩ := h
    obtain ⟨r', hread', h'⟩ := h'
    obtain rfl : r = r' := congrArg Prod.snd (hread.symm.trans hread')
    exact ih h h'

theorem Chain.shift (hbytes : ∀ i, p + i < q → m' (p' + i) = m (p + i)) :
    Chain leafNode m' p' nodes (p' + (q - p)) := by
  induction nodes generalizing p p' with
  | nil =>
    obtain rfl : p = q := h
    rw [Nat.sub_self]
    rfl
  | cons node nodes ih =>
    obtain ⟨r, hread, h⟩ := h
    have hle := h.le
    have hlt := readNode_lt leafNode m p
    rw [hread] at hlt
    have hlocal : Local (readNode leafNode) := readNode_local
    have hcongr := hlocal.congr m m' p p' fun i hi => hbytes i (by
      rw [hread] at hi
      exact hi.trans_le hle)
    rw [hread] at hcongr
    have hrest := @ih r (p' + (r - p)) h fun i hi => by
      have hbyte := hbytes (r - p + i) (by omega)
      rw [← Nat.add_assoc] at hbyte
      rw [hbyte]
      exact congrArg m (by omega)
    have hend : p' + (q - p) = p' + (r - p) + (q - r) := by omega
    rw [hend]
    exact ⟨_, hcongr, hrest⟩

theorem Chain.congr (hbytes : ∀ i, p ≤ i → i < q → m' i = m i) : Chain leafNode m' p nodes q := by
  have hshift := @Chain.shift _ _ m' _ p _ _ h fun i hi => hbytes (p + i) (Nat.le_add_right ..) hi
  rwa [Nat.add_sub_cancel' h.le] at hshift

end

theorem Chain.read (h : Chain leafNode m p (node :: nodes) q) : ((readNode leafNode).read m p).1 = node := by
  obtain ⟨r, hread, -⟩ := h
  rw [hread]

def JumpChain (m : Memory) : Nat → List IndexJumpNode → Nat → Prop
  | p, [], q => p = q
  | p, jumpNode :: jumps, q => ∃ r, readJumpNode.read m p = (jumpNode, r) ∧ JumpChain m r jumps q

def IndexNode.key (node : IndexNode) (prev : Key) : Key := prev.take node.prefixLen ++ node.data

def keyAfter : Key → List IndexNode → Key
  | key, [] => key
  | key, node :: nodes => keyAfter (node.key key) nodes

structure Entry where
  key : Key
  recordNumber : Nat
  pageNumber : Nat
  isEndBucket : Bool
  isEndLevel : Bool

def IndexNode.entry (node : IndexNode) (prev : Key) : Entry :=
  ⟨node.key prev, node.recordNumber, node.pageNumber, node.isEndBucket, node.isEndLevel⟩

def entries : Key → List IndexNode → List Entry
  | _, [] => []
  | key, node :: nodes => node.entry key :: entries (node.key key) nodes

theorem keyAfter_append (key : Key) (xs ys : List IndexNode) : keyAfter key (xs ++ ys) = keyAfter
    (keyAfter key xs) ys := by
  induction xs generalizing key with
  | nil => rfl
  | cons node xs ih => exact ih _

theorem entries_append (key : Key) (xs ys : List IndexNode) :
    entries key (xs ++ ys) = entries key xs ++ entries (keyAfter key xs) ys := by
  induction xs generalizing key with
  | nil => rfl
  | cons node xs ih => exact congrArg (node.entry key :: ·) (ih _)

theorem entries_length (key : Key) (nodes : List IndexNode) : (entries key nodes).length = nodes.length := by
  induction nodes generalizing key with
  | nil => rfl
  | cons node nodes ih => exact congrArg (· + 1) (ih _)

def computePrefix (prevString string : Key) : Nat := commonPrefix prevString string

/-- Each node leaves out all that its key has in common with the one before. -/
def Compressed : Key → List IndexNode → Prop
  | _, [] => True
  | prev, node :: nodes => (node.prefixLen ≤ prev.length ∧ (node.key prev).length ≤ maxKey ∧
      (node.isEndLevel = false → node.prefixLen = computePrefix prev (node.key prev))) ∧
      Compressed (node.key prev) nodes

/-- The keys are in order, where `start` says that all keys before are empty: nodes of this kind may come first in a
    descending index too, and are not compared. -/
def InOrder (descending : Bool) : Bool → Key → List IndexNode → Prop
  | _, _, [] => True
  | start, prev, node :: nodes => (node.isEndLevel = false → start = true ∨ StringLe descending prev (node.key prev)) ∧
      InOrder descending (start && (node.key prev).isEmpty) (node.key prev) nodes

instance decidableCompressed : (key : Key) → (nodes : List IndexNode) → Decidable (Compressed key nodes)
  | _, [] => inferInstanceAs (Decidable True)
  | prev, node :: nodes =>
    have := decidableCompressed (node.key prev) nodes
    inferInstanceAs (Decidable ((node.prefixLen ≤ prev.length ∧ (node.key prev).length ≤ maxKey ∧
      (node.isEndLevel = false → node.prefixLen = computePrefix prev (node.key prev))) ∧
      Compressed (node.key prev) nodes))

instance decidableInOrder (descending : Bool) :
    (start : Bool) → (key : Key) → (nodes : List IndexNode) → Decidable (InOrder descending start key nodes)
  | _, _, [] => inferInstanceAs (Decidable True)
  | start, prev, node :: nodes =>
    have := decidableInOrder descending (start && (node.key prev).isEmpty) (node.key prev) nodes
    inferInstanceAs (Decidable ((node.isEndLevel = false → start = true ∨ StringLe descending prev (node.key prev)) ∧
      InOrder descending (start && (node.key prev).isEmpty) (node.key prev) nodes))

theorem compressed_append {key : Key} : Compressed key (xs ++ ys) ↔ Compressed key xs ∧ Compressed
    (keyAfter key xs) ys := by
  induction xs generalizing key with
  | nil => exact ⟨fun h => ⟨trivial, h⟩, fun h => h.2⟩
  | cons node xs ih => exact (and_congr_right fun _ => ih).trans and_assoc.symm

def startAfter : Bool → Key → List IndexNode → Bool
  | start, _, [] => start
  | start, key, node :: nodes => startAfter (start && (node.key key).isEmpty) (node.key key) nodes

theorem inOrder_append {descending start : Bool} {key : Key} : InOrder descending start key (xs ++ ys) ↔
    InOrder descending start key xs ∧ InOrder descending (startAfter start key xs) (keyAfter key xs) ys := by
  induction xs generalizing start key with
  | nil => exact ⟨fun h => ⟨trivial, h⟩, fun h => h.2⟩
  | cons node xs ih => exact (and_congr_right fun _ => ih).trans and_assoc.symm

theorem startAfter_append {start : Bool} {key : Key} :
    startAfter start key (xs ++ ys) = startAfter (startAfter start key xs) (keyAfter key xs) ys := by
  induction xs generalizing start key with
  | nil => rfl
  | cons node xs ih => exact ih

theorem startAfter_nil {start : Bool} {key : Key} (hkey : start = true → key = [])
    (h : startAfter start key xs = true) : start = true ∧ keyAfter key xs = [] := by
  induction xs generalizing start key with
  | nil => exact ⟨h, hkey h⟩
  | cons node xs ih =>
    obtain ⟨hstart, hnil⟩ := ih (fun hand => List.isEmpty_iff.mp (Bool.and_eq_true_iff.mp hand).2) h
    exact ⟨(Bool.and_eq_true_iff.mp hstart).1, hnil⟩

theorem InOrder.mono {descending start start' : Bool} {key : Key} (h : InOrder descending start key xs)
    (hstart : start = true → start' = true) : InOrder descending start' key xs := by
  induction xs generalizing start start' key with
  | nil => trivial
  | cons node xs ih =>
    obtain ⟨hnode, hrest⟩ := h
    refine ⟨fun hend => (hnode hend).imp_left hstart, ih hrest fun hand => ?_⟩
    rw [Bool.and_eq_true_iff] at hand ⊢
    exact ⟨hstart hand.1, hand.2⟩

structure AtNode (page : BtreePage) (nodes : List IndexNode) (offset : Nat) (pre : List IndexNode)
    (node : IndexNode) : Prop where
  nodes : ∃ post, nodes = pre ++ node :: post
  ne : pre ≠ []
  chain : Chain page.leafPage page.bytes page.firstNode pre offset

structure LeadsTo (page : BtreePage) (nodes : List IndexNode) (key : Key) (jumpNode : IndexJumpNode)
    (pre : List IndexNode) (node : IndexNode) : Prop extends AtNode page nodes jumpNode.offset pre node where
  le : jumpNode.prefixLen ≤ key.length
  key : key.take jumpNode.prefixLen ++ jumpNode.data = (keyAfter [] pre).take node.prefixLen

/-- The jump nodes lead to nodes other than the first one, from left to right. Each leaves out what its key has in
common with the jump key before. -/
def JumpTable (page : BtreePage) (nodes : List IndexNode) : Key → Nat → List IndexJumpNode → Prop
  | _, _, [] => True
  | key, offset, jumpNode :: jumps => offset < jumpNode.offset ∧ ∃ pre node, LeadsTo page nodes key jumpNode pre node ∧
      JumpTable page nodes ((keyAfter [] pre).take node.prefixLen) jumpNode.offset jumps

structure ValidPage (descending : Bool) (page : BtreePage) (nodes : List IndexNode)
    (jumps : List IndexJumpNode) : Prop where
  chain : Chain page.leafPage page.bytes page.firstNode nodes page.length
  length : page.length < 2 ^ 16
  compressed : Compressed [] nodes
  inOrder : InOrder descending true [] nodes
  marked : ∃ init last, nodes = init ++ [last] ∧ (last.isEndBucket || last.isEndLevel) = true ∧
    ∀ node ∈ init, node.isEndBucket = false ∧ node.isEndLevel = false
  prefixTotal : page.prefixTotal = (nodes.map fun node => (node.prefixLen : Int)).sum
  jumpChain : ∃ jumpEnd, JumpChain page.bytes btrNodes jumps jumpEnd ∧ jumpEnd ≤ page.firstNode
  jumpCount : page.jumpCount = jumps.length ∧ jumps.length < 256
  jumpTable : JumpTable page nodes [] 0 jumps

end Firebird.Btr
