import Firebird.Lib.Cursor

/-! # Index nodes

How the nodes and the jump nodes of a B-tree page are stored (`src/jrd/btn.h`, `src/jrd/btn.cpp`). The place of a node
is known to whoever reads it; the page number of a leaf node is not stored and counts as 0. -/

namespace Firebird.Btr
open Lib Cursor List

def btnEndLevelFlag : Nat := 1
def btnEndBucketFlag : Nat := 2
def btnZeroPrefixZeroLengthFlag : Nat := 3
def btnZeroLengthFlag : Nat := 4
def btnOneLengthFlag : Nat := 5

attribute [grind =] btnEndLevelFlag btnEndBucketFlag btnZeroPrefixZeroLengthFlag btnZeroLengthFlag btnOneLengthFlag

structure IndexNode where
  prefixLen : Nat
  data : List UInt8
  recordNumber : Nat
  pageNumber : Nat
  isEndBucket : Bool
  isEndLevel : Bool
  deriving DecidableEq

def IndexNode.length (node : IndexNode) : Nat := node.data.length

/-- `setEndLevel` -/
def IndexNode.endLevel : IndexNode := ⟨0, [], 0, 0, false, true⟩

/-- The number that a node keeps beside the flags and its low bits, in 36 bits. -/
def getNumber : Cursor Nat := getGroups 256 4

def getPageNumber (leafNode : Bool) : Cursor Nat := if leafNode then pure 0 else getGroups 16 4

def getSize : Cursor Nat := getGroups 128 1

def getPrefix (internalFlags : Nat) : Cursor Nat :=
  if internalFlags = btnZeroPrefixZeroLengthFlag then pure 0 else getSize

def getLength (internalFlags : Nat) : Cursor Nat :=
  if internalFlags = btnZeroLengthFlag ∨ internalFlags = btnZeroPrefixZeroLengthFlag then pure 0
  else if internalFlags = btnOneLengthFlag then pure 1
  else getSize

def readRest (leafNode : Bool) (first : Nat) : Cursor IndexNode := do
  let number ← getNumber
  let pageNumber ← getPageNumber leafNode
  let prefixLen ← getPrefix (first / 32)
  let length ← getLength (first / 32)
  let data ← getBytes length
  pure ⟨prefixLen, data, first % 32 + 32 * number, pageNumber, first / 32 = btnEndBucketFlag, false⟩

def readNode (leafNode : Bool) : Cursor IndexNode := do
  let first ← getByte
  if first.toNat / 32 = btnEndLevelFlag then pure .endLevel else readRest leafNode first.toNat

namespace IndexNode
variable (node : IndexNode)

def internalFlags : Nat :=
  if node.isEndLevel then btnEndLevelFlag
  else if node.isEndBucket then btnEndBucketFlag
  else if node.length = 0 then if node.prefixLen = 0 then btnZeroPrefixZeroLengthFlag else btnZeroLengthFlag
  else if node.length = 1 then btnOneLengthFlag
  else 0

def pageNumberBytes (leafNode : Bool) : List UInt8 := if leafNode then [] else groups 16 4 node.pageNumber

def prefixBytes : List UInt8 :=
  if node.internalFlags = btnZeroPrefixZeroLengthFlag then [] else groups 128 1 node.prefixLen

def lengthBytes : List UInt8 :=
  if node.internalFlags = btnZeroLengthFlag ∨ node.internalFlags = btnZeroPrefixZeroLengthFlag ∨
    node.internalFlags = btnOneLengthFlag then [] else groups 128 1 node.length

def writeNode (leafNode : Bool) : List UInt8 :=
  UInt8.ofNat (node.internalFlags * 32 + node.recordNumber % 32) ::
    if node.isEndLevel then []
    else groups 256 4 (node.recordNumber / 32) ++ (node.pageNumberBytes leafNode ++ (node.prefixBytes ++
      (node.lengthBytes ++ node.data)))

end IndexNode

structure IndexJumpNode where
  prefixLen : Nat
  data : List UInt8
  offset : Nat
  deriving DecidableEq

def IndexJumpNode.length (jumpNode : IndexJumpNode) : Nat := jumpNode.data.length

def getShort : Cursor Nat := do
  let low ← getByte
  let high ← getByte
  pure (low.toNat + 256 * high.toNat)

def shortBytes (n : Nat) : List UInt8 := [UInt8.ofNat n, UInt8.ofNat (n / 256)]

def readJumpNode : Cursor IndexJumpNode := do
  let prefixLen ← getSize
  let length ← getSize
  let offset ← getShort
  let data ← getBytes length
  pure ⟨prefixLen, data, offset⟩

def IndexJumpNode.writeJumpNode (jumpNode : IndexJumpNode) : List UInt8 :=
  groups 128 1 jumpNode.prefixLen ++ (groups 128 1 jumpNode.length ++ (shortBytes jumpNode.offset ++ jumpNode.data))

def sizeSize (number : Nat) : Nat := if 2 ^ 14 ≤ number then 3 else if 128 ≤ number then 2 else 1

def IndexJumpNode.getJumpNodeSize (jumpNode : IndexJumpNode) : Nat :=
  sizeSize jumpNode.prefixLen + sizeSize jumpNode.length + 2 + jumpNode.length

variable {leafNode : Bool} {node : IndexNode} {jumpNode : IndexJumpNode} {m : Memory} {p : Nat}

theorem getSize_local : Local getSize := getGroups_local 1

theorem readRest_local (first : Nat) : Local (readRest leafNode first) := by
  refine (getGroups_local 4).bind fun _ => Local.bind (.ite (.pure _) (getGroups_local 4)) fun _ =>
    Local.bind (.ite (.pure _) getSize_local) fun _ => Local.bind (.ite (.pure _) (.ite (.pure _) getSize_local))
    fun _ =>
      (getBytes_local _).bind fun _ => .pure _

theorem readNode_local : Local (readNode leafNode) := getByte_local.bind fun _ => .ite (.pure _) (readRest_local _)

theorem readJumpNode_local : Local readJumpNode :=
  getSize_local.bind fun _ => getSize_local.bind fun _ =>
    Local.bind (getByte_local.bind fun _ => getByte_local.bind fun _ => .pure _) fun _ =>
      (getBytes_local _).bind fun _ => .pure _

theorem readNode_lt (leafNode : Bool) (m : Memory) (p : Nat) : p < ((readNode leafNode).read m p).2 := by
  have hrest : p + 1 ≤ ((if (m p).toNat / 32 = btnEndLevelFlag then pure .endLevel
      else readRest leafNode (m p).toNat : Cursor IndexNode).read m (p + 1)).2 :=
    (Local.ite (.pure _) (readRest_local _)).le m (p + 1)
  exact hrest

structure IndexNode.Fits (node : IndexNode) (leafNode : Bool) : Prop where
  endLevel : node.isEndLevel = true → node = .endLevel
  recordNumber : node.recordNumber < 2 ^ 41
  pageNumber : node.pageNumber < 2 ^ 32
  leaf : leafNode = true → node.pageNumber = 0
  prefixLen : node.prefixLen < 2 ^ 14
  length : node.length < 2 ^ 14

theorem decodes_size {n : Nat} (h : n < 2 ^ 14) : Decodes getSize (groups 128 1 n) n :=
  decodes_groups (by decide) (h.trans_eq (by decide))

theorem decodes_pageNumber (h : node.Fits leafNode) :
    Decodes (getPageNumber leafNode) (node.pageNumberBytes leafNode) node.pageNumber := by
  cases hleaf : leafNode with
  | true =>
    rw [h.leaf hleaf]
    exact decodes_pure 0
  | false => exact decodes_groups (by decide) (h.pageNumber.trans_eq (by decide))

theorem decodes_prefixLen (h : node.Fits leafNode) :
    Decodes (getPrefix node.internalFlags) node.prefixBytes node.prefixLen := by
  unfold getPrefix IndexNode.prefixBytes
  by_cases hflags : node.internalFlags = btnZeroPrefixZeroLengthFlag
  · have hzero : node.prefixLen = 0 := by
      unfold IndexNode.internalFlags at hflags
      grind
    rw [if_pos hflags, if_pos hflags, hzero]
    exact decodes_pure 0
  · rw [if_neg hflags, if_neg hflags]
    exact decodes_size h.prefixLen

theorem decodes_length (h : node.Fits leafNode) :
    Decodes (getLength node.internalFlags) node.lengthBytes node.length := by
  unfold getLength IndexNode.lengthBytes
  by_cases hzero : node.internalFlags = btnZeroLengthFlag ∨ node.internalFlags = btnZeroPrefixZeroLengthFlag
  · have hlength : node.length = 0 := by
      unfold IndexNode.internalFlags at hzero
      grind
    rw [if_pos hzero, if_pos (by tauto), hlength]
    exact decodes_pure 0
  · rw [if_neg hzero]
    by_cases hone : node.internalFlags = btnOneLengthFlag
    · have hlength : node.length = 1 := by
        unfold IndexNode.internalFlags at hone
        grind
      rw [if_pos hone, if_pos (.inr (.inr hone)), hlength]
      exact decodes_pure 1
    · rw [if_neg hone, if_neg (by tauto)]
      exact decodes_size h.length

theorem internalFlags_lt (node : IndexNode) : node.internalFlags < 8 := by
  unfold IndexNode.internalFlags
  grind

theorem internalFlags_endBucket (h : node.isEndLevel = false) :
    (node.internalFlags = btnEndBucketFlag ↔ node.isEndBucket = true) ∧ node.internalFlags ≠ btnEndLevelFlag := by
  unfold IndexNode.internalFlags
  grind

theorem decodes_rest (h : node.Fits leafNode) (hend : node.isEndLevel = false) :
    Decodes (readRest leafNode (node.internalFlags * 32 + node.recordNumber % 32))
      (groups 256 4 (node.recordNumber / 32) ++ (node.pageNumberBytes leafNode ++ (node.prefixBytes ++
        (node.lengthBytes ++ node.data)))) node := by
  have hquot : (node.internalFlags * 32 + node.recordNumber % 32) / 32 = node.internalFlags := by omega
  have hrem : (node.internalFlags * 32 + node.recordNumber % 32) % 32 = node.recordNumber % 32 := by omega
  unfold readRest
  rw [hquot, hrem]
  refine (decodes_groups (by decide) (by have := h.recordNumber; omega)).bind ((decodes_pageNumber h).bind
    ((decodes_prefixLen h).bind ((decodes_length h).bind ?_)))
  have hread := (decodes_getBytes node.data).map fun data => IndexNode.mk node.prefixLen data
    (node.recordNumber % 32 + 32 * (node.recordNumber / 32)) node.pageNumber
    (node.internalFlags = btnEndBucketFlag) false
  have hnode : IndexNode.mk node.prefixLen node.data (node.recordNumber % 32 + 32 * (node.recordNumber / 32))
      node.pageNumber (decide (node.internalFlags = btnEndBucketFlag)) false = node := by
    have hdecide : decide (node.internalFlags = btnEndBucketFlag) = node.isEndBucket := by
      rw [Bool.eq_iff_iff, decide_eq_true_iff]
      exact (internalFlags_endBucket hend).1
    rw [Nat.mod_add_div, hdecide, ← hend]
  rw [hnode] at hread
  exact hread

theorem flagsByte (node : IndexNode) : (UInt8.ofNat (node.internalFlags * 32 + node.recordNumber % 32)).toNat =
    node.internalFlags * 32 + node.recordNumber % 32 := by
  have hflags := internalFlags_lt node
  rw [UInt8.toNat_ofNat']
  omega

theorem decodes_endLevel (hend : node.isEndLevel = true) : Decodes (readNode leafNode)
    (node.writeNode leafNode) .endLevel := by
  have hquot : (node.internalFlags * 32 + node.recordNumber % 32) / 32 = btnEndLevelFlag := by
    have hlevel : node.internalFlags = btnEndLevelFlag := if_pos hend
    omega
  unfold readNode IndexNode.writeNode
  rw [if_pos hend]
  refine (decodes_getByte _).bind ?_
  rw [flagsByte, hquot]
  exact decodes_pure _

theorem decodes_writeNode (h : node.Fits leafNode) : Decodes (readNode leafNode) (node.writeNode leafNode) node := by
  by_cases hend : node.isEndLevel = true
  · have hread := @decodes_endLevel leafNode node hend
    rwa [← h.endLevel hend] at hread
  · have hend' := Bool.eq_false_of_not_eq_true hend
    have hquot : (node.internalFlags * 32 + node.recordNumber % 32) / 32 = node.internalFlags := by omega
    unfold readNode IndexNode.writeNode
    rw [if_neg hend]
    refine (decodes_getByte _).bind ?_
    rw [flagsByte, hquot, if_neg (internalFlags_endBucket hend').2]
    exact decodes_rest h hend'

theorem decodes_short {n : Nat} (h : n < 2 ^ 16) : Decodes getShort (shortBytes n) n := by
  have hvalue : (UInt8.ofNat n).toNat + 256 * (UInt8.ofNat (n / 256)).toNat = n := by
    rw [UInt8.toNat_ofNat', UInt8.toNat_ofNat']
    omega
  have hread := (decodes_getByte (UInt8.ofNat n)).bind (f := fun low => do
    let high ← getByte
    pure (low.toNat + 256 * high.toNat))
    ((decodes_getByte (UInt8.ofNat (n / 256))).map fun high => (UInt8.ofNat n).toNat + 256 * high.toNat)
  rw [hvalue] at hread
  exact hread

structure IndexJumpNode.Fits (jumpNode : IndexJumpNode) : Prop where
  prefixLen : jumpNode.prefixLen < 2 ^ 14
  length : jumpNode.length < 2 ^ 14
  offset : jumpNode.offset < 2 ^ 16

theorem decodes_writeJumpNode (h : jumpNode.Fits) : Decodes readJumpNode jumpNode.writeJumpNode jumpNode := by
  exact (decodes_size h.prefixLen).bind ((decodes_size h.length).bind ((decodes_short h.offset).bind
    ((decodes_getBytes jumpNode.data).map fun data => IndexJumpNode.mk jumpNode.prefixLen data jumpNode.offset)))

theorem groups_size {n : Nat} (h : n < 2 ^ 14) : (groups 128 1 n).length = sizeSize n := by
  unfold groups sizeSize
  by_cases hsmall : n / 128 = 0
  · rw [if_pos hsmall, if_neg (by omega), if_neg (by omega)]
    rfl
  · rw [if_neg hsmall, if_neg (by omega), if_pos (by omega)]
    rfl

theorem writeJumpNode_length (h : jumpNode.Fits) : jumpNode.writeJumpNode.length = jumpNode.getJumpNodeSize := by
  unfold IndexJumpNode.writeJumpNode IndexJumpNode.getJumpNodeSize
  rw [length_append, length_append, length_append, groups_size h.prefixLen, groups_size h.length]
  show _ + (_ + (2 + jumpNode.length)) = _
  omega

theorem writeNode_length (h : node.isEndLevel = false) : (node.writeNode leafNode).length =
    1 + (groups 256 4 (node.recordNumber / 32)).length + (node.pageNumberBytes leafNode).length +
    node.prefixBytes.length +
      node.lengthBytes.length + node.length := by
  unfold IndexNode.writeNode
  rw [length_cons, if_neg (Bool.eq_false_iff.mp h), length_append, length_append, length_append,
    length_append]
  show _ + (_ + (_ + (_ + node.length))) + 1 = _
  omega

theorem getPageNumber_bound (leafNode : Bool) (m : Memory) (p : Nat) :
    ((getPageNumber leafNode).read m p).1 < 2 ^ 32 ∧ (leafNode = true → ((getPageNumber leafNode).read m p).1 = 0) ∧
      p + (if leafNode then [] else groups 16 4 ((getPageNumber leafNode).read m p).1).length ≤
        ((getPageNumber leafNode).read m p).2 := by
  cases leafNode with
  | true => exact ⟨Nat.two_pow_pos 32, fun _ => rfl, Nat.le_refl _⟩
  | false =>
    obtain ⟨hlt, hsize⟩ := @getGroups_bound 16 4 (by decide) m p
    exact ⟨hlt.trans_eq (by decide), nofun, hsize⟩

theorem getSize_bound (m : Memory) (p : Nat) :
    (getSize.read m p).1 < 2 ^ 14 ∧ p + (groups 128 1 (getSize.read m p).1).length ≤ (getSize.read m p).2 := by
  obtain ⟨hlt, hsize⟩ := @getGroups_bound 128 1 (by decide) m p
  exact ⟨hlt.trans_eq (by decide), hsize⟩

theorem getPrefix_bound (flags : Nat) (m : Memory) (p : Nat) :
    ((getPrefix flags).read m p).1 < 2 ^ 14 ∧ p ≤ ((getPrefix flags).read m p).2 ∧
      (flags = btnZeroPrefixZeroLengthFlag → ((getPrefix flags).read m p).1 = 0) ∧
      (flags ≠ btnZeroPrefixZeroLengthFlag →
        p + (groups 128 1 ((getPrefix flags).read m p).1).length ≤ ((getPrefix flags).read m p).2) := by
  unfold getPrefix
  by_cases hzero : flags = btnZeroPrefixZeroLengthFlag
  · rw [if_pos hzero]
    exact ⟨Nat.two_pow_pos 14, Nat.le_refl _, fun _ => rfl, fun hne => absurd hzero hne⟩
  · rw [if_neg hzero]
    obtain ⟨hlt, hsize⟩ := getSize_bound m p
    exact ⟨hlt, (Nat.le_add_right ..).trans hsize, fun heq => absurd heq hzero, fun _ => hsize⟩

theorem getLength_bound (flags : Nat) (m : Memory) (p : Nat) :
    ((getLength flags).read m p).1 < 2 ^ 14 ∧ p ≤ ((getLength flags).read m p).2 ∧
      (flags = btnZeroLengthFlag ∨ flags = btnZeroPrefixZeroLengthFlag → ((getLength flags).read m p).1 = 0) ∧
      (flags = btnOneLengthFlag → ((getLength flags).read m p).1 = 1) ∧
      (¬ (flags = btnZeroLengthFlag ∨ flags = btnZeroPrefixZeroLengthFlag) → flags ≠ btnOneLengthFlag →
        p + (groups 128 1 ((getLength flags).read m p).1).length ≤ ((getLength flags).read m p).2) := by
  unfold getLength
  by_cases hzero : flags = btnZeroLengthFlag ∨ flags = btnZeroPrefixZeroLengthFlag
  · rw [if_pos hzero]
    refine ⟨Nat.two_pow_pos 14, Nat.le_refl _, fun _ => rfl, fun hone => ?_, fun hne => absurd hzero hne⟩
    rw [hone] at hzero
    exact absurd hzero (by decide)
  · rw [if_neg hzero]
    by_cases hone : flags = btnOneLengthFlag
    · rw [if_pos hone]
      exact ⟨Nat.one_lt_two_pow (by decide), Nat.le_refl _, fun h => absurd h hzero, fun _ => rfl,
        fun _ h => absurd hone h⟩
    · rw [if_neg hone]
      obtain ⟨hlt, hsize⟩ := getSize_bound m p
      exact ⟨hlt, (Nat.le_add_right ..).trans hsize, fun h => absurd h hzero, fun h => absurd h hone, fun _ _ => hsize⟩

theorem internalFlags_of_bucket (hend : node.isEndLevel = false) (h : node.isEndBucket = true) :
    node.internalFlags = btnEndBucketFlag := by
  unfold IndexNode.internalFlags
  rw [if_neg (Bool.eq_false_iff.mp hend), if_pos h]

theorem internalFlags_of_normal (hend : node.isEndLevel = false) (h : node.isEndBucket = false) : node.internalFlags =
    if node.length = 0 then if node.prefixLen = 0 then btnZeroPrefixZeroLengthFlag else btnZeroLengthFlag
    else if node.length = 1 then btnOneLengthFlag else 0 := by
  unfold IndexNode.internalFlags
  rw [if_neg (Bool.eq_false_iff.mp hend), if_neg (Bool.eq_false_iff.mp h)]

theorem lengthBytes_le {flags size : Nat} (hend : node.isEndLevel = false)
    (hbucket : node.isEndBucket = decide (flags = btnEndBucketFlag))
    (hzero : flags = btnZeroLengthFlag ∨ flags = btnZeroPrefixZeroLengthFlag → node.length = 0)
    (hone : flags = btnOneLengthFlag → node.length = 1)
    (hsize : ¬ (flags = btnZeroLengthFlag ∨ flags = btnZeroPrefixZeroLengthFlag) → flags ≠ btnOneLengthFlag →
      (groups 128 1 node.length).length ≤ size) : node.lengthBytes.length ≤ size := by
  unfold IndexNode.lengthBytes
  by_cases hb : node.isEndBucket = true
  · have hflags : flags = btnEndBucketFlag := of_decide_eq_true (hbucket.symm.trans hb)
    rw [internalFlags_of_bucket hend hb]
    exact hsize (by rw [hflags]; decide) (by rw [hflags]; decide)
  · rw [internalFlags_of_normal hend (Bool.eq_false_of_not_eq_true hb)]
    by_cases hlength : node.length = 0
    · rw [if_pos hlength]
      split <;> exact Nat.zero_le _
    · by_cases hlength' : node.length = 1
      · rw [if_neg hlength, if_pos hlength']
        exact Nat.zero_le _
      · rw [if_neg hlength, if_neg hlength']
        exact hsize (fun h => hlength (hzero h)) fun h => hlength' (hone h)

theorem prefixBytes_le {flags size : Nat} (hend : node.isEndLevel = false)
    (hbucket : node.isEndBucket = decide (flags = btnEndBucketFlag))
    (hlength : flags = btnZeroLengthFlag ∨ flags = btnZeroPrefixZeroLengthFlag → node.length = 0)
    (hzero : flags = btnZeroPrefixZeroLengthFlag → node.prefixLen = 0)
    (hsize : flags ≠ btnZeroPrefixZeroLengthFlag → (groups 128 1 node.prefixLen).length ≤ size) :
    node.prefixBytes.length ≤ size := by
  unfold IndexNode.prefixBytes
  by_cases hflags : flags = btnZeroPrefixZeroLengthFlag
  · have hb : node.isEndBucket = false := by
      rw [hbucket, hflags]
      rfl
    rw [internalFlags_of_normal hend hb, if_pos (hlength (.inr hflags)), if_pos (hzero hflags)]
    exact Nat.zero_le _
  · split
    · exact Nat.zero_le _
    · exact hsize hflags

theorem readNode_bound (leafNode : Bool) (m : Memory) (p : Nat) :
    ((readNode leafNode).read m p).1.Fits leafNode ∧
      p + (((readNode leafNode).read m p).1.writeNode leafNode).length ≤ ((readNode leafNode).read m p).2 := by
  have hread : (readNode leafNode).read m p = (if (m p).toNat / 32 = btnEndLevelFlag then pure .endLevel
      else readRest leafNode (m p).toNat : Cursor IndexNode).read m (p + 1) := rfl
  rw [hread]
  split
  case isTrue =>
    exact ⟨⟨fun _ => rfl, Nat.two_pow_pos 41, Nat.two_pow_pos 32, fun _ => rfl, Nat.two_pow_pos 14, Nat.two_pow_pos 14⟩,
      Nat.le_refl _⟩
  case isFalse =>
    generalize (m p).toNat = first
    rcases hreadNumber : getNumber.read m (p + 1) with ⟨number, p₁⟩
    rcases hreadPage : (getPageNumber leafNode).read m p₁ with ⟨pageNumber, p₂⟩
    rcases hreadPrefix : (getPrefix (first / 32)).read m p₂ with ⟨prefixLen, p₃⟩
    rcases hreadLength : (getLength (first / 32)).read m p₃ with ⟨length, p₄⟩
    have hnumber := @getGroups_bound 256 4 (by decide) m (p + 1)
    have hpage := getPageNumber_bound leafNode m p₁
    have hprefix := getPrefix_bound (first / 32) m p₂
    have hlength := getLength_bound (first / 32) m p₃
    have hnumber' : (getGroups 256 4).read m (p + 1) = (number, p₁) := hreadNumber
    rw [hnumber'] at hnumber
    rw [hreadPage] at hpage
    rw [hreadPrefix] at hprefix
    rw [hreadLength] at hlength
    dsimp only at hnumber hpage hprefix hlength
    obtain ⟨hnumberLt, hnumberSize⟩ := hnumber
    obtain ⟨hpageLt, hleaf, hpageSize⟩ := hpage
    obtain ⟨hprefixLt, hprefixLe, hprefixZero, hprefixSize⟩ := hprefix
    obtain ⟨hlengthLt, hlengthLe, hlengthZero, hlengthOne, hlengthSize⟩ := hlength
    have hdata : (((getBytes length).read m p₄).1).length = length := getBytes_length
    generalize hnode : IndexNode.mk prefixLen ((getBytes length).read m p₄).1 (first % 32 + 32 * number) pageNumber
      (decide (first / 32 = btnEndBucketFlag)) false = node
    have hrest : (readRest leafNode first).read m (p + 1) = (node, p₄ + length) := by
      unfold readRest
      rw [read_bind, hreadNumber, read_bind, hreadPage, read_bind, hreadPrefix, read_bind, hreadLength, ← hnode]
      rfl
    have hlen : node.length = length := by
      rw [← hnode]
      exact hdata
    have hfields : node.prefixLen = prefixLen ∧ node.recordNumber = first % 32 + 32 * number ∧
        node.pageNumber = pageNumber ∧
        node.isEndBucket = decide (first / 32 = btnEndBucketFlag) ∧ node.isEndLevel = false := by
      rw [← hnode]
      exact ⟨rfl, rfl, rfl, rfl, rfl⟩
    obtain ⟨hprefixLen, hrecord, hpageNumber, hbucket, hend⟩ := hfields
    rw [hrest]
    dsimp only
    refine ⟨⟨fun h => absurd (hend.symm.trans h) Bool.false_ne_true, by omega, by omega, fun h => hpageNumber.trans
      (hleaf h), by omega, by omega⟩, ?_⟩
    have hlengthBytes := @lengthBytes_le node (first / 32) (p₄ - p₃) hend hbucket (fun h => hlen.trans (hlengthZero h))
      (fun h => hlen.trans (hlengthOne h)) fun h h' => by
        rw [hlen]
        omega
    have hprefixBytes := @prefixBytes_le node (first / 32) (p₃ - p₂) hend hbucket (fun h => hlen.trans (hlengthZero h))
      (fun h => hprefixLen.trans (hprefixZero h)) fun h => by
        have hsize := hprefixSize h
        rw [hprefixLen]
        omega
    have hnumberBytes : p + 1 + (groups 256 4 (node.recordNumber / 32)).length ≤ p₁ := by
      have hquot : node.recordNumber / 32 = number := by omega
      rw [hquot]
      exact hnumberSize
    have hpageBytes : p₁ + (node.pageNumberBytes leafNode).length ≤ p₂ := by
      unfold IndexNode.pageNumberBytes
      rw [hpageNumber]
      exact hpageSize
    rw [writeNode_length hend]
    omega

end Firebird.Btr
