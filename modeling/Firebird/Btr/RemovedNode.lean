import Firebird.Btr.DeleteNode

/-! # A page without one of its nodes -/

namespace Firebird.Btr
open Lib Cursor List

variable {descending : Bool} {page : BtreePage} {pre post : List IndexNode} {removing next : IndexNode}
  {pointer p q : Nat} {key : Key} {leafNode : Bool}

/-- The next node gets the bytes that it shared with the removed one. -/
theorem nextAfter_key (hremoving : removing.prefixLen ≤ key.length) :
    (nextAfter removing next).key key = next.key (removing.key key) := by
  unfold nextAfter
  split
  case isTrue hlt =>
    unfold IndexNode.key
    rw [take_append, length_take_of_le hremoving, take_of_length_le (l := key.take removing.prefixLen) (by
      rw [length_take_of_le hremoving]
      exact Nat.le_of_lt hlt), append_assoc]
  case isFalse hle =>
    unfold IndexNode.key
    rw [take_append_of_le_length (by rw [length_take_of_le hremoving]; exact Nat.not_lt.mp hle), take_take,
      Nat.min_eq_left (Nat.not_lt.mp hle)]

theorem nextAfter_prefixLen (removing next : IndexNode) :
    (nextAfter removing next).prefixLen = min removing.prefixLen next.prefixLen := by
  unfold nextAfter
  split
  case isTrue hlt => exact (Nat.min_eq_left (Nat.le_of_lt hlt)).symm
  case isFalse hle => exact (Nat.min_eq_right (Nat.not_lt.mp hle)).symm

theorem nextAfter_entry (hremoving : removing.prefixLen ≤ key.length) :
    (nextAfter removing next).entry key = next.entry (removing.key key) := by
  unfold IndexNode.entry
  rw [nextAfter_key hremoving]
  unfold nextAfter
  split <;> rfl

theorem nextAfter_marks (removing next : IndexNode) :
    (nextAfter removing next).isEndBucket = next.isEndBucket ∧
    (nextAfter removing next).isEndLevel = next.isEndLevel := by
  unfold nextAfter
  split <;> exact ⟨rfl, rfl⟩

/-- It grows by no more than the removed node had. -/
theorem nextAfter_fits (hfits : next.Fits leafNode) (hremoving : removing.prefixLen ≤ key.length)
    (hkey : (next.key (removing.key key)).length ≤ maxKey) : (nextAfter removing next).Fits leafNode := by
  have hnew := @nextAfter_key removing next key hremoving
  have hlength : (nextAfter removing next).length ≤ maxKey := by
    have hsize := congrArg length hnew
    unfold IndexNode.key at hsize
    rw [length_append] at hsize
    unfold IndexNode.key at hkey
    unfold IndexNode.length
    omega
  have hprefix := nextAfter_prefixLen removing next
  have hle := hfits.prefixLen
  refine ⟨fun hend => ?_, ?_, ?_, ?_, by omega, hlength.trans_lt (by decide)⟩
  · have hnext := hfits.endLevel ((nextAfter_marks removing next).2.symm.trans hend)
    unfold nextAfter
    rw [if_neg (by rw [hnext]; exact Nat.not_lt_zero _)]
    exact hnext
  all_goals
    unfold nextAfter
    split
  · exact hfits.recordNumber
  · exact hfits.recordNumber
  · exact hfits.pageNumber
  · exact hfits.pageNumber
  all_goals exact hfits.leaf

theorem nextAfter_size (hfits : next.Fits leafNode) (hend : removing.isEndLevel = false) :
    ((nextAfter removing next).writeNode leafNode).length ≤
      (removing.writeNode leafNode).length + (next.writeNode leafNode).length := by
  unfold nextAfter
  split
  case isFalse => exact Nat.le_add_left ..
  case isTrue hlt =>
    have hnext : next.isEndLevel = false := by
      by_contra h
      rw [hfits.endLevel (Bool.eq_true_of_not_eq_false h)] at hlt
      exact Nat.not_lt_zero _ hlt
    generalize hnew : ({ next with
      prefixLen := removing.prefixLen
      data := removing.data.take (next.prefixLen - removing.prefixLen) ++ next.data } : IndexNode) = node
    have hnodeEnd : node.isEndLevel = false := by rw [← hnew]; exact hnext
    have hrecord : node.recordNumber = next.recordNumber := by rw [← hnew]
    have hpage : node.pageNumberBytes leafNode = next.pageNumberBytes leafNode := by
      rw [← hnew]
      rfl
    have hlength : node.length ≤ removing.length + next.length := by
      rw [← hnew]
      unfold IndexNode.length
      rw [length_append, length_take]
      omega
    -- the next node stores its prefix, as this is not empty
    have hprefix : node.prefixBytes.length ≤ next.prefixBytes.length := by
      have hflags : next.internalFlags ≠ btnZeroPrefixZeroLengthFlag := by
        cases hb : next.isEndBucket with
        | true => rw [internalFlags_of_bucket hnext hb]; decide
        | false =>
          rw [internalFlags_of_normal hnext hb, if_neg (Nat.ne_of_gt (Nat.zero_lt_of_lt hlt))]
          split
          · decide
          · split <;> decide
      unfold IndexNode.prefixBytes
      split
      · exact Nat.zero_le _
      · refine groups_length_mono ?_
        rw [← hnew]
        exact Nat.le_of_lt hlt
    have hlengthBytes : node.lengthBytes.length ≤ 2 := by
      unfold IndexNode.lengthBytes
      split
      · exact Nat.zero_le _
      · exact groups_length_le
    have hremovingSize := @writeNode_length leafNode removing hend
    have hpos : 0 < (groups 256 4 (removing.recordNumber / 32)).length := groups_length_pos
    rw [writeNode_length hnodeEnd, writeNode_length hnext, hrecord, hpage]
    omega

/-- A node that is no end of the level is removed, between the nodes before it and the one behind. -/
structure Removing (descending : Bool) (page : BtreePage) (pre : List IndexNode) (removing next : IndexNode)
    (post : List IndexNode) (pointer offsetNextPoint localPointer : Nat) : Prop where
  chainPre : Chain page.leafPage page.bytes page.firstNode pre pointer
  read : (readNode page.leafPage).read page.bytes pointer = (removing, offsetNextPoint)
  readNext : (readNode page.leafPage).read page.bytes offsetNextPoint = (next, localPointer)
  chainPost : Chain page.leafPage page.bytes localPointer post page.length
  compressed : Compressed [] (pre ++ removing :: next :: post)
  inOrder : InOrder descending true [] (pre ++ removing :: next :: post)
  normal : removing.isEndLevel = false

variable {offsetNextPoint localPointer : Nat}

/-- A node that is no mark has a node behind it. -/
theorem ValidPage.around {jumps : List IndexJumpNode} {rest : List IndexNode}
    (h : ValidPage descending page (pre ++ removing :: rest) jumps)
    (hnormal : removing.isEndBucket = false ∧ removing.isEndLevel = false)
    (hpre : Chain page.leafPage page.bytes page.firstNode pre pointer) : ∃ next post offsetNextPoint localPointer,
      rest = next :: post ∧ Removing descending page pre removing next post pointer offsetNextPoint localPointer := by
  obtain ⟨p, hchain, hrest⟩ := chain_append.mp h.chain
  obtain rfl := hchain.end_eq hpre
  obtain ⟨offsetNextPoint, hread, hrest⟩ := hrest
  cases rest with
  | nil =>
    obtain ⟨init, last, hnodes, hlast, -⟩ := h.marked
    obtain rfl : removing = last := singleton_inj.mp (append_inj_right' hnodes rfl)
    rw [hnormal.1, hnormal.2] at hlast
    exact absurd hlast Bool.false_ne_true
  | cons next post =>
    obtain ⟨localPointer, hnext, hpost⟩ := hrest
    exact ⟨next, post, offsetNextPoint, localPointer, rfl, hpre, hread, hnext, hpost,
      h.compressed, h.inOrder, hnormal.2⟩

namespace Removing
variable (h : Removing descending page pre removing next post pointer offsetNextPoint localPointer)
include h

theorem prefixLen_le : removing.prefixLen ≤ (keyAfter [] pre).length := (compressed_append.mp h.compressed).2.1.1

theorem next_fits : next.Fits page.leafPage := by
  have hbound := (readNode_bound page.leafPage page.bytes offsetNextPoint).1
  rw [h.readNext] at hbound
  exact hbound

theorem fits : (nextAfter removing next).Fits page.leafPage :=
  nextAfter_fits h.next_fits h.prefixLen_le (compressed_append.mp h.compressed).2.2.1.2.1

theorem lt : pointer < offsetNextPoint ∧ offsetNextPoint < localPointer ∧ localPointer ≤ page.length := by
  have hfirst := readNode_lt page.leafPage page.bytes pointer
  have hsecond := readNode_lt page.leafPage page.bytes offsetNextPoint
  rw [h.read] at hfirst
  rw [h.readNext] at hsecond
  exact ⟨hfirst, hsecond, h.chainPost.le⟩

theorem size_le : pointer + ((nextAfter removing next).writeNode page.leafPage).length ≤ localPointer := by
  have hfirst := (readNode_bound page.leafPage page.bytes pointer).2
  have hsecond := (readNode_bound page.leafPage page.bytes offsetNextPoint).2
  rw [h.read] at hfirst
  rw [h.readNext] at hsecond
  have hsize := nextAfter_size h.next_fits h.normal
  dsimp only at hfirst hsecond
  omega

/-- What `removeNode` makes of the page, with the next node written where the removed one was -/
theorem removeNode_eq : removeNode page pointer = { page with
    prefixTotal := page.prefixTotal - (removing.prefixLen + (next.prefixLen - (nextAfter removing next).prefixLen))
    bytes := move (put page.bytes pointer ((nextAfter removing next).writeNode page.leafPage))
      (pointer + ((nextAfter removing next).writeNode page.leafPage).length) localPointer (page.length - localPointer)
    length := pointer + ((nextAfter removing next).writeNode page.leafPage).length +
      (page.length - localPointer) } := by
  unfold removeNode BtreePage.readNode
  rw [h.read]
  dsimp only
  rw [h.readNext]

/-- The bytes before the removed node stay, those behind the next node move together. -/
theorem bytes_of_lt {i : Nat} (hi : i < pointer) : (removeNode page pointer).bytes i = page.bytes i := by
  rw [h.removeNode_eq]
  exact (move_of_lt (hi.trans_le (Nat.le_add_right ..))).trans (put_of_lt hi)

theorem holds : Holds (removeNode page pointer).bytes pointer ((nextAfter removing next).writeNode page.leafPage) := by
  intro i hi
  rw [h.removeNode_eq]
  exact (move_of_lt (Nat.add_lt_add_left hi _)).trans (holds_put i hi)

theorem bytes_of_post {i : Nat} (hi : localPointer + i < page.length) : (removeNode page pointer).bytes
    (pointer + ((nextAfter removing next).writeNode page.leafPage).length + i) = page.bytes (localPointer + i) := by
  rw [h.removeNode_eq]
  refine (move_of_mem (by omega)).trans (put_of_le ?_)
  exact h.size_le.trans (Nat.le_add_right ..)

theorem chain_pre {xs : List IndexNode} (hxs : Chain page.leafPage page.bytes page.firstNode xs p) (hp : p ≤ pointer) :
    Chain page.leafPage (removeNode page pointer).bytes page.firstNode xs p :=
  hxs.congr fun _ _ hi => h.bytes_of_lt (hi.trans_le hp)

theorem read_new : (readNode page.leafPage).read (removeNode page pointer).bytes pointer =
    (nextAfter removing next, pointer + ((nextAfter removing next).writeNode page.leafPage).length) :=
  decodes_writeNode h.fits _ _ h.holds

theorem chain_post {mid : List IndexNode} (hmid : Chain page.leafPage page.bytes localPointer mid q)
    (hq : q ≤ page.length) : Chain page.leafPage (removeNode page pointer).bytes
      (pointer + ((nextAfter removing next).writeNode page.leafPage).length) mid
      (pointer + ((nextAfter removing next).writeNode page.leafPage).length + (q - localPointer)) :=
  hmid.shift fun _ hi => h.bytes_of_post (hi.trans_le hq)

theorem length_eq : (removeNode page pointer).length =
    pointer + ((nextAfter removing next).writeNode page.leafPage).length + (page.length - localPointer) := by
  rw [h.removeNode_eq]

/-- All nodes but the removed one are on the page. -/
theorem chain : Chain page.leafPage (removeNode page pointer).bytes page.firstNode
    (pre ++ nextAfter removing next :: post) (removeNode page pointer).length := by
  rw [h.length_eq]
  exact chain_append.mpr ⟨pointer, h.chain_pre h.chainPre (Nat.le_refl _), _, h.read_new,
    h.chain_post h.chainPost (Nat.le_refl _)⟩

theorem key_eq : (nextAfter removing next).key (keyAfter [] pre) = next.key (removing.key (keyAfter [] pre)) :=
  nextAfter_key h.prefixLen_le

theorem keyAfter_mid (mid : List IndexNode) :
    keyAfter [] (pre ++ nextAfter removing next :: mid) = keyAfter [] (pre ++ removing :: next :: mid) := by
  rw [keyAfter_append, keyAfter_append]
  exact congrArg (keyAfter · mid) h.key_eq

/-- Exactly the entry of the removed node is gone. -/
theorem entries_eq : entries [] (pre ++ nextAfter removing next :: post) =
    (entries [] (pre ++ removing :: next :: post)).eraseIdx pre.length := by
  rw [entries_append, entries_append, ← entries_length [] pre, eraseIdx_append_of_length_le
    (Nat.le_refl _), Nat.sub_self]
  refine congrArg (entries [] pre ++ ·) ?_
  show (nextAfter removing next).entry _ :: entries ((nextAfter removing next).key _) post = next.entry
      _ :: entries (next.key _) post
  rw [nextAfter_entry h.prefixLen_le, h.key_eq]

/-- Its neighbours are in order, and the next one shares what it can. -/
theorem next_order (hend : next.isEndLevel = false) :
    (startAfter true [] pre = true ∨ StringLe descending (keyAfter [] pre)
      (next.key (removing.key (keyAfter [] pre)))) ∧
      min removing.prefixLen next.prefixLen = computePrefix (keyAfter [] pre)
      (next.key (removing.key (keyAfter [] pre))) := by
  obtain ⟨-, ⟨-, -, hremoving⟩, ⟨-, -, hnext⟩, -⟩ := compressed_append.mp h.compressed
  obtain ⟨-, hfirst, hsecond, -⟩ := inOrder_append.mp h.inOrder
  rw [hremoving h.normal, hnext hend]
  by_cases hstart : startAfter true [] pre = true
  · obtain ⟨-, hnil⟩ := startAfter_nil (fun _ => rfl) hstart
    rw [hnil]
    unfold computePrefix
    exact ⟨.inl hstart, rfl⟩
  · have hle₁ := (hfirst h.normal).resolve_left hstart
    have hle₂ := (hsecond hend).resolve_left fun hand => hstart (Bool.and_eq_true_iff.mp hand).1
    exact ⟨.inr (hle₁.trans hle₂), (commonPrefix_between hle₁ hle₂).symm⟩

theorem compressed' : Compressed [] (pre ++ nextAfter removing next :: post) := by
  obtain ⟨hpre, ⟨hle, -, -⟩, ⟨-, hlength, -⟩, hpost⟩ := compressed_append.mp h.compressed
  refine compressed_append.mpr ⟨hpre, ⟨?_, by rw [h.key_eq]; exact hlength, fun hend =>
    ?_⟩, by rw [h.key_eq]; exact hpost⟩
  · rw [nextAfter_prefixLen]
    exact (Nat.min_le_left ..).trans hle
  · rw [h.key_eq, nextAfter_prefixLen]
    exact (h.next_order ((nextAfter_marks removing next).2.symm.trans hend)).2

theorem inOrder' : InOrder descending true [] (pre ++ nextAfter removing next :: post) := by
  obtain ⟨hpre, -, -, hpost⟩ := inOrder_append.mp h.inOrder
  refine inOrder_append.mpr ⟨hpre, fun hend => ?_, ?_⟩
  · rw [h.key_eq]
    exact (h.next_order ((nextAfter_marks removing next).2.symm.trans hend)).1
  · rw [h.key_eq]
    refine hpost.mono fun hand => ?_
    obtain ⟨hstart, hkey⟩ := Bool.and_eq_true_iff.mp hand
    exact Bool.and_eq_true_iff.mpr ⟨(Bool.and_eq_true_iff.mp hstart).1, hkey⟩

omit h in
/-- Of two places in one list, the first is before, at or behind the second. -/
theorem split_cases {α : Type} {xs ys xs' ys' : List α} {x x' : α} (heq : xs ++ x :: ys = xs' ++ x' :: ys') :
    (∃ mid, xs = xs' ++ x' :: mid ∧ ys' = mid ++ x :: ys) ∨ (xs = xs' ∧ x = x' ∧ ys = ys') ∨
      ∃ mid, xs' = xs ++ x :: mid ∧ ys = mid ++ x' :: ys' := by
  rcases append_eq_append_iff.mp heq with ⟨as, hxs', hys⟩ | ⟨bs, hxs, hys⟩
  · cases as with
    | nil =>
      rw [nil_append, cons.injEq] at hys
      rw [append_nil] at hxs'
      exact .inr (.inl ⟨hxs'.symm, hys⟩)
    | cons a as =>
      rw [cons_append, cons.injEq] at hys
      exact .inr (.inr ⟨as, by rw [hxs', hys.1], hys.2⟩)
  · cases bs with
    | nil =>
      rw [nil_append, cons.injEq] at hys
      rw [append_nil] at hxs
      exact .inr (.inl ⟨hxs, hys.1.symm, hys.2.symm⟩)
    | cons a bs =>
      rw [cons_append, cons.injEq] at hys
      exact .inl ⟨bs, by rw [hxs, hys.1], hys.2⟩

omit h in
/-- Nodes behind `xs` begin where `xs` end. -/
theorem chain_between {m : Memory} {xs zs : List IndexNode} {start : Nat} (hxs : Chain leafNode m start xs p)
    (hall : Chain leafNode m start (xs ++ zs) q) : Chain leafNode m p zs q := by
  obtain ⟨r, hfirst, hrest⟩ := chain_append.mp hall
  exact hfirst.end_eq hxs ▸ hrest

end Removing

def deletionAt (page : BtreePage) (pointer offsetNextPoint : Nat) : Deletion :=
  ⟨removeNode page pointer, pointer, offsetNextPoint, page.length - (removeNode page pointer).length⟩

/-- A node of the old page, where it is on the new one and what it says there -/
structure Relocated (page : BtreePage) (pre : List IndexNode) (removing next : IndexNode) (post : List IndexNode)
    (pointer offsetNextPoint localPointer : Nat) (xs : List IndexNode) (node : IndexNode) (offset : Nat)
    (xs' : List IndexNode) (node' : IndexNode) : Prop where
  nodes : ∃ ys, pre ++ nextAfter removing next :: post = xs' ++ node' :: ys
  chain : Chain page.leafPage (removeNode page pointer).bytes page.firstNode xs'
    ((deletionAt page pointer offsetNextPoint).newOffset offset)
  le : node'.prefixLen ≤ node.prefixLen
  key : (keyAfter [] xs').take node'.prefixLen = ((keyAfter [] xs).take node.prefixLen).take node'.prefixLen
  place : (offset < pointer ∧ node' = node ∧ xs' = xs ∧ ∃ ys, pre = xs ++ node :: ys) ∨
    (offset = offsetNextPoint ∧ xs' = pre ∧ xs = pre ++ [removing] ∧ node = next ∧
      node'.prefixLen = min removing.prefixLen next.prefixLen) ∨
    (localPointer ≤ offset ∧ node' = node ∧ xs' ≠ [])

namespace Removing
variable (h : Removing descending page pre removing next post pointer offsetNextPoint localPointer)
include h

theorem delta_eq : page.length - (removeNode page pointer).length =
    localPointer - (pointer + ((nextAfter removing next).writeNode page.leafPage).length) := by
  have hlt := h.lt
  rw [h.length_eq]
  omega

/-- Jump nodes that do not lead to the removed node lead to where their nodes are now. -/
theorem relocated {xs ys : List IndexNode} {node : IndexNode} {offset : Nat}
    (hnodes : pre ++ removing :: next :: post = xs ++ node :: ys)
    (hchain : Chain page.leafPage page.bytes page.firstNode xs offset)
    (hkept : offset < pointer ∨ offsetNextPoint ≤ offset) :
    ∃ xs' node', Relocated page pre removing next post pointer offsetNextPoint localPointer xs
    node offset xs' node' := by
  have hlt := h.lt
  have hsize := h.size_le
  rcases split_cases hnodes with ⟨mid, hpre, hys⟩ | ⟨hpre, -, -⟩ | ⟨mid, hxs, hpost⟩
  · -- the node is before
    have hrest := chain_between hchain (hpre ▸ h.chainPre)
    have hbefore : offset < pointer := hrest.lt
    have hoffset : (deletionAt page pointer offsetNextPoint).newOffset offset = offset := by
      unfold deletionAt Deletion.newOffset
      dsimp only
      rw [if_neg (by omega), if_neg (by omega)]
    refine ⟨xs, node, ⟨⟨mid ++ nextAfter removing next :: post, by rw [hpre, append_assoc]; rfl⟩, ?_, Nat.le_refl _, ?_,
      .inl ⟨hbefore, rfl, rfl, mid, hpre⟩⟩⟩
    · rw [hoffset]
      exact h.chain_pre hchain (Nat.le_of_lt hbefore)
    · rw [take_take, Nat.min_self]
  · -- the node is the removed one
    have hoffset := (hpre ▸ hchain : Chain page.leafPage page.bytes page.firstNode pre offset).end_eq h.chainPre
    omega
  · cases mid with
    | nil =>
      -- the node is the next one
      obtain ⟨rfl, rfl⟩ := cons.inj hpost
      have hone : Chain page.leafPage page.bytes pointer [removing] offset := chain_between h.chainPre (hxs ▸ hchain)
      have hoffset : offset = offsetNextPoint := by
        obtain ⟨r, hread, hend⟩ := hone
        rw [h.read] at hread
        exact hend.symm.trans (congrArg Prod.snd hread).symm
      have hnew : (deletionAt page pointer offsetNextPoint).newOffset offset = pointer := if_pos hoffset
      refine ⟨pre, nextAfter removing next,
        ⟨⟨post, rfl⟩, ?_, ?_, ?_, .inr (.inl ⟨hoffset, rfl, hxs, rfl, nextAfter_prefixLen ..⟩)⟩⟩
      · rw [hnew]
        exact h.chain_pre h.chainPre (Nat.le_refl _)
      · rw [nextAfter_prefixLen]
        exact Nat.min_le_right ..
      · rw [hxs, keyAfter_append, take_take, nextAfter_prefixLen,
          Nat.min_eq_left (Nat.min_le_right removing.prefixLen next.prefixLen)]
        show _ = (removing.key (keyAfter [] pre)).take _
        unfold IndexNode.key
        rw [take_append_of_le_length (by rw [length_take_of_le h.prefixLen_le]; exact Nat.min_le_left ..),
          take_take, Nat.min_eq_left (Nat.min_le_left removing.prefixLen next.prefixLen)]
    | cons first mid =>
      -- the node is behind
      obtain ⟨hfirst, hrest⟩ := cons.inj hpost
      subst hfirst
      have hmid : Chain page.leafPage page.bytes localPointer mid offset := by
        obtain ⟨r, hread, hrest⟩ := chain_between h.chainPre (hxs ▸ hchain)
        rw [h.read] at hread
        obtain rfl : offsetNextPoint = r := congrArg Prod.snd hread
        obtain ⟨r, hread, hrest⟩ := hrest
        rw [h.readNext] at hread
        obtain rfl : localPointer = r := congrArg Prod.snd hread
        exact hrest
      have hle := hmid.le
      have hend : offset ≤ page.length := (chain_between hmid (hrest ▸ h.chainPost)).le
      have hoffset : (deletionAt page pointer offsetNextPoint).newOffset offset =
          pointer + ((nextAfter removing next).writeNode page.leafPage).length + (offset - localPointer) := by
        unfold deletionAt Deletion.newOffset
        dsimp only
        rw [if_neg (by omega), if_pos (by omega), h.delta_eq]
        omega
      refine ⟨pre ++ nextAfter removing next :: mid, node, ⟨⟨ys, by rw [hrest, append_assoc]; rfl⟩, ?_, Nat.le_refl _,
        ?_, .inr (.inr ⟨hle, rfl, by simp⟩)⟩⟩
      · rw [hoffset]
        exact chain_append.mpr ⟨pointer, h.chain_pre h.chainPre (Nat.le_refl _), _, h.read_new, h.chain_post hmid hend⟩
      · rw [h.keyAfter_mid, hxs, take_take, Nat.min_self]

end Removing
end Firebird.Btr
