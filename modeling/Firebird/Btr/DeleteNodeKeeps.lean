import Firebird.Btr.JumpKeys

/-! # A page stays valid without one of its nodes -/

namespace Firebird.Btr
open Lib Cursor List

variable {descending : Bool} {page : BtreePage} {pre post nodes xs : List IndexNode} {removing next node : IndexNode}
  {pointer offsetNextPoint localPointer : Nat} {jumpNode : IndexJumpNode} {oldKey K : Key}
  {offset o pos : Nat} {s : Rebuild}

theorem readJumpNode_size {m : Memory} {p r : Nat} (h : readJumpNode.read m p = (jumpNode, r)) :
    p + 4 + jumpNode.length ≤ r := by
  have hprefix := (getSize_bound m p).2
  have hlength := (getSize_bound m (getSize.read m p).2).2
  have hpos : 0 < (groups 128 1 (getSize.read m p).1).length := groups_length_pos
  have hpos' : 0 < (groups 128 1 (getSize.read m (getSize.read m p).2).1).length := groups_length_pos
  generalize hread : getSize.read m p = first at *
  generalize hread' : getSize.read m first.2 = second at *
  have hread'' : readJumpNode.read m p = (⟨first.1, ((getBytes second.1).read m (second.2 + 2)).1,
      (m second.2).toNat + 256 * (m (second.2 + 1)).toNat⟩, second.2 + 2 + second.1) := by
    unfold readJumpNode
    rw [read_bind, hread, read_bind, hread']
    rfl
  rw [hread''] at h
  obtain ⟨rfl, rfl⟩ := Prod.mk.inj h
  have hdata : ((getBytes second.1).read m (second.2 + 2)).1.length = second.1 := getBytes_length
  unfold IndexJumpNode.length
  dsimp only
  omega

/-- An old place that is still a place. -/
def Placed (pointer offsetNextPoint localPointer offset : Nat) : Prop :=
  offset < pointer ∨ offset = offsetNextPoint ∨ localPointer ≤ offset

namespace Removing
variable (h : Removing descending page pre removing next post pointer offsetNextPoint localPointer)
include h

theorem newOffset_lt {offset' : Nat} (hlt : offset < offset')
    (hplaced : Placed pointer offsetNextPoint localPointer offset)
    (hplaced' : Placed pointer offsetNextPoint localPointer offset') :
    (deletionAt page pointer offsetNextPoint).newOffset offset < (deletionAt page pointer offsetNextPoint).newOffset
    offset' := by
  have hpos : 0 < ((nextAfter removing next).writeNode page.leafPage).length := Nat.succ_pos _
  have horder := h.lt
  unfold Placed at hplaced hplaced'
  unfold deletionAt Deletion.newOffset
  dsimp only
  rw [h.delta_eq]
  split <;> split <;> (try split) <;> (try split) <;> omega

theorem at_pointer (hat : AtNode page (pre ++ removing :: next :: post) offset xs node) (hle : pointer ≤ offset)
    (hlt : offset < offsetNextPoint) : offset = pointer ∧ xs = pre ∧ node = removing := by
  obtain ⟨post', hnodes⟩ := hat.nodes
  rcases split_cases hnodes with ⟨mid, hpre, -⟩ | ⟨hpre, hnode, -⟩ | ⟨mid, hxs, -⟩
  · have hbefore := (chain_between hat.chain (hpre ▸ h.chainPre)).lt
    omega
  · exact ⟨(hat.chain.end_eq (hpre ▸ h.chainPre)), hpre.symm, hnode.symm⟩
  · obtain ⟨r, hread, hrest⟩ := chain_between h.chainPre (hxs ▸ hat.chain)
    rw [h.read] at hread
    obtain rfl : offsetNextPoint = r := congrArg Prod.snd hread
    have hle' := hrest.le
    omega

theorem sound (hlength : page.length < 2 ^ 16) :
    (deletionAt page pointer offsetNextPoint).Sound (pre ++ nextAfter removing next :: post) := by
  have hlt := h.lt
  have hsize := h.size_le
  have hnew := h.length_eq
  refine ⟨?_, h.compressed', ?_⟩
  · have hpage : (removeNode page pointer).leafPage = page.leafPage ∧
        (removeNode page pointer).firstNode = page.firstNode := by
      exact ⟨rfl, rfl⟩
    show Chain (removeNode page pointer).leafPage _ (removeNode page pointer).firstNode _ _
    exact h.chain
  · show (removeNode page pointer).length < _
    omega

end Removing

theorem le_keyAfter {key : Key} {start : Bool} (horder : InOrder descending start key nodes) (hstart : start = false)
    (hnormal : ∀ node ∈ nodes, node.isEndLevel = false) : StringLe descending key (keyAfter key nodes) := by
  subst hstart
  induction nodes generalizing key with
  | nil => exact .refl key
  | cons node nodes ih =>
    obtain ⟨hnode, hnodes⟩ := forall_mem_cons.mp hnormal
    exact ((horder.1 hnode).resolve_left Bool.false_ne_true).trans (ih hnodes horder.2)

theorem startAfter_false {start : Bool} {key : Key} (hstart : start = false) : startAfter start key nodes = false := by
  subst hstart
  induction nodes generalizing key with
  | nil => rfl
  | cons node nodes ih => exact ih

theorem common_le_removing {mid : List IndexNode} {n : Nat} (hkeys : Compressed [] (xs ++ node :: mid ++ [removing]))
    (horder : InOrder descending true [] (xs ++ node :: mid ++ [removing]))
    (hmid : ∀ node ∈ mid, node.isEndLevel = false) (hnormal : removing.isEndLevel = false)
    (hn : n ≤ (node.key (keyAfter [] xs)).length)
    (hn' : n ≤ (removing.key (keyAfter [] (xs ++ node :: mid))).length)
    (hcommon : (node.key (keyAfter [] xs)).take n = (removing.key (keyAfter [] (xs ++ node :: mid))).take n) :
    n ≤ removing.prefixLen := by
  obtain ⟨-, ⟨-, -, hremoving⟩, -⟩ := compressed_append.mp hkeys
  obtain ⟨hbefore, hlast, -⟩ := inOrder_append.mp horder
  obtain ⟨-, -, horderMid⟩ := inOrder_append.mp hbefore
  have hend : keyAfter (node.key (keyAfter [] xs)) mid = keyAfter [] (xs ++ node :: mid) := by
    rw [keyAfter_append]
    rfl
  by_cases hempty : (startAfter true [] xs && (node.key (keyAfter [] xs)).isEmpty) = true
  · rw [isEmpty_iff.mp (Bool.and_eq_true_iff.mp hempty).2] at hn
    exact hn.trans (Nat.zero_le _)
  · have hstart := Bool.eq_false_of_not_eq_true hempty
    have hmidLe := le_keyAfter horderMid hstart hmid
    rw [hend] at hmidLe
    have hstart' : startAfter true [] (xs ++ node :: mid) = false := by
      rw [startAfter_append]
      show startAfter (startAfter true [] xs && (node.key (keyAfter [] xs)).isEmpty) _ mid = false
      exact startAfter_false hstart
    have hle := (hlast hnormal).resolve_left (Bool.eq_false_iff.mp hstart')
    calc n ≤ commonPrefix (node.key (keyAfter [] xs)) (removing.key (keyAfter [] (xs ++ node :: mid))) :=
          le_commonPrefix hn hn' hcommon
      _ = _ := commonPrefix_between hmidLe hle
      _ ≤ commonPrefix (keyAfter [] (xs ++ node :: mid)) (removing.key (keyAfter [] (xs ++ node :: mid))) :=
        Nat.min_le_right ..
      _ = removing.prefixLen := (hremoving hnormal).symm

/-! ### The loop over the jump nodes -/

/-- No jump node was removed just before. The new jump key is the old one, but for a part that was cut where the jump
node led to the next node. -/
structure Plain (pre : List IndexNode) (offsetNextPoint : Nat) (oldKey : Key) (offset pos : Nat) (K : Key)
    (s : Rebuild) : Prop where
  rebuild : s.rebuild = false
  key : K = oldKey.take K.length
  before : offset < offsetNextPoint → K = oldKey ∧
    (oldKey = [] ∨ ∃ xs node ys, pre = xs ++ node :: ys ∧ oldKey = (keyAfter [] xs).take node.prefixLen)
  first : s.jumpNodes = [] → oldKey = []
  room : s.tempData + (oldKey.length - K.length) + btrNodes ≤ pos

/-- A jump node was removed just before, as it led to the removed node or would lead to the first node. -/
structure Dropped (pre : List IndexNode) (removing : IndexNode) (pointer offsetNextPoint : Nat) (oldKey : Key)
    (offset pos : Nat) (K : Key) (s : Rebuild) : Prop where
  rebuild : s.rebuild = true
  le : s.delJumpNode.prefixLen ≤ K.length
  key : oldKey = K.take s.delJumpNode.prefixLen ++ s.delJumpNode.data
  room : s.tempData + s.delJumpNode.length + btrNodes ≤ pos
  place : (offset = pointer ∧ pre ≠ [] ∧ oldKey.length = removing.prefixLen) ∨ (offset = offsetNextPoint ∧ pre = [])

structure Loop (page : BtreePage) (pre : List IndexNode) (removing next : IndexNode) (post : List IndexNode)
    (pointer offsetNextPoint localPointer : Nat) (oldKey : Key) (offset pos : Nat) (K : Key) (o : Nat)
    (s : Rebuild) : Prop where
  kept : Deletion.Kept (deletionAt page pointer offsetNextPoint) (pre ++ nextAfter removing next :: post) K o s
  order : ∀ offset', offset < offset' → Placed pointer offsetNextPoint localPointer offset' →
    o < (deletionAt page pointer offsetNextPoint).newOffset offset'
  phase : Plain pre offsetNextPoint oldKey offset pos K s ∨ Dropped pre removing pointer offsetNextPoint oldKey offset
    pos K s

theorem moved_plain (d : Deletion) (jumpNode : IndexJumpNode) (hrebuild : s.rebuild = false) :
    d.moved s jumpNode = { jumpNode with offset := d.newOffset jumpNode.offset } ∧
    d.movedKey s jumpNode = s.jumpKey := by
  unfold Deletion.moved Deletion.movedKey
  rw [if_neg (by rw [hrebuild]; exact fun hand => Bool.false_ne_true hand.1)]
  exact ⟨rfl, if_neg (by rw [hrebuild]; exact fun hand => Bool.false_ne_true hand.1)⟩

theorem moved_dropped (d : Deletion) (jumpNode : IndexJumpNode)
    (hdropped : Dropped pre removing pointer offsetNextPoint oldKey offset pos K s) (hknows : s.jumpKey.Knows K) :
    (d.moved s jumpNode).offset = d.newOffset jumpNode.offset ∧
      (d.moved s jumpNode).prefixLen = min jumpNode.prefixLen s.delJumpNode.prefixLen ∧
      K.take (d.moved s jumpNode).prefixLen ++ (d.moved s jumpNode).data = oldKey.take jumpNode.prefixLen ++
      jumpNode.data ∧ Holds (d.movedKey s jumpNode).keyData 0 (K.take (d.moved s jumpNode).prefixLen) := by
  obtain ⟨hrebuild, hdel, hkey, -, -⟩ := hdropped
  unfold Deletion.movedKey Deletion.moved
  by_cases hmore : s.delJumpNode.prefixLen < jumpNode.prefixLen
  · rw [if_pos ⟨hrebuild, hmore⟩, if_pos ⟨hrebuild, hmore⟩]
    refine ⟨rfl, (Nat.min_eq_right (Nat.le_of_lt hmore)).symm, ?_, fun i hi => ?_⟩
    · rw [hkey, take_append, length_take_of_le hdel, take_take, Nat.min_eq_right (Nat.le_of_lt hmore),
        append_assoc]
    · have hlt : 0 + i < s.delJumpNode.prefixLen := by
        rw [length_take_of_le hdel] at hi
        omega
      exact (put_of_lt hlt).trans (holds_take hknows.holds i hi)
  · rw [if_neg fun hand => hmore hand.2, if_neg fun hand => hmore hand.2]
    have hle' := Nat.not_lt.mp hmore
    refine ⟨rfl, (Nat.min_eq_left hle').symm, ?_, holds_take hknows.holds⟩
    rw [hkey, take_append_of_le_length (by rw [length_take_of_le hdel]; exact hle'), take_take, Nat.min_eq_left hle']

theorem deletionAt_page_eq :
    (deletionAt page pointer offsetNextPoint).page.leafPage = page.leafPage ∧
      (deletionAt page pointer offsetNextPoint).page.firstNode = page.firstNode ∧
      (deletionAt page pointer offsetNextPoint).page.jumpSize = page.jumpSize := by
  show (removeNode page pointer).leafPage = _ ∧ (removeNode page pointer).firstNode = _ ∧
      (removeNode page pointer).jumpSize = _
  exact ⟨rfl, rfl, rfl⟩

structure JumpStep (descending : Bool) (page : BtreePage) (pre : List IndexNode)
    (removing next : IndexNode) (post : List IndexNode)
    (pointer offsetNextPoint localPointer : Nat) (oldKey : Key) (offset : Nat) (jumpNode : IndexJumpNode)
    (xs : List IndexNode) (node : IndexNode) (xs' : List IndexNode) (node' : IndexNode) : Prop where
  around : Removing descending page pre removing next post pointer offsetNextPoint localPointer
  leads : LeadsTo page (pre ++ removing :: next :: post) oldKey jumpNode xs node
  relocated : Relocated page pre removing next post pointer offsetNextPoint localPointer xs node
    jumpNode.offset xs' node'
  ne : xs' ≠ []
  lt : offset < jumpNode.offset

structure FitsIn (d : Deletion) (nodes : List IndexNode) (K : Key) (pos : Nat) (s : Rebuild) (jumpNode : IndexJumpNode)
    (xs' : List IndexNode) (node' : IndexNode) : Prop where
  fitted : Deletion.Fitted d nodes K xs' node' (d.moved s jumpNode)
    (d.fit node'.prefixLen s.jumpNodes.getLast? (d.movedKey s jumpNode) (d.moved s jumpNode))
  offset : (d.moved s jumpNode).offset = d.newOffset jumpNode.offset
  length : (d.moved s jumpNode).prefixLen + (d.moved s jumpNode).length = jumpNode.prefixLen + jumpNode.length
  room : s.tempData + (jumpNode.prefixLen + jumpNode.length - min (d.moved s jumpNode).prefixLen K.length) + btrNodes ≤
    pos + jumpNode.length

namespace JumpStep
variable {xs' : List IndexNode} {node' : IndexNode}
  (h : JumpStep descending page pre removing next post pointer offsetNextPoint localPointer oldKey offset
    jumpNode xs node xs' node')
include h

theorem placed : Placed pointer offsetNextPoint localPointer jumpNode.offset := by
  rcases h.relocated.place with ⟨hlt, -⟩ | ⟨heq, -⟩ | ⟨hle, -⟩
  · exact .inl hlt
  · exact .inr (.inl heq)
  · exact .inr (.inr hle)

theorem atNode : AtNode (deletionAt page pointer offsetNextPoint).page (pre ++ nextAfter removing next :: post)
    ((deletionAt page pointer offsetNextPoint).newOffset jumpNode.offset) xs' node' := by
  refine ⟨h.relocated.nodes, h.ne, ?_⟩
  exact h.relocated.chain

theorem length : ((keyAfter [] xs).take node.prefixLen).length = node.prefixLen ∧
    jumpNode.prefixLen + jumpNode.length = node.prefixLen := by
  have hlength := h.leads.length
  have hprefix := h.leads.prefixLen h.around.compressed
  rw [length_take_of_le hprefix] at hlength
  exact ⟨length_take_of_le hprefix, hlength⟩

theorem le_removing (hpre : ∀ node ∈ pre, node.isEndLevel = false) (hxs : xs = pre ++ [removing])
    {xs₀ ys₀ : List IndexNode} {node₀ : IndexNode} (hsplit : pre = xs₀ ++ node₀ :: ys₀)
    (hold : oldKey = (keyAfter [] xs₀).take node₀.prefixLen) : jumpNode.prefixLen ≤ removing.prefixLen := by
  have hkeys := h.around.compressed
  rw [append_cons, hsplit] at hkeys
  have hkeys' := (compressed_append.mp hkeys).1
  have horder := h.around.inOrder
  rw [append_cons, hsplit] at horder
  have horder' := (inOrder_append.mp horder).1
  have hle := h.leads.le
  have hlength := h.length.2
  have hprefix := h.leads.prefixLen h.around.compressed
  have hafter : keyAfter [] xs = removing.key (keyAfter [] (xs₀ ++ node₀ :: ys₀)) := by
    rw [hxs, hsplit, keyAfter_append]
    rfl
  have hkey₀ : node₀.key (keyAfter [] xs₀) = oldKey ++ node₀.data := by
    rw [hold]
    rfl
  refine common_le_removing hkeys' horder' (fun node hmem => hpre node ?_) h.around.normal ?_ ?_ ?_
  · rw [hsplit]
    exact mem_append_right _ (mem_cons_of_mem _ hmem)
  · rw [hkey₀, length_append]
    exact hle.trans (Nat.le_add_right ..)
  · rw [← hafter]
    omega
  · have htake := congrArg (take jumpNode.prefixLen) h.leads.key
    rw [take_append_of_le_length (by rw [length_take_of_le hle]), take_take, Nat.min_self, take_take,
      Nat.min_eq_left (by omega)] at htake
    rw [hkey₀, take_append_of_le_length hle, ← hafter, htake]

theorem prefix_cases : node' = node ∨ (jumpNode.offset = offsetNextPoint ∧ xs' = pre ∧ xs = pre ++ [removing] ∧
    node'.prefixLen = min removing.prefixLen node.prefixLen) := by
  rcases h.relocated.place with ⟨-, hnode, -⟩ | ⟨hoffset, hxs', hxs, rfl, hprefix⟩ | ⟨-, hnode, -⟩
  · exact .inl hnode
  · exact .inr ⟨hoffset, hxs', hxs, hprefix⟩
  · exact .inl hnode

section
variable (hsound : (deletionAt page pointer offsetNextPoint).Sound (pre ++ nextAfter removing next :: post))
  (hpre : ∀ node ∈ pre, node.isEndLevel = false)
  (hloop : Loop page pre removing next post pointer offsetNextPoint localPointer oldKey offset pos K o s)
include hsound hpre hloop

theorem fits_plain (hplain : Plain pre offsetNextPoint oldKey offset pos K s) :
    FitsIn (deletionAt page pointer offsetNextPoint) (pre ++ nextAfter removing next :: post) K pos
    s jumpNode xs' node' := by
  obtain ⟨hmoved, hmovedKey⟩ := moved_plain (deletionAt page pointer offsetNextPoint) jumpNode hplain.rebuild
  obtain ⟨hnewLength, hlength⟩ := h.length
  have hle := h.leads.le
  have hlePrefix := h.relocated.le
  have hroom := hplain.room
  have hlt := h.lt
  refine ⟨?_, ?_, ?_, ?_⟩
  · rw [hmoved, hmovedKey]
    by_cases hK : jumpNode.prefixLen ≤ K.length
    · -- the jump node is all known
      have hprefix : jumpNode.prefixLen ≤ node'.prefixLen := by
        rcases h.prefix_cases with hnode | ⟨hoffset, -, hxs, hmin⟩
        · rw [hnode]
          omega
        · rw [hmin]
          refine Nat.le_min.mpr ⟨?_, by omega⟩
          rcases (hplain.before (by omega)).2 with hnil | ⟨xs₀, node₀, ys₀, hsplit, hold⟩
          · rw [hnil] at hle
            exact hle.trans (Nat.zero_le _)
          · exact h.le_removing hpre hxs hsplit hold
      refine Deletion.fitted_enough h.atNode hprefix (hlePrefix.trans_eq hlength.symm) hK
        (fun prev hlast => hloop.kept.last_length hlast) ?_ (holds_take hloop.kept.knows.holds)
      have htake : K.take jumpNode.prefixLen = oldKey.take jumpNode.prefixLen := by
        conv_lhs => rw [hplain.key, take_take, Nat.min_eq_left hK]
      rw [htake, h.leads.key]
      exact h.relocated.key.symm
    · -- the jump node before was cut
      have hcut := Nat.not_le.mp hK
      have hnotBefore : ¬ offset < offsetNextPoint := fun hbefore => by
        rw [(hplain.before hbefore).1] at hcut
        omega
      have hnode : node' = node := h.prefix_cases.resolve_right fun hnext => by
        omega
      have hkept : s.jumpNodes ≠ [] := fun hnil => by
        rw [hplain.first hnil] at hle
        exact Nat.not_lt_zero _ (hcut.trans_le hle)
      rcases hloop.kept.table.last with ⟨hnil, -, -⟩ | ⟨prev, prevKey, xs₀, node₀, hlast, hprevOffset, hprev, hprevKey⟩
      · exact absurd hnil hkept
      rw [hlast]
      refine Deletion.fitted_short hsound hprev hprevKey hloop.kept.knows h.atNode ?_ ?_ hcut ?_
      · rw [hprevOffset]
        exact hloop.order _ hlt h.placed
      · rw [hnode]
        exact hlength.symm
      · have hkey := congrArg (take K.length) h.relocated.key
        rw [hnode, take_take, take_take, take_take, Nat.min_eq_left (by omega), Nat.min_eq_left (by omega)] at hkey
        rw [hkey]
        have hnew := congrArg (take K.length) h.leads.key
        rw [take_append_of_le_length (by rw [length_take_of_le hle]; exact Nat.le_of_lt hcut), take_take,
          take_take, Nat.min_eq_left (Nat.le_of_lt hcut), Nat.min_eq_left (by omega)] at hnew
        rw [← hnew]
        exact hplain.key
  · rw [hmoved]
  · rw [hmoved]
    rfl
  · rw [hmoved]
    show s.tempData + (jumpNode.prefixLen + jumpNode.length - min jumpNode.prefixLen K.length) + btrNodes ≤ _
    omega

omit hsound hpre in
theorem fits_dropped (hdropped : Dropped pre removing pointer offsetNextPoint oldKey offset pos K s) :
    FitsIn (deletionAt page pointer offsetNextPoint) (pre ++ nextAfter removing next :: post) K pos
    s jumpNode xs' node' := by
  obtain ⟨hoffset, hprefix, hkey, hholds⟩ :=
    moved_dropped (deletionAt page pointer offsetNextPoint) jumpNode hdropped hloop.kept.knows
  obtain ⟨hnewLength, hlength⟩ := h.length
  have hle := h.leads.le
  have hlt := h.lt
  have hlePrefix := h.relocated.le
  have hroom := hdropped.room
  have hdel := hdropped.le
  generalize hmoved : (deletionAt page pointer offsetNextPoint).moved s jumpNode = moved at *
  rw [h.leads.key] at hkey
  have hmovedLength : moved.prefixLen + moved.length = jumpNode.prefixLen + jumpNode.length := by
    have hsize := congrArg List.length hkey
    rw [length_append, length_take_of_le (by omega), hnewLength] at hsize
    exact hsize.trans hlength.symm
  have hold : oldKey.length = s.delJumpNode.prefixLen + s.delJumpNode.length := by
    rw [hdropped.key, length_append, length_take_of_le hdel]
    rfl
  have hprefixLe : moved.prefixLen ≤ node'.prefixLen := by
    rcases h.prefix_cases with hnode | ⟨hnext, -, hxs, hmin⟩
    · rw [hnode]
      omega
    · rcases hdropped.place with ⟨-, -, hremoving⟩ | ⟨hoffset', -⟩
      · omega
      · omega
  refine ⟨?_, by rw [hmoved]; exact hoffset, by rw [hmoved]; exact hmovedLength, ?_⟩
  · rw [hmoved]
    refine Deletion.fitted_enough (hoffset ▸ h.atNode) hprefixLe (by omega) (by omega)
      (fun prev hlast => hloop.kept.last_length hlast) ?_ hholds
    rw [hkey]
    exact h.relocated.key.symm
  · rw [hmoved]
    omega

theorem keep {pos' : Nat} (hpos : pos + 4 + jumpNode.length ≤ pos') (hend : pos' ≤ page.firstNode) :
    ((deletionAt page pointer offsetNextPoint).keep s jumpNode).1.jumpNodes.length ≤ s.jumpNodes.length + 1 ∧
      (∃ K o, Deletion.Rebuilt (deletionAt page pointer offsetNextPoint) (pre ++ nextAfter removing next :: post) K o
        ((deletionAt page pointer offsetNextPoint).keep s jumpNode).1) ∧
      (((deletionAt page pointer offsetNextPoint).keep s jumpNode).2 = true → ∃ K o,
        Loop page pre removing next post pointer offsetNextPoint localPointer
        ((keyAfter [] xs).take node.prefixLen) jumpNode.offset
          pos' K o ((deletionAt page pointer offsetNextPoint).keep s jumpNode).1) := by
  have hfits : FitsIn (deletionAt page pointer offsetNextPoint) (pre ++ nextAfter removing next :: post) K pos
      s jumpNode xs' node' := by
    rcases hloop.phase with hplain | hdropped
    · exact h.fits_plain hsound hpre hloop hplain
    · exact h.fits_dropped hloop hdropped
  obtain ⟨hnewLength, hlength⟩ := h.length
  have hlePrefix := h.relocated.le
  have hmovedLength := hfits.length
  have hroom := hfits.room
  have hsize : page.firstNode = btrNodes + (deletionAt page pointer offsetNextPoint).page.jumpSize := by
    rfl
  obtain ⟨hcount, hrebuilt, hmore⟩ := Deletion.keep_kept hsound hloop.kept (hfits.offset ▸ h.atNode)
    (hfits.offset ▸ hloop.order _ h.lt h.placed) hfits.fitted (by omega) (by omega) rfl
  refine ⟨hcount, hrebuilt, fun hkeep => ?_⟩
  obtain ⟨hkept, hrebuild, hne, htemp⟩ := hmore hkeep
  have hnewPrefix : ((keyAfter [] xs').take node'.prefixLen).length = node'.prefixLen := by
    rw [h.relocated.key, length_take_of_le (by omega)]
  have hshared : min ((deletionAt page pointer offsetNextPoint).moved s jumpNode).prefixLen
      K.length ≤ node'.prefixLen := by
    have hsize' := hfits.fitted.leads.length
    rw [hfits.fitted.prefixLen] at hsize'
    omega
  refine ⟨_, _, hkept, fun offset' hlt' hplaced => ?_, .inl ⟨hrebuild, ?_, fun hbefore => ?_,
    fun hnil => absurd hnil hne, ?_⟩⟩
  · rw [hfits.offset]
    exact h.around.newOffset_lt hlt' h.placed hplaced
  · rw [hnewPrefix]
    exact h.relocated.key
  · have horder := h.around.lt
    rcases h.relocated.place with ⟨-, hnode, hxs, ys, hsplit⟩ | ⟨hoffset, -⟩ | ⟨hbehind, -⟩
    · exact ⟨by rw [hnode, hxs], .inr ⟨xs, node, ys, hsplit, rfl⟩⟩
    · omega
    · omega
  · omega

end

end JumpStep

namespace Loop
variable {pos' : Nat}

theorem remove (hloop : Loop page pre removing next post pointer offsetNextPoint localPointer oldKey offset pos K o s)
    (h : Removing descending page pre removing next post pointer offsetNextPoint localPointer)
    (hleads : LeadsTo page (pre ++ removing :: next :: post) oldKey jumpNode xs node) (hlt : offset < jumpNode.offset)
    (hfrom : pointer ≤ jumpNode.offset) (hto : jumpNode.offset < offsetNextPoint)
    (hpos : pos + 4 + jumpNode.length ≤ pos') :
    Loop page pre removing next post pointer offsetNextPoint localPointer ((keyAfter [] xs).take node.prefixLen)
    jumpNode.offset pos' K o
      { s with
        rebuild := true
        delJumpNode := jumpNode } := by
  obtain ⟨hoffset, rfl, rfl⟩ := h.at_pointer hleads.toAtNode hfrom hto
  refine ⟨⟨⟨hloop.kept.table, hloop.kept.fits, hloop.kept.size, hloop.kept.asserted⟩, hloop.kept.knows,
    hloop.kept.jumpersNewSize⟩, fun offset' hlt' => hloop.order offset' (hlt.trans hlt'), .inr ?_⟩
  rcases hloop.phase with hplain | hdropped
  · obtain ⟨hK, -⟩ := hplain.before (by omega)
    have hroom := hplain.room
    refine ⟨rfl, ?_, ?_, ?_, .inl ⟨hoffset, hleads.ne, length_take_of_le h.prefixLen_le⟩⟩
    · rw [hK]
      exact hleads.le
    · rw [hK]
      exact hleads.key.symm
    · show s.tempData + jumpNode.length + btrNodes ≤ pos'
      omega
  · rcases hdropped.place with ⟨heq, -⟩ | ⟨heq, -⟩
    · omega
    · omega

theorem dropFirst (hloop : Loop page [] removing next post pointer offsetNextPoint localPointer oldKey offset pos K o s)
    (h : Removing descending page [] removing next post pointer offsetNextPoint localPointer)
    (hleads : LeadsTo page (removing :: next :: post) oldKey jumpNode xs node) (hlt : offset < jumpNode.offset)
    (hnext : jumpNode.offset = offsetNextPoint) (hpos : pos + 4 + jumpNode.length ≤ pos')
    (hend : pos' ≤ page.firstNode) :
    Loop page [] removing next post pointer offsetNextPoint localPointer ((keyAfter [] xs).take node.prefixLen)
    jumpNode.offset pos' K o
      ((deletionAt page pointer offsetNextPoint).dropFirst s jumpNode) := by
  rcases hloop.phase with hplain | hdropped
  swap
  · rcases hdropped.place with ⟨-, hne, -⟩ | ⟨heq, -⟩
    · exact absurd rfl hne
    · omega
  obtain ⟨hK, hold⟩ := hplain.before (by omega)
  have hnil : oldKey = [] := by
    rcases hold with hnil | ⟨xs₀, node₀, ys₀, hsplit, -⟩
    · exact hnil
    · exact nomatch (append_eq_nil_iff.mp hsplit.symm).2
  subst hnil
  subst hK
  obtain ⟨hmoved, -⟩ := moved_plain (deletionAt page pointer offsetNextPoint) jumpNode hplain.rebuild
  have hroom := hplain.room
  have hempty : s.jumpNodes = [] := by
    rcases hloop.kept.table.last with ⟨hnil, -⟩ | ⟨prev, prevKey, xs₀, node₀, -, hoffset, hprev, -⟩
    · exact hnil
    · have hlast : o < pointer := (hloop.order offsetNextPoint (hnext ▸ hlt) (.inr (.inl rfl))).trans_eq (if_pos rfl)
      have hfirst : page.firstNode = pointer := h.chainPre
      have hchain := hprev.chain.le
      rw [deletionAt_page_eq.2.1] at hchain
      omega
  have hsize : page.firstNode = btrNodes + (deletionAt page pointer offsetNextPoint).page.jumpSize := by
    rfl
  refine ⟨⟨⟨hloop.kept.table, hloop.kept.fits, hloop.kept.size, ?_⟩, ⟨nofun, Nat.zero_le _⟩, hloop.kept.jumpersNewSize⟩,
    fun offset' hlt' => hloop.order offset' (hlt.trans hlt'),
    .inr ⟨rfl, hleads.le, hleads.key.symm, ?_, .inr ⟨hnext, rfl⟩⟩⟩
  · show (s.asserted && decide _ && s.jumpNodes.isEmpty) = true
    rw [hmoved, hempty, hloop.kept.asserted]
    have hbuffer : s.tempData + jumpNode.length < (deletionAt page pointer offsetNextPoint).page.jumpSize := by omega
    show (true && decide (s.tempData + jumpNode.length < (deletionAt page pointer offsetNextPoint).page.jumpSize) &&
        true) = true
    rw [decide_eq_true hbuffer]
    rfl
  · show s.tempData + jumpNode.length + btrNodes ≤ pos'
    omega

end Loop
end Firebird.Btr
