import Firebird.Btr.DeleteNodeKeeps

/-! # The page after a node is deleted -/

namespace Firebird.Btr
open Lib Cursor List

variable {descending : Bool} {page : BtreePage} {pre post : List IndexNode} {removing next : IndexNode}
  {pointer offsetNextPoint localPointer : Nat} {jumps : List IndexJumpNode} {oldKey K : Key}
  {offset o pos jumpEnd : Nat} {s : Rebuild}

theorem moved_offset (d : Deletion) (s : Rebuild) (jumpNode : IndexJumpNode) :
    (d.moved s jumpNode).offset = d.newOffset jumpNode.offset := by
  unfold Deletion.moved
  split <;> rfl

theorem rebuildJumpNodes_rebuilt (h : Removing descending page pre removing next post pointer
    offsetNextPoint localPointer)
    (hsound : (deletionAt page pointer offsetNextPoint).Sound (pre ++ nextAfter removing next :: post))
    (hpre : ∀ node ∈ pre, node.isEndLevel = false)
    (htable : JumpTable page (pre ++ removing :: next :: post) oldKey offset jumps)
    (hchain : JumpChain (deletionAt page pointer offsetNextPoint).page.bytes pos jumps jumpEnd)
    (hend : jumpEnd ≤ page.firstNode)
    (hloop : Loop page pre removing next post pointer offsetNextPoint localPointer oldKey offset pos K o s) :
    ((deletionAt page pointer offsetNextPoint).rebuildJumpNodes jumps.length pos s).jumpNodes.length ≤
        s.jumpNodes.length + jumps.length ∧
      ∃ K o, Deletion.Rebuilt (deletionAt page pointer offsetNextPoint) (pre ++ nextAfter removing next :: post) K o
        ((deletionAt page pointer offsetNextPoint).rebuildJumpNodes jumps.length pos s) := by
  induction jumps generalizing oldKey offset pos K o s with
  | nil => exact ⟨Nat.le_refl _, K, o, hloop.kept.toRebuilt⟩
  | cons jumpNode jumps ih =>
    obtain ⟨hlt, xs, node, hleads, hrest⟩ := htable
    obtain ⟨pos', hread, hchain⟩ := hchain
    have hpos := readJumpNode_size hread
    have hend' := hchain.le.trans hend
    rw [length_cons, Deletion.rebuildJumpNodes]
    have hread' : (deletionAt page pointer offsetNextPoint).page.readJumpNode pos = (jumpNode, pos') := hread
    rw [hread']
    dsimp only
    by_cases hkept : jumpNode.offset < pointer ∨ offsetNextPoint ≤ jumpNode.offset
    · obtain ⟨ys, hnodes⟩ := hleads.nodes
      obtain ⟨xs', node', hrelocated⟩ := h.relocated hnodes hleads.chain hkept
      have hoffset := moved_offset (deletionAt page pointer offsetNextPoint) s jumpNode
      rw [if_pos (show jumpNode.offset < (deletionAt page pointer offsetNextPoint).offsetDeletePoint ∨
        (deletionAt page pointer offsetNextPoint).offsetNextPoint ≤ jumpNode.offset from hkept), hoffset,
        deletionAt_page_eq.2.1]
      by_cases hfirst : (deletionAt page pointer offsetNextPoint).newOffset jumpNode.offset = page.firstNode
      · -- only the next node can be the first one now
        rw [if_pos hfirst]
        have hnil : xs' = [] := by
          cases hxs' : xs' with
          | nil => rfl
          | cons first rest =>
            have hlt' := (hxs' ▸ hrelocated.chain).lt
            omega
        rcases hrelocated.place with ⟨-, -, hxs, -⟩ | ⟨hnext, hpre', -⟩ | ⟨-, -, hne⟩
        · exact absurd (hxs ▸ hnil) hleads.ne
        · obtain rfl : pre = [] := hpre' ▸ hnil
          obtain ⟨hcount, hrebuilt⟩ := ih hrest hchain (hloop.dropFirst h hleads hlt hnext hpos hend')
          exact ⟨hcount.trans (Nat.add_le_add_left (Nat.le_succ _) _), hrebuilt⟩
        · exact absurd hnil hne
      · rw [if_neg hfirst]
        have hne : xs' ≠ [] := fun hnil => by
          have hchain' := hrelocated.chain
          rw [hnil] at hchain'
          exact hfirst hchain'.symm
        have hstep : JumpStep descending page pre removing next post pointer offsetNextPoint localPointer oldKey offset
            jumpNode xs node xs' node' := ⟨h, hleads, hrelocated, hne, hlt⟩
        obtain ⟨hcount, hrebuilt, hmore⟩ := hstep.keep hsound hpre hloop hpos hend'
        rcases hkeep : (deletionAt page pointer offsetNextPoint).keep s jumpNode with ⟨s', more⟩
        rw [hkeep] at hcount hrebuilt hmore
        by_cases hroom : more = true
        · rw [if_pos hroom]
          obtain ⟨K', o', hloop'⟩ := hmore hroom
          obtain ⟨hcount', hrebuilt'⟩ := ih hrest hchain hloop'
          exact ⟨by omega, hrebuilt'⟩
        · rw [if_neg hroom]
          exact ⟨by omega, hrebuilt⟩
    · obtain ⟨hfrom, hto⟩ := not_or.mp hkept
      rw [if_neg (show ¬ (jumpNode.offset < (deletionAt page pointer offsetNextPoint).offsetDeletePoint ∨
        (deletionAt page pointer offsetNextPoint).offsetNextPoint ≤ jumpNode.offset) from hkept)]
      obtain ⟨hcount, hrebuilt⟩ := ih hrest hchain
        (hloop.remove h hleads hlt (Nat.not_lt.mp hfrom) (Nat.not_le.mp hto) hpos)
      exact ⟨hcount.trans (Nat.add_le_add_left (Nat.le_succ _) _), hrebuilt⟩

theorem Loop.start (h : Removing descending page pre removing next post pointer offsetNextPoint localPointer) :
    Loop page pre removing next post pointer offsetNextPoint localPointer [] 0 btrNodes [] 0 .start := by
  have hnodes : 0 < page.firstNode := Nat.lt_of_lt_of_le (by decide) (Nat.le_add_right btrNodes page.jumpSize)
  have hpointer : 0 < pointer := hnodes.trans_le h.chainPre.le
  refine ⟨⟨⟨⟨rfl, rfl⟩, nofun, Nat.zero_le _, rfl⟩, ⟨nofun, Nat.le_refl _⟩, rfl⟩, fun offset' hlt hplaced => ?_,
    .inl ⟨rfl, rfl, fun _ => ⟨rfl, .inl rfl⟩, fun _ => rfl, Nat.le_refl _⟩⟩
  exact (Nat.zero_le _).trans_lt (h.newOffset_lt hlt (.inl hpointer) hplaced)

theorem marked_removed {init : List IndexNode} {last : IndexNode}
    (hnodes : pre ++ removing :: next :: post = init ++ [last]) (hlast : (last.isEndBucket || last.isEndLevel) = true)
    (hinit : ∀ node ∈ init, node.isEndBucket = false ∧ node.isEndLevel = false) :
    ∃ init last, pre ++ nextAfter removing next :: post = init ++ [last] ∧
    (last.isEndBucket || last.isEndLevel) = true ∧
      ∀ node ∈ init, node.isEndBucket = false ∧ node.isEndLevel = false := by
  obtain ⟨hbucket, hlevel⟩ := nextAfter_marks removing next
  rcases eq_nil_or_concat post with rfl | ⟨mid, x, rfl⟩
  · rw [append_cons] at hnodes
    obtain ⟨rfl, hnext⟩ := append_inj' hnodes rfl
    obtain rfl := singleton_inj.mp hnext
    refine ⟨pre, nextAfter removing next, rfl, ?_, fun node hmem => hinit node (mem_append_left _ hmem)⟩
    rw [hbucket, hlevel]
    exact hlast
  · have hsplit : pre ++ removing :: next :: mid ++ [x] = init ++ [last] := by
      rw [← hnodes, concat_eq_append, append_assoc]
      rfl
    obtain ⟨rfl, hx⟩ := append_inj' hsplit rfl
    obtain rfl := singleton_inj.mp hx
    refine ⟨pre ++ nextAfter removing next :: mid, x, ?_, hlast, fun node hmem => ?_⟩
    · rw [concat_eq_append, append_assoc]
      rfl
    · rcases mem_append.mp hmem with hmem | hmem
      · exact hinit node (mem_append_left _ hmem)
      · rcases mem_cons.mp hmem with rfl | hmem
        · rw [hbucket, hlevel]
          exact hinit next (mem_append_right _ (mem_cons_of_mem _ (mem_cons_self ..)))
        · exact hinit node (mem_append_right _ (mem_cons_of_mem _ (mem_cons_of_mem _ hmem)))

theorem prefixTotal_removed (removing next : IndexNode) (pre post : List IndexNode) :
    ((pre ++ removing :: next :: post).map fun node => (node.prefixLen : Int)).sum -
        (removing.prefixLen + (next.prefixLen - (nextAfter removing next).prefixLen)) =
      ((pre ++ nextAfter removing next :: post).map fun node => (node.prefixLen : Int)).sum := by
  simp only [map_append, map_cons, sum_append, sum_cons]
  omega

theorem deleteNode_eq (pageSize : Nat)
    (hread : (readNode page.leafPage).read page.bytes pointer = (removing, offsetNextPoint)) :
    (deleteNode pageSize page pointer).page = { removeNode page pointer with
      jumpCount := ((deletionAt page pointer offsetNextPoint).rebuildJumpNodes page.jumpCount btrNodes
        .start).jumpNodes.length % 256
      bytes := writeJumpNodes (removeNode page pointer).bytes btrNodes
        ((deletionAt page pointer offsetNextPoint).rebuildJumpNodes page.jumpCount btrNodes .start).jumpNodes } ∧
    (deleteNode pageSize page pointer).asserted =
      ((deletionAt page pointer offsetNextPoint).rebuildJumpNodes page.jumpCount btrNodes .start).asserted := by
  have hnext : (page.readNode pointer).2 = offsetNextPoint := congrArg Prod.snd hread
  unfold deleteNode deletionAt
  rw [hnext]
  exact ⟨rfl, rfl⟩

/-- A page from which a node is deleted is valid, and its nodes say what they said before. -/
theorem deleteNode_valid (pageSize : Nat) {rest : List IndexNode}
    (hvalid : ValidPage descending page (pre ++ removing :: rest) jumps)
    (hchain : Chain page.leafPage page.bytes page.firstNode pre pointer)
    (hnormal : removing.isEndBucket = false ∧ removing.isEndLevel = false) :
    (deleteNode pageSize page pointer).asserted = true ∧
    (deleteNode pageSize page pointer).page.jumpSize = page.jumpSize ∧
      ∃ nodes jumps, ValidPage descending (deleteNode pageSize page pointer).page nodes jumps ∧
        entries [] nodes = (entries [] (pre ++ removing :: rest)).eraseIdx pre.length := by
  obtain ⟨next, post, offsetNextPoint, localPointer, rfl, h⟩ := hvalid.around hnormal hchain
  obtain ⟨init, last, hnodes, hlast, hinit⟩ := hvalid.marked
  have hsound := h.sound hvalid.length
  obtain ⟨hleaf, hfirst, hjumpSize⟩ := @deletionAt_page_eq page pointer offsetNextPoint
  obtain ⟨hpage, hasserted⟩ := deleteNode_eq pageSize h.read
  obtain ⟨jumpEnd, hjumps, hjumpEnd⟩ := hvalid.jumpChain
  have hle : page.firstNode ≤ pointer := h.chainPre.le
  have hpre : ∀ node ∈ pre, node.isEndLevel = false := by
    intro node hmem
    have hinit' : init = pre ++ (removing :: next :: post).dropLast := by
      rw [← dropLast_append_of_ne_nil (cons_ne_nil _ _), hnodes, dropLast_concat]
    exact (hinit node (hinit' ▸ mem_append_left _ hmem)).2
  have hjumps' : JumpChain (deletionAt page pointer offsetNextPoint).page.bytes btrNodes jumps jumpEnd :=
    hjumps.congr fun i _ hi => h.bytes_of_lt (hi.trans_le (hjumpEnd.trans hle))
  obtain ⟨hcount, K, o, hrebuilt⟩ :=
    rebuildJumpNodes_rebuilt h hsound hpre hvalid.jumpTable hjumps' hjumpEnd (Loop.start h)
  rw [← hvalid.jumpCount.1] at hcount hrebuilt
  rw [hpage, hasserted]
  generalize (deletionAt page pointer offsetNextPoint).rebuildJumpNodes page.jumpCount btrNodes
      .start = s at hcount hrebuilt ⊢
  have hlength : s.jumpNodes.length ≤ jumps.length := hcount.trans_eq ((Nat.zero_add _).trans hvalid.jumpCount.1)
  have hbytes : ∀ i, (removeNode page pointer).firstNode ≤ i →
      writeJumpNodes (removeNode page pointer).bytes btrNodes s.jumpNodes i = (removeNode page pointer).bytes i :=
    fun i hi => writeJumpNodes_of_le hrebuilt.fits ((Nat.add_le_add_left hrebuilt.size btrNodes).trans hi)
  refine ⟨hrebuilt.asserted, hjumpSize, pre ++ nextAfter removing next :: post, s.jumpNodes, ?_, h.entries_eq⟩
  constructor
  case chain => exact hsound.chain.congr fun i hi _ => hbytes i hi
  case length => exact hsound.length
  case compressed => exact h.compressed'
  case inOrder => exact h.inOrder'
  case marked => exact marked_removed hnodes hlast hinit
  case prefixTotal =>
    rw [← prefixTotal_removed removing next pre post, ← hvalid.prefixTotal, h.removeNode_eq]
  case jumpChain =>
    exact ⟨_, jumpChain_writeJumpNodes _ _ hrebuilt.fits, Nat.add_le_add_left hrebuilt.size btrNodes⟩
  case jumpCount =>
    have hlt := hlength.trans_lt hvalid.jumpCount.2
    exact ⟨Nat.mod_eq_of_lt hlt, hlt⟩
  case jumpTable => exact hrebuilt.table.jumpTable.congr ⟨rfl, rfl⟩ hbytes

/-- A leaf page with three keys and one jump node, which leads to the third. -/
def smallPage : BtreePage where
  level := 0
  length := 63
  prefixTotal := 4
  jumpSize := 8
  jumpCount := 1
  bytes := put (put (fun _ => 0) btrNodes (IndexJumpNode.writeJumpNode ⟨0, [97, 97], 58⟩)) 47
    ([⟨0, [97, 97, 97], 1, 0, false, false⟩, ⟨2, [98], 2, 0, false, false⟩, ⟨2, [99], 3, 0, false, false⟩,
      .endLevel].flatMap fun node => IndexNode.writeNode node true)

theorem smallPage_valid : ValidPage false smallPage ([⟨0, [97, 97, 97], 1, 0, false, false⟩] ++ ⟨2, [98], 2, 0, false,
    false⟩ :: [⟨2, [99], 3, 0, false, false⟩, .endLevel]) [⟨0, [97, 97], 58⟩] where
  chain := ⟨54, by decide +kernel, 58, by decide +kernel, 62, by decide +kernel, 63, by decide +kernel, rfl⟩
  length := by decide
  compressed := by decide
  inOrder := by decide
  marked := ⟨[⟨0, [97, 97, 97], 1, 0, false, false⟩, ⟨2, [98], 2, 0, false, false⟩, ⟨2, [99], 3, 0, false, false⟩],
    .endLevel, rfl, rfl, by decide⟩
  prefixTotal := rfl
  jumpChain := ⟨45, ⟨45, by decide +kernel, rfl⟩, by decide⟩
  jumpCount := ⟨rfl, by decide⟩
  jumpTable := ⟨by decide, [⟨0, [97, 97, 97], 1, 0, false, false⟩, ⟨2, [98], 2, 0, false, false⟩],
    ⟨2, [99], 3, 0, false, false⟩,
    ⟨⟨⟨[.endLevel], rfl⟩, cons_ne_nil _ _, ⟨54, by decide +kernel, 58, by decide +kernel, rfl⟩⟩, by decide, by decide⟩,
    trivial⟩

theorem deleteNode_valid_smallPage : (deleteNode 4096 smallPage 54).asserted = true ∧
    (deleteNode 4096 smallPage 54).page.jumpSize = smallPage.jumpSize ∧
    ∃ nodes jumps, ValidPage false (deleteNode 4096 smallPage 54).page nodes jumps ∧
      entries [] nodes = [⟨[97, 97, 97], 1, 0, false, false⟩, ⟨[97, 97, 99], 3, 0, false, false⟩,
        ⟨[], 0, 0, false, true⟩] :=
  deleteNode_valid 4096 smallPage_valid ⟨54, by decide +kernel, rfl⟩ ⟨rfl, rfl⟩

end Firebird.Btr
