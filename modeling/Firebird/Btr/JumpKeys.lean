import Firebird.Btr.RemovedNode

/-! # Jump keys along a page -/

namespace Firebird.Btr
open Lib Cursor List

variable {page : BtreePage} {nodes mid : List IndexNode} {node : IndexNode} {key : Key} {k : JumpKey} {p q n : Nat}
  {l : List UInt8}

/-! ### Walking over nodes -/

/-- The key read so far begins with these bytes. -/
structure JumpKey.Knows (k : JumpKey) (l : List UInt8) : Prop where
  holds : Holds k.keyData 0 l
  le : l.length ≤ k.keyLength

theorem holds_take {m : Memory} (h : Holds m p l) : Holds m p (l.take n) := by
  intro i hi
  rw [length_take] at hi
  rw [getElem_take]
  exact h i (hi.trans_le (Nat.min_le_right ..))

namespace JumpKey.Knows

theorem take (h : k.Knows l) : k.Knows (l.take n) :=
  ⟨holds_take h.holds, (length_take_le' n l).trans h.le⟩

theorem copy {data : List UInt8} (h : Holds k.keyData 0 l) (hn : n ≤ l.length) :
    (k.copy n data).Knows (l.take n ++ data) := by
  refine ⟨holds_append.mpr ⟨fun i hi => ?_, ?_⟩, ?_⟩
  · have hlt : 0 + i < n := by
      rw [length_take_of_le hn] at hi
      omega
    exact (put_of_lt hlt).trans (holds_take h i hi)
  · rw [length_take_of_le hn, Nat.zero_add]
    exact holds_put
  · rw [length_append, length_take_of_le hn]
    exact Nat.le_refl _

/-- A node gives the bytes behind its prefix. -/
theorem fill (h : k.Knows (key.take n)) (hle : node.prefixLen ≤ key.length) :
    (k.fill n node).Knows ((node.key key).take n) := by
  unfold JumpKey.fill
  split
  case isTrue hshort =>
    have htake : (node.key key).take n = (key.take n).take node.prefixLen ++ node.data.take (n - node.prefixLen) := by
      unfold IndexNode.key
      rw [take_append, length_take_of_le hle, take_take, take_take,
        Nat.min_eq_right (Nat.le_of_lt hshort.1), Nat.min_eq_left (Nat.le_of_lt hshort.1)]
    rw [htake]
    refine copy h.holds ?_
    rw [length_take]
    exact Nat.le_min.mpr ⟨Nat.le_of_lt hshort.1, hle⟩
  case isFalse hlong =>
    have htake : (node.key key).take n = (key.take n).take node.prefixLen := by
      unfold IndexNode.key
      by_cases hdata : node.length = 0
      · rw [eq_nil_of_length_eq_zero hdata, append_nil, take_take, take_take, Nat.min_comm]
      · have hn : n ≤ node.prefixLen := Nat.not_lt.mp fun hlt => hlong ⟨hlt, hdata⟩
        rw [take_append_of_le_length (by rw [length_take_of_le hle]; exact hn), take_take, take_take,
          Nat.min_eq_left hn, Nat.min_eq_right hn]
    rw [htake]
    exact h.take

end JumpKey.Knows

theorem walkNodes_done (page : BtreePage) (n q : Nat) (k : JumpKey) : walkNodes page n q q k = k := by
  rw [walkNodes, if_neg (Nat.lt_irrefl q)]

theorem walkNodes_cons {r : Nat} (hread : (readNode page.leafPage).read page.bytes p = (node, r))
    (hrest : Chain page.leafPage page.bytes r mid q) : walkNodes page n q p k = walkNodes page n
    q r (k.fill n node) := by
  have hlt := readNode_lt page.leafPage page.bytes p
  rw [hread] at hlt
  rw [walkNodes, if_pos (hlt.trans_le hrest.le)]
  unfold BtreePage.readNode
  rw [hread]

theorem knows_walkNodes (hchain : Chain page.leafPage page.bytes p mid q) (hkeys : Compressed key mid)
    (h : k.Knows (key.take n)) : (walkNodes page n q p k).Knows ((keyAfter key mid).take n) := by
  induction mid generalizing p k key with
  | nil =>
    obtain rfl : p = q := hchain
    rw [walkNodes_done]
    exact h
  | cons node mid ih =>
    obtain ⟨r, hread, hrest⟩ := hchain
    rw [walkNodes_cons hread hrest]
    exact ih hrest hkeys.2 (h.fill hkeys.1.1)

theorem keyAfter_length (hkeys : Compressed key nodes) (h : key.length ≤ maxKey) :
    (keyAfter key nodes).length ≤ maxKey := by
  induction nodes generalizing key with
  | nil => exact h
  | cons node nodes ih => exact ih hkeys.2 hkeys.1.2.1

/-- A jump table, with the key and the place of its last jump node. -/
def TableTo (page : BtreePage) (nodes : List IndexNode) : Key → Nat → List IndexJumpNode → Key → Nat → Prop
  | key, offset, [], key', offset' => key = key' ∧ offset = offset'
  | key, offset, jumpNode :: jumps, key', offset' => offset < jumpNode.offset ∧ ∃ pre node,
      LeadsTo page nodes key jumpNode pre node ∧
      TableTo page nodes ((keyAfter [] pre).take node.prefixLen) jumpNode.offset jumps key' offset'

variable {offset offset' : Nat} {key' : Key} {jumps : List IndexJumpNode}
  {jumpNode : IndexJumpNode} {pre : List IndexNode}

section
variable (h : TableTo page nodes key offset jumps key' offset')
include h

theorem TableTo.jumpTable : JumpTable page nodes key offset jumps := by
  induction jumps generalizing key offset with
  | nil => trivial
  | cons jumpNode jumps ih =>
    obtain ⟨hlt, pre, node, hleads, hrest⟩ := h
    exact ⟨hlt, pre, node, hleads, ih hrest⟩

/-- A jump node is added behind the last one. -/
theorem TableTo.snoc (hlt : offset' < jumpNode.offset)
    (hleads : LeadsTo page nodes key' jumpNode pre node) :
    TableTo page nodes key offset (jumps ++ [jumpNode]) ((keyAfter [] pre).take node.prefixLen) jumpNode.offset := by
  induction jumps generalizing key offset with
  | nil =>
    obtain ⟨rfl, rfl⟩ := h
    exact ⟨hlt, pre, node, hleads, rfl, rfl⟩
  | cons first jumps ih =>
    obtain ⟨hlt', pre', node', hleads', hrest⟩ := h
    exact ⟨hlt', pre', node', hleads', ih hrest⟩

/-- The key carried along is that of the last jump node. -/
theorem TableTo.last :
    (jumps = [] ∧ key = key' ∧ offset = offset') ∨ ∃ prev prevKey pre node, jumps.getLast? = some prev ∧
    prev.offset = offset' ∧
      LeadsTo page nodes prevKey prev pre node ∧ key' = (keyAfter [] pre).take node.prefixLen := by
  induction jumps generalizing key offset with
  | nil => exact .inl ⟨rfl, h⟩
  | cons first jumps ih =>
    obtain ⟨-, pre, node, hleads, hrest⟩ := h
    rcases ih hrest with ⟨rfl, hkey, hoffset⟩ | ⟨prev, prevKey, pre, node, hlast, hrest⟩
    · exact .inr ⟨first, key, pre, node, rfl, hoffset, hleads, hkey.symm⟩
    · refine .inr ⟨prev, prevKey, pre, node, ?_, hrest⟩
      rw [getLast?_cons, hlast]
      rfl

end

section
variable (h : LeadsTo page nodes key jumpNode pre node)
include h

/-- A jump node has the prefix of its node as its key. -/
theorem LeadsTo.length : jumpNode.prefixLen + jumpNode.length = ((keyAfter [] pre).take node.prefixLen).length := by
  rw [← h.key, length_append, length_take_of_le h.le]
  rfl

theorem LeadsTo.prefixLen (hkeys : Compressed [] nodes) : node.prefixLen ≤ (keyAfter [] pre).length := by
  obtain ⟨post, hnodes⟩ := h.nodes
  rw [hnodes] at hkeys
  exact (compressed_append.mp hkeys).2.1.1

theorem LeadsTo.fits (hkeys : Compressed [] nodes)
    (hchain : Chain page.leafPage page.bytes page.firstNode nodes page.length)
    (hlength : page.length < 2 ^ 16) : jumpNode.Fits := by
  have hsize := h.length
  obtain ⟨post, hnodes⟩ := h.nodes
  rw [hnodes] at hkeys hchain
  have hkey : (keyAfter [] pre).length ≤ maxKey := keyAfter_length (compressed_append.mp hkeys).1 (Nat.zero_le _)
  have htake := length_take_le' node.prefixLen (keyAfter [] pre)
  have hmax : maxKey < 2 ^ 14 := by decide
  have hoffset := (Removing.chain_between h.chain hchain).le
  exact ⟨by omega, by omega, by omega⟩

end

theorem LeadsTo.congr {page' : BtreePage} (h : LeadsTo page nodes key jumpNode pre node)
    (hpage : page'.leafPage = page.leafPage ∧ page'.firstNode = page.firstNode)
    (hbytes : ∀ i, page.firstNode ≤ i → page'.bytes i = page.bytes i) : LeadsTo page' nodes key jumpNode pre node := by
  refine ⟨⟨h.nodes, h.ne, ?_⟩, h.le, h.key⟩
  rw [hpage.1, hpage.2]
  exact h.chain.congr fun i hi _ => hbytes i hi

theorem JumpTable.congr {page' : BtreePage} (h : JumpTable page nodes key offset jumps)
    (hpage : page'.leafPage = page.leafPage ∧ page'.firstNode = page.firstNode)
    (hbytes : ∀ i, page.firstNode ≤ i → page'.bytes i = page.bytes i) : JumpTable page' nodes key offset jumps := by
  induction jumps generalizing key offset with
  | nil => trivial
  | cons jumpNode jumps ih =>
    obtain ⟨hlt, pre, node, hleads, hrest⟩ := h
    exact ⟨hlt, pre, node, hleads.congr hpage hbytes, ih hrest⟩

theorem JumpChain.le {m : Memory} (h : JumpChain m p jumps q) : p ≤ q := by
  induction jumps generalizing p with
  | nil => exact Nat.le_of_eq h
  | cons jumpNode jumps ih =>
    obtain ⟨r, hread, hrest⟩ := h
    have hle := readJumpNode_local.le m p
    rw [hread] at hle
    exact hle.trans (ih hrest)

/-- The jump nodes themselves lie between `p` and `q`. -/
theorem JumpChain.congr {m m' : Memory} (h : JumpChain m p jumps q) (hbytes : ∀ i, p ≤ i → i < q → m' i = m i) :
    JumpChain m' p jumps q := by
  induction jumps generalizing p with
  | nil => exact h
  | cons jumpNode jumps ih =>
    obtain ⟨r, hread, hrest⟩ := h
    have hle := readJumpNode_local.le m p
    rw [hread] at hle
    refine ⟨r, ?_, ih hrest fun i hi hq => hbytes i (hle.trans hi) hq⟩
    rw [← hread]
    refine readJumpNode_local.read_eq fun i hi hr => ?_
    rw [hread] at hr
    exact hbytes i hi (hr.trans_le hrest.le)

/-- The bytes that jump nodes take on the page -/
def jumpersSize (jumps : List IndexJumpNode) : Nat := (jumps.map IndexJumpNode.getJumpNodeSize).sum

theorem jumpersSize_cons : jumpersSize (jumpNode :: jumps) = jumpNode.getJumpNodeSize + jumpersSize jumps := rfl

/-- Bytes before and behind the jump nodes stay. -/
theorem writeJumpNodes_of_lt {m : Memory} {i : Nat} (h : i < p) : writeJumpNodes m p jumps i = m i := by
  induction jumps generalizing m p with
  | nil => rfl
  | cons jumpNode jumps ih => exact (ih (h.trans_le (Nat.le_add_right ..))).trans (put_of_lt h)

theorem writeJumpNodes_of_le {m : Memory} {i : Nat} (hfits : ∀ jumpNode ∈ jumps, jumpNode.Fits)
    (h : p + jumpersSize jumps ≤ i) : writeJumpNodes m p jumps i = m i := by
  induction jumps generalizing m p with
  | nil => rfl
  | cons jumpNode jumps ih =>
    obtain ⟨hfirst, hrest⟩ := forall_mem_cons.mp hfits
    have hsize := writeJumpNode_length hfirst
    rw [jumpersSize_cons] at h
    exact (ih hrest (by omega)).trans (put_of_le (by omega))

theorem jumpChain_writeJumpNodes (m : Memory) (p : Nat) (hfits : ∀ jumpNode ∈ jumps, jumpNode.Fits) :
    JumpChain (writeJumpNodes m p jumps) p jumps (p + jumpersSize jumps) := by
  induction jumps generalizing m p with
  | nil => rfl
  | cons jumpNode jumps ih =>
    obtain ⟨hfirst, hrest⟩ := forall_mem_cons.mp hfits
    have hsize := writeJumpNode_length hfirst
    refine ⟨p + jumpNode.writeJumpNode.length, decodes_writeJumpNode hfirst _ _ fun i hi => ?_, ?_⟩
    · exact (writeJumpNodes_of_lt (Nat.add_lt_add_left hi p)).trans (holds_put i hi)
    · rw [jumpersSize_cons, ← hsize, ← Nat.add_assoc]
      exact ih (put m p jumpNode.writeJumpNode) (p + jumpNode.writeJumpNode.length) hrest

/-! ### Jump nodes that are kept

A jump node that is kept leads to where its node is now: what it says already is enough, or the rest is found on the way
from the last jump node. -/

variable {d : Deletion} {nodes xs : List IndexNode} {node : IndexNode} {K : Key} {o : Nat} {s : Rebuild}
  {jumpNode prev : IndexJumpNode} {jumpPrev : Option IndexJumpNode} {key : JumpKey} {newPrefix : Nat}

/-- The page after the deletion holds these nodes. -/
structure Deletion.Sound (d : Deletion) (nodes : List IndexNode) : Prop where
  chain : Chain d.page.leafPage d.page.bytes d.page.firstNode nodes d.page.length
  compressed : Compressed [] nodes
  length : d.page.length < 2 ^ 16

/-- Of two nodes, the one with the greater offset comes later. -/
theorem AtNode.behind {page : BtreePage} {xs' : List IndexNode} {node' : IndexNode} {o' : Nat}
    (h : AtNode page nodes o xs node) (h' : AtNode page nodes o' xs' node') (hlt : o < o') :
    ∃ mid, xs' = xs ++ node :: mid := by
  obtain ⟨post, hnodes⟩ := h.nodes
  obtain ⟨post', hnodes'⟩ := h'.nodes
  rcases Removing.split_cases (hnodes.symm.trans hnodes') with ⟨mid, rfl, -⟩ | ⟨rfl, -, -⟩ | ⟨mid, hxs, -⟩
  · exact absurd (Removing.chain_between h'.chain h.chain).lt (Nat.lt_asymm hlt)
  · exact absurd (h.chain.end_eq h'.chain) (Nat.ne_of_lt hlt)
  · exact ⟨mid, hxs⟩

/-! ### As long as the prefix of its node -/

namespace Deletion

/-- What a jump node has too much is cut off. -/
theorem cut_eq (hle : jumpNode.prefixLen ≤ newPrefix) :
    cut newPrefix jumpNode = { jumpNode with data := jumpNode.data.take (newPrefix - jumpNode.prefixLen) } := by
  unfold cut
  split
  case isTrue => rw [if_neg (Nat.not_lt.mpr hle)]
  case isFalse hnot =>
    have hall : jumpNode.data.take (newPrefix - jumpNode.prefixLen) = jumpNode.data :=
      take_of_length_le (by unfold IndexJumpNode.length at hnot; omega)
    rw [hall]

theorem shared_eq (h : newPrefix ≤ jumpNode.prefixLen + jumpNode.length) :
    shared newPrefix jumpPrev jumpNode = jumpNode := by
  unfold shared
  split
  · exact if_neg fun hshort => absurd hshort.1 (Nat.not_lt.mpr h)
  · rfl

/-- The jump node says at least as much as the prefix of its node. -/
theorem fit_enough (hle : jumpNode.prefixLen ≤ newPrefix) (h : newPrefix ≤ jumpNode.prefixLen + jumpNode.length)
    (hprev : ∀ prev, jumpPrev = some prev → jumpNode.prefixLen ≤ prev.prefixLen + prev.length) :
    d.fit newPrefix jumpPrev key jumpNode =
      ({ jumpNode with data := jumpNode.data.take (newPrefix - jumpNode.prefixLen) }, key, true) := by
  have hlength : (jumpNode.data.take (newPrefix - jumpNode.prefixLen)).length = newPrefix - jumpNode.prefixLen :=
    length_take_of_le (by unfold IndexJumpNode.length at h; omega)
  unfold fit
  rw [cut_eq hle, shared_eq (by unfold IndexJumpNode.length; dsimp only; omega)]
  refine if_neg ?_
  unfold incomplete IndexJumpNode.length
  simp only [Bool.or_eq_true, decide_eq_true_eq, not_or]
  refine ⟨fun hne => hne (by omega), ?_⟩
  cases jumpPrev with
  | none => exact Bool.false_ne_true
  | some prev =>
    have hshared := hprev prev rfl
    simp only [decide_eq_true_eq]
    unfold IndexJumpNode.length at hshared
    omega

/-- The jump node says what its node needs, but begins behind the end of the one before. -/
theorem fit_short (h : newPrefix = jumpNode.prefixLen + jumpNode.length)
    (hprev : prev.prefixLen + prev.length < jumpNode.prefixLen) :
    d.fit newPrefix (some prev) key jumpNode = d.completed newPrefix (some prev) key jumpNode := by
  have hcut : cut newPrefix jumpNode = jumpNode := if_neg (by omega)
  unfold fit
  rw [hcut, shared_eq (by omega)]
  refine if_pos ?_
  unfold incomplete
  simp only [Bool.or_eq_true, decide_eq_true_eq]
  exact .inr hprev

/-- The jump node is made to say the prefix of its node, with its first bytes in the one before. -/
structure Fitted (d : Deletion) (nodes : List IndexNode) (K : Key) (xs : List IndexNode) (node : IndexNode)
    (jumpNode : IndexJumpNode) (result : IndexJumpNode × JumpKey × Bool) : Prop where
  leads : LeadsTo d.page nodes K result.1 xs node
  offset : result.1.offset = jumpNode.offset
  prefixLen : result.1.prefixLen = min jumpNode.prefixLen K.length
  knows : (result.2.1.copy result.1.prefixLen result.1.data).Knows ((keyAfter [] xs).take node.prefixLen)
  known : result.2.2 = true

theorem fitted_enough (hat : AtNode d.page nodes jumpNode.offset xs node) (hle : jumpNode.prefixLen ≤ node.prefixLen)
    (h : node.prefixLen ≤ jumpNode.prefixLen + jumpNode.length) (hK : jumpNode.prefixLen ≤ K.length)
    (hprev : ∀ prev, jumpPrev = some prev → prev.prefixLen + prev.length = K.length)
    (hkey : (K.take jumpNode.prefixLen ++ jumpNode.data).take node.prefixLen = (keyAfter [] xs).take node.prefixLen)
    (hholds : Holds key.keyData 0 (K.take jumpNode.prefixLen)) :
    Fitted d nodes K xs node jumpNode (d.fit node.prefixLen jumpPrev key jumpNode) := by
  rw [fit_enough hle h fun prev hsome => hK.trans_eq (hprev prev hsome).symm]
  have htake : K.take jumpNode.prefixLen ++ jumpNode.data.take (node.prefixLen - jumpNode.prefixLen) =
      (keyAfter [] xs).take node.prefixLen := by
    rw [← hkey, take_append, length_take_of_le hK, take_take, Nat.min_eq_right hle]
  have hcopy := @JumpKey.Knows.copy key jumpNode.prefixLen _ (jumpNode.data.take (node.prefixLen - jumpNode.prefixLen))
    hholds (by rw [length_take_of_le hK])
  rw [take_take, Nat.min_self, htake] at hcopy
  exact ⟨⟨hat, hK, htake⟩, rfl, (Nat.min_eq_left hK).symm, hcopy, rfl⟩

/-- What is missing is found on the way from the last jump node. -/
theorem fitted_short {prevKey : Key} {xs' : List IndexNode} {node' : IndexNode} (hsound : d.Sound nodes)
    (hleads : LeadsTo d.page nodes prevKey prev xs' node') (hK : K = (keyAfter [] xs').take node'.prefixLen)
    (hknows : key.Knows K) (hat : AtNode d.page nodes jumpNode.offset xs node) (hlt : prev.offset < jumpNode.offset)
    (hlength : node.prefixLen = jumpNode.prefixLen + jumpNode.length) (hshort : K.length < jumpNode.prefixLen)
    (hkey : K = (keyAfter [] xs).take K.length) :
    Fitted d nodes K xs node jumpNode (d.fit node.prefixLen (some prev) key jumpNode) := by
  have hprev : prev.prefixLen + prev.length = K.length := hK ▸ hleads.length
  rw [fit_short hlength (hprev.trans_lt hshort)]
  obtain ⟨mid, hmid⟩ := AtNode.behind hleads.toAtNode hat hlt
  obtain ⟨post, hnodes⟩ := hat.nodes
  have hkeys := hsound.compressed
  rw [hnodes, hmid] at hkeys
  obtain ⟨hfirst, hnode⟩ := compressed_append.mp hkeys
  obtain ⟨-, hkeysNode⟩ := compressed_append.mp hfirst
  have hprefix : node.prefixLen ≤ (keyAfter [] xs).length := hmid ▸ hnode.1.1
  have hKlength : K.length = node'.prefixLen := by
    rw [hK]
    exact length_take_of_le hkeysNode.1.1
  -- the node of the last jump node is read first
  have hchain : Chain d.page.leafPage d.page.bytes prev.offset (node' :: mid) jumpNode.offset :=
    Removing.chain_between hleads.chain (hmid ▸ hat.chain)
  obtain ⟨r, hread, hrest⟩ := hchain
  have hstart : (key.fill node.prefixLen node').Knows ((node'.key K).take node.prefixLen) :=
    JumpKey.Knows.fill hknows.take (Nat.le_of_eq hKlength.symm)
  have hfirstKey : node'.key K = node'.key (keyAfter [] xs') := by
    unfold IndexNode.key
    rw [hK, take_take, Nat.min_self]
  rw [hfirstKey] at hstart
  have hwalk := knows_walkNodes hrest hkeysNode.2 hstart
  rw [← walkNodes_cons hread hrest] at hwalk
  have hend : keyAfter (node'.key (keyAfter [] xs')) mid = keyAfter [] xs := by
    rw [hmid, keyAfter_append]
    rfl
  rw [hend] at hwalk
  unfold completed
  dsimp only
  rw [hprev]
  generalize walkNodes d.page node.prefixLen jumpNode.offset prev.offset key = walked at hwalk ⊢
  have hle : K.length ≤ node.prefixLen := by omega
  have htake : ((keyAfter [] xs).take node.prefixLen).take K.length = K := by
    rw [take_take, Nat.min_eq_left hle]
    exact hkey.symm
  have hsplit : K ++ ((keyAfter [] xs).take node.prefixLen).drop K.length = (keyAfter [] xs).take node.prefixLen := by
    conv_lhs => rw [← htake, length_take, length_take, Nat.min_eq_left hprefix, Nat.min_eq_left hle]
    exact take_append_drop ..
  have hdata : ((getBytes (node.prefixLen - K.length)).read walked.keyData K.length).1 =
      ((keyAfter [] xs).take node.prefixLen).drop K.length := by
    have hholds := hwalk.holds
    rw [← hsplit] at hholds
    have hbytes := decodes_getBytes _ _ _ (holds_append.mp hholds).2
    rw [length_drop, length_take_of_le hprefix, Nat.zero_add] at hbytes
    exact congrArg Prod.fst hbytes
  rw [hdata]
  refine ⟨⟨⟨hat.nodes, hat.ne, hat.chain⟩, Nat.le_refl _, ?_⟩, rfl, (Nat.min_eq_right (Nat.le_of_lt hshort)).symm,
    ?_, ?_⟩
  · rw [take_length]
    exact hsplit
  · have hcopy := @JumpKey.Knows.copy _ K.length _ (((keyAfter [] xs).take node.prefixLen).drop K.length) hwalk.holds
      (by rw [length_take_of_le hprefix]; exact hle)
    rw [htake, hsplit] at hcopy
    exact hcopy
  · have hlength' := hwalk.le
    rw [length_take_of_le hprefix] at hlength'
    rw [Bool.and_eq_true, decide_eq_true_eq, decide_eq_true_eq]
    exact ⟨fun _ => hknows.le, hlength'⟩

/-- The jump nodes rebuilt so far lead to nodes of the page and fit the jump area. -/
structure Rebuilt (d : Deletion) (nodes : List IndexNode) (K : Key) (o : Nat) (s : Rebuild) : Prop where
  table : TableTo d.page nodes [] 0 s.jumpNodes K o
  fits : ∀ jumpNode ∈ s.jumpNodes, jumpNode.Fits
  size : jumpersSize s.jumpNodes ≤ d.page.jumpSize
  asserted : s.asserted = true

/-- The key carried along and the size counted are theirs. -/
structure Kept (d : Deletion) (nodes : List IndexNode) (K : Key) (o : Nat)
    (s : Rebuild) : Prop extends Rebuilt d nodes K o s where
  knows : s.jumpKey.Knows K
  jumpersNewSize : s.jumpersNewSize = jumpersSize s.jumpNodes

theorem Kept.last_length (h : Kept d nodes K o s) (hlast : s.jumpNodes.getLast? = some prev) :
    prev.prefixLen + prev.length = K.length := by
  rcases h.table.last with ⟨hnil, -, -⟩ | ⟨prev', prevKey, pre, node, hlast', -, hleads, hK⟩
  · rw [hnil] at hlast
    exact nomatch hlast
  · rw [hlast'] at hlast
    obtain rfl := Option.some.inj hlast
    rw [hK]
    exact hleads.length

theorem jumpersSize_append (jumps : List IndexJumpNode) (jumpNode : IndexJumpNode) :
    jumpersSize (jumps ++ [jumpNode]) = jumpersSize jumps + jumpNode.getJumpNodeSize := by
  unfold jumpersSize
  rw [map_append, sum_append]
  rfl

/-- One more jump node is kept, if there is room for it. -/
theorem keep_kept {K' : Key} (hsound : d.Sound nodes) (h : Kept d nodes K o s)
    (hat : AtNode d.page nodes (d.moved s jumpNode).offset xs node) (hlt : o < (d.moved s jumpNode).offset)
    (hfit : Fitted d nodes K xs node (d.moved s jumpNode)
      (d.fit node.prefixLen s.jumpNodes.getLast? (d.movedKey s jumpNode) (d.moved s jumpNode)))
    (hroom : s.tempData + (d.moved s jumpNode).length < d.page.jumpSize)
    (hroom' : s.tempData + (node.prefixLen - min (d.moved s jumpNode).prefixLen K.length) < d.page.jumpSize)
    (hK' : K' = (keyAfter [] xs).take node.prefixLen) :
    (d.keep s jumpNode).1.jumpNodes.length ≤ s.jumpNodes.length + 1 ∧
    (∃ K o, Rebuilt d nodes K o (d.keep s jumpNode).1) ∧
      ((d.keep s jumpNode).2 = true → Kept d nodes K' (d.moved s jumpNode).offset (d.keep s jumpNode).1 ∧
        (d.keep s jumpNode).1.rebuild = false ∧ (d.keep s jumpNode).1.jumpNodes ≠ [] ∧
        (d.keep s jumpNode).1.tempData = s.tempData + (node.prefixLen - min
          (d.moved s jumpNode).prefixLen K.length)) := by
  obtain ⟨post, hnodes⟩ := hat.nodes
  have hread : (d.page.readNode (d.moved s jumpNode).offset).1 = node := by
    have hchain := hsound.chain
    rw [hnodes] at hchain
    exact (Removing.chain_between hat.chain hchain).read
  unfold keep
  dsimp only
  rw [hread]
  generalize d.fit node.prefixLen s.jumpNodes.getLast? (d.movedKey s jumpNode) (d.moved s jumpNode) = result at hfit ⊢
  obtain ⟨newJumpNode, jumpKey, known⟩ := result
  obtain ⟨hleads, hoffset, hprefix, hknows, hknown⟩ := hfit
  dsimp only at hleads hoffset hprefix hknows hknown ⊢
  have hlength : newJumpNode.length = node.prefixLen - min (d.moved s jumpNode).prefixLen K.length := by
    have hsize := hleads.length
    rw [length_take_of_le (hleads.prefixLen hsound.compressed)] at hsize
    omega
  have hasserted : (s.asserted && decide (s.tempData + (d.moved s jumpNode).length < d.page.jumpSize) && known &&
      decide (s.tempData + newJumpNode.length < d.page.jumpSize)) = true := by
    rw [h.asserted, hknown, decide_eq_true hroom, decide_eq_true (hlength ▸ hroom')]
    rfl
  split
  case isTrue => exact ⟨Nat.le_succ _, ⟨K, o, h.table, h.fits, h.size, hasserted⟩, nofun⟩
  case isFalse hsize =>
    have hkept : Kept d nodes K' (d.moved s jumpNode).offset
        { s with
          rebuild := false
          jumpKey := jumpKey.copy newJumpNode.prefixLen newJumpNode.data
          jumpersNewSize := s.jumpersNewSize + newJumpNode.getJumpNodeSize
          asserted := s.asserted && decide (s.tempData + (d.moved s jumpNode).length < d.page.jumpSize) && known &&
            decide (s.tempData + newJumpNode.length < d.page.jumpSize)
          jumpNodes := s.jumpNodes ++ [newJumpNode]
          tempData := s.tempData + newJumpNode.length } := by
      refine ⟨⟨?_, ?_, ?_, hasserted⟩, hK' ▸ hknows, ?_⟩
      · rw [hK', ← hoffset]
        exact h.table.snoc (hoffset ▸ hlt) hleads
      · intro jumpNode' hmem
        rcases mem_append.mp hmem with hmem | hmem
        · exact h.fits jumpNode' hmem
        · rw [mem_singleton.mp hmem]
          exact hleads.fits hsound.compressed hsound.chain hsound.length
      · rw [jumpersSize_append, ← h.jumpersNewSize]
        exact Nat.not_lt.mp hsize
      · rw [jumpersSize_append, ← h.jumpersNewSize]
    refine ⟨Nat.le_of_eq length_append, ⟨_, _, hkept.toRebuilt⟩, fun _ => ⟨hkept, rfl, by simp, ?_⟩⟩
    rw [hlength]

end Deletion
end Firebird.Btr
