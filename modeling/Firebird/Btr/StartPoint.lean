import Firebird.Btr.DuplicateScan

/-! # Where a search ends -/

namespace Firebird.Btr
open Lib List

variable {descending firstPass : Bool} {page : LeafPage} {prev key : Key} {p q : List UInt8}
  {before after nodes : List IndexNode} {node : IndexNode} {n i : Nat}

/-! ### Comparing what is left -/

theorem walkBytes_cons (x : UInt8) (p : List UInt8) (y : UInt8) (q : List UInt8) : walkBytes descending (x :: p)
    (y :: q) =
    if x > y then some 0 else if x < y then none else (walkBytes descending p q).map (· + 1) := by
  cases descending <;> rfl

theorem walkBytes_of_le (h : StringLe descending p q) : walkBytes descending p q = none := by
  induction p generalizing q with
  | nil =>
    cases descending with
    | false => cases q <;> rfl
    | true =>
      obtain rfl := h.resolve_right Bool.noConfusion
      rfl
  | cons x p ih =>
    cases q with
    | nil =>
      obtain rfl : descending = true := h
      rfl
    | cons y q =>
      rw [walkBytes_cons]
      rcases h with hlt | ⟨rfl, h⟩
      · rw [if_neg (Std.not_lt.mpr (Std.le_of_lt hlt)), if_pos hlt]
      · rw [if_neg Std.lt_irrefl, if_neg Std.lt_irrefl, ih h]
        rfl

theorem walkBytes_of_lt (h : StringLe descending q p)
    (hne : p ≠ q) : walkBytes descending p q = some (commonPrefix p q) := by
  induction p generalizing q with
  | nil =>
    cases q with
    | nil => exact absurd rfl hne
    | cons y q =>
      obtain rfl : descending = true := h
      rfl
  | cons x p ih =>
    cases q with
    | nil =>
      obtain rfl := h.resolve_left (cons_ne_nil x p)
      rfl
    | cons y q =>
      rw [walkBytes_cons, commonPrefix]
      rcases h with hlt | ⟨rfl, h⟩
      · rw [if_pos hlt, if_neg fun hxy => Std.lt_irrefl (hxy ▸ hlt)]
      · rw [if_neg Std.lt_irrefl, if_neg Std.lt_irrefl, if_pos rfl, ih h fun hpq => hne (by rw [hpq])]
        rfl

theorem stringLe_drop (hn : n ≤ commonPrefix p q) (h : StringLe descending p q) : StringLe descending (p.drop n)
    (q.drop n) := by
  induction n generalizing p q with
  | zero => exact h
  | succ n ih =>
    cases p with
    | nil => exact absurd hn (Nat.not_succ_le_zero n)
    | cons x p =>
      cases q with
      | nil => exact absurd hn (Nat.not_succ_le_zero n)
      | cons y q =>
        rw [commonPrefix] at hn
        split at hn
        case isTrue hxy =>
          rcases h with hlt | ⟨-, h⟩
          · exact absurd (hxy ▸ hlt) Std.lt_irrefl
          · exact ih (Nat.le_of_succ_le_succ hn) h
        case isFalse => exact absurd hn (Nat.not_succ_le_zero n)

theorem drop_ne (hn : n ≤ commonPrefix p q) (hne : p ≠ q) : p.drop n ≠ q.drop n := by
  intro hdrop
  have htake := take_eq_of_le hn
  exact hne (by rw [← take_append_drop n p, htake, hdrop, take_append_drop])

theorem stringLe_take (l : List UInt8) (n : Nat) : StringLe false (l.take n) l := by
  induction l generalizing n with
  | nil => rw [take_nil]; exact .refl []
  | cons x l ih =>
    cases n with
    | zero => exact .inr rfl
    | succ n => exact .inr ⟨rfl, ih n⟩

theorem walk_node (hshare : node.prefixLen ≤ prev.length) (hn : node.prefixLen ≤ commonPrefix (node.key prev) key) :
    (StringLe descending key (node.key prev) → walkBytes descending (key.drop node.prefixLen) node.data = none) ∧
      (StringLe descending (node.key prev) key → node.key prev ≠ key →
        ∃ k, walkBytes descending (key.drop node.prefixLen) node.data = some k ∧
          node.prefixLen + k = commonPrefix (node.key prev) key) := by
  have hdata : node.data = (node.key prev).drop node.prefixLen := by
    rw [IndexNode.key, drop_left' (length_take_of_le hshare)]
  rw [commonPrefix_comm] at hn
  rw [hdata]
  refine ⟨fun hle => walkBytes_of_le (stringLe_drop hn hle), fun hle hne =>
    ⟨_, walkBytes_of_lt ?_ (drop_ne hn hne.symm), ?_⟩⟩
  · rw [commonPrefix_comm] at hn
    exact stringLe_drop hn hle
  · rw [commonPrefix_drop hn, commonPrefix_comm]

/-- What the prefix of a node says of its key, where the key before is not behind the key that is searched for. -/
structure PrefixTells (prev key m : Key) (node : IndexNode) (prefixLen : Nat) : Prop where
  not_lt : ¬node.prefixLen < prefixLen
  equal : node.prefixLen = prefixLen → node.prefixLen ≤ commonPrefix m key
  greater : prefixLen < node.prefixLen → commonPrefix m key = prefixLen ∧ m ≠ key

theorem prefixTells {prefixLen : Nat} (hstart : prefixLen = commonPrefix prev key)
    (hcommon : node.prefixLen = commonPrefix prev (node.key prev))
    (hle : StringLe descending (node.key prev) key) (hprev : prev = [] ∨ StringLe descending prev (node.key prev)) :
    PrefixTells prev key (node.key prev) node prefixLen := by
  rcases hprev with rfl | hprev
  · rw [commonPrefix_nil_left] at hstart hcommon
    exact ⟨by omega, fun _ => by omega, fun h => by omega⟩
  · have hmin := commonPrefix_between hprev hle
    refine ⟨by omega, fun _ => by omega, fun hlt => ⟨by omega, fun hsame => ?_⟩⟩
    rw [hsame] at hcommon
    omega

theorem key_eq_prev (hcompare : ¬(descending = true ∨ 0 < node.length ∨ firstPass = true))
    (hprev : prev = [] ∧ firstPass = true ∨ StringLe descending prev (node.key prev)) : node.key prev = prev := by
  obtain ⟨hascending, hcompare⟩ := not_or.mp hcompare
  obtain ⟨hlength, hfirst⟩ := not_or.mp hcompare
  have hshort : node.key prev = prev.take node.prefixLen := by
    rw [IndexNode.key, eq_nil_of_length_eq_zero (Nat.eq_zero_of_not_pos hlength), append_nil]
  have hle := hprev.resolve_left fun h => hfirst h.2
  rw [Bool.eq_false_iff.mpr hascending] at hle
  exact (hle.antisymm (hshort ▸ stringLe_take prev _)).symm

theorem findStart_spec {prefixLen : Nat} (hstart : prefixLen = commonPrefix prev key)
    (hprev : prev = [] ∧ firstPass = true ∨ StringLe descending prev key ∧ prev ≠ key)
    (hcompressed : Compressed prev (before ++ node :: after))
    (hnodes : ∀ n ∈ before, n.isEndBucket = false ∧ n.isEndLevel = false)
    (hlevel : node.isEndLevel = false) (hkey : node.key (keyAfter prev before) = key)
    (hbefore : ∀ e ∈ leafEntries prev before, StringLe descending e.1 key ∧ e.1 ≠ key)
    (horder : EntriesInOrder descending (leafEntries prev before))
    (hbehind : prev = [] ∧ firstPass = true ∨ ∀ e ∈ leafEntries prev before, StringLe descending prev e.1) :
    findStart descending key i (before ++ node :: after) prefixLen firstPass = some (some (i + before.length)) := by
  induction before generalizing prev prefixLen firstPass i with
  | nil =>
    obtain ⟨⟨hshare, -, hcommon⟩, -⟩ := hcompressed
    have hcommon := hcommon hlevel
    have hle : StringLe descending (node.key prev) key := hkey ▸ .refl _
    have hbefore' : prev = [] ∨ StringLe descending prev (node.key prev) := by
      rcases hprev with ⟨hnil, -⟩ | ⟨hprev, -⟩
      · exact .inl hnil
      · exact .inr (hkey ▸ hprev)
    have htells := prefixTells hstart hcommon hle hbefore'
    have hequal : node.prefixLen = prefixLen := by
      rcases Nat.lt_trichotomy node.prefixLen prefixLen with hlt | heq | hgt
      · exact absurd hlt htells.not_lt
      · exact heq
      · exact absurd hkey (htells.greater hgt).2
    have hcompare : descending = true ∨ 0 < node.length ∨ firstPass = true := by
      by_contra hcompare
      rcases hprev with ⟨-, hfirst⟩ | ⟨hprev, hne⟩
      · exact hcompare (.inr (.inr hfirst))
      · exact hne ((key_eq_prev hcompare (.inr (hkey ▸ hprev))).symm.trans hkey)
    have hwalk := (walk_node hshare (htells.equal hequal)).1 (hkey ▸ .refl _ : StringLe descending key (node.key prev))
    rw [nil_append, findStart, if_neg (by rw [hlevel]; simpa using Nat.not_lt.mp htells.not_lt),
      if_pos ⟨hequal, hcompare⟩, ← hequal, hwalk]
    rfl
  | cons m before ih =>
    obtain ⟨⟨hshare, -, hcommon⟩, hcompressed⟩ := hcompressed
    obtain ⟨hbucket, hmlevel⟩ := hnodes m mem_cons_self
    have hcommon := hcommon hmlevel
    have hentries : leafEntries prev (m :: before) = (m.key prev, m.recordNumber) :: leafEntries
        (m.key prev) before := by
      rw [leafEntries, if_neg (by simp [hbucket, hmlevel])]
    rw [hentries] at hbefore horder hbehind
    obtain ⟨hle, hne⟩ := hbefore _ mem_cons_self
    obtain ⟨hfirst, horder⟩ := pairwise_cons.mp horder
    have hprev' : prev = [] ∨ StringLe descending prev (m.key prev) := by
      rcases hbehind with ⟨hnil, -⟩ | hbehind
      · exact .inl hnil
      · exact .inr (hbehind _ mem_cons_self)
    have htells := prefixTells hstart hcommon hle hprev'
    have hrest : ∀ (prefixLen : Nat) (firstPass : Bool), prefixLen = commonPrefix (m.key prev) key →
        findStart descending key (i + 1) (before ++ node :: after) prefixLen firstPass = some
        (some (i + (m :: before).length)) := by
      intro prefixLen firstPass hprefixLen
      rw [ih hprefixLen (.inr ⟨hle, hne⟩) hcompressed (fun n hn => hnodes n (mem_cons_of_mem m hn)) hkey
        (fun e he => hbefore e (mem_cons_of_mem _ he)) horder (.inr fun e he => (hfirst e he).1), length_cons,
        Nat.add_assoc, Nat.add_comm 1]
    rw [cons_append, findStart, if_neg (by rw [hmlevel]; simpa using Nat.not_lt.mp htells.not_lt)]
    by_cases hcompare : m.prefixLen = prefixLen ∧ (descending = true ∨ 0 < m.length ∨ firstPass = true)
    · obtain ⟨k, hwalk, hk⟩ := (walk_node hshare (htells.equal hcompare.1)).2 hle hne
      rw [if_pos hcompare, ← hcompare.1, hwalk]
      simp only [hbucket, Bool.false_eq_true, if_false]
      exact hrest _ _ hk
    · rw [if_neg hcompare, if_neg (by simp [hbucket])]
      refine hrest _ _ ?_
      rcases Nat.lt_or_ge prefixLen m.prefixLen with hgt | hge
      · exact (htells.greater hgt).1.symm
      · -- a duplicate of the node before, in an ascending index
        have hequal : m.prefixLen = prefixLen := Nat.le_antisymm hge (Nat.not_lt.mp htells.not_lt)
        have hsame := key_eq_prev (fun h => hcompare ⟨hequal, h⟩) (hbehind.imp_right fun h => h _ mem_cons_self)
        rw [hsame]
        exact hstart

/-! ### The jump nodes -/

def JumpsLead (page : LeafPage) : Key → Nat → List LeafJump → Prop
  | _, _, [] => True
  | jumpKey, target, jumpNode :: jumps => target < jumpNode.target ∧ jumpNode.prefixLen ≤ jumpKey.length ∧
      ∃ before node after, page.nodes = before ++ node :: after ∧ before.length = jumpNode.target ∧
        (node.isEndBucket = false ∧ node.isEndLevel = false) ∧
        jumpKey.take jumpNode.prefixLen ++ jumpNode.data = (keyAfter [] before).take node.prefixLen ∧
        JumpsLead page ((keyAfter [] before).take node.prefixLen) jumpNode.target jumps

theorem leafEntries_append {nodes : List IndexNode} (h : ∀ n ∈ before, n.isEndBucket = false ∧ n.isEndLevel = false) :
    leafEntries prev (before ++ nodes) = leafEntries prev before ++ leafEntries (keyAfter prev before) nodes := by
  induction before generalizing prev with
  | nil => rfl
  | cons n before ih =>
    obtain ⟨hbucket, hlevel⟩ := h n mem_cons_self
    have hentry : ¬(n.isEndBucket || n.isEndLevel) = true := by simp [hbucket, hlevel]
    rw [cons_append, leafEntries, if_neg hentry, leafEntries, if_neg hentry, ih fun n' hn' =>
      h n' (mem_cons_of_mem n hn')]
    rfl

theorem leafEntries_cons (hnode : node.isEndBucket = false ∧ node.isEndLevel = false) (nodes : List IndexNode) :
    leafEntries prev (node :: nodes) = (node.key prev, node.recordNumber) :: leafEntries (node.key prev) nodes := by
  rw [leafEntries, if_neg (by simp [hnode.1, hnode.2])]

theorem Marked.entries_before {last : Bool} (h : Marked last (before ++ node :: after)) :
    ∀ n ∈ before, n.isEndBucket = false ∧ n.isEndLevel = false := by
  induction before with
  | nil => exact fun n hn => absurd hn not_mem_nil
  | cons m before ih =>
    intro n hn
    rcases Marked.cases h with ⟨hnil, -⟩ | ⟨hbucket, hlevel, h⟩
    · exact absurd hnil (append_ne_nil_of_right_ne_nil before (cons_ne_nil node after))
    · rcases mem_cons.mp hn with rfl | hn
      · exact ⟨hbucket, hlevel⟩
      · exact ih h n hn

structure Ordered (descending : Bool) (page : LeafPage) : Prop where
  compressed : Compressed [] page.nodes
  marked : ∃ last, Marked last page.nodes
  order : EntriesInOrder descending page.entries
  jumps : JumpsLead page [] 0 page.jumps

structure EntryAt (page : LeafPage) (before : List IndexNode) (node : IndexNode) (after : List IndexNode) : Prop where
  nodes : page.nodes = before ++ node :: after
  entry : node.isEndBucket = false ∧ node.isEndLevel = false

namespace Ordered
variable {before' after' : List IndexNode} {node' : IndexNode}

section
variable (h : Ordered descending page) (hat : EntryAt page before node after)
include h hat

theorem entries_before : ∀ n ∈ before, n.isEndBucket = false ∧ n.isEndLevel = false := by
  obtain ⟨last, hmarked⟩ := h.marked
  rw [hat.nodes] at hmarked
  exact hmarked.entries_before

theorem entries_eq :
    page.entries = leafEntries [] before ++ (node.key (keyAfter [] before), node.recordNumber) ::
      leafEntries (node.key (keyAfter [] before)) after := by
  rw [LeafPage.entries, hat.nodes, leafEntries_append (h.entries_before hat), leafEntries_cons hat.entry]

theorem le_of_mem {e : Key × Nat} (he : e ∈ leafEntries [] before) :
    StringLe descending e.1 (node.key (keyAfter [] before)) := by
  have horder := h.order
  rw [h.entries_eq hat] at horder
  exact ((pairwise_append.mp horder).2.2 e he _ mem_cons_self).1

end

theorem split (hat : EntryAt page before node after) (hat' : EntryAt page before' node' after')
    (hlt : before.length < before'.length) : ∃ mid, before' = before ++ node :: mid := by
  have hnodes := hat.nodes.symm.trans hat'.nodes
  rcases append_eq_append_iff.mp hnodes with ⟨mid, rfl, hrest⟩ | ⟨mid, rfl, -⟩
  · cases mid with
    | nil => exact absurd hlt (by simp)
    | cons n mid =>
      obtain ⟨rfl, -⟩ := cons.inj hrest
      exact ⟨mid, rfl⟩
  · rw [length_append] at hlt
    omega

theorem le_of_lt (h : Ordered descending page) (hat : EntryAt page before node after)
    (hat' : EntryAt page before' node' after')
    (hlt : before.length < before'.length) : StringLe descending (node.key (keyAfter [] before))
    (node'.key (keyAfter [] before')) := by
  obtain ⟨mid, rfl⟩ := split hat hat' hlt
  refine h.le_of_mem hat' (e := (node.key (keyAfter [] before), node.recordNumber)) ?_
  rw [leafEntries_append (h.entries_before hat), leafEntries_cons hat.entry]
  exact mem_append_right _ mem_cons_self

theorem keyAfter_mem (h : ∀ n ∈ before, n.isEndBucket = false ∧ n.isEndLevel = false) (hne : before ≠ []) :
    ∃ recno, (keyAfter [] before, recno) ∈ leafEntries [] before := by
  obtain ⟨first, last, rfl⟩ := eq_nil_or_concat before |>.resolve_left hne
  rw [concat_eq_append] at *
  refine ⟨last.recordNumber, ?_⟩
  rw [leafEntries_append fun n hn => h n (mem_append_left _ hn), leafEntries_cons (h last (by simp)), keyAfter_append]
  exact mem_append_right _ mem_cons_self

theorem prefix_eq (h : Ordered descending page) (hat : EntryAt page before node after) :
    node.prefixLen ≤ (keyAfter [] before).length ∧
      node.prefixLen = commonPrefix (keyAfter [] before) (node.key (keyAfter [] before)) := by
  have hcompressed := h.compressed
  rw [hat.nodes, compressed_append] at hcompressed
  obtain ⟨-, ⟨hshare, -, hcommon⟩, -⟩ := hcompressed
  exact ⟨hshare, hcommon hat.entry.2⟩

end Ordered

structure FirstAt (descending : Bool) (page : LeafPage) (key : Key) (before : List IndexNode) (node : IndexNode)
    (after : List IndexNode) : Prop extends EntryAt page before node after where
  ordered : Ordered descending page
  found : node.key (keyAfter [] before) = key
  first : ∀ e ∈ leafEntries [] before, e.1 ≠ key

section First
variable {descending : Bool} {page : LeafPage} {key : Key} {before after before' after' : List IndexNode}
  {node node' : IndexNode} {jumpKey : Key} {buffer : Nat → UInt8}

theorem FirstAt.le_before (h : FirstAt descending page key before node after) {e : Key × Nat}
    (he : e ∈ leafEntries [] before) : StringLe descending e.1 key ∧ e.1 ≠ key := by
  refine ⟨?_, h.first e he⟩
  rw [← h.found]
  exact h.ordered.le_of_mem h.toEntryAt he

theorem FirstAt.lt_length (h : FirstAt descending page key before node after) (hat : EntryAt page before' node' after')
    (hle : StringLe descending (node'.key (keyAfter [] before')) key) (hne : node'.key (keyAfter [] before') ≠ key) :
    before'.length < before.length := by
  by_contra hge
  rcases Nat.eq_or_lt_of_le (Nat.not_lt.mp hge) with hlength | hlt
  · obtain ⟨rfl, hnodes⟩ := append_inj (h.nodes.symm.trans hat.nodes) hlength
    obtain ⟨rfl, -⟩ := cons.inj hnodes
    exact hne h.found
  · have hbehind := h.ordered.le_of_lt h.toEntryAt hat hlt
    rw [h.found] at hbehind
    exact hne (hle.antisymm hbehind)

/-- A place at or before the first entry with the key, and what the key before that place has in common with it. -/
def AreaStart (page : LeafPage) (key : Key) (before : List IndexNode) (target prefixLen : Nat) : Prop :=
  ∃ passed rest, page.nodes = passed ++ rest ∧ passed.length = target ∧ target ≤ before.length ∧
    prefixLen = commonPrefix (keyAfter [] passed) key

theorem cells_jumpKey {jumpNode : LeafJump} {last : Key} (hknown : cells buffer 0 last.length = last)
    (hjumpKey : jumpKey <+: last)
    (hle : jumpNode.prefixLen ≤ jumpKey.length) (hshare : node.prefixLen ≤ (keyAfter [] before').length)
    (hdata : jumpKey.take jumpNode.prefixLen ++ jumpNode.data = (keyAfter [] before').take node.prefixLen) :
    cells (store (store buffer jumpNode.prefixLen jumpNode.data) node.prefixLen node.data) 0
    (node.prefixLen + node.length) =
      node.key (keyAfter [] before') := by
  have hsize : node.prefixLen = jumpNode.prefixLen + jumpNode.data.length := by
    have hlength := congrArg length hdata
    rwa [length_append, length_take_of_le hle, length_take_of_le hshare, eq_comm] at hlength
  have hold : cells buffer 0 jumpNode.prefixLen = jumpKey.take jumpNode.prefixLen := by
    obtain ⟨tail, rfl⟩ := hjumpKey
    rw [length_append, cells_add] at hknown
    obtain ⟨hhead, -⟩ := append_inj hknown (by simp)
    obtain ⟨k, hk⟩ := Nat.exists_eq_add_of_le hle
    rw [← hhead, hk, cells_add, take_left' (length_cells ..)]
  have hfirst : cells (store buffer jumpNode.prefixLen jumpNode.data) 0 node.prefixLen =
      (keyAfter [] before').take node.prefixLen := by
    rw [← hdata, hsize, cells_add, cells_store_of_disjoint (Or.inl (by omega)), hold, Nat.zero_add, cells_store_self]
  rw [cells_add, cells_store_of_disjoint (Or.inl (by omega)), hfirst, Nat.zero_add]
  exact congrArg _ (cells_store_self _ _ _)

theorem findArea_spec (h : FirstAt descending page key before node after) {jumps : List LeafJump}
    {target prefixLen testPrefix : Nat}
    {last : Key} (hjumps : JumpsLead page jumpKey target jumps) (hstart : AreaStart page key before target prefixLen)
    (hknown : cells buffer 0 last.length = last) (hjumpKey : jumpKey <+: last)
    (htest : testPrefix = commonPrefix last key)
    (hlast : last = [] ∨ StringLe descending last key ∧ ∀ before' node' after', EntryAt page before' node' after' →
      target < before'.length → StringLe descending last (node'.key (keyAfter [] before'))) :
    AreaStart page key before (findArea descending page key jumps buffer prefixLen testPrefix target).1
      (findArea descending page key jumps buffer prefixLen testPrefix target).2 := by
  induction jumps generalizing jumpKey target prefixLen testPrefix last buffer with
  | nil => exact hstart
  | cons jumpNode jumps ih =>
    obtain ⟨hlt, hle, before', node', after', hnodes, htarget, hentry, hdata, hjumps⟩ := hjumps
    have hat : EntryAt page before' node' after' := ⟨hnodes, hentry⟩
    obtain ⟨hshare, hcommon⟩ := h.ordered.prefix_eq hat
    have hread : page.readNode jumpNode.target = node' := by
      rw [LeafPage.readNode, hnodes, ← htarget, getD_eq_getElem?_getD, getElem?_append_right (le_refl _), Nat.sub_self]
      rfl
    have hsize : jumpNode.data.length + jumpNode.prefixLen = node'.prefixLen := by
      have hlength := congrArg length hdata
      rw [length_append, length_take_of_le hle, length_take_of_le hshare] at hlength
      omega
    have hknown' := cells_jumpKey hknown hjumpKey hle hshare hdata
    rw [findArea, hread, hsize]
    generalize store (store buffer jumpNode.prefixLen jumpNode.data) node'.prefixLen node'.data = buffer' at hknown' ⊢
    have hlength := length_key hshare
    have hhead : (node'.key (keyAfter [] before')).take jumpNode.prefixLen = last.take jumpNode.prefixLen := by
      obtain ⟨tail, rfl⟩ := hjumpKey
      rw [IndexNode.key, ← hdata, append_assoc, take_left' (length_take_of_le hle), take_append_of_le_length hle]
    have hjump : (keyAfter [] before').take node'.prefixLen <+: node'.key (keyAfter [] before') := prefix_append _ _
    have hfurther : ∀ b n a, EntryAt page b n a → jumpNode.target < b.length →
        StringLe descending (node'.key (keyAfter [] before')) (n.key (keyAfter [] b)) := by
      intro b n a hat' hlt'
      exact h.ordered.le_of_lt hat hat' (htarget ▸ hlt')
    have hbetween : StringLe descending (node'.key (keyAfter [] before')) key →
        min node'.prefixLen (commonPrefix (node'.key (keyAfter [] before')) key) = commonPrefix
        (keyAfter [] before') key := by
      intro hbefore
      have hne : before' ≠ [] := by
        rintro rfl
        rw [← htarget] at hlt
        exact Nat.not_lt_zero _ hlt
      obtain ⟨recno, hmem⟩ := Ordered.keyAfter_mem (h.ordered.entries_before hat) hne
      rw [commonPrefix_between (h.ordered.le_of_mem hat hmem) hbefore, ← hcommon]
    have hplace := h.lt_length hat
    have hlastLe : last ≠ [] → StringLe descending last key ∧
        StringLe descending last (node'.key (keyAfter [] before')) := by
      intro hne
      obtain ⟨hlastKey, hall⟩ := hlast.resolve_left hne
      exact ⟨hlastKey, hall before' node' after' hat (htarget ▸ hlt)⟩
    generalize node'.key (keyAfter [] before') = key' at *
    have hcells : cells buffer' jumpNode.prefixLen (node'.prefixLen + node'.length - jumpNode.prefixLen) =
        key'.drop jumpNode.prefixLen := by
      have hwithin : jumpNode.prefixLen ≤ node'.prefixLen + node'.length := by omega
      obtain ⟨k, hk⟩ := Nat.exists_eq_add_of_le hwithin
      rw [← hknown', hk, cells_add, Nat.zero_add, drop_left' (length_cells ..), Nat.add_sub_cancel_left]
    -- what the loop goes on with when the key is behind the node
    have hnext : StringLe descending key' key → key' ≠ key → ∀ testPrefix', testPrefix' = commonPrefix key' key →
        AreaStart page key before
          (findArea descending page key jumps buffer' (min node'.prefixLen testPrefix') testPrefix' jumpNode.target).1
          (findArea descending page key jumps buffer' (min node'.prefixLen testPrefix')
            testPrefix' jumpNode.target).2 := by
      intro hbefore hne testPrefix' htest'
      refine ih hjumps ⟨before', node' :: after', hnodes, htarget, ?_, ?_⟩ (hlength ▸ hknown') hjump htest'
        (.inr ⟨hbefore, hfurther⟩)
      · exact htarget ▸ Nat.le_of_lt (hplace hbefore hne)
      · rw [htest', hbetween hbefore]
    simp only [hcells]
    split
    case isTrue hreach =>
      have hagree : jumpNode.prefixLen ≤ commonPrefix key' key := by
        rw [htest] at hreach
        refine le_commonPrefix ?_ (hreach.trans (commonPrefix_le_right _ _)) (hhead.trans (take_eq_of_le hreach))
        omega
      have htotal : StringLe descending key key' ∨ StringLe descending key' key := StringLe.total key key'
      rcases htotal with hkey | hkey
      · rw [commonPrefix_comm] at hagree
        rw [walkBytes_of_le (stringLe_drop hagree hkey)]
        exact hstart
      · by_cases hne : key' = key
        · rw [hne, walkBytes_of_le (.refl _)]
          exact hstart
        · rw [walkBytes_of_lt (stringLe_drop hagree hkey) (drop_ne hagree hne).symm]
          refine hnext hkey hne _ ?_
          rw [commonPrefix_comm (key.drop _), commonPrefix_drop hagree]
    case isFalse hreach =>
      have hne : last ≠ [] := by
        rintro rfl
        have hnil := hjumpKey.length_le
        rw [length_nil] at hnil
        omega
      obtain ⟨hlastKey, hlastKey'⟩ := hlastLe hne
      have hshared : jumpNode.prefixLen ≤ commonPrefix last key' :=
        le_commonPrefix (hle.trans hjumpKey.length_le) (by omega) hhead.symm
      have hbefore : ¬StringLe descending key key' := by
        intro hkey
        have hmin := commonPrefix_between hlastKey hkey
        omega
      have hkey := (StringLe.total key key').resolve_left hbefore
      refine hnext hkey (fun hsame => hbefore (hsame ▸ .refl _)) _ ?_
      have hmin := commonPrefix_between hlastKey' hkey
      omega

theorem findNodeStartPoint_spec (h : FirstAt descending page key before node after) :
    findNodeStartPoint descending page key = some (some before.length) := by
  have hknown : cells (fun _ => (0 : UInt8)) 0 ([] : Key).length = [] := rfl
  have harea : AreaStart page key before (findAreaStartPoint descending page key).1
      (findAreaStartPoint descending page key).2 :=
    findArea_spec h h.ordered.jumps ⟨[], page.nodes, rfl, rfl, Nat.zero_le _, (commonPrefix_nil_left key).symm⟩
    hknown nil_prefix
      (commonPrefix_nil_left key).symm (.inl rfl)
  rw [findNodeStartPoint]
  generalize findAreaStartPoint descending page key = area at harea ⊢
  obtain ⟨start, prefixLen⟩ := area
  obtain ⟨passed, rest, hnodes, rfl, hle, hshare⟩ := harea
  obtain ⟨mid, rfl⟩ : ∃ mid, before = passed ++ mid := by
    rcases append_eq_append_iff.mp (hnodes.symm.trans h.nodes) with ⟨mid, hmid, -⟩ | ⟨mid, hmid, -⟩
    · exact ⟨mid, hmid⟩
    · rw [hmid, length_append] at hle
      have hmidNil : mid.length = 0 := by omega
      obtain rfl := length_eq_zero_iff.mp hmidNil
      exact ⟨[], by rw [hmid, append_nil, append_nil]⟩
  have hrest : rest = mid ++ node :: after := by
    have hboth := hnodes.symm.trans h.nodes
    rwa [append_assoc, append_cancel_left_eq] at hboth
  have hentries := h.ordered.entries_before h.toEntryAt
  have hpassed : ∀ n ∈ passed, n.isEndBucket = false ∧ n.isEndLevel = false :=
    fun n hn => hentries n (mem_append_left _ hn)
  have hsplit : leafEntries [] (passed ++ mid) = leafEntries [] passed ++ leafEntries (keyAfter [] passed) mid :=
    leafEntries_append hpassed
  have hcompressed := h.ordered.compressed
  rw [hnodes, compressed_append, hrest] at hcompressed
  have horder := h.ordered.order
  rw [h.ordered.entries_eq h.toEntryAt, hsplit, append_assoc] at horder
  have hbefore : ∀ e ∈ leafEntries (keyAfter [] passed) mid, StringLe descending e.1 key ∧ e.1 ≠ key := by
    intro e he
    exact h.le_before (hsplit ▸ mem_append_right _ he)
  have hfound := h.found
  rw [keyAfter_append] at hfound
  have hprev : keyAfter [] passed = [] ∧ true = true ∨ StringLe descending (keyAfter [] passed) key ∧
      keyAfter [] passed ≠ key := by
    by_cases hnil : passed = []
    · exact .inl ⟨by rw [hnil]; rfl, rfl⟩
    · obtain ⟨recno, hmem⟩ := Ordered.keyAfter_mem hpassed hnil
      exact .inr (h.le_before (hsplit ▸ mem_append_left _ hmem))
  have hbehind : keyAfter [] passed = [] ∧ true = true ∨
      ∀ e ∈ leafEntries (keyAfter [] passed) mid, StringLe descending (keyAfter [] passed) e.1 := by
    by_cases hnil : passed = []
    · exact .inl ⟨by rw [hnil]; rfl, rfl⟩
    · obtain ⟨recno, hmem⟩ := Ordered.keyAfter_mem hpassed hnil
      exact .inr fun e he => ((pairwise_append.mp horder).2.2 _ hmem e (mem_append_left _ he)).1
  have hmid : EntriesInOrder descending (leafEntries (keyAfter [] passed) mid) :=
    horder.sublist ((sublist_append_left _ _).trans (sublist_append_right _ _))
  have hstart := findStart_spec (i := passed.length) hshare hprev hcompressed.2
    (fun n hn => hentries n (mem_append_right _ hn)) h.entry.2 hfound hbefore hmid hbehind
  simp only [hnodes, drop_left', hrest]
  rw [hstart, length_append]

end First

end Firebird.Btr
