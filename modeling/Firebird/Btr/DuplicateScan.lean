import Firebird.Btr.DuplicateGroups

/-! # The scan of a leaf level -/

namespace Firebird.Btr
open Lib List

variable {index : ScannedIndex} {incarnation : Nat → Nat} {chain pages : List LeafPage} {page offset : Nat}
  {prev key : Key} {nodes : List IndexNode} {node : IndexNode} {state : FindState} {more : List (Key × Nat)}

def FindState.lastKey (state : FindState) : Key := cells state.key 0 state.keyLength

def AtNodes (chain : List LeafPage) (page offset : Nat) (prev : Key) (nodes : List IndexNode)
    (pages : List LeafPage) : Prop :=
  ∃ (p : LeafPage) (before : List IndexNode), chain.drop page = p :: pages ∧
  p.nodes = before ++ nodes ∧ before.length = offset ∧
    keyAfter [] before = prev ∧ ∀ node ∈ before, node.isEndBucket = false ∧ node.isEndLevel = false

/-- The key read last is that of the node before, or the next node is the first one of its page. -/
def Ready (offset : Nat) (key prev : Key) (first : Bool) : Prop := key = prev ∨ (offset = 0 ∧ prev = [] ∧ first = true)

def Marked (last : Bool) (nodes : List IndexNode) : Prop :=
  ∃ init marker, nodes = init ++ [marker] ∧ (∀ node ∈ init, node.isEndBucket = false ∧ node.isEndLevel = false) ∧
    marker.isEndLevel = last ∧ marker.isEndBucket = !last

theorem Marked.cases {last : Bool} (h : Marked last (node :: nodes)) :
    (nodes = [] ∧ node.isEndLevel = last ∧ node.isEndBucket = !last) ∨
      (node.isEndBucket = false ∧ node.isEndLevel = false ∧ Marked last nodes) := by
  obtain ⟨init, marker, heq, hinit, hmarker⟩ := h
  cases init with
  | nil =>
    obtain ⟨rfl, rfl⟩ := cons.inj heq
    exact .inl ⟨rfl, hmarker⟩
  | cons first init =>
    obtain ⟨rfl, rfl⟩ := cons.inj heq
    obtain ⟨hbucket, hlevel⟩ := hinit node mem_cons_self
    exact .inr ⟨hbucket, hlevel, init, marker, rfl, fun n hn => hinit n (mem_cons_of_mem node hn), hmarker⟩

theorem AtNodes.next (h : AtNodes chain page offset prev (node :: nodes) pages) (hbucket : node.isEndBucket = false)
    (hlevel : node.isEndLevel = false) : AtNodes chain page (offset + 1) (node.key prev) nodes pages := by
  obtain ⟨p, before, hpage, hnodes, hlength, hkey, hbefore⟩ := h
  refine ⟨p, before ++ [node], hpage, by rw [hnodes, append_assoc]; rfl, by rw [length_append, hlength]; rfl, ?_, ?_⟩
  · rw [keyAfter_append, hkey]
    rfl
  · intro n hn
    rcases mem_append.mp hn with hn | hn
    · exact hbefore n hn
    · obtain rfl := mem_singleton.mp hn
      exact ⟨hbucket, hlevel⟩

theorem AtNodes.nextPage {p : LeafPage} (h : AtNodes chain page offset prev nodes (p :: pages)) :
    AtNodes chain (page + 1) 0 [] p.nodes pages := by
  obtain ⟨p', before, hpage, -⟩ := h
  refine ⟨p, [], ?_, rfl, rfl, rfl, fun _ hn => absurd hn not_mem_nil⟩
  rw [← tail_drop, hpage]
  rfl

section Node
variable (hshare : node.prefixLen ≤ prev.length) (hcompressed : node.prefixLen = commonPrefix prev (node.key prev))
include hshare

theorem length_key : (node.key prev).length = node.prefixLen + node.length := by
  rw [IndexNode.key, length_append, length_take_of_le hshare]
  rfl

theorem key_eq_nil : node.key prev = [] ↔ node.length = 0 ∧ node.prefixLen = 0 := by
  rw [← length_eq_zero_iff, length_key hshare]
  omega

theorem lastKey_record (duplicate : Bool) (hready : Ready offset state.lastKey prev state.first) :
    (state.record node duplicate).lastKey = node.key prev := by
  have hold : cells state.key 0 node.prefixLen = prev.take node.prefixLen := by
    rcases hready with hkey | ⟨-, hprev, -⟩
    · have hlength : state.keyLength = prev.length := by rw [← hkey, FindState.lastKey, length_cells]
      obtain ⟨k, hk⟩ := Nat.exists_eq_add_of_le (hlength ▸ hshare)
      rw [← hkey, FindState.lastKey, hk, cells_add, take_left' (length_cells ..)]
    · have hzero : node.prefixLen = 0 := Nat.le_zero.mp (by rwa [hprev] at hshare)
      rw [hzero]
      rfl
  have hdata : cells (store state.key node.prefixLen node.data) (0 + node.prefixLen) node.length = node.data := by
    rw [Nat.zero_add]
    exact cells_store_self state.key node.prefixLen node.data
  rw [FindState.lastKey, FindState.record, Nat.add_comm, cells_add, hdata, cells_store_of_disjoint
    (Or.inl (by omega)), hold]
  rfl

include hcompressed

theorem isDuplicate_iff (hready : Ready offset state.lastKey prev state.first) :
    state.isDuplicate node = true ↔ node.key prev = state.lastKey := by
  have hlength := length_key hshare
  have hkeyLength : state.lastKey.length = state.keyLength := length_cells ..
  have hsame : cells state.key 0 state.keyLength = state.lastKey := rfl
  simp only [FindState.isDuplicate, hsame, Bool.and_eq_true, Bool.or_eq_true, decide_eq_true_eq]
  constructor
  · rintro ⟨hsize, hdata | ⟨⟨hzero, -⟩, hdata⟩⟩
    · rcases hready with hkey | ⟨-, hprev, -⟩
      · have hfull : node.prefixLen = prev.length := by rw [← hkey]; omega
        rw [IndexNode.key, eq_nil_of_length_eq_zero hdata, append_nil, hfull, take_length, hkey]
      · rw [hprev] at hshare
        have hnil : state.lastKey = [] := eq_nil_of_length_eq_zero (by simp at hshare; omega)
        rw [hnil, key_eq_nil (by rw [hprev]; exact hshare)]
        simp at hshare
        exact ⟨hdata, hshare⟩
    · rw [IndexNode.key, hzero, take_zero, nil_append, hdata]
  · intro hkey
    have hsize : node.length + node.prefixLen = state.keyLength := by rw [← hkeyLength, ← hkey, hlength, Nat.add_comm]
    refine ⟨hsize, ?_⟩
    rcases hready with hlast | ⟨-, hprev, hfirst⟩
    · rw [hkey, hlast, commonPrefix_self, ← hlast] at hcompressed
      exact .inl (by omega)
    · rw [hprev, commonPrefix_nil_left] at hcompressed
      refine .inr ⟨⟨hcompressed, hfirst⟩, ?_⟩
      rw [← hkey, IndexNode.key, hcompressed, take_zero, nil_append]

end Node

/-! ### The nodes of a page -/

/-- What the scan of a page comes to when the walk over the entries from there on has this result. -/
inductive PageScan (index : ScannedIndex) (chain pages : List LeafPage) (page : Nat) (last : Bool)
    (more : List (Key × Nat)) (walk : Option Group) : NodesEnd → Prop
  | groupEnd {offset : Nat} {prev : Key} {nodes : List IndexNode} {state : FindState} (here : AtNodes chain page offset
      prev nodes pages) (ready : Ready offset state.lastKey prev state.first) (entry : leafEntries prev nodes ≠ [])
      (walked : walk = some ⟨state.lastKey, state.recs, leafEntries prev nodes ++ more⟩) :
      PageScan index chain pages page last more walk (.groupEnd offset state)
  | allNulls {state : FindState} (walked : walk = none) : PageScan index chain pages page last
      more walk (.allNulls state)
  | marker {offset : Nat} {prev : Key} {node : IndexNode} {state : FindState} (here : AtNodes chain page offset prev
      [node] pages) (level : node.isEndLevel = last) (bucket : node.isEndBucket = !last)
      (ready : Ready offset state.lastKey prev state.first)
      (behind : index.descending = false → ∀ e ∈ more, StringLe false state.lastKey e.1)
      (walked : walk = nextGroup index state.lastKey state.duplicate state.recs state.prevRecno more) :
      PageScan index chain pages page last more walk (.marker node offset state)

def walkFrom (index : ScannedIndex) (state : FindState) (entries : List (Key × Nat)) : Option Group :=
  nextGroup index state.lastKey state.duplicate state.recs state.prevRecno entries

theorem findNodes_spec {last : Bool} (more : List (Key × Nat)) (hat : AtNodes chain page offset prev nodes pages)
    (hmarked : Marked last nodes) (hcompressed : Compressed prev nodes)
    (hready : Ready offset state.lastKey prev state.first)
    (hroom : ∀ e ∈ leafEntries prev nodes, e.1.length ≤ index.keySize)
    (horder : EntriesInOrder index.descending (leafEntries prev nodes ++ more))
    (hbehind : index.descending = false → ∀ e ∈ leafEntries prev nodes ++ more, StringLe false state.lastKey e.1) :
    ∃ result, findNodes index offset nodes state = some result ∧
      PageScan index chain pages page last more (walkFrom index state (leafEntries prev nodes ++ more)) result := by
  induction nodes generalizing offset prev state with
  | nil =>
    obtain ⟨init, marker, hnil, -⟩ := hmarked
    exact absurd hnil.symm (append_ne_nil_of_right_ne_nil init (cons_ne_nil marker []))
  | cons node nodes ih =>
    rcases hmarked.cases with ⟨rfl, hlevel, hbucket⟩ | ⟨hbucket, hlevel, hmarked⟩
    · have hend : (node.isEndBucket || node.isEndLevel) = true := by rw [hlevel, hbucket]; cases last <;> rfl
      have hnil : leafEntries prev [node] = [] := by rw [leafEntries, if_pos hend]
      rw [hnil] at hbehind ⊢
      exact ⟨.marker node offset state, by rw [findNodes, if_pos hend], .marker hat hlevel hbucket hready hbehind rfl⟩
    have hend : ¬(node.isEndBucket || node.isEndLevel) = true := by simp [hbucket, hlevel]
    obtain ⟨⟨hshare, -, hcommon⟩, hcompressed⟩ := hcompressed
    have hcommon := hcommon hlevel
    have hentries : leafEntries prev (node :: nodes) = (node.key prev, node.recordNumber) :: leafEntries
        (node.key prev) nodes := by
      rw [leafEntries, if_neg hend]
    rw [hentries] at hroom horder hbehind ⊢
    rw [cons_append] at horder hbehind ⊢
    have hsize := hroom _ mem_cons_self
    rw [length_key hshare] at hsize
    obtain ⟨hfirst, horder⟩ := pairwise_cons.mp horder
    have hroom' : ∀ e ∈ leafEntries (node.key prev) nodes, e.1.length ≤ index.keySize := fun e he =>
      hroom e (mem_cons_of_mem _ he)
    have hnext := hat.next hbucket hlevel
    rw [findNodes, if_neg hend, if_neg (Nat.not_lt.mpr hsize)]
    by_cases hnull : node.key prev = [] ∧ index.descending = false
    · -- nulls of an ascending index are passed over
      obtain ⟨hlength, hzero⟩ := (key_eq_nil hshare).mp hnull.1
      have hlast : state.lastKey = [] := by
        have hle := hbehind hnull.2 _ mem_cons_self
        rw [hnull.1] at hle
        exact hle.antisymm (.inr rfl)
      have hwalk : walkFrom index state ((node.key prev, node.recordNumber) :: (leafEntries (node.key prev) nodes ++
          more)) = walkFrom index state (leafEntries (node.key prev) nodes ++ more) := by
        rw [walkFrom, nextGroup, if_pos hnull]
        rfl
      rw [if_pos (by simp [hlength, hzero, hnull.2]), hwalk]
      exact ih hnext hmarked hcompressed (.inl (hlast.trans hnull.1.symm)) hroom' horder fun hasc e he =>
        hbehind hasc e (mem_cons_of_mem _ he)
    have hskip : ¬(node.length = 0 && node.prefixLen = 0 && !index.descending) = true := by
      simp only [Bool.and_eq_true, decide_eq_true_eq, Bool.not_eq_true']
      rintro ⟨hempty, hasc⟩
      exact hnull ⟨(key_eq_nil hshare).mpr hempty, hasc⟩
    rw [if_neg hskip]
    have hdup := isDuplicate_iff hshare hcommon hready
    generalize hduplicate : state.isDuplicate node = duplicate at hdup ⊢
    have hkey := lastKey_record hshare duplicate hready
    have hwalk : walkFrom index state ((node.key prev, node.recordNumber) ::
        (leafEntries (node.key prev) nodes ++ more)) =
        if duplicate then walkFrom index (state.record node true) (leafEntries (node.key prev) nodes ++ more)
        else if state.duplicate then
          some ⟨state.lastKey, state.recs, (node.key prev, node.recordNumber) ::
            (leafEntries (node.key prev) nodes ++ more)⟩
        else if index.descending ∧ node.key prev = index.nullKey then none
        else walkFrom index (state.record node false) (leafEntries (node.key prev) nodes ++ more) := by
      rw [walkFrom, nextGroup, if_neg hnull]
      cases duplicate with
      | true => rw [if_pos (hdup.mp rfl), walkFrom, hkey, hdup.mp rfl]; rfl
      | false => rw [if_neg fun h => Bool.false_ne_true (hdup.mpr h), if_neg Bool.false_ne_true, walkFrom, hkey]; rfl
    have hnulls : (state.record node duplicate).isAllNulls index = true ↔
        duplicate = false ∧ index.descending = true ∧ node.key prev = index.nullKey := by
      have hcells : cells (state.record node duplicate).key 0 (state.record node duplicate).keyLength = node.key prev :=
        hkey
      have hlength : (state.record node duplicate).keyLength = (node.key prev).length := by rw [← hcells, length_cells]
      rw [FindState.isAllNulls, hcells, hlength]
      simp only [Bool.and_eq_true, Bool.not_eq_true', decide_eq_true_eq]
      constructor
      · rintro ⟨⟨⟨hnew, hdescending⟩, -⟩, hsame⟩
        exact ⟨hnew, hdescending, hsame⟩
      · rintro ⟨hnew, hdescending, hsame⟩
        exact ⟨⟨⟨hnew, hdescending⟩, congrArg length hsame⟩, hsame⟩
    have hbehind' : index.descending = false → ∀ e ∈ leafEntries (node.key prev) nodes ++ more,
        StringLe false (state.record node duplicate).lastKey e.1 := by
      intro hasc e he
      rw [hkey]
      exact hasc ▸ (hfirst e he).1
    have hrest := @ih (offset + 1) (node.key prev) (state.record node duplicate) hnext hmarked hcompressed (.inl hkey)
      hroom' horder hbehind'
    rw [hwalk]
    cases duplicate with
    | true =>
      exact hrest
    | false =>
      by_cases hopen : state.duplicate = true
      · rw [if_pos (by simp [hopen]), if_pos hopen]
        refine ⟨_, rfl, .groupEnd hat hready ?_ ?_⟩
        · rw [hentries]
          exact cons_ne_nil _ _
        · rw [hentries]
          rfl
      · rw [if_neg (by simp [hopen]), if_neg hopen]
        by_cases hlast : index.descending = true ∧ node.key prev = index.nullKey
        · rw [if_pos (hnulls.mpr ⟨rfl, hlast⟩), if_pos hlast]
          exact ⟨_, rfl, .allNulls rfl⟩
        · rw [if_neg fun h => hlast (hnulls.mp h).2, if_neg hlast]
          exact hrest

def PagesOk : List LeafPage → Prop
  | [] => True
  | page :: pages => Compressed [] page.nodes ∧ Marked pages.isEmpty page.nodes ∧ PagesOk pages

structure Saved (chain : List LeafPage) (next : Group) (scanner : IndexDuplicateScanner) (page offset : Nat)
    (prev : Key) (nodes : List IndexNode) (pages : List LeafPage) : Prop where
  initialized : scanner.initialized = true
  key : cells scanner.key 0 scanner.keyLength = next.key
  savePage : scanner.savePage = some page
  saveOffset : scanner.saveOffset = offset
  here : AtNodes chain page offset prev nodes pages
  ready : Ready offset next.key prev (offset = 0)
  entry : leafEntries prev nodes = [] → pages = []
  rest : next.rest = leafEntries prev nodes ++ chainEntries pages

def Scanned (chain : List LeafPage) (walk : Option Group) (result : FindResult) : Prop :=
  match walk with
  | none => result.found = false
  | some next => result.found = true ∧ result.recs = next.recs ∧
    ∃ page offset prev nodes pages, Saved chain next result.scanner page offset prev nodes pages

theorem Ready.of_first {first : Bool} (h : Ready offset key prev first) : Ready offset key prev (offset = 0) := by
  rcases h with hkey | ⟨hoffset, hprev, -⟩
  · exact .inl hkey
  · exact .inr ⟨hoffset, hprev, by simpa using hoffset⟩

theorem scanned_groupEnd (incarnation : Nat → Nat) (hat : AtNodes chain page offset prev nodes pages)
    (hready : Ready offset state.lastKey prev state.first) (hentry : leafEntries prev nodes = [] → pages = []) :
    Scanned chain (some ⟨state.lastKey, state.recs, leafEntries prev nodes ++ chainEntries pages⟩)
      ⟨true, state.recs, savePosition incarnation state page offset⟩ :=
  ⟨rfl, rfl, page, offset, prev, nodes, pages, rfl, rfl, rfl, rfl, hat, hready.of_first, hentry, rfl⟩

theorem scanned_finish {marker : IndexNode} (hat : AtNodes chain page offset prev [marker] [])
    (hready : Ready offset state.lastKey prev state.first)
    (hmarker : (marker.isEndBucket || marker.isEndLevel) = true) :
    Scanned chain (walkFrom index state []) (finish incarnation page offset state) := by
  have hwalk : walkFrom index state [] = if state.duplicate then some ⟨state.lastKey, state.recs, []⟩ else none := rfl
  have hnil : leafEntries prev [marker] = [] := by rw [leafEntries, if_pos hmarker]
  rw [hwalk, finish]
  cases state.duplicate with
  | true =>
    have hscanned := scanned_groupEnd incarnation hat hready fun _ => rfl
    rw [hnil] at hscanned
    exact hscanned
  | false => rfl

theorem findPages_spec (hat : AtNodes chain page offset prev nodes pages) (hmarked : Marked pages.isEmpty nodes)
    (hcompressed : Compressed prev nodes) (hpages : PagesOk pages)
    (hready : Ready offset state.lastKey prev state.first)
    (hroom : ∀ e ∈ leafEntries prev nodes ++ chainEntries pages, e.1.length ≤ index.keySize)
    (horder : EntriesInOrder index.descending (leafEntries prev nodes ++ chainEntries pages))
    (hbehind : index.descending = false → ∀ e ∈ leafEntries prev nodes ++ chainEntries pages,
      StringLe false state.lastKey e.1) :
    ∃ result, findPages index incarnation page offset nodes pages state = some result ∧
      Scanned chain (walkFrom index state (leafEntries prev nodes ++ chainEntries pages)) result := by
  induction pages generalizing page offset prev nodes state with
  | nil =>
    obtain ⟨ended, hnodes, hscan⟩ := findNodes_spec (chainEntries []) hat hmarked hcompressed hready
      (fun e he => hroom e (mem_append_left _ he)) horder hbehind
    unfold findPages
    rw [hnodes]
    cases hscan with
    | groupEnd here ready entry walked =>
      rw [walked]
      exact ⟨_, rfl, scanned_groupEnd incarnation here ready fun hnil => absurd hnil entry⟩
    | allNulls walked =>
      rw [walked]
      exact ⟨_, rfl, rfl⟩
    | marker here level bucket ready behind walked =>
      refine ⟨_, rfl, ?_⟩
      rw [walked]
      exact scanned_finish here ready (by rw [level]; exact Bool.or_true _)
  | cons p pages ih =>
    obtain ⟨ended, hnodes, hscan⟩ := findNodes_spec (chainEntries (p :: pages)) hat hmarked hcompressed hready
      (fun e he => hroom e (mem_append_left _ he)) horder hbehind
    obtain ⟨hcompressed', hmarked', hpages'⟩ := hpages
    unfold findPages
    rw [hnodes]
    cases hscan with
    | groupEnd here ready entry walked =>
      rw [walked]
      exact ⟨_, rfl, scanned_groupEnd incarnation here ready fun hnil => absurd hnil entry⟩
    | allNulls walked =>
      rw [walked]
      exact ⟨_, rfl, rfl⟩
    | marker here level bucket ready behind walked =>
      have hlevel := Bool.eq_false_iff.mp level
      rw [walked]
      simp only [if_neg hlevel]
      have hentries : chainEntries (p :: pages) = leafEntries [] p.nodes ++ chainEntries pages := rfl
      refine ih here.nextPage hmarked' hcompressed' hpages' (.inr ⟨rfl, rfl, rfl⟩) (fun e he => hroom e ?_) ?_ behind
      · exact mem_append_right _ he
      · exact EntriesInOrder.of_append (leafEntries prev nodes) horder

end Firebird.Btr
