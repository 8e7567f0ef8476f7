import Firebird.Btr.StartPoint

/-! # Runs of the scanner -/

namespace Firebird.Btr
open Lib List

variable {index : ScannedIndex} {incarnation : Nat → Nat} {chain pages : List LeafPage}
  {page offset : Nat} {prev key : Key}
  {nodes before run : List IndexNode} {node : IndexNode} {es : List (Key × Nat)} {scanner : IndexDuplicateScanner}
  {next : Group}

structure LeafChainOk (index : ScannedIndex) (chain : List LeafPage) : Prop where
  nonempty : chain ≠ []
  pages : PagesOk chain
  jumps : ∀ p ∈ chain, JumpsLead p [] 0 p.jumps
  order : EntriesInOrder index.descending (chainEntries chain)
  nulls : NullsInPlace index (chainEntries chain)
  room : ∀ e ∈ chainEntries chain, e.1.length ≤ index.keySize

/-- The second node of the page looks like a repetition of the first one to who does not look at its prefix. -/
def LeafPage.looksRepeated (p : LeafPage) (key : Key) : Bool :=
  match p.nodes with
  | first :: second :: _ => first.data = key && second.data = key && !(second.isEndBucket || second.isEndLevel)
  | _ => false

/-- The key is found on the page again, or the page is empty. -/
def LeafPage.canResume (p : LeafPage) (key : Key) : Bool :=
  p.entries.isEmpty || (p.entries.any (·.1 = key) && !p.looksRepeated key)

/-- The saved page did not leave the cache, or the saved key is found on it. -/
def CanResume (chain : List LeafPage) (incarnation : Nat → Nat) (scanner : IndexDuplicateScanner) : Prop :=
  ∀ page, scanner.savePage = some page → incarnation page = scanner.saveIncarnation ∨
    ∃ p, chain[page]? = some p ∧ p.canResume (cells scanner.key 0 scanner.keyLength) = true

def ResumesEach (index : ScannedIndex) (chain : List LeafPage) : List (Nat → Nat) → IndexDuplicateScanner → Prop
  | [], _ => True
  | incarnation :: rest, scanner => CanResume chain incarnation scanner ∧
      ∀ result, find index incarnation chain scanner = some result → result.found = true →
      ResumesEach index chain rest result.scanner

theorem AtNodes.nodesFrom_eq (h : AtNodes chain page offset prev nodes pages) :
    nodesFrom chain page offset = nodes := by
  obtain ⟨p, before, hpage, hnodes, rfl, -⟩ := h
  have hget : (chain.map LeafPage.nodes)[page]? = some p.nodes := by
    have hfirst := congrArg head? hpage
    rw [head?_drop] at hfirst
    rw [getElem?_map, hfirst]
    rfl
  rw [nodesFrom, getD_eq_getElem?_getD, hget, Option.getD_some, hnodes, drop_left]

theorem AtNodes.pages_eq (h : AtNodes chain page offset prev nodes pages) : chain.drop (page + 1) = pages := by
  obtain ⟨p, before, hpage, -⟩ := h
  rw [← tail_drop, hpage]
  rfl

theorem PagesOk.drop (h : PagesOk chain) (n : Nat) : PagesOk (chain.drop n) := by
  induction n generalizing chain with
  | zero => exact h
  | succ n ih =>
    cases chain with
    | nil => trivial
    | cons p pages => exact ih h.2.2

theorem Marked.of_append {last : Bool} (h : Marked last (before ++ nodes))
    (hbefore : ∀ n ∈ before, n.isEndBucket = false ∧ n.isEndLevel = false) : Marked last nodes := by
  induction before with
  | nil => exact h
  | cons n before ih =>
    obtain ⟨hbucket, hlevel⟩ := hbefore n mem_cons_self
    rcases Marked.cases h with ⟨-, hlast, hnot⟩ | ⟨-, -, h⟩
    · rw [hlevel] at hlast
      rw [hbucket, ← hlast] at hnot
      exact absurd hnot Bool.false_ne_true
    · exact ih h fun n' hn' => hbefore n' (mem_cons_of_mem n hn')

theorem AtNodes.ok (h : AtNodes chain page offset prev nodes pages) (hpages : PagesOk chain) :
    Compressed prev nodes ∧ Marked pages.isEmpty nodes ∧ PagesOk pages := by
  obtain ⟨p, before, hpage, hnodes, -, hprev, hbefore⟩ := h
  have hdrop := hpages.drop page
  rw [hpage] at hdrop
  obtain ⟨hcompressed, hmarked, hrest⟩ := hdrop
  rw [hnodes, compressed_append, hprev] at hcompressed
  rw [hnodes] at hmarked
  exact ⟨hcompressed.2, hmarked.of_append hbefore, hrest⟩

theorem AtNodes.entries_eq (h : AtNodes chain page offset prev nodes pages) :
    ∃ before, chainEntries chain = before ++ (leafEntries prev nodes ++ chainEntries pages) := by
  obtain ⟨p, before, hpage, hnodes, -, hprev, hbefore⟩ := h
  refine ⟨chainEntries (chain.take page) ++ leafEntries [] before, ?_⟩
  have hentries : p.entries = leafEntries [] before ++ leafEntries prev nodes := by
    rw [LeafPage.entries, hnodes, leafEntries_append hbefore, hprev]
  have hchain : chainEntries chain = chainEntries (chain.take page) ++ chainEntries (chain.drop page) := by
    rw [chainEntries, chainEntries, chainEntries, ← flatMap_append, take_append_drop]
  rw [hchain, hpage, chainEntries, chainEntries, flatMap_cons, hentries, chainEntries]
  simp

theorem exists_first {descending : Bool} (hentries : ∀ n ∈ before, n.isEndBucket = false ∧ n.isEndLevel = false)
    (horder : EntriesInOrder descending (leafEntries prev before)) (hmem : ∃ e ∈ leafEntries prev before, e.1 = key)
    (hle : ∀ e ∈ leafEntries prev before, StringLe descending e.1 key) :
    ∃ lows first run, before = lows ++ first :: run ∧ first.key (keyAfter prev lows) = key ∧
      (∀ e ∈ leafEntries prev lows, e.1 ≠ key) ∧ ∀ e ∈ leafEntries key run, e.1 = key := by
  induction before generalizing prev with
  | nil =>
    obtain ⟨e, he, -⟩ := hmem
    exact absurd he not_mem_nil
  | cons n before ih =>
    have hrest := fun n' hn' => hentries n' (mem_cons_of_mem n hn')
    rw [leafEntries_cons (hentries n mem_cons_self)] at horder hmem hle
    obtain ⟨hfirst, horder⟩ := pairwise_cons.mp horder
    by_cases hkey : n.key prev = key
    · refine ⟨[], n, before, rfl, hkey, fun e he => absurd he not_mem_nil, fun e he => ?_⟩
      rw [← hkey] at he
      exact (hle e (mem_cons_of_mem _ he)).antisymm (hkey ▸ (hfirst e he).1)
    · obtain ⟨e, he, hsame⟩ := hmem
      rcases mem_cons.mp he with rfl | he
      · exact absurd hsame hkey
      · obtain ⟨lows, first, run, rfl, hfound, hlows, hrun⟩ :=
          ih hrest horder ⟨e, he, hsame⟩ fun e' he' => hle e' (mem_cons_of_mem _ he')
        refine ⟨n :: lows, first, run, rfl, hfound, fun e' he' => ?_, hrun⟩
        rw [leafEntries_cons (hentries n mem_cons_self)] at he'
        rcases mem_cons.mp he' with rfl | he'
        · exact hkey
        · exact hlows e' he'

theorem skipNodes_run {first : Bool} (hkey : cells scanner.key 0 scanner.keyLength = key)
    (hrun : ∀ n ∈ run, n.isEndBucket = false ∧ n.isEndLevel = false) (hcompressed : Compressed key (run ++ nodes))
    (hsame : ∀ e ∈ leafEntries key run, e.1 = key) :
    skipNodes scanner offset (run ++ nodes) false first = skipNodes scanner (offset + run.length) nodes false
    (first && run.isEmpty) := by
  induction run generalizing offset first with
  | nil => rw [nil_append, isEmpty_nil, Bool.and_true, length_nil, Nat.add_zero]
  | cons n run ih =>
    obtain ⟨hbucket, hlevel⟩ := hrun n mem_cons_self
    obtain ⟨⟨hshare, -, hcommon⟩, hcompressed⟩ := hcompressed
    rw [leafEntries_cons ⟨hbucket, hlevel⟩] at hsame
    have hnkey : n.key key = key := hsame _ mem_cons_self
    have hcommon := hcommon hlevel
    rw [hnkey, computePrefix, commonPrefix_self] at hcommon
    have hlength := length_key hshare
    rw [hnkey] at hlength hsame hcompressed
    have hkeyLength : scanner.keyLength = key.length := by rw [← hkey, length_cells]
    have hempty : n.length = 0 := by omega
    have hskip : ((n.length = 0 && n.prefixLen = scanner.keyLength) ||
        (first && n.length = scanner.keyLength && cells scanner.key 0 scanner.keyLength = n.data)) = true := by
      simp [hempty, hcommon, hkeyLength]
    rw [cons_append, skipNodes, if_neg (by simp [hlevel]), if_neg (by simp [hbucket]),
      if_neg Bool.false_ne_true, if_pos hskip,
      ih (fun n' hn' => hrun n' (mem_cons_of_mem n hn')) hcompressed fun e he => hsame e (mem_cons_of_mem _ he),
      isEmpty_cons, Bool.and_false, Bool.false_and, length_cons, Nat.add_assoc, Nat.add_comm 1]

inductive Standing (index : ScannedIndex) (chain : List LeafPage) : IndexDuplicateScanner → List (Key × Nat) → Prop
  | start : Standing index chain {} (chainEntries chain)
  | saved {next : Group} {scanner : IndexDuplicateScanner} {page offset : Nat} {prev : Key} {nodes : List IndexNode}
      {pages : List LeafPage} (here : Saved chain next scanner page offset prev nodes pages)
      (before : ∃ before e, chainEntries chain = before ++ e :: next.rest ∧ e.1 = next.key)
      (apart : ∀ e ∈ next.rest, e.1 ≠ next.key) (ne : next.key ≠ []) : Standing index chain scanner next.rest

theorem ordered_of_mem {p : LeafPage} (hchain : LeafChainOk index chain) (hpage : chain.drop page = p :: pages) :
    Ordered index.descending p := by
  have hpages := hchain.pages.drop page
  rw [hpage] at hpages
  have hmem : p ∈ chain := drop_sublist page chain |>.subset (hpage ▸ mem_cons_self)
  refine ⟨hpages.1, ⟨_, hpages.2.1⟩, ?_, hchain.jumps p hmem⟩
  have horder := hchain.order
  rw [← take_append_drop page chain, chainEntries, flatMap_append, hpage] at horder
  exact horder.sublist ((sublist_append_left _ _).trans (sublist_append_right _ _))

theorem endLevel_of_nil (hmarked : Marked pages.isEmpty nodes) (hnil : leafEntries prev nodes = [] → pages = [])
    (hempty : leafEntries prev nodes = []) : ∃ marker, nodes = [marker] ∧ marker.isEndLevel = true ∧ pages = [] := by
  obtain rfl := hnil hempty
  cases nodes with
  | nil =>
    obtain ⟨init, marker, heq, -⟩ := hmarked
    exact absurd heq.symm (append_ne_nil_of_right_ne_nil init (cons_ne_nil marker []))
  | cons node nodes =>
    rcases hmarked.cases with ⟨rfl, hlevel, -⟩ | ⟨hbucket, hlevel, -⟩
    · exact ⟨node, rfl, hlevel, rfl⟩
    · rw [leafEntries_cons ⟨hbucket, hlevel⟩] at hempty
      exact absurd hempty (cons_ne_nil _ _)

theorem leafEntries_eq_nil (hbefore : ∀ n ∈ before, n.isEndBucket = false ∧ n.isEndLevel = false)
    (h : leafEntries prev before = []) : before = [] := by
  cases before with
  | nil => rfl
  | cons n before =>
    rw [leafEntries_cons (hbefore n mem_cons_self)] at h
    exact absurd h (cons_ne_nil _ _)

theorem restorePosition_eq {p : LeafPage} (hsave : scanner.savePage = some page) (hpage : chain.drop page = p :: pages)
    (hgone : incarnation page ≠ scanner.saveIncarnation)
    (hstart : findNodeStartPoint index.descending p (cells scanner.key 0 scanner.keyLength) = some (some offset)) :
    restorePosition index incarnation chain scanner =
      skipPages scanner page offset (nodesFrom chain page offset) (chain.drop (page + 1)) true := by
  simp only [restorePosition, hsave, if_neg hgone, hpage, findStartPage, hstart]

section
variable {p : LeafPage} (hchain : LeafChainOk index chain)
  (here : Saved chain next scanner page offset prev nodes pages)
include hchain here

theorem restore_empty
    (hpage : chain.drop page = p :: pages) (hempty : p.entries = [])
    (hgone : incarnation page ≠ scanner.saveIncarnation) :
    restorePosition index incarnation chain scanner = some none ∧ next.rest = [] := by
  obtain ⟨-, hmarked, -⟩ := here.here.ok hchain.pages
  have hordered := ordered_of_mem hchain hpage
  obtain ⟨p', before, hpage', hnodes, hoffset, hprev, hbefore⟩ := here.here
  obtain ⟨rfl, -⟩ := cons.inj (hpage'.symm.trans hpage)
  have hsplit : p'.entries = leafEntries [] before ++ leafEntries prev nodes := by
    rw [LeafPage.entries, hnodes, leafEntries_append hbefore, hprev]
  obtain ⟨hnone, hnil⟩ := append_eq_nil_iff.mp (hsplit.symm.trans hempty)
  obtain rfl := leafEntries_eq_nil hbefore hnone
  obtain ⟨marker, rfl, hlevel, rfl⟩ := endLevel_of_nil hmarked here.entry hnil
  have hjumps : p'.jumps = [] := by
    cases hjumps : p'.jumps with
    | nil => rfl
    | cons jumpNode jumps =>
      have hlead := hordered.jumps
      rw [hjumps] at hlead
      obtain ⟨-, -, b, n, a, hsame, -, hentry, -⟩ := hlead
      have hmem : n ∈ [marker] := by
        rw [← nil_append [marker], ← hnodes, hsame]
        simp
      rw [mem_singleton.mp hmem, hlevel] at hentry
      exact absurd hentry.2.symm Bool.false_ne_true
  have hstart : findNodeStartPoint index.descending p' (cells scanner.key 0 scanner.keyLength) = some (some 0) := by
    rw [findNodeStartPoint, findAreaStartPoint, hjumps, hnodes]
    simp [findArea, findStart, hlevel]
  obtain rfl : 0 = offset := hoffset
  rw [restorePosition_eq here.savePage hpage hgone hstart, here.here.nodesFrom_eq]
  refine ⟨?_, by rw [here.rest, hnil]; rfl⟩
  unfold skipPages
  simp [skipNodes, hlevel]

theorem last_key
    (hlast : ∃ before e, chainEntries chain = before ++ e :: next.rest ∧ e.1 = next.key)
    (hpage : chain.drop page = p :: pages) (hnodes : p.nodes = before ++ nodes) (hprev : keyAfter [] before = prev)
    (hentries : ∀ n ∈ before, n.isEndBucket = false ∧ n.isEndLevel = false)
    (hmem : ∃ e ∈ leafEntries [] before, e.1 = next.key) :
    keyAfter [] before = next.key ∧ ∀ e ∈ leafEntries [] before, StringLe index.descending e.1 next.key := by
  obtain ⟨upTo, e, hsplit, hkey⟩ := hlast
  have hchainSplit : chainEntries chain = chainEntries (chain.take page) ++ (p.entries ++ chainEntries pages) := by
    rw [← take_append_drop page chain, chainEntries, flatMap_append, take_append_drop, hpage]
    rfl
  have hentriesSplit : p.entries = leafEntries [] before ++ leafEntries prev nodes := by
    rw [LeafPage.entries, hnodes, leafEntries_append hentries, hprev]
  have horder := hchain.order
  rw [hsplit, append_cons] at horder
  rw [hentriesSplit, append_assoc, ← here.rest, ← append_assoc, hsplit, append_cons] at hchainSplit
  have hsame := append_cancel_right hchainSplit
  obtain ⟨e', he', -⟩ := hmem
  have hne : before ≠ [] := by
    rintro rfl
    exact absurd he' not_mem_nil
  obtain ⟨first, last, rfl⟩ := eq_nil_or_concat before |>.resolve_left hne
  rw [concat_eq_append] at *
  have hfirst := fun n hn => hentries n (mem_append_left [last] hn)
  rw [leafEntries_append hfirst, leafEntries_cons (hentries last (by simp)), ← append_assoc] at hsame
  obtain ⟨-, hlastEntry⟩ := append_inj' hsame rfl
  obtain ⟨rfl, -⟩ := cons.inj hlastEntry
  refine ⟨by rw [keyAfter_append]; exact hkey, fun e'' he'' => ?_⟩
  have horder' := (pairwise_append.mp horder).1
  rw [hsame] at horder'
  rw [leafEntries_append hfirst, leafEntries_cons (hentries last (by simp))] at he''
  rcases mem_append.mp he'' with he'' | he''
  · have hle := ((pairwise_append.mp horder').2.2 e'' (mem_append_right _ he'') _ (mem_singleton_self _)).1
    exact hkey ▸ hle
  · rw [mem_singleton.mp he'', ← hkey]
    exact .refl _

theorem restore_found (hbefore : ∃ before e, chainEntries chain = before ++ e :: next.rest ∧ e.1 = next.key)
    (hapart : ∀ e ∈ next.rest, e.1 ≠ next.key) (hpage : chain.drop page = p :: pages)
    (hmem : ∃ e ∈ p.entries, e.1 = next.key)
    (hdiffers : p.looksRepeated next.key = false) (hgone : incarnation page ≠ scanner.saveIncarnation) :
    restorePosition index incarnation chain scanner = some (some (page, offset)) ∨
      (restorePosition index incarnation chain scanner = some none ∧ next.rest = []) := by
  obtain ⟨hcompressed, hmarked, -⟩ := here.here.ok hchain.pages
  have hordered := ordered_of_mem hchain hpage
  obtain ⟨p', before, hpage', hnodes, hoffset, hprev, hentries⟩ := here.here
  obtain ⟨rfl, -⟩ := cons.inj (hpage'.symm.trans hpage)
  have hsplit : p'.entries = leafEntries [] before ++ leafEntries prev nodes := by
    rw [LeafPage.entries, hnodes, leafEntries_append hentries, hprev]
  have horder := hordered.order
  rw [hsplit] at horder
  -- the entries up to the place end with the saved key
  have hmem' : ∃ e ∈ leafEntries [] before, e.1 = next.key := by
    obtain ⟨e, he, hkey⟩ := hmem
    rw [hsplit] at he
    rcases mem_append.mp he with he | he
    · exact ⟨e, he, hkey⟩
    · exact absurd hkey (hapart e (by rw [here.rest]; exact mem_append_left _ he))
  have hlast := last_key hchain here hbefore hpage' hnodes hprev hentries hmem'
  obtain ⟨lows, first, run, rfl, hfound, hlows, hrun⟩ :=
    exists_first hentries (horder.sublist (sublist_append_left _ _)) hmem' hlast.2
  have hnodes' : p'.nodes = lows ++ first :: (run ++ nodes) := by rw [hnodes, append_assoc, cons_append]
  have hfirst := hentries first (by simp)
  have hat : AtNodes chain page lows.length (keyAfter [] lows) (first :: (run ++ nodes)) pages :=
    ⟨p', lows, hpage', hnodes', rfl, rfl, fun n hn => hentries n (mem_append_left _ hn)⟩
  have hstart := findNodeStartPoint_spec ⟨⟨hnodes', hfirst⟩, hordered, hfound, hlows⟩
  rw [← here.key] at hstart
  have hcompressed' := (hat.ok hchain.pages).1.2
  rw [hfound] at hcompressed'
  rw [restorePosition_eq here.savePage hpage hgone hstart, hat.nodesFrom_eq]
  have hskip : ∀ flag, skipNodes scanner lows.length (first :: (run ++ nodes)) true flag =
      skipNodes scanner offset nodes false (flag && run.isEmpty) := by
    intro flag
    rw [skipNodes, if_neg (by simp [hfirst.2]), if_neg (by simp [hfirst.1]), if_pos rfl,
      skipNodes_run here.key (fun n hn => hentries n (by simp [hn])) hcompressed' hrun, ← hoffset, length_append,
      length_cons, Nat.add_assoc, Nat.add_comm 1]
  unfold skipPages
  rw [hskip]
  cases nodes with
  | nil =>
    obtain ⟨init, marker, heq, -⟩ := hmarked
    exact absurd heq.symm (append_ne_nil_of_right_ne_nil init (cons_ne_nil marker []))
  | cons node nodes =>
    rcases hmarked.cases with ⟨rfl, hlevel, hbucket⟩ | ⟨hbucket, hlevel, -⟩
    · -- the group was at the end of the level
      have hnil : leafEntries prev [node] = [] := by
        rw [leafEntries, if_pos]
        rw [hlevel, hbucket]
        exact Bool.not_or_self _
      obtain rfl := here.entry hnil
      refine .inr ⟨?_, by rw [here.rest, hnil]; rfl⟩
      simp [skipNodes, hlevel]
    · left
      have hnext : node.key prev ≠ next.key := by
        refine hapart (node.key prev, node.recordNumber) ?_
        rw [here.rest, leafEntries_cons ⟨hbucket, hlevel⟩]
        exact mem_append_left _ mem_cons_self
      have hprevKey : prev = next.key := hprev.symm.trans hlast.1
      have hkeyLength : scanner.keyLength = next.key.length := by rw [← here.key, length_cells]
      have hnot : ((node.length = 0 && node.prefixLen = scanner.keyLength) ||
          ((decide (lows.length = 0) && run.isEmpty) && node.length = scanner.keyLength &&
            cells scanner.key 0 scanner.keyLength = node.data)) = false := by
        refine Bool.or_eq_false_iff.mpr ⟨?_, ?_⟩
        · by_contra hrepeat
          rw [Bool.not_eq_false, Bool.and_eq_true, decide_eq_true_eq, decide_eq_true_eq] at hrepeat
          obtain ⟨hempty, hfull⟩ := hrepeat
          refine hnext ?_
          rw [IndexNode.key, hfull, hkeyLength, ← hprevKey, take_length, eq_nil_of_length_eq_zero hempty, append_nil]
        · by_contra hrepeat
          simp only [Bool.not_eq_false, Bool.and_eq_true, decide_eq_true_eq, List.isEmpty_iff] at hrepeat
          obtain ⟨⟨⟨hlowsNil, rfl⟩, -⟩, hdata⟩ := hrepeat
          obtain rfl := eq_nil_of_length_eq_zero hlowsNil
          have hfirstData : first.data = next.key := by
            rw [← hfound, IndexNode.key, keyAfter, take_nil, nil_append]
          rw [here.key] at hdata
          have hlooks : p'.looksRepeated next.key = true := by
            simp [LeafPage.looksRepeated, hnodes', hfirstData, ← hdata, hbucket, hlevel]
          exact Bool.false_ne_true (hdiffers.symm.trans hlooks)
      rw [skipNodes, if_neg (by simp [hlevel]), if_neg (by simp [hbucket]), if_neg Bool.false_ne_true, hnot,
        if_neg Bool.false_ne_true]

end

def Brings (index : ScannedIndex) (chain : List LeafPage) (es : List (Key × Nat)) (result : FindResult) : Prop :=
  (duplicateGroups index es = [] ∧ result.found = false) ∨
    ∃ rest, duplicateGroups index es = result.recs :: duplicateGroups index rest ∧ result.found = true ∧
      Standing index chain result.scanner rest

section
variable (incarnation : Nat → Nat) (hchain : LeafChainOk index chain)
  (hat : AtNodes chain page offset prev nodes pages) (hkey : cells scanner.key 0 scanner.keyLength = key)
  (hready : Ready offset key prev (offset = 0)) (hes : es = leafEntries prev nodes ++ chainEntries pages)
  (hbehind : index.descending = false → ∀ e ∈ es, StringLe false key e.1)
include hchain hat hkey hready hes hbehind

theorem findPages_at :
    ∃ result, findPages index incarnation page offset (nodesFrom chain page offset) (chain.drop (page + 1))
        { key := scanner.key, keyLength := scanner.keyLength, recs := [], first := offset = 0, duplicate := false,
          prevRecno := -1 } = some result ∧ Scanned chain (nextGroup index key false [] (-1) es) result := by
  obtain ⟨hcompressed, hmarked, hpages⟩ := hat.ok hchain.pages
  obtain ⟨before, hentries⟩ := hat.entries_eq
  rw [← hes] at hentries
  have horder := hchain.order
  rw [hentries] at horder
  have horder : EntriesInOrder index.descending es := horder.of_append before
  have hroom : ∀ e ∈ es, e.1.length ≤ index.keySize := fun e he => hchain.room e (hentries ▸ mem_append_right _ he)
  subst hkey hes
  rw [hat.nodesFrom_eq, hat.pages_eq]
  exact findPages_spec hat hmarked hcompressed hpages hready hroom horder hbehind

/-! ### Going on -/

theorem call_at (hfresh : ∀ e ∈ es, e.1 = key → e.1 = [] ∧ index.descending = false) :
    ∃ result, findPages index incarnation page offset (nodesFrom chain page offset) (chain.drop (page + 1))
        { key := scanner.key, keyLength := scanner.keyLength, recs := [], first := offset = 0, duplicate := false,
          prevRecno := -1 } = some result ∧ Brings index chain es result := by
  obtain ⟨result, hresult, hscanned⟩ := findPages_at incarnation hchain hat hkey hready hes hbehind
  refine ⟨result, hresult, ?_⟩
  obtain ⟨before, hentries⟩ := hat.entries_eq
  rw [← hes] at hentries
  have horder := hchain.order
  have hnulls := hchain.nulls
  rw [hentries] at horder hnulls
  rcases nextGroup_spec es.length (le_refl _) (horder.of_append before) (hnulls.of_append before) hfresh with
    ⟨hnone, hwalk⟩ | ⟨next, hwalk, hnext⟩
  · rw [hwalk] at hscanned
    exact .inl ⟨hnone, hscanned⟩
  · rw [hwalk] at hscanned
    obtain ⟨hfound, hrecs, page', offset', prev', nodes', pages', hsaved⟩ := hscanned
    obtain ⟨upTo, e, hupTo, hlast⟩ := hnext.before
    have hbefore : ∃ before e, chainEntries chain = before ++ e :: next.rest ∧ e.1 = next.key :=
      ⟨before ++ upTo, e, by rw [hentries, hupTo, append_assoc], hlast⟩
    exact .inr ⟨next.rest, by rw [hrecs]; exact hnext.groups, hfound, .saved hsaved hbefore hnext.apart hnext.ne⟩

end

section
variable (hchain : LeafChainOk index chain)
include hchain

theorem find_spec (h : Standing index chain scanner es) (hresume : CanResume chain incarnation scanner) :
    ∃ result, find index incarnation chain scanner = some result ∧ Brings index chain es result := by
  cases h with
  | start =>
    cases hpages : chain with
    | nil => exact absurd hpages hchain.nonempty
    | cons p pages =>
      have hat : AtNodes chain 0 0 [] p.nodes pages := ⟨p, [], hpages, rfl, rfl, rfl, fun _ hn => absurd hn not_mem_nil⟩
      have hes : chainEntries chain = leafEntries [] p.nodes ++ chainEntries pages := by rw [hpages]; rfl
      rw [← hpages]
      refine call_at incarnation hchain hat rfl (.inr ⟨rfl, rfl, by simp⟩) hes (fun _ _ _ => .inr rfl) fun e he hnil =>
        ⟨hnil, ?_⟩
      cases hdescending : index.descending with
      | false => rfl
      | true => exact absurd hnil (hchain.nulls hdescending e he).1
  | @saved next _ page offset prev nodes pages here hbefore hapart hne =>
    have hbehind : index.descending = false → ∀ e ∈ next.rest, StringLe false next.key e.1 := by
      intro hasc e he
      obtain ⟨before, last, hsplit, hlast⟩ := hbefore
      have horder := hchain.order
      rw [hsplit] at horder
      have hle := ((pairwise_cons.mp (pairwise_append.mp horder).2.1).1 e he).1
      rwa [hlast, hasc] at hle
    have hcall := call_at incarnation hchain here.here here.key here.ready here.rest hbehind fun e he hkey =>
      absurd hkey (hapart e he)
    have hposition : restorePosition index incarnation chain scanner = some (some (page, offset)) ∨
        (restorePosition index incarnation chain scanner = some none ∧ next.rest = []) := by
      rcases hresume page here.savePage with hsame | ⟨p, hget, hcan⟩
      · left
        simp only [restorePosition, here.savePage, if_pos hsame, here.saveOffset]
      · by_cases hsame : incarnation page = scanner.saveIncarnation
        · left
          simp only [restorePosition, here.savePage, if_pos hsame, here.saveOffset]
        have hpage : chain.drop page = p :: pages := by
          obtain ⟨p', before, hpage, -⟩ := here.here
          have hhead : chain[page]? = some p' := by rw [← head?_drop, hpage]; rfl
          obtain rfl := Option.some.inj (hhead.symm.trans hget)
          exact hpage
        rw [here.key, LeafPage.canResume, Bool.or_eq_true, Bool.and_eq_true, List.isEmpty_iff, any_eq_true] at hcan
        rcases hcan with hempty | ⟨⟨e, he, hkey⟩, hdiffers⟩
        · exact .inr (restore_empty hchain here hpage hempty hsame)
        · exact restore_found hchain here hbefore hapart hpage ⟨e, he, by simpa using hkey⟩
            (by simpa using hdiffers) hsame
    rcases hposition with hposition | ⟨hposition, hnil⟩
    · simp only [find, here.initialized, if_true, hposition]
      exact hcall
    · refine ⟨⟨false, [], scanner⟩, by simp only [find, here.initialized, if_true, hposition], .inl ⟨?_, rfl⟩⟩
      rw [hnil]
      rfl

theorem findGroups_spec {incarnations : List (Nat → Nat)} (h : Standing index chain scanner es)
    (hresume : ResumesEach index chain incarnations scanner) :
    findGroups index chain incarnations scanner =
      some ((duplicateGroups index es).take incarnations.length,
        decide ((duplicateGroups index es).length < incarnations.length)) := by
  induction incarnations generalizing scanner es with
  | nil => simp [findGroups]
  | cons incarnation rest ih =>
    obtain ⟨hcan, hrest⟩ := hresume
    obtain ⟨result, hresult, hbrings⟩ := find_spec hchain h hcan
    simp only [findGroups, hresult]
    rcases hbrings with ⟨hnone, hfound⟩ | ⟨es', hgroups, hfound, hstanding⟩
    · simp [hnone, hfound]
    · rw [if_pos hfound, ih hstanding (hrest result hresult hfound), hgroups]
      simp

/-- Where each call can go on, the calls bring the groups of entries with equal keys, each one whole, and then no more.
-/
theorem findGroups_complete (incarnations : List (Nat → Nat))
    (hresume : ResumesEach index chain incarnations {}) :
    findGroups index chain incarnations {} = some
    ((duplicateGroups index (chainEntries chain)).take incarnations.length,
      decide ((duplicateGroups index (chainEntries chain)).length < incarnations.length)) ∧
    ∀ group, group ∈ duplicateGroups index (chainEntries chain) ↔ ∃ key, index.isNull key = false ∧
      group = ((chainEntries chain).filter fun e => e.1 = key).map (fun e => (e.2 : Int)) ∧ 2 ≤ group.length :=
  ⟨findGroups_spec hchain .start hresume, fun group => mem_duplicateGroups _ (le_refl _) hchain.order group⟩

end

def ascendingIndex : ScannedIndex := ⟨false, [], 4⟩

def leafNode (prefixLen : Nat) (data : List UInt8) (recordNumber : Nat) : IndexNode :=
  ⟨prefixLen, data, recordNumber, 0, false, false⟩

def bucketEnd (prefixLen : Nat) (data : List UInt8) : IndexNode := ⟨prefixLen, data, 0, 0, true, false⟩

def twoGroups : List LeafPage :=
  [⟨[leafNode 0 [97] 1, bucketEnd 1 []], []⟩, ⟨[leafNode 0 [97] 2, leafNode 0 [98] 3, leafNode 1 [] 4, .endLevel], []⟩]

def groupAtEnd : List LeafPage :=
  [⟨[leafNode 0 [97] 1, leafNode 1 [] 2, bucketEnd 0 [98]], []⟩, ⟨[leafNode 0 [98] 3, leafNode 1 [] 4, .endLevel], []⟩]

def keyTwice : List LeafPage :=
  [⟨[leafNode 0 [97] 1, bucketEnd 1 []], []⟩, ⟨[leafNode 0 [97] 2, leafNode 1 [97] 3, leafNode 2 [] 4, .endLevel], []⟩]

theorem leafChainOk_of_decide {chain : List LeafPage} (hnonempty : chain ≠ []) (hpages : PagesOk chain)
    (hjumps : ∀ p ∈ chain, p.jumps = []) (horder : EntriesInOrder false (chainEntries chain))
    (hroom : ∀ e ∈ chainEntries chain, e.1.length ≤ 4) : LeafChainOk ascendingIndex chain where
  nonempty := hnonempty
  pages := hpages
  jumps p hp := by rw [hjumps p hp]; trivial
  order := horder
  nulls := fun h => nomatch h
  room := hroom

theorem leafChainOk_twoGroups : LeafChainOk ascendingIndex twoGroups := by
  refine leafChainOk_of_decide (by decide) ?_ (by decide) (by simp only [EntriesInOrder]; decide) (by decide)
  refine ⟨by decide, ⟨[leafNode 0 [97] 1], bucketEnd 1 [], rfl, by decide, rfl, rfl⟩, by decide, ?_, trivial⟩
  exact ⟨[leafNode 0 [97] 2, leafNode 0 [98] 3, leafNode 1 [] 4], .endLevel, rfl, by decide, rfl, rfl⟩

theorem leafChainOk_groupAtEnd : LeafChainOk ascendingIndex groupAtEnd := by
  refine leafChainOk_of_decide (by decide) ?_ (by decide) (by simp only [EntriesInOrder]; decide) (by decide)
  refine ⟨by decide, ⟨[leafNode 0 [97] 1, leafNode 1 [] 2], bucketEnd 0 [98], rfl, by decide, rfl, rfl⟩, by decide,
    ?_, trivial⟩
  exact ⟨[leafNode 0 [98] 3, leafNode 1 [] 4], .endLevel, rfl, by decide, rfl, rfl⟩

theorem leafChainOk_keyTwice : LeafChainOk ascendingIndex keyTwice := by
  refine leafChainOk_of_decide (by decide) ?_ (by decide) (by simp only [EntriesInOrder]; decide) (by decide)
  refine ⟨by decide, ⟨[leafNode 0 [97] 1], bucketEnd 1 [], rfl, by decide, rfl, rfl⟩, by decide, ?_, trivial⟩
  exact ⟨[leafNode 0 [97] 2, leafNode 1 [97] 3, leafNode 2 [] 4], .endLevel, rfl, by decide, rfl, rfl⟩

/-- Each page comes back with a new incarnation, and the saved key is there. -/
theorem findGroups_complete_twoGroups :
    findGroups ascendingIndex twoGroups [fun _ => 0, fun _ => 1, fun _ => 2] {} = some ([[1, 2], [3, 4]], true) := by
  refine (findGroups_complete leafChainOk_twoGroups [fun _ => 0, fun _ => 1, fun _ => 2] ?_).1.trans (by decide)
  refine ⟨fun page hpage => (nomatch hpage), fun result hresult _ => ?_⟩
  obtain rfl := Option.some.inj hresult
  refine ⟨fun page hpage => ?_, fun result hresult _ => ?_⟩
  · obtain rfl := Option.some.inj hpage
    exact .inr ⟨_, rfl, by decide⟩
  · obtain rfl := Option.some.inj hresult
    refine ⟨fun page hpage => ?_, fun _ _ _ => trivial⟩
    obtain rfl := Option.some.inj hpage
    exact .inr ⟨_, rfl, by decide⟩

/-- When the page has another incarnation, the next group is lost where the saved key is not on the page any more, and
where the next key seems to repeat it. -/
theorem findGroups_incomplete :
    (LeafChainOk ascendingIndex groupAtEnd ∧ duplicateGroups ascendingIndex (chainEntries groupAtEnd) = [[1, 2], [3,
      4]] ∧ findGroups ascendingIndex groupAtEnd [fun _ => 0, fun _ => 1, fun _ => 1] {} = some ([[1, 2]], true)) ∧
    (LeafChainOk ascendingIndex keyTwice ∧ duplicateGroups ascendingIndex (chainEntries keyTwice) = [[1, 2], [3, 4]] ∧
      findGroups ascendingIndex keyTwice [fun _ => 0, fun _ => 1, fun _ => 1] {} = some ([[1, 2]], true)) :=
  ⟨⟨leafChainOk_groupAtEnd, by decide, by decide⟩, leafChainOk_keyTwice, by decide, by decide⟩

end Firebird.Btr
