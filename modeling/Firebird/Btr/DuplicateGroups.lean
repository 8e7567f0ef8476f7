import Firebird.Btr.LeafSearch

/-! # Groups of equal keys -/

namespace Firebird.Btr
open Lib List

variable {index : ScannedIndex} {descending dup : Bool} {es run rest : List (Key × Nat)} {key : Key}
  {recs : List Int} {prev : Int}

/-- The keys of the nodes up to the marker. -/
def leafEntries : Key → List IndexNode → List (Key × Nat)
  | _, [] => []
  | prev, node :: nodes =>
    if node.isEndBucket || node.isEndLevel then []
    else (node.key prev, node.recordNumber) :: leafEntries (node.key prev) nodes

def LeafPage.entries (page : LeafPage) : List (Key × Nat) := leafEntries [] page.nodes

def chainEntries (chain : List LeafPage) : List (Key × Nat) := chain.flatMap LeafPage.entries

def ScannedIndex.isNull (index : ScannedIndex) (key : Key) : Bool :=
  if index.descending then key = index.nullKey else key = []

def duplicateGroups (index : ScannedIndex) (entries : List (Key × Nat)) : List (List Int) :=
  ((entries.splitBy fun e e' => e.1 == e'.1).filter fun run => 2 ≤ run.length ∧ run.all fun e => !index.isNull e.1).map
    fun run => run.map fun e => (e.2 : Int)

/-- Entries in the order of the leaf level: by key, and by record number among equal keys. -/
def EntriesInOrder (descending : Bool) (entries : List (Key × Nat)) : Prop :=
  entries.Pairwise fun e e' => StringLe descending e.1 e'.1 ∧ (e.1 = e'.1 → e.2 < e'.2)

/-- In a descending index no key is empty, and the nulls are at the end. -/
def NullsInPlace (index : ScannedIndex) (entries : List (Key × Nat)) : Prop :=
  index.descending = true → ∀ e ∈ entries, e.1 ≠ [] ∧ StringLe true e.1 index.nullKey

structure Group where
  key : Key
  recs : List Int
  rest : List (Key × Nat)

def nextGroup (index : ScannedIndex) : Key → Bool → List Int → Int → List (Key × Nat) → Option Group
  | key, dup, recs, _, [] => if dup then some ⟨key, recs, []⟩ else none
  | key, dup, recs, prev, e :: rest =>
    if e.1 = [] ∧ index.descending = false then nextGroup index key dup recs prev rest
    else if e.1 = key then nextGroup index key true (setRecord (if dup then recs else setRecord recs prev) e.2) e.2 rest
    else if dup then some ⟨key, recs, e :: rest⟩
    else if index.descending ∧ e.1 = index.nullKey then none
    else nextGroup index e.1 false recs e.2 rest

theorem setRecord_of_lt {recno : Int} (h : ∀ n ∈ recs, n < recno) : setRecord recs recno = recs ++ [recno] := by
  have hnew : recno ∉ recs := fun hmem => absurd (h recno hmem) (lt_irrefl _)
  rw [setRecord, if_neg hnew]
  induction recs with
  | nil => rfl
  | cons n recs ih =>
    have hle : ¬recno ≤ n := not_le.mpr (h n mem_cons_self)
    rw [orderedInsert, if_neg hle, ih (fun m hm => h m (mem_cons_of_mem n hm)) fun hmem =>
      hnew (mem_cons_of_mem n hmem)]
    rfl

theorem nextGroup_open (hnull : ¬(key = [] ∧ index.descending = false)) (hrun : ∀ e ∈ run, e.1 = key)
    (hrecs : (recs ++ run.map fun e => (e.2 : Int)).Pairwise (· < ·)) (hrest : ∀ e ∈ rest.head?, e.1 ≠ key ∧ e.1 ≠ []) :
    nextGroup index key true recs prev (run ++ rest) = some ⟨key, recs ++ run.map fun e => (e.2 : Int), rest⟩ := by
  induction run generalizing recs prev with
  | nil =>
    rw [nil_append, map_nil, append_nil]
    cases rest with
    | nil => rfl
    | cons e rest =>
      obtain ⟨hkey, hnil⟩ := hrest e rfl
      rw [nextGroup, if_neg fun h => hnil h.1, if_neg hkey, if_pos rfl]
  | cons e run ih =>
    obtain rfl := hrun e mem_cons_self
    have hlt : ∀ n ∈ recs, n < (e.2 : Int) := by
      intro n hn
      exact (pairwise_append.mp hrecs).2.2 n hn e.2 (by simp)
    rw [map_cons, append_cons] at hrecs
    rw [cons_append, nextGroup, if_neg hnull, if_pos rfl, if_pos rfl, setRecord_of_lt hlt,
      ih (fun e' he' => hrun e' (mem_cons_of_mem e he')) hrecs, append_assoc]
    rfl

theorem nextGroup_run (index : ScannedIndex) {e : Key × Nat} (hnull : ¬(e.1 = [] ∧ index.descending = false))
    (hrun : ∀ e' ∈ run, e'.1 = e.1)
    (hrecs : ((e :: run).map fun e => (e.2 : Int)).Pairwise (· < ·))
    (hrest : ∀ e' ∈ rest.head?, e'.1 ≠ e.1 ∧ e'.1 ≠ []) : nextGroup index e.1 false [] e.2 (run ++ rest) =
      if run = [] then nextGroup index e.1 false [] e.2 rest
      else some ⟨e.1, (e :: run).map fun e => (e.2 : Int), rest⟩ := by
  cases run with
  | nil => rfl
  | cons e' run =>
    have hkey := hrun e' mem_cons_self
    have hlt : (e.2 : Int) < e'.2 := (pairwise_cons.mp hrecs).1 e'.2 (by simp)
    have hboth : setRecord (setRecord [] e.2) e'.2 = [(e.2 : Int), (e'.2 : Int)] := by
      have hfirst : setRecord [] (e.2 : Int) = [(e.2 : Int)] := rfl
      rw [hfirst, setRecord_of_lt (by simpa using hlt)]
      rfl
    have hnull' : ¬(e'.1 = [] ∧ index.descending = false) := by rwa [hkey]
    rw [cons_append, nextGroup, if_neg hnull', if_pos hkey, if_neg Bool.false_ne_true, hboth,
      nextGroup_open hnull (fun e'' he'' => hrun e'' (mem_cons_of_mem e' he'')) hrecs hrest]
    rfl

theorem nextGroup_nulls (hdescending : index.descending = false) (hrun : ∀ e ∈ run, e.1 = []) :
    nextGroup index key dup recs prev (run ++ rest) = nextGroup index key dup recs prev rest := by
  induction run with
  | nil => rfl
  | cons e run ih =>
    rw [cons_append, nextGroup, if_pos ⟨hrun e mem_cons_self, hdescending⟩,
      ih fun e' he' => hrun e' (mem_cons_of_mem e he')]

/-! ### Runs -/

theorem duplicateGroups_run (index : ScannedIndex) {e : Key × Nat} (hrun : ∀ e' ∈ run, e'.1 = e.1)
    (hrest : ∀ e' ∈ rest.head?, e'.1 ≠ e.1) :
    duplicateGroups index (e :: run ++ rest) =
      (if run ≠ [] ∧ index.isNull e.1 = false then [(e :: run).map fun e => (e.2 : Int)] else []) ++
      duplicateGroups index rest := by
  have hkeys : ∀ e' ∈ e :: run, e'.1 = e.1 := by
    intro e' he'
    rcases mem_cons.mp he' with rfl | he'
    · rfl
    · exact hrun e' he'
  have hchain : (e :: run).IsChain fun e e' => (e.1 == e'.1) = true := by
    refine List.Pairwise.isChain (pairwise_of_forall_mem_list fun a ha b hb => ?_)
    rw [hkeys a ha, hkeys b hb, beq_self_eq_true]
  have hsplit : (e :: run ++ rest).splitBy (fun e e' => e.1 == e'.1) = (e :: run) :: rest.splitBy fun e e' =>
      e.1 == e'.1 := by
    rw [splitBy_append, splitBy_of_isChain (cons_ne_nil e run) hchain]
    · rfl
    · intro x hx y hy
      rw [hkeys x (mem_of_mem_getLast? hx)]
      exact beq_false_of_ne (hrest y hy).symm
  have hall : ((e :: run).all fun e' => !index.isNull e'.1) = !index.isNull e.1 := by
    cases hnull : index.isNull e.1 with
    | true => simp [hnull]
    | false =>
      rw [Bool.not_false, all_eq_true]
      intro e' he'
      rw [hkeys e' he', hnull, Bool.not_false]
  rw [duplicateGroups, duplicateGroups, hsplit, filter_cons]
  cases hnull : index.isNull e.1 with
  | true => simp [hall, hnull]
  | false =>
    cases run with
    | nil => simp
    | cons e' run =>
      rw [if_pos (by rw [hall, hnull]; simp)]
      rfl

theorem exists_run {e : Key × Nat} (horder : EntriesInOrder descending (e :: es)) :
    ∃ run rest, es = run ++ rest ∧ (∀ e' ∈ run, e'.1 = e.1) ∧ (∀ e' ∈ rest, e'.1 ≠ e.1) ∧
      ((e :: run).map fun e => (e.2 : Int)).Pairwise (· < ·) := by
  refine ⟨es.takeWhile (·.1 = e.1), es.dropWhile (·.1 = e.1), (takeWhile_append_dropWhile ..).symm, ?_, ?_, ?_⟩
  · intro e' he'
    simpa using mem_takeWhile_imp he'
  · intro e' he' hkey
    obtain ⟨hfirst, horder⟩ := pairwise_cons.mp horder
    have hrest : EntriesInOrder descending (es.dropWhile (·.1 = e.1)) := horder.sublist (dropWhile_sublist _)
    cases hdrop : es.dropWhile (·.1 = e.1) with
    | nil => rw [hdrop] at he'; exact absurd he' not_mem_nil
    | cons first rest =>
      have hne : first.1 ≠ e.1 := by
        have hhead := head?_dropWhile_not (fun e' : Key × Nat => decide (e'.1 = e.1)) es
        rw [hdrop] at hhead
        simpa using hhead
      rw [hdrop] at he' hrest
      have hmem : first ∈ es := dropWhile_sublist _ |>.subset (hdrop ▸ mem_cons_self)
      rcases mem_cons.mp he' with rfl | he'
      · exact hne hkey
      · have hle := ((pairwise_cons.mp hrest).1 e' he').1
        rw [hkey] at hle
        exact hne (hle.antisymm (hfirst first hmem).1)
  · obtain ⟨hfirst, horder⟩ := pairwise_cons.mp horder
    have hrun : EntriesInOrder descending (es.takeWhile (·.1 = e.1)) := horder.sublist (takeWhile_sublist _)
    have hkeys : ∀ e' ∈ es.takeWhile (·.1 = e.1), e'.1 = e.1 := by
      intro e' he'
      simpa using mem_takeWhile_imp he'
    rw [pairwise_map, pairwise_cons]
    refine ⟨fun e' he' => ?_, hrun.imp_of_mem fun {a b} ha hb hab => ?_⟩
    · exact Int.ofNat_lt.mpr ((hfirst e' (takeWhile_sublist _ |>.subset he')).2 (hkeys e' he').symm)
    · exact Int.ofNat_lt.mpr (hab.2 ((hkeys a ha).trans (hkeys b hb).symm))

theorem mem_duplicateGroups (n : Nat) (hn : es.length ≤ n) (horder : EntriesInOrder descending es) (group : List Int) :
    group ∈ duplicateGroups index es ↔ ∃ key, index.isNull key = false ∧
      group = ((es.filter fun e => e.1 = key).map fun e => (e.2 : Int)) ∧ 2 ≤ group.length := by
  induction n generalizing es with
  | zero =>
    obtain rfl := length_eq_zero_iff.mp (Nat.le_zero.mp hn)
    simp only [duplicateGroups, splitBy_nil, filter_nil, map_nil, not_mem_nil, false_iff]
    rintro ⟨key, -, rfl, hlength⟩
    exact absurd hlength (by simp)
  | succ n ih =>
    cases es with
    | nil =>
      simp only [duplicateGroups, splitBy_nil, filter_nil, map_nil, not_mem_nil, false_iff]
      rintro ⟨key, -, rfl, hlength⟩
      exact absurd hlength (by simp)
    | cons e es =>
      obtain ⟨run, rest, rfl, hrun, hrest, -⟩ := exists_run horder
      have hgroups := duplicateGroups_run index hrun fun e' he' => hrest e' (mem_of_mem_head? he')
      have hlength : rest.length ≤ n := by
        rw [length_cons, length_append] at hn
        omega
      have hsub : rest.Sublist (e :: (run ++ rest)) := sublist_append_right (e :: run) rest
      have hih := ih hlength (horder.sublist hsub)
      have hkeys : ∀ e' ∈ e :: run, e'.1 = e.1 := by
        intro e' he'
        rcases mem_cons.mp he' with rfl | he'
        · rfl
        · exact hrun e' he'
      have hbehind : (rest.filter fun e' => e'.1 = e.1) = [] :=
        filter_eq_nil_iff.mpr fun e' he' => by simpa using hrest e' he'
      have hsame : ((e :: (run ++ rest)).filter fun e' => e'.1 = e.1) = e :: run := by
        rw [← cons_append, filter_append, hbehind, append_nil]
        exact filter_eq_self.mpr fun e' he' => by simpa using hkeys e' he'
      have hother : ∀ key, key ≠ e.1 → ((e :: (run ++ rest)).filter fun e' => e'.1 = key) = rest.filter fun e' =>
          e'.1 = key := by
        intro key hne
        have hnone : ((e :: run).filter fun e' => e'.1 = key) = [] :=
          filter_eq_nil_iff.mpr fun e' he' => by simpa [hkeys e' he'] using hne.symm
        rw [← cons_append, filter_append, hnone, nil_append]
      rw [cons_append] at hgroups
      rw [hgroups, mem_append, hih]
      constructor
      · rintro (hfirst | ⟨key, hnull, hgroup, htwo⟩)
        · by_cases hkey : run ≠ [] ∧ index.isNull e.1 = false
          · rw [if_pos hkey, mem_singleton] at hfirst
            refine ⟨e.1, hkey.2, by rw [hsame]; exact hfirst, ?_⟩
            rw [hfirst, length_map]
            exact Nat.succ_le_succ (length_pos_iff.mpr hkey.1)
          · rw [if_neg hkey] at hfirst
            exact absurd hfirst not_mem_nil
        · refine ⟨key, hnull, ?_, htwo⟩
          by_cases hne : key = e.1
          · subst hne
            rw [hbehind] at hgroup
            rw [hgroup] at htwo
            exact absurd htwo (by simp)
          · rw [hother key hne]
            exact hgroup
      · rintro ⟨key, hnull, hgroup, htwo⟩
        by_cases hne : key = e.1
        · subst hne
          rw [hsame] at hgroup
          have hne : run ≠ [] := by
            rintro rfl
            rw [hgroup] at htwo
            exact absurd htwo (by simp)
          left
          rw [if_pos ⟨hne, hnull⟩, hgroup]
          exact mem_singleton_self _
        · rw [hother key hne] at hgroup
          exact .inr ⟨key, hnull, hgroup, htwo⟩

structure IsNext (index : ScannedIndex) (es : List (Key × Nat)) (next : Group) : Prop where
  groups : duplicateGroups index es = next.recs :: duplicateGroups index next.rest
  before : ∃ before e, es = before ++ e :: next.rest ∧ e.1 = next.key
  apart : ∀ e ∈ next.rest, e.1 ≠ next.key
  ne : next.key ≠ []

theorem IsNext.append {next : Group} (h : IsNext index es next) (run : List (Key × Nat))
    (hgroups : duplicateGroups index (run ++ es) = duplicateGroups index es) : IsNext index (run ++ es) next := by
  obtain ⟨before, e, rfl, hkey⟩ := h.before
  exact ⟨hgroups.trans h.groups, ⟨run ++ before, e, by rw [append_assoc], hkey⟩, h.apart, h.ne⟩

theorem EntriesInOrder.of_append (run : List (Key × Nat)) (h : EntriesInOrder descending (run ++ rest)) :
    EntriesInOrder descending rest :=
  h.sublist (sublist_append_right run rest)

theorem NullsInPlace.of_append (run : List (Key × Nat)) (h : NullsInPlace index (run ++ rest)) :
    NullsInPlace index rest :=
  fun hdescending e he => h hdescending e (mem_append_right run he)

theorem nextGroup_spec (n : Nat) (hn : es.length ≤ n) (horder : EntriesInOrder index.descending es)
    (hnulls : NullsInPlace index es) (hkey : ∀ e ∈ es, e.1 = key → e.1 = [] ∧ index.descending = false) :
    (duplicateGroups index es = [] ∧ nextGroup index key false [] prev es = none) ∨
      ∃ next, nextGroup index key false [] prev es = some next ∧ IsNext index es next := by
  induction n generalizing es key prev with
  | zero =>
    obtain rfl := length_eq_zero_iff.mp (Nat.le_zero.mp hn)
    exact .inl ⟨rfl, rfl⟩
  | succ n ih =>
    cases es with
    | nil => exact .inl ⟨rfl, rfl⟩
    | cons e es =>
      obtain ⟨run, rest, rfl, hrun, hrest, hrecs⟩ := exists_run horder
      have hgroups := duplicateGroups_run index hrun fun e' he' => hrest e' (mem_of_mem_head? he')
      have hlength : rest.length ≤ n := by
        rw [length_cons, length_append] at hn
        omega
      have horder' : EntriesInOrder index.descending rest := EntriesInOrder.of_append (e :: run) horder
      have hnulls' : NullsInPlace index rest := NullsInPlace.of_append (e :: run) hnulls
      by_cases hnull : e.1 = [] ∧ index.descending = false
      · -- nulls of an ascending index, which come first
        have hskip : nextGroup index key false [] prev (e :: (run ++ rest)) = nextGroup index
            key false [] prev rest := by
          rw [nextGroup, if_pos hnull, nextGroup_nulls hnull.2 fun e' he' => (hrun e' he').trans hnull.1]
        have hisNull : index.isNull e.1 = true := by simp [ScannedIndex.isNull, hnull]
        have hsame : duplicateGroups index (e :: run ++ rest) = duplicateGroups index rest := by
          rw [hgroups, if_neg fun h => by simp [hisNull] at h, nil_append]
        rw [hskip]
        refine (ih hlength horder' hnulls' fun e' he' => hkey e' ?_).imp (fun h => ⟨hsame.trans h.1, h.2⟩) ?_
        · exact mem_cons_of_mem e (mem_append_right run he')
        · rintro ⟨next, hnext, h⟩
          exact ⟨next, hnext, h.append (e :: run) hsame⟩
      have hne : e.1 ≠ key := fun h => hnull (hkey e mem_cons_self h)
      have hstep : nextGroup index key false [] prev (e :: (run ++ rest)) =
          if index.descending ∧ e.1 = index.nullKey then none else nextGroup index e.1 false [] e.2 (run ++ rest) := by
        rw [nextGroup, if_neg hnull, if_neg hne, if_neg Bool.false_ne_true]
      by_cases hlast : index.descending = true ∧ e.1 = index.nullKey
      · -- nulls of a descending index, behind which there is no other key
        have hnil : rest = [] := by
          refine eq_nil_iff_forall_not_mem.mpr fun e' he' => hrest e' he' ?_
          have hmem : e' ∈ e :: (run ++ rest) := mem_cons_of_mem e (mem_append_right run he')
          have hle := ((pairwise_cons.mp horder).1 e' (mem_append_right run he')).1
          have hge := (hnulls hlast.1 e' hmem).2
          rw [hlast.1] at hle
          rw [← hlast.2] at hge
          exact hge.antisymm hle
        subst hnil
        have hisNull : index.isNull e.1 = true := by simp [ScannedIndex.isNull, hlast]
        refine .inl ⟨?_, ?_⟩
        · rw [if_neg fun h => by simp [hisNull] at h] at hgroups
          exact hgroups
        · rw [hstep, if_pos hlast]
      have hnonempty : e.1 ≠ [] := by
        intro hnil
        cases hdescending : index.descending with
        | true => exact (hnulls hdescending e mem_cons_self).1 hnil
        | false => exact hnull ⟨hnil, hdescending⟩
      have hisNull : index.isNull e.1 = false := by
        cases hdescending : index.descending with
        | true => simpa [ScannedIndex.isNull, hdescending] using fun h => hlast ⟨hdescending, h⟩
        | false => simpa [ScannedIndex.isNull, hdescending] using hnonempty
      have hbehind : ∀ e' ∈ rest.head?, e'.1 ≠ e.1 ∧ e'.1 ≠ [] := by
        intro e' he'
        have hmem := mem_of_mem_head? he'
        refine ⟨hrest e' hmem, fun hnil => ?_⟩
        cases hdescending : index.descending with
        | true => exact (hnulls hdescending e' (mem_cons_of_mem e (mem_append_right run hmem))).1 hnil
        | false =>
          have hle := ((pairwise_cons.mp horder).1 e' (mem_append_right run hmem)).1
          rw [hnil, hdescending] at hle
          exact hnonempty (hle.antisymm (.inr rfl))
      have hwalk := nextGroup_run index hnull hrun hrecs hbehind
      rw [hstep, if_neg hlast, hwalk]
      by_cases hsingle : run = []
      · subst hsingle
        have hsame : duplicateGroups index ([e] ++ rest) = duplicateGroups index rest := by
          exact hgroups
        refine (ih hlength horder' hnulls' fun e' he' hsame => absurd hsame (hrest e' he')).imp
          (fun h => ⟨hsame.trans h.1, h.2⟩) ?_
        rintro ⟨next, hnext, h⟩
        exact ⟨next, hnext, h.append [e] hsame⟩
      · rw [if_neg hsingle]
        refine .inr ⟨_, rfl, ?_, ?_, hrest, hnonempty⟩
        · rw [if_pos ⟨hsingle, hisNull⟩] at hgroups
          exact hgroups
        · obtain ⟨first, last, rfl⟩ := eq_nil_or_concat run |>.resolve_left hsingle
          exact ⟨e :: first, last, by simp, hrun last (by simp)⟩

end Firebird.Btr
