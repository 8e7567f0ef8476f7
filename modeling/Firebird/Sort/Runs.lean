import Firebird.Lib.Run

/-! # Runs of a sort

What `Sort::put` and `Sort::sort` do to the list of runs (`src/jrd/sort.cpp`). When the buffer is full its
records are written as a run of depth 0; runs of one depth are merged in groups; and when a run of the
highest depth has come about, `init` tries once to get a larger buffer and renumbers the runs. Positions
in the buffer are counted in bytes from its start. -/

namespace Firebird.Sort

open List hiding beq_eq_decide

def runGroup : Nat := 8
def maxMergeLevel : Nat := 2
def maxSortBufferSize : Nat := 1024 * 128
def minRecordsToAlloc : Nat := 8
def sizeofPointer : Nat := 8
def fbAlignment : Nat := 8

/-- What the source must not do: write behind the vectors on the stack of `mergeRuns`, or count a depth
    below zero. -/
inductive SortFault
  | stackOverrun | depthUnderflow
  deriving DecidableEq

structure RunControl where
  runDepth : Nat
  runSeek : Nat
  deriving DecidableEq

structure SortControl where
  longs : Nat
  maxAllocSize : Nat
  sizeMemory : Nat
  /-- `m_last_record`: the records grow down from the end of the buffer. -/
  lastRecord : Int
  /-- `m_next_pointer`: the pointers grow up from its start. -/
  nextPointer : Int
  runs : List RunControl
  sorted : Bool
  deriving DecidableEq

/-- What the outside gives to a call: the positions that the temporary space allocates, one after another,
    and whether `init` gets memory if it asks for a larger buffer. -/
structure Answers where
  seeks : List Nat
  memory : Bool

/-- Relink the first `n` runs in the order of their positions. -/
def sortRunsBySeek (runs : List RunControl) (n : Nat) : List RunControl :=
  (runs.take n).foldl (fun sorted run => sorted.orderedInsert (fun a b => a.runSeek ≤ b.runSeek) run) [] ++ runs.drop n

/-- Merge the first `n` runs into one at `seek`. The vectors `blks` and `streams` lie on the stack. -/
def mergeRuns (runs : List RunControl) (n : Nat) (seek : Nat) : Except SortFault (List RunControl) :=
  if runGroup * maxMergeLevel < n then .error .stackOverrun
  else
    let runs := sortRunsBySeek runs n
    match (runs.take n).getLast? with
    | none => .ok runs
    -- the descriptor of the last one is used again
    | some run => .ok ({ runDepth := run.runDepth + 1, runSeek := seek } :: runs.drop n)

theorem length_foldl_orderedInsert (le : RunControl → RunControl → Prop) [DecidableRel le]
    (runs sorted : List RunControl) :
    (runs.foldl (fun sorted run => sorted.orderedInsert le run) sorted).length = sorted.length + runs.length := by
  induction runs generalizing sorted with
  | nil => simp
  | cons run runs ih =>
    rw [foldl_cons, ih, orderedInsert_length, length_cons]
    omega

theorem mergeRuns_length {runs merged : List RunControl} {n seek : Nat} (hn : 2 ≤ n) (hle : n ≤ runs.length)
    (h : mergeRuns runs n seek = .ok merged) : merged.length < runs.length := by
  unfold mergeRuns at h
  split at h
  · cases h
  · have hlength : (sortRunsBySeek runs n).length = runs.length := by
      rw [sortRunsBySeek, length_append, length_foldl_orderedInsert, length_take, length_drop, length_nil]
      omega
    cases hlast : ((sortRunsBySeek runs n).take n).getLast? with
    | none =>
      rw [getLast?_eq_none_iff] at hlast
      have := congrArg length hlast
      rw [length_take, length_nil] at this
      omega
    | some run =>
      simp only [hlast, Except.ok.injEq] at h
      rw [← h, length_cons, length_drop]
      omega

/-- The number of runs at the head of the list that have one depth, in a `USHORT`. -/
def groupCount (depth : Nat) (runs : List RunControl) : Nat :=
  (runs.takeWhile fun run => run.runDepth = depth).length % 2 ^ 16

theorem groupCount_le (depth : Nat) (runs : List RunControl) : groupCount depth runs ≤ runs.length :=
  (Nat.mod_le _ _).trans (takeWhile_sublist _).length_le

/-- Merge groups of runs of one depth until the first group is too small. -/
def mergeGroups (runs : List RunControl) (seeks : List Nat) : Except SortFault (List RunControl) :=
  match runs with
  | [] => .ok []
  | run :: rest =>
    let count := groupCount run.runDepth (run :: rest)
    if run.runDepth = maxMergeLevel then .ok (run :: rest)
    else if count < runGroup then .ok (run :: rest)
    else
      match _hmerge : mergeRuns (run :: rest) count (seeks.headD 0) with
      | .error e => .error e
      | .ok merged => mergeGroups merged seeks.tail
termination_by runs.length
decreasing_by
  exact mergeRuns_length (by simp only [runGroup] at *; omega) (groupCount_le run.runDepth _) _hmerge

def putRun (runs : List RunControl) (seek : Nat) : List RunControl :=
  { runDepth := 0, runSeek := seek } :: runs

def renumber (runs : List RunControl) : Except SortFault (List RunControl) :=
  if runs.all (0 < ·.runDepth) then .ok (runs.map fun run => { run with runDepth := run.runDepth - 1 })
  else .error .depthUnderflow

/-- Grow the buffer if a run has the highest depth, and make it empty. -/
def init (s : SortControl) (memory : Bool) : Except SortFault SortControl :=
  let empty (s : SortControl) := { s with nextPointer := sizeofPointer, lastRecord := s.sizeMemory }
  if s.sizeMemory ≤ s.maxAllocSize ∧ s.runs.head?.any (·.runDepth = maxMergeLevel) ∧ memory then
    match renumber s.runs with
    | .error e => .error e
    | .ok runs => .ok (empty { s with sizeMemory := s.maxAllocSize * runGroup, runs })
  else .ok (empty s)

/-- There is no room for another record; the first comparison takes longwords for bytes. -/
def noRoom (s : SortControl) : Bool :=
  s.lastRecord < s.longs ∨ s.lastRecord - 4 * s.longs ≤ s.nextPointer + sizeofPointer

def writeRun (s : SortControl) (answers : Answers) : Except SortFault SortControl :=
  match mergeGroups (putRun s.runs (answers.seeks.headD 0)) answers.seeks.tail with
  | .error e => .error e
  | .ok runs => init { s with runs } answers.memory

def place (s : SortControl) : SortControl :=
  { s with lastRecord := s.lastRecord - 4 * s.longs, nextPointer := s.nextPointer + sizeofPointer }

/-- A place for a record; a full buffer is written as a run first. -/
def put (s : SortControl) (answers : Answers) : Except SortFault SortControl :=
  if noRoom s then
    match writeRun s answers with
    | .error e => .error e
    | .ok s => .ok (place s)
  else .ok (place s)

def mergeLowDepth (runs : List RunControl) (seeks : List Nat) : Except SortFault (List RunControl) :=
  let runs := putRun runs (seeks.headD 0)
  let lowDepthCnt := runs.countP (·.runDepth < maxMergeLevel)
  if 1 < lowDepthCnt ∧ lowDepthCnt < runs.length then mergeRuns runs (lowDepthCnt % 2 ^ 16) (seeks.tail.headD 0)
  else .ok runs

/-- Get ready to give the records back: without runs the buffer is sorted, else the runs are linked in the
    order of their positions to be read. -/
def sort (s : SortControl) (seeks : List Nat) : Except SortFault SortControl :=
  if s.runs = [] then .ok { s with nextPointer := sizeofPointer, sorted := true }
  else
    match mergeLowDepth s.runs seeks with
    | .error e => .error e
    | .ok runs => .ok { s with runs := sortRunsBySeek runs runs.length, sorted := true }

def create (recordLength sizeMemory : Nat) : SortControl :=
  let recordSize := (recordLength + sizeofPointer + (fbAlignment - 1)) / fbAlignment * fbAlignment
  { longs := recordSize / 4, maxAllocSize := max (recordSize * minRecordsToAlloc) maxSortBufferSize, sizeMemory,
    lastRecord := sizeMemory, nextPointer := sizeofPointer, runs := [], sorted := false }

/-! ### The runs of a sort in order

The list of runs is ordered by depth, with at most seven runs of each low depth between two calls, as long as the
buffer does not grow too late. -/

variable {runs merged : List RunControl} {a b c n depth : Nat}

def DepthOrdered (runs : List RunControl) : Prop := (runs.map (·.runDepth)).Pairwise (· ≤ ·)

def Depths (runs : List RunControl) (a b c : Nat) : Prop :=
  runs.map (·.runDepth) = List.replicate a 0 ++ List.replicate b 1 ++ List.replicate c 2

def countDepth (runs : List RunControl) (depth : Nat) : Nat := runs.countP (·.runDepth = depth)

theorem Depths.length (h : Depths runs a b c) : runs.length = a + b + c := by
  have := congrArg List.length h
  simpa [Nat.add_assoc] using this

theorem Depths.ordered (h : Depths runs a b c) : DepthOrdered runs := by
  rw [DepthOrdered, h, pairwise_append, pairwise_append]
  simp only [pairwise_replicate, mem_append, mem_replicate]
  refine ⟨⟨by simp, by simp, ?_⟩, by simp, ?_⟩
  · rintro x ⟨-, rfl⟩ y ⟨-, rfl⟩
    exact Nat.zero_le 1
  · rintro x (⟨-, rfl⟩ | ⟨-, rfl⟩) y ⟨-, rfl⟩ <;> decide

theorem countDepth_eq (runs : List RunControl) (depth : Nat) :
    countDepth runs depth = (runs.map (·.runDepth)).count depth := by
  simp [countDepth, count, countP_map, Function.comp_def, beq_eq_decide]

theorem Depths.countDepth (h : Depths runs a b c) :
    countDepth runs 0 = a ∧ countDepth runs 1 = b ∧ countDepth runs 2 = c := by
  simp only [countDepth_eq]
  rw [h]
  simp [count_append, count_replicate]

theorem Depths.countP_low (h : Depths runs a b c) : runs.countP (·.runDepth < maxMergeLevel) = a + b := by
  have hmap : runs.countP (·.runDepth < maxMergeLevel) = (runs.map (·.runDepth)).countP (· < maxMergeLevel) := by
    rw [countP_map]
    rfl
  rw [hmap, h]
  simp [countP_append, countP_replicate, maxMergeLevel]

theorem Depths.putRun (h : Depths runs a b c) (seek : Nat) : Depths (putRun runs seek) (a + 1) b c := by
  rw [Depths, Sort.putRun, map_cons, h]
  rfl

theorem takeWhile_depth (runs : List RunControl) (depth : Nat) :
    (runs.takeWhile fun run => run.runDepth = depth).length = ((runs.map (·.runDepth)).takeWhile
      (· = depth)).length := by
  rw [takeWhile_map, length_map]
  rfl

theorem groupCount_eq {depths : List Nat} (h : runs.map (·.runDepth) = List.replicate n depth ++ depths)
    (hne : ∀ d ∈ depths, d ≠ depth) (hn : n < 2 ^ 16) : groupCount depth runs = n := by
  have hstop : depths.takeWhile (· = depth) = [] := by
    cases depths with
    | nil => rfl
    | cons d depths => simp [hne d mem_cons_self]
  rw [groupCount, takeWhile_depth, h, takeWhile_append_of_pos, hstop, append_nil, length_replicate]
  · exact Nat.mod_eq_of_lt hn
  · intro d hd
    simp [eq_of_mem_replicate hd]

theorem perm_foldl_orderedInsert (le : RunControl → RunControl → Prop) [DecidableRel le]
    (runs sorted : List RunControl) :
    (runs.foldl (fun sorted run => sorted.orderedInsert le run) sorted).Perm (sorted ++ runs) := by
  induction runs generalizing sorted with
  | nil => simp
  | cons run runs ih =>
    exact (ih _).trans (((perm_orderedInsert le run sorted).append_right runs).trans perm_middle.symm)

theorem sortRunsBySeek_spec (hn : n ≤ runs.length) : ∃ group,
    sortRunsBySeek runs n = group ++ runs.drop n ∧ group.Perm (runs.take n) ∧ group.length = n := by
  refine ⟨_, rfl, ?_, ?_⟩
  · simpa using perm_foldl_orderedInsert _ (runs.take n) []
  · rw [length_foldl_orderedInsert, length_nil, length_take]
    omega

theorem mergeRuns_spec (hfit : n ≤ runGroup * maxMergeLevel) (hpos : 0 < n) (hn : n ≤ runs.length) (seek : Nat) :
    ∃ merged, mergeRuns runs n seek = .ok merged ∧ ∃ run ∈ runs.take n,
      merged.map (·.runDepth) = (run.runDepth + 1) :: (runs.drop n).map (·.runDepth) := by
  obtain ⟨group, heq, hperm, hlength⟩ := sortRunsBySeek_spec hn
  have hne : group ≠ [] := by
    rintro rfl
    simp only [length_nil] at hlength
    omega
  have htake : (group ++ runs.drop n).take n = group := by rw [← hlength, take_left]
  have hdrop : (group ++ runs.drop n).drop n = runs.drop n := by
    rw [← hlength, drop_left]
  refine ⟨{ runDepth := (group.getLast hne).runDepth + 1, runSeek := seek } :: runs.drop n, ?_,
    group.getLast hne, ?_, rfl⟩
  · simp only [mergeRuns, Nat.not_lt.mpr hfit, if_false, heq, htake, hdrop, getLast?_eq_some_getLast hne]
  · exact hperm.mem_iff.mp (getLast_mem hne)

section
variable {depths : List Nat} (h : runs.map (·.runDepth) = List.replicate n depth ++ depths)
include h

theorem mergeRuns_group (hfit : n ≤ runGroup * maxMergeLevel) (hpos : 0 < n) (seek : Nat) :
    ∃ merged, mergeRuns runs n seek = .ok merged ∧ merged.map (·.runDepth) = (depth + 1) :: depths := by
  have hn : n ≤ runs.length := by
    have := congrArg length h
    simp only [length_map, length_append, length_replicate] at this
    omega
  obtain ⟨merged, hmerge, run, hrun, hdepths⟩ := mergeRuns_spec hfit hpos hn seek
  have hmem : run.runDepth ∈ replicate n depth := by
    have := mem_map_of_mem (f := (·.runDepth)) hrun
    rwa [map_take, h, take_left' (by simp)] at this
  rw [map_drop, h, drop_left' (by simp), eq_of_mem_replicate hmem] at hdepths
  exact ⟨merged, hmerge, hdepths⟩

theorem mergeGroups_few (hne : ∀ d ∈ depths, d ≠ depth) (hpos : 0 < n) (hn : n < runGroup) (seeks : List Nat) :
    mergeGroups runs seeks = .ok runs := by
  cases runs with
  | nil => rw [mergeGroups]
  | cons run rest =>
    obtain ⟨n, rfl⟩ := Nat.exists_eq_succ_of_ne_zero hpos.ne'
    rw [map_cons, replicate_succ] at h
    have hdepth : run.runDepth = depth := (cons.inj h).1
    have hcount : groupCount run.runDepth (run :: rest) = n + 1 := by
      rw [hdepth]
      have hgroup : (run :: rest).map (·.runDepth) = replicate (n + 1) depth ++ depths := by
        rw [map_cons, h, replicate_succ]
      exact groupCount_eq hgroup hne (by simp only [runGroup] at hn; omega)
    rw [mergeGroups]
    simp only [hcount, hn, if_true, ite_self]

theorem mergeGroups_full (hne : ∀ d ∈ depths, d ≠ depth) (hdepth : depth ≠ maxMergeLevel) (hn : runGroup ≤ n)
    (hfit : n ≤ runGroup * maxMergeLevel) (seeks : List Nat) :
    ∃ merged, mergeGroups runs seeks = mergeGroups merged seeks.tail ∧ merged.map (·.runDepth) =
    (depth + 1) :: depths := by
  have hpos : 0 < n := Nat.lt_of_lt_of_le (by decide) hn
  obtain ⟨merged, hmerge, hmerged⟩ := mergeRuns_group h hfit hpos (seeks.headD 0)
  refine ⟨merged, ?_, hmerged⟩
  have hcount : groupCount depth runs = n := groupCount_eq h hne (by simp only [runGroup, maxMergeLevel] at hfit; omega)
  cases runs with
  | nil =>
    rw [map_nil] at h
    have := congrArg length h
    simp only [length_nil, length_append, length_replicate] at this
    omega
  | cons run rest =>
    have hrun : run.runDepth = depth := by
      obtain ⟨n, rfl⟩ := Nat.exists_eq_succ_of_ne_zero hpos.ne'
      exact (cons.inj h).1
    rw [mergeGroups]
    simp only [hrun, hcount, hdepth, Nat.not_lt.mpr hn, if_false]
    split
    · next e he =>
      rw [hrun, hcount, hmerge] at he
      cases he
    · next merged' he =>
      rw [hrun, hcount, hmerge] at he
      cases he
      rfl

end

theorem mergeGroups_highest {depths : List Nat} (h : runs.map (·.runDepth) = maxMergeLevel :: depths)
    (seeks : List Nat) : mergeGroups runs seeks = .ok runs := by
  cases runs with
  | nil => rw [mergeGroups]
  | cons run rest =>
    rw [mergeGroups]
    simp only [(cons.inj h).1, if_true]

theorem mergeGroups_spec (h : Depths runs a b c) (hpos : 0 < a) (ha : a ≤ runGroup) (hb : b < runGroup * maxMergeLevel)
    (seeks : List Nat) : ∃ merged a' b' c', mergeGroups runs seeks = .ok merged ∧ Depths merged a' b' c' ∧
      (a < runGroup ∧ a' = a ∧ b' = b ∧ c' = c ∨ a = runGroup ∧ b + 1 < runGroup ∧ a' = 0 ∧ b' = b + 1 ∧ c' = c ∨
        a = runGroup ∧ runGroup ≤ b + 1 ∧ a' = 0 ∧ b' = 0 ∧ c' = c + 1) := by
  have hrest : ∀ d ∈ replicate b 1 ++ replicate c 2, d ≠ 0 := by
    intro d hd
    simp only [mem_append, mem_replicate] at hd
    omega
  have hdepths : runs.map (·.runDepth) = replicate a 0 ++ (replicate b 1 ++ replicate c 2) := by
    rw [h, append_assoc]
  rcases Nat.lt_or_ge a runGroup with hfew | hfull
  · exact ⟨runs, a, b, c, mergeGroups_few hdepths hrest hpos hfew seeks, h, .inl ⟨hfew, rfl, rfl, rfl⟩⟩
  obtain rfl : a = runGroup := Nat.le_antisymm ha hfull
  obtain ⟨merged, hmerge, hmerged⟩ := mergeGroups_full hdepths hrest (by decide) hfull (by decide) seeks
  have hones : merged.map (·.runDepth) = replicate (b + 1) 1 ++ replicate c 2 := by
    rw [hmerged]
    rfl
  have htwos : ∀ d ∈ replicate c 2, d ≠ 1 := by
    intro d hd
    rw [eq_of_mem_replicate hd]
    decide
  rcases Nat.lt_or_ge (b + 1) runGroup with hfew | hfull'
  · refine ⟨merged, 0, b + 1, c, ?_, ?_, .inr (.inl ⟨rfl, hfew, rfl, rfl, rfl⟩)⟩
    · rw [hmerge, mergeGroups_few hones htwos b.succ_pos hfew]
    · rw [Depths, hones, replicate_zero, nil_append]
  · obtain ⟨merged', hmerge', hmerged'⟩ := mergeGroups_full hones htwos (by decide) hfull' hb seeks.tail
    refine ⟨merged', 0, 0, c + 1, ?_, ?_, .inr (.inr ⟨rfl, hfull', rfl, rfl, rfl⟩)⟩
    · rw [hmerge, hmerge', mergeGroups_highest hmerged']
    · rw [Depths, hmerged']
      rfl

end Firebird.Sort
