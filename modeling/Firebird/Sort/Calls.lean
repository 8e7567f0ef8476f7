import Firebird.Sort.Runs

/-! # Calls of a sort -/

namespace Firebird.Sort

open Lib List

variable {s : SortControl} {runs : List RunControl} {answers : Answers} {a b c : Nat}

/-- A put writes the run that completes one of the highest depth, and the buffer has not grown yet: this is
    when `init` asks for a larger one. -/
def Completes (s : SortControl) : Prop :=
  noRoom s ∧ s.sizeMemory ≤ s.maxAllocSize ∧ countDepth s.runs 0 + 1 = runGroup ∧ countDepth s.runs 1 + 1 = runGroup

/-- The buffer grows only while the runs of the highest depth, with the one that is just completed, and
    one more fit a merge. -/
def Careful (s : SortControl) (answers : Answers) : Prop :=
  answers.memory = true → Completes s → countDepth s.runs maxMergeLevel + 1 < runGroup * maxMergeLevel

/-- What holds between two calls. Eight runs of depth 1 and more are left by a growth only. -/
structure Bounded (s : SortControl) (a b c : Nat) : Prop where
  depths : Depths s.runs a b c
  lowest : a < runGroup
  lower : b < runGroup ∨ b < runGroup * maxMergeLevel ∧ c = 0 ∧ s.maxAllocSize < s.sizeMemory
  size : 0 < s.maxAllocSize

theorem renumber_spec (h : Depths runs 0 0 c) : ∃ runs', renumber runs = .ok runs' ∧ Depths runs' 0 c 0 := by
  have hdepth : ∀ run ∈ runs, run.runDepth = 2 := by
    intro run hrun
    have hmem : run.runDepth ∈ runs.map (·.runDepth) := mem_map_of_mem hrun
    rw [h, replicate_zero] at hmem
    exact eq_of_mem_replicate hmem
  have hall : (runs.all fun run => decide (0 < run.runDepth)) = true := by
    rw [all_eq_true]
    intro run hrun
    simp [hdepth run hrun]
  refine ⟨_, by rw [renumber, if_pos hall], ?_⟩
  have hlength : runs.length = c := by
    rw [h.length]
    omega
  rw [Depths, map_map, replicate_zero, nil_append, replicate_zero, append_nil, ← hlength,
    eq_replicate_iff]
  refine ⟨length_map _, ?_⟩
  intro d hd
  obtain ⟨run, hrun, rfl⟩ := mem_map.mp hd
  simp [hdepth run hrun]

theorem head_depth (h : Depths runs a b c) (hpos : 0 < a + b) :
    runs.head?.any (·.runDepth = maxMergeLevel) = false := by
  have hhead : (runs.map (·.runDepth)).head? ≠ some 2 := by
    rw [h]
    cases a with
    | succ a => simp [replicate_succ]
    | zero =>
      cases b with
      | succ b => simp [replicate_succ]
      | zero => exact absurd hpos (by decide)
  cases runs with
  | nil => rfl
  | cons run rest =>
    have hrun : run.runDepth ≠ 2 := by simpa using hhead
    simp [maxMergeLevel, hrun]

theorem init_low (h : Depths s.runs a b c) (hpos : 0 < a + b) (memory : Bool) :
    init s memory = .ok { s with nextPointer := sizeofPointer, lastRecord := s.sizeMemory } := by
  rw [init]
  rw [head_depth h hpos]
  simp

theorem Bounded.place (h : Bounded s a b c) : Bounded (place s) a b c :=
  ⟨h.depths, h.lowest, h.lower, h.size⟩

theorem init_highest (h : Depths s.runs 0 0 c) (hsize : 0 < s.maxAllocSize) (memory : Bool)
    (hcareful : memory = true → s.sizeMemory ≤ s.maxAllocSize → c < runGroup * maxMergeLevel) :
    ∃ s', init s memory = .ok s' ∧ ∃ a b c, Bounded s' a b c := by
  rw [init]
  split
  · next hgrow =>
    obtain ⟨hle, -, hmemory⟩ := hgrow
    obtain ⟨runs', hrenumber, hdepths⟩ := renumber_spec h
    simp only [hrenumber]
    refine ⟨_, rfl, 0, c, 0, hdepths, by decide, .inr ⟨hcareful hmemory hle, rfl, ?_⟩, hsize⟩
    simp only [runGroup]
    omega
  · exact ⟨_, rfl, 0, 0, c, h, by decide, .inl (by decide), hsize⟩

theorem writeRun_bounded (h : Bounded s a b c) (hroom : noRoom s = true) (hcareful : Careful s answers) :
    ∃ s', writeRun s answers = .ok s' ∧ ∃ a b c, Bounded s' a b c := by
  have hb : b < runGroup * maxMergeLevel := by
    rcases h.lower with hb | ⟨hb, -⟩
    · exact hb.trans (by decide)
    · exact hb
  obtain ⟨merged, a', b', c', hmerge, hdepths, hcases⟩ :=
    mergeGroups_spec (h.depths.putRun (answers.seeks.headD 0)) a.succ_pos h.lowest hb answers.seeks.tail
  simp only [writeRun, hmerge]
  rcases hcases with ⟨ha, rfl, rfl, rfl⟩ | ⟨-, hb', rfl, rfl, rfl⟩ | ⟨ha, hb', rfl, rfl, rfl⟩
  · exact ⟨_, init_low hdepths (by omega) _, _, _, _, hdepths, ha, h.lower, h.size⟩
  · exact ⟨_, init_low hdepths (by omega) _, _, _, _, hdepths, by decide, .inl hb', h.size⟩
  · -- the run completes one of the highest depth
    refine init_highest (s := { s with runs := merged }) hdepths h.size answers.memory fun hmemory hle => ?_
    obtain ⟨h0, h1, h2⟩ := h.depths.countDepth
    have hb : b < runGroup := by
      rcases h.lower with hb | ⟨-, -, hlt⟩
      · exact hb
      · exact absurd hle (Nat.not_le.mpr hlt)
    have hfit := hcareful hmemory ⟨hroom, hle, by rw [h0, ha], by rw [h1]; exact Nat.le_antisymm hb hb'⟩
    rwa [show maxMergeLevel = 2 from rfl, h2] at hfit

theorem put_bounded (h : Bounded s a b c) (hcareful : Careful s answers) :
    ∃ s', put s answers = .ok s' ∧ ∃ a b c, Bounded s' a b c := by
  unfold put
  split
  · next hroom =>
    obtain ⟨s', hwrite, a', b', c', hs'⟩ := writeRun_bounded h hroom hcareful
    simp only [hwrite]
    exact ⟨_, rfl, a', b', c', hs'.place⟩
  · exact ⟨_, rfl, a, b, c, h.place⟩

theorem mergeLowDepth_spec (h : Bounded s a b c) (seeks : List Nat) :
    ∃ merged, mergeLowDepth s.runs seeks = .ok merged ∧ DepthOrdered merged := by
  have hdepths := h.depths.putRun (seeks.headD 0)
  rw [mergeLowDepth]
  simp only [hdepths.countP_low, hdepths.length]
  split
  · next hlow =>
    have ha := h.lowest
    have hn : a + 1 + b ≤ runGroup * maxMergeLevel := by
      rcases h.lower with hb | ⟨-, hc, -⟩
      · simp only [runGroup, maxMergeLevel] at *
        omega
      · omega
    have hlt : a + 1 + b < 2 ^ 16 := Nat.lt_of_le_of_lt hn (by decide)
    rw [Nat.mod_eq_of_lt hlt]
    obtain ⟨merged, hmerge, run, hrun, hmerged⟩ := mergeRuns_spec hn (by omega) (by rw [hdepths.length]; omega)
      (seeks.tail.headD 0)
    refine ⟨merged, hmerge, ?_⟩
    have hlength : (replicate (a + 1) 0 ++ replicate b 1).length = a + 1 + b := by simp
    -- the new run is of depth 1 or 2, the runs behind it are of depth 2
    have hle : run.runDepth ≤ 1 := by
      have hmem : run.runDepth ∈ ((putRun s.runs (seeks.headD 0)).take (a + 1 + b)).map (·.runDepth) :=
        mem_map_of_mem hrun
      rw [map_take, hdepths, take_left' hlength, mem_append, mem_replicate, mem_replicate] at hmem
      omega
    rw [DepthOrdered, hmerged, map_drop, hdepths, drop_left' hlength, pairwise_cons]
    refine ⟨?_, pairwise_replicate.mpr (.inr le_rfl)⟩
    intro d hd
    rw [eq_of_mem_replicate hd]
    omega
  · exact ⟨_, rfl, hdepths.ordered⟩

structure RunsKept (s : SortControl) : Prop where
  ordered : DepthOrdered s.runs
  /-- No put merges more runs than fit, or counts a depth below zero. -/
  put : ∀ answers, Careful s answers → ∃ s', put s answers = .ok s'
  /-- Nor does the final sort, and the runs stay ordered until it relinks them to be read. -/
  sort : ∀ seeks, s.runs ≠ [] → ∃ runs, mergeLowDepth s.runs seeks = .ok runs ∧ DepthOrdered runs ∧
    sort s seeks = .ok { s with runs := sortRunsBySeek runs runs.length, sorted := true }

theorem Bounded.runsKept (h : Bounded s a b c) : RunsKept s where
  ordered := h.depths.ordered
  put answers hcareful := by
    obtain ⟨s', hput, -⟩ := put_bounded h hcareful
    exact ⟨s', hput⟩
  sort seeks hruns := by
    obtain ⟨runs, hmerge, hordered⟩ := mergeLowDepth_spec h seeks
    refine ⟨runs, hmerge, hordered, ?_⟩
    rw [sort, if_neg hruns]
    simp only [hmerge]

theorem create_bounded (recordLength sizeMemory : Nat) : Bounded (create recordLength sizeMemory) 0 0 0 :=
  ⟨rfl, by decide, .inl (by decide), lt_of_lt_of_le (by decide : 0 < maxSortBufferSize) (le_max_right _ _)⟩

/-- Whatever is put into a sort whose buffer does not grow too late, its runs stay in order. -/
theorem runsKept_of_careful (recordLength sizeMemory : Nat) {calls : List Answers}
    (h : Run (Steps Careful put) (create recordLength sizeMemory) calls s) : RunsKept s := by
  have hinv : ∃ a b c, Bounded s a b c := by
    refine h.invariant (I := fun s => ∃ a b c, Bounded s a b c) ?_ ⟨0, 0, 0, create_bounded recordLength sizeMemory⟩
    rintro s answers t ⟨a, b, c, hs⟩ ⟨hcareful, hput⟩
    obtain ⟨t', hput', ht'⟩ := put_bounded hs hcareful
    rw [hput] at hput'
    cases hput'
    exact ht'
  obtain ⟨a, b, c, hs⟩ := hinv
  exact hs.runsKept

/-! ### Two sorts

Both are of records of 16376 bytes; the buffer has room for three of them, and after it has grown for 63. -/

def quiet : Answers := { seeks := [], memory := false }

/-- A call of a put that writes a run. The numbers count records of the temporary space. -/
def writes (positions : List Nat) (memory : Bool) : Answers where
  seeks := positions.map (· * 16376)
  memory := memory

def equalRecords : List Answers :=
  replicate 3 quiet ++ ([[0], [1], [2], [3], [4], [5], [6], [7, 8]].flatMap fun positions =>
    writes positions false :: replicate 2 quiet)

theorem runsKept_of_careful_equalRecords :
    ∃ s, Run (Steps Careful put) (create 16376 65536) equalRecords s ∧ RunsKept s ∧ s.runs.length = 1 := by
  have hmemory : ∀ answers ∈ equalRecords, answers.memory = false := by decide
  have hcareful : ∀ answers ∈ equalRecords, ∀ s, Careful s answers := by
    intro answers hmem s h
    rw [hmemory answers hmem] at h
    cases h
  obtain ⟨s, hrun, hlength⟩ := exists_run_of_execAll put (create 16376 65536) equalRecords
    (fun s => s.runs.length = 1) hcareful (by decide +kernel)
  exact ⟨s, hrun, runsKept_of_careful 16376 65536 hrun, by simpa using hlength⟩

def smallRun (i : Nat) : Answers :=
  writes (([i % 8] ++ (if i % 8 = 7 then [8 * (i / 8 % 8 + 1)] else []) ++
    (if i % 64 = 63 then [64 * (i / 64) + 72] else [])).map (3 * ·)) (i = 1023)

def lateGrowth : List Answers :=
  replicate 3 quiet ++ ((range 1024).flatMap fun i => smallRun i :: replicate 2 quiet) ++
    replicate 60 quiet ++
    ([[0], [63], [126], [3288], [3351], [3414], [3477], [3540, 3603]].flatMap fun positions =>
      writes positions false :: replicate 62 quiet)

/-- Sixteen runs of depth 2 become a group of depth 1, which a seventeenth joins; and the runs that a sort
    leaves are linked by position. -/
theorem runs_not_kept :
    execAll put (create 16376 65536) lateGrowth = .error .stackOverrun ∧
    ∃ s t, execAll put (create 16376 65536) equalRecords = .ok s ∧ sort s [9 * 16376] = .ok t ∧
    ¬DepthOrdered t.runs := by
  refine ⟨by decide +kernel, ?_⟩
  have h : ((execAll put (create 16376 65536) equalRecords).toOption.bind fun s =>
      (sort s [9 * 16376]).toOption.map fun t => t.runs.map (·.runDepth)) = some [1, 0] := by
    decide +kernel
  obtain ⟨s, hs, h⟩ := Option.bind_eq_some_iff.mp h
  obtain ⟨t, ht, hdepths⟩ := Option.map_eq_some_iff.mp h
  refine ⟨s, t, eq_ok_of_toOption hs, eq_ok_of_toOption ht, ?_⟩
  rw [DepthOrdered, hdepths]
  decide

end Firebird.Sort
