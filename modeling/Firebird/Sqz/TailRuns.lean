import Firebird.Sqz.ScanRuns

/-! # The trailing fragment by itself

The bytes that `truncateTail` cuts off are compressed again. Their runs are those cut off, except that a repetition too
short to be found, the last piece of a longer one, is stored together with the bytes behind it. -/

namespace Firebird.Sqz
open Compressor List

/-- The literal bytes at the front of the runs, taken together with `m` bytes before them -/
def joined (m : Nat) (runs : List Int) : List Int :=
  literalRuns (m + unpackedLength (runs.takeWhile (0 < ·))) ++ runs.dropWhile (0 < ·)

/-- The runs found anew: a repetition too short to be found is taken for literal bytes. -/
def restart : List Int → List Int
  | [] => []
  | run :: runs => if run < 0 ∧ run.natAbs < minCompressRun then joined run.natAbs runs else joined 0 (run :: runs)

variable {allowLongRuns : Bool} {k m n : Nat} {c x : UInt8} {data p q t : List UInt8}
  {runs back left lits : List Int}

theorem pos_of_mem_literalRuns {run : Int} (h : run ∈ literalRuns k) : 0 < run := by
  rcases mem_append.mp h with h | h
  · rw [eq_of_mem_replicate h]
    decide
  · split at h
    · exact nomatch h
    · next hne =>
      rw [mem_singleton.mp h]
      omega

theorem unpackedLength_replicate (n : Nat) (run : Int) : unpackedLength (replicate n run) = n * run.natAbs := by
  induction n with
  | zero => rw [Nat.zero_mul]; rfl
  | succ n ih => rw [replicate_succ, unpackedLength_cons, ih, Nat.succ_mul, Nat.add_comm]

theorem unpackedLength_literalRuns (k : Nat) : unpackedLength (literalRuns k) = k := by
  have hdiv := Nat.div_add_mod k maxNoncompRun
  unfold literalRuns
  rw [unpackedLength_append, unpackedLength_replicate, Int.natAbs_natCast, Nat.mul_comm]
  split
  · rw [unpackedLength_nil]
    omega
  · rw [unpackedLength_cons, unpackedLength_nil]
    omega

/-- The runs do not begin with literal bytes. -/
def Fresh (runs : List Int) : Prop := ∀ run ∈ runs.head?, run < 0

/-- Literal bytes are joined with what comes before them, and with nothing else. -/
theorem joined_append (hlits : ∀ run ∈ lits, 0 < run) (hback : Fresh back) :
    joined m (lits ++ back) = literalRuns (m + unpackedLength lits) ++ back := by
  have hall : ∀ run ∈ lits, decide (0 < run) = true := fun run hrun => decide_eq_true (hlits run hrun)
  unfold joined
  rw [takeWhile_append_of_pos hall, dropWhile_append_of_pos hall]
  cases back with
  | nil => rw [takeWhile_nil, dropWhile_nil, append_nil, append_nil, append_nil]
  | cons run back =>
    have hneg : run < 0 := hback run rfl
    rw [takeWhile_cons_of_neg (by simpa using Int.le_of_lt hneg), dropWhile_cons_of_neg
      (by simpa using Int.le_of_lt hneg), append_nil]

/-- A repetition that is long enough begins with a run. -/
theorem repeatRuns_head (allowLongRuns : Bool) (hn : minCompressRun ≤ n) :
    ∃ run rest, repeatRuns allowLongRuns n = run :: rest ∧ run < 0 ∧ minCompressRun ≤ run.natAbs := by
  unfold minCompressRun at hn
  unfold repeatRuns minCompressRun
  by_cases hlong : allowLongRuns = true
  · rw [if_pos hlong]
    exact ⟨_, _, rfl, by omega, by omega⟩
  · rw [if_neg hlong]
    by_cases hzero : n / maxShortRun = 0
    · have hlt : n < maxShortRun := (Nat.div_eq_zero_iff.mp hzero).resolve_left (by decide)
      rw [hzero, Nat.mod_eq_of_lt hlt, if_neg (by omega)]
      exact ⟨_, _, rfl, by omega, by omega⟩
    · obtain ⟨q, hq⟩ := Nat.exists_eq_succ_of_ne_zero hzero
      rw [hq]
      exact ⟨_, _, rfl, by decide, by decide⟩

theorem fresh_repeatRuns_append (hn : minCompressRun ≤ n)
    (back : List Int) : Fresh (repeatRuns allowLongRuns n ++ back) := by
  obtain ⟨run, rest, heq, hneg, -⟩ := repeatRuns_head allowLongRuns hn
  rw [heq]
  intro run' hrun
  obtain rfl := Option.mem_some_iff.mp hrun
  exact hneg

theorem joined_literalRuns (m k : Nat) : joined m (literalRuns k) = literalRuns (m + k) := by
  have happend : joined m (literalRuns k ++ []) = literalRuns (m + unpackedLength (literalRuns k)) ++ [] :=
    joined_append (fun run => pos_of_mem_literalRuns) fun run hrun => by cases hrun
  rwa [append_nil, append_nil, unpackedLength_literalRuns] at happend

theorem joined_repeatRuns (hn : minCompressRun ≤ n) (m k : Nat) (back : List Int) :
    joined m (literalRuns k ++ repeatRuns allowLongRuns n ++ back) =
      literalRuns (m + k) ++ repeatRuns allowLongRuns n ++ back := by
  rw [append_assoc, joined_append (fun run => pos_of_mem_literalRuns) (fresh_repeatRuns_append hn back),
    unpackedLength_literalRuns, append_assoc]

/-- Bytes before a block of equal bytes only make the first literal run longer. -/
theorem blockRuns_add (m : Nat) : blockRuns allowLongRuns (m + k) c n data = joined m
    (blockRuns allowLongRuns k c n data) := by
  induction data generalizing k c n with
  | nil =>
    rw [blockRuns, blockRuns]
    by_cases hn : n < minCompressRun
    · rw [if_pos hn, if_pos hn, joined_literalRuns, Nat.add_assoc]
    · rw [if_neg hn, if_neg hn, joined_repeatRuns (Nat.not_lt.mp hn)]
  | cons x data ih =>
    rw [blockRuns, blockRuns]
    by_cases hx : x = c
    · rw [if_pos hx, if_pos hx, ih]
    · rw [if_neg hx, if_neg hx]
      by_cases hn : n < minCompressRun
      · rw [if_pos hn, if_pos hn, Nat.add_assoc, ih]
      · rw [if_neg hn, if_neg hn, joined_repeatRuns (Nat.not_lt.mp hn)]

theorem runsFrom_add (m : Nat) : runsFrom allowLongRuns (m + k) data = joined m (runsFrom allowLongRuns k data) := by
  cases data with
  | nil => rw [runsFrom, runsFrom, joined_literalRuns]
  | cons c data => rw [runsFrom, runsFrom, blockRuns_add]

/-- The cut is in the second part of the runs, or before it. -/
theorem Compressor.CutOff.append_cases {runs' : List Int} (h : CutOff (runs ++ runs') left back) :
    (∃ left', CutOff runs' left' back) ∨ ∃ a, a ≠ [] ∧ CutOff runs left a ∧ back = a ++ runs' := by
  generalize hall : runs ++ runs' = all at h
  cases h with
  | whole =>
    rcases append_eq_append_iff.mp hall with ⟨c, rfl, rfl⟩ | ⟨a, rfl, rfl⟩
    · exact .inl ⟨c, .whole c back⟩
    · by_cases ha : a = []
      · subst ha
        exact .inl ⟨[], .whole [] runs'⟩
      · exact .inr ⟨a, ha, .whole left a, rfl⟩
  | @part front run n back hn hlt =>
    rcases append_eq_append_iff.mp hall with ⟨c, rfl, hruns'⟩ | ⟨a, rfl, ha⟩
    · rw [hruns']
      exact .inl ⟨_, .part c back hn hlt⟩
    · cases a with
      | nil =>
        obtain rfl : runs' = run :: back := ha.symm
        exact .inl ⟨_, .part [] back hn hlt⟩
      | cons run' a =>
        obtain ⟨rfl, rfl⟩ := cons.inj ha
        exact .inr ⟨n :: a, cons_ne_nil _ _, .part front a hn hlt, rfl⟩

theorem Compressor.CutOff.pos (h : CutOff runs left back) (hpos : ∀ run ∈ runs, 0 < run) : ∀ run ∈ back, 0 < run := by
  cases h with
  | whole => exact fun run hrun => hpos run (mem_append_right _ hrun)
  | part front back hn hlt =>
    intro run hrun
    rcases mem_cons.mp hrun with rfl | hrun
    · omega
    · exact hpos run (mem_append_right _ (mem_cons_of_mem _ hrun))

theorem Compressor.CutOff.eq_append (h : CutOff runs left back) (hneg : ∀ run ∈ runs, run < 0) :
    runs = left ++ back := by
  cases h with
  | whole => rfl
  | part front back hn hlt =>
    have hrun := hneg _ (mem_append_right _ (mem_cons_self ..))
    omega

/-! ### The runs of an end of the data -/

theorem unpackedLength_repeatRuns (allowLongRuns : Bool) (n : Nat) :
    unpackedLength (repeatRuns allowLongRuns n) + repeatRest allowLongRuns n = n := by
  unfold repeatRuns repeatRest
  split
  · rw [unpackedLength_cons, Int.natAbs_neg]
    rfl
  · have hdiv := Nat.div_add_mod n maxShortRun
    rw [unpackedLength_append, unpackedLength_replicate, Int.natAbs_neg, Int.natAbs_natCast, Nat.mul_comm]
    split
    · rw [unpackedLength_nil]
      omega
    · rw [unpackedLength_cons, unpackedLength_nil, Int.natAbs_neg]
      omega

theorem unpackedLength_blockRuns : unpackedLength (blockRuns allowLongRuns k c n data) = k + n + data.length := by
  have hrepeat := unpackedLength_repeatRuns allowLongRuns
  induction data generalizing k c n with
  | nil =>
    rw [blockRuns]
    split
    · rw [unpackedLength_literalRuns]
      rfl
    · have hn := hrepeat n
      rw [unpackedLength_append, unpackedLength_append, unpackedLength_literalRuns, unpackedLength_literalRuns,
        length_nil]
      omega
  | cons x data ih =>
    rw [blockRuns, length_cons]
    split
    · rw [ih]
      omega
    · split
      · rw [ih]
        omega
      · have hn := hrepeat n
        rw [unpackedLength_append, unpackedLength_append, unpackedLength_literalRuns, ih]
        omega

theorem unpackedLength_runsFrom : unpackedLength (runsFrom allowLongRuns k data) = k + data.length := by
  cases data with
  | nil => exact unpackedLength_literalRuns k
  | cons c data => rw [runsFrom, unpackedLength_blockRuns, length_cons, Nat.add_assoc, Nat.add_comm 1]

/-- Bytes in front of a repetition of `c` are stored as they are. -/
def Stored (allowLongRuns : Bool) (p : List UInt8) (c : UInt8) : Prop :=
  ∀ q, q <:+ p → ∀ n, 0 < n → ∀ data,
    runsFrom allowLongRuns 0 (q ++ (replicate n c ++ data)) = blockRuns allowLongRuns q.length c n data

/-- Every end of the data that begins where the runs can be cut has the runs cut off, found anew. -/
def Restarts (allowLongRuns : Bool) (data : List UInt8) (runs : List Int) : Prop :=
  ∀ left back t, CutOff runs left back → t <:+ data → t.length = unpackedLength back →
    runsFrom allowLongRuns 0 t = restart back

theorem Stored.nil (allowLongRuns : Bool) (c : UInt8) : Stored allowLongRuns [] c := by
  intro q hq n hn data
  obtain rfl := suffix_nil.mp hq
  exact runsFrom_replicate hn

/-- An end of the data begins before a repetition or within it. -/
theorem suffix_append_replicate (h : q <:+ p ++ replicate n c) :
    (∃ q', q' <:+ p ∧ q = q' ++ replicate n c) ∨ q <:+ replicate n c := by
  obtain ⟨s, hs⟩ := h
  rcases append_eq_append_iff.mp hs with ⟨q', rfl, rfl⟩ | ⟨s', rfl, hreplicate⟩
  · exact .inl ⟨q', suffix_append s q', rfl⟩
  · exact .inr ⟨s', hreplicate.symm⟩

theorem head?_replicate_append (hn : 0 < n) (hx : x ≠ c) (data : List UInt8) :
    (replicate n x ++ data).head? ≠ some c := by
  obtain ⟨n, rfl⟩ := Nat.exists_eq_succ_of_ne_zero (Nat.pos_iff_ne_zero.mp hn)
  exact fun hhead => hx (Option.some.inj hhead)

theorem Stored.rest (hshort : n < minCompressRun) (hx : x ≠ c) : Stored allowLongRuns (replicate n c) x := by
  rintro q ⟨s, hs⟩ n' hn' data
  obtain ⟨hlength, -, hq⟩ := append_eq_replicate_iff.mp hs
  rw [hq, length_replicate, runsFrom_rest (by omega) (head?_replicate_append hn' hx data), Nat.zero_add,
    runsFrom_replicate hn']

theorem Stored.append (h : Stored allowLongRuns p c) (hn : 0 < n) (hshort : n < minCompressRun) (hx : x ≠ c) :
    Stored allowLongRuns (p ++ replicate n c) x := by
  intro q hq n' hn' data
  rcases suffix_append_replicate hq with ⟨q', hq', rfl⟩ | hq
  · rw [append_assoc, h q' hq' n hn, blockRuns_short hshort (head?_replicate_append hn' hx data), runsFrom_replicate
      hn', length_append, length_replicate]
  · exact Stored.rest hshort hx q hq n' hn' data

theorem restart_lits_append (hlits : ∀ run ∈ lits, 0 < run) (hne : lits ≠ []) (hback : Fresh back) :
    restart (lits ++ back) = literalRuns (unpackedLength lits) ++ back := by
  have hjoined := joined_append (m := 0) hlits hback
  rw [Nat.zero_add] at hjoined
  cases lits with
  | nil => exact absurd rfl hne
  | cons run lits =>
    have hpos := hlits run (mem_cons_self ..)
    rw [← hjoined, cons_append, restart, if_neg fun hboth => absurd hboth.1 (by omega)]

/-- Runs of full length, and a shorter one if the rest is long enough. -/
theorem repeatRuns_eq (j : Nat) (hm : m < maxShortRun) :
    repeatRuns false (maxShortRun * j + m) =
      replicate j (-(maxShortRun : Int)) ++ (if m < 3 then [] else [-(m : Int)]) ∧
    repeatRest false (maxShortRun * j + m) = if m < 3 then m else 0 := by
  unfold repeatRuns repeatRest
  rw [Nat.mul_add_div (by decide), Nat.mul_add_mod,
    Nat.div_eq_of_lt hm, Nat.mod_eq_of_lt hm]
  exact ⟨rfl, rfl⟩

/-- The last runs of a repetition are those of a shorter one with the same rest. -/
theorem repeatRuns_suffix {a : List Int} (h : repeatRuns allowLongRuns n = left ++ a) (ha : a ≠ []) :
    repeatRuns allowLongRuns (unpackedLength a + repeatRest allowLongRuns n) = a ∧
      repeatRest allowLongRuns (unpackedLength a + repeatRest allowLongRuns n) = repeatRest allowLongRuns n := by
  cases allowLongRuns with
  | true =>
    rcases append_eq_singleton_iff.mp h.symm with ⟨-, rfl⟩ | ⟨-, rfl⟩
    · have hlength : unpackedLength [-(n : Int)] + repeatRest true n = n := by
        rw [unpackedLength_cons, Int.natAbs_neg]
        rfl
      rw [hlength]
      exact ⟨rfl, rfl⟩
    · exact absurd rfl ha
  | false =>
    obtain ⟨j, m, hm, rfl⟩ : ∃ j m, m < maxShortRun ∧ n = maxShortRun * j + m :=
      ⟨n / maxShortRun, n % maxShortRun, Nat.mod_lt n (by decide), (Nat.div_add_mod n maxShortRun).symm⟩
    obtain ⟨hruns, hrest⟩ := repeatRuns_eq j hm
    rw [hruns] at h
    rw [hrest]
    have hend : ∀ i, a = replicate i (-(maxShortRun : Int)) ++ (if m < 3 then [] else [-(m : Int)]) →
        repeatRuns false (unpackedLength a + if m < 3 then m else 0) = a ∧
          repeatRest false (unpackedLength a + if m < 3 then m else 0) = if m < 3 then m else 0 := by
      rintro i rfl
      have hlength : unpackedLength (replicate i (-(maxShortRun : Int)) ++ (if m < 3 then [] else [-(m : Int)])) +
          (if m < 3 then m else 0) = maxShortRun * i + m := by
        rw [unpackedLength_append, unpackedLength_replicate, Int.natAbs_neg, Nat.mul_comm]
        split
        · rfl
        · rw [unpackedLength_cons, Int.natAbs_neg]
          rfl
      rw [hlength]
      exact repeatRuns_eq i hm
    rcases append_eq_append_iff.mp h with ⟨s, rfl, htp⟩ | ⟨s, hs, rfl⟩
    · refine hend 0 ?_
      rw [replicate_zero, nil_append]
      split at htp
      · exact absurd (append_eq_nil_iff.mp htp.symm).2 ha
      · next hlong =>
        rcases append_eq_singleton_iff.mp htp.symm with ⟨-, rfl⟩ | ⟨-, rfl⟩
        · rw [if_neg hlong]
        · exact absurd rfl ha
    · refine hend s.length ?_
      rw [← (append_eq_replicate_iff.mp hs.symm).2.2]

/-- The last piece may be too short to be found by itself. -/
theorem repeatRuns_short (hn : n < minCompressRun) (h : repeatRuns false n ≠ []) :
    3 ≤ n ∧ repeatRuns false n = [-(n : Int)] ∧ repeatRest false n = 0 := by
  obtain ⟨hruns, hrest⟩ := repeatRuns_of_lt (hn.trans (by decide))
  rw [hruns] at h ⊢
  rw [hrest]
  by_cases hshort : n < 3
  · rw [if_pos hshort] at h
    exact absurd rfl h
  · rw [if_neg hshort, if_neg hshort]
    exact ⟨Nat.not_lt.mp hshort, rfl, rfl⟩

theorem restart_repeatRuns_append (hn : minCompressRun ≤ n) (back : List Int) :
    restart (repeatRuns allowLongRuns n ++ back) = repeatRuns allowLongRuns n ++ back := by
  have hjoined : joined 0 ([] ++ (repeatRuns allowLongRuns n ++ back)) = literalRuns 0 ++
      (repeatRuns allowLongRuns n ++ back) :=
    joined_append nofun (fresh_repeatRuns_append hn back)
  obtain ⟨run, rest, heq, hneg, hlong⟩ := repeatRuns_head allowLongRuns hn
  rw [heq] at hjoined
  rw [heq, cons_append, restart, if_neg fun hboth => absurd hboth.2 (Nat.not_lt.mpr hlong)]
  exact hjoined

theorem suffix_unique {l l' all : List UInt8} (h : l <:+ all) (h' : l' <:+ all)
    (hlength : l.length = l'.length) : l = l' :=
  (suffix_of_suffix_length_le h h' hlength.le).eq_of_length hlength

theorem restart_repeatRuns {a : List Int} (hn : minCompressRun ≤ n) (hdata : data.head? ≠ some c)
    (h : repeatRuns allowLongRuns n = left ++ a) (ha : a ≠ []) :
    runsFrom allowLongRuns 0 (replicate (unpackedLength a + repeatRest allowLongRuns n) c ++ data) =
      restart (a ++ runsFrom allowLongRuns (repeatRest allowLongRuns n) data) := by
  obtain ⟨hruns, hrest⟩ := repeatRuns_suffix h ha
  generalize hm : unpackedLength a + repeatRest allowLongRuns n = m at hruns hrest
  by_cases hshort : m < minCompressRun
  · cases allowLongRuns with
    | true =>
      rw [← hruns] at h
      rcases append_eq_singleton_iff.mp h.symm with ⟨-, hmn⟩ | ⟨-, hnil⟩
      · have hsame : m = n := by
          have hrun := (cons.inj hmn).1
          omega
        exact absurd hshort (hsame ▸ Nat.not_lt.mpr hn)
      · exact nomatch hnil
    | false =>
      obtain ⟨hmin, hone, hzero⟩ := repeatRuns_short hshort (hruns ▸ ha)
      have hrestart : restart (-(m : Int) :: runsFrom false 0 data) = joined m (runsFrom false 0 data) := by
        rw [restart, if_pos ⟨by omega, by rw [Int.natAbs_neg]; exact hshort⟩, Int.natAbs_neg,
          Int.natAbs_natCast]
      rw [← hrest, hzero, ← hruns, hone, singleton_append, hrestart, runsFrom_rest hshort hdata, Nat.zero_add]
      exact runsFrom_add (k := 0) m
  · have hlong : minCompressRun ≤ m := Nat.not_lt.mp hshort
    rw [runsFrom_replicate (by unfold minCompressRun at hlong; omega), blockRuns_long hlong hdata, hrest,
      literalRuns_zero, nil_append, ← hruns, restart_repeatRuns_append hlong]

theorem neg_of_mem_repeatRuns {run : Int} (hn : 0 < n) (h : run ∈ repeatRuns allowLongRuns n) : run < 0 := by
  unfold repeatRuns at h
  split at h
  · rw [mem_singleton.mp h]
    omega
  · rcases mem_append.mp h with h | h
    · rw [eq_of_mem_replicate h]
      decide
    · split at h
      · exact nomatch h
      · rw [mem_singleton.mp h]
        omega

/-- A repetition with bytes before it, and the data behind it -/
theorem Restarts.long (hn : minCompressRun ≤ n) (hdata : data.head? ≠ some c) (hp : Stored allowLongRuns p c)
    (h : Restarts allowLongRuns (replicate (repeatRest allowLongRuns n) c ++ data)
      (runsFrom allowLongRuns (repeatRest allowLongRuns n) data)) :
    Restarts allowLongRuns (p ++ (replicate n c ++ data)) (blockRuns allowLongRuns p.length c n data) := by
  intro left back t hcut ht hlength
  rw [blockRuns_long hn hdata] at hcut
  have hpos : 0 < n := by
    unfold minCompressRun at hn
    omega
  have hblock : ∀ j ≤ n, replicate j c ++ data <:+ p ++ (replicate n c ++ data) := by
    intro j hj
    refine ⟨p ++ replicate (n - j) c, ?_⟩
    rw [append_assoc, ← append_assoc (replicate (n - j) c), replicate_append_replicate,
      Nat.sub_add_cancel hj]
  have hrest : repeatRest allowLongRuns n ≤ n := by
    have hle := unpackedLength_repeatRuns allowLongRuns n
    omega
  have hbehind : unpackedLength (runsFrom allowLongRuns (repeatRest allowLongRuns n) data) =
      repeatRest allowLongRuns n + data.length := unpackedLength_runsFrom
  rcases hcut.append_cases with ⟨left', hbehindCut⟩ | ⟨a, ha, hfront, rfl⟩
  · refine h left' back t hbehindCut (suffix_of_suffix_length_le ht (hblock _ hrest) ?_) hlength
    have hle := hbehindCut.unpackedLength_eq
    rw [length_append, length_replicate]
    omega
  · rcases hfront.append_cases with ⟨left', hrepeat⟩ | ⟨lits, hne, hlitsCut, rfl⟩
    · -- within the repetitions
      have heq := hrepeat.eq_append fun run => neg_of_mem_repeatRuns hpos
      have hle := unpackedLength_repeatRuns allowLongRuns n
      rw [heq, unpackedLength_append] at hle
      rw [unpackedLength_append] at hlength
      rw [suffix_unique ht (hblock (unpackedLength a + repeatRest allowLongRuns n) (by omega)) (by
        rw [length_append, length_replicate]
        omega)]
      exact restart_repeatRuns hn hdata heq ha
    · -- within the bytes before them
      have hlits := hlitsCut.pos fun run => pos_of_mem_literalRuns
      have hle := hlitsCut.unpackedLength_eq
      have hcount := unpackedLength_repeatRuns allowLongRuns n
      rw [unpackedLength_literalRuns] at hle
      rw [unpackedLength_append, unpackedLength_append] at hlength
      have hq : (p.drop (p.length - unpackedLength lits)).length = unpackedLength lits := by
        rw [length_drop]
        omega
      have hsuffix : p.drop (p.length - unpackedLength lits) ++ (replicate n c ++ data) <:+
          p ++ (replicate n c ++ data) :=
        ⟨p.take (p.length - unpackedLength lits), by rw [← append_assoc, take_append_drop]⟩
      rw [suffix_unique ht hsuffix (by
        rw [length_append, length_append, length_replicate]
        omega), hp _ (drop_suffix ..) n hpos, hq, blockRuns_long hn hdata, append_assoc,
        append_assoc, restart_lits_append hlits hne (fresh_repeatRuns_append hn _)]

/-- The data ends with literal bytes. -/
theorem Restarts.last (hn : n < minCompressRun) (hpos : 0 < n) (hp : Stored allowLongRuns p c) :
    Restarts allowLongRuns (p ++ replicate n c) (literalRuns (p.length + n)) := by
  intro left back t hcut ht hlength
  have hback := hcut.pos fun run => pos_of_mem_literalRuns
  have hrestart : restart back = literalRuns t.length := by
    rw [hlength]
    cases back with
    | nil => rfl
    | cons run back =>
      have happend : restart ((run :: back) ++ []) = literalRuns (unpackedLength (run :: back)) ++ [] :=
        restart_lits_append hback (cons_ne_nil _ _) fun run' hrun => by cases hrun
      rwa [append_nil, append_nil] at happend
  rw [hrestart]
  rcases suffix_append_replicate ht with ⟨q, hq, rfl⟩ | ⟨s, hs⟩
  · have hstored := hp q hq n hpos []
    rw [append_nil] at hstored
    rw [hstored, blockRuns, if_pos hn, length_append, length_replicate]
  · have hlength' := congrArg List.length hs
    rw [length_append, length_replicate] at hlength'
    rw [runsFrom_of_lt (by omega), Nat.zero_add]

theorem Restarts.nil : Restarts allowLongRuns [] (literalRuns 0) := by
  intro left back t hcut ht hlength
  have hle := hcut.unpackedLength_eq
  have hback : back = [] := by
    cases back with
    | nil => rfl
    | cons run back =>
      have hpos := hcut.pos (fun run => pos_of_mem_literalRuns) run (mem_cons_self ..)
      rw [unpackedLength_literalRuns, unpackedLength_cons] at hle
      omega
  rw [suffix_nil.mp ht, hback]
  rfl

/-- By induction on the data behind the block. -/
theorem blockRuns_restarts (hp : Stored allowLongRuns p c) (hn : 0 < n) :
    Restarts allowLongRuns (p ++ (replicate n c ++ data)) (blockRuns allowLongRuns p.length c n data) := by
  induction data generalizing p c n with
  | nil =>
    by_cases hshort : n < minCompressRun
    · rw [blockRuns, if_pos hshort, append_nil]
      exact .last hshort hn hp
    · refine .long (Nat.not_lt.mp hshort) (fun hhead => by cases hhead) hp ?_
      have hrest := (repeatRest_lt allowLongRuns n).trans (by decide : 3 < minCompressRun)
      rw [append_nil]
      rcases Nat.eq_zero_or_pos (repeatRest allowLongRuns n) with hzero | hpos
      · rw [hzero]
        exact .nil
      · have hlast := Restarts.last hrest hpos (Stored.nil allowLongRuns c)
        rw [length_nil, Nat.zero_add] at hlast
        exact hlast
  | cons x data ih =>
    rw [blockRuns]
    by_cases hx : x = c
    · subst hx
      have hnext := ih hp (Nat.succ_pos n)
      rw [if_pos rfl]
      rw [replicate_succ', append_assoc] at hnext
      exact hnext
    · rw [if_neg hx]
      by_cases hshort : n < minCompressRun
      · rw [if_pos hshort]
        have hnext := ih (hp.append hn hshort hx) Nat.one_pos
        rw [length_append, length_replicate, append_assoc] at hnext
        exact hnext
      · rw [if_neg hshort]
        have hlong := Nat.not_lt.mp hshort
        have hrest := (repeatRest_lt allowLongRuns n).trans (by decide : 3 < minCompressRun)
        have hnext := ih (Stored.rest hrest hx) Nat.one_pos
        rw [length_replicate] at hnext
        have hhead : (x :: data).head? ≠ some c := fun hhead => hx (Option.some.inj hhead)
        have hlongRuns := Restarts.long hlong hhead hp hnext
        rw [blockRuns_long hlong hhead] at hlongRuns
        exact hlongRuns

theorem runsFrom_restarts (data : List UInt8) : Restarts allowLongRuns data (runsFrom allowLongRuns 0 data) := by
  cases data with
  | nil => exact .nil
  | cons c data => exact blockRuns_restarts (Stored.nil allowLongRuns c) Nat.one_pos

end Firebird.Sqz
