import Firebird.Sqz.Truncate

/-! # The runs of the scanner

The scanner takes blocks of equal bytes: short ones are stored as they are, together with the bytes before and behind
them, long ones as repetitions. -/

namespace Firebird.Sqz

open List

def literalRuns (n : Nat) : List Int :=
  replicate (n / maxNoncompRun) (maxNoncompRun : Int) ++
    if n % maxNoncompRun = 0 then [] else [((n % maxNoncompRun : Nat) : Int)]

/-- The bytes of a long block that are left for the next runs. -/
def repeatRest (allowLongRuns : Bool) (n : Nat) : Nat :=
  if allowLongRuns then 0 else if n % maxShortRun < 3 then n % maxShortRun else 0

def repeatRuns (allowLongRuns : Bool) (n : Nat) : List Int :=
  if allowLongRuns then [-(n : Int)]
  else
    replicate (n / maxShortRun) (-(maxShortRun : Int)) ++
      if n % maxShortRun < 3 then [] else [-((n % maxShortRun : Nat) : Int)]

/-- The runs of `n` equal bytes `c` and the data behind them, after `k` bytes to store as they are. -/
def blockRuns (allowLongRuns : Bool) (k : Nat) (c : UInt8) (n : Nat) : List UInt8 → List Int
  | [] =>
    if n < minCompressRun then literalRuns (k + n)
    else literalRuns k ++ repeatRuns allowLongRuns n ++ literalRuns (repeatRest allowLongRuns n)
  | x :: data =>
    if x = c then blockRuns allowLongRuns k c (n + 1) data
    else if n < minCompressRun then blockRuns allowLongRuns (k + n) x 1 data
    else literalRuns k ++ repeatRuns allowLongRuns n ++ blockRuns allowLongRuns (repeatRest allowLongRuns n) x 1 data

def runsFrom (allowLongRuns : Bool) (k : Nat) : List UInt8 → List Int
  | [] => literalRuns k
  | c :: data => blockRuns allowLongRuns k c 1 data

variable {allowLongRuns : Bool} {k n : Nat} {c x : UInt8} {data : List UInt8}

theorem literalRuns_zero : literalRuns 0 = [] := rfl

theorem repeatRest_lt (allowLongRuns : Bool) (n : Nat) : repeatRest allowLongRuns n < 3 := by
  unfold repeatRest
  split
  · decide
  · split
    · assumption
    · decide

theorem blockRuns_append (m : Nat) : blockRuns allowLongRuns k c n (replicate m c ++ data) =
    blockRuns allowLongRuns k c (n + m) data := by
  induction m generalizing n with
  | zero => rfl
  | succ m ih =>
    rw [replicate_succ, cons_append, blockRuns, if_pos rfl, ih]
    exact congrArg (blockRuns allowLongRuns k c · data) (by omega)

theorem blockRuns_short (hn : n < minCompressRun) (hdata : data.head? ≠ some c) :
    blockRuns allowLongRuns k c n data = runsFrom allowLongRuns (k + n) data := by
  cases data with
  | nil => rw [blockRuns, if_pos hn, runsFrom]
  | cons x data =>
    have hx : x ≠ c := fun hx => hdata (hx ▸ rfl)
    rw [blockRuns, if_neg hx, if_pos hn, runsFrom]

theorem runsFrom_replicate (hn : 0 < n) : runsFrom allowLongRuns k (replicate n c ++ data) =
    blockRuns allowLongRuns k c n data := by
  obtain ⟨n, rfl⟩ := Nat.exists_eq_succ_of_ne_zero hn.ne'
  rw [replicate_succ, cons_append, runsFrom, blockRuns_append]
  exact congrArg (blockRuns allowLongRuns k c · data) (by omega)

theorem runsFrom_rest (hn : n < minCompressRun) (hdata : data.head? ≠ some c) :
    runsFrom allowLongRuns k (replicate n c ++ data) = runsFrom allowLongRuns (k + n) data := by
  rcases Nat.eq_zero_or_pos n with rfl | hpos
  · rfl
  · rw [runsFrom_replicate hpos, blockRuns_short hn hdata]

theorem blockRuns_long (hn : minCompressRun ≤ n) (hdata : data.head? ≠ some c) :
    blockRuns allowLongRuns k c n data = literalRuns k ++ repeatRuns allowLongRuns n ++
      runsFrom allowLongRuns (repeatRest allowLongRuns n) data := by
  cases data with
  | nil => rw [blockRuns, if_neg (Nat.not_lt.mpr hn), runsFrom]
  | cons x data =>
    have hx : x ≠ c := fun hx => hdata (hx ▸ rfl)
    rw [blockRuns, if_neg hx, if_neg (Nat.not_lt.mpr hn), runsFrom]

/-! ### What the scanner adds -/

def Closed (runs : List Int) : Prop := ∀ back ∈ runs.getLast?, back < 0

theorem literalRuns_eq {q r : Nat} (hr : 0 < r) (hmax : r ≤ maxNoncompRun) :
    literalRuns (maxNoncompRun * q + r) = replicate q (maxNoncompRun : Int) ++ [(r : Int)] := by
  unfold literalRuns
  rcases Nat.lt_or_eq_of_le hmax with hlt | rfl
  · rw [Nat.mul_add_div (by decide), Nat.mul_add_mod, Nat.div_eq_of_lt hlt, Nat.mod_eq_of_lt hlt,
      if_neg hr.ne', Nat.add_zero]
  · rw [← Nat.mul_succ, Nat.mul_div_cancel_left _ (by decide), Nat.mul_mod_right, if_pos rfl, append_nil,
      replicate_succ']

theorem literalRuns_cases (k : Nat) : k = 0 ∨ ∃ q r, k = maxNoncompRun * q + r ∧ 0 < r ∧ r ≤ maxNoncompRun := by
  rcases Nat.eq_zero_or_pos k with hzero | hpos
  · exact .inl hzero
  · refine .inr ⟨(k - 1) / maxNoncompRun, (k - 1) % maxNoncompRun + 1, ?_, Nat.succ_pos _, Nat.mod_lt _ (by decide)⟩
    have hdiv := Nat.div_add_mod (k - 1) maxNoncompRun
    omega

theorem nonCompressableRun_runs {base : List Int} (hbase : Closed base) {s : Scan} (hs : s.runs = base ++ literalRuns k)
    (hpos : 0 < n) (hn : n ≤ maxNoncompRun) : (nonCompressableRun s n).runs = base ++ literalRuns (k + n) := by
  rcases literalRuns_cases k with rfl | ⟨q, r, rfl, hr, hmax⟩
  · rw [literalRuns_zero, append_nil] at hs
    have hnew : literalRuns (0 + n) = [(n : Int)] := by
      have heq := @literalRuns_eq 0 n hpos hn
      rwa [Nat.mul_zero] at heq
    unfold nonCompressableRun
    rw [hs, hnew]
    split
    · next back hback =>
      rw [if_neg fun hopen => absurd hopen.1 (by have hneg := hbase back hback; omega)]
    · rfl
  · rw [literalRuns_eq hr hmax, ← append_assoc] at hs
    have hlast : s.runs.getLast? = some (r : Int) := by rw [hs, getLast?_concat]
    have hfront : s.runs.dropLast = base ++ replicate q (maxNoncompRun : Int) := by rw [hs, dropLast_concat]
    unfold nonCompressableRun
    rw [hlast]
    dsimp only
    by_cases hopen : (0 : Int) < r ∧ (r : Int) < maxNoncompRun
    · rw [if_pos hopen, hfront]
      by_cases hfits : r + n ≤ maxNoncompRun
      · rw [if_pos (by omega), Nat.add_assoc, literalRuns_eq (Nat.add_pos_left hr n) hfits, ← append_assoc]
        refine congrArg (fun run : Int => base ++ replicate q (maxNoncompRun : Int) ++ [run]) ?_
        omega
      · have hsum : maxNoncompRun * q + r + n = maxNoncompRun * (q + 1) + (r + n - maxNoncompRun) := by
          rw [Nat.mul_succ]
          omega
        rw [if_neg (by omega), hsum, literalRuns_eq (by omega) (by omega), replicate_succ', ← append_assoc,
          ← append_assoc]
        refine congrArg₂ (fun run run' : Int => base ++ replicate q (maxNoncompRun : Int) ++ [run] ++ [run']) ?_ ?_
        · omega
        · omega
    · have hfull : r = maxNoncompRun := by omega
      subst hfull
      rw [if_neg hopen, ← Nat.mul_succ, literalRuns_eq hpos hn, replicate_succ', hs, ← append_assoc,
        ← append_assoc]

theorem storeNonCompressable_runs {base : List Int} (hbase : Closed base) {s : Scan}
    (hs : s.runs = base ++ literalRuns k) : (storeNonCompressable s n).runs = base ++ literalRuns (k + n) := by
  fun_induction storeNonCompressable s n generalizing k with
  | case1 s => exact hs
  | case2 s count hne ih =>
    have hmax : min count maxNoncompRun ≤ maxNoncompRun := Nat.min_le_right ..
    have hpos : 0 < min count maxNoncompRun := Nat.lt_min.mpr ⟨Nat.pos_of_ne_zero hne, by decide⟩
    rw [ih (nonCompressableRun_runs hbase hs hpos hmax), Nat.add_assoc, Nat.add_sub_cancel' (Nat.min_le_left ..)]

theorem repeatRuns_add (n : Nat) : repeatRuns false (maxShortRun + n) = -(maxShortRun : Int) :: repeatRuns false n ∧
    repeatRest false (maxShortRun + n) = repeatRest false n := by
  have hdiv : (maxShortRun + n) / maxShortRun = n / maxShortRun + 1 := Nat.add_div_left n (by decide)
  unfold repeatRuns repeatRest
  rw [hdiv,
    Nat.add_mod_left, replicate_succ]
  exact ⟨rfl, rfl⟩

theorem repeatRuns_of_lt (hn : n < maxShortRun) :
    repeatRuns false n = (if n < 3 then [] else [-(n : Int)]) ∧ repeatRest false n = if n < 3 then n else 0 := by
  unfold repeatRuns repeatRest
  rw [Nat.div_eq_of_lt hn, Nat.mod_eq_of_lt hn, replicate_zero]
  exact ⟨rfl, rfl⟩

theorem storeShortRuns_runs (s : Scan) (n : Nat) :
    (storeShortRuns s n).1.runs = s.runs ++ repeatRuns false n ∧ (storeShortRuns s n).2 = repeatRest false n := by
  fun_induction storeShortRuns s n with
  | case1 s => exact ⟨(append_nil _).symm, rfl⟩
  | case2 s count hne hshort =>
    have hlt : count < 3 := by
      unfold maxShortRun at hshort
      omega
    obtain ⟨hruns, hrest⟩ := repeatRuns_of_lt (hlt.trans (by decide))
    rw [hruns, hrest, if_pos hlt, if_pos hlt, append_nil, Nat.min_eq_left (hlt.le.trans (by decide))]
    exact ⟨rfl, rfl⟩
  | case3 s count hne hshort ih =>
    rw [ih.1, ih.2, append_assoc]
    rcases Nat.lt_or_ge count maxShortRun with hlt | hge
    · rw [Nat.min_eq_left hlt.le] at hshort ⊢
      obtain ⟨hruns, hrest⟩ := repeatRuns_of_lt hlt
      rw [hruns, hrest, if_neg hshort, if_neg hshort, Nat.sub_self]
      exact ⟨rfl, rfl⟩
    · obtain ⟨m, rfl⟩ := Nat.exists_eq_add_of_le hge
      rw [Nat.min_eq_right hge, Nat.add_sub_cancel_left, (repeatRuns_add m).1, (repeatRuns_add m).2]
      exact ⟨rfl, rfl⟩

theorem exists_block (c : UInt8) (data : List UInt8) : ∃ m rest, data = replicate m c ++ rest ∧ rest.head? ≠ some c ∧
    repeatLength (c :: data) = m + 1 := by
  induction data with
  | nil => exact ⟨0, [], rfl, nofun, rfl⟩
  | cons x data ih =>
    by_cases hx : x = c
    · obtain ⟨m, rest, hdata, hrest, hlength⟩ := ih
      refine ⟨m + 1, rest, by rw [hdata, hx]; rfl, hrest, ?_⟩
      rw [repeatLength] at hlength ⊢
      rw [takeWhile_cons_of_pos (by simpa using hx), length_cons, hlength]
    · refine ⟨0, x :: data, rfl, fun hhead => hx (Option.some.inj hhead), ?_⟩
      rw [repeatLength, takeWhile_cons_of_neg (by simpa using hx)]
      rfl

theorem runsFrom_of_lt (h : data.length < minCompressRun) :
    runsFrom allowLongRuns k data = literalRuns (k + data.length) := by
  have hblock : ∀ {k n : Nat} {c : UInt8} (data : List UInt8), n + data.length < minCompressRun →
      blockRuns allowLongRuns k c n data = literalRuns (k + (n + data.length)) := by
    intro k n c data
    induction data generalizing k n c with
    | nil =>
      intro h
      rw [blockRuns, if_pos (by exact h)]
      rfl
    | cons x data ih =>
      intro h
      rw [length_cons] at h ⊢
      rw [blockRuns]
      by_cases hx : x = c
      · rw [if_pos hx, ih (by omega)]
        exact congrArg literalRuns (by omega)
      · rw [if_neg hx, if_pos (by omega), ih (by omega)]
        exact congrArg literalRuns (by omega)
  cases data with
  | nil => rfl
  | cons x data =>
    rw [length_cons] at h ⊢
    rw [runsFrom, hblock data (by omega), Nat.add_comm 1]

theorem runsFrom_firstTriple (data : List UInt8) :
    runsFrom allowLongRuns k data = runsFrom allowLongRuns (k + firstTriple data) (data.drop (firstTriple data)) := by
  fun_induction firstTriple data generalizing k with
  | case1 => rfl
  | case2 a b c data hne ih =>
    rw [drop_succ_cons, Nat.add_comm _ 1, ← Nat.add_assoc, ← ih]
    by_cases hab : a = b
    · have hbc : c ≠ b := fun hcb => hne ⟨hab, hab.trans hcb.symm⟩
      rw [hab, runsFrom, runsFrom, blockRuns, if_pos rfl, blockRuns, if_neg hbc, blockRuns, if_neg hbc]
      rfl
    · rw [runsFrom, blockRuns, if_neg (Ne.symm hab), if_pos (by decide), runsFrom]
  | case3 data hdata =>
    have hlt : data.length < minCompressRun := by
      match data, hdata with
      | [], _ => exact (by decide : 0 < 8)
      | [_], _ => exact (by decide : 1 < 8)
      | [_, _], _ => exact (by decide : 2 < 8)
      | a :: b :: c :: data, hdata => exact absurd rfl (hdata a b c data)
    rw [runsFrom_of_lt hlt, drop_length]
    rfl

theorem closed_append_of_neg (base : List Int) {run : Int} (h : run < 0) : Closed (base ++ [run]) := by
  intro back hback
  rw [getLast?_concat] at hback
  obtain rfl := Option.mem_some_iff.mp hback
  exact h

theorem repeatRuns_concat (allowLongRuns : Bool) (hn : minCompressRun ≤ n) :
    ∃ front run, repeatRuns allowLongRuns n = front ++ [run] ∧ run < 0 := by
  unfold minCompressRun at hn
  unfold repeatRuns
  by_cases hlong : allowLongRuns = true
  · rw [if_pos hlong]
    exact ⟨[], _, rfl, by omega⟩
  · rw [if_neg hlong]
    by_cases hrest : n % maxShortRun < 3
    · have hpos : n / maxShortRun = n / maxShortRun - 1 + 1 := by
        unfold maxShortRun at hrest ⊢
        omega
      rw [if_pos hrest, append_nil, hpos, replicate_succ']
      exact ⟨_, _, rfl, by decide⟩
    · rw [if_neg hrest]
      exact ⟨_, _, rfl, by omega⟩

theorem closed_repeatRuns (hn : minCompressRun ≤ n)
    (base : List Int) : Closed (base ++ repeatRuns allowLongRuns n) := by
  obtain ⟨front, run, heq, hneg⟩ := repeatRuns_concat allowLongRuns hn
  rw [heq, ← append_assoc]
  exact closed_append_of_neg _ hneg

theorem scanStep_runs (allowLongRuns : Bool) (data : List UInt8) {base : List Int} (hbase : Closed base) {s : Scan}
    (hs : s.runs = base ++ literalRuns k) :
    ∃ base' k', Closed base' ∧ (scanStep allowLongRuns s data).1.runs = base' ++ literalRuns k' ∧
      base ++ runsFrom allowLongRuns k data = base' ++ runsFrom allowLongRuns k' (scanStep allowLongRuns s data).2 := by
  have hliteral : runsFrom allowLongRuns k data = runsFrom allowLongRuns (k + nonCompressableLength data)
      (data.drop (nonCompressableLength data)) := by
    unfold nonCompressableLength
    split
    · exact runsFrom_firstTriple data
    · next hshort =>
      rw [runsFrom_of_lt (Nat.not_le.mp hshort), drop_length]
      rfl
  have hstored := storeNonCompressable_runs (n := nonCompressableLength data) hbase hs
  unfold scanStep
  dsimp only
  generalize nonCompressableLength data = count at hliteral hstored ⊢
  generalize data.drop count = rest at hliteral ⊢
  rw [hliteral]
  by_cases hend : rest.length < minCompressRun
  · rw [if_pos hend]
    exact ⟨base, k + count, hbase, hstored, rfl⟩
  · rw [if_neg hend]
    cases rest with
    | nil => exact absurd (by decide) hend
    | cons c rest =>
      obtain ⟨m, rest, rfl, hrest, hlength⟩ := exists_block c rest
      have hblock : runsFrom allowLongRuns (k + count) (c :: (replicate m c ++ rest)) =
          blockRuns allowLongRuns (k + count) c (m + 1) rest := by
        rw [runsFrom, blockRuns_append, Nat.add_comm 1 m]
      have hdrop : ∀ r ≤ m + 1, (c :: (replicate m c ++ rest)).drop (m + 1 - r) = replicate r c ++ rest := by
        intro r hr
        rw [← cons_append, ← replicate_succ, drop_append_of_le_length (by simp), drop_replicate]
        exact congrArg (replicate · c ++ rest) (by omega)
      rw [hlength, hblock]
      by_cases hshort : m + 1 < minCompressRun
      · rw [if_pos hshort, blockRuns_short hshort hrest]
        refine ⟨base, k + count + (m + 1), hbase, nonCompressableRun_runs hbase hstored (Nat.succ_pos m)
          (hshort.le.trans (by decide)), ?_⟩
        exact congrArg (base ++ runsFrom allowLongRuns (k + count + (m + 1)) ·) (hdrop 0 (Nat.zero_le _)).symm
      · have hlong : minCompressRun ≤ m + 1 := Nat.not_lt.mp hshort
        rw [if_neg hshort, blockRuns_long hlong hrest]
        refine ⟨base ++ literalRuns (k + count) ++ repeatRuns allowLongRuns (m + 1), 0,
          closed_repeatRuns hlong _, ?_, ?_⟩
        · rw [literalRuns_zero, append_nil]
          cases allowLongRuns with
          | true => exact congrArg (· ++ [-((m + 1 : Nat) : Int)]) hstored
          | false =>
            have hshortRuns := (storeShortRuns_runs (storeNonCompressable s count) (m + 1)).1
            rw [hstored] at hshortRuns
            exact hshortRuns
        · have hrunsRest : runsFrom allowLongRuns 0 (replicate (repeatRest allowLongRuns (m + 1)) c ++ rest) = _ :=
            runsFrom_rest ((repeatRest_lt allowLongRuns (m + 1)).trans (by decide)) hrest
          rw [Nat.zero_add, ← hdrop _ ((repeatRest_lt allowLongRuns (m + 1)).le.trans (by
            unfold minCompressRun at hlong
            omega))] at hrunsRest
          rw [← hrunsRest, ← append_assoc, ← append_assoc]
          refine congrArg (base ++ literalRuns (k + count) ++ repeatRuns allowLongRuns (m + 1) ++ runsFrom allowLongRuns
            0 ·) ?_
          cases allowLongRuns with
          | true => rfl
          | false =>
            have hshortRest := (storeShortRuns_runs (storeNonCompressable s count) (m + 1)).2
            exact congrArg (fun r => (c :: (replicate m c ++ rest)).drop (m + 1 - r)) hshortRest.symm

theorem scan_runs {base : List Int} (hbase : Closed base) {s : Scan} (hs : s.runs = base ++ literalRuns k) :
    (scan allowLongRuns s data).runs = base ++ runsFrom allowLongRuns k data := by
  fun_induction scan allowLongRuns s data generalizing k base with
  | case1 s => exact hs
  | case2 s data hne hlt ih =>
    obtain ⟨base', k', hbase', hruns, heq⟩ := scanStep_runs allowLongRuns data hbase hs
    rw [ih hbase' hruns, heq]

end Firebird.Sqz
