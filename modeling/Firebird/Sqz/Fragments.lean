import Firebird.Sqz.TailRuns

/-! # Fragments of records

A record too long for a page is stored in fragments. What `truncateTail` cuts off is compressed by itself, and is
expected to fit the page. -/

namespace Firebird.Sqz
open Compressor List

variable {allowLongRuns allowUnpacked : Bool} {k m n outLength : Nat} {c : UInt8} {data t : List UInt8} {space : Int}
  {runs front back left lits : List Int}

/-- The piece of `m` bytes that the fragment begins with, stored together with the bytes behind it, does not make it too
    long, wherever the runs cut off begin with one. -/
def TailFits (allowUnpacked : Bool) (dcc : Compressor) (outLength : Nat) : Prop :=
  ∀ (front : List Int) (m : Nat) (back : List Int), dcc.runs = front ++ -(m : Int) :: back → m < minCompressRun →
    (packedLength (-(m : Int) :: back) : Int) ≤ slong outLength →
      slong outLength ≤ (packedLength (-(m : Int) :: back) : Int) + 1 →
        packedLength (joined m back) ≤ outLength ∨ allowUnpacked = true ∧ m + unpackedLength back ≤ outLength

theorem scan_runsFrom : (scan allowLongRuns { runs := [], length := 0 } data).runs = runsFrom allowLongRuns 0 data :=
  @scan_runs _ 0 _ [] (fun _ hback => by cases hback) _ rfl

theorem compressor_runs (h : (compressor allowLongRuns allowUnpacked data).runs ≠ []) :
    (compressor allowLongRuns allowUnpacked data).runs = runsFrom allowLongRuns 0 data := by
  unfold compressor at h ⊢
  dsimp only at h ⊢
  split at h
  · exact absurd rfl h
  · next hraw =>
    rw [if_neg hraw]
    exact scan_runsFrom

theorem getPackedLength_le_iff (hdata : data.length ≤ maxSlong) :
    (compressor allowLongRuns allowUnpacked data).getPackedLength ≤ outLength ↔
      packedLength (runsFrom allowLongRuns 0 data) ≤ outLength ∨ allowUnpacked = true ∧ data.length ≤ outLength := by
  have hlength := (scanned_scan allowLongRuns hdata).length
  rw [scan_runsFrom] at hlength
  unfold compressor getPackedLength
  dsimp only
  rw [hlength]
  by_cases hraw : allowUnpacked = true ∧ data.length ≤ packedLength (runsFrom allowLongRuns 0 data)
  · rw [if_pos hraw]
    exact ⟨fun hle => .inr ⟨hraw.1, hle⟩, fun h => h.elim hraw.2.trans (·.2)⟩
  · rw [if_neg hraw]
    refine ⟨.inl, fun h => h.elim id fun hboth => ?_⟩
    have hless := fun hle => hraw ⟨hboth.1, hle⟩
    exact (Nat.not_le.mp hless).le.trans hboth.2

def Piece (allowLongRuns : Bool) (run : Int) : Prop :=
  0 < run ∨ run < 0 ∧ (allowLongRuns = true ∧ minCompressRun ≤ run.natAbs ∨ allowLongRuns = false ∧
    run.natAbs ≤ maxShortRun)

theorem piece_of_mem_repeatRuns {run : Int} (hn : minCompressRun ≤ n) (h : run ∈ repeatRuns allowLongRuns n) :
    Piece allowLongRuns run := by
  have hpos : 0 < n := by
    unfold minCompressRun at hn
    omega
  refine .inr ⟨neg_of_mem_repeatRuns hpos h, ?_⟩
  cases allowLongRuns with
  | true =>
    rw [mem_singleton.mp h, Int.natAbs_neg]
    exact .inl ⟨rfl, hn⟩
  | false =>
    refine .inr ⟨rfl, ?_⟩
    rcases mem_append.mp h with h | h
    · rw [eq_of_mem_replicate h]
      decide
    · split at h
      · exact nomatch h
      · rw [mem_singleton.mp h, Int.natAbs_neg]
        exact (Nat.mod_lt n (by decide)).le

theorem piece_of_mem_blockRuns {run : Int} (h : run ∈ blockRuns allowLongRuns k c n data) :
    Piece allowLongRuns run := by
  have hlong : ∀ {k n : Nat} {back : List Int}, ¬n < minCompressRun →
      run ∈ literalRuns k ++ repeatRuns allowLongRuns n ++ back → Piece allowLongRuns run ∨ run ∈ back := by
    intro k n back hn hmem
    rcases mem_append.mp hmem with hmem | hmem
    · rcases mem_append.mp hmem with hmem | hmem
      · exact .inl (.inl (pos_of_mem_literalRuns hmem))
      · exact .inl (piece_of_mem_repeatRuns (Nat.not_lt.mp hn) hmem)
    · exact .inr hmem
  induction data generalizing k c n with
  | nil =>
    rw [blockRuns] at h
    by_cases hn : n < minCompressRun
    · rw [if_pos hn] at h
      exact .inl (pos_of_mem_literalRuns h)
    · rw [if_neg hn] at h
      exact (hlong hn h).elim id fun hmem => .inl (pos_of_mem_literalRuns hmem)
  | cons x data ih =>
    rw [blockRuns] at h
    by_cases hx : x = c
    · rw [if_pos hx] at h
      exact ih h
    · rw [if_neg hx] at h
      by_cases hn : n < minCompressRun
      · rw [if_pos hn] at h
        exact ih h
      · rw [if_neg hn] at h
        exact (hlong hn h).elim id ih

theorem piece_of_mem_runsFrom {run : Int} (h : run ∈ runsFrom allowLongRuns k data) : Piece allowLongRuns run := by
  cases data with
  | nil => exact .inl (pos_of_mem_literalRuns h)
  | cons c data => exact piece_of_mem_blockRuns h

theorem packedLength_replicate (n : Nat) (run : Int) : packedLength (List.replicate n run) = n *
    packedRunLength run := by
  induction n with
  | zero => rw [Nat.zero_mul]; rfl
  | succ n ih => rw [replicate_succ, packedLength_cons, ih, Nat.succ_mul, Nat.add_comm]

theorem packedLength_literalRuns_le {j : Nat} (h : n ≤ maxNoncompRun * j) : packedLength (literalRuns n) ≤ n + j := by
  have hfull : packedRunLength (maxNoncompRun : Int) = maxNoncompRun + 1 := packedRunLength_literal _
  unfold literalRuns
  rw [packedLength_append, packedLength_replicate, hfull]
  unfold maxNoncompRun at *
  split
  · rw [show packedLength [] = 0 from rfl]
    omega
  · rw [packedLength_single, packedRunLength_literal]
    omega

theorem packedLength_joined_le (h : ∀ run ∈ runs, 0 < run → run ≤ maxNoncompRun) :
    packedLength (joined 0 runs) ≤ packedLength runs := by
  have hlits : ∀ lits : List Int, (∀ run ∈ lits, 0 < run ∧ run ≤ maxNoncompRun) →
      packedLength lits = unpackedLength lits + lits.length ∧ unpackedLength lits ≤ maxNoncompRun * lits.length := by
    intro lits
    induction lits with
    | nil => exact fun _ => ⟨rfl, Nat.le_refl 0⟩
    | cons run lits ih =>
      intro hruns
      obtain ⟨hpos, hmax⟩ := hruns run (mem_cons_self ..)
      obtain ⟨hpacked, hle⟩ := ih fun run' hrun' => hruns run' (mem_cons_of_mem _ hrun')
      rw [packedLength_cons, unpackedLength_cons, length_cons, packedRunLength_of_pos hpos, Nat.mul_succ]
      omega
  have htake : ∀ run ∈ runs.takeWhile (0 < ·), 0 < run ∧ run ≤ maxNoncompRun := by
    intro run hrun
    have hpos : 0 < run := by simpa using mem_takeWhile_imp hrun
    exact ⟨hpos, h run ((takeWhile_sublist _).subset hrun) hpos⟩
  obtain ⟨hpacked, hle⟩ := hlits _ htake
  have hshort := packedLength_literalRuns_le hle
  have hsplit : packedLength runs = packedLength (runs.takeWhile (0 < ·)) + packedLength (runs.dropWhile (0 < ·)) := by
    rw [← packedLength_append, takeWhile_append_dropWhile]
  rw [joined, packedLength_append, Nat.zero_add]
  omega

theorem truncateTailRuns_append (front : List Int) (h : ∀ run ∈ back, 0 < run ∨ run < 0)
    (hroom : (packedLength back : Int) ≤ space) (hend : space ≤ packedLength back + 1) (packed : Nat) :
    (truncateTailRuns (front ++ back).reverse space packed).2.2 = unpackedLength back := by
  induction back using reverseRecOn generalizing space packed with
  | nil =>
    have hzero : packedLength [] = 0 := rfl
    cases hall : (front ++ []).reverse with
    | nil => rfl
    | cons run runs =>
      rw [truncateTailRuns, if_pos (by omega)]
      rfl
  | append_singleton back run ih =>
    rw [packedLength_append, packedLength_single] at hroom hend
    have hback : ∀ run' ∈ back, 0 < run' ∨ run' < 0 := fun run' hrun' => h run' (mem_append_left _ hrun')
    rw [← append_assoc, reverse_append, reverse_singleton, singleton_append, truncateTailRuns,
      unpackedLength_append, unpackedLength_cons, unpackedLength_nil]
    rcases h run (mem_append_right _ (mem_singleton_self run)) with hpos | hneg
    · have hlength : packedRunLength run = run.toNat + 1 := packedRunLength_of_pos hpos
      rw [if_neg (by omega), if_neg (by omega), if_neg (by omega)]
      dsimp only
      rw [ih hback (by omega) (by omega)]
      omega
    · have hlength : packedRunLength run = 2 + adjustRunLength run.natAbs := packedRunLength_of_neg hneg
      rw [if_neg (by omega), if_pos hneg, if_neg (by omega)]
      dsimp only
      rw [ih hback (by omega) (by omega)]
      omega

theorem truncateTail_back (outLength : Nat) (hdata : data.length ≤ maxSlong)
    (hruns : (compressor allowLongRuns allowUnpacked data).runs ≠ []) :
    Encodes (compressor allowLongRuns allowUnpacked data).runs data ∧
    (compressor allowLongRuns allowUnpacked data).getPackedLength =
      packedLength (compressor allowLongRuns allowUnpacked data).runs ∧
    ((compressor allowLongRuns allowUnpacked data).truncateTail allowUnpacked outLength).2 =
      (truncateTailRuns (compressor allowLongRuns allowUnpacked data).runs.reverse (slong outLength)
        (packedLength (compressor allowLongRuns allowUnpacked data).runs)).2.2 := by
  rcases compressor_cases allowLongRuns allowUnpacked hdata with ⟨hencodes, hlength, -⟩ | ⟨hnil, -⟩
  · refine ⟨hencodes, hlength, ?_⟩
    rw [truncateTail, if_neg hruns, hlength]
    dsimp only
    split <;> rfl
  · exact absurd hnil hruns

theorem tail_runs (hdata : data.length ≤ maxSlong) (hruns : (compressor allowLongRuns allowUnpacked data).runs ≠ [])
    (hcut : CutOff (compressor allowLongRuns allowUnpacked data).runs left back) :
    runsFrom allowLongRuns 0 (data.drop (data.length - unpackedLength back)) = restart back ∧
      (data.drop (data.length - unpackedLength back)).length = unpackedLength back := by
  have hlength := (truncateTail_back 0 hdata hruns).1.length_eq
  have hsplit := hcut.unpackedLength_eq
  have htail : (data.drop (data.length - unpackedLength back)).length = unpackedLength back := by
    rw [length_drop]
    omega
  rw [compressor_runs hruns] at hcut
  exact ⟨runsFrom_restarts data left back _ hcut (drop_suffix ..) htail, htail⟩

theorem allowUnpacked_of_runs_nil (hruns : (compressor allowLongRuns allowUnpacked data).runs = [])
    (hdata : data ≠ []) : allowUnpacked = true := by
  have hlength : unpackedLength (runsFrom allowLongRuns 0 data) = 0 + data.length := unpackedLength_runsFrom
  unfold compressor at hruns
  dsimp only at hruns
  split at hruns
  · next hraw => exact hraw.1
  · rw [scan_runsFrom] at hruns
    dsimp only at hruns
    rw [hruns, Nat.zero_add] at hlength
    exact absurd (length_eq_zero_iff.mp hlength.symm) hdata

theorem cutOff_le {run : Int} (h : CutOff runs left back) (hle : ∀ run ∈ runs, 0 < run → run ≤ maxNoncompRun)
    (hrun : run ∈ back) (hpos : 0 < run) : run ≤ maxNoncompRun := by
  cases h with
  | whole => exact hle run (mem_append_right _ hrun) hpos
  | @part front run' n back hn hlt =>
    rcases mem_cons.mp hrun with rfl | hrun
    · have hle' := hle run' (mem_append_right _ (mem_cons_self ..)) (by omega)
      omega
    · exact hle run (mem_append_right _ (mem_cons_of_mem _ hrun)) hpos

theorem restart_short (hm : 0 < m) (hshort : m < minCompressRun) (back : List Int) :
    restart (-(m : Int) :: back) = joined m back := by
  rw [restart, if_pos ⟨by omega, by rw [Int.natAbs_neg]; exact hshort⟩, Int.natAbs_neg,
    Int.natAbs_natCast]

theorem room_of_short {run : Int} {result : List Int × Nat × Nat} (h : TailCut runs space result left (run :: back))
    (hpieces : ∀ run ∈ runs, Piece allowLongRuns run) (hless : space < packedLength runs) (hneg : run < 0)
    (hshort : run.natAbs < minCompressRun) :
    runs = left ++ run :: back ∧ space ≤ (packedLength (run :: back) : Int) + 1 := by
  have hstopped := h.stopped
  cases h.cut with
  | whole =>
    refine ⟨rfl, ?_⟩
    rcases hstopped with rfl | hstopped | ⟨run', hrun', hneg', hlong⟩
    · rw [nil_append] at hless
      omega
    · omega
    · rcases hpieces run (mem_append_right _ (mem_cons_self ..)) with hpos | ⟨-, ⟨-, hmin⟩ | ⟨hallow, -⟩⟩
      · omega
      · omega
      · rcases hpieces run' (mem_append_left _ hrun') with hpos | ⟨-, ⟨hallow', -⟩ | ⟨-, hmax⟩⟩
        · omega
        · exact absurd (hallow.symm.trans hallow') Bool.false_ne_true
        · exact absurd hlong (Nat.not_lt.mpr hmax)
  | part front back hn hlt => omega

theorem tail_fits_iff (hdata : data.length ≤ maxSlong)
    (hout : outLength < (compressor allowLongRuns allowUnpacked data).getPackedLength) :
    (compressor allowLongRuns allowUnpacked (data.drop (data.length -
      ((compressor allowLongRuns allowUnpacked data).truncateTail allowUnpacked outLength).2))).getPackedLength ≤
      outLength ↔ TailFits allowUnpacked (compressor allowLongRuns allowUnpacked data) outLength := by
  have htail : ∀ n, (data.drop n).length ≤ maxSlong := fun n => by
    rw [length_drop]
    exact (Nat.sub_le ..).trans hdata
  by_cases hruns : (compressor allowLongRuns allowUnpacked data).runs = []
  · have hne : data ≠ [] := by
      rintro rfl
      have hzero : (compressor allowLongRuns allowUnpacked []).getPackedLength ≤ 0 :=
        getPackedLength_le_iff (Nat.zero_le _) |>.mpr (.inl (Nat.le_refl 0))
      omega
    refine iff_of_true ((getPackedLength_le_iff (htail _)).mpr (.inr ⟨allowUnpacked_of_runs_nil hruns hne, ?_⟩))
      fun front m back heq => absurd (hruns ▸ heq) (by simp)
    rw [truncateTail, if_pos hruns, length_drop]
    dsimp only
    omega
  · obtain ⟨hencodes, hpacked, hn⟩ := truncateTail_back outLength hdata hruns
    obtain ⟨left, back, hcut⟩ := truncateTailRuns_cut hencodes (slong outLength)
    have hslong := slong_le outLength
    obtain ⟨hback, hlength⟩ := tail_runs hdata hruns hcut.cut
    have hn' := hn
    rw [hcut.result] at hn'
    rw [hn', getPackedLength_le_iff (htail _), hback, hlength]
    constructor
    · intro hfits front m back' heq hshort hlow hhigh
      have hnonzero : ∀ run ∈ -(m : Int) :: back', 0 < run ∨ run < 0 := fun run hrun =>
        (hencodes.run_of_mem (heq ▸ mem_append_right _ hrun)).imp (·.1) (·.1)
      have hpos : 0 < m := by
        have hhead := hnonzero _ (mem_cons_self ..)
        omega
      have hcount := truncateTailRuns_append front hnonzero hlow hhigh
        (packedLength (compressor allowLongRuns allowUnpacked data).runs)
      rw [← heq, ← hn, hn'] at hcount
      obtain ⟨hback', -⟩ := tail_runs hdata hruns (heq ▸ CutOff.whole front (-(m : Int) :: back'))
      dsimp only at hcount
      rw [← hcount, hback, restart_short hpos hshort] at hback'
      rwa [hback', hcount, unpackedLength_cons, Int.natAbs_neg] at hfits
    · intro hfits
      cases back with
      | nil => exact .inl (Nat.zero_le _)
      | cons run back =>
        have hroom := hcut.room.resolve_left (cons_ne_nil _ _)
        by_cases hshort : run < 0 ∧ run.natAbs < minCompressRun
        · have hpieces : ∀ run ∈ (compressor allowLongRuns allowUnpacked data).runs, Piece allowLongRuns run := by
            rw [compressor_runs hruns]
            exact fun run => piece_of_mem_runsFrom
          obtain ⟨heq, hend⟩ := room_of_short hcut hpieces (by omega) hshort.1 hshort.2
          have hrun : -(run.natAbs : Int) = run := by omega
          have hjoined := hfits left run.natAbs back (by rw [hrun]; exact heq) hshort.2 (by rw [hrun]; exact hroom)
            (by rw [hrun]; exact hend)
          rw [restart, if_pos hshort, unpackedLength_cons]
          exact hjoined
        · have hle := packedLength_joined_le fun run' hrun' hpos =>
            cutOff_le hcut.cut (fun run hrun hpos => (hencodes.run_of_mem hrun).elim (·.2) (by omega)) hrun' hpos
          rw [restart, if_neg hshort]
          exact .inl (by omega)

theorem tailFits_of_longRuns (allowUnpacked : Bool) (data : List UInt8) (outLength : Nat) :
    TailFits allowUnpacked (compressor true allowUnpacked data) outLength := by
  intro front m back heq hshort
  have hruns : (compressor true allowUnpacked data).runs ≠ [] := by
    rw [heq]
    simp
  have hmem : -(m : Int) ∈ runsFrom true 0 data := by
    rw [← compressor_runs hruns, heq]
    exact mem_append_right _ (mem_cons_self ..)
  rcases piece_of_mem_runsFrom hmem with hpos | ⟨-, ⟨-, hmin⟩ | ⟨hallow, -⟩⟩
  · omega
  · rw [Int.natAbs_neg] at hmin
    exact absurd hshort (Nat.not_lt.mpr hmin)
  · exact absurd hallow (by decide)

structure FragmentsFit (allowLongRuns allowUnpacked : Bool) (data : List UInt8) (outLength : Nat) : Prop where
  leading : ∃ dcc n, (compressor allowLongRuns allowUnpacked data).truncate allowUnpacked outLength = .ok (dcc, n) ∧
    n ≤ data.length ∧ dcc.getPackedLength ≤ outLength ∧ Packs dcc data (data.take n)
  rest : ((compressor allowLongRuns allowUnpacked data).truncateTail allowUnpacked outLength).2 ≤ data.length ∧
    Packs ((compressor allowLongRuns allowUnpacked data).truncateTail allowUnpacked outLength).1 data
      (data.take (data.length - ((compressor allowLongRuns allowUnpacked data).truncateTail allowUnpacked outLength).2))
  tail : (compressor allowLongRuns allowUnpacked (data.drop (data.length -
    ((compressor allowLongRuns allowUnpacked data).truncateTail allowUnpacked
      outLength).2))).getPackedLength ≤ outLength

theorem fragmentsFit_iff (hdata : data.length ≤ maxSlong)
    (hout : outLength < (compressor allowLongRuns allowUnpacked data).getPackedLength) :
    FragmentsFit allowLongRuns allowUnpacked data outLength ↔
      TailFits allowUnpacked (compressor allowLongRuns allowUnpacked data) outLength :=
  ⟨fun h => (tail_fits_iff hdata hout).mp h.tail,
    fun h => ⟨truncate_packs hdata hout, truncateTail_packs hdata, (tail_fits_iff hdata hout).mpr h⟩⟩

theorem fragmentsFit_iff_testData :
    FragmentsFit false true testData 7 ↔ TailFits true (compressor false true testData) 7 :=
  fragmentsFit_iff (by decide) (by decide +kernel)

/-- With long runs the fragments of every record fit. -/
theorem fragmentsFit_longRuns (hdata : data.length ≤ maxSlong)
    (hout : outLength < (compressor true allowUnpacked data).getPackedLength) :
    FragmentsFit true allowUnpacked data outLength :=
  ⟨truncate_packs hdata hout, truncateTail_packs hdata, (tail_fits_iff hdata hout).mpr (tailFits_of_longRuns _ _ _)⟩

theorem fragmentsFit_longRuns_testData : FragmentsFit true true testData 7 :=
  fragmentsFit_longRuns (by decide) (by decide +kernel)

/-- Of 131 equal bytes the last three are cut off, which take four bytes by themselves. -/
theorem not_fragmentsFit_repeated : ¬∀ (allowLongRuns allowUnpacked : Bool) (data : List UInt8) (outLength : Nat),
    data.length ≤ maxSlong → outLength < (compressor allowLongRuns allowUnpacked data).getPackedLength →
      FragmentsFit allowLongRuns allowUnpacked data outLength := by
  intro h
  have htail := (h false false (replicate 131 97) 3 (by decide +kernel) (by decide +kernel)).tail
  exact absurd htail (by decide +kernel)

end Firebird.Sqz
