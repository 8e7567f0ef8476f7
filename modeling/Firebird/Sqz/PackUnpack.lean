import Firebird.Sqz.Compressor

/-! # Packing and unpacking -/

namespace Firebird.Sqz
open List

theorem toNat_uchar (n : Int) : ((uchar n).toNat : Int) = n % 256 := by
  simp only [uchar, UInt8.toNat_ofNat']
  omega

theorem signedChar_uchar {n : Int} (hmin : -128 ≤ n) (hmax : n ≤ 127) : signedChar (uchar n) = n := by
  have h := toNat_uchar n
  unfold signedChar
  split <;> omega

variable {n : Nat}

theorem getShort_putShort (h : n ≤ maxMediumRun) (input : List UInt8) : getShort (putShort n ++ input) = n := by
  simp only [maxMediumRun] at h
  simp [getShort, putShort]
  omega

theorem getLong_putLong (h : n ≤ maxLongRun) (input : List UInt8) : getLong (putLong n ++ input) = n := by
  simp only [maxLongRun] at h
  have hlow : n % 65536 ≤ maxMediumRun := by
    simp only [maxMediumRun]
    omega
  have hhigh : n / 65536 % 65536 ≤ maxMediumRun := by
    simp only [maxMediumRun]
    omega
  have hdrop : (putLong n ++ input).drop 2 = putShort (n / 65536 % 65536) ++ input := rfl
  unfold getLong
  rw [hdrop, getShort_putShort hhigh, putLong, append_assoc, getShort_putShort hlow]
  omega

/-- The runs spell out the data: each positive one that many bytes, each negative one a repetition. -/
inductive Encodes : List Int → List UInt8 → Prop
  | nil : Encodes [] []
  | literal {runs : List Int} {lit data : List UInt8} (hpos : 0 < lit.length) (hmax : lit.length ≤ maxNoncompRun)
      (h : Encodes runs data) : Encodes ((lit.length : Int) :: runs) (lit ++ data)
  | repeated {runs : List Int} {data : List UInt8} {n : Nat} (c : UInt8) (hmin : 3 ≤ n) (hmax : n ≤ maxLongRun)
      (h : Encodes runs data) : Encodes (-(n : Int) :: runs) (replicate n c ++ data)

def packedRunLength (run : Int) : Nat := if run < 0 then 2 + adjustRunLength run.natAbs else run.toNat + 1

def packedLength (runs : List Int) : Nat := (runs.map packedRunLength).sum

theorem packedLength_append (runs runs' : List Int) :
    packedLength (runs ++ runs') = packedLength runs + packedLength runs' := by
  simp [packedLength]

theorem packedLength_single (run : Int) : packedLength [run] = packedRunLength run := by
  simp [packedLength]

theorem packedRunLength_literal (n : Nat) : packedRunLength (n : Int) = n + 1 := if_neg (by omega)

theorem packedRunLength_repeated (h : 0 < n) : packedRunLength (-(n : Int)) = 2 + adjustRunLength n := by
  simp [packedRunLength, h]

namespace Encodes

variable {runs runs' : List Int} {data data' lit : List UInt8}

theorem append (h : Encodes runs data) (h' : Encodes runs' data') : Encodes (runs ++ runs') (data ++ data') := by
  induction h with
  | nil => exact h'
  | literal hpos hmax _ ih =>
    rw [append_assoc]
    exact .literal hpos hmax ih
  | repeated c hmin hmax _ ih =>
    rw [append_assoc]
    exact .repeated c hmin hmax ih

theorem single_literal (hpos : 0 < lit.length) (hmax : lit.length ≤ maxNoncompRun) :
    Encodes [(lit.length : Int)] lit := by
  have h := Encodes.literal hpos hmax .nil
  rwa [append_nil] at h

theorem single_repeated (c : UInt8) (hmin : 3 ≤ n) (hmax : n ≤ maxLongRun) :
    Encodes [-(n : Int)] (replicate n c) := by
  have h := Encodes.repeated c hmin hmax .nil
  rwa [append_nil] at h

theorem nil_of_runs_nil (h : Encodes [] data) : data = [] := by
  cases h
  rfl

theorem cons_inv {run : Int} (h : Encodes (run :: runs) data) : ∃ first rest, data = first ++ rest ∧
    Encodes [run] first ∧ Encodes runs rest := by
  cases h with
  | literal hpos hmax h => exact ⟨_, _, rfl, single_literal hpos hmax, h⟩
  | repeated c hmin hmax h => exact ⟨_, _, rfl, single_repeated c hmin hmax, h⟩

theorem concat_inv {run : Int} (h : Encodes (runs ++ [run]) data) : ∃ first last, data = first ++ last ∧
    Encodes runs first ∧ Encodes [run] last := by
  induction runs generalizing data with
  | nil => exact ⟨[], data, rfl, .nil, h⟩
  | cons r runs ih =>
    obtain ⟨first, rest, rfl, hr, hrest⟩ := h.cons_inv
    obtain ⟨first', last, rfl, hruns, hlast⟩ := ih hrest
    exact ⟨first ++ first', last, (append_assoc ..).symm, hr.append hruns, hlast⟩

theorem length_of_literal {run : Int} (h : Encodes [run] data) (hpos : 0 < run) : (data.length : Int) = run := by
  cases h with
  | literal _ _ h =>
    cases h
    simp
  | repeated c hmin _ _ => omega

end Encodes

/-! ### The scanner -/

structure Scanned (s : Scan) (data : List UInt8) : Prop where
  encodes : Encodes s.runs data
  length : s.length = packedLength s.runs

namespace Scanned

variable {s : Scan} {data lit : List UInt8}

theorem start : Scanned { runs := [], length := 0 } [] := ⟨.nil, rfl⟩

section
variable (h : Scanned s data)
include h

theorem addRun {run : Int} (hrun : Encodes [run] lit) :
    Scanned { runs := s.runs ++ [run], length := s.length + packedRunLength run } (data ++ lit) where
  encodes := h.encodes.append hrun
  length := by
    rw [packedLength_append, h.length, packedLength_single]

theorem addLiteral (lit : List UInt8) (hpos : 0 < lit.length) (hmax : lit.length ≤ maxNoncompRun) :
    Scanned { runs := s.runs ++ [(lit.length : Int)], length := s.length + (lit.length + 1) } (data ++ lit) := by
  have h' := h.addRun (.single_literal hpos hmax)
  rwa [packedRunLength_literal] at h'

theorem growLast (lit : List UInt8) {runs : List Int} {back : Int} (hruns : s.runs = runs ++ [back])
    (hback : 0 < back) (hmax : back.toNat + lit.length ≤ maxNoncompRun) :
    Scanned { runs := runs ++ [back + lit.length], length := s.length + lit.length } (data ++ lit) := by
  obtain ⟨hencodes, hlength⟩ := h
  rw [hruns] at hencodes hlength
  obtain ⟨first, last, rfl, hfirst, hlast⟩ := hencodes.concat_inv
  have hlen : (last.length : Int) = back := hlast.length_of_literal hback
  have hrun : back + lit.length = ((last ++ lit).length : Int) := by
    rw [length_append]
    omega
  constructor
  · rw [append_assoc, hrun]
    refine hfirst.append (.single_literal ?_ ?_)
    · omega
    · omega
  · rw [hlength, hrun, ← hlen, packedLength_append, packedLength_append, packedLength_single, packedLength_single,
      packedRunLength_literal, packedRunLength_literal]
    dsimp only
    omega

theorem nonCompressableRun (lit : List UInt8) (hpos : 0 < lit.length) (hmax : lit.length ≤ maxNoncompRun) :
    Scanned (nonCompressableRun s lit.length) (data ++ lit) := by
  unfold Sqz.nonCompressableRun
  split
  · rename_i back hback
    split
    · rename_i hroom
      have hruns : s.runs = s.runs.dropLast ++ [back] := (dropLast_append_getLast? back hback).symm
      -- the bytes that still fit, and the others
      set fit := min (maxNoncompRun - back.toNat) lit.length with hfit
      have hlen : (lit.take fit).length = fit := by
        rw [length_take]
        omega
      have hgrow := h.growLast (lit.take fit) hruns hroom.1 (by omega)
      rw [hlen] at hgrow
      dsimp only
      split
      · have hall : fit = lit.length := by omega
        rw [hall, take_length] at hgrow
        rwa [hall]
      · have hrest : (lit.drop fit).length = lit.length - fit := length_drop ..
        have hadd := hgrow.addLiteral (lit.drop fit) (by omega) (by omega)
        have hcount : s.length + fit + (lit.length - fit + 1) = s.length + (lit.length + 1) := by omega
        have hlit : data ++ lit.take fit ++ lit.drop fit = data ++ lit := by
          rw [append_assoc, take_append_drop]
        rwa [hrest, hcount, hlit] at hadd
    · exact h.addLiteral lit hpos hmax
  · exact h.addLiteral lit hpos hmax

theorem storeNonCompressable (count : Nat) (hlit : lit.length = count) :
    Scanned (storeNonCompressable s count) (data ++ lit) := by
  fun_induction Sqz.storeNonCompressable s count generalizing data lit with
  | case1 s =>
    obtain rfl := length_eq_zero_iff.mp hlit
    rwa [append_nil]
  | case2 s count hne ih =>
    have hmax : (lit.take (min count maxNoncompRun)).length = min count maxNoncompRun := by
      rw [length_take]
      omega
    have hpos : 0 < min count maxNoncompRun := by
      simp only [maxNoncompRun]
      omega
    have hrun := h.nonCompressableRun (lit.take (min count maxNoncompRun)) (by omega) (by omega)
    rw [hmax] at hrun
    have hdrop : (lit.drop (min count maxNoncompRun)).length = count - min count maxNoncompRun := by
      rw [length_drop, hlit]
    have h' := ih hrun hdrop
    rwa [append_assoc, take_append_drop] at h'

theorem addRepeated (c : UInt8) (hmin : 3 ≤ n) (hmax : n ≤ maxLongRun) :
    Scanned { runs := s.runs ++ [-(n : Int)], length := s.length + (2 + adjustRunLength n) }
      (data ++ replicate n c) := by
  have h' := h.addRun (.single_repeated c hmin hmax)
  rwa [packedRunLength_repeated (by omega)] at h'

theorem storeShortRuns (c : UInt8) (count : Nat) :
    Scanned (storeShortRuns s count).1 (data ++ replicate (count - (storeShortRuns s count).2) c) := by
  fun_induction Sqz.storeShortRuns s count generalizing data with
  | case1 s => simpa using h
  | case2 s count hne hshort =>
    have hrest : count - min count maxShortRun = 0 := by
      simp only [maxShortRun] at hshort ⊢
      omega
    rw [hrest]
    simpa using h
  | case3 s count hne hshort ih =>
    have hle : min count maxShortRun ≤ maxShortRun := Nat.min_le_right ..
    have hadd := h.addRepeated c (Nat.not_lt.mp hshort) (Nat.le_trans hle (by decide))
    rw [adjustRunLength, if_pos hle] at hadd
    have h' := ih hadd
    rw [append_assoc, replicate_append_replicate] at h'
    have hrest := (storeShortRuns_rest
      { runs := s.runs ++ [-((min count maxShortRun : Nat) : Int)], length := s.length + 2 }
      (count - min count maxShortRun)).2
    convert h' using 3
    omega

end

end Scanned

section
variable (data : List UInt8)

theorem firstTriple_le : firstTriple data ≤ data.length := by
  fun_induction firstTriple data with
  | case1 => exact Nat.zero_le _
  | case2 a b c data hne ih => simpa using ih
  | case3 => exact le_rfl

theorem nonCompressableLength_le : nonCompressableLength data ≤ data.length := by
  unfold nonCompressableLength
  split
  · exact firstTriple_le data
  · exact le_rfl

theorem repeatLength_le : repeatLength data ≤ data.length := by
  cases data with
  | nil => exact le_rfl
  | cons c data => exact Nat.succ_le_succ (( takeWhile_prefix _).length_le)

theorem take_repeatLength (n : Nat) (h : n ≤ repeatLength data) : ∃ c, data.take n = replicate n c := by
  cases data with
  | nil =>
    obtain rfl : n = 0 := Nat.le_zero.mp h
    exact ⟨0, rfl⟩
  | cons c data =>
    refine ⟨c, ?_⟩
    rw [eq_replicate_iff]
    refine ⟨by
      rw [length_take]
      exact Nat.min_eq_left (h.trans (repeatLength_le _)), fun b hb => ?_⟩
    cases n with
    | zero => simp at hb
    | succ n =>
      rw [take_succ_cons, mem_cons] at hb
      rcases hb with rfl | hb
      · rfl
      · have htake : data.take n = (data.takeWhile (· = c)).take n := by
          have hpre : data.takeWhile (· = c) <+: data := takeWhile_prefix _
          rw [prefix_iff_eq_take.mp hpre, take_take,
            Nat.min_eq_left (by simpa [repeatLength] using h)]
        rw [htake] at hb
        have := mem_takeWhile_imp (mem_of_mem_take hb)
        simpa using this

end

theorem Scanned.scanStep (allowLongRuns : Bool) {s : Scan} {done data : List UInt8} (h : Scanned s done)
    (hlen : data.length ≤ maxSlong) :
    ∃ taken, data = taken ++ (scanStep allowLongRuns s data).2 ∧
      Scanned (scanStep allowLongRuns s data).1 (done ++ taken) := by
  have hcount : nonCompressableLength data ≤ data.length := nonCompressableLength_le data
  -- the literal run, then the rest
  set lit := data.take (nonCompressableLength data) with hlit
  have hlitlen : lit.length = nonCompressableLength data := by
    rw [length_take]
    exact Nat.min_eq_left hcount
  have hdata : data = lit ++ data.drop (nonCompressableLength data) := (take_append_drop ..).symm
  have hstore := h.storeNonCompressable (nonCompressableLength data) hlitlen
  unfold Sqz.scanStep
  dsimp only
  split
  · exact ⟨lit, hdata, hstore⟩
  · rename_i hlong
    set rest := data.drop (nonCompressableLength data) with hrest
    have hle : repeatLength rest ≤ rest.length := repeatLength_le rest
    have hrestlen : rest.length ≤ data.length := by
      rw [length_drop]
      exact Nat.sub_le _ _
    have htake : (rest.take (repeatLength rest)).length = repeatLength rest := by
      rw [length_take]
      exact Nat.min_eq_left hle
    have hsplit : ∀ n, data = lit ++ rest.take n ++ rest.drop n := fun n => by
      rw [append_assoc, take_append_drop]
      exact hdata
    split
    · rename_i hmin
      refine ⟨lit ++ rest.take (repeatLength rest), hsplit _, ?_⟩
      have hpos : 0 < repeatLength rest := by
        cases hr : rest with
        | nil => simp [hr, minCompressRun] at hlong
        | cons c rest => exact Nat.succ_pos _
      have hmax : repeatLength rest ≤ maxNoncompRun := by
        simp only [minCompressRun, maxNoncompRun] at hmin ⊢
        omega
      have h' := hstore.nonCompressableRun (rest.take (repeatLength rest)) (by rwa [htake]) (by rwa [htake])
      rwa [htake, append_assoc] at h'
    · rename_i hmin
      split
      · obtain ⟨c, hc⟩ := take_repeatLength rest (repeatLength rest) le_rfl
        refine ⟨lit ++ rest.take (repeatLength rest), hsplit _, ?_⟩
        have h3 : 3 ≤ repeatLength rest := by
          simp only [minCompressRun] at hmin
          omega
        have hmax : repeatLength rest ≤ maxLongRun := hle.trans (hrestlen.trans hlen)
        have h' := hstore.addRepeated c h3 hmax
        rwa [← hc, append_assoc] at h'
      · set short := Sqz.storeShortRuns (Sqz.storeNonCompressable s (nonCompressableLength data)) (repeatLength rest)
          with hshort
        obtain ⟨c, hc⟩ := take_repeatLength rest (repeatLength rest - short.2) (Nat.sub_le _ _)
        refine ⟨lit ++ rest.take (repeatLength rest - short.2), hsplit _, ?_⟩
        have h' := hstore.storeShortRuns c (repeatLength rest)
        rwa [← hc, append_assoc] at h'

theorem Scanned.scan {allowLongRuns : Bool} {s : Scan} {done data : List UInt8} (h : Scanned s done)
    (hlen : data.length ≤ maxSlong) : Scanned (scan allowLongRuns s data) (done ++ data) := by
  fun_induction Sqz.scan allowLongRuns s data generalizing done with
  | case1 s => rwa [append_nil]
  | case2 s data hne hlt ih =>
    obtain ⟨taken, hdata, hstep⟩ := h.scanStep allowLongRuns hlen
    have h' := ih hstep (hlt.le.trans hlen)
    rwa [append_assoc, ← hdata] at h'

namespace Compressor

variable {runs : List Int} {data input : List UInt8} {room : Nat}

theorem length_runHeader (h : n ≤ maxLongRun) : (runHeader n).length = 1 + adjustRunLength n := by
  unfold runHeader adjustRunLength
  split
  · rfl
  · split
    · rfl
    · rfl

theorem zipLength_runHeader (hmin : 3 ≤ n) (hmax : n ≤ maxLongRun) (input : List UInt8) :
    ∃ head header, runHeader n = head :: header ∧ signedChar head < 0 ∧
      zipLength (signedChar head) (header ++ input) = (n, input) := by
  unfold runHeader
  split
  · rename_i hshort
    simp only [maxShortRun] at hshort
    have hchar : signedChar (uchar (-(n : Int))) = -(n : Int) := signedChar_uchar (by omega) (by omega)
    refine ⟨_, _, rfl, by omega, ?_⟩
    rw [hchar, zipLength, if_neg (by omega), if_neg (by omega)]
    simp
  · split
    · rename_i hmedium
      have hchar : signedChar (uchar (-1)) = -1 := signedChar_uchar (by decide) (by decide)
      refine ⟨_, _, rfl, by decide, ?_⟩
      rw [hchar, zipLength, getShort_putShort hmedium]
      rfl
    · have hchar : signedChar (uchar (-2)) = -2 := signedChar_uchar (by decide) (by decide)
      refine ⟨_, _, rfl, by decide, ?_⟩
      rw [hchar, zipLength, getLong_putLong hmax]
      rfl

theorem packRuns_literal (lit : List UInt8) :
    packRuns ((lit.length : Int) :: runs) (lit ++ data) = uchar lit.length :: lit ++ packRuns runs data := by
  rw [packRuns, if_neg (by omega)]
  simp

theorem packRuns_repeated (c : UInt8) (hn : 0 < n) :
    packRuns (-(n : Int) :: runs) (replicate n c ++ data) = runHeader n ++ [c] ++ packRuns runs data := by
  obtain ⟨n, rfl⟩ := Nat.exists_eq_succ_of_ne_zero hn.ne'
  rw [packRuns, if_pos (by omega), Int.natAbs_neg, Int.natAbs_natCast]
  simp [replicate_succ]

theorem length_packRuns (h : Encodes runs data) : (packRuns runs data).length = packedLength runs := by
  induction h with
  | nil => rfl
  | literal hpos hmax _ ih =>
    rw [packRuns_literal]
    simp only [packedLength, map_cons, sum_cons, packedRunLength_literal] at ih ⊢
    simp only [cons_append, length_cons, length_append, ih]
    omega
  | repeated c hmin hmax _ ih =>
    rw [packRuns_repeated c (by omega)]
    simp only [packedLength, map_cons, sum_cons, packedRunLength_repeated (Nat.lt_of_lt_of_le (by decide) hmin)]
      at ih ⊢
    simp only [length_append, length_runHeader hmax, ih, length_singleton]
    omega

theorem sumLengths_packRuns (h : Encodes runs data) : sumLengths (packRuns runs data) = some data.length := by
  induction h with
  | nil => rw [packRuns, sumLengths]; rfl
  | @literal runs lit data hpos hmax _ ih =>
    have hchar : signedChar (uchar lit.length) = lit.length := by
      simp only [maxNoncompRun] at hmax
      exact signedChar_uchar (by omega) (by omega)
    rw [packRuns_literal, cons_append, sumLengths, hchar, if_neg (by omega), Int.toNat_natCast, drop_left, ih]
    simp
  | @repeated runs data n c hmin hmax _ ih =>
    rw [packRuns_repeated c (by omega)]
    obtain ⟨head, header, hhead, hneg, hzip⟩ := zipLength_runHeader hmin hmax (c :: packRuns runs data)
    rw [hhead]
    simp only [cons_append, append_assoc, nil_append]
    rw [sumLengths, if_pos hneg]
    split
    · rename_i heq
      rw [hzip] at heq
      cases heq
    · rename_i heq
      rw [hzip] at heq
      cases heq
      rw [ih]
      simp

theorem unpack_packRuns (h : Encodes runs data) (hroom : data.length ≤ room) :
    unpack (packRuns runs data) room = .ok data := by
  induction h generalizing room with
  | nil => rw [packRuns, unpack]
  | @literal runs lit data hpos hmax _ ih =>
    have hchar : signedChar (uchar lit.length) = lit.length := by
      simp only [maxNoncompRun] at hmax
      exact signedChar_uchar (by omega) (by omega)
    rw [length_append] at hroom
    rw [packRuns_literal, cons_append, unpack, hchar, if_neg (by omega)]
    simp only [Int.toNat_natCast, length_append]
    rw [if_neg (by omega), drop_left, take_left, ih (by omega)]
    rfl
  | @repeated runs data n c hmin hmax _ ih =>
    rw [length_append, length_replicate] at hroom
    rw [packRuns_repeated c (by omega)]
    obtain ⟨head, header, hhead, hneg, hzip⟩ := zipLength_runHeader hmin hmax (c :: packRuns runs data)
    rw [hhead]
    simp only [cons_append, append_assoc, nil_append]
    rw [unpack, if_pos hneg]
    split
    · rename_i heq
      rw [hzip] at heq
      cases heq
    · rename_i heq
      rw [hzip] at heq
      cases heq
      rw [if_neg (by omega), ih (by omega)]
      rfl

end Compressor

variable {runs : List Int} {data : List UInt8}

theorem scanned_scan (allowLongRuns : Bool) (h : data.length ≤ maxSlong) :
    Scanned (scan allowLongRuns { runs := [], length := 0 } data) data := Scanned.start.scan h

variable (allowLongRuns allowUnpacked : Bool)

theorem compressor_cases (h : data.length ≤ maxSlong) :
    (Encodes (compressor allowLongRuns allowUnpacked data).runs data ∧
      (compressor allowLongRuns allowUnpacked data).length =
        packedLength (compressor allowLongRuns allowUnpacked data).runs ∧
      (allowUnpacked = true → (compressor allowLongRuns allowUnpacked data).length < data.length)) ∨
    ((compressor allowLongRuns allowUnpacked data).runs = [] ∧
      (compressor allowLongRuns allowUnpacked data).length = data.length) := by
  have hs := scanned_scan allowLongRuns h
  unfold compressor
  dsimp only
  split
  · exact .inr ⟨rfl, rfl⟩
  · rename_i hcond
    refine .inl ⟨hs.encodes, hs.length, fun hallow => ?_⟩
    rw [hallow] at hcond
    simpa using hcond

/-- Packed data unpacks to itself, in the number of bytes counted. -/
theorem pack_unpack (h : data.length ≤ maxSlong) :
    let dcc := compressor allowLongRuns allowUnpacked data
    (dcc.pack data).length = dcc.getPackedLength ∧
    (dcc.isPacked = true →
      Compressor.getUnpackedLength (dcc.pack data) = data.length ∧
      Compressor.unpack (dcc.pack data) data.length = .ok data) ∧
    (dcc.isPacked = false → dcc.pack data = data) ∧
    (allowUnpacked = true → dcc.getPackedLength ≤ data.length) := by
  intro dcc
  rcases compressor_cases allowLongRuns allowUnpacked h with ⟨hencodes, hlength, hless⟩ | ⟨hruns, hlength⟩
  · by_cases hruns : dcc.runs = []
    · have hnil : data = [] := Encodes.nil_of_runs_nil (hruns ▸ hencodes)
      have hzero : dcc.length = 0 := by
        rw [hlength, show (compressor allowLongRuns allowUnpacked data).runs = [] from hruns]
        rfl
      simp [Compressor.pack, Compressor.isPacked, Compressor.getPackedLength, hruns, hnil, hzero]
    · have hpack : dcc.pack data = Compressor.packRuns dcc.runs data := if_neg hruns
      refine ⟨?_, fun _ => ⟨?_, ?_⟩, fun hnot => ?_, fun hallow => (hless hallow).le⟩
      · rw [hpack, Compressor.length_packRuns hencodes]
        exact hlength.symm
      · rw [hpack, Compressor.getUnpackedLength, Compressor.sumLengths_packRuns hencodes]
        have hfit : maxSlong < ulongSize := by decide
        exact Nat.mod_eq_of_lt (h.trans_lt hfit)
      · rw [hpack]
        exact Compressor.unpack_packRuns hencodes le_rfl
      · simp [Compressor.isPacked, hruns] at hnot
  · have hpack : dcc.pack data = data := by
      rw [Compressor.pack, if_pos hruns, show dcc.length = data.length from hlength, take_length]
    refine ⟨?_, fun hpacked => ?_, fun _ => hpack, fun _ => hlength.le⟩
    · rw [hpack]
      exact hlength.symm
    · simp [dcc, Compressor.isPacked, hruns] at hpacked

def testData : List UInt8 :=
  replicate 10 49 ++ [50, 51, 52, 53, 54] ++ replicate 6 55

example : (compressor false false testData).pack testData =
    [246, 49, 11, 50, 51, 52, 53, 54, 55, 55, 55, 55, 55, 55] := by decide +kernel

theorem pack_unpack_testData :
    let dcc := compressor false false testData
    (dcc.pack testData).length = dcc.getPackedLength ∧
    (dcc.isPacked = true →
      Compressor.getUnpackedLength (dcc.pack testData) = testData.length ∧
      Compressor.unpack (dcc.pack testData) testData.length = .ok testData) ∧
    (dcc.isPacked = false → dcc.pack testData = testData) ∧
    (false = true → dcc.getPackedLength ≤ testData.length) :=
  pack_unpack false false (by decide)

end Firebird.Sqz
