import Firebird.Sqz.PackUnpack

/-! # Truncated runs

A record that is stored in fragments is packed in part: a leading fragment as long as the output allows, or all but a
trailing one (`Compressor::truncate` and `truncateTail`, `src/jrd/sqz.cpp`). -/

namespace Firebird.Sqz

open List

def slong (n : Nat) : Int := (n : Int).bmod (2 ^ 32)

theorem slong_le (n : Nat) : slong n ≤ n := by
  unfold slong Int.bmod
  dsimp only
  split <;> omega

/-- The message of `BUGCHECK(178)`. -/
inductive TruncateError
  | recordLengthInconsistent

def unpackedLength (runs : List Int) : Nat := (runs.map Int.natAbs).sum

namespace Compressor

/-- The loop of `truncate`: the runs kept, the output length and the input length. -/
def truncateRuns : List Int → Int → List Int × Nat × Nat
  | [], _ => ([], 0, 0)
  | length :: runs, space =>
    let space := space - 1
    if space ≤ 0 then ([], 0, 0)
    else if length < 0 then
      let zipLength := length.natAbs
      let runLength := 1 + adjustRunLength zipLength
      let space := space - runLength
      if space < 0 then ([], 0, 0)
      else
        let (keepRuns, packed, inLength) := truncateRuns runs space
        (length :: keepRuns, runLength + 1 + packed, zipLength + inLength)
    else
      let rest := space - length
      if rest < 0 then
        let fit := (length + rest).toNat
        ([(fit : Int)], fit + 1, fit)
      else
        let (keepRuns, packed, inLength) := truncateRuns runs rest
        (length :: keepRuns, length.toNat + 1 + packed, length.toNat + inLength)

def truncate (allowUnpacked : Bool) (dcc : Compressor) (outLength : Nat) : Except TruncateError (Compressor × Nat) :=
  if dcc.runs = [] then .ok ({ runs := [], length := outLength }, outLength)
  else
    let (keepRuns, packed, inLength) := truncateRuns dcc.runs (slong outLength)
    if outLength < packed then .error .recordLengthInconsistent
    else if allowUnpacked ∧ inLength ≤ packed then .ok ({ runs := [], length := outLength }, outLength)
    else .ok ({ runs := keepRuns, length := packed }, inLength)

/-- The loop of `truncateTail` over the runs, the last one first: the runs left, their packed length and the number of
    input bytes cut off. -/
def truncateTailRuns : List Int → Int → Nat → List Int × Nat × Nat
  | [], _, packed => ([], packed, 0)
  | length :: runs, space, packed =>
    let space := space - 1
    if space ≤ 0 then (length :: runs, packed, 0)
    else if length < 0 then
      let zipLength := length.natAbs
      let runLength := 1 + adjustRunLength zipLength
      let space := space - runLength
      if space < 0 then (length :: runs, packed, 0)
      else
        let (left, packed, inLength) := truncateTailRuns runs space (packed - (runLength + 1))
        (left, packed, zipLength + inLength)
    else
      let rest := space - length
      if rest < 0 then
        let fit := (length + rest).toNat
        ((length - fit) :: runs, packed - fit, fit)
      else
        let (left, packed, inLength) := truncateTailRuns runs rest (packed - (length.toNat + 1))
        (left, packed, length.toNat + inLength)

def truncateTail (allowUnpacked : Bool) (dcc : Compressor) (outLength : Nat) : Compressor × Nat :=
  if dcc.runs = [] then
    let inLength := min outLength dcc.length
    ({ runs := [], length := dcc.length - inLength }, inLength)
  else
    let (left, packed, inLength) := truncateTailRuns dcc.runs.reverse (slong outLength) dcc.length
    let runs := left.reverse
    let orgLength := unpackedLength runs
    if allowUnpacked ∧ orgLength ≤ packed then ({ runs := [], length := orgLength }, inLength)
    else ({ runs, length := packed }, inLength)

def Decodes (dcc : Compressor) (packed data : List UInt8) : Prop :=
  if dcc.isPacked then getUnpackedLength packed = data.length ∧ unpack packed data.length = .ok data else packed = data

end Compressor

variable {runs front back : List Int} {data lit : List UInt8} {space run : Int} {n : Nat}

@[simp] theorem unpackedLength_nil : unpackedLength [] = 0 := rfl

@[simp] theorem unpackedLength_cons (run : Int) (runs : List Int) :
    unpackedLength (run :: runs) = run.natAbs + unpackedLength runs := rfl

theorem unpackedLength_append (front back : List Int) :
    unpackedLength (front ++ back) = unpackedLength front + unpackedLength back := by
  simp [unpackedLength]

theorem packedLength_cons (run : Int) (runs : List Int) :
    packedLength (run :: runs) = packedRunLength run + packedLength runs := rfl

namespace Encodes

theorem length_eq (h : Encodes runs data) : data.length = unpackedLength runs := by
  induction h with
  | nil => rfl
  | literal _ _ _ ih => rw [length_append, ih, unpackedLength_cons, Int.natAbs_natCast]
  | repeated c _ _ _ ih => rw [length_append, length_replicate, ih, unpackedLength_cons, Int.natAbs_neg,
      Int.natAbs_natCast]

theorem append_inv (h : Encodes (front ++ back) data) :
    Encodes front (data.take (unpackedLength front)) ∧ Encodes back (data.drop (unpackedLength front)) := by
  induction front generalizing data with
  | nil => exact ⟨.nil, h⟩
  | cons run front ih =>
    obtain ⟨first, rest, rfl, hrun, hrest⟩ := h.cons_inv
    obtain ⟨hfront, hback⟩ := ih hrest
    have hlength : first.length = run.natAbs := hrun.length_eq
    rw [unpackedLength_cons, ← hlength, take_append, drop_append, Nat.add_sub_cancel_left,
      take_of_length_le (Nat.le_add_right ..), drop_of_length_le (Nat.le_add_right ..)]
    exact ⟨hrun.append hfront, hback⟩

theorem run_of_mem (h : Encodes runs data) (hmem : run ∈ runs) :
    (0 < run ∧ run ≤ maxNoncompRun) ∨ run < 0 ∧ 3 ≤ run.natAbs := by
  induction h with
  | nil => exact nomatch hmem
  | literal hpos hmax h ih =>
    rcases mem_cons.mp hmem with rfl | hmem
    · exact .inl ⟨by omega, by omega⟩
    · exact ih hmem
  | repeated c hmin hmax h ih =>
    rcases mem_cons.mp hmem with rfl | hmem
    · exact .inr ⟨by omega, by omega⟩
    · exact ih hmem

theorem run_cases (h : Encodes [run] data) :
    (0 < run ∧ run ≤ maxNoncompRun) ∨ run < 0 ∧ 3 ≤ run.natAbs := h.run_of_mem (mem_singleton_self run)

theorem literal_take (h : Encodes [run] lit) (hpos : 0 < run) (hn : 0 < n) (hle : (n : Int) ≤ run) :
    Encodes [(n : Int)] (lit.take n) := by
  have hlength := h.length_of_literal hpos
  have hmax : run ≤ maxNoncompRun := by
    rcases h.run_cases with hlit | hneg
    · exact hlit.2
    · omega
  have htake : (lit.take n).length = n := by
    rw [length_take]
    omega
  have hcut : Encodes [((lit.take n).length : Int)] (lit.take n) := single_literal (by omega) (by omega)
  rwa [htake] at hcut

theorem head (h : Encodes (run :: runs) data) : Encodes [run] (data.take run.natAbs) := by
  have hsplit := (show Encodes ([run] ++ runs) data from h).append_inv
  exact hsplit.1

theorem tail (h : Encodes (run :: runs) data) : Encodes runs (data.drop run.natAbs) := by
  have hsplit := (show Encodes ([run] ++ runs) data from h).append_inv
  exact hsplit.2

end Encodes

theorem packedRunLength_of_neg (h : run < 0) : packedRunLength run = 2 + adjustRunLength run.natAbs := if_pos h

theorem packedRunLength_of_pos (h : 0 < run) : packedRunLength run = run.toNat + 1 := if_neg (by omega)

namespace Compressor

structure Kept (data : List UInt8) (space : Int) (result : List Int × Nat × Nat) : Prop where
  encodes : Encodes result.1 (data.take result.2.2)
  packed : result.2.1 = packedLength result.1
  room : result.2.1 = 0 ∨ (result.2.1 : Int) ≤ space
  le : result.2.2 ≤ data.length

variable {result : List Int × Nat × Nat}

theorem Kept.none (data : List UInt8) (space : Int) : Kept data space ([], 0, 0) :=
  ⟨.nil, rfl, .inl rfl, Nat.zero_le _⟩

theorem Kept.cons (hrun : Encodes (run :: runs) data) (hroom : (packedRunLength run : Int) ≤ space)
    (h : Kept (data.drop run.natAbs) (space - packedRunLength run) result) :
    Kept data space (run :: result.1, packedRunLength run + result.2.1, run.natAbs + result.2.2) where
  encodes := by
    rw [take_add]
    exact hrun.head.append h.encodes
  packed := by rw [h.packed, packedLength_cons]
  room := by
    refine .inr ?_
    show ((packedRunLength run + result.2.1 : Nat) : Int) ≤ space
    rcases h.room with hzero | hroom' <;> omega
  le := by
    have hlength := hrun.length_eq
    have hle := h.le
    rw [unpackedLength_cons] at hlength
    rw [length_drop] at hle
    show run.natAbs + result.2.2 ≤ data.length
    omega

theorem Kept.cut (hrun : Encodes (run :: runs) data) (hpos : 0 < run) (hn : 0 < n) (hle : (n : Int) ≤ run)
    (hroom : (n : Int) + 1 ≤ space) : Kept data space ([(n : Int)], n + 1, n) where
  encodes := by
    have hcut := hrun.head.literal_take hpos hn hle
    rwa [take_take, Nat.min_eq_left (by omega)] at hcut
  packed := by rw [packedLength_single, packedRunLength_literal]
  room := .inr hroom
  le := by
    have hlength := hrun.length_eq
    rw [unpackedLength_cons] at hlength
    show n ≤ data.length
    omega

theorem truncateRuns_kept (h : Encodes runs data) : Kept data space (truncateRuns runs space) := by
  induction runs generalizing data space with
  | nil => exact .none data space
  | cons run runs ih =>
    have hrest := h.tail
    unfold truncateRuns
    by_cases hstop : space - 1 ≤ 0
    · rw [if_pos hstop]
      exact .none data space
    · rw [if_neg hstop]
      rcases h.head.run_cases with ⟨hpos, -⟩ | ⟨hneg, -⟩
      · rw [if_neg (by omega)]
        by_cases hcut : space - 1 - run < 0
        · rw [if_pos hcut]
          exact .cut h hpos (by omega) (by omega) (by omega)
        · rw [if_neg hcut]
          have hlength : packedRunLength run = run.toNat + 1 := packedRunLength_of_pos hpos
          have hspace : space - packedRunLength run = space - 1 - run := by omega
          have hroom : (packedRunLength run : Int) ≤ space := by omega
          have hcons := Kept.cons h hroom (ih hrest)
          rw [hspace, hlength, show run.natAbs = run.toNat by omega] at hcons
          exact hcons
      · rw [if_pos hneg]
        by_cases hcut : space - 1 - (1 + adjustRunLength run.natAbs : Nat) < 0
        · rw [if_pos hcut]
          exact .none data space
        · rw [if_neg hcut]
          have hlength : packedRunLength run = 1 + adjustRunLength run.natAbs + 1 := by
            rw [packedRunLength_of_neg hneg]
            omega
          have hspace : space - packedRunLength run = space - 1 - (1 + adjustRunLength run.natAbs : Nat) := by omega
          have hroom : (packedRunLength run : Int) ≤ space := by omega
          have hcons := Kept.cons h hroom (ih hrest)
          rw [hspace, hlength] at hcons
          exact hcons

/-- The runs left when the runs `back`, or the end of a literal run and the runs behind it, are cut off. -/
inductive CutOff : List Int → List Int → List Int → Prop
  | whole (front back : List Int) : CutOff (front ++ back) front back
  | part (front : List Int) {run : Int} {n : Nat} (back : List Int) (hn : 0 < n) (hlt : (n : Int) < run) :
      CutOff (front ++ run :: back) (front ++ [run - n]) (n :: back)

/-- Why the loop has ended: nothing is left, or no space, or a long repetition does not fit. -/
def Stopped (left : List Int) (room : Int) : Prop := left = [] ∨ room ≤ 1 ∨ ∃ run ∈ left, run < 0 ∧ 128 < run.natAbs

variable {left : List Int}

theorem CutOff.concat (h : CutOff front left back) (run : Int) : CutOff (front ++ [run]) left (back ++ [run]) := by
  cases h with
  | whole =>
    rw [append_assoc]
    exact .whole left (back ++ [run])
  | part front back hn hlt =>
    rw [append_assoc]
    exact .part front (back ++ [run]) hn hlt

structure TailCut (runs : List Int) (space : Int) (result : List Int × Nat × Nat) (left back : List Int) : Prop where
  cut : CutOff runs left back
  result : result = (left.reverse, packedLength left, unpackedLength back)
  room : back = [] ∨ (packedLength back : Int) ≤ space
  stopped : Stopped left (space - packedLength back)

theorem TailCut.none (h : Stopped runs space) : TailCut runs space (runs.reverse, packedLength runs, 0) runs [] where
  cut := by
    have hwhole := CutOff.whole runs []
    rwa [append_nil] at hwhole
  result := rfl
  room := .inl rfl
  stopped := by
    have hzero : space - (packedLength [] : Int) = space := Int.sub_zero space
    rwa [hzero]

theorem TailCut.concat (hroom : (packedRunLength run : Int) ≤ space)
    (h : TailCut front (space - packedRunLength run) result left back) :
    TailCut (front ++ [run]) space (result.1, result.2.1, run.natAbs + result.2.2) left (back ++ [run]) where
  cut := h.cut.concat run
  result := by
    rw [h.result, unpackedLength_append, unpackedLength_cons, unpackedLength_nil]
    rw [Nat.add_zero, Nat.add_comm]
  room := by
    refine .inr ?_
    rw [packedLength_append, packedLength_single]
    rcases h.room with rfl | hrest
    · rwa [show packedLength [] = 0 from rfl, Nat.zero_add]
    · omega
  stopped := by
    have hstopped := h.stopped
    have hspace : space - ((packedLength back + packedRunLength run : Nat) : Int) =
        space - packedRunLength run - packedLength back := by omega
    rw [packedLength_append, packedLength_single, hspace]
    exact hstopped

theorem TailCut.cutLast (hn : 0 < n) (hlt : (n : Int) < run) (hroom : (n : Int) + 1 = space) :
    TailCut (front ++ [run]) space ((run - n) :: front.reverse, packedLength (front ++ [run]) - n, n)
      (front ++ [run - n]) [(n : Int)] where
  cut := .part front [] hn hlt
  result := by
    have hlength : packedRunLength run = run.toNat + 1 := packedRunLength_of_pos (by omega)
    have hlength' : packedRunLength (run - n) = (run - n).toNat + 1 := packedRunLength_of_pos (by omega)
    rw [reverse_append, packedLength_append, packedLength_append, packedLength_single, packedLength_single,
      unpackedLength_cons, unpackedLength_nil]
    refine congrArg₂ Prod.mk rfl (congrArg₂ Prod.mk ?_ ?_)
    · omega
    · omega
  room := .inr (by rw [packedLength_single, packedRunLength_literal]; omega)
  stopped := .inr (.inl (by rw [packedLength_single, packedRunLength_literal]; omega))

theorem truncateTailRuns_cut (h : Encodes runs data) (space : Int) :
    ∃ left back, TailCut runs space (truncateTailRuns runs.reverse space (packedLength runs)) left back := by
  induction runs using reverseRecOn generalizing data space with
  | nil => exact ⟨[], [], .none (.inl rfl)⟩
  | append_singleton front run ih =>
    have hfront := h.append_inv.1
    rw [reverse_append, reverse_singleton, singleton_append, truncateTailRuns]
    have hreverse : run :: front.reverse = (front ++ [run]).reverse := by rw [reverse_append]; rfl
    have hlast : run ∈ front ++ [run] := mem_append_right _ (mem_singleton_self run)
    have hpacked : packedLength (front ++ [run]) = packedLength front + packedRunLength run := by
      rw [packedLength_append, packedLength_single]
    by_cases hstop : space - 1 ≤ 0
    · rw [if_pos hstop, hreverse]
      exact ⟨_, _, .none (.inr (.inl (by omega)))⟩
    · rw [if_neg hstop]
      rcases h.run_of_mem hlast with ⟨hpos, -⟩ | ⟨hneg, -⟩
      · rw [if_neg (by omega)]
        have hlength : packedRunLength run = run.toNat + 1 := packedRunLength_of_pos hpos
        by_cases hcut : space - 1 - run < 0
        · rw [if_pos hcut]
          exact ⟨_, _, .cutLast (by omega) (by omega) (by omega)⟩
        · rw [if_neg hcut]
          obtain ⟨left, back, hrest⟩ := ih hfront (space - packedRunLength run)
          have hconcat := hrest.concat (by omega)
          have hspace : space - packedRunLength run = space - 1 - run := by omega
          have hleft : packedLength (front ++ [run]) - (run.toNat + 1) = packedLength front := by omega
          rw [hspace, show run.natAbs = run.toNat by omega] at hconcat
          rw [hleft]
          exact ⟨left, _, hconcat⟩
      · rw [if_pos hneg]
        have hlength : packedRunLength run = 2 + adjustRunLength run.natAbs := packedRunLength_of_neg hneg
        by_cases hcut : space - 1 - (1 + adjustRunLength run.natAbs : Nat) < 0
        · rw [if_pos hcut, hreverse]
          refine ⟨_, _, .none (.inr (.inr ⟨run, hlast, hneg, ?_⟩))⟩
          by_contra hshort
          have hzero : adjustRunLength run.natAbs = 0 := if_pos (Nat.not_lt.mp hshort)
          omega
        · rw [if_neg hcut]
          obtain ⟨left, back, hrest⟩ := ih hfront (space - packedRunLength run)
          have hconcat := hrest.concat (by omega)
          have hspace : space - packedRunLength run = space - 1 - (1 + adjustRunLength run.natAbs : Nat) := by omega
          have hleft : packedLength (front ++ [run]) - (1 + adjustRunLength run.natAbs + 1) =
              packedLength front := by omega
          rw [hspace] at hconcat
          rw [hleft]
          exact ⟨left, _, hconcat⟩

/-- As many bytes as counted are written, and they stand for the data. -/
structure Packs (dcc : Compressor) (input data : List UInt8) : Prop where
  length : (dcc.pack input).length = dcc.getPackedLength
  decodes : Decodes dcc (dcc.pack input) data

theorem packRuns_append (h : Encodes runs data) (rest : List UInt8) :
    packRuns runs (data ++ rest) = packRuns runs data := by
  induction h with
  | nil => rfl
  | literal hpos hmax h ih => rw [append_assoc, packRuns_literal, packRuns_literal, ih]
  | repeated c hmin hmax h ih =>
    rw [append_assoc, packRuns_repeated c (by omega), packRuns_repeated c (by omega), ih]

theorem packs_runs (h : Encodes runs (data.take n)) (hdata : data.length ≤ maxSlong) :
    Packs ⟨runs, packedLength runs⟩ data (data.take n) := by
  by_cases hruns : runs = []
  · subst hruns
    have hnil : data.take n = [] := h.nil_of_runs_nil
    rw [hnil]
    exact ⟨rfl, rfl⟩
  · have hpack : pack ⟨runs, packedLength runs⟩ data = packRuns runs (data.take n) := by
      have happend := packRuns_append h (data.drop n)
      rw [take_append_drop] at happend
      rw [pack, if_neg hruns, happend]
    have hpacked : isPacked ⟨runs, packedLength runs⟩ = true := by simp [isPacked, hruns]
    have hless : (data.take n).length < ulongSize :=
      (length_take_le' ..).trans_lt (hdata.trans_lt (by decide))
    refine ⟨by rw [hpack, length_packRuns h]; rfl, ?_⟩
    rw [Decodes, if_pos hpacked, hpack, getUnpackedLength, sumLengths_packRuns h,
      Option.getD_some, Nat.mod_eq_of_lt hless]
    exact ⟨rfl, unpack_packRuns h le_rfl⟩

theorem packs_raw (h : n ≤ data.length) : Packs ⟨[], n⟩ data (data.take n) :=
  ⟨by rw [pack, if_pos rfl, length_take, Nat.min_eq_left h]; rfl, rfl⟩

variable {allowLongRuns allowUnpacked : Bool} {outLength : Nat}

theorem truncate_packs (hdata : data.length ≤ maxSlong)
    (hout : outLength < (compressor allowLongRuns allowUnpacked data).getPackedLength) :
    ∃ dcc n, (compressor allowLongRuns allowUnpacked data).truncate allowUnpacked outLength = .ok (dcc, n) ∧
      n ≤ data.length ∧ dcc.getPackedLength ≤ outLength ∧ Packs dcc data (data.take n) := by
  unfold truncate
  unfold getPackedLength at hout
  generalize hdcc : compressor allowLongRuns allowUnpacked data = dcc at hout ⊢
  rcases compressor_cases allowLongRuns allowUnpacked hdata with ⟨hencodes, hlength, hless⟩ | ⟨hruns, hlength⟩
  · rw [hdcc] at hencodes hlength hless
    by_cases hnil : dcc.runs = []
    · rw [hnil] at hlength
      rw [hlength] at hout
      exact absurd hout (Nat.not_lt_zero _)
    · rw [if_neg hnil]
      have hkept := @truncateRuns_kept _ _ (slong outLength) hencodes
      generalize truncateRuns dcc.runs (slong outLength) = result at hkept ⊢
      obtain ⟨keepRuns, packed, inLength⟩ := result
      have hroom : packed ≤ outLength := by
        have hslong := slong_le outLength
        have hfits : packed = 0 ∨ (packed : Int) ≤ slong outLength := hkept.room
        omega
      dsimp only
      rw [if_neg (Nat.not_lt.mpr hroom)]
      by_cases hraw : allowUnpacked = true ∧ inLength ≤ packed
      · rw [if_pos hraw]
        have hle := hout.le.trans (hless hraw.1).le
        exact ⟨_, _, rfl, hle, le_rfl, packs_raw hle⟩
      · rw [if_neg hraw]
        refine ⟨_, _, rfl, hkept.le, hroom, ?_⟩
        have hpacks := packs_runs hkept.encodes hdata
        rwa [← hkept.packed] at hpacks
  · rw [hdcc] at hruns hlength
    rw [if_pos hruns]
    exact ⟨_, _, rfl, hout.le.trans hlength.le, le_rfl, packs_raw (hout.le.trans hlength.le)⟩

theorem CutOff.unpackedLength_eq (h : CutOff runs left back) :
    unpackedLength runs = unpackedLength left + unpackedLength back := by
  cases h with
  | whole => exact unpackedLength_append ..
  | @part front run n back hn hlt =>
    rw [unpackedLength_append, unpackedLength_append, unpackedLength_cons, unpackedLength_cons, unpackedLength_cons,
      unpackedLength_nil]
    omega

theorem CutOff.encodes (hcut : CutOff runs left back) (h : Encodes runs data) :
    Encodes left (data.take (data.length - unpackedLength back)) := by
  have hlength := hcut.unpackedLength_eq
  rw [h.length_eq, hlength, Nat.add_sub_cancel]
  cases hcut with
  | whole => exact h.append_inv.1
  | @part front run n back hn hlt =>
    obtain ⟨hfront, hback⟩ := h.append_inv
    have hlit := hback.head.literal_take (by omega) (n := (run - n).toNat) (by omega) (by omega)
    rw [Int.toNat_of_nonneg (by omega), take_take, Nat.min_eq_left (by omega)] at hlit
    rw [unpackedLength_append, unpackedLength_cons, unpackedLength_nil, take_add,
      show (run - n).natAbs = (run - n).toNat by omega]
    exact hfront.append hlit

theorem truncateTail_packs (hdata : data.length ≤ maxSlong) :
    ((compressor allowLongRuns allowUnpacked data).truncateTail allowUnpacked outLength).2 ≤ data.length ∧
    Packs ((compressor allowLongRuns allowUnpacked data).truncateTail allowUnpacked outLength).1 data
      (data.take (data.length - ((compressor allowLongRuns allowUnpacked data).truncateTail
        allowUnpacked outLength).2)) := by
  unfold truncateTail
  generalize hdcc : compressor allowLongRuns allowUnpacked data = dcc
  have hcases := compressor_cases allowLongRuns allowUnpacked hdata
  rw [hdcc] at hcases
  by_cases hnil : dcc.runs = []
  · rw [if_pos hnil]
    have hlength : dcc.length = data.length := by
      rcases hcases with ⟨hencodes, hlength, -⟩ | ⟨-, hlength⟩
      · rw [hnil] at hencodes hlength
        rw [hlength, hencodes.nil_of_runs_nil]
        rfl
      · exact hlength
    rw [hlength]
    exact ⟨Nat.min_le_right .., packs_raw (Nat.sub_le ..)⟩
  · rw [if_neg hnil]
    rcases hcases with ⟨hencodes, hlength, -⟩ | ⟨hruns, -⟩
    · obtain ⟨left, back, hcut⟩ := truncateTailRuns_cut hencodes (slong outLength)
      have hleft := hcut.cut.encodes hencodes
      have hcount := hcut.cut.unpackedLength_eq
      rw [← hencodes.length_eq] at hcount
      rw [hlength, hcut.result]
      dsimp only
      rw [reverse_reverse]
      by_cases hraw : allowUnpacked = true ∧ unpackedLength left ≤ packedLength left
      · have hsub : data.length - unpackedLength back = unpackedLength left := by omega
        rw [if_pos hraw]
        rw [hsub]
        exact ⟨by omega, packs_raw (by omega)⟩
      · rw [if_neg hraw]
        exact ⟨hcount ▸ Nat.le_add_left .., packs_runs hleft hdata⟩
    · exact absurd hruns hnil

end Compressor
end Firebird.Sqz
