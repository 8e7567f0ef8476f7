import Firebird.Sqz.Difference
import Firebird.Sqz.PackUnpack

/-! # A difference gives the second record back -/

namespace Firebird.Sqz.Difference
open List

variable {differences rec1 rec2 base data output bytes : List UInt8} {changes changes' : List (Option UInt8)}
  {n p outLength : Nat}

def decode : List UInt8 → Option (List (Option UInt8))
  | [] => some []
  | c :: differences =>
    if 0 < signedChar c then
      if differences.length < (signedChar c).toNat then none
      else (decode (differences.drop (signedChar c).toNat)).map
        ((differences.take (signedChar c).toNat).map some ++ ·)
    else (decode differences).map (replicate (-signedChar c).toNat none ++ ·)
termination_by differences => differences.length
decreasing_by
  · simp only [length_drop, length_cons]
    omega
  · simp

def overlay : List (Option UInt8) → List UInt8 → List UInt8
  | change :: changes, b :: output => change.getD b :: overlay changes output
  | _, output => output

/-- Every byte of `data` is written, or stays as it is in `base`. -/
def Describes : List (Option UInt8) → List UInt8 → List UInt8 → Prop
  | [], _, [] => True
  | some b :: changes, base, x :: data => b = x ∧ Describes changes base.tail data
  | none :: changes, y :: base, x :: data => y = x ∧ Describes changes base data
  | _, _, _ => False

def IsDifference (differences base data : List UInt8) : Prop :=
  differences.length ≤ maxDifferences ∧ ∃ changes, decode differences = some changes ∧ Describes changes base data

/-! ### Overlays -/

theorem length_overlay (changes : List (Option UInt8)) (output : List UInt8) :
    (overlay changes output).length = output.length := by
  induction changes generalizing output with
  | nil => rfl
  | cons change changes ih =>
    cases output with
    | nil => rfl
    | cons b output => simp [overlay, ih]

theorem overlay_append (h : changes.length ≤ output.length) :
    overlay (changes ++ changes') output =
      overlay changes (output.take changes.length) ++ overlay changes' (output.drop changes.length) := by
  induction changes generalizing output with
  | nil => simp [overlay]
  | cons change changes ih =>
    cases output with
    | nil => simp at h
    | cons b output =>
      simp only [length_cons, Nat.add_le_add_iff_right] at h
      simp [overlay, ih h]

theorem overlay_map_some (h : bytes.length = output.length) : overlay (bytes.map some) output = bytes := by
  induction bytes generalizing output with
  | nil => exact eq_nil_of_length_eq_zero h.symm
  | cons b bytes ih =>
    cases output with
    | nil => cases h
    | cons x output => simp [overlay, ih (by simpa using h)]

theorem overlay_replicate (n : Nat) (output : List UInt8) : overlay (replicate n none) output = output := by
  induction n generalizing output with
  | zero => rfl
  | succ n ih =>
    cases output with
    | nil => rfl
    | cons b output => simp [replicate_succ, overlay, ih]

theorem getElem?_overlay (changes : List (Option UInt8)) (output : List UInt8) (i : Nat) :
    (overlay changes output)[i]? = output[i]?.map fun b => (changes[i]?.join).getD b := by
  induction changes generalizing output i with
  | nil => simp [overlay]
  | cons change changes ih =>
    cases output with
    | nil => simp [overlay]
    | cons b output =>
      cases i with
      | zero => cases change <;> simp [overlay]
      | succ i => simpa [overlay] using ih output i

section
variable (h : Describes changes base data)
include h

theorem Describes.length : changes.length = data.length := by
  induction changes generalizing base data with
  | nil =>
    cases data with
    | nil => rfl
    | cons x data => cases h
  | cons change changes ih =>
    cases data with
    | nil => cases change <;> cases base <;> cases h
    | cons x data =>
      cases change with
      | some b => simpa using ih h.2
      | none =>
        cases base with
        | nil => cases h
        | cons y base => simpa using ih h.2

theorem Describes.getElem? (i : Nat) (hi : i < data.length) :
    changes[i]? = some data[i]? ∨ (changes[i]? = some none ∧ base[i]? = data[i]?) := by
  induction changes generalizing base data i with
  | nil =>
    have := h.length
    simp only [length_nil] at this
    omega
  | cons change changes ih =>
    cases data with
    | nil => cases change <;> cases base <;> cases h
    | cons x data =>
      cases change with
      | some b =>
        obtain ⟨rfl, h⟩ := h
        cases i with
        | zero => exact .inl rfl
        | succ i => simpa using ih h i (by simpa using hi)
      | none =>
        cases base with
        | nil => cases h
        | cons y base =>
          obtain ⟨rfl, h⟩ := h
          cases i with
          | zero => exact .inr ⟨rfl, rfl⟩
          | succ i => simpa using ih h i (by simpa using hi)

theorem Describes.stays {i : Nat} (hi : i < data.length) (hstay : changes[i]? = some none) :
    i < base.length ∧ base[i]? = data[i]? := by
  rcases h.getElem? i hi with hwrite | ⟨-, hbase⟩
  · rw [hstay, getElem?_eq_getElem hi] at hwrite
    cases hwrite
  · refine ⟨?_, hbase⟩
    rw [getElem?_eq_getElem hi] at hbase
    exact (List.getElem?_eq_some_iff.mp hbase).1

theorem Describes.take_overlay_iff (hlen : data.length ≤ output.length) :
    (overlay changes output).take data.length = data ↔
      ∀ i < data.length, changes[i]? = some none → output[i]? = data[i]? := by
  constructor
  · intro heq i hi hstay
    have hget : (overlay changes output)[i]? = data[i]? := by
      rw [← getElem?_take_of_lt hi, heq]
    rw [getElem?_overlay, hstay] at hget
    simpa using hget
  · intro hstay
    refine ext_getElem? fun i => ?_
    by_cases hi : i < data.length
    · have ho : i < output.length := Nat.lt_of_lt_of_le hi hlen
      rw [getElem?_take_of_lt hi, getElem?_overlay]
      rcases h.getElem? i hi with hwrite | ⟨hnone, -⟩
      · rw [hwrite, getElem?_eq_getElem hi, getElem?_eq_getElem ho]
        rfl
      · rw [hnone, ← hstay i hi hnone]
        simp
    · rw [getElem?_eq_none (by simp; omega), getElem?_eq_none (by omega)]

end

theorem all_zero_of_decode_nil (h : decode differences = some []) : differences.all (· = 0) = true := by
  induction differences with
  | nil => rfl
  | cons c differences ih =>
    rw [decode] at h
    split at h
    · split at h
      · cases h
      · obtain ⟨changes, -, hnil⟩ := Option.map_eq_some_iff.mp h
        have hlength := congrArg length hnil
        simp only [length_append, length_map, length_take, length_nil] at hlength
        omega
    · obtain ⟨changes, hrest, hnil⟩ := Option.map_eq_some_iff.mp h
      obtain ⟨hskip, rfl⟩ := append_eq_nil_iff.mp hnil
      have hzero : signedChar c = 0 := by
        have := (replicate_eq_nil_iff _).mp hskip
        omega
      have hc : c = 0 := by
        unfold signedChar at hzero
        have := c.toNat_lt
        have hnat : c.toNat = 0 := by
          split at hzero <;> omega
        exact UInt8.toNat_inj.mp hnat
      simpa [hc] using ih hrest

theorem applyFrom_decode (h : decode differences = some changes) (hp : p + changes.length ≤ outLength)
    (hout : outLength ≤ output.length) :
    applyFrom outLength differences p output =
      .ok (p + changes.length, output.take p ++ overlay changes (output.drop p)) := by
  induction differences using decode.induct generalizing p output changes with
  | case1 =>
    rw [decode] at h
    cases h
    simp [applyFrom, overlay]
  | case2 c differences hpos hlen =>
    rw [decode, if_pos hpos, if_pos hlen] at h
    cases h
  | case3 c differences hpos hlen ih =>
    rw [decode, if_pos hpos, if_neg hlen] at h
    obtain ⟨changes', hrest, rfl⟩ := Option.map_eq_some_iff.mp h
    rw [applyFrom, if_pos (by simp only [length_append, length_map, length_take] at hp; omega), if_pos hpos]
    generalize (signedChar c).toNat = l at *
    have htake : (differences.take l).length = l := by
      rw [length_take]
      omega
    simp only [length_append, length_map, htake] at hp ⊢
    have hfit : ¬outLength < p + l := by omega
    rw [if_neg hfit, if_neg hlen]
    -- the literal bytes are in place, and the rest goes on behind them
    have hlength : (output.take p ++ differences.take l ++ output.drop (p + l)).length = output.length := by
      simp only [length_append, length_take, length_drop]
      omega
    have hprefix : (output.take p ++ differences.take l).length = p + l := by
      simp only [length_append, length_take]
      omega
    rw [ih hrest (by omega) (by omega), take_left' hprefix, drop_left' hprefix]
    congr 2
    · omega
    · rw [overlay_append (by simp only [length_map, htake, length_drop]; omega), length_map, htake,
        overlay_map_some (by simp only [htake, length_take, length_drop]; omega), drop_drop]
      simp only [append_assoc]
  | case4 c differences hpos ih =>
    rw [decode, if_neg hpos] at h
    obtain ⟨changes', hrest, rfl⟩ := Option.map_eq_some_iff.mp h
    rw [applyFrom]
    by_cases hlt : p < outLength
    · rw [if_pos hlt, if_neg hpos]
      simp only [length_append, length_replicate] at hp ⊢
      rw [ih hrest (by omega) hout]
      congr 2
      · omega
      · rw [overlay_append (by simp only [length_replicate, length_drop]; omega), overlay_replicate,
          length_replicate, drop_drop, ← append_assoc, ← take_add]
    · have hnil : replicate (-signedChar c).toNat none ++ changes' = [] :=
        eq_nil_of_length_eq_zero (by omega)
      have hdecode : decode (c :: differences) = some [] := by
        rw [decode, if_neg hpos, hrest, Option.map_some, hnil]
      rw [if_neg hlt, if_pos (all_zero_of_decode_nil hdecode), hnil]
      simp [overlay]

theorem apply_decode (h : decode differences = some changes) (hmax : differences.length ≤ maxDifferences)
    (hlen : changes.length ≤ outLength) (hout : outLength ≤ output.length) :
    apply differences outLength output = .ok (changes.length, overlay changes output) := by
  have happly := applyFrom_decode (p := 0) h (by omega) hout
  rw [apply, if_neg (by omega), happly]
  simp only [Nat.zero_add, take_zero, nil_append, drop_zero]
  rw [if_neg (by omega)]

/-! ### Making -/

theorem decode_append (h : decode differences = some changes) (differences' : List UInt8) :
    decode (differences ++ differences') = (decode differences').map (changes ++ ·) := by
  induction differences using decode.induct generalizing changes with
  | case1 =>
    rw [decode] at h
    cases h
    simp
  | case2 c differences hpos hlen =>
    rw [decode, if_pos hpos, if_pos hlen] at h
    cases h
  | case3 c differences hpos hlen ih =>
    rw [decode, if_pos hpos, if_neg hlen] at h
    obtain ⟨changes', hrest, rfl⟩ := Option.map_eq_some_iff.mp h
    have hle : (signedChar c).toNat ≤ differences.length := by omega
    rw [cons_append, decode, if_pos hpos, if_neg (by rw [length_append]; omega),
      drop_append_of_le_length hle, take_append_of_le_length hle, ih hrest]
    cases decode differences' <;> simp
  | case4 c differences hpos ih =>
    rw [decode, if_neg hpos] at h
    obtain ⟨changes', hrest, rfl⟩ := Option.map_eq_some_iff.mp h
    rw [cons_append, decode, if_neg hpos, ih hrest]
    cases decode differences' <;> simp

structure Written (output : List UInt8) (changes : List (Option UInt8)) : Prop where
  fits : output.length ≤ maxDifferences
  decodes : decode output = some changes

variable {output' : List UInt8}

theorem written_skips {length : Nat} (h : Written output changes)
    (hs : skips length output = some output') : Written output' (changes ++ replicate length none) := by
  induction length, output using skips.induct generalizing changes with
  | case1 output =>
    rw [skips] at hs
    cases hs
    simpa using h
  | case2 length output hlength hfull =>
    rw [skips, if_neg hlength, if_pos hfull] at hs
    cases hs
  | case3 length output hlength hfull ih =>
    rw [skips, if_neg hlength, if_neg hfull] at hs
    have hchar : signedChar (uchar (-(min length 127 : Nat))) = -(min length 127 : Nat) :=
      signedChar_uchar (by omega) (by omega)
    have hstep : Written (output ++ [uchar (-(min length 127 : Nat))])
        (changes ++ replicate (min length 127) none) := by
      constructor
      · simp only [length_append, length_singleton]
        omega
      · have hnat : (- -((min length 127 : Nat) : Int)).toNat = min length 127 := by omega
        rw [decode_append h.decodes, decode, hchar, if_neg (by omega), decode, hnat]
        simp only [Option.map_some, append_nil]
    have hrest := ih hstep hs
    rwa [append_assoc, ← replicate_add, Nat.add_sub_cancel' (Nat.min_le_left _ _)] at hrest

theorem written_literal (h : Written output changes) (hpos : 0 < bytes.length) (hmax : bytes.length ≤ 127)
    (hs : literal bytes output = some output') : Written output' (changes ++ bytes.map some) := by
  unfold literal at hs
  split at hs
  · cases hs
  · cases hs
    have hchar : signedChar (uchar bytes.length) = bytes.length := signedChar_uchar (by omega) (by omega)
    constructor
    · simp only [length_append, length_cons]
      omega
    · rw [decode_append h.decodes, decode, hchar, if_pos (by omega)]
      simp [decode]

theorem literalLength_le (n : Nat) (xs ys : List UInt8) :
    literalLength n xs ys ≤ n ∧ literalLength n xs ys ≤ ys.length := by
  induction n generalizing xs ys with
  | zero => cases xs <;> cases ys <;> simp [literalLength]
  | succ n ih =>
    cases xs with
    | nil => simp [literalLength]
    | cons x xs =>
      cases ys with
      | nil => simp [literalLength]
      | cons y ys =>
        rw [literalLength]
        split
        · exact ⟨Nat.succ_le_succ (ih xs ys).1, Nat.succ_le_succ (ih xs ys).2⟩
        · exact ⟨Nat.zero_le _, Nat.zero_le _⟩

theorem take_equalLength (xs ys : List UInt8) :
    xs.take (equalLength xs ys) = ys.take (equalLength xs ys) ∧ equalLength xs ys ≤ xs.length ∧
      equalLength xs ys ≤ ys.length := by
  induction xs generalizing ys with
  | nil => cases ys <;> simp [equalLength]
  | cons x xs ih =>
    cases ys with
    | nil => simp [equalLength]
    | cons y ys =>
      rw [equalLength]
      split
      · rename_i heq
        obtain ⟨htake, hxs, hys⟩ := ih ys
        refine ⟨by simp [heq, htake], ?_, ?_⟩ <;> simpa
      · simp

theorem describes_map_some (base data : List UInt8) : Describes (data.map some) base data := by
  induction data generalizing base with
  | nil => trivial
  | cons x data ih => exact ⟨rfl, ih base.tail⟩

theorem describes_append {data' : List UInt8} (bytes : List UInt8)
    (h : Describes changes' (base.drop bytes.length) data') :
    Describes (bytes.map some ++ changes') base (bytes ++ data') := by
  induction bytes generalizing base with
  | nil => simpa using h
  | cons x bytes ih =>
    refine ⟨rfl, ih ?_⟩
    rwa [drop_tail]

theorem describes_replicate {data' : List UInt8} (bytes : List UInt8) (h : Describes changes' base data') :
    Describes (replicate bytes.length none ++ changes') (bytes ++ base) (bytes ++ data') := by
  induction bytes with
  | nil => simpa using h
  | cons x bytes ih =>
    exact ⟨rfl, ih⟩

theorem written_makeTail (h : Written output changes) (hs : makeTail rec2 output = some output') :
    Written output' (changes ++ rec2.map some) := by
  induction rec2, output using makeTail.induct generalizing changes with
  | case1 output =>
    rw [makeTail] at hs
    cases hs
    simpa using h
  | case2 rec2 output hne hnone =>
    rw [makeTail, dif_neg hne, hnone] at hs
    cases hs
  | case3 rec2 output hne output₁ hlit ih =>
    rw [makeTail, dif_neg hne, hlit] at hs
    have hpos := length_pos_iff.mpr hne
    have hstep := written_literal h (by rw [length_take]; omega) (by rw [length_take]; omega) hlit
    have hrest := ih hstep hs
    rwa [append_assoc, ← map_append, take_append_drop] at hrest

theorem written_makeFrom (h : Written output changes) (hlen : rec1.length ≤ rec2.length)
    (hs : makeFrom rec1 rec2 output = some output') :
    ∃ changes', Written output' (changes ++ changes') ∧ ∀ tail, Describes changes' (rec1 ++ tail) rec2 := by
  induction rec1, rec2, output using makeFrom.induct generalizing changes with
  | case1 output x x' x'' rec1 y y' rec2 hne hnone =>
    rw [makeFrom, dif_pos hne, hnone] at hs
    cases hs
  | case2 output x x' x'' rec1 y y' rec2 hne output₁ hlit ih =>
    rw [makeFrom, dif_pos hne, hlit] at hs
    have hpos : 0 < literalLength (min (rec1.length + 3) 127) (x :: x' :: x'' :: rec1) (y :: y' :: rec2) :=
      literalLength_pos (by omega) hne
    have hle := (literalLength_le (min (rec1.length + 3) 127) (x :: x' :: x'' :: rec1) (y :: y' :: rec2)).1
    generalize literalLength (min (rec1.length + 3) 127) (x :: x' :: x'' :: rec1) (y :: y' :: rec2) = n at *
    generalize hxs : x :: x' :: x'' :: rec1 = xs at *
    generalize y :: y' :: rec2 = ys at *
    have hxslen : xs.length = rec1.length + 3 := by simp [← hxs]
    have htake : (ys.take n).length = n := by
      rw [length_take]
      omega
    have hstep := written_literal h (by omega) (by omega) hlit
    obtain ⟨changes', hwritten, hdescribes⟩ := ih hstep (by simp only [length_drop]; omega) hs
    refine ⟨(ys.take n).map some ++ changes', by rwa [← append_assoc], fun tail => ?_⟩
    have hrest : Describes changes' ((xs ++ tail).drop (ys.take n).length) (ys.drop n) := by
      rw [htake, drop_append_of_le_length (by omega)]
      exact hdescribes tail
    have happend := describes_append (ys.take n) hrest
    rwa [take_append_drop] at happend
  | case3 output x x' x'' rec1 y y' rec2 heq hnone =>
    rw [makeFrom, dif_neg heq, hnone] at hs
    cases hs
  | case4 output x x' x'' rec1 y y' rec2 heq output₁ hskip ih =>
    rw [makeFrom, dif_neg heq, hskip] at hs
    obtain ⟨htake, hxs, hys⟩ := take_equalLength (x :: x' :: x'' :: rec1) (y :: y' :: rec2)
    generalize equalLength (x :: x' :: x'' :: rec1) (y :: y' :: rec2) = n at *
    generalize x :: x' :: x'' :: rec1 = xs at *
    have hstep := written_skips h hskip
    obtain ⟨changes', hwritten, hdescribes⟩ := ih hstep (by simp only [length_drop]; omega) hs
    refine ⟨replicate n none ++ changes', by rwa [← append_assoc], fun tail => ?_⟩
    have hlength : (xs.take n).length = n := by
      rw [length_take]
      omega
    have hreplicate := describes_replicate (xs.take n) (hdescribes tail)
    rw [hlength, ← append_assoc, take_append_drop] at hreplicate
    rwa [htake, take_append_drop] at hreplicate
  | case5 rec1 output rec2 hshort =>
    refine ⟨rec2.map some, ?_, fun tail => describes_map_some _ _⟩
    rw [makeFrom] at hs
    · exact written_makeTail h hs
    · exact hshort

theorem isDifference_make (h : make rec1 rec2 = some differences) : IsDifference differences rec1 rec2 := by
  have hnil : Written [] [] := ⟨Nat.zero_le _, by rw [decode]⟩
  obtain ⟨changes, hwritten, hdescribes⟩ := written_makeFrom hnil (by rw [length_take]; omega) h
  refine ⟨hwritten.fits, changes, by simpa using hwritten.decodes, ?_⟩
  have := hdescribes (rec1.drop (min rec1.length rec2.length))
  rwa [take_append_drop] at this

theorem IsDifference.apply_eq (h : IsDifference differences base data) (hout : data.length ≤ output.length) :
    ∃ changes, decode differences = some changes ∧ Describes changes base data ∧
      apply differences data.length output = .ok (data.length, overlay changes output) := by
  obtain ⟨hmax, changes, hdecode, hdescribes⟩ := h
  refine ⟨changes, hdecode, hdescribes, ?_⟩
  rw [apply_decode hdecode hmax hdescribes.length.le hout, hdescribes.length]

end Firebird.Sqz.Difference
