import Firebird.Lib.Cursor
import Firebird.Sqz.MakeApply

/-! # The buffer of a difference

`Difference::make` and `Difference::makeNoDiff` of `src/jrd/sqz.cpp` store byte after byte in a buffer of fixed size,
a control byte after the bytes it counts. -/

namespace Firebird.Sqz.Difference
open Prod Lib Cursor List

variable {rec1 rec2 rest1 rest2 bytes output differences : List UInt8} {n p length : Nat}

/-- `m_differences`, where the next byte goes, and whether every byte so far was stored inside of the buffer. -/
structure Output where
  buffer : Memory
  output : Nat
  inside : Bool

namespace Output

def store (o : Output) (place : Nat) (b : UInt8) : Output :=
  { o with buffer := put o.buffer place [b], inside := o.inside && decide (place < maxDifferences) }

def push (o : Output) (b : UInt8) : Output := { o.store o.output b with output := o.output + 1 }

end Output

/-- The loop over different bytes up to `yellow`, `n` bytes away; no result if the buffer is full. -/
def copyDifferent : Nat → List UInt8 → List UInt8 → Output → Output × Option (List UInt8 × List UInt8)
  | n + 1, x :: rec1, y :: rec2, o =>
    if x ≠ y ∨ (0 < n ∧ rec1.head? ≠ rec2.head?) then
      if maxDifferences ≤ o.output then (o, none) else copyDifferent n rec1 rec2 (o.push y)
    else (o, some (x :: rec1, y :: rec2))
  | _, rec1, rec2, o => (o, some (rec1, rec2))

def copyRest : Nat → List UInt8 → Output → Output × Option (List UInt8)
  | n + 1, y :: rec2, o => if maxDifferences ≤ o.output then (o, none) else copyRest n rec2 (o.push y)
  | _, rec2, o => (o, some rec2)

/-- The loop that stores how many bytes stay; the answer is that there was room. -/
def storeSkips (count : Nat) (o : Output) : Output × Bool :=
  if count = 0 then (o, true)
  else if maxDifferences ≤ o.output then (o, false)
  else storeSkips (count - min count 127) (o.push (uchar (-(min count 127 : Nat))))
termination_by count
decreasing_by omega

/-- Bytes stored one after another; the answer is that there was room. -/
def Output.pushAll : List UInt8 → Output → Output × Bool
  | [], o => (o, true)
  | b :: bytes, o => if maxDifferences ≤ o.output then (o, false) else pushAll bytes (o.push b)

theorem copyDifferent_eq (n : Nat) (rec1 rec2 : List UInt8) (o : Output) : copyDifferent n rec1 rec2 o =
    ((Output.pushAll (rec2.take (literalLength n rec1 rec2)) o).1,
      if (Output.pushAll (rec2.take (literalLength n rec1 rec2)) o).2 then
        some (rec1.drop (literalLength n rec1 rec2), rec2.drop (literalLength n rec1 rec2)) else none) := by
  induction n, rec1, rec2, o using copyDifferent.induct with
  | case1 n x rec1 y rec2 o hne hfull =>
    rw [copyDifferent, if_pos hne, if_pos hfull, literalLength, if_pos hne, take_succ_cons,
      Output.pushAll, if_pos hfull]
    rfl
  | case2 n x rec1 y rec2 o hne hroom ih =>
    rw [copyDifferent, if_pos hne, if_neg hroom, ih, literalLength, if_pos hne, take_succ_cons,
      Output.pushAll, if_neg hroom]
    rfl
  | case3 n x rec1 y rec2 o heq =>
    rw [copyDifferent, if_neg heq, literalLength, if_neg heq]
    rfl
  | case4 n rec1 rec2 o hend =>
    rw [copyDifferent, literalLength]
    · rfl
    · exact hend
    · exact hend

theorem copyRest_eq (n : Nat) (rec2 : List UInt8) (o : Output) : copyRest n rec2 o =
    ((Output.pushAll (rec2.take n) o).1, if (Output.pushAll (rec2.take n) o).2 then some (rec2.drop n) else none) := by
  induction n, rec2, o using copyRest.induct with
  | case1 n y rec2 o hfull =>
    rw [copyRest, if_pos hfull, take_succ_cons, Output.pushAll, if_pos hfull]
    rfl
  | case2 n y rec2 o hroom ih =>
    rw [copyRest, if_neg hroom, ih, take_succ_cons, Output.pushAll, if_neg hroom]
    rfl
  | case3 n rec2 o hend =>
    rw [copyRest]
    · match n, rec2 with
      | 0, _ | _ + 1, [] => rfl
      | n + 1, y :: rec2 => exact (hend n y rec2 rfl rfl).elim
    · exact hend

theorem of_copied {α : Type} {copied : Output × Bool} {rest : α} {o' : Output} {result : Option α}
    (h : (copied.1, if copied.2 then some rest else none) = (o', result)) :
    copied = (o', result.isSome) ∧ ∀ r ∈ result, r = rest := by
  obtain ⟨o, room⟩ := copied
  obtain ⟨rfl, rfl⟩ := mk.inj h
  cases room with
  | false => exact ⟨rfl, nofun⟩
  | true => exact ⟨rfl, fun r hr => (Option.some.inj hr).symm⟩

def storeTail (rec2 : List UInt8) (o : Output) : Output × Bool :=
  if _h : rec2 = [] then (o, true)
  else
    match _hcopy : copyRest 127 rec2 { o with output := o.output + 1 } with
    | (o', none) => (o', false)
    | (o', some rest2) => storeTail rest2 (o'.store o.output (uchar (o'.output - o.output - 1)))
termination_by rec2.length
decreasing_by
  have hpos := length_pos_iff.mpr _h
  rw [(of_copied ((copyRest_eq ..).symm.trans _hcopy)).2 _ rfl, length_drop]
  omega

/-- The common part of both records, and then the rest of the second. -/
def storeFrom (rec1 rec2 : List UInt8) (o : Output) : Output × Bool :=
  match rec1, rec2 with
  | x :: x' :: x'' :: rec1, y :: y' :: rec2 =>
    if _h : x ≠ y ∨ x' ≠ y' then
      match _hcopy : copyDifferent (min (rec1.length + 3) 127) (x :: x' :: x'' :: rec1) (y :: y' :: rec2)
        { o with output := o.output + 1 } with
      | (o', none) => (o', false)
      | (o', some (rest1, rest2)) => storeFrom rest1 rest2 (o'.store o.output (uchar (o'.output - o.output - 1)))
    else
      match storeSkips (equalLength (x :: x' :: x'' :: rec1) (y :: y' :: rec2)) o with
      | (o', false) => (o', false)
      | (o', true) =>
        storeFrom ((x :: x' :: x'' :: rec1).drop (equalLength (x :: x' :: x'' :: rec1) (y :: y' :: rec2)))
          ((y :: y' :: rec2).drop (equalLength (x :: x' :: x'' :: rec1) (y :: y' :: rec2))) o'
  | _, rec2 => storeTail rec2 o
termination_by rec1.length
decreasing_by
  · have hpos : 0 < literalLength (min (rec1.length + 3) 127) (x :: x' :: x'' :: rec1) (y :: y' :: rec2) :=
      literalLength_pos (by omega) _h
    have hrest := (of_copied ((copyDifferent_eq ..).symm.trans _hcopy)).2 _ rfl
    rw [(mk.inj hrest).1]
    simp only [length_drop, length_cons]
    omega
  · have hpos : 0 < equalLength (x :: x' :: x'' :: rec1) (y :: y' :: rec2) :=
      equalLength_pos (not_not.mp fun hne => _h (.inl hne))
    simp only [length_drop, length_cons]
    omega

/-- What is left in the buffer, and the length that is returned. -/
def stored (result : Output × Bool) : Output × Nat :=
  (result.1, if result.2 ∧ result.1.output ≤ maxDifferences then result.1.output else 0)

/-- `Difference::make`, which leaves the difference in the buffer -/
def makeInto (buffer : Memory) (rec1 rec2 : List UInt8) : Output × Nat :=
  stored (storeFrom (rec1.take (min rec1.length rec2.length)) rec2 ⟨buffer, 0, true⟩)

def makeNoDiffInto (buffer : Memory) (length : Nat) : Output × Nat := stored (storeSkips length ⟨buffer, 0, true⟩)

/-! ### What is in the buffer -/

variable {o o' : Output}

structure Stored (o : Output) (bytes : List UInt8) : Prop where
  holds : Holds o.buffer 0 bytes
  output : o.output = bytes.length
  inside : o.inside = true
  fits : bytes.length ≤ maxDifferences

structure Copied (o : Output) (before bytes : List UInt8) : Prop where
  holds : Holds o.buffer 0 before
  copied : Holds o.buffer (before.length + 1) bytes
  output : o.output = before.length + 1 + bytes.length
  inside : o.inside = true
  fits : bytes = [] ∨ before.length + 1 + bytes.length ≤ maxDifferences

theorem holds_put_of_le {m : Memory} {l : List UInt8} {q : Nat} {b : UInt8} (h : Holds m p l) (hle : p + l.length ≤ q) :
    Holds (put m q [b]) p l := by
  intro i hi
  exact (put_of_lt (by omega)).trans (h i hi)

theorem Stored.push (h : Stored o bytes) (hroom : bytes.length < maxDifferences) (b : UInt8) : Stored (o.push b)
    (bytes ++ [b]) := by
  refine ⟨holds_append.mpr ⟨holds_put_of_le h.holds ?_, ?_⟩, ?_, ?_, ?_⟩
  · rw [Nat.zero_add, h.output]
  · show Holds (put o.buffer o.output [b]) _ [b]
    rw [h.output, Nat.zero_add]
    exact holds_put
  · rw [length_append]
    exact congrArg (· + 1) h.output
  · show (o.inside && decide (o.output < maxDifferences)) = true
    rw [h.inside, h.output, decide_eq_true hroom]
    rfl
  · rw [length_append]
    exact hroom

theorem Stored.free (h : Stored o output) : Copied { o with output := o.output + 1 } output [] :=
  ⟨h.holds, nofun, congrArg (· + 1) h.output, h.inside, .inl rfl⟩

theorem Copied.push (h : Copied o output bytes) (hroom : o.output < maxDifferences) (b : UInt8) :
    Copied (o.push b) output (bytes ++ [b]) := by
  have houtput := h.output
  refine ⟨holds_put_of_le h.holds (by omega), holds_append.mpr ⟨holds_put_of_le h.copied (by omega), ?_⟩, ?_, ?_,
    .inr ?_⟩
  · show Holds (put o.buffer o.output [b]) _ [b]
    rw [h.output]
    exact holds_put
  · rw [length_append]
    exact congrArg (· + 1) h.output
  · show (o.inside && decide (o.output < maxDifferences)) = true
    rw [h.inside, decide_eq_true hroom]
    rfl
  · rw [length_append, length_singleton]
    omega

theorem Copied.stored (h : Copied o output bytes) (hpos : 0 < bytes.length) {start : Nat}
    (hstart : start = output.length) :
    Stored (o.store start (uchar (o.output - start - 1))) (output ++ uchar bytes.length :: bytes) := by
  subst hstart
  have hfits := h.fits.resolve_left (ne_nil_of_length_pos hpos)
  have hcount : (o.output : Int) - output.length - 1 = bytes.length := by
    rw [h.output]
    omega
  rw [hcount]
  refine ⟨holds_append.mpr ⟨holds_put_of_le h.holds (Nat.le_of_eq (Nat.zero_add _)), ?_⟩, ?_, ?_, ?_⟩
  · refine (@holds_append _ _ [uchar bytes.length] bytes).mpr ⟨?_, fun i hi => ?_⟩
    · rw [Nat.zero_add]
      exact holds_put
    · have hafter : output.length + [uchar bytes.length].length ≤ output.length + 1 + i := Nat.le_add_right ..
      rw [Nat.zero_add]
      exact (put_of_le hafter).trans (h.copied i hi)
  · show o.output = _
    rw [length_append, length_cons]
    omega
  · show (o.inside && decide (output.length < maxDifferences)) = true
    rw [h.inside, decide_eq_true (by omega)]
    rfl
  · rw [length_append, length_cons]
    omega

def Agrees (result : Output × Bool) : Option (List UInt8) → Prop
  | none => result.2 = false ∧ result.1.inside = true
  | some bytes => result.2 = true ∧ Stored result.1 bytes

theorem Copied.pushAll (h : Copied o output bytes) (more : List UInt8) :
    match Output.pushAll more o with
    | (o', true) => Copied o' output (bytes ++ more)
    | (o', false) => o'.inside = true ∧ maxDifferences < output.length + 1 + (bytes ++ more).length := by
  induction more generalizing o bytes with
  | nil =>
    rw [append_nil]
    exact h
  | cons b more ih =>
    rw [Output.pushAll]
    split_ifs with hfull
    · have houtput := h.output
      rw [length_append, length_cons]
      exact ⟨h.inside, by omega⟩
    · rw [append_cons]
      exact ih (h.push (Nat.not_le.mp hfull) b)

theorem Copied.literal (h : Copied o output bytes) (hpos : 0 < bytes.length) :
    literal bytes output = some (output ++ uchar bytes.length :: bytes) := by
  have hfits := h.fits.resolve_left (ne_nil_of_length_pos hpos)
  exact if_neg (by omega)

section
variable (h : Stored o output)
include h

theorem Stored.pushAll (hpos : 0 < bytes.length) :
    match Output.pushAll bytes { o with output := o.output + 1 } with
    | (o', true) => ∃ made, literal bytes output = some made ∧
        Stored (o'.store o.output (uchar (o'.output - o.output - 1))) made
    | (o', false) => literal bytes output = none ∧ o'.inside = true := by
  have hpush := h.free.pushAll bytes
  rw [nil_append] at hpush
  split at hpush
  · exact ⟨_, hpush.literal hpos, hpush.stored hpos h.output⟩
  · exact ⟨if_pos hpush.2, hpush.1⟩

theorem agrees_storeSkips : Agrees (storeSkips length o) (skips length output) := by
  induction length, o using storeSkips.induct generalizing output with
  | case1 o =>
    rw [storeSkips, skips]
    exact ⟨rfl, h⟩
  | case2 length o hlength hfull =>
    rw [storeSkips, if_neg hlength, if_pos hfull, skips, if_neg hlength, if_pos (h.output ▸ hfull)]
    exact ⟨rfl, h.inside⟩
  | case3 length o hlength hroom ih =>
    rw [storeSkips, if_neg hlength, if_neg hroom, skips, if_neg hlength, if_neg (h.output ▸ hroom)]
    exact ih (h.push (h.output ▸ Nat.not_le.mp hroom) _)

theorem agrees_storeTail : Agrees (storeTail rec2 o) (makeTail rec2 output) := by
  have htake : ∀ rec2 : List UInt8, rec2 ≠ [] → 0 < (rec2.take 127).length := fun rec2 hne => by
    have hpos := length_pos_iff.mpr hne
    rw [length_take]
    omega
  induction rec2, o using storeTail.induct generalizing output with
  | case1 o =>
    rw [storeTail, makeTail]
    exact ⟨rfl, h⟩
  | case2 rec2 o hne o' hcopy =>
    have hrun := h.pushAll (htake rec2 hne)
    rw [(of_copied ((copyRest_eq ..).symm.trans hcopy)).1] at hrun
    rw [storeTail, dif_neg hne, makeTail, dif_neg hne, hrun.1]
    split
    · rename_i heq
      obtain ⟨rfl, -⟩ := mk.inj (hcopy.symm.trans heq)
      exact ⟨rfl, hrun.2⟩
    · rename_i heq
      cases (mk.inj (hcopy.symm.trans heq)).2
  | case3 rec2 o hne o' rest2 hcopy ih =>
    have hrun := h.pushAll (htake rec2 hne)
    obtain ⟨hpush, hrest⟩ := of_copied ((copyRest_eq ..).symm.trans hcopy)
    rw [hpush] at hrun
    obtain ⟨made, hmade, hstored⟩ := hrun
    rw [storeTail, dif_neg hne, makeTail, dif_neg hne, hmade]
    split
    · rename_i heq
      cases (mk.inj (hcopy.symm.trans heq)).2
    · rename_i heq
      obtain ⟨rfl, hsame⟩ := mk.inj (hcopy.symm.trans heq)
      obtain rfl := Option.some.inj hsame
      have hagrees := ih hstored
      rw [hrest _ rfl] at hagrees ⊢
      exact hagrees

theorem agrees_storeFrom : Agrees (storeFrom rec1 rec2 o) (makeFrom rec1 rec2 output) := by
  have htake : ∀ (x x' x'' y y' : UInt8) (rec1 rec2 : List UInt8), x ≠ y ∨ x' ≠ y' → 0 < ((y :: y' :: rec2).take
      (literalLength (min (rec1.length + 3) 127) (x :: x' :: x'' :: rec1) (y :: y' :: rec2))).length :=
      fun _ _ _ _ _ _ _ hne => by
    rw [length_take_of_le (literalLength_le ..).2]
    exact literalLength_pos (by omega) hne
  induction rec1, rec2, o using storeFrom.induct generalizing output with
  | case1 o x x' x'' rec1 y y' rec2 hne o' hcopy =>
    have hrun := h.pushAll (htake x x' x'' y y' rec1 rec2 hne)
    rw [(of_copied ((copyDifferent_eq ..).symm.trans hcopy)).1] at hrun
    rw [storeFrom, dif_pos hne, makeFrom, dif_pos hne, hrun.1]
    split
    · rename_i heq
      obtain ⟨rfl, -⟩ := mk.inj (hcopy.symm.trans heq)
      exact ⟨rfl, hrun.2⟩
    · rename_i heq
      cases (mk.inj (hcopy.symm.trans heq)).2
  | case2 o x x' x'' rec1 y y' rec2 hne o' rest1 rest2 hcopy ih =>
    have hrun := h.pushAll (htake x x' x'' y y' rec1 rec2 hne)
    obtain ⟨hpush, hrest⟩ := of_copied ((copyDifferent_eq ..).symm.trans hcopy)
    rw [hpush] at hrun
    obtain ⟨made, hmade, hstored⟩ := hrun
    rw [storeFrom, dif_pos hne, makeFrom, dif_pos hne, hmade]
    split
    · rename_i heq
      cases (mk.inj (hcopy.symm.trans heq)).2
    · rename_i heq
      obtain ⟨rfl, hsame⟩ := mk.inj (hcopy.symm.trans heq)
      obtain ⟨rfl, rfl⟩ := mk.inj (Option.some.inj hsame)
      obtain ⟨hrest1, hrest2⟩ := mk.inj (hrest _ rfl)
      have hagrees := ih hstored
      rw [hrest1, hrest2] at hagrees ⊢
      exact hagrees
  | case3 o x x' x'' rec1 y y' rec2 heq o' hskip =>
    have hagrees := @agrees_storeSkips output (equalLength (x :: x' :: x'' :: rec1) (y :: y' :: rec2)) o h
    rw [storeFrom, dif_neg heq, makeFrom, dif_neg heq]
    rw [hskip] at hagrees ⊢
    generalize skips (equalLength (x :: x' :: x'' :: rec1) (y :: y' :: rec2)) output = made at hagrees ⊢
    cases made with
    | none => exact hagrees
    | some bytes => exact absurd hagrees.1 Bool.false_ne_true
  | case4 o x x' x'' rec1 y y' rec2 heq o' hskip ih =>
    have hagrees := @agrees_storeSkips output (equalLength (x :: x' :: x'' :: rec1) (y :: y' :: rec2)) o h
    rw [storeFrom, dif_neg heq, makeFrom, dif_neg heq]
    rw [hskip] at hagrees ⊢
    generalize skips (equalLength (x :: x' :: x'' :: rec1) (y :: y' :: rec2)) output = made at hagrees ⊢
    cases made with
    | none => exact absurd hagrees.1.symm Bool.false_ne_true
    | some bytes => exact ih hagrees.2
  | case5 rec1 rec2 o hshort =>
    rw [storeFrom, makeFrom]
    · exact agrees_storeTail h
    all_goals exact hshort

end

def Output.take (o : Output) (length : Nat) : List UInt8 := (range length).map o.buffer

theorem Stored.take_eq (h : Stored o bytes) : o.take bytes.length = bytes := by
  refine ext_getElem (by simp [Output.take]) fun i _ hi => ?_
  have hbyte := h.holds i hi
  simpa [Output.take] using hbyte

theorem stored_cases {result : Output × Bool} {made : Option (List UInt8)} (h : Agrees result made) :
    (stored result).1.inside = true ∧ (stored result).2 ≤ maxDifferences ∧
      ((stored result).2 ≠ 0 → made = some ((stored result).1.take (stored result).2)) := by
  unfold stored
  cases made with
  | none =>
    obtain ⟨hfalse, hinside⟩ := h
    rw [hfalse]
    exact ⟨hinside, Nat.zero_le _, fun hne => absurd rfl hne⟩
  | some bytes =>
    obtain ⟨htrue, hstored⟩ := h
    have houtput := hstored.output
    rw [htrue, if_pos ⟨rfl, hstored.output ▸ hstored.fits⟩]
    refine ⟨hstored.inside, hstored.output ▸ hstored.fits, fun _ => ?_⟩
    rw [houtput, hstored.take_eq]

theorem IsDifference.apply_of_prefix {base data : List UInt8} (h : IsDifference differences base data)
    (hout : data.length ≤ n) (hlength : output.length = n)
    (hagree : ∀ i < data.length, i < base.length → output[i]? = base[i]?) :
    ∃ output', apply differences n output = .ok (data.length, output') ∧ output'.take data.length = data ∧
      output'.length = n := by
  obtain ⟨hmax, changes, hdecode, hdescribes⟩ := h
  refine ⟨overlay changes output, ?_, (hdescribes.take_overlay_iff (hlength ▸ hout)).mpr fun i hi hstay => ?_,
    (length_overlay ..).trans hlength⟩
  · rw [apply_decode hdecode hmax (hdescribes.length.le.trans hout) (Nat.le_of_eq hlength.symm), hdescribes.length]
  · obtain ⟨hlt, hbase⟩ := hdescribes.stays hi hstay
    rw [hagree i hi hlt, hbase]

/-- A difference that fits is applied to any buffer that begins with the first record and has room for both, and
    leaves the second record there. No byte is stored behind the buffer. -/
theorem apply_makeInto (buffer : Memory) :
    (∀ rec1 rec2 : List UInt8, (makeInto buffer rec1 rec2).1.inside = true ∧
      (makeInto buffer rec1 rec2).2 ≤ maxDifferences ∧
      ((makeInto buffer rec1 rec2).2 ≠ 0 → ∀ output : List UInt8, max rec1.length rec2.length ≤ output.length →
        output.take rec1.length = rec1 → ∃ output',
          apply ((makeInto buffer rec1 rec2).1.take (makeInto buffer rec1 rec2).2) output.length output =
            .ok (rec2.length, output') ∧ output'.take rec2.length = rec2)) ∧
    (∀ length : Nat, (makeNoDiffInto buffer length).1.inside = true ∧ (makeNoDiffInto buffer length).2 ≤
      maxDifferences ∧ ((makeNoDiffInto buffer length).2 ≠ 0 → ∀ output : List UInt8, length ≤ output.length →
        apply ((makeNoDiffInto buffer length).1.take (makeNoDiffInto buffer length).2) output.length output =
          .ok (length, output))) := by
  have hempty : Stored ⟨buffer, 0, true⟩ [] := ⟨nofun, rfl, rfl, Nat.zero_le _⟩
  refine ⟨fun rec1 rec2 => ?_, fun length => ?_⟩
  · obtain ⟨hinside, hle, hmade⟩ :=
      stored_cases (@agrees_storeFrom (rec1.take (min rec1.length rec2.length)) rec2 [] _ hempty)
    refine ⟨hinside, hle, fun hne output hroom hstart => ?_⟩
    have hdifference := isDifference_make (hmade hne)
    obtain ⟨output', happly, hdata, -⟩ :=
      hdifference.apply_of_prefix ((Nat.le_max_right ..).trans hroom) rfl fun i _ hi => by
      rw [← hstart, getElem?_take_of_lt hi]
    exact ⟨output', happly, hdata⟩
  · obtain ⟨hinside, hle, hmade⟩ := stored_cases (@agrees_storeSkips [] length _ hempty)
    refine ⟨hinside, hle, fun hne output hroom => ?_⟩
    have hwritten := written_skips ⟨Nat.zero_le _, by rw [decode]⟩ (hmade hne)
    rw [nil_append] at hwritten
    have happly := apply_decode hwritten.decodes hwritten.fits (by rw [length_replicate]; exact hroom) (Nat.le_refl _)
    rw [overlay_replicate, length_replicate] at happly
    exact happly

theorem apply_makeInto_small : ∃ output',
    apply ((makeInto (fun _ => 0) [1, 2, 3] [1, 5, 3, 7]).1.take (makeInto (fun _ => 0) [1, 2, 3] [1, 5, 3, 7]).2) 5
      [1, 2, 3, 0, 0] = .ok (4, output') ∧ output'.take 4 = [1, 5, 3, 7] :=
  ((apply_makeInto fun _ => 0).1 [1, 2, 3] [1, 5, 3, 7]).2.2 (by decide +kernel) [1, 2, 3, 0, 0] (by decide) rfl

end Firebird.Sqz.Difference
