import Firebird.Blb.Segments
import Firebird.Lib.PrefixCodes

/-! # Well-formed text blobs

`BLB_check_well_formed` of `src/jrd/blb.cpp` reads a blob piece by piece and keeps the last bytes of a
piece when they may be the beginning of a character. With it the functions that check a string of a
multi-byte character set: those of `src/intl`, and `utf8WellFormed` (`src/common/unicode_util.cpp`). -/

namespace Firebird.Blb

open List
open Lib (PrefixCode)

/-! ### Character sets -/

/-- A character set whose strings are checked: `charset_fn_well_formed` gives the place of the first character that is
    not whole and valid. -/
structure CharSet where
  wellFormed : List UInt8 → Option Nat
  characters : PrefixCode UInt8
  wellFormed_eq : ∀ text, wellFormed text =
    if characters.rest text = [] then none else some (text.length - (characters.rest text).length)

def checkFrom (lead trail single : UInt8 → Bool) : Nat → List UInt8 → Option Nat
  | _, [] => none
  | pos, c1 :: rest =>
    if lead c1 then
      match rest with
      | [] => some pos
      | c2 :: rest => if trail c2 then checkFrom lead trail single (pos + 2) rest else some pos
    else if single c1 then checkFrom lead trail single (pos + 1) rest
    else some pos

def big51 (c : UInt8) : Bool := 0xA1 ≤ c && c ≤ 0xFE
def ksc1 (c : UInt8) : Bool := c &&& 0x80 != 0
def gb1 (c : UInt8) : Bool := 0xA1 ≤ c && c ≤ 0xFE
def gb2 (c : UInt8) : Bool := 0xA1 ≤ c && c ≤ 0xFE
def euc1 (c : UInt8) : Bool := c &&& 0x80 != 0
def sjis1 (c : UInt8) : Bool := (0x80 ≤ c && c ≤ 0x9F) || (0xE0 ≤ c && c ≤ 0xEF)

def twoByteCharacters (lead trail single : UInt8 → Bool) : PrefixCode UInt8 where
  front
    | [] => none
    | c1 :: rest =>
      if lead c1 then
        match rest with
        | [] => none
        | c2 :: _ => if trail c2 then some 2 else none
      else if single c1 then some 1 else none
  front_bounds {text n} h := by
    rcases text with _ | ⟨c1, _ | ⟨c2, rest⟩⟩
    · cases h
    · by_cases hlead : lead c1 <;> by_cases hsingle : single c1 <;> simp [hlead, hsingle] at h
      subst h
      simp
    · by_cases hlead : lead c1
      · by_cases htrail : trail c2 <;> simp [hlead, htrail] at h
        subst h
        simp
      · by_cases hsingle : single c1 <;> simp [hlead, hsingle] at h
        subst h
        simp
  front_take {text n} h more := by
    rcases text with _ | ⟨c1, _ | ⟨c2, rest⟩⟩
    · cases h
    · by_cases hlead : lead c1 <;> by_cases hsingle : single c1 <;> simp [hlead, hsingle] at h
      subst h
      simp [hlead, hsingle]
    · by_cases hlead : lead c1
      · by_cases htrail : trail c2 <;> simp [hlead, htrail] at h
        subst h
        simp [hlead, htrail]
      · by_cases hsingle : single c1 <;> simp [hlead, hsingle] at h
        subst h
        simp [hlead, hsingle]

section
variable {lead trail single : UInt8 → Bool}

theorem checkFrom_eq (pos : Nat) (text : List UInt8) : checkFrom lead trail single pos text =
    if (twoByteCharacters lead trail single).rest text = [] then none
    else some (pos + (text.length - ((twoByteCharacters lead trail single).rest text).length)) := by
  refine PrefixCode.scan_eq (fun pos => rfl) (fun pos text hne h => ?_) (fun pos text n h => ?_) pos text
  · rcases text with _ | ⟨c1, _ | ⟨c2, rest⟩⟩
    · exact absurd rfl hne
    · by_cases hlead : lead c1
      · simp [checkFrom, hlead]
      · by_cases hsingle : single c1 <;> simp [twoByteCharacters, hlead, hsingle] at h
        simp [checkFrom, hlead, hsingle]
    · by_cases hlead : lead c1
      · by_cases htrail : trail c2 <;> simp [twoByteCharacters, hlead, htrail] at h
        simp [checkFrom, hlead, htrail]
      · by_cases hsingle : single c1 <;> simp [twoByteCharacters, hlead, hsingle] at h
        simp [checkFrom, hlead, hsingle]
  · rcases text with _ | ⟨c1, _ | ⟨c2, rest⟩⟩
    · cases h
    · by_cases hlead : lead c1 <;> by_cases hsingle : single c1 <;> simp [twoByteCharacters, hlead, hsingle] at h
      subst h
      simp [checkFrom, hlead, hsingle]
    · by_cases hlead : lead c1
      · by_cases htrail : trail c2 <;> simp [twoByteCharacters, hlead, htrail] at h
        subst h
        simp [checkFrom, hlead, htrail]
      · by_cases hsingle : single c1 <;> simp [twoByteCharacters, hlead, hsingle] at h
        subst h
        simp [checkFrom, hlead, hsingle]

theorem wellFormed_twoByte (text : List UInt8) : checkFrom lead trail single 0 text =
    if (twoByteCharacters lead trail single).rest text = [] then none
    else some (text.length - ((twoByteCharacters lead trail single).rest text).length) := by
  rw [checkFrom_eq, Nat.zero_add]

end

def cvbig5CheckBig5 : List UInt8 → Option Nat := checkFrom big51 (fun _ => true) (fun _ => true) 0

def cvkscCheckKsc : List UInt8 → Option Nat := checkFrom ksc1 (fun _ => true) (fun c => c ≤ 0x7F) 0

/-- `CVGB_check_gb2312`: a first byte that is neither ASCII nor of a GB2312 character is bad. -/
def cvgbCheckGb2312 : List UInt8 → Option Nat :=
  checkFrom (fun c => c &&& 0x80 != 0 && gb1 c) gb2 (fun c => c &&& 0x80 == 0) 0

def cvjisCheckEuc : List UInt8 → Option Nat := checkFrom euc1 (fun _ => true) (fun _ => true) 0

/-- `CVJIS_check_sjis`: a byte that is neither ASCII nor of a kanji is a kana. -/
def cvjisCheckSjis : List UInt8 → Option Nat :=
  checkFrom (fun c => c &&& 0x80 != 0 && sjis1 c) (fun _ => true) (fun _ => true) 0

def big5 : CharSet := ⟨cvbig5CheckBig5, _, wellFormed_twoByte⟩
def ksc5601 : CharSet := ⟨cvkscCheckKsc, _, wellFormed_twoByte⟩
def gb2312 : CharSet := ⟨cvgbCheckGb2312, _, wellFormed_twoByte⟩
def eucj : CharSet := ⟨cvjisCheckEuc, _, wellFormed_twoByte⟩
def sjis : CharSet := ⟨cvjisCheckSjis, _, wellFormed_twoByte⟩

section
variable (nextCharSafeBody : PrefixCode UInt8)

/-- `utf8WellFormed`; `utf8_nextCharSafeBody` of the ICU library, which takes a character that begins with
    a byte over 7F, is a parameter. -/
def utf8WellFormedFrom (pos : Nat) : List UInt8 → Option Nat
  | [] => none
  | c :: rest =>
    if 0x7F < c then
      match _hbody : nextCharSafeBody.front (c :: rest) with
      | none => some pos
      | some n => utf8WellFormedFrom (pos + n) ((c :: rest).drop n)
    else utf8WellFormedFrom (pos + 1) rest
termination_by text => text.length
decreasing_by
  · obtain ⟨hpos, hle⟩ := nextCharSafeBody.front_bounds _hbody
    rw [length_drop]
    omega
  · exact Nat.lt_succ_self _

def utf8Characters : PrefixCode UInt8 where
  front
    | [] => none
    | c :: rest => if 0x7F < c then nextCharSafeBody.front (c :: rest) else some 1
  front_bounds {text n} h := by
    cases text with
    | nil => cases h
    | cons c rest =>
      dsimp only at h
      split at h
      · exact nextCharSafeBody.front_bounds h
      · cases h
        simp
  front_take {text n} h more := by
    cases text with
    | nil => cases h
    | cons c rest =>
      dsimp only at h
      split at h
      · obtain ⟨hpos, _⟩ := nextCharSafeBody.front_bounds h
        obtain ⟨m, rfl⟩ := Nat.exists_eq_succ_of_ne_zero (Nat.pos_iff_ne_zero.mp hpos)
        have htake := nextCharSafeBody.front_take h more
        rw [take_succ_cons, cons_append] at htake ⊢
        exact (if_pos ‹_›).trans htake
      · cases h
        rw [take_succ_cons, cons_append]
        exact if_neg ‹_›

theorem utf8WellFormedFrom_eq (pos : Nat) (text : List UInt8) : utf8WellFormedFrom nextCharSafeBody pos text =
    if (utf8Characters nextCharSafeBody).rest text = [] then none
    else some (pos + (text.length - ((utf8Characters nextCharSafeBody).rest text).length)) := by
  refine PrefixCode.scan_eq (fun pos => by rw [utf8WellFormedFrom]) (fun pos text hne h => ?_)
    (fun pos text n h => ?_) pos text
  · cases text with
    | nil => exact absurd rfl hne
    | cons c rest =>
      rw [utf8Characters] at h
      dsimp only at h
      split at h
      · rw [utf8WellFormedFrom, if_pos ‹_›]
        split
        · rfl
        · rename_i n hn
          rw [h] at hn
          cases hn
      · cases h
  · cases text with
    | nil => cases h
    | cons c rest =>
      rw [utf8Characters] at h
      dsimp only at h
      split at h
      · rw [utf8WellFormedFrom, if_pos ‹_›]
        split
        · rename_i hn
          rw [h] at hn
          cases hn
        · rename_i m hm
          rw [h] at hm
          cases hm
          rfl
      · cases h
        rw [utf8WellFormedFrom, if_neg ‹_›, drop_succ_cons, drop_zero]

def utf8 : CharSet where
  wellFormed := utf8WellFormedFrom nextCharSafeBody 0
  characters := utf8Characters nextCharSafeBody
  wellFormed_eq text := by rw [utf8WellFormedFrom_eq, Nat.zero_add]

end

/-! ### The check of a blob -/

/-- The loop of `BLB_check_well_formed` with a buffer of some capacity: whether the error is raised. `tail` is what
    was moved to the front of it. -/
def checkFromBlob (charSet : CharSet) (capacity : Nat) : Nat → List UInt8 → Blob → Option Bool
  | 0, _, _ => none
  | fuel + 1, tail, blob =>
    if blob.eof then some (decide (tail ≠ []))
    else
      let (bytes, blob) := blob.getData (capacity - tail.length)
      let buffer := tail ++ bytes
      match charSet.wellFormed buffer with
      | none => checkFromBlob charSet capacity fuel [] blob
      | some 0 => some true
      | some (pos + 1) => checkFromBlob charSet capacity fuel (buffer.drop (pos + 1)) blob

/-- `BLB_check_well_formed`, for a character set whose strings are checked. -/
def blbCheckWellFormed (charSet : CharSet) (capacity fuel : Nat) (blob : Blob) : Option Bool :=
  checkFromBlob charSet capacity fuel [] blob

section
variable (charSet : CharSet) (capacity : Nat)

def readOn : Nat → List UInt8 → List (List UInt8) → Option Bool
  | 0, _, _ => none
  | fuel + 1, tail, segments =>
    let (bytes, left, eof) := gather (capacity - tail.length) segments
    let buffer := tail ++ bytes
    if eof then some (decide (charSet.characters.rest buffer ≠ []))
    else if charSet.characters.Undecided buffer then some true
    else readOn fuel (charSet.characters.rest buffer) left

/-- The buffer when a segment was read into it: it is checked each time it is full. No result means that
    it was full of the beginning of a character. -/
def fillUp (text : List UInt8) : Option (List UInt8) :=
  if capacity ≤ text.length then
    match _hfront : charSet.characters.front (text.take capacity) with
    | none => none
    | some _ => fillUp (charSet.characters.rest (text.take capacity) ++ text.drop capacity)
  else some text
termination_by text.length
decreasing_by
  have hlt := PrefixCode.rest_length_lt (_hfront ▸ Option.some_ne_none _)
  rw [length_append, length_drop]
  rw [length_take] at hlt
  omega

/-- Where reading stops before the end of the blob, the buffer does not hold only the beginning of a
    character: not at an empty segment, and not when the buffer is full. -/
def Decided : List UInt8 → List (List UInt8) → Prop
  | _, [] => True
  | buffer, [] :: behind => ¬charSet.characters.Undecided buffer ∧ Decided (charSet.characters.rest buffer) behind
  | buffer, segment :: behind => ∃ buffer', fillUp charSet capacity (buffer ++ segment) = some buffer' ∧
      Decided buffer' behind

end

section
variable {charSet : CharSet} {capacity fuel : Nat} {tail buffer segment : List UInt8}
  {behind segments : List (List UInt8)} {r : Bool}
variable {blob : Blob}

theorem wellFormed_cases (charSet : CharSet) (buffer : List UInt8) :
    (charSet.characters.rest buffer = [] ∧ charSet.wellFormed buffer = none) ∨
      (charSet.characters.Undecided buffer ∧ charSet.wellFormed buffer = some 0) ∨
      (charSet.characters.rest buffer ≠ [] ∧ ¬charSet.characters.Undecided buffer ∧
        ∃ pos, charSet.wellFormed buffer = some (pos + 1) ∧
        buffer.drop (pos + 1) = charSet.characters.rest buffer) := by
  by_cases hrest : charSet.characters.rest buffer = []
  · exact .inl ⟨hrest, by rw [charSet.wellFormed_eq, if_pos hrest]⟩
  by_cases hundecided : charSet.characters.Undecided buffer
  · refine .inr (.inl ⟨hundecided, ?_⟩)
    rw [charSet.wellFormed_eq, if_neg hrest, PrefixCode.rest_of_none hundecided.2, Nat.sub_self]
  · have hfront : charSet.characters.front buffer ≠ none := fun hnone =>
      hundecided ⟨fun hnil => hrest (by rw [hnil, PrefixCode.rest_nil]), hnone⟩
    have hlt := PrefixCode.rest_length_lt hfront
    obtain ⟨pos, hpos⟩ : ∃ pos, buffer.length - (charSet.characters.rest buffer).length = pos + 1 :=
      ⟨buffer.length - (charSet.characters.rest buffer).length - 1, by omega⟩
    refine .inr (.inr ⟨hrest, hundecided, pos, ?_, ?_⟩)
    · rw [charSet.wellFormed_eq, if_neg hrest, hpos]
    · rw [← hpos, PrefixCode.drop_rest]

theorem checkFromBlob_of_readOn (h : Holds blob segments)
    (hread : readOn charSet capacity fuel tail segments = some r) :
    checkFromBlob charSet capacity (fuel + 1) tail blob = some r := by
  induction fuel generalizing tail blob segments with
  | zero => cases hread
  | succ fuel ih =>
    obtain ⟨hbytes, heof, hleft⟩ := getData_spec h (capacity - tail.length)
    rw [checkFromBlob, h.notEof]
    rw [readOn] at hread
    dsimp only at hread ⊢
    rw [hbytes]
    cases hend : (gather (capacity - tail.length) segments).2.2 with
    | true =>
      -- the end was reported: the next turn ends the loop
      rw [hend] at hread
      rcases wellFormed_cases charSet (tail ++ (gather (capacity - tail.length) segments).1) with
        ⟨hrest, heq⟩ | ⟨hundecided, heq⟩ | ⟨hrest, -, pos, heq, hdrop⟩
      · rw [heq, checkFromBlob, if_pos (heof hend)]
        simpa [hrest] using hread
      · rw [heq]
        simpa [PrefixCode.rest_ne_nil hundecided] using hread
      · rw [heq]
        dsimp only
        rw [checkFromBlob, if_pos (heof hend), hdrop]
        exact hread
    | false =>
      rw [hend] at hread
      rcases wellFormed_cases charSet (tail ++ (gather (capacity - tail.length) segments).1) with
        ⟨hrest, heq⟩ | ⟨hundecided, heq⟩ | ⟨-, hundecided, pos, heq, hdrop⟩
      · rw [if_neg fun hundecided => PrefixCode.rest_ne_nil hundecided hrest, hrest] at hread
        rw [heq]
        exact ih (hleft hend) hread
      · rw [if_pos hundecided] at hread
        rw [heq]
        exact hread
      · rw [if_neg hundecided, ← hdrop] at hread
        rw [heq]
        exact ih (hleft hend) hread

def Ends (charSet : CharSet) (capacity : Nat) (tail : List UInt8) (segments : List (List UInt8)) (r : Bool) : Prop :=
  ∃ turns, ∀ fuel ≥ turns, readOn charSet capacity fuel tail segments = some r

theorem Ends.of_turn (h : ∀ fuel, readOn charSet capacity (fuel + 1) tail segments = some r) :
    Ends charSet capacity tail segments r := by
  refine ⟨1, fun fuel hfuel => ?_⟩
  obtain ⟨fuel, rfl⟩ := Nat.exists_eq_succ_of_ne_zero (Nat.pos_iff_ne_zero.mp hfuel)
  exact h fuel

theorem Ends.of_same {tail' : List UInt8} {segments' : List (List UInt8)}
    (h : ∀ fuel, readOn charSet capacity (fuel + 1) tail segments = readOn charSet capacity (fuel + 1) tail' segments')
    (hends : Ends charSet capacity tail' segments' r) : Ends charSet capacity tail segments r := by
  obtain ⟨turns, hturns⟩ := hends
  refine ⟨turns + 1, fun fuel hfuel => ?_⟩
  obtain ⟨fuel, rfl⟩ : ∃ m, fuel = m + 1 := ⟨fuel - 1, by omega⟩
  rw [h]
  exact hturns _ (by omega)

theorem Ends.nil (hroom : tail.length < capacity) :
    Ends charSet capacity tail [] (decide (charSet.characters.rest tail ≠ [])) := by
  refine .of_turn fun fuel => ?_
  rw [readOn, gather_nil (Nat.sub_pos_of_lt hroom)]
  dsimp only
  rw [if_pos rfl, append_nil]

theorem Ends.raised (hgather : gather (capacity - tail.length) segments = ([], behind, false))
    (h : charSet.characters.Undecided tail) : Ends charSet capacity tail segments true := by
  refine .of_turn fun fuel => ?_
  rw [readOn, hgather]
  dsimp only
  rw [if_neg Bool.false_ne_true, append_nil, if_pos h]

theorem Ends.on (hgather : gather (capacity - tail.length) segments = ([], behind, false))
    (h : ¬charSet.characters.Undecided tail) (hends : Ends charSet capacity (charSet.characters.rest tail) behind r) :
    Ends charSet capacity tail segments r := by
  obtain ⟨turns, hturns⟩ := hends
  refine ⟨turns + 1, fun fuel hfuel => ?_⟩
  obtain ⟨fuel, rfl⟩ : ∃ m, fuel = m + 1 := ⟨fuel - 1, by omega⟩
  rw [readOn, hgather]
  dsimp only
  rw [append_nil, if_neg h]
  exact hturns fuel (by omega)

theorem gather_full (hfull : capacity ≤ tail.length) (segments : List (List UInt8)) :
    gather (capacity - tail.length) segments = ([], segments, false) := by
  rw [Nat.sub_eq_zero_of_le hfull, gather_zero]

theorem leave_nil (n : Nat) (behind : List (List UInt8)) : leave n [] behind = behind := if_neg (Nat.not_lt_zero n)

theorem leave_zero (hne : segment ≠ []) (behind : List (List UInt8)) : leave 0 segment behind = segment :: behind :=
  if_pos (length_pos_of_ne_nil hne)

theorem readOn_take (tail segment : List UInt8) (behind : List (List UInt8)) (fuel : Nat) :
    readOn charSet capacity (fuel + 1) tail (leave 0 segment behind) =
      readOn charSet capacity (fuel + 1) (tail ++ segment.take (capacity - tail.length))
        (leave (capacity - tail.length) segment behind) := by
  by_cases hempty : segment = []
  · rw [hempty, take_nil, append_nil, leave_nil, leave_nil]
  by_cases hfull : capacity - tail.length = 0
  · rw [hfull, take_zero, append_nil]
  have hleft : capacity - (tail ++ segment.take (capacity - tail.length)).length =
      capacity - tail.length - (segment.take (capacity - tail.length)).length := by
    rw [length_append]
    omega
  rw [readOn, readOn, leave_zero hempty, gather_step (Nat.pos_of_ne_zero hfull) (Nat.le_refl _) hempty, hleft]
  dsimp only
  rw [append_assoc]

theorem take_window (hroom : tail.length ≤ capacity) (segment : List UInt8) :
    tail ++ segment.take (capacity - tail.length) = (tail ++ segment).take capacity := by
  rw [take_append, take_of_length_le hroom]

theorem drop_window (hroom : tail.length ≤ capacity) (segment : List UInt8) :
    segment.drop (capacity - tail.length) = (tail ++ segment).drop capacity := by
  rw [drop_append, drop_of_length_le hroom, nil_append]

theorem window_length {text : List UInt8} (hfull : capacity ≤ text.length) : capacity ≤
    (text.take capacity).length := by
  rw [length_take]
  omega

theorem fillUp_short {text : List UInt8} (hshort : text.length < capacity) :
    fillUp charSet capacity text = some text := by
  rw [fillUp, if_neg (Nat.not_le_of_lt hshort)]

theorem fillUp_spec (hcapacity : 0 < capacity) (text tail segment : List UInt8) (htext : tail ++ segment = text)
    (hroom : tail.length ≤ capacity) (behind : List (List UInt8)) :
    (fillUp charSet capacity text = none → Ends charSet capacity tail (leave 0 segment behind) true) ∧
      ∀ buffer, fillUp charSet capacity text = some buffer → buffer.length < capacity ∧
        (∀ more, charSet.characters.WellFormed (text ++ more) ↔ charSet.characters.WellFormed (buffer ++ more)) ∧
        ∀ r, Ends charSet capacity buffer behind r → Ends charSet capacity tail (leave 0 segment behind) r := by
  induction text using fillUp.induct charSet capacity generalizing tail segment with
  | case1 text hfull hnone =>
    have heq : fillUp charSet capacity text = none := by
      rw [fillUp, if_pos hfull]
      split
      · rfl
      · rename_i n hn
        rw [hnone] at hn
        cases hn
    refine ⟨fun _ => .of_same (readOn_take tail segment behind) ?_,
      fun buffer hsome => by rw [heq] at hsome; cases hsome⟩
    rw [take_window hroom, htext]
    refine .raised (gather_full (window_length hfull) _) ⟨fun hnil => ?_, hnone⟩
    have := window_length hfull
    rw [hnil] at this
    exact absurd this (Nat.not_le_of_lt hcapacity)
  | case2 text hfull n hfront ih =>
    have hnot : ¬charSet.characters.Undecided (text.take capacity) := fun hundecided => by
      rw [hundecided.2] at hfront
      cases hfront
    have heq : fillUp charSet capacity text =
        fillUp charSet capacity (charSet.characters.rest (text.take capacity) ++ text.drop capacity) := by
      rw [fillUp, if_pos hfull]
      split
      · rename_i hnone
        rw [hnone] at hfront
        cases hfront
      · rfl
    have hshort : (charSet.characters.rest (text.take capacity)).length ≤ capacity :=
      Nat.le_trans (charSet.characters.rest_suffix _).length_le (length_take_le ..)
    -- the full buffer is checked, and the rest of the segment read behind what is left of it
    have hturn : ∀ r, Ends charSet capacity (charSet.characters.rest (text.take capacity)) (leave 0 (text.drop capacity)
        behind) r → Ends charSet capacity tail (leave 0 segment behind) r := fun r hends => by
      refine .of_same (readOn_take tail segment behind) ?_
      rw [take_window hroom, htext]
      refine .on (gather_full (window_length hfull) _) hnot ?_
      rwa [leave_eq, drop_zero, ← htext, ← drop_window hroom, ← leave_eq, htext] at hends
    obtain ⟨hnone, hsome⟩ := ih _ _ rfl hshort
    rw [heq]
    refine ⟨fun h => hturn true (hnone h), fun buffer hbuffer => ?_⟩
    obtain ⟨hlt, hwell, hends⟩ := hsome buffer hbuffer
    refine ⟨hlt, fun more => ?_, fun r h => hturn r (hends r h)⟩
    rw [← hwell more, append_assoc, ← PrefixCode.wellFormed_append_iff, ← append_assoc, take_append_drop]
  | case3 text hshort =>
    have hfits : segment.length ≤ capacity - tail.length := by
      rw [← htext, length_append] at hshort
      omega
    rw [fillUp_short (Nat.lt_of_not_le hshort)]
    refine ⟨fun hnone => absurd hnone (Option.some_ne_none text), fun buffer hsome => ?_⟩
    cases hsome
    refine ⟨Nat.lt_of_not_le hshort, fun more => Iff.rfl, fun r hends => .of_same (readOn_take tail segment behind) ?_⟩
    rw [take_of_length_le hfits, htext, leave, if_neg (Nat.not_lt_of_le hfits)]
    exact hends

/-- The check ends, and raises the error exactly if the content is not well formed or it cannot decide. -/
theorem ends_iff (hcapacity : 0 < capacity) (segments : List (List UInt8)) (buffer : List UInt8)
    (hroom : buffer.length < capacity) : ∃ raised, Ends charSet capacity buffer segments raised ∧
      (raised = true ↔ ¬charSet.characters.WellFormed (buffer ++ segments.flatten) ∨
        ¬Decided charSet capacity buffer segments) := by
  induction segments generalizing buffer with
  | nil =>
    refine ⟨_, .nil hroom, ?_⟩
    rw [flatten_nil, append_nil, PrefixCode.wellFormed_iff, decide_eq_true_iff, Decided, not_true_eq_false, or_false]
  | cons segment behind ih =>
    by_cases hempty : segment = []
    · subst hempty
      have hgather := gather_empty (Nat.sub_pos_of_lt hroom) behind
      by_cases hundecided : charSet.characters.Undecided buffer
      · refine ⟨true, .raised hgather hundecided, fun _ => .inr fun hdecided => ?_, fun _ => rfl⟩
        exact hdecided.1 hundecided
      · have hshort := (charSet.characters.rest_suffix buffer).length_le
        obtain ⟨raised, hends, hiff⟩ := ih (charSet.characters.rest buffer) (by omega)
        refine ⟨raised, .on hgather hundecided hends, ?_⟩
        rw [hiff, flatten_cons, nil_append, Decided, ← PrefixCode.wellFormed_append_iff]
        simp only [hundecided, not_false_eq_true, true_and]
    · have hleave := leave_zero hempty behind
      obtain ⟨hnone, hsome⟩ := fillUp_spec hcapacity _ buffer segment rfl (Nat.le_of_lt hroom) behind
      rw [hleave] at hnone hsome
      have hdecided : Decided charSet capacity buffer (segment :: behind) ↔
          ∃ buffer', fillUp charSet capacity (buffer ++ segment) = some buffer' ∧
          Decided charSet capacity buffer' behind := by
        rw [Decided]
        exact hempty
      rw [hdecided]
      cases hfill : fillUp charSet capacity (buffer ++ segment) with
      | none =>
        refine ⟨true, hnone hfill, fun _ => .inr ?_, fun _ => rfl⟩
        rintro ⟨buffer', hnot, -⟩
        cases hnot
      | some buffer' =>
        obtain ⟨hlt, hwell, hends⟩ := hsome buffer' hfill
        obtain ⟨raised, hraised, hiff⟩ := ih buffer' hlt
        refine ⟨raised, hends raised hraised, ?_⟩
        rw [hiff, flatten_cons, ← append_assoc, hwell]
        constructor
        · rintro (hnot | hnot)
          · exact .inl hnot
          · refine .inr ?_
            rintro ⟨_, hsame, hyes⟩
            cases hsame
            exact hnot hyes
        · rintro (hnot | hnot)
          · exact .inl hnot
          · exact .inr fun hyes => hnot ⟨buffer', rfl, hyes⟩

theorem blbCheckWellFormed_spec (hcapacity : 0 < capacity) (h : Holds blob segments) :
    ∃ raised turns, (∀ fuel ≥ turns, blbCheckWellFormed charSet capacity fuel blob = some raised) ∧
      (raised = true ↔ ¬charSet.characters.WellFormed segments.flatten ∨ ¬Decided charSet capacity [] segments) := by
  obtain ⟨raised, ⟨turns, hturns⟩, hiff⟩ := ends_iff hcapacity segments [] hcapacity
  refine ⟨raised, turns + 1, fun fuel hfuel => ?_, hiff⟩
  obtain ⟨fuel, rfl⟩ : ∃ m, fuel = m + 1 := ⟨fuel - 1, by omega⟩
  exact checkFromBlob_of_readOn h (hturns fuel (by omega))

end

/-- The check ends, and what it says is the truth exactly if it can decide a content that is well formed. -/
theorem wellFormed_checked_iff (charSet : CharSet) (capacity : Nat) (hcapacity : 0 < capacity) (blob : Blob)
    (segments : List (List UInt8)) (h : Holds blob segments) :
    ∃ raised turns, (∀ fuel ≥ turns, blbCheckWellFormed charSet capacity fuel blob = some raised) ∧
      ((raised = true ↔ ¬charSet.characters.WellFormed segments.flatten) ↔
        (charSet.characters.WellFormed segments.flatten → Decided charSet capacity [] segments)) := by
  obtain ⟨raised, turns, hturns, hiff⟩ := blbCheckWellFormed_spec hcapacity h
  refine ⟨raised, turns, hturns, ?_⟩
  rw [hiff]
  constructor
  · intro hraised hwell
    by_contra hnot
    exact hraised.mp (.inr hnot) hwell
  · intro hdecided
    constructor
    · rintro (hnot | hnot) hwell
      · exact hnot hwell
      · exact hnot (hdecided hwell)
    · exact .inl

/-- One character cut into two segments. -/
theorem wellFormed_checked_cut : ∃ turns, ∀ fuel ≥ turns, blbCheckWellFormed big5 512 fuel
    ⟨true, [], some [1, 0, 0xA4, 1, 0, 0x40], 0, false⟩ = some false := by
  obtain ⟨raised, turns, hturns, hiff⟩ :=
    wellFormed_checked_iff big5 512 (by simp) _ [[0xA4], [0x40]] (Holds.ofSegments [[0xA4], [0x40]] (by simp))
  have hwell : big5.characters.WellFormed [0xA4, 0x40] :=
    .word (show big5.characters.front [0xA4, 0x40] = some 2 from rfl) .nil
  have hdecided : Decided big5 512 [] [[0xA4], [0x40]] := by
    exact ⟨[0xA4], fillUp_short (by simp), [0xA4, 0x40], fillUp_short (by simp), trivial⟩
  refine ⟨turns, fun fuel hfuel => ?_⟩
  have hfalse : raised = false := by
    by_contra hnot
    exact (hiff.mpr fun _ => hdecided).mp (Bool.not_eq_false _ ▸ hnot) hwell
  exact (hturns fuel hfuel).trans (congrArg some hfalse)

/-- An empty segment between the two: the error is raised for a content that is well formed. -/
theorem wellFormed_raised_empty : big5.characters.WellFormed [0xA4, 0x40] ∧
    Holds ⟨true, [], some [1, 0, 0xA4, 0, 0, 1, 0, 0x40], 0, false⟩ [[0xA4], [], [0x40]] ∧
    ∃ turns, ∀ fuel ≥ turns, blbCheckWellFormed big5 512 fuel
      ⟨true, [], some [1, 0, 0xA4, 0, 0, 1, 0, 0x40], 0, false⟩ = some true := by
  have hholds : Holds ⟨true, [], some [1, 0, 0xA4, 0, 0, 1, 0, 0x40], 0, false⟩ [[0xA4], [], [0x40]] :=
    Holds.ofSegments [[0xA4], [], [0x40]] (by simp)
  refine ⟨.word (show big5.characters.front [0xA4, 0x40] = some 2 from rfl) .nil, hholds, ?_⟩
  obtain ⟨raised, turns, hturns, hiff⟩ := blbCheckWellFormed_spec (show 0 < 512 by simp) hholds
  refine ⟨turns, fun fuel hfuel => (hturns fuel hfuel).trans (congrArg some (hiff.mpr (.inr ?_)))⟩
  rintro ⟨buffer, hfill, hdecided, -⟩
  rw [fillUp_short (by simp)] at hfill
  cases hfill
  exact hdecided ⟨cons_ne_nil _ _, rfl⟩

end Firebird.Blb
