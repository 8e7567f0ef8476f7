import Firebird.Btr.KeyOrder
import Firebird.Lib.ByteOrder

/-! # Keys of descending indexes

The key of the only segment of a descending index is complemented. Values that would begin like the key of `NULL` get an
escape byte, and zero bytes at the end are cut off (`compress` and `BTR_complement_key`, `src/jrd/btr.cpp`). -/

namespace Firebird.Btr
open Lib List

/-! ### Values of an index -/

def isValidDate (date : Int) : Prop := -678575 ≤ date ∧ date ≤ 2973483

def isValidTime (time : Nat) : Prop := time < 24 * 3600 * 10000

/-- A value as it is stored in a column: `EXE_assignment` lets no other dates and times pass. -/
def Desc.Valid (desc : Desc) (columnLength : Nat) : IType → Prop
  | .string | .byteArray => desc.string.length ≤ columnLength
  | .sqlDate => isValidDate desc.sqlDate
  | .sqlTime => isValidTime desc.sqlTime
  | .timestamp => isValidDate desc.timestamp.1 ∧ isValidTime desc.timestamp.2
  | .boolean => True

instance (date : Int) : Decidable (isValidDate date) := inferInstanceAs (Decidable (_ ∧ _))

instance (time : Nat) : Decidable (isValidTime time) := inferInstanceAs (Decidable (_ < _))

instance (desc : Desc) (columnLength : Nat) : (itype : IType) → Decidable (desc.Valid columnLength itype)
  | .string | .byteArray => inferInstanceAs (Decidable (_ ≤ _))
  | .sqlDate => inferInstanceAs (Decidable (isValidDate _))
  | .sqlTime => inferInstanceAs (Decidable (isValidTime _))
  | .timestamp => inferInstanceAs (Decidable (isValidDate _ ∧ isValidTime _))
  | .boolean => inferInstanceAs (Decidable True)

def getSegmentLength (itype : IType) (columnLength ilength : Nat) : Nat :=
  match itype with
  | .sqlTime | .sqlDate => 4
  | .timestamp => 8
  | .boolean => 1
  | .string | .byteArray => if ilength = 0 then columnLength else ilength

def btrKeyLength (itype : IType) (columnLength ilength : Nat) : Nat := getSegmentLength itype columnLength ilength + 1

def maxPageSize : Nat := 32768

def Creatable (pageSize : Nat) (itype : IType) (columnLength ilength : Nat) : Prop :=
  (btrKeyLength itype columnLength ilength + 7) / 8 * 8 < pageSize / 4

instance (pageSize : Nat) (itype : IType) (columnLength ilength : Nat) :
    Decidable (Creatable pageSize itype columnLength ilength) := inferInstanceAs (Decidable (_ < _))

def cvt2Compare (itype : IType) (desc desc' : Desc) : Ordering :=
  match itype with
  | .string => comparePadded 32 desc.string desc'.string
  | .byteArray => comparePadded 0 desc.string desc'.string
  | .sqlDate => compare desc.sqlDate desc'.sqlDate
  | .sqlTime => compare desc.sqlTime desc'.sqlTime
  | .timestamp => (compare desc.timestamp.1 desc'.timestamp.1).then (compare desc.timestamp.2 desc'.timestamp.2)
  | .boolean => compare desc.boolean desc'.boolean

def Desc.cut (desc : Desc) (ilength : Nat) : Desc :=
  { desc with string := if ilength ≠ 0 ∧ ilength ≤ desc.string.length then desc.string.take ilength else desc.string }

def descendingKey (itype : IType) (ilength : Nat) (desc : Option Desc) : List UInt8 :=
  complementKey (compress desc itype ilength true).1

/-- The keys of two values are in the reverse order of these, and that of `NULL` is behind them. -/
structure Reversed (key : Option Desc → List UInt8) (order : Ordering) (desc desc' : Desc) : Prop where
  le : StringLe true (key (some desc)) (key (some desc')) ↔ order ≠ .lt
  eq : key (some desc) = key (some desc') ↔ order = .eq
  null : key none = [0xFF]
  behind : StringLe true (key (some desc)) (key none)
  ne : key (some desc) ≠ key none

variable {a b : List UInt8} {desc desc' : Desc} {itype : IType} {pageSize columnLength ilength : Nat}

/-- Strings that begin like the key of `NULL`, behind the escape byte. -/
def escaped : List UInt8 → List UInt8
  | [] => [1]
  | byte :: l => if byte < 2 then 1 :: byte :: l else byte :: l

theorem compare_one_of_not_lt {byte : UInt8} (h : ¬byte < 2) : compare 1 byte = .lt := by
  refine Std.compare_eq_lt.mpr (UInt8.lt_iff_toNat_lt.mpr ?_)
  change ¬byte.toNat < 2 at h
  change 1 < byte.toNat
  omega

theorem compare_nil_escaped (y : UInt8) (b : List UInt8) : compare (escaped []) (escaped (y :: b)) = .lt := by
  by_cases hy : y < 2
  · rw [escaped, escaped, if_pos hy]
    rfl
  · rw [escaped, escaped, if_neg hy, List.compare_cons_cons, compare_one_of_not_lt hy]
    rfl

theorem compare_of_escape {x y : UInt8} (hx : x < 2) (hy : ¬y < 2) (a b : List UInt8) :
    compare (escaped (x :: a)) (escaped (y :: b)) = .lt ∧ compare (x :: a) (y :: b) = .lt := by
  have hlt : compare x y = .lt :=
    Std.compare_eq_lt.mpr (UInt8.lt_iff_toNat_lt.mpr (by rw [UInt8.lt_iff_toNat_lt] at hx hy; omega))
  rw [escaped, escaped, if_pos hx, if_neg hy, List.compare_cons_cons, List.compare_cons_cons,
    compare_one_of_not_lt hy, hlt]
  exact ⟨rfl, rfl⟩

theorem compare_escaped (a b : List UInt8) : compare (escaped a) (escaped b) = compare a b := by
  cases a with
  | nil =>
    cases b with
    | nil => rfl
    | cons y b => rw [compare_nil_escaped, List.compare_nil_cons]
  | cons x a =>
    cases b with
    | nil => rw [compare_swap, compare_nil_escaped, compare_swap, List.compare_nil_cons]
    | cons y b =>
      by_cases hx : x < 2
      · by_cases hy : y < 2
        · rw [escaped, escaped, if_pos hx, if_pos hy, List.compare_cons_cons]
          rfl
        · rw [(compare_of_escape hx hy a b).1, (compare_of_escape hx hy a b).2]
      · by_cases hy : y < 2
        · rw [compare_swap, (compare_of_escape hy hx b a).1, compare_swap, (compare_of_escape hy hx b a).2]
        · rw [escaped, escaped, if_neg hx, if_neg hy]

theorem escaped_cons (l : List UInt8) (byte : UInt8) :
    escaped (byte :: l) = if startsLikeEnd (byte :: l) then descEndValuePrefix :: byte :: l else byte :: l := by
  have hiff : byte < 2 ↔ (byte == descEndValuePrefix || byte == descEndValueCheck) = true := by
    rw [Bool.or_eq_true, beq_iff_eq, beq_iff_eq, ← UInt8.toNat_inj, ← UInt8.toNat_inj]
    change byte.toNat < 2 ↔ byte.toNat = 1 ∨ byte.toNat = 0
    omega
  rw [escaped, startsLikeEnd]
  by_cases h : byte < 2
  · rw [if_pos h, if_pos (hiff.mp h)]
    rfl
  · rw [if_neg h, if_neg fun hends => h (hiff.mpr hends)]

theorem trim_cons (byte : UInt8) (l : List UInt8) : trim 0 (byte :: l) = byte :: stripped 0 l := by
  have hstripped : ∀ l : List UInt8, (l.reverse.dropWhile (· == 0)).reverse = stripped 0 l := fun _ => rfl
  have hnil : ∀ l : List UInt8, l.all (· == 0) → stripped 0 l = [] := fun l hall =>
    rdropWhile_eq_nil_iff.mpr fun x hx => all_eq_true.mp hall x hx
  unfold trim
  rw [hstripped, all_cons]
  by_cases hbyte : byte = 0
  · by_cases hall : l.all (· == 0) = true
    · rw [if_pos (by rw [hbyte, hall]; rfl), hnil l hall]
      rfl
    · have hne : stripped 0 l ≠ [] := fun hnone => hall (all_eq_true.mpr (rdropWhile_eq_nil_iff.mp hnone))
      rw [if_neg (by simp [hall]), stripped_cons, if_neg fun hboth => hne hboth.2]
  · rw [if_neg (by simp [hbyte]), stripped_cons_of_ne hbyte]

theorem compressString_eq {string : List UInt8}
    (h : (if ilength ≠ 0 ∧ ilength ≤ string.length then string.take ilength else string).length < keyDataSize) :
    (compressString 0 ilength true string).1 =
      escaped (stripped 0 (if ilength ≠ 0 ∧ ilength ≤ string.length then string.take ilength else string)) := by
  unfold compressString
  dsimp only
  revert h
  generalize (if ilength ≠ 0 ∧ ilength ≤ string.length then string.take ilength else string) = used
  intro h
  cases used with
  | nil => rfl
  | cons byte l =>
    have hmin : min (byte :: l).length keyDataSize = (byte :: l).length := Nat.min_eq_left h.le
    have hmin' : min (byte :: l).length (keyDataSize - 1) = (byte :: l).length := Nat.min_eq_left (Nat.le_pred_of_lt h)
    rw [if_pos (by exact Nat.succ_ne_zero l.length), hmin, hmin', take_length, apply_ite Prod.fst]
    rw [trim_cons, trim_cons]
    by_cases hzero : byte = 0 ∧ stripped 0 l = []
    · rw [stripped_cons, if_pos hzero, hzero.1]
      rfl
    · rw [stripped_cons, if_neg hzero, escaped_cons]
      rfl

theorem compressFixed_eq (byte : UInt8) (l : List UInt8) :
    compressFixed true (byte :: l) = escaped ((byte ^^^ 128) :: stripped 0 l) := by
  unfold compressFixed zapSign
  rw [trim_cons, escaped_cons]
  rfl

theorem zapSign_length (l : List UInt8) : (zapSign l).length = l.length := by
  cases l <;> rfl

theorem compare_compressFixed (h : a.length = b.length) (ha : a ≠ []) :
    compare (compressFixed true a) (compressFixed true b) = compare (zapSign a) (zapSign b) := by
  cases a with
  | nil => exact absurd rfl ha
  | cons x a =>
    cases b with
    | nil => exact nomatch h
    | cons y b =>
      rw [compressFixed_eq, compressFixed_eq, compare_escaped, List.compare_cons_cons, zapSign, zapSign,
        List.compare_cons_cons, ← comparePadded_eq least_zero, comparePadded_of_length_eq 0 (Nat.succ.inj h)]

theorem bigEndian_length (size : Nat) (n : Int) : (bigEndian size n).length = size := by
  rw [bigEndian, length_reverse, leBytes_length]

theorem beValue_bigEndian (size : Nat) (n : Int) : (beValue (bigEndian size n) : Int) = n % 256 ^ size := by
  have hpos : (0 : Int) < 256 ^ size := Int.pow_pos (by decide)
  have hnonneg := Int.toNat_of_nonneg (Int.emod_nonneg n hpos.ne')
  have hlt : (n % 256 ^ size).toNat < 256 ^ size := by
    refine Int.ofNat_lt.mp ?_
    rw [hnonneg]
    exact Int.emod_lt_of_pos n hpos
  rw [bigEndian, beValue_reverse, leValue_leBytes_of_lt hlt, hnonneg]

def FitsSigned (size : Nat) (n : Int) : Prop := -(128 * 256 ^ size) ≤ n ∧ n < 128 * 256 ^ size

theorem beValue_zapSign {size : Nat} {n : Int} (h : FitsSigned size n) :
    (beValue (zapSign (bigEndian (size + 1) n)) : Int) = n + 128 * 256 ^ size := by
  have hvalue := beValue_bigEndian (size + 1) n
  have hlength := bigEndian_length (size + 1) n
  cases hbytes : bigEndian (size + 1) n with
  | nil =>
    rw [hbytes] at hlength
    exact nomatch hlength
  | cons byte l =>
    rw [hbytes] at hvalue hlength
    have hl : l.length = size := Nat.succ.inj hlength
    have hlt := beValue_lt l
    have hlt' : (beValue l : Int) < 256 ^ size := by exact_mod_cast hl ▸ hlt
    obtain ⟨hlow, hhigh⟩ := h
    rw [zapSign, beValue, hl, toNat_xor_128]
    rw [beValue, hl, Int.pow_succ] at hvalue
    have hmod : n % (256 ^ size * 256) = n ∨ n % (256 ^ size * 256) = n + 256 ^ size * 256 := by
      rcases Int.lt_or_le n 0 with hneg | hnonneg
      · right
        rw [← Int.add_emod_right, Int.emod_eq_of_lt (by omega) (by omega)]
      · exact .inl (Int.emod_eq_of_lt hnonneg (by omega))
    by_cases hsmall : byte.toNat < 128
    · have htop : byte.toNat * 256 ^ size ≤ 127 * 256 ^ size := Nat.mul_le_mul_right _ (Nat.le_of_lt_succ hsmall)
      have htop' : (byte.toNat : Int) * 256 ^ size ≤ 127 * 256 ^ size := by exact_mod_cast htop
      rw [if_pos hsmall, Nat.add_mul]
      push_cast at hvalue ⊢
      rcases hmod with hmod | hmod <;> omega
    · have htop : 128 * 256 ^ size ≤ byte.toNat * 256 ^ size := Nat.mul_le_mul_right _ (Nat.not_lt.mp hsmall)
      have htop' : (128 * 256 ^ size : Int) ≤ byte.toNat * 256 ^ size := by exact_mod_cast htop
      rw [if_neg hsmall, Nat.sub_mul, Nat.cast_add, Nat.cast_sub htop]
      push_cast at hvalue ⊢
      rcases hmod with hmod | hmod <;> omega

theorem compare_zapSign {size : Nat} {n m : Int} (hn : FitsSigned size n) (hm : FitsSigned size m) :
    compare (zapSign (bigEndian (size + 1) n)) (zapSign (bigEndian (size + 1) m)) = compare n m := by
  have hlength : (zapSign (bigEndian (size + 1) n)).length = (zapSign (bigEndian (size + 1) m)).length := by
    rw [zapSign_length, zapSign_length, bigEndian_length, bigEndian_length]
  have hvalue := beValue_zapSign hn
  have hvalue' := beValue_zapSign hm
  rw [compare_beValue hlength]
  cases hnm : compare n m with
  | lt =>
    have hlt : n < m := Std.compare_eq_lt.mp hnm
    exact Std.compare_eq_lt.mpr (by omega)
  | eq =>
    obtain rfl : n = m := Std.LawfulEqCmp.eq_of_compare hnm
    exact compare_refl _
  | gt =>
    have hlt : m < n := Std.compare_eq_gt.mp hnm
    exact Std.compare_eq_gt.mpr (by omega)

theorem compare_compressFixed_bigEndian {size : Nat} {n m : Int} (hn : FitsSigned size n) (hm : FitsSigned size m) :
    compare (compressFixed true (bigEndian (size + 1) n)) (compressFixed true (bigEndian (size + 1) m)) = compare
    n m := by
  rw [compare_compressFixed (by rw [bigEndian_length, bigEndian_length]) (bigEndian_ne_nil size n),
    compare_zapSign hn hm]

theorem fitsSigned_date {date : Int} (h : isValidDate date) : FitsSigned 3 date := by
  obtain ⟨hlow, hhigh⟩ := h
  constructor <;> omega

theorem fitsSigned_time {time : Nat} (h : isValidTime time) : FitsSigned 3 time := by
  unfold isValidTime at h
  constructor <;> omega

theorem fitsSigned_timestamp {date : Int} {time : Nat} (hdate : isValidDate date) (htime : isValidTime time) :
    FitsSigned 7 (date * (24 * 60 * 60 * 10000) + time) := by
  obtain ⟨hlow, hhigh⟩ := hdate
  unfold isValidTime at htime
  constructor <;> omega

theorem compare_timestamp {date date' : Int} {time time' : Nat} (h : isValidTime time) (h' : isValidTime time') :
    compare (date * (24 * 60 * 60 * 10000) + time) (date' * (24 * 60 * 60 * 10000) + time') =
      (compare date date').then (compare time time') := by
  unfold isValidTime at h h'
  cases hdate : compare date date' with
  | lt =>
    have hlt : date < date' := Std.compare_eq_lt.mp hdate
    exact Std.compare_eq_lt.mpr (by omega)
  | eq =>
    obtain rfl : date = date' := Std.LawfulEqCmp.eq_of_compare hdate
    rw [Ordering.then, ← compare_natCast]
    cases htime : compare (time : Int) (time' : Int) with
    | lt => exact Std.compare_eq_lt.mpr (Int.add_lt_add_left (Std.compare_eq_lt.mp htime) _)
    | eq => rw [show (time : Int) = time' from Std.LawfulEqCmp.eq_of_compare htime, compare_refl]
    | gt => exact Std.compare_eq_gt.mpr (Int.add_lt_add_left (Std.compare_eq_gt.mp htime) _)
  | gt =>
    have hlt : date' < date := Std.compare_eq_gt.mp hdate
    exact Std.compare_eq_gt.mpr (by omega)

theorem complementKey_le_iff (a b : List UInt8) :
    StringLe true (complementKey a) (complementKey b) ↔ compare b a ≠ .gt := by
  rw [complementKey, complementKey, stringLe_map_iff complement_lt_iff complement_injective, stringLe_false_iff]

theorem complementKey_inj : complementKey a = complementKey b ↔ a = b :=
  (map_injective_iff.mpr complement_injective).eq_iff

theorem compare_zero_escaped (l : List UInt8) : compare [0] (escaped l) = .lt := by
  cases l with
  | nil => rfl
  | cons byte l =>
    by_cases hbyte : byte < 2
    · rw [escaped, if_pos hbyte]
      rfl
    · have hlt : compare 0 byte = .lt := by
        refine Std.compare_eq_lt.mpr (UInt8.lt_iff_toNat_lt.mpr ?_)
        change ¬byte.toNat < 2 at hbyte
        change 0 < byte.toNat
        omega
      rw [escaped, if_neg hbyte, List.compare_cons_cons, hlt]
      rfl

section
variable (hpage : pageSize ≤ maxPageSize) (hindex : Creatable pageSize itype columnLength ilength)
  (h : desc.Valid columnLength itype)
include hpage hindex h

theorem length_lt_keyDataSize (hitype : itype = .byteArray) :
    (desc.cut ilength).string.length < keyDataSize := by
  subst hitype
  change ((if ilength = 0 then columnLength else ilength) + 1 + 7) / 8 * 8 < pageSize / 4 at hindex
  unfold maxPageSize at hpage
  have hstring : desc.string.length ≤ columnLength := h
  change (if ilength ≠ 0 ∧ ilength ≤ desc.string.length then desc.string.take ilength else desc.string).length < 8193
  by_cases hzero : ilength = 0
  · rw [if_pos hzero] at hindex
    rw [if_neg fun hboth => hboth.1 hzero]
    omega
  · rw [if_neg hzero] at hindex
    by_cases hle : ilength ≤ desc.string.length
    · rw [if_pos ⟨hzero, hle⟩, length_take]
      omega
    · rw [if_neg fun hboth => hle hboth.2]
      omega

theorem compare_compress (hitype : itype ≠ .string) (h' : desc'.Valid columnLength itype) :
    compare (compress (some desc) itype ilength true).1 (compress (some desc') itype ilength true).1 =
      cvt2Compare itype (desc.cut ilength) (desc'.cut ilength) := by
  cases itype with
  | string => exact absurd rfl hitype
  | byteArray =>
    have hlt := length_lt_keyDataSize hpage hindex h rfl
    have hlt' := length_lt_keyDataSize hpage hindex h' rfl
    refine (congrArg₂ compare (compressString_eq hlt) (compressString_eq hlt')).trans ?_
    rw [compare_escaped, ← comparePadded_eq least_zero]
    rfl
  | sqlDate => exact compare_compressFixed_bigEndian (fitsSigned_date h) (fitsSigned_date h')
  | sqlTime =>
    rw [cvt2Compare, ← compare_natCast]
    exact compare_compressFixed_bigEndian (fitsSigned_time h) (fitsSigned_time h')
  | timestamp =>
    have hbytes := compare_compressFixed_bigEndian (fitsSigned_timestamp h.1 h.2) (fitsSigned_timestamp h'.1 h'.2)
    exact hbytes.trans (compare_timestamp h.2 h'.2)
  | boolean =>
    change compare (compressFixed true (bigEndian 1 (if desc.boolean then 1 else 0)))
      (compressFixed true (bigEndian 1 (if desc'.boolean then 1 else 0))) = compare desc.boolean desc'.boolean
    cases desc.boolean <;> cases desc'.boolean <;> decide

theorem compress_eq_escaped (hitype : itype ≠ .string) :
    ∃ l, (compress (some desc) itype ilength true).1 = escaped l := by
  have hfixed : ∀ (size : Nat) (n : Int), ∃ l, compressFixed true (bigEndian (size + 1) n) = escaped l := by
    intro size n
    obtain ⟨byte, l, hl⟩ := exists_cons_of_ne_nil (bigEndian_ne_nil size n)
    exact ⟨_, by rw [hl, compressFixed_eq]⟩
  cases itype with
  | string => exact absurd rfl hitype
  | byteArray => exact ⟨_, compressString_eq (length_lt_keyDataSize hpage hindex h rfl)⟩
  | sqlDate | sqlTime | timestamp | boolean => exact hfixed _ _

end

/-- Descending keys of one segment are in the reverse order of what the segment takes of the values. -/
theorem descendingKey_reversed (hpage : pageSize ≤ maxPageSize) (hindex : Creatable pageSize itype columnLength ilength)
    (hitype : itype ≠ .string) (h : desc.Valid columnLength itype) (h' : desc'.Valid columnLength itype) :
    Reversed (descendingKey itype ilength) (cvt2Compare itype (desc.cut ilength) (desc'.cut ilength)) desc desc' := by
  have hcompare := compare_compress hpage hindex h hitype h'
  obtain ⟨l, hl⟩ := compress_eq_escaped hpage hindex h hitype
  refine ⟨?_, ?_, rfl, ?_, ?_⟩
  · rw [descendingKey, descendingKey, complementKey_le_iff, compare_swap, hcompare]
    cases cvt2Compare itype (desc.cut ilength) (desc'.cut ilength) <;> decide
  · rw [descendingKey, descendingKey, complementKey_inj, ← hcompare]
    exact Std.LawfulEqOrd.compare_eq_iff_eq.symm
  · rw [descendingKey, descendingKey, complementKey_le_iff, hl]
    show compare [0] (escaped l) ≠ .gt
    rw [compare_zero_escaped]
    decide
  · rw [descendingKey, descendingKey, Ne, complementKey_inj, hl]
    intro heq
    change escaped l = [0] at heq
    have hless := compare_zero_escaped l
    rw [heq] at hless
    exact absurd hless (by decide)

/-- Two byte strings, the lesser one with an escaped key. -/
theorem descendingKey_reversed_strings :
    Reversed (descendingKey .byteArray 0) .lt ⟨[1, 200], 0, 0, (0, 0), false⟩ ⟨[65], 0, 0, (0, 0), false⟩ :=
  @descendingKey_reversed ⟨[1, 200], 0, 0, (0, 0), false⟩ ⟨[65], 0, 0, (0, 0), false⟩ .byteArray 8192 10 0
    (by decide) (by decide) (by decide) (by decide) (by decide)

/-- A segment that takes one byte of each value does not tell these apart. -/
theorem descendingKey_same_of_cut : ¬∀ (pageSize columnLength ilength : Nat) (itype : IType) (desc desc' : Desc),
    pageSize ≤ maxPageSize → Creatable pageSize itype columnLength ilength → itype ≠ .string →
      desc.Valid columnLength itype → desc'.Valid columnLength itype →
        Reversed (descendingKey itype ilength) (cvt2Compare itype desc desc') desc desc' := by
  intro h
  have hsame := (h 8192 10 1 .byteArray ⟨[97, 98], 0, 0, (0, 0), false⟩ ⟨[97, 99], 0, 0, (0, 0), false⟩
    (by decide) (by decide) (by decide) (by decide) (by decide)).eq
  exact absurd (hsame.mp (by decide)) (by decide)

end Firebird.Btr
