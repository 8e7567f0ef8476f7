import Firebird.Lib.Cells

/-! # Putting sorted records in order

`Sort::order` moves the records of the sort memory to its front, in the order of the sorted pointers
(`src/jrd/sort.cpp`), where the next record goes over others that have not been moved yet. -/

namespace Firebird.Sort
open Lib List Function

def sizeofSrBckptrInLongs : Nat := 2

/-- The part of the sort memory with the records, and the length of a record with its back pointer. -/
structure RecordArea where
  mLongs : Nat
  mLastRecord : Nat
  mEndMemory : Nat

def RecordArea.length (r : RecordArea) : Nat := r.mLongs - sizeofSrBckptrInLongs

def move (mem : Nat → UInt32) (n src dst : Nat) : Nat → UInt32 := store mem dst (cells mem src n)

/-- The back pointer of the record at `a`: the place of its entry in the pointers, or 0 for NULL. -/
def srBckptr (mem : Nat → UInt32) (a : Nat) : Nat := (mem a).toNat + 2 ^ 32 * (mem (a + 1)).toNat

variable {mem mem' : Nat → UInt32} {a b x n : Nat} {ws : List UInt32}

theorem srBckptr_eq_cells (mem : Nat → UInt32) (a : Nat) :
    srBckptr mem a = (cells mem a 2).foldr (fun w n => w.toNat + 2 ^ 32 * n) 0 := by
  simp [srBckptr, cells, range_succ]

theorem srBckptr_congr (h : cells mem a 2 = cells mem' b 2) : srBckptr mem a = srBckptr mem' b := by
  rw [srBckptr_eq_cells, srBckptr_eq_cells, h]

/-- The memory with its pointers to keys, and the variables of the loop. -/
structure OrderState where
  mem : Nat → UInt32
  pointers : Nat → Option Nat
  output : Nat
  lowerLimit : Nat

variable (r : RecordArea)

/-- Advance the lower limit over deleted and used records. -/
def advance (mem : Nat → UInt32) : Nat → Nat → Nat
  | 0, lowerLimit => lowerLimit
  | fuel + 1, lowerLimit =>
    if srBckptr mem lowerLimit = 0 ∧ lowerLimit < r.mEndMemory then advance mem fuel
      (lowerLimit + r.mLongs) else lowerLimit

def orderStep (s : OrderState) (ptr : Nat) : OrderState :=
  match s.pointers ptr with
  | none => s
  | some key =>
    let record := key - sizeofSrBckptrInLongs
    let lowerLimit := advance r s.mem (r.mEndMemory - s.lowerLimit) s.lowerLimit
    let output := s.output + r.length
    if key = lowerLimit then { s with mem := move s.mem r.length key s.output, output, lowerLimit }
    else if s.output + r.mLongs - 1 ≤ lowerLimit then
      let mem := store s.mem record [0, 0]
      { s with mem := move mem r.length key s.output, output, lowerLimit }
    else
      -- another record sits where this one goes: it moves to the place of this one
      let buffer := cells s.mem key r.length
      let pointers := update s.pointers (srBckptr s.mem lowerLimit) (some key)
      let mem := move s.mem r.mLongs lowerLimit record
      { mem := store mem s.output buffer, pointers, output, lowerLimit := lowerLimit + r.mLongs }

/-- The state before the entry `ptr`; the first entry is the low key. -/
def orderBefore (mem : Nat → UInt32) (pointers : Nat → Option Nat) (ptr : Nat) : OrderState :=
  (range' 1 (ptr - 1)).foldl (orderStep r) { mem, pointers, output := r.mLastRecord, lowerLimit := r.mLastRecord }

/-- The memory after the moves, and the number of records. -/
def order (mem : Nat → UInt32) (pointers : Nat → Option Nat) (mNextPointer : Nat) : (Nat → UInt32) × Nat :=
  let s := orderBefore r mem pointers mNextPointer
  (s.mem, (s.output - r.mLastRecord) / r.length)

/-- The number of records that `orderAndSave` allocates space for. -/
def runRecords (pointers : Nat → Option Nat) (mNextPointer : Nat) : Nat :=
  (range' 1 (mNextPointer - 1)).countP fun ptr => (pointers ptr).isSome

variable {r} {s : OrderState} {pointers : Nat → Option Nat} {count next ptr i j k l : Nat}
  {data : Nat → Option (List UInt32)}

def RecordArea.slot (r : RecordArea) (i : Nat) : Nat := r.mLastRecord + i * r.mLongs

theorem slot_succ (r : RecordArea) (i : Nat) : r.slot (i + 1) = r.slot i + r.mLongs := by
  simp only [RecordArea.slot, Nat.succ_mul, Nat.add_assoc]

theorem slot_add_le (h : i < j) : r.slot i + r.mLongs ≤ r.slot j := by
  have hmul : (i + 1) * r.mLongs ≤ j * r.mLongs := Nat.mul_le_mul_right _ h
  rw [Nat.succ_mul] at hmul
  simp only [RecordArea.slot]
  omega

theorem slot_le (h : i ≤ j) : r.slot i ≤ r.slot j := Nat.add_le_add_left (Nat.mul_le_mul_right _ h) _

theorem le_of_slot_le (hlongs : 0 < r.mLongs) (h : r.slot i ≤ r.slot j) : i ≤ j := by
  by_contra hlt
  have := slot_add_le (r := r) (Nat.lt_of_not_le hlt)
  omega

theorem advance_spec (hlongs : 0 < r.mLongs) (hend : r.mEndMemory = r.slot count) (hl : l ≤ count) (fuel : Nat)
    (hfuel : r.mEndMemory - r.slot l ≤ fuel) : ∃ l', l ≤ l' ∧ l' ≤ count ∧ advance r mem fuel (r.slot l) = r.slot l' ∧
      (∀ i, l ≤ i → i < l' → srBckptr mem (r.slot i) = 0) ∧ (l' < count → srBckptr mem (r.slot l') ≠ 0) := by
  induction fuel generalizing l with
  | zero =>
    have hle := le_of_slot_le hlongs (show r.slot count ≤ r.slot l by omega)
    exact ⟨l, Nat.le_refl l, hl, rfl, fun i h h' => absurd h' (Nat.not_lt.mpr h), fun h =>
      absurd hle (Nat.not_le.mpr h)⟩
  | succ fuel ih =>
    rw [advance]
    split
    · next hdead =>
      have hlt : l < count := by
        by_contra hge
        have := slot_le (r := r) (Nat.le_of_not_lt hge)
        omega
      rw [← slot_succ]
      have hsucc := slot_succ r l
      obtain ⟨l', hll', hl', hadvance, hskipped, hstop⟩ := ih (show l + 1 ≤ count from hlt) (by omega)
      refine ⟨l', by omega, hl', hadvance, fun i hi hil' => ?_, hstop⟩
      rcases Nat.eq_or_lt_of_le hi with rfl | hi
      · exact hdead.1
      · exact hskipped i hi hil'
    · next hlive =>
      refine ⟨l, Nat.le_refl l, hl, rfl, fun i h h' => absurd h' (Nat.not_lt.mpr h), fun hlt => ?_⟩
      have := slot_add_le (r := r) hlt
      intro hzero
      exact hlive ⟨hzero, by omega⟩

structure Places (r : RecordArea) (mem : Nat → UInt32) (key ptr i : Nat) (ws : List UInt32) : Prop where
  place : key = r.slot i + sizeofSrBckptrInLongs
  bckptr : srBckptr mem (r.slot i) = ptr
  data : cells mem key r.length = ws

/-- The pointers and the back pointers from the entry `ptr` and the place `limit` on belong together; `data` is
    what the records hold. -/
structure Linked (r : RecordArea) (count next : Nat) (data : Nat → Option (List UInt32)) (ptr limit : Nat)
    (mem : Nat → UInt32) (pointers : Nat → Option Nat) : Prop where
  eliminated : ∀ j, ptr ≤ j → j < next → pointers j = none → data j = none
  live : ∀ j key, ptr ≤ j → j < next → pointers j = some key →
    ∃ i ws, data j = some ws ∧ limit ≤ i ∧ i < count ∧ Places r mem key j i ws
  back : ∀ i, limit ≤ i → i < count → srBckptr mem (r.slot i) ≠ 0 →
    ptr ≤ srBckptr mem (r.slot i) ∧ srBckptr mem (r.slot i) < next ∧
      pointers (srBckptr mem (r.slot i)) = some (r.slot i + sizeofSrBckptrInLongs)

def recordsBefore (data : Nat → Option (List UInt32)) (ptr : Nat) : List (List UInt32) :=
  (range' 1 (ptr - 1)).filterMap data

/-- Before an entry: the records before it are in order at the front, below the lower limit; the others are all
    there. -/
structure Ordered (r : RecordArea) (count next : Nat) (data : Nat → Option (List UInt32)) (ptr : Nat) (s : OrderState) :
    Prop where
  limit : ∃ l, l ≤ count ∧ s.lowerLimit = r.slot l ∧ Linked r count next data ptr l s.mem s.pointers
  output : s.output = r.mLastRecord + (recordsBefore data ptr).flatten.length
  le : s.output ≤ s.lowerLimit
  written : cells s.mem r.mLastRecord (recordsBefore data ptr).flatten.length = (recordsBefore data ptr).flatten

theorem recordsBefore_succ (hptr : 1 ≤ ptr) :
    recordsBefore data (ptr + 1) = recordsBefore data ptr ++ (data ptr).toList := by
  rw [recordsBefore, recordsBefore, show ptr + 1 - 1 = ptr - 1 + 1 by omega, range'_concat]
  rw [show 1 + 1 * (ptr - 1) = ptr by omega]
  cases h : data ptr <;> simp [h]

section
variable (hlongs : sizeofSrBckptrInLongs < r.mLongs)
include hlongs

theorem length_eq : r.length + 2 = r.mLongs := by
  rw [RecordArea.length]
  simp only [sizeofSrBckptrInLongs] at hlongs ⊢
  omega

theorem words_mLongs (h : cells mem' a r.mLongs = cells mem b r.mLongs) :
    srBckptr mem' a = srBckptr mem b ∧
      cells mem' (a + sizeofSrBckptrInLongs) r.length = cells mem (b + sizeofSrBckptrInLongs) r.length := by
  rw [← length_eq hlongs, Nat.add_comm, cells_add, cells_add] at h
  obtain ⟨hback, hdata⟩ := append_inj h (by simp)
  exact ⟨srBckptr_congr hback, hdata⟩

theorem Places.congr {key : Nat} (h : Places r mem key ptr i ws)
    (hsame : cells mem' (r.slot i) r.mLongs = cells mem (r.slot i) r.mLongs) : Places r mem' key ptr i ws := by
  obtain ⟨hback, hdata⟩ := words_mLongs hlongs hsame
  obtain ⟨rfl, hbckptr, hws⟩ := h
  exact ⟨rfl, hback.trans hbckptr, hdata.trans hws⟩

theorem slot_inj (h : r.slot i = r.slot j) : i = j := by
  have hpos : 0 < r.mLongs := by omega
  exact Nat.le_antisymm (le_of_slot_le hpos (Nat.le_of_eq h)) (le_of_slot_le hpos (Nat.le_of_eq h.symm))

omit hlongs in
theorem Linked.advance {l' : Nat} (h : Linked r count next data ptr l mem pointers) (hptr : 1 ≤ ptr)
    (hskipped : ∀ i, l ≤ i → i < l' → srBckptr mem (r.slot i) = 0) (hle : l ≤ l') :
    Linked r count next data ptr l' mem pointers where
  eliminated := h.eliminated
  live j key hj hnext hkey := by
    obtain ⟨i, ws, hws, hli, hi, hplaces⟩ := h.live j key hj hnext hkey
    refine ⟨i, ws, hws, ?_, hi, hplaces⟩
    by_contra hlt
    have hzero := hskipped i hli (by omega)
    rw [hplaces.bckptr] at hzero
    omega
  back i hi := h.back i (by omega)

section
variable (h : Linked r count next data ptr l mem pointers)
include h

omit hlongs in
theorem Linked.eliminate (hnone : pointers ptr = none) : Linked r count next data (ptr + 1) l mem pointers where
  eliminated j hj := h.eliminated j (by omega)
  live j key hj := h.live j key (by omega)
  back i hi hcount hne := by
    obtain ⟨hle, hnext, hpointer⟩ := h.back i hi hcount hne
    refine ⟨Nat.lt_of_le_of_ne hle fun heq => ?_, hnext, hpointer⟩
    rw [← heq, hnone] at hpointer
    exact nomatch hpointer

theorem Linked.retire (hkey : pointers ptr = some (r.slot i + sizeofSrBckptrInLongs))
    (hback : srBckptr mem (r.slot i) = ptr) (hdead : srBckptr mem' (r.slot i) = 0)
    (hsame : ∀ i', l ≤ i' → i' < count → i' ≠ i → cells mem' (r.slot i') r.mLongs = cells mem (r.slot i') r.mLongs) :
    Linked r count next data (ptr + 1) l mem' pointers where
  eliminated j hj := h.eliminated j (by omega)
  live j key hj hnext hkey' := by
    obtain ⟨i', ws, hws, hli, hi, hplaces⟩ := h.live j key (by omega) hnext hkey'
    refine ⟨i', ws, hws, hli, hi, hplaces.congr hlongs (hsame i' hli hi ?_)⟩
    rintro rfl
    rw [hplaces.bckptr] at hback
    omega
  back i' hli hi hne := by
    by_cases hi' : i' = i
    · subst hi'
      exact absurd hdead hne
    rw [(words_mLongs hlongs (hsame i' hli hi hi')).1] at hne ⊢
    obtain ⟨hle, hnext, hpointer⟩ := h.back i' hli hi hne
    refine ⟨Nat.lt_of_le_of_ne hle fun heq => hi' ?_, hnext, hpointer⟩
    rw [← heq, hkey, Option.some.injEq, Nat.add_right_cancel_iff] at hpointer
    exact (slot_inj hlongs hpointer).symm

theorem Linked.displace
    (hkey : pointers ptr = some (r.slot i + sizeofSrBckptrInLongs)) (hback : srBckptr mem (r.slot i) = ptr)
    (hli : l ≤ i) (hi : i < count) (hlive : srBckptr mem (r.slot l) ≠ 0)
    (hmoved : i ≠ l → cells mem' (r.slot i) r.mLongs = cells mem (r.slot l) r.mLongs)
    (hsame : ∀ i', l < i' → i' < count → i' ≠ i → cells mem' (r.slot i') r.mLongs = cells mem (r.slot i') r.mLongs) :
    Linked r count next data (ptr + 1) (l + 1) mem'
      (update pointers (srBckptr mem (r.slot l)) (some (r.slot i + sizeofSrBckptrInLongs))) := by
  obtain ⟨hle, hnext, hpointer⟩ := h.back l (Nat.le_refl l) (by omega) hlive
  -- the record at the lower limit is the current one, or one of a later entry
  have hlater : i ≠ l → ptr < srBckptr mem (r.slot l) := by
    intro hne
    refine Nat.lt_of_le_of_ne hle fun heq => hne ?_
    rw [← heq, hkey, Option.some.injEq, Nat.add_right_cancel_iff] at hpointer
    exact slot_inj hlongs hpointer
  have hcurrent : ∀ j, ptr < j → i = l → j ≠ srBckptr mem (r.slot l) := by
    rintro j hj rfl rfl
    omega
  constructor
  · intro j hj hjnext hnone
    by_cases hb : j = srBckptr mem (r.slot l)
    · rw [hb, update_self] at hnone
      exact nomatch hnone
    · rw [update_of_ne hb] at hnone
      exact h.eliminated j (by omega) hjnext hnone
  · intro j key hj hjnext hkey'
    by_cases hb : j = srBckptr mem (r.slot l)
    · have hne : i ≠ l := fun heq => hcurrent j hj heq hb
      rw [hb, update_self] at hkey'
      obtain rfl := Option.some.inj hkey'
      obtain ⟨l', ws, hws, -, hl', hplaces⟩ := h.live j _ (by omega) hjnext (hb ▸ hpointer)
      refine ⟨i, ws, hws, by omega, hi, rfl, ?_, ?_⟩
      · exact (words_mLongs hlongs (hmoved hne)).1.trans hb.symm
      · exact (words_mLongs hlongs (hmoved hne)).2.trans hplaces.data
    · rw [update_of_ne hb] at hkey'
      obtain ⟨i', ws, hws, hli', hi', hplaces⟩ := h.live j key (by omega) hjnext hkey'
      have hne : i' ≠ i := by
        rintro rfl
        rw [hplaces.bckptr] at hback
        omega
      have hnel : i' ≠ l := by
        rintro rfl
        exact hb hplaces.bckptr.symm
      exact ⟨i', ws, hws, by omega, hi', hplaces.congr hlongs (hsame i' (by omega) hi' hne)⟩
  · intro i' hli' hi' hne
    by_cases hii : i' = i
    · subst hii
      have hnel : i' ≠ l := by omega
      rw [(words_mLongs hlongs (hmoved hnel)).1, update_self]
      exact ⟨hlater hnel, hnext, rfl⟩
    · rw [(words_mLongs hlongs (hsame i' (by omega) hi' hii)).1] at hne ⊢
      obtain ⟨hle', hnext', hpointer'⟩ := h.back i' (by omega) hi' hne
      have hneb : srBckptr mem (r.slot i') ≠ srBckptr mem (r.slot l) := by
        intro heq
        rw [heq, hpointer, Option.some.injEq, Nat.add_right_cancel_iff] at hpointer'
        have := slot_inj hlongs hpointer'
        omega
      rw [update_of_ne hneb]
      refine ⟨Nat.lt_of_le_of_ne hle' fun heq => hii ?_, hnext', hpointer'⟩
      rw [← heq, hkey, Option.some.injEq, Nat.add_right_cancel_iff] at hpointer'
      exact (slot_inj hlongs hpointer').symm

end

omit hlongs in
theorem words_written {out ws : List UInt32} (hmem : cells mem r.mLastRecord out.length = out)
    (hsame : ∀ x, r.mLastRecord ≤ x → x < r.mLastRecord + out.length → mem' x = mem x)
    (hstored : cells mem' (r.mLastRecord + out.length) ws.length = ws) :
    cells mem' r.mLastRecord (out ++ ws).length = out ++ ws := by
  rw [length_append, cells_add, hstored, cells_congr hsame, hmem]

theorem orderStep_ordered (hend : r.mEndMemory = r.slot count) (hptr : 1 ≤ ptr) (hnext : ptr < next)
    (h : Ordered r count next data ptr s) : Ordered r count next data (ptr + 1) (orderStep r s ptr) := by
  obtain ⟨⟨l, hl, hlimit, hlinked⟩, houtput, hle, hwritten⟩ := h
  have hlen := length_eq hlongs
  have hpos : 0 < r.mLongs := by omega
  rw [orderStep]
  cases hkey : s.pointers ptr with
  | none =>
    have hdata := hlinked.eliminated ptr (Nat.le_refl ptr) hnext hkey
    have hrecords : recordsBefore data (ptr + 1) = recordsBefore data ptr := by
      rw [recordsBefore_succ hptr, hdata]
      simp
    rw [← hrecords] at houtput hwritten
    exact ⟨⟨l, hl, hlimit, hlinked.eliminate hkey⟩, houtput, hle, hwritten⟩
  | some key =>
    obtain ⟨i, ws, hws, hli, hi, hplaces⟩ := hlinked.live ptr key (Nat.le_refl ptr) hnext hkey
    obtain ⟨l', hll', hl', hadvance, hskipped, hstop⟩ :=
      advance_spec hpos hend hl (r.mEndMemory - r.slot l) (Nat.le_refl _)
    have hlinked' := hlinked.advance hptr hskipped hll'
    -- the record itself is live, so the lower limit is not behind it
    have hl'i : l' ≤ i := by
      by_contra hlt
      have hzero := hskipped i hli (by omega)
      rw [hplaces.bckptr] at hzero
      omega
    have hslot := slot_le (r := r) hl'i
    have hslot' := slot_le (r := r) hll'
    obtain ⟨rfl, hback, hdata⟩ := hplaces
    have hwslen : ws.length = r.length := by rw [← hdata, length_cells]
    have hrecords : (recordsBefore data (ptr + 1)).flatten = (recordsBefore data ptr).flatten ++ ws := by
      rw [recordsBefore_succ hptr, hws]
      simp
    have houtput' : s.output + r.length = r.mLastRecord + (recordsBefore data (ptr + 1)).flatten.length := by
      rw [hrecords, length_append]
      omega
    have hrecord : r.slot i + sizeofSrBckptrInLongs - sizeofSrBckptrInLongs = r.slot i := Nat.add_sub_cancel _ _
    have hne : r.slot i + sizeofSrBckptrInLongs ≠ r.slot l' := by
      simp only [sizeofSrBckptrInLongs]
      omega
    simp only [hlimit, hadvance, hrecord, hne, if_false]
    split
    · -- the output does not reach the lower limit
      next hroom =>
      have hsame : ∀ i', l' ≤ i' → i' ≠ i → cells (move (store s.mem (r.slot i) [0, 0]) r.length
          (r.slot i + sizeofSrBckptrInLongs) s.output) (r.slot i') r.mLongs = cells s.mem (r.slot i') r.mLongs := by
        intro i' hi' hne'
        have := slot_le (r := r) hi'
        rw [move, cells_store_of_disjoint (by simp only [length_cells]; omega), cells_store_of_disjoint]
        simp only [length_cons, length_nil]
        rcases Nat.lt_or_gt_of_ne hne' with hlt | hlt
        all_goals
          have := slot_add_le (r := r) hlt
          omega
      have hdead : srBckptr (move (store s.mem (r.slot i) [0, 0]) r.length (r.slot i + sizeofSrBckptrInLongs) s.output)
          (r.slot i) = 0 := by
        rw [srBckptr_eq_cells, move, cells_store_of_disjoint (by simp only [length_cells]; omega)]
        have hnull : cells (store s.mem (r.slot i) [0, 0]) (r.slot i) 2 = [0, 0] := cells_store_self s.mem _ [0, 0]
        rw [hnull]
        rfl
      have hsource : cells (store s.mem (r.slot i) [0, 0]) (r.slot i + sizeofSrBckptrInLongs) r.length = ws := by
        rw [cells_store_of_disjoint (.inr (by simp [sizeofSrBckptrInLongs])), hdata]
      refine ⟨⟨l', hl', rfl, hlinked'.retire hlongs hkey hback hdead fun i' hi' _ => hsame i' hi'⟩, houtput',
        by simp only; omega, ?_⟩
      simp only [move, hrecords, hsource]
      refine words_written hwritten (fun x hx hx' => ?_) ?_
      · rw [store_of_lt (by omega), store_of_lt (by omega)]
      · rw [← houtput]
        exact cells_store_self _ _ _
    · -- the record at the lower limit has to move
      next hroom =>
      have hlive := hstop (by omega)
      have hsucc := slot_succ r l'
      have hmoved : i ≠ l' → cells (store (move s.mem r.mLongs (r.slot l') (r.slot i)) s.output ws) (r.slot i)
          r.mLongs = cells s.mem (r.slot l') r.mLongs := by
        intro hne'
        have := slot_add_le (r := r) (show l' < i by omega)
        rw [cells_store_of_disjoint (by omega)]
        have hself := cells_store_self s.mem (r.slot i) (cells s.mem (r.slot l') r.mLongs)
        rwa [length_cells] at hself
      have hsame : ∀ i', l' < i' → i' ≠ i →
          cells (store (move s.mem r.mLongs (r.slot l') (r.slot i)) s.output ws) (r.slot i') r.mLongs =
            cells s.mem (r.slot i') r.mLongs := by
        intro i' hi' hne'
        have := slot_add_le (r := r) hi'
        rw [cells_store_of_disjoint (by omega), move, cells_store_of_disjoint]
        rw [length_cells]
        rcases Nat.lt_or_gt_of_ne hne' with hlt | hlt
        · exact .inl (slot_add_le hlt)
        · exact .inr (slot_add_le hlt)
      simp only [hdata]
      refine ⟨⟨l' + 1, by omega, hsucc.symm, hlinked'.displace hlongs hkey hback hl'i hi hlive hmoved
        fun i' hi' _ => hsame i' hi'⟩, houtput', by simp only; omega, ?_⟩
      simp only [hrecords]
      refine words_written hwritten (fun x hx hx' => ?_) ?_
      · rw [store_of_lt (by omega), move, store_of_lt (by omega)]
      · rw [← houtput]
        exact cells_store_self _ _ _

end

/-- What the record of an entry holds; an eliminated one has none. -/
def recordOf (r : RecordArea) (mem : Nat → UInt32) (pointers : Nat → Option Nat) (ptr : Nat) : Option (List UInt32) :=
  (pointers ptr).map fun key => cells mem key r.length

def sortedRecords (r : RecordArea) (mem : Nat → UInt32) (pointers : Nat → Option Nat)
    (mNextPointer : Nat) : List (List UInt32) :=
  recordsBefore (recordOf r mem pointers) mNextPointer

/-- The records and their pointers, some entries made NULL: an entry leads to a record that leads back to it, and
    a record that no entry leads to has a NULL back pointer. -/
structure SortedPointers (r : RecordArea) (count mNextPointer : Nat) (mem : Nat → UInt32)
    (pointers : Nat → Option Nat) : Prop where
  entry : ∀ ptr key, 1 ≤ ptr → ptr < mNextPointer → pointers ptr = some key →
    ∃ i, i < count ∧ key = r.slot i + sizeofSrBckptrInLongs ∧ srBckptr mem (r.slot i) = ptr
  record : ∀ i, i < count → srBckptr mem (r.slot i) ≠ 0 →
    1 ≤ srBckptr mem (r.slot i) ∧ srBckptr mem (r.slot i) < mNextPointer ∧
      pointers (srBckptr mem (r.slot i)) = some (r.slot i + sizeofSrBckptrInLongs)

theorem ordered_first (h : SortedPointers r count next mem pointers) :
    Ordered r count next (recordOf r mem pointers) 1 (orderBefore r mem pointers 1) where
  limit := by
    refine ⟨0, Nat.zero_le count, by simp [orderBefore, RecordArea.slot], ?_, ?_, ?_⟩
    · intro j _ _ hnone
      have hnone' : pointers j = none := hnone
      rw [recordOf, hnone']
      rfl
    · intro j key hj hnext hkey
      obtain ⟨i, hi, hplace, hback⟩ := h.entry j key hj hnext hkey
      have hkey' : pointers j = some key := hkey
      exact ⟨i, _, by rw [recordOf, hkey']; rfl, Nat.zero_le i, hi, hplace, hback, rfl⟩
    · exact fun i _ hi hne => h.record i hi hne
  output := rfl
  le := Nat.le_refl _
  written := rfl

theorem orderBefore_succ (hptr : 1 ≤ ptr) :
    orderBefore r mem pointers (ptr + 1) = orderStep r (orderBefore r mem pointers ptr) ptr := by
  rw [orderBefore, show ptr + 1 - 1 = ptr - 1 + 1 by omega, range'_concat, foldl_append]
  rw [show 1 + 1 * (ptr - 1) = ptr by omega]
  rfl

theorem orderBefore_ordered (hlongs : sizeofSrBckptrInLongs < r.mLongs) (hend : r.mEndMemory = r.slot count)
    (h : SortedPointers r count next mem pointers) (hptr : 1 ≤ ptr) (hnext : ptr ≤ next) :
    Ordered r count next (recordOf r mem pointers) ptr (orderBefore r mem pointers ptr) := by
  induction hptr with
  | refl => exact ordered_first h
  | step hptr ih =>
    rw [orderBefore_succ hptr]
    exact orderStep_ordered hlongs hend hptr hnext (ih (Nat.le_of_succ_le hnext))

theorem length_flatten_recordsBefore (r : RecordArea) (mem : Nat → UInt32) (pointers : Nat → Option Nat) (ptr : Nat) :
    (recordsBefore (recordOf r mem pointers) ptr).flatten.length =
      (recordsBefore (recordOf r mem pointers) ptr).length * r.length := by
  have hall : ∀ ws ∈ recordsBefore (recordOf r mem pointers) ptr, ws.length = r.length := by
    intro ws hws
    obtain ⟨j, -, hj⟩ := mem_filterMap.mp hws
    obtain ⟨key, -, rfl⟩ := Option.map_eq_some_iff.mp hj
    exact length_cells mem key r.length
  rw [length_flatten, map_eq_replicate_iff.mpr hall, sum_replicate_nat]

theorem length_recordsBefore (r : RecordArea) (mem : Nat → UInt32) (pointers : Nat → Option Nat) (next : Nat) :
    (recordsBefore (recordOf r mem pointers) next).length = runRecords pointers next := by
  rw [recordsBefore, runRecords, length_filterMap_eq_countP]
  simp [recordOf]

/-- The records of the entries that are not NULL lie one after another at the front, in the order of the pointers, and
    are as many as the run has space for. -/
theorem order_in_place (hlongs : sizeofSrBckptrInLongs < r.mLongs) (hend : r.mEndMemory = r.slot count)
    (hnext : 1 ≤ next) (h : SortedPointers r count next mem pointers) :
    (cells (order r mem pointers next).1 r.mLastRecord ((sortedRecords r mem pointers next).length * r.length) =
        (sortedRecords r mem pointers next).flatten ∧
      (order r mem pointers next).2 = (sortedRecords r mem pointers next).length ∧
      (sortedRecords r mem pointers next).length = runRecords pointers next) ∧
      ∀ ptr, 1 ≤ ptr → ptr ≤ next → ∀ j, ptr ≤ j → j < next →
        recordOf r (orderBefore r mem pointers ptr).mem (orderBefore r mem pointers ptr).pointers j =
          recordOf r mem pointers j := by
  have hordered := fun ptr hptr hle => @orderBefore_ordered mem r pointers count next ptr hlongs hend h hptr hle
  refine ⟨?_, fun ptr hptr hle j hj hjnext => ?_⟩
  · obtain ⟨-, houtput, -, hwritten⟩ := hordered next hnext (Nat.le_refl next)
    have hflatten := length_flatten_recordsBefore r mem pointers next
    rw [hflatten] at houtput hwritten
    refine ⟨hwritten, ?_, length_recordsBefore r mem pointers next⟩
    have hpos : 0 < r.length := by
      have := length_eq hlongs
      simp only [sizeofSrBckptrInLongs] at hlongs
      omega
    simp only [order, houtput, Nat.add_sub_cancel_left]
    exact Nat.mul_div_cancel _ hpos
  · obtain ⟨l, -, -, hlinked⟩ := (hordered ptr hptr hle).limit
    cases hkey : (orderBefore r mem pointers ptr).pointers j with
    | none =>
      rw [hlinked.eliminated j hj hjnext hkey, recordOf, hkey]
      rfl
    | some key =>
      obtain ⟨i, ws, hws, -, -, hplaces⟩ := hlinked.live j key hj hjnext hkey
      rw [hws, recordOf, hkey]
      exact congrArg some hplaces.data

def fourRecords : RecordArea := { mLongs := 4, mLastRecord := 100, mEndMemory := 116 }

def fourRecordsMemory (a : Nat) : UInt32 :=
  ([3, 0, 11, 12, 0, 0, 21, 22, 4, 0, 31, 32, 1, 0, 41, 42] : List UInt32).getD (a - 100) 0

def fourRecordsPointers : Nat → Option Nat
  | 1 => some 114
  | 3 => some 102
  | 4 => some 110
  | _ => none

theorem order_in_place_fourRecords :
    (cells (order fourRecords fourRecordsMemory fourRecordsPointers 5).1 100 6 = [41, 42, 11, 12, 31, 32] ∧
      (order fourRecords fourRecordsMemory fourRecordsPointers 5).2 = 3) ∧
      ∀ ptr, 1 ≤ ptr → ptr ≤ 5 → ∀ j, ptr ≤ j → j < 5 →
        recordOf fourRecords (orderBefore fourRecords fourRecordsMemory fourRecordsPointers ptr).mem
          (orderBefore fourRecords fourRecordsMemory fourRecordsPointers ptr).pointers j =
            recordOf fourRecords fourRecordsMemory fourRecordsPointers j := by
  have hsorted : SortedPointers fourRecords 4 5 fourRecordsMemory fourRecordsPointers := by
    constructor
    · intro ptr key hptr hnext hkey
      match ptr, hkey with
      | 1, hkey => exact ⟨3, by decide, (Option.some.inj hkey).symm, by decide⟩
      | 3, hkey => exact ⟨0, by decide, (Option.some.inj hkey).symm, by decide⟩
      | 4, hkey => exact ⟨2, by decide, (Option.some.inj hkey).symm, by decide⟩
    · decide
  obtain ⟨⟨hwords, hcount, -⟩, hpending⟩ := order_in_place (by decide) (by decide) (by decide) hsorted
  have hrecords : sortedRecords fourRecords fourRecordsMemory fourRecordsPointers 5 = [[41, 42],
      [11, 12], [31, 32]] := by decide
  exact ⟨⟨hwords, hcount⟩, hpending⟩

end Firebird.Sort
