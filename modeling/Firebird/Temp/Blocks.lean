import Firebird.Lib.LinkedRow
import Firebird.Temp.TempSpace

/-! # The chain of blocks -/

namespace Firebird.Temp
open Lib Function List

variable {s s' : TempSpace} {b b' : BlockId} {A B row : List BlockId} {offset length pos n : Nat} {data : List UInt8}
  {bytes bytes' : Device → Nat → UInt8} {d : Device} {x : Nat}

namespace TempSpace

def total (s : TempSpace) : List BlockId → Nat
  | [] => 0
  | b :: row => (s.block b).size + s.total row

def content (s : TempSpace) (bytes : Device → Nat → UInt8) : List BlockId → Nat → UInt8
  | [], _ => 0
  | b :: row, pos =>
    if pos < (s.block b).size then bytes (s.block b).device ((s.block b).seek + pos)
    else s.content bytes row (pos - (s.block b).size)

def Covers (s : TempSpace) (b : BlockId) (d : Device) (x : Nat) : Prop :=
  (s.block b).device = d ∧ (s.block b).seek ≤ x ∧ x < (s.block b).seek + (s.block b).size

def Apart (s : TempSpace) (b b' : BlockId) : Prop :=
  (s.block b).device = (s.block b').device → (s.block b).seek + (s.block b).size ≤ (s.block b').seek

end TempSpace

structure Valid (s : TempSpace) (row : List BlockId) : Prop where
  linked : Linked s.next s.prev none row none
  head : s.head = row.head?
  tail : s.tail = row.getLast?
  nodup : row.Nodup
  allocated : ∀ b ∈ row, b < s.blocks
  physical : s.physicalSize = s.total row
  logical : s.logicalSize ≤ s.physicalSize
  memory : ∀ b ∈ row, ∀ id, (s.block b).device = .memory id → id < s.blocks
  file : ∀ b ∈ row, ∀ f, (s.block b).device = .file f → (s.block b).seek + (s.block b).size ≤ s.fileSize f
  initial : ∀ b ∈ row, (s.block b).device = .initialBuffer → s.initialSize ≠ 0
  initialOnly : s.initialSize ≠ 0 → ∃ b, row = [b] ∧ s.block b = ⟨s.initialSize, .initialBuffer, 0⟩
  apart : row.Pairwise s.Apart

open TempSpace

theorem total_append (s : TempSpace) (A B : List BlockId) : s.total (A ++ B) = s.total A + s.total B := by
  induction A with
  | nil => simp [total]
  | cons b A ih => simp only [cons_append, total, ih, Nat.add_assoc]

theorem content_append_of_lt (h : pos < s.total A) : s.content bytes (A ++ B) pos = s.content bytes A pos := by
  induction A generalizing pos with
  | nil => exact absurd h (Nat.not_lt_zero pos)
  | cons b A ih =>
    simp only [cons_append, content]
    by_cases hb : pos < (s.block b).size
    · rw [if_pos hb, if_pos hb]
    · rw [if_neg hb, if_neg hb]
      refine ih ?_
      simp only [total] at h
      omega

theorem content_append_of_ge (h : s.total A ≤ pos) :
    s.content bytes (A ++ B) pos = s.content bytes B (pos - s.total A) := by
  induction A generalizing pos with
  | nil => rfl
  | cons b A ih =>
    simp only [total] at h ⊢
    rw [cons_append, content, if_neg (by omega), ih (by omega), Nat.sub_sub]

theorem content_congr (h : ∀ b ∈ row, ∀ x, s.Covers b (s.block b).device x → bytes' (s.block b).device x =
    bytes (s.block b).device x)
    (pos : Nat) (hpos : pos < s.total row) : s.content bytes' row pos = s.content bytes row pos := by
  induction row generalizing pos with
  | nil => rfl
  | cons b row ih =>
    simp only [content]
    by_cases hb : pos < (s.block b).size
    · rw [if_pos hb, if_pos hb]
      exact h b (.head row) _ ⟨rfl, by omega, by omega⟩
    · rw [if_neg hb, if_neg hb]
      simp only [total] at hpos
      exact ih (fun b' hb' => h b' (.tail b hb')) _ (by omega)

theorem content_congr_block (hblock : ∀ b ∈ row, s'.block b = s.block b) :
    s'.content bytes row pos = s.content bytes row pos := by
  induction row generalizing pos with
  | nil => rfl
  | cons b row ih =>
    rw [content, content, hblock b (.head row), ih fun b' hb' => hblock b' (.tail b hb')]

theorem total_congr_block (hblock : ∀ b ∈ row, s'.block b = s.block b) : s'.total row = s.total row := by
  induction row with
  | nil => rfl
  | cons b row ih => rw [total, total, hblock b (.head row), ih fun b' hb' => hblock b' (.tail b hb')]

theorem Valid.congr {logical : Nat} (h : Valid s row) (hlogical : logical ≤ s.physicalSize) :
    Valid { s with logicalSize := logical, bytes } row := by
  have htotal : TempSpace.total { s with logicalSize := logical, bytes } row = s.total row :=
    total_congr_block fun _ _ => rfl
  exact ⟨h.linked, h.head, h.tail, h.nodup, h.allocated, h.physical.trans htotal.symm, hlogical, h.memory, h.file,
    h.initial, h.initialOnly, h.apart⟩

theorem walkForward_spec (hlinked : Linked s.next s.prev none (A ++ b :: B) none) {fuel : Nat} (hfuel : B.length < fuel)
    (hoffset : offset < (s.block b).size + s.total B) : ∃ C c D local', b :: B = C ++ c :: D ∧
      s.walkForward fuel (some b) offset = (some c, local') ∧ local' < (s.block c).size ∧
      s.total C + local' = offset := by
  induction B generalizing A b fuel offset with
  | nil =>
    obtain ⟨fuel, rfl⟩ := Nat.exists_eq_succ_of_ne_zero (Nat.ne_zero_of_lt hfuel)
    simp only [total, Nat.add_zero] at hoffset
    refine ⟨[], b, [], offset, rfl, ?_, hoffset, Nat.zero_add _⟩
    rw [walkForward, if_neg (by omega)]
  | cons b' B ih =>
    obtain ⟨fuel, rfl⟩ := Nat.exists_eq_succ_of_ne_zero (Nat.ne_zero_of_lt hfuel)
    rw [walkForward]
    by_cases hb : (s.block b).size ≤ offset
    · have hlinked' : Linked s.next s.prev none ((A ++ [b]) ++ b' :: B) none := by simpa using hlinked
      simp only [total] at hoffset
      obtain ⟨C, c, D, local', hrow, hwalk, hlt, hsum⟩ :=
        ih hlinked' (show B.length < fuel by simpa using hfuel) (show offset - (s.block b).size < _ by omega)
      rw [if_pos hb, hlinked.next_eq]
      refine ⟨b :: C, c, D, local', by rw [hrow, cons_append], hwalk, hlt, ?_⟩
      simp only [total]
      omega
    · rw [if_neg hb]
      exact ⟨[], b, b' :: B, offset, rfl, rfl, by omega, Nat.zero_add _⟩

theorem walkBackward_spec (hlinked : Linked s.next s.prev none (A ++ b :: B) none) {fuel : Nat}
    (hfuel : A.length < fuel)
    (hphysical : s.physicalSize = s.total A + (s.block b).size + s.total B) (hoffset : s.total B ≤ offset)
    (hlt : offset < s.physicalSize) : ∃ C c D local', A ++ [b] = C ++ c :: D ∧
      s.walkBackward fuel (some b) offset = (some c, local') ∧ local' < (s.block c).size ∧
        s.total C + local' + s.total B = offset := by
  induction A using reverseRecOn generalizing b B fuel offset with
  | nil =>
    obtain ⟨fuel, rfl⟩ := Nat.exists_eq_succ_of_ne_zero (Nat.ne_zero_of_lt hfuel)
    simp only [total, Nat.zero_add] at hphysical
    refine ⟨[], b, [], offset - s.total B, rfl, ?_, by omega, by simp only [total]; omega⟩
    rw [walkBackward, if_neg (by omega), hphysical, Nat.add_sub_cancel_left]
  | append_singleton A b' ih =>
    obtain ⟨fuel, rfl⟩ := Nat.exists_eq_succ_of_ne_zero (Nat.ne_zero_of_lt hfuel)
    rw [walkBackward]
    rw [total_append] at hphysical
    simp only [total, Nat.add_zero] at hphysical
    by_cases hb : (s.block b).size < s.physicalSize - offset
    · have hlinked' : Linked s.next s.prev none (A ++ b' :: b :: B) none := by simpa using hlinked
      obtain ⟨C, c, D, local', hrow, hwalk, hc, hsum⟩ :=
        ih hlinked' (show A.length < fuel by simpa using hfuel) (by simp only [total]; omega)
          (show s.total (b :: B) ≤ offset + (s.block b).size by simp only [total]; omega) (by omega)
      rw [if_pos hb, hlinked.prev_eq, getLast?_concat]
      refine ⟨C, c, D ++ [b], local', by rw [hrow]; simp, hwalk, hc, ?_⟩
      simp only [total] at hsum
      omega
    · rw [if_neg hb]
      refine ⟨A ++ [b'], b, [], _, rfl, rfl, by omega, ?_⟩
      rw [total_append]
      simp only [total]
      omega

theorem length_le_blocks (h : Valid s row) : row.length ≤ s.blocks := by
  have hsub : row ⊆ range s.blocks := fun b hb => mem_range.mpr (h.allocated b hb)
  simpa using (h.nodup.subperm hsub).length_le

theorem findBlock_spec (h : Valid s row) (hoffset : offset < s.physicalSize) : ∃ A b B local', row = A ++ b :: B ∧
    s.findBlock offset = (some b, local') ∧ local' < (s.block b).size ∧ s.total A + local' = offset := by
  have hlength := length_le_blocks h
  have hphysical := h.physical
  rw [findBlock]
  split
  · obtain _ | ⟨b, B⟩ := row
    · simp only [total] at hphysical
      omega
    · simp only [total] at hphysical
      rw [h.head]
      obtain ⟨C, c, D, local', hrow, hwalk, hlt, hsum⟩ :=
        @walkForward_spec s b [] B offset h.linked s.blocks hlength (by omega)
      exact ⟨C, c, D, local', hrow, hwalk, hlt, hsum⟩
  · rcases eq_nil_or_concat row with rfl | ⟨A, b, rfl⟩
    · simp only [total] at hphysical
      omega
    · rw [concat_eq_append] at *
      rw [length_append] at hlength
      rw [total_append] at hphysical
      simp only [total, Nat.add_zero] at hphysical
      rw [h.tail, getLast?_concat]
      obtain ⟨C, c, D, local', hrow, hwalk, hlt, hsum⟩ :=
        @walkBackward_spec s b A [] offset h.linked s.blocks hlength (by simp only [total]; omega)
        (Nat.zero_le _) hoffset
      exact ⟨C, c, D, local', hrow, hwalk, hlt, hsum⟩

def contents (s : TempSpace) (bytes : Device → Nat → UInt8) (row : List BlockId) (offset length : Nat) : List UInt8 :=
  cells (s.content bytes row) offset length

theorem blockLength_le (s : TempSpace) (b : BlockId) (hoffset : offset ≤ (s.block b).size) (length : Nat) :
    s.blockLength b offset length = min length ((s.block b).size - offset) := by
  rw [blockLength]
  split <;> omega

theorem readBlocks_spec (hlinked : Linked s.next s.prev none (A ++ b :: B) none) {fuel : Nat} (hfuel : B.length < fuel)
    (hoffset : offset ≤ (s.block b).size) (hlength : offset + length ≤ (s.block b).size + s.total B) :
    s.readBlocks fuel (some b) offset length = contents s s.bytes (b :: B) offset length := by
  induction B generalizing A b fuel offset length with
  | nil =>
    obtain ⟨fuel, rfl⟩ := Nat.exists_eq_succ_of_ne_zero (Nat.ne_zero_of_lt hfuel)
    simp only [total, Nat.add_zero] at hlength
    have hn : s.blockLength b offset length = length := by
      rw [blockLength_le s b hoffset]
      omega
    have hcells : cells (s.bytes (s.block b).device) ((s.block b).seek + offset) length =
        contents s s.bytes [b] offset length := by
      refine map_congr_left fun i hi => ?_
      rw [mem_range] at hi
      rw [content, if_pos (by omega), Nat.add_assoc]
    rw [readBlocks]
    split
    · next hzero =>
      subst hzero
      rfl
    · simp only [hn, Nat.sub_self, hcells]
      cases fuel with
      | zero => simp [readBlocks]
      | succ fuel => cases s.next b <;> simp [readBlocks]
  | cons b' B ih =>
    obtain ⟨fuel, rfl⟩ := Nat.exists_eq_succ_of_ne_zero (Nat.ne_zero_of_lt hfuel)
    have hlinked' : Linked s.next s.prev none ((A ++ [b]) ++ b' :: B) none := by simpa using hlinked
    simp only [total] at hlength
    have hn := blockLength_le s b hoffset length
    set n := s.blockLength b offset length
    have hrest : s.readBlocks fuel (some b') 0 (length - n) = contents s s.bytes (b' :: B) 0 (length - n) :=
      ih hlinked' (by simpa using hfuel) (Nat.zero_le _) (by omega)
    have hcells : cells (s.bytes (s.block b).device) ((s.block b).seek + offset) n =
        contents s s.bytes (b :: b' :: B) offset n := by
      refine map_congr_left fun i hi => ?_
      rw [mem_range] at hi
      rw [content, if_pos (by omega), Nat.add_assoc]
    rw [readBlocks]
    split
    · next hzero =>
      subst hzero
      rfl
    · rw [hlinked.next_eq]
      show cells _ _ n ++ s.readBlocks fuel (some b') 0 (length - n) = _
      rw [hrest, hcells]
      have hsplit : length = n + (length - n) := by omega
      conv_rhs => rw [hsplit, contents, cells_add]
      refine congrArg _ (map_congr_left fun i hi => ?_)
      rw [mem_range] at hi
      conv_rhs => rw [content, if_neg (by omega)]
      exact congrArg _ (by omega)

theorem read_spec (h : Valid s row) (hlength : offset + length ≤ s.logicalSize) :
    s.read offset length = .ok (contents s s.bytes row offset length) := by
  rw [TempSpace.read, if_neg (by omega)]
  split
  · next hzero =>
    subst hzero
    rfl
  · have hlogical := h.logical
    obtain ⟨A, b, B, local', rfl, hfind, hlt, hsum⟩ := findBlock_spec h (show offset < s.physicalSize by omega)
    have hphysical := h.physical
    rw [total_append] at hphysical
    simp only [total] at hphysical
    have hfuel : B.length < s.blocks := by
      have hle := length_le_blocks h
      rw [length_append, length_cons] at hle
      omega
    simp only [hfind]
    rw [readBlocks_spec h.linked hfuel (Nat.le_of_lt hlt) (by omega)]
    refine congrArg _ (map_congr_left fun i _ => ?_)
    rw [content_append_of_ge (by omega)]
    exact congrArg _ (by omega)

/-- Writing through the chain changes the bytes that are written, and nothing that the blocks do not cover. -/
structure Wrote (s : TempSpace) (row : List BlockId) (offset : Nat) (data : List UInt8)
    (bytes bytes' : Device → Nat → UInt8) : Prop where
  content : ∀ pos, pos < s.total row → s.content bytes' row pos =
    if offset ≤ pos then data[pos - offset]?.getD (s.content bytes row pos) else s.content bytes row pos
  outside : ∀ d x, (∀ b ∈ row, ¬s.Covers b d x) → bytes' d x = bytes d x

theorem wrote_nil (s : TempSpace) (row : List BlockId) (offset : Nat) (bytes : Device → Nat → UInt8) :
    Wrote s row offset [] bytes bytes :=
  ⟨fun pos _ => by simp, fun _ _ _ => rfl⟩

theorem wrote_block (s : TempSpace) (b : BlockId) (bytes : Device → Nat → UInt8)
    (hlength : offset + data.length ≤ (s.block b).size) :
    Wrote s [b] offset data bytes (update bytes (s.block b).device
      (store (bytes (s.block b).device) ((s.block b).seek + offset) data)) := by
  refine ⟨fun pos hpos => ?_, fun d x hout => ?_⟩
  · simp only [total, Nat.add_zero] at hpos
    simp only [TempSpace.content, if_pos hpos, update_self]
    by_cases hle : offset ≤ pos
    · rw [if_pos hle, store, if_pos (by omega)]
      rw [show (s.block b).seek + pos - ((s.block b).seek + offset) = pos - offset by omega]
    · rw [if_neg hle, store_of_lt (by omega)]
  · by_cases hd : d = (s.block b).device
    · subst hd
      rw [update_self]
      by_cases hlt : x < (s.block b).seek + offset
      · exact store_of_lt hlt
      · refine store_of_ge ?_
        by_contra hge
        exact hout b (.head _) ⟨rfl, by omega, by omega⟩
    · rw [update_of_ne hd]

theorem not_covers_of_apart (h : s.Apart b b') (hcovers : s.Covers b d x) : ¬s.Covers b' d x := by
  rintro ⟨rfl, hle, -⟩
  obtain ⟨hdevice, -, hlt⟩ := hcovers
  have := h hdevice
  omega

theorem Wrote.cons {n : Nat} (hapart : ∀ b' ∈ B, s.Apart b b') (hfirst : Wrote s [b] offset (data.take n) bytes bytes')
    (hn : n = min data.length ((s.block b).size - offset)) (hoffset : offset ≤ (s.block b).size)
    {bytes'' : Device → Nat → UInt8}
    (hrest : Wrote s B 0 (data.drop n) bytes' bytes'') : Wrote s (b :: B) offset data bytes bytes'' := by
  have hsame : ∀ pos, pos < s.total B → s.content bytes' B pos = s.content bytes B pos := by
    refine content_congr fun b' hb' x hcovers => hfirst.outside _ x fun c hc => ?_
    obtain rfl := mem_singleton.mp hc
    exact fun hcovers' => not_covers_of_apart (hapart b' hb') hcovers' hcovers
  refine ⟨fun pos hpos => ?_, fun d x hout => ?_⟩
  · simp only [total] at hpos
    by_cases hb : pos < (s.block b).size
    · have hkeep : bytes'' (s.block b).device ((s.block b).seek + pos) = bytes' (s.block b).device
          ((s.block b).seek + pos) := by
        refine hrest.outside _ _ fun b' hb' hcovers => ?_
        exact not_covers_of_apart (hapart b' hb') ⟨rfl, by omega, by omega⟩ hcovers
      have hone := hfirst.content pos (by simpa [total] using hb)
      simp only [TempSpace.content, if_pos hb] at hone ⊢
      rw [hkeep, hone]
      split
      · next hle =>
        by_cases hlt : pos - offset < data.length
        · rw [getElem?_take_of_lt (by omega)]
        · rw [getElem?_eq_none (by rw [length_take]; omega), getElem?_eq_none (by omega)]
      · rfl
    · have hmore := hrest.content (pos - (s.block b).size) (by omega)
      simp only [TempSpace.content, if_neg hb]
      rw [hmore, if_pos (Nat.zero_le _), if_pos (by omega), hsame _ (by omega), Nat.sub_zero, getElem?_drop]
      by_cases hlt : pos - offset < data.length
      · rw [show n + (pos - (s.block b).size) = pos - offset by omega]
      · rw [getElem?_eq_none (by omega), getElem?_eq_none (by omega)]
  · rw [hrest.outside d x fun b' hb' => hout b' (.tail b hb')]
    refine hfirst.outside d x fun c hc => ?_
    obtain rfl := mem_singleton.mp hc
    exact hout c (.head _)

theorem writeBlocks_spec (hlinked : Linked s.next s.prev none (A ++ b :: B) none) (hapart : (b :: B).Pairwise s.Apart)
    {fuel : Nat} (hfuel : B.length < fuel) (hoffset : offset ≤ (s.block b).size)
    (hlength : offset + data.length ≤ (s.block b).size + s.total B) (bytes : Device → Nat → UInt8) :
    Wrote s (b :: B) offset data bytes (s.writeBlocks fuel (some b) offset data bytes) := by
  induction B generalizing A b fuel offset data bytes with
  | nil =>
    obtain ⟨fuel, rfl⟩ := Nat.exists_eq_succ_of_ne_zero (Nat.ne_zero_of_lt hfuel)
    simp only [total, Nat.add_zero] at hlength
    rw [writeBlocks]
    split
    · next hnil =>
      subst hnil
      exact wrote_nil s [b] offset bytes
    · have hn : s.blockLength b offset data.length = data.length := by
        rw [blockLength_le s b hoffset]
        omega
      simp only [hn, take_length, drop_length]
      have hstop : ∀ itr bytes, s.writeBlocks fuel itr 0 [] bytes = bytes := by
        intro itr bytes
        cases fuel with
        | zero => rfl
        | succ fuel => cases itr <;> simp [writeBlocks]
      rw [hstop]
      exact wrote_block s b bytes hlength
  | cons b' B ih =>
    obtain ⟨fuel, rfl⟩ := Nat.exists_eq_succ_of_ne_zero (Nat.ne_zero_of_lt hfuel)
    have hlinked' : Linked s.next s.prev none ((A ++ [b]) ++ b' :: B) none := by simpa using hlinked
    simp only [total] at hlength
    obtain ⟨hb, hB⟩ := pairwise_cons.mp hapart
    rw [writeBlocks]
    split
    · next hnil =>
      subst hnil
      exact wrote_nil s _ offset bytes
    · have hn := blockLength_le s b hoffset data.length
      rw [hlinked.next_eq]
      refine Wrote.cons hb (wrote_block s b bytes ?_) hn hoffset
        (ih hlinked' hB (by simpa using hfuel) (Nat.zero_le _) ?_ _)
      · rw [length_take]
        omega
      · rw [length_drop]
        omega

end Firebird.Temp
