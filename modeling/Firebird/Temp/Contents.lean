import Firebird.Lib.Run
import Firebird.Temp.Extend

/-! # What a temporary space holds -/

namespace Firebird.Temp
open List Lib Function TempSpace

inductive Op
  | write (offset : Nat) (data : List UInt8) (a : Answers)
  | read (offset length : Nat)
  | extend (size : Nat) (a : Answers)
  | allocateSpace (size : Nat) (a : Answers)

variable (cfg : Config)

def call (s : TempSpace) : Op → Bool × TempSpace
  | .write offset data a => let (result, s) := s.write cfg offset data a; (result.isOk, s)
  | .read offset length => ((s.read offset length).isOk, s)
  | .extend size a => let (result, s) := s.extend cfg size a; (result.isOk, s)
  | .allocateSpace size a => let (result, s) := s.allocateSpace cfg size a; (result.isOk, s)

def exec (s : TempSpace) (op : Op) : TempSpace := (call cfg s op).2

/-- A file in its abstract form: its size, and the byte written last at each position, if there is one. -/
structure Written where
  size : Nat
  byte : Nat → Option UInt8

def Written.exec (w : Written) : Op → Written
  | .write offset data _ =>
    { size := max w.size (offset + data.length)
      byte := fun pos => if offset ≤ pos then data[pos - offset]?.or (w.byte pos) else w.byte pos }
  | .read _ _ => w
  | .extend size _ => { w with size := w.size + size }
  | .allocateSpace size _ => { w with size := w.size + size }

def Written.after (w : Written) (op : Op) : Bool → Written
  | true => w.exec op
  | false => w

def written : TempSpace → Written → List Op → Written
  | _, w, [] => w
  | s, w, op :: ops => written (exec cfg s op) (w.after op (call cfg s op).1) ops

/-! ### Which calls keep it -/

/-- An extension is cut to 32 bits nowhere, and where it raises the head is saved, or there is none. -/
def CarefulExtend (s : TempSpace) (size : Nat) (a : Answers) : Prop :=
  (s.physicalSize < s.logicalSize + size → staysInitial cfg { s with logicalSize := s.logicalSize + size } = false →
    growth cfg { s with logicalSize := s.logicalSize + size } < 2 ^ 32) ∧
  ((s.extend cfg size a).1.isOk = false → s.head = none ∨ LeavesInitial cfg s size)

def Careful (s : TempSpace) : Op → Prop
  | .write offset data a => offset ≤ s.logicalSize → s.logicalSize < offset + data.length →
      CarefulExtend cfg s (offset + data.length - s.logicalSize) a
  | .read _ _ => True
  | .extend size a => CarefulExtend cfg s size a
  | .allocateSpace size a => CarefulExtend cfg s size a

instance (s : TempSpace) (size : Nat) (a : Answers) : Decidable (CarefulExtend cfg s size a) :=
  inferInstanceAs (Decidable (_ ∧ _))

instance (s : TempSpace) : (op : Op) → Decidable (Careful cfg s op)
  | .write offset data a => inferInstanceAs
      (Decidable (_ → _ → CarefulExtend cfg s (offset + data.length - s.logicalSize) a))
  | .read _ _ => isTrue trivial
  | .extend size a | .allocateSpace size a => inferInstanceAs (Decidable (CarefulExtend cfg s size a))

structure Holds (s : TempSpace) (w : Written) : Prop where
  size : w.size = s.logicalSize
  inside : ∀ pos b, w.byte pos = some b → pos < w.size
  row : ∃ row, Valid s row ∧ StartsLarge cfg s row ∧ ∀ pos b, w.byte pos = some b → s.content s.bytes row pos = b

variable {cfg} {s s' t u : TempSpace} {w : Written} {a : Answers} {size : Nat} {e : TempSpaceError} {row : List BlockId}
  {op : Op} {ops : List Op}

theorem holds_empty : Holds cfg .empty ⟨0, fun _ => none⟩ where
  size := rfl
  inside := nofun
  row := ⟨[], valid_cleared .empty, fun _ _ => .inl rfl, nofun⟩

theorem holds_extend (h : Holds cfg s w) (hcareful : CarefulExtend cfg s size a) :
    ((s.extend cfg size a).1 = .ok () ∧ Holds cfg (s.extend cfg size a).2 { w with size := w.size + size }) ∨
      ((s.extend cfg size a).1.isOk = false ∧ Holds cfg (s.extend cfg size a).2 w) := by
  obtain ⟨hsize, hinside, row, hvalid, hlarge, hbytes⟩ := h
  obtain ⟨hcut, hraise⟩ := hcareful
  have hphysical := hvalid.physical
  have hlogical := hvalid.logical
  rcases hextend : s.extend cfg size a with ⟨result, s'⟩
  cases result with
  | ok r =>
    refine .inl ⟨rfl, ?_⟩
    obtain ⟨row', ⟨hvalid', hsize', hcontent⟩, hlarge'⟩ := extend_ok hvalid hlarge hcut hextend
    refine ⟨by rw [hsize', ← hsize], fun pos b hb => Nat.lt_of_lt_of_le (hinside pos b hb) (Nat.le_add_right _ _), row',
      hvalid', hlarge', fun pos b hb => ?_⟩
    have := hinside pos b hb
    rw [hcontent pos (by omega)]
    exact hbytes pos b hb
  | error e =>
    refine .inr ⟨rfl, ?_⟩
    obtain ⟨huntouched, hl, hp, ht, hhead⟩ := extend_error hvalid hextend
    have hhead : s'.head = s.head := by
      rcases hraise (by rw [hextend]; rfl) with hnone | hleaves
      · rw [hhead, hnone]
        simp
      · rw [hhead, if_pos hleaves]
    have hvalid' := valid_of_untouched hvalid huntouched hl hp ht hhead
    refine ⟨by rw [hl, ← hsize], hinside, row, hvalid', ?_, fun pos b hb => ?_⟩
    · intro hdynamic hinitial
      rw [hp]
      exact hlarge hdynamic (huntouched.initialSize ▸ hinitial)
    · have := hinside pos b hb
      rw [content_of_untouched hvalid huntouched (by omega)]
      exact hbytes pos b hb

theorem holds_write_nil {offset : Nat} (h : Holds cfg s w) (hoffset : offset ≤ s.logicalSize) (aw : Answers) :
    Holds cfg s (w.exec (.write offset [] aw)) := by
  have hbyte : (w.exec (.write offset [] aw)).byte = w.byte := by
    simp [Written.exec]
  have hsize : (w.exec (.write offset [] aw)).size = w.size := by
    have := h.size
    show max w.size (offset + 0) = w.size
    omega
  exact ⟨hsize.trans h.size, by rw [hbyte, hsize]; exact h.inside, by rw [hbyte]; exact h.row⟩

section
variable {offset : Nat} {data : List UInt8}

theorem holds_writeInside (h : Holds cfg s w)
    (hlength : offset + data.length ≤ s.logicalSize) (aw : Answers) :
    Holds cfg (s.writeInside offset data) (w.exec (.write offset data aw)) := by
  by_cases hdata : data = []
  · subst hdata
    exact holds_write_nil h (by simpa using hlength) aw
  rw [writeInside, if_neg hdata]
  obtain ⟨hsize, hinside, row, hvalid, hlarge, hbytes⟩ := h
  have hpos : 0 < data.length := length_pos_of_ne_nil hdata
  have hlogical := hvalid.logical
  have hphysical := hvalid.physical
  obtain ⟨A, b, B, local', rfl, hfind, hlt, hsum⟩ := findBlock_spec hvalid (show offset < s.physicalSize by omega)
  rw [total_append] at hphysical
  simp only [total] at hphysical
  have hfuel : B.length < s.blocks := by
    have hle := length_le_blocks hvalid
    rw [length_append, length_cons] at hle
    omega
  obtain ⟨-, hB, hAB⟩ := pairwise_append.mp hvalid.apart
  have hwrote := writeBlocks_spec hvalid.linked hB hfuel (Nat.le_of_lt hlt)
    (show local' + data.length ≤ _ by omega) s.bytes
  rw [hfind]
  simp only
  generalize s.writeBlocks s.blocks (some b) local' data s.bytes = bytes' at hwrote
  -- the blocks before the first one that is written keep what they hold
  have hbefore : ∀ pos, pos < s.total A → s.content bytes' A pos = s.content s.bytes A pos := by
    refine content_congr fun c hc x hcovers => hwrote.outside _ x fun c' hc' => ?_
    exact not_covers_of_apart (hAB c hc c' hc') hcovers
  refine ⟨?_, fun pos c hc => ?_, A ++ b :: B, hvalid.congr hlogical, hlarge, fun pos c hc => ?_⟩
  · show max w.size (offset + data.length) = s.logicalSize
    omega
  · have hmax : pos < max w.size (offset + data.length) := by
      simp only [Written.exec] at hc
      split at hc
      · rcases Option.or_eq_some_iff.mp hc with hnew | ⟨-, hold⟩
        · have := (List.getElem?_eq_some_iff.mp hnew).1
          omega
        · have := hinside pos c hold
          omega
      · omega
    exact hmax
  · have hsame : TempSpace.content { s with bytes := bytes' } bytes' (A ++ b :: B) pos =
        s.content bytes' (A ++ b :: B) pos :=
      content_congr_block fun _ _ => rfl
    rw [hsame]
    simp only [Written.exec] at hc
    by_cases hpA : pos < s.total A
    · rw [content_append_of_lt hpA, hbefore pos hpA, ← content_append_of_lt (B := b :: B) hpA]
      rw [if_neg (by omega)] at hc
      exact hbytes pos c hc
    · have hold : ∀ c, w.byte pos = some c → s.content s.bytes (b :: B) (pos - s.total A) = c := by
        intro c hc
        rw [← content_append_of_ge (A := A) (by omega)]
        exact hbytes pos c hc
      have hin : pos - s.total A < s.total (b :: B) := by
        have hlt : pos < s.logicalSize := by
          split at hc
          · rcases Option.or_eq_some_iff.mp hc with hnew | ⟨-, hold⟩
            · have := (List.getElem?_eq_some_iff.mp hnew).1
              omega
            · have := hinside pos c hold
              omega
          · omega
        simp only [total]
        omega
      rw [content_append_of_ge (by omega), hwrote.content _ hin]
      split at hc
      · rw [if_pos (by omega)]
        rw [show pos - s.total A - local' = pos - offset by omega]
        rcases Option.or_eq_some_iff.mp hc with hnew | ⟨hnone, hc⟩
        · rw [hnew]
          rfl
        · rw [hnone]
          exact hold c hc
      · rw [if_neg (by omega)]
        exact hold c hc

theorem exec_write_of_extended (hlt : w.size < offset + data.length) (aw : Answers) :
    ({ w with size := w.size + (offset + data.length - w.size) } : Written).exec (.write offset data aw) =
      w.exec (.write offset data aw) := by
  simp only [Written.exec, Written.mk.injEq, and_true]
  omega

theorem holds_write (h : Holds cfg s w) (hcareful : Careful cfg s (.write offset data a)) :
    Holds cfg (exec cfg s (.write offset data a))
    (w.after (.write offset data a) (call cfg s (.write offset data a)).1) := by
  simp only [exec, call, TempSpace.write]
  by_cases hoffset : s.logicalSize < offset
  · simp only [if_pos hoffset]
    exact h
  · simp only [if_neg hoffset]
    by_cases hlt : s.logicalSize < offset + data.length
    · simp only [if_pos hlt]
      rcases holds_extend h (hcareful (Nat.le_of_not_lt hoffset) hlt) with ⟨hok, hheld⟩ | ⟨herror, hheld⟩
      · rcases hextend : s.extend cfg (offset + data.length - s.logicalSize) a with ⟨result, t⟩
        rw [hextend] at hok hheld
        obtain rfl : result = .ok () := hok
        have hsize := h.size
        have hle : offset + data.length ≤ t.logicalSize := by
          have := hheld.size
          simp only at this
          omega
        have hdone := holds_writeInside hheld hle a
        rw [← hsize, exec_write_of_extended (by omega)] at hdone
        exact hdone
      · rcases hextend : s.extend cfg (offset + data.length - s.logicalSize) a with ⟨result, t⟩
        rw [hextend] at herror hheld
        cases result with
        | ok r => cases herror
        | error e => exact hheld
    · simp only [if_neg hlt]
      exact holds_writeInside h (Nat.le_of_not_lt hlt) a

end

theorem holds_exec (h : Holds cfg s w) (hcareful : Careful cfg s op) :
    Holds cfg (exec cfg s op) (w.after op (call cfg s op).1) := by
  cases op with
  | write offset data a => exact holds_write h hcareful
  | read offset length =>
    simp only [exec, call]
    cases (s.read offset length).isOk <;> exact h
  | extend size a
  | allocateSpace size a =>
    simp only [exec, call, allocateSpace]
    rcases holds_extend h hcareful with ⟨hok, hheld⟩ | ⟨herror, hheld⟩
    · rcases hextend : s.extend cfg size a with ⟨result, t⟩
      rw [hextend] at hok hheld
      obtain rfl : result = .ok () := hok
      exact hheld
    · rcases hextend : s.extend cfg size a with ⟨result, t⟩
      rw [hextend] at herror hheld
      cases result with
      | ok r => cases herror
      | error e => exact hheld

theorem holds_run (h : Holds cfg s w) (hrun : AllAllowed (Careful cfg) (exec cfg) s ops) :
    Holds cfg (ops.foldl (exec cfg) s) (written cfg s w ops) := by
  induction ops generalizing s w with
  | nil => exact h
  | cons op ops ih => exact ih (holds_exec h hrun.1) hrun.2

structure Restored (s u : TempSpace) : Prop where
  sizes : u.logicalSize = s.logicalSize ∧ u.physicalSize = s.physicalSize
  ends : u.head = s.head ∧ u.tail = s.tail
  links : ∀ b, b < s.blocks → u.next b = s.next b ∧ u.prev b = s.prev b ∧ u.block b = s.block b
  read : ∀ offset length, u.read offset length = s.read offset length

theorem restored_iff (hvalid : Valid s row) (hextend : s.extend cfg size a = (.error e, u)) :
    Restored s u ↔ s.head = none ∨ LeavesInitial cfg s size := by
  obtain ⟨huntouched, hl, hp, ht, hhead⟩ := extend_error hvalid hextend
  constructor
  · rintro ⟨-, ⟨hsame, -⟩, -, -⟩
    rw [hhead] at hsame
    split at hsame
    · next hleaves => exact .inr hleaves
    · exact .inl hsame.symm
  · intro hcase
    have hhead' : u.head = s.head := by
      rcases hcase with hnone | hleaves
      · rw [hhead, hnone]
        simp
      · rw [hhead, if_pos hleaves]
    have hvalid' := valid_of_untouched hvalid huntouched hl hp ht hhead'
    refine ⟨⟨hl, hp⟩, ⟨hhead', ht⟩, huntouched.links, fun offset length => ?_⟩
    by_cases hin : offset + length ≤ s.logicalSize
    · rw [read_spec hvalid hin, read_spec hvalid' (by rw [hl]; exact hin)]
      refine congrArg _ (cells_congr fun x hx hlt => content_of_untouched hvalid huntouched ?_)
      have := hvalid.logical
      have := hvalid.physical
      omega
    · have hlt : s.logicalSize < offset + length := Nat.lt_of_not_le hin
      rw [TempSpace.read, TempSpace.read, hl, if_pos hlt, if_pos hlt]

/-- What reads give in a space: inside the logical size, the bytes written last. -/
def ReadsBack (s : TempSpace) (w : Written) : Prop :=
  w.size = s.logicalSize ∧ ∀ offset length, offset + length ≤ s.logicalSize → ∃ data, s.read offset length = .ok data ∧
    data.length = length ∧ ∀ i b, i < length → w.byte (offset + i) = some b → data[i]? = some b

/-- After careful calls, reads give the bytes written last. -/
theorem reads_back (hrun : AllAllowed (Careful cfg) (exec cfg) .empty ops) :
    ReadsBack (ops.foldl (exec cfg) .empty) (written cfg .empty ⟨0, fun _ => none⟩ ops) ∧
      ∀ size a e u, (ops.foldl (exec cfg) .empty).extend cfg size a = (.error e, u) →
        (Restored (ops.foldl (exec cfg) .empty) u ↔
          (ops.foldl (exec cfg) .empty).head = none ∨ LeavesInitial cfg (ops.foldl (exec cfg) .empty) size) := by
  obtain ⟨hsize, -, row, hvalid, -, hbytes⟩ := holds_run holds_empty hrun
  refine ⟨⟨hsize, fun offset length hin => ⟨_, read_spec hvalid hin, length_cells _ _ _, fun i b hi hb => ?_⟩⟩, ?_⟩
  · have hcontent := hbytes (offset + i) b hb
    simp [contents, cells, hi, hcontent]
  · exact fun size a e u hextend => restored_iff hvalid hextend

def allMemory : Answers := ⟨fun _ => 0, true, true, fun _ => .extended, true, none⟩

def nothing : Answers := ⟨fun _ => 0, false, false, fun _ => .raised, false, none⟩

def dynamicSpace : Config := ⟨true, minTempBlockSize, [0], Nat.le_refl _⟩

def largeBlocks : Config := ⟨false, minTempBlockSize, [0], Nat.le_refl _⟩

/-- A write to the initial buffer, a failed extension on the way out of it, and a write that goes on in a file. -/
theorem reads_back_dynamic : ReadsBack
    (([.write 0 [1, 2, 3] allMemory, .extend 70000 nothing, .write 1 [7] allMemory,
      .extend 70000 { nothing with file := fun _ => .extended, fileBlock := true }] :
      List Op).foldl (exec dynamicSpace) .empty)
    (written dynamicSpace .empty ⟨0, fun _ => none⟩ [.write 0 [1, 2, 3] allMemory, .extend 70000 nothing,
      .write 1 [7] allMemory, .extend 70000 { nothing with file := fun _ => .extended, fileBlock := true }]) :=
  (reads_back (by decide)).1

/-- When the second block is refused, what the first one holds cannot be read any more. -/
theorem not_reads_back : ¬∀ (cfg : Config) (ops : List Op),
    ReadsBack (ops.foldl (exec cfg) .empty) (written cfg .empty ⟨0, fun _ => none⟩ ops) := by
  intro h
  obtain ⟨-, hread⟩ := h largeBlocks [.write 0 [7] allMemory, .extend 65536 nothing]
  obtain ⟨data, hdata, hlength, -⟩ := hread 0 1 (by decide)
  have hempty : TempSpace.read ([.write 0 [7] allMemory, .extend 65536 nothing].foldl (exec largeBlocks) .empty) 0 1 =
      .ok [] := by
    decide
  rw [hempty] at hdata
  cases hdata
  cases hlength

end Firebird.Temp
