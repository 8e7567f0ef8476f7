import Firebird.Temp.Blocks

/-! # Extending a temporary space -/

namespace Firebird.Temp
open Lib Function TempSpace List

variable {cfg : Config} {s s' : TempSpace} {a : Answers} {b : BlockId} {row : List BlockId}
  {size logical physical pos : Nat}
  {bytes : Device → Nat → UInt8} {fileSize : FileId → Nat} {blk : Block} {e : TempSpaceError}

/-! ### Files that grow -/

structure FilesGrew (s : TempSpace) (bytes : Device → Nat → UInt8) (fileSize : FileId → Nat) : Prop where
  size : ∀ f, s.fileSize f ≤ fileSize f
  bytes : ∀ d x, (∀ f, d = .file f → x < s.fileSize f) → bytes d x = s.bytes d x

theorem FilesGrew.refl (s : TempSpace) : FilesGrew s s.bytes s.fileSize := ⟨fun _ => Nat.le_refl _, fun _ _ _ => rfl⟩

theorem filesGrew_extendFile (s : TempSpace) (f : FileId) (n : Nat) :
    FilesGrew s (s.extendFile f n).bytes (s.extendFile f n).fileSize := by
  refine ⟨fun g => ?_, fun d x hx => ?_⟩
  · by_cases hg : g = f
    · subst hg
      simp [extendFile]
    · simp [extendFile, update_of_ne hg]
  · by_cases hd : d = .file f
    · subst hd
      simp only [extendFile, update_self]
      exact store_of_lt (hx f rfl)
    · simp only [extendFile, update_of_ne hd]

theorem FilesGrew.trans {f : FileId} {n : Nat} (h : FilesGrew (s.extendFile f n) bytes fileSize) :
    FilesGrew s bytes fileSize := by
  have hfirst := filesGrew_extendFile s f n
  refine ⟨fun g => Nat.le_trans (hfirst.size g) (h.size g), fun d x hx => ?_⟩
  rw [h.bytes d x fun g hg => Nat.lt_of_lt_of_le (hx g hg) (hfirst.size g), hfirst.bytes d x hx]

theorem setupFile_spec (s : TempSpace) (size : Nat) (a : Answers) (tempDirs : List FileId) :
    ∃ bytes fileSize, (s.setupFile size a tempDirs).2 = { s with bytes, fileSize } ∧ FilesGrew s bytes fileSize ∧
      ∀ f, (s.setupFile size a tempDirs).1 = .ok f → s.fileSize f + size ≤ fileSize f := by
  induction tempDirs generalizing s with
  | nil => exact ⟨_, _, rfl, .refl s, nofun⟩
  | cons f tempDirs ih =>
    rw [setupFile]
    cases a.file f with
    | extended =>
      refine ⟨_, _, rfl, filesGrew_extendFile s f size, fun g hg => ?_⟩
      cases hg
      simp
    | noRoom written =>
      obtain ⟨bytes, fileSize, hstate, hgrew, hroom⟩ := ih (s.extendFile f (min written size))
      refine ⟨bytes, fileSize, hstate, hgrew.trans, fun g hg => ?_⟩
      have hsize := (filesGrew_extendFile s f (min written size)).size g
      have := hroom g hg
      omega
    | raised => exact ⟨_, _, rfl, .refl s, nofun⟩

/-! ### A block at the end of the chain -/

theorem makeBlock_linked (h : Valid s row) (blk : Block) :
    Linked (s.makeBlock blk).next (s.makeBlock blk).prev none (row ++ [s.blocks]) none := by
  have hnew : s.blocks ∉ row := fun hmem => Nat.lt_irrefl _ (h.allocated _ hmem)
  rcases eq_nil_or_concat row with rfl | ⟨A, t, rfl⟩
  · have htail : s.tail = none := h.tail
    refine Linked.singleton ?_ ?_ <;> simp [makeBlock, htail]
  · rw [concat_eq_append] at *
    have htail : s.tail = some t := by rw [h.tail, getLast?_concat]
    have hnext : s.next t = none := h.linked.next_eq
    have hinsert := h.linked.insert_behind h.nodup hnew
    rw [nextBehind, prevBehind, hnext] at hinsert
    have hnext' : (s.makeBlock blk).next = update (update s.next s.blocks none) t (some s.blocks) := by
      simp [makeBlock, htail]
    have hprev' : (s.makeBlock blk).prev = update s.prev s.blocks (some t) := by simp [makeBlock, htail]
    rw [hnext', hprev', append_assoc]
    exact hinsert

theorem block_makeBlock (h : Valid s row) (blk : Block) : ∀ b ∈ row, (s.makeBlock blk).block b = s.block b := by
  intro b hb
  have hne : b ≠ s.blocks := Nat.ne_of_lt (h.allocated b hb)
  simp [makeBlock, update_of_ne hne]

def Fresh (s : TempSpace) (fileSize : FileId → Nat) (blk : Block) : Prop :=
  blk.device = .memory s.blocks ∨ ∃ f, blk.device = .file f ∧ s.fileSize f ≤ blk.seek ∧ blk.seek + blk.size ≤ fileSize f

def withBlock (s : TempSpace) (blk : Block) (logical physical : Nat) (bytes : Device → Nat → UInt8)
    (fileSize : FileId → Nat) : TempSpace where
  logicalSize := logical
  physicalSize := physical
  head := s.head.or (some s.blocks)
  tail := some s.blocks
  next := (s.makeBlock blk).next
  prev := (s.makeBlock blk).prev
  block := (s.makeBlock blk).block
  blocks := s.blocks + 1
  bytes := bytes
  fileSize := fileSize
  initialSize := s.initialSize

theorem valid_withBlock (h : Valid s row) (hinitial : s.initialSize = 0) (hgrew : ∀ f, s.fileSize f ≤ fileSize f)
    (hfresh : Fresh s fileSize blk) (hphysical : physical = s.physicalSize + blk.size) (hlogical : logical ≤ physical) :
    Valid (withBlock s blk logical physical bytes fileSize) (row ++ [s.blocks]) := by
  have hblock : ∀ b ∈ row, (withBlock s blk logical physical bytes fileSize).block b = s.block b :=
    block_makeBlock h blk
  have hself : (withBlock s blk logical physical bytes fileSize).block s.blocks = blk := by simp [withBlock, makeBlock]
  have hmem : ∀ {b}, b ∈ row ++ [s.blocks] → b ∈ row ∨ b = s.blocks := by simp
  have hnotInitial : blk.device ≠ .initialBuffer := by
    rcases hfresh with hmemory | ⟨f, hfile, -⟩
    · rw [hmemory]
      nofun
    · rw [hfile]
      nofun
  constructor
  · exact makeBlock_linked h blk
  · rw [withBlock, h.head]
    cases row <;> rfl
  · simp [withBlock]
  · refine nodup_append.mpr ⟨h.nodup, by simp, fun b hb b' hb' => ?_⟩
    obtain rfl := mem_singleton.mp hb'
    exact Nat.ne_of_lt (h.allocated b hb)
  · intro b hb
    rcases hmem hb with hb | rfl
    · exact Nat.lt_succ_of_lt (h.allocated b hb)
    · exact Nat.lt_succ_self _
  · rw [total_append, total_congr_block hblock]
    simp only [withBlock, hphysical, h.physical, total, Nat.add_zero]
    rw [show (s.makeBlock blk).block s.blocks = blk from hself]
  · exact hlogical
  · intro b hb id hdevice
    rcases hmem hb with hb | rfl
    · simp only [hblock b hb] at hdevice
      exact Nat.lt_succ_of_lt (h.memory b hb id hdevice)
    · simp only [hself] at hdevice
      rcases hfresh with hmemory | ⟨f, hfile, -⟩
      · rw [hmemory] at hdevice
        cases hdevice
        exact Nat.lt_succ_self _
      · rw [hfile] at hdevice
        cases hdevice
  · intro b hb f hdevice
    rcases hmem hb with hb | rfl
    · simp only [hblock b hb] at hdevice ⊢
      exact Nat.le_trans (h.file b hb f hdevice) (hgrew f)
    · simp only [hself] at hdevice ⊢
      rcases hfresh with hmemory | ⟨g, hfile, -, hroom⟩
      · rw [hmemory] at hdevice
        cases hdevice
      · rw [hfile] at hdevice
        cases hdevice
        exact hroom
  · intro b hb hdevice
    rcases hmem hb with hb | rfl
    · simp only [hblock b hb] at hdevice
      exact h.initial b hb hdevice
    · simp only [hself] at hdevice
      exact absurd hdevice hnotInitial
  · intro hne
    exact absurd hinitial hne
  · refine pairwise_append.mpr ⟨?_, pairwise_singleton _ _, fun b hb b' hb' hdevice => ?_⟩
    · refine h.apart.imp_of_mem fun {b b'} hb hb' hapart hdevice => ?_
      simp only [hblock b hb, hblock b' hb'] at hdevice ⊢
      exact hapart hdevice
    · obtain rfl := mem_singleton.mp hb'
      simp only [hblock b hb, hself] at hdevice ⊢
      rcases hfresh with hmemory | ⟨f, hfile, hbehind, -⟩
      · exact absurd (h.memory b hb s.blocks (hdevice.trans hmemory)) (Nat.lt_irrefl _)
      · exact Nat.le_trans (h.file b hb f (hdevice.trans hfile)) hbehind

theorem content_withBlock (h : Valid s row)
    (hbytes : ∀ b ∈ row, ∀ x, s.Covers b (s.block b).device x → bytes (s.block b).device
      x = s.bytes (s.block b).device x)
    (hpos : pos < s.physicalSize) :
    (withBlock s blk logical physical bytes fileSize).content bytes (row ++ [s.blocks])
    pos = s.content s.bytes row pos := by
  have hblock : ∀ b ∈ row, (withBlock s blk logical physical bytes fileSize).block b = s.block b :=
    block_makeBlock h blk
  have hphysical := h.physical
  rw [content_append_of_lt (by rw [total_congr_block hblock]; omega), content_congr_block hblock]
  exact content_congr hbytes pos (by omega)

theorem valid_lengthen {A : List BlockId} {f : FileId} (h : Valid s (A ++ [b])) (hdevice : (s.block b).device = .file f)
    (hgrew : ∀ g, s.fileSize g ≤ fileSize g) (hroom : s.fileSize f + size ≤ fileSize f)
    (hphysical : physical = s.physicalSize + size) (hlogical : logical ≤ physical) :
    Valid { s with
      logicalSize := logical, physicalSize := physical, bytes, fileSize
      block := update s.block b { s.block b with size := (s.block b).size + size } } (A ++ [b]) := by
  have hb : b ∉ A := fun hmem => (nodup_append.mp h.nodup).2.2 b hmem b (.head _) rfl
  have hne : ∀ {b'}, b' ∈ A → b' ≠ b := fun hmem heq => hb (heq ▸ hmem)
  have hsame : ∀ b' ∈ A, update s.block b { s.block b with size := (s.block b).size + size } b' = s.block b' :=
    fun b' hb' => update_of_ne (hne hb') _ _
  have hmem : ∀ {b'}, b' ∈ A ++ [b] → b' ∈ A ∨ b' = b := by simp
  have hdevices : ∀ b', (update s.block b { s.block b with size := (s.block b).size + size } b').device =
      (s.block b').device := by
    intro b'
    by_cases hb' : b' = b
    · subst hb'
      rw [update_self]
    · rw [update_of_ne hb']
  refine ⟨h.linked, h.head, h.tail, h.nodup, h.allocated, ?_, hlogical, ?_, ?_, ?_, ?_, ?_⟩
  · have htotal := h.physical
    rw [total_append] at htotal ⊢
    rw [total_congr_block hsame]
    simp only [total, Nat.add_zero, update_self] at htotal ⊢
    omega
  · intro b' hb' id hid
    exact h.memory b' hb' id ((hdevices b').symm.trans hid)
  · intro b' hb' g hg
    rcases hmem hb' with hA | rfl
    · simp only [hsame b' hA] at hg ⊢
      exact Nat.le_trans (h.file b' hb' g hg) (hgrew g)
    · simp only [update_self] at hg ⊢
      have hfile := h.file b' hb' g hg
      rw [hdevice] at hg
      cases hg
      omega
  · intro b' hb' hinitial
    exact h.initial b' hb' ((hdevices b').symm.trans hinitial)
  · intro hne'
    obtain ⟨b', hrow, hblock⟩ := h.initialOnly hne'
    have hbb : b = b' := by
      have hlast := congrArg getLast? hrow
      simpa using hlast
    subst hbb
    rw [hblock] at hdevice
    cases hdevice
  · obtain ⟨hA, -, hAb⟩ := pairwise_append.mp h.apart
    refine pairwise_append.mpr ⟨?_, pairwise_singleton _ _, fun b₁ h₁ b₂ h₂ hdev => ?_⟩
    · refine hA.imp_of_mem fun {b₁ b₂} h₁ h₂ hapart hdev => ?_
      simp only [hsame b₁ h₁, hsame b₂ h₂] at hdev ⊢
      exact hapart hdev
    · obtain rfl := mem_singleton.mp h₂
      simp only [hsame b₁ h₁, update_self] at hdev ⊢
      exact hAb b₁ h₁ b₂ (.head _) hdev

theorem content_lengthen {A : List BlockId} (h : Valid s (A ++ [b]))
    (hbytes : ∀ b' ∈ A ++ [b], ∀ x, s.Covers b' (s.block b').device x → bytes (s.block b').device
      x = s.bytes (s.block b').device x)
    (hpos : pos < s.physicalSize) :
    TempSpace.content { s with
      logicalSize := logical, physicalSize := physical, bytes, fileSize
      block := update s.block b { s.block b with size := (s.block b).size + size } } bytes (A ++ [b]) pos =
        s.content s.bytes (A ++ [b]) pos := by
  have hb : b ∉ A := fun hmem => (nodup_append.mp h.nodup).2.2 b hmem b (.head _) rfl
  have hsame : ∀ b' ∈ A, update s.block b { s.block b with size := (s.block b).size + size } b' = s.block b' :=
    fun b' hb' => update_of_ne (fun heq : b' = b => hb (heq ▸ hb')) _ _
  have hphysical := h.physical
  rw [← content_congr hbytes pos (by omega)]
  rw [total_append] at hphysical
  simp only [total, Nat.add_zero] at hphysical
  by_cases hlt : pos < s.total A
  · rw [content_append_of_lt (by rw [total_congr_block hsame]; exact hlt), content_append_of_lt hlt,
      content_congr_block hsame]
  · have htotal : TempSpace.total { s with
        logicalSize := logical, physicalSize := physical, bytes, fileSize
        block := update s.block b { s.block b with size := (s.block b).size + size } } A = s.total A :=
          total_congr_block hsame
    rw [content_append_of_ge (by omega), content_append_of_ge (by omega), htotal]
    simp only [content, update_self]
    rw [if_pos (by omega), if_pos (by omega)]

theorem le_fbAlign {n b : Nat} (hb : 0 < b) : n ≤ fbAlign n b := by
  have hand := @Nat.and_le_right (n + b - 1) (b - 1)
  rw [fbAlign]
  omega

theorem FilesGrew.covered (h : Valid s row) (hgrew : FilesGrew s bytes fileSize) :
    ∀ b ∈ row, ∀ x, s.Covers b (s.block b).device x → bytes (s.block b).device x = s.bytes (s.block b).device x := by
  rintro b hb x ⟨-, -, hlt⟩
  refine hgrew.bytes _ x fun f hf => ?_
  exact Nat.lt_of_lt_of_le hlt (h.file b hb f hf)

structure Extended (s s' : TempSpace) (row : List BlockId) (logical : Nat) (row' : List BlockId) : Prop where
  valid : Valid s' row'
  logicalSize : s'.logicalSize = logical
  content : ∀ pos, pos < s.physicalSize → s'.content s'.bytes row' pos = s.content s.bytes row pos

theorem extended_append (h : Valid s row) (hinitial : s.initialSize = 0) (hgrew : ∀ f, s.fileSize f ≤ fileSize f)
    (hfresh : Fresh s fileSize blk) (hlogical : logical ≤ s.physicalSize + blk.size)
    (hbytes : ∀ b ∈ row, ∀ x, s.Covers b (s.block b).device x → bytes (s.block b).device x = s.bytes (s.block b).device
      x) :
    Extended s (withBlock s blk logical (s.physicalSize + blk.size) bytes fileSize) row logical (row ++ [s.blocks]) :=
  ⟨valid_withBlock h hinitial hgrew hfresh rfl hlogical, rfl, fun _ hpos => content_withBlock h hbytes hpos⟩

theorem le_growth_of_chain (hinitial : s.initialSize = 0) (hlogical : s.physicalSize < logical)
    (hcut : growth cfg { s with logicalSize := logical } < 2 ^ 32) :
    logical ≤ s.physicalSize + growth cfg { s with logicalSize := logical } % 2 ^ 32 := by
  have hmin := cfg.minBlockSize_ge
  simp only [minTempBlockSize] at hmin
  rw [Nat.mod_eq_of_lt hcut, growth, if_neg (not_not.mpr hinitial)]
  have := @le_fbAlign (logical - s.physicalSize) cfg.minBlockSize (by omega)
  simp only
  omega

theorem allocateBlock_ok_of_chain (h : Valid s row) (hinitial : s.initialSize = 0)
    (hlogical : logical ≤ s.physicalSize + size)
    (hok : allocateBlock cfg { s with logicalSize := logical, physicalSize := s.physicalSize + size } size a = .ok s') :
    ∃ row', Extended s s' row logical row' := by
  have happend : ∀ t b, TempSpace.initialSize t = 0 →
      t.appendBlock b none = .ok { t with head := t.head.or (some b), tail := some b } ∧
      t.appendBlock b a.preserve = .ok { t with head := t.head.or (some b), tail := some b } := by
    intro t b ht
    constructor <;> rw [appendBlock, if_pos ht]
  rw [allocateBlock] at hok
  split at hok
  · -- virtual memory
    rw [(happend _ _ (by exact hinitial)).1] at hok
    cases hok
    have hfresh : Fresh s s.fileSize ⟨size, .memory s.blocks, 0⟩ := .inl rfl
    have hcovered : ∀ b ∈ row, ∀ x, s.Covers b (s.block b).device x →
        update s.bytes (.memory s.blocks) a.fresh (s.block b).device x = s.bytes (s.block b).device x := by
      intro b hb x _
      refine congrFun (update_of_ne ?_ _ _) x
      intro hdevice
      exact absurd (h.memory b hb s.blocks hdevice) (Nat.lt_irrefl _)
    exact ⟨_, extended_append h hinitial (fun _ => Nat.le_refl _) hfresh hlogical hcovered⟩
  · obtain ⟨bytes, fileSize, hstate, hgrew, hroom⟩ :=
      setupFile_spec { s with logicalSize := logical, physicalSize := s.physicalSize + size } size a cfg.tempDirs
    generalize setupFile { s with logicalSize := logical, physicalSize := s.physicalSize + size } size a
        cfg.tempDirs = r
      at hok hstate hroom
    obtain ⟨result, s₁⟩ := r
    obtain rfl : s₁ = _ := hstate
    cases result with
    | error e => cases hok
    | ok f =>
      have hroom : s.fileSize f + size ≤ fileSize f := hroom f rfl
      have hgrew' : FilesGrew s bytes fileSize := ⟨hgrew.size, hgrew.bytes⟩
      have hcovered := hgrew'.covered h
      simp only at hok
      split at hok
      · -- the last block gets longer
        next t ht =>
        cases hok
        obtain ⟨htail, hdevice⟩ := Option.filter_eq_some_iff.mp ht
        rw [h.tail, getLast?_eq_some_iff] at htail
        obtain ⟨A, rfl⟩ := htail
        have hdevice : (s.block t).device = .file f := of_decide_eq_true hdevice
        refine ⟨A ++ [t], valid_lengthen h hdevice hgrew.size hroom rfl hlogical, rfl, fun pos hpos => ?_⟩
        exact content_lengthen h hcovered hpos
      · split at hok
        · rw [(happend _ _ (by exact hinitial)).2] at hok
          cases hok
          have hfresh : Fresh s fileSize ⟨size, .file f, fileSize f - size⟩ := by
            refine .inr ⟨f, rfl, ?_, ?_⟩
            · show s.fileSize f ≤ fileSize f - size
              omega
            · show fileSize f - size + size ≤ fileSize f
              omega
          exact ⟨_, extended_append h hinitial hgrew.size hfresh hlogical hcovered⟩
        · cases hok

def preserved (s : TempSpace) (blk : Block) (bytes : Device → Nat → UInt8) : Device → Nat → UInt8 :=
  update bytes blk.device (store (bytes blk.device) blk.seek (cells (bytes .initialBuffer) 0 s.initialSize))

theorem valid_cleared (s : TempSpace) :
    Valid { s with logicalSize := 0, physicalSize := 0, head := none, tail := none, initialSize := 0 } [] where
  linked := trivial
  head := rfl
  tail := rfl
  nodup := nodup_nil
  allocated := nofun
  physical := rfl
  logical := Nat.le_refl 0
  memory := nofun
  file := nofun
  initial := nofun
  initialOnly h := absurd rfl h
  apart := List.Pairwise.nil

theorem extended_initial (h : Valid s row) (hinitial : s.initialSize ≠ 0) (hgrew : ∀ f, s.fileSize f ≤ fileSize f)
    (hfresh : Fresh s fileSize blk) (hlogical : logical ≤ blk.size) (hphysical : s.physicalSize < logical)
    (hbytes : bytes .initialBuffer = s.bytes .initialBuffer) :
    Extended s (withBlock { s with logicalSize := 0, physicalSize := 0, head := none, tail := none, initialSize := 0 }
      blk logical blk.size (preserved s blk bytes) fileSize) row logical [s.blocks] := by
  obtain ⟨b, rfl, hblock⟩ := h.initialOnly hinitial
  have hsize : s.physicalSize = s.initialSize := by
    rw [h.physical]
    simp [total, hblock]
  refine ⟨valid_withBlock (valid_cleared s) rfl hgrew hfresh (Nat.zero_add _).symm hlogical, rfl, fun pos hpos => ?_⟩
  have hself : (withBlock { s with logicalSize := 0, physicalSize := 0, head := none, tail := none, initialSize := 0 }
      blk logical blk.size (preserved s blk bytes) fileSize).block s.blocks = blk := by
    simp [withBlock, makeBlock]
  have hlt : pos < (cells (bytes .initialBuffer) 0 s.initialSize).length := by
    rw [length_cells]
    omega
  have hnew : preserved s blk bytes blk.device (blk.seek + pos) = s.bytes .initialBuffer (0 + pos) := by
    rw [preserved, update_self, store_at hlt]
    simp [cells, hbytes]
  have hold : s.content s.bytes [b] pos = s.bytes .initialBuffer (0 + pos) := by
    rw [content, hblock, if_pos (show pos < s.initialSize by omega)]
  rw [hold, content, hself, if_pos (by omega)]
  exact hnew

theorem appendBlock_of_initial {t : TempSpace} (hinitial : t.initialSize ≠ 0)
    (hsize : t.initialSize ≤ (t.block b).size) : t.appendBlock b none = .ok { t with
      bytes := preserved t (t.block b) t.bytes, initialSize := 0, head := t.head.or (some b), tail := some b } := by
  have hlength : t.blockLength b 0 t.initialSize = t.initialSize := by
    rw [blockLength, if_neg (by omega)]
  simp only [appendBlock, if_neg hinitial, hlength, take_length]
  rfl

theorem allocateBlock_ok_of_initial (h : Valid s row) (hinitial : s.initialSize ≠ 0) (hlogical : logical ≤ size)
    (hphysical : s.physicalSize < logical)
    (hok : allocateBlock cfg { s with logicalSize := logical, head := none, tail := none, physicalSize := size } size
      a = .ok s') :
    ∃ row', Extended s s' row logical row' := by
  have hsize : s.initialSize ≤ size := by
    obtain ⟨b, rfl, hblock⟩ := h.initialOnly hinitial
    have htotal := h.physical
    simp only [total, hblock, Nat.add_zero] at htotal
    omega
  have hself : ∀ (t : TempSpace) blk, (t.makeBlock blk).block t.blocks = blk := by
    simp [makeBlock]
  rw [allocateBlock] at hok
  split at hok
  · have hfresh : Fresh s s.fileSize ⟨size, .memory s.blocks, 0⟩ := .inl rfl
    have hne : Device.initialBuffer ≠ .memory s.blocks := Device.noConfusion
    rw [appendBlock_of_initial (by exact hinitial) (by simp only [hself]; exact hsize)] at hok
    simp only [hself] at hok
    cases hok
    exact ⟨_, extended_initial h hinitial (fun _ => Nat.le_refl _) hfresh hlogical hphysical
      (update_of_ne hne a.fresh s.bytes)⟩
  · obtain ⟨bytes, fileSize, hstate, hgrew, hroom⟩ :=
      setupFile_spec { s with logicalSize := logical, head := none, tail := none, physicalSize := size } size
      a cfg.tempDirs
    generalize setupFile { s with logicalSize := logical, head := none, tail := none, physicalSize := size } size a
        cfg.tempDirs = r
      at hok hstate hroom
    obtain ⟨result, s₁⟩ := r
    obtain rfl : s₁ = _ := hstate
    cases result with
    | error e => cases hok
    | ok f =>
      have hroom : s.fileSize f + size ≤ fileSize f := hroom f rfl
      simp only [Option.filter_none] at hok
      split at hok
      · have hfresh : Fresh s fileSize ⟨size, .file f, fileSize f - size⟩ := by
          refine .inr ⟨f, rfl, ?_, ?_⟩
          · show s.fileSize f ≤ fileSize f - size
            omega
          · show fileSize f - size + size ≤ fileSize f
            omega
        cases hpreserve : a.preserve with
        | some n =>
          rw [hpreserve, appendBlock, if_neg (by exact hinitial)] at hok
          cases hok
        | none =>
          rw [hpreserve, appendBlock_of_initial (by exact hinitial) (by simp only [hself]; exact hsize)] at hok
          simp only [hself] at hok
          cases hok
          exact ⟨_, extended_initial h hinitial hgrew.size hfresh hlogical hphysical (funext fun x =>
            hgrew.bytes _ x (by simp))⟩
      · cases hok

/-- The chain of a dynamic space starts with the initial buffer, unless it is large. -/
def StartsLarge (cfg : Config) (s : TempSpace) (row : List BlockId) : Prop :=
  cfg.initiallyDynamic = true → s.initialSize = 0 → row = [] ∨ minTempBlockSize ≤ s.physicalSize

theorem valid_initialBlock (hrow : Linked s.next s.prev none [b] none) (hhead : s.head = some b)
    (htail : s.tail = some b)
    (hallocated : b < s.blocks) (hblock : s.block b = ⟨s.initialSize, .initialBuffer, 0⟩) (hne : s.initialSize ≠ 0)
    (hphysical : s.physicalSize = s.initialSize) (hlogical : s.logicalSize ≤ s.physicalSize) : Valid s [b] := by
  have hmem : ∀ {b'}, b' ∈ [b] → b' = b := mem_singleton.mp
  refine ⟨hrow, hhead, htail, pairwise_singleton _ _, ?_, ?_, hlogical, ?_, ?_, fun _ _ _ => hne, fun _ =>
    ⟨b, rfl, hblock⟩, pairwise_singleton _ _⟩
  · intro b' hb'
    exact hmem hb' ▸ hallocated
  · simp [total, hblock, hphysical]
  · intro b' hb' id hdevice
    rw [hmem hb', hblock] at hdevice
    cases hdevice
  · intro b' hb' f hdevice
    rw [hmem hb', hblock] at hdevice
    cases hdevice

theorem extendInitial_ok (h : Valid s row) (hempty : s.initialSize = 0 → row = [])
    (hlogical : s.physicalSize < s.logicalSize + size)
    (hok : extendInitial { s with logicalSize := s.logicalSize + size } size a = .ok s') :
    s'.initialSize ≠ 0 ∧ ∃ row', Extended s s' row (s.logicalSize + size) row' := by
  have hle := h.logical
  rw [extendInitial] at hok
  split at hok
  · split at hok
    · next hinitial =>
      cases hok
      obtain rfl := hempty hinitial
      have hzero : s.physicalSize = 0 := h.physical
      refine ⟨by simp only; omega, [s.blocks], ?_, rfl, fun pos hpos => absurd hpos (by omega)⟩
      refine valid_initialBlock (.singleton ?_ ?_) rfl rfl (Nat.lt_succ_self _) ?_ (by simp only; omega)
        rfl (by simp only; omega)
      all_goals exact update_self _ _ _
    · next hinitial =>
      obtain ⟨b, rfl, hblock⟩ := h.initialOnly hinitial
      have hhead : s.head = some b := h.head
      have htail : s.tail = some b := h.tail
      have htotal : s.physicalSize = s.initialSize := by
        rw [h.physical]
        simp [total, hblock]
      simp only [hhead] at hok
      cases hok
      refine ⟨by simp only; omega, [b], ?_, rfl, fun pos hpos => ?_⟩
      · refine valid_initialBlock (.singleton ?_ ?_) rfl htail (h.allocated b (.head _)) ?_ (by simp only; omega) rfl
          (by simp only; omega)
        all_goals exact update_self _ _ _
      · have hlt : pos < (cells (s.bytes .initialBuffer) 0 s.initialSize).length := by
          rw [length_cells]
          omega
        have hnew : store a.fresh 0 (cells (s.bytes .initialBuffer) 0 s.initialSize) (0 + pos) =
            s.bytes .initialBuffer (0 + pos) := by
          rw [store_at hlt]
          simp [cells]
        simp only [content, update_self, hblock]
        rw [if_pos (by omega), if_pos (by omega)]
        exact hnew
  · cases hok

theorem extend_ok (h : Valid s row) (hlarge : StartsLarge cfg s row)
    (hcut : s.physicalSize < s.logicalSize + size → staysInitial cfg { s with logicalSize := s.logicalSize + size } =
      false → growth cfg { s with logicalSize := s.logicalSize + size } < 2 ^ 32)
    (hok : s.extend cfg size a = (.ok (), s')) :
    ∃ row', Extended s s' row (s.logicalSize + size) row' ∧ StartsLarge cfg s' row' := by
  rw [TempSpace.extend] at hok
  split at hok
  · next hle =>
    cases hok
    exact ⟨row, ⟨h.congr hle, rfl, fun _ _ => content_congr_block fun _ _ => rfl⟩, hlarge⟩
  · next hgrow =>
    have hgrow : s.physicalSize < s.logicalSize + size := Nat.lt_of_not_le hgrow
    cases hstays : staysInitial cfg { s with logicalSize := s.logicalSize + size } with
    | true =>
      simp only [hstays, if_true] at hok
      obtain ⟨hdynamic, hsmall⟩ := Bool.and_eq_true_iff.mp hstays
      have hsmall : s.logicalSize + size < minTempBlockSize := of_decide_eq_true hsmall
      have hempty : s.initialSize = 0 → row = [] := by
        intro hinitial
        refine (hlarge hdynamic hinitial).resolve_right ?_
        omega
      cases hresult : extendInitial { s with logicalSize := s.logicalSize + size } size a with
      | error e =>
        rw [hresult] at hok
        cases hok
      | ok t =>
        rw [hresult] at hok
        cases hok
        obtain ⟨hinitial, row', hextended⟩ := extendInitial_ok h hempty hgrow hresult
        exact ⟨row', hextended, fun _ hzero => absurd hzero hinitial⟩
    | false =>
      have hcut := hcut hgrow hstays
      simp only [hstays, Bool.false_eq_true, if_false] at hok
      cases hresult : extendBlocks cfg { s with logicalSize := s.logicalSize + size } a with
      | error e =>
        rw [hresult] at hok
        cases hok
      | ok t =>
        rw [hresult] at hok
        cases hok
        have hextended : ∃ row', Extended s s' row (s.logicalSize + size) row' := by
          rw [extendBlocks] at hresult
          split at hresult
          · next hinitial =>
            refine allocateBlock_ok_of_initial h hinitial ?_ hgrow hresult
            have hmin := cfg.minBlockSize_ge
            simp only [minTempBlockSize] at hmin
            have hge := @le_fbAlign (s.logicalSize + size) cfg.minBlockSize (by omega)
            rw [Nat.mod_eq_of_lt hcut, growth, if_pos hinitial]
            exact hge
          · next hinitial =>
            have hinitial : s.initialSize = 0 := not_not.mp hinitial
            exact allocateBlock_ok_of_chain h hinitial (le_growth_of_chain hinitial hgrow hcut) hresult
        obtain ⟨row', hextended⟩ := hextended
        refine ⟨row', hextended, fun hdynamic _ => .inr ?_⟩
        have hle := hextended.valid.logical
        rw [hextended.logicalSize] at hle
        have hlargeEnough : ¬s.logicalSize + size < minTempBlockSize := by
          intro hlt
          rw [staysInitial, hdynamic, decide_eq_true (by exact hlt)] at hstays
          cases hstays
        omega

structure Untouched (s s' : TempSpace) (row : List BlockId) : Prop where
  blocks : s.blocks ≤ s'.blocks
  links : ∀ b, b < s.blocks → s'.next b = s.next b ∧ s'.prev b = s.prev b ∧ s'.block b = s.block b
  fileSize : ∀ f, s.fileSize f ≤ s'.fileSize f
  initialSize : s'.initialSize = s.initialSize
  bytes : ∀ b ∈ row, ∀ x, s.Covers b (s.block b).device x → s'.bytes (s.block b).device x = s.bytes (s.block b).device x

theorem untouched_of_filesGrew (h : Valid s row) (hgrew : FilesGrew s bytes fileSize) (head tail : Option BlockId) :
    Untouched s { s with logicalSize := logical, physicalSize := physical, head, tail, bytes, fileSize } row :=
  ⟨Nat.le_refl _, fun _ _ => ⟨rfl, rfl, rfl⟩, hgrew.size, rfl, hgrew.covered h⟩

theorem untouched_makeBlock (h : Valid s row) (blk : Block) (hgrew : FilesGrew s bytes fileSize) {t : TempSpace}
    (hlinks : t.next = s.next ∧ t.prev = s.prev ∧ t.block = s.block ∧ t.blocks = s.blocks ∧
      t.initialSize = s.initialSize)
    (htail : t.tail = none) (hfileSize : t.fileSize = fileSize)
    {bytes' : Device → Nat → UInt8} (hbytes' : ∀ b ∈ row, ∀ x, s.Covers b (s.block b).device x →
      bytes' (s.block b).device x = bytes (s.block b).device x) :
    Untouched s { t.makeBlock blk with bytes := bytes' } row := by
  obtain ⟨hnext, hprev, hblock, hblocks, hinitial⟩ := hlinks
  refine ⟨?_, fun b hb => ?_, ?_, hinitial, fun b hb x hcovers => ?_⟩
  · simp [makeBlock, hblocks]
  · have hne : b ≠ s.blocks := Nat.ne_of_lt hb
    refine ⟨?_, ?_, ?_⟩ <;> simp [makeBlock, htail, hnext, hprev, hblock, hblocks, update_of_ne hne]
  · rw [show (TempSpace.fileSize { t.makeBlock blk with bytes := bytes' }) = fileSize from hfileSize]
    exact hgrew.size
  · exact (hbytes' b hb x hcovers).trans (hgrew.covered h b hb x hcovers)

theorem allocateBlock_error (h : Valid s row) {head tail : Option BlockId} {s₁ : TempSpace}
    (htail : s.initialSize ≠ 0 → tail = none)
    (herror : allocateBlock cfg { s with logicalSize := logical, physicalSize := physical, head, tail } size a =
      .error (e, s₁)) :
    Untouched s s₁ row := by
  rw [allocateBlock] at herror
  split at herror
  · -- virtual memory is not refused any more
    rw [appendBlock] at herror
    split at herror <;> cases herror
  · obtain ⟨bytes, fileSize, hstate, hgrew, -⟩ :=
      setupFile_spec { s with logicalSize := logical, physicalSize := physical, head, tail } size a cfg.tempDirs
    generalize setupFile { s with logicalSize := logical, physicalSize := physical, head, tail } size a cfg.tempDirs = r
      at herror hstate
    obtain ⟨result, t⟩ := r
    obtain rfl : t = _ := hstate
    have hgrew' : FilesGrew s bytes fileSize := ⟨hgrew.size, hgrew.bytes⟩
    cases result with
    | error e =>
      cases herror
      exact untouched_of_filesGrew h hgrew' head tail
    | ok f =>
      simp only at herror
      split at herror
      · cases herror
      · split at herror
        · rw [appendBlock] at herror
          split at herror
          · cases herror
          · next hinitial =>
            cases hpreserve : a.preserve with
            | none =>
              rw [hpreserve] at herror
              cases herror
            | some n =>
              rw [hpreserve] at herror
              cases herror
              obtain ⟨b, rfl, hblock⟩ := h.initialOnly hinitial
              refine untouched_makeBlock
                (t := { s with logicalSize := logical, physicalSize := physical, head, tail, bytes, fileSize })
                h _ hgrew' ⟨rfl, rfl, rfl, rfl, rfl⟩ (htail hinitial) rfl fun b' hb' x _ => ?_
              obtain rfl := mem_singleton.mp hb'
              rw [hblock]
              simp [makeBlock]
        · cases herror
          exact untouched_of_filesGrew h hgrew' head tail

def LeavesInitial (cfg : Config) (s : TempSpace) (size : Nat) : Prop :=
  staysInitial cfg { s with logicalSize := s.logicalSize + size } = false ∧ s.initialSize ≠ 0

instance (cfg : Config) (s : TempSpace) (size : Nat) : Decidable (LeavesInitial cfg s size) :=
  inferInstanceAs (Decidable (_ ∧ _))

/-- An extension that raises restores the sizes and the tail; but of the head, only what it has saved. -/
theorem extend_error (h : Valid s row) (herror : s.extend cfg size a = (.error e, s')) :
    Untouched s s' row ∧ s'.logicalSize = s.logicalSize ∧ s'.physicalSize = s.physicalSize ∧ s'.tail = s.tail ∧
      s'.head = if LeavesInitial cfg s size then s.head else none := by
  have huntouched : ∀ {s₁ head}, Untouched s s₁ row →
      Untouched s { s₁ with logicalSize := s.logicalSize, physicalSize := s.physicalSize, head, tail := s.tail } row :=
    fun h => ⟨h.blocks, h.links, h.fileSize, h.initialSize, h.bytes⟩
  rw [TempSpace.extend] at herror
  split at herror
  · cases herror
  · cases hstays : staysInitial cfg { s with logicalSize := s.logicalSize + size } with
    | true =>
      simp only [hstays, if_true] at herror
      cases hresult : extendInitial { s with logicalSize := s.logicalSize + size } size a with
      | ok t =>
        rw [hresult] at herror
        cases herror
      | error r =>
        obtain ⟨e, s₁⟩ := r
        rw [hresult] at herror
        cases herror
        have hsame : s₁ = { s with logicalSize := s.logicalSize + size } := by
          rw [extendInitial] at hresult
          split at hresult
          · split at hresult
            · cases hresult
            · split at hresult <;> cases hresult
              rfl
          · cases hresult
            rfl
        subst hsame
        refine ⟨huntouched (untouched_of_filesGrew h (.refl s) s.head s.tail), rfl, rfl, rfl, ?_⟩
        simp [LeavesInitial, hstays]
    | false =>
      simp only [hstays, Bool.false_eq_true, if_false] at herror
      cases hresult : extendBlocks cfg { s with logicalSize := s.logicalSize + size } a with
      | ok t =>
        rw [hresult] at herror
        cases herror
      | error r =>
        obtain ⟨e, s₁⟩ := r
        rw [hresult] at herror
        cases herror
        have hsame : Untouched s s₁ row := by
          rw [extendBlocks] at hresult
          split at hresult
          · exact allocateBlock_error h (fun _ => rfl) hresult
          · next hinitial => exact allocateBlock_error h (fun hne => absurd hne hinitial) hresult
        refine ⟨huntouched hsame, rfl, rfl, rfl, ?_⟩
        simp [LeavesInitial, hstays]

theorem valid_of_untouched (h : Valid s row) (huntouched : Untouched s s' row)
    (hlogical : s'.logicalSize = s.logicalSize)
    (hphysical : s'.physicalSize = s.physicalSize) (htail : s'.tail = s.tail) (hhead : s'.head = s.head) :
    Valid s' row := by
  have hblock : ∀ b ∈ row, s'.block b = s.block b := fun b hb => (huntouched.links b (h.allocated b hb)).2.2
  refine ⟨?_, hhead.trans h.head, htail.trans h.tail, h.nodup, ?_, ?_, ?_, ?_, ?_, ?_, ?_, ?_⟩
  · exact h.linked.congr (fun b hb => (huntouched.links b (h.allocated b hb)).1) fun b hb =>
      (huntouched.links b (h.allocated b hb)).2.1
  · exact fun b hb => Nat.lt_of_lt_of_le (h.allocated b hb) huntouched.blocks
  · rw [hphysical, h.physical, total_congr_block hblock]
  · rw [hlogical, hphysical]
    exact h.logical
  · intro b hb id hdevice
    rw [hblock b hb] at hdevice
    exact Nat.lt_of_lt_of_le (h.memory b hb id hdevice) huntouched.blocks
  · intro b hb f hdevice
    rw [hblock b hb] at hdevice ⊢
    exact Nat.le_trans (h.file b hb f hdevice) (huntouched.fileSize f)
  · intro b hb hdevice
    rw [hblock b hb] at hdevice
    rw [huntouched.initialSize]
    exact h.initial b hb hdevice
  · intro hne
    rw [huntouched.initialSize] at hne ⊢
    obtain ⟨b, rfl, hb⟩ := h.initialOnly hne
    exact ⟨b, rfl, (hblock b (.head _)).trans hb⟩
  · refine h.apart.imp_of_mem fun {b b'} hb hb' hapart hdevice => ?_
    rw [hblock b hb, hblock b' hb'] at hdevice ⊢
    exact hapart hdevice

theorem content_of_untouched (h : Valid s row) (huntouched : Untouched s s' row) (hpos : pos < s.total row) :
    s'.content s'.bytes row pos = s.content s.bytes row pos := by
  rw [content_congr_block fun b hb => (huntouched.links b (h.allocated b hb)).2.2]
  exact content_congr huntouched.bytes pos hpos

end Firebird.Temp
