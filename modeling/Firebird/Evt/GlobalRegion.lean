import Firebird.Lib.Chains
import Firebird.Evt.EventManager

/-! # The allocator of the shared region

Blocks of the region are taken from a list of free blocks in the order of their offsets, linked inside the blocks
themselves, and are put back there, joined to the free blocks beside them. -/

namespace Firebird.Evt
open Lib Function List

def fbAlignment : Nat := 8
def sizeofHdr : Nat := 8
def sizeofFrb : Nat := 12
def typeFrb : Nat := 2

def fbAlign (length : Nat) : Nat := (length + (fbAlignment - 1)) / fbAlignment * fbAlignment % 2 ^ 32

/-- The shared region: what is stored at each offset, where its blocks begin, the head of the free list and the length.
-/
structure Region where
  words : Nat → Nat
  sizeofEvh : Nat
  evhFree : Nat
  evhLength : Nat

namespace Region

def hdrLength (r : Region) (block : Nat) : Nat := r.words block

def frbNext (r : Region) (block : Nat) : Nat := r.words (block + 8)

def setHdrLength (r : Region) (block length : Nat) : Region := { r with words := update r.words block length }
def setHdrType (r : Region) (block type : Nat) : Region := { r with words := update r.words (block + 4) type }

def setLink (r : Region) : Option Nat → Nat → Region
  | none, target => { r with evhFree := target }
  | some block, target => { r with words := update r.words (block + 8) target }

def link (target : Nat) : Option Nat := if target = 0 then none else some target

/-- The free blocks in the order of the list, if it comes to an end. -/
def freeList (r : Region) : Option (List Nat) := walk (fun block => link (r.frbNext block)) r.evhLength (link r.evhFree)

/-- A free block for a request: where the link to it stands, and how much of it remains. -/
structure Best where
  prior : Option Nat
  block : Nat
  tail : Int
deriving DecidableEq

def search (r : Region) (length : Nat) : Option Nat → List Nat → Option Best → Option Best
  | _, [], best => best
  | prior, free :: rest, best =>
    let tail := slong (r.hdrLength free - length)
    search r length (some free) rest
      (if 0 ≤ tail ∧ best.all (fun best => tail < best.tail) then some ⟨prior, free, tail⟩ else best)

/-- The contents of a new block: the number of bytes cleared is a `size_t`. -/
def clear (r : Region) (free type : Nat) : Region :=
  let bytes := (r.hdrLength free + (2 ^ 64 - sizeofHdr)) % 2 ^ 64
  ({ r with words := fun x =>
      if free + sizeofHdr ≤ x ∧ x < free + sizeofHdr + bytes then 0 else r.words x }).setHdrType free type

def take (r : Region) (type length : Nat) (best : Best) : Nat × Region :=
  if best.tail < sizeofFrb then
    (best.block, (r.setLink best.prior (r.frbNext best.block)).clear best.block type)
  else
    let r := r.setHdrLength best.block ((r.hdrLength best.block + (2 ^ 32 - length)) % 2 ^ 32)
    let free := best.block + r.hdrLength best.block
    (free, (r.setHdrLength free length).clear free type)

def allocFrom (r : Region) (type length : Nat) : Option (Nat × Region) := do
  let best ← r.search length none (← r.freeList) none
  return r.take type length best

def joinNext (r : Region) (block free : Nat) : Region :=
  if block + r.hdrLength block = free then
    (r.setHdrLength block (r.hdrLength block + r.hdrLength free)).setLink (some block) (r.frbNext free)
  else r

def joinPrior (r : Region) (block : Nat) : Option Nat → Region
  | none => r
  | some prior =>
    if prior + r.hdrLength prior = block then
      (r.setHdrLength prior (r.hdrLength prior + r.hdrLength block)).setLink (some prior) (r.frbNext block)
    else r

/-- Without a result the block is a bad one. The list ends at offset 0, where the header of the region is. -/
def freeGlobal (r : Region) (block : Nat) : Option Region := do
  let r := r.setHdrType block typeFrb
  let list ← r.freeList
  let prior := (list.takeWhile (· ≤ block)).getLast?
  let free := (list.dropWhile (· ≤ block)).head?.getD 0
  if block = 0 ∨ r.evhLength < block ∨ prior.any (fun prior => block < prior + r.hdrLength prior) then none
  else some ((((r.setLink (some block) free).setLink prior block).joinNext block free).joinPrior block prior)

/-- The region after it was remapped, the new part being a block of its own. -/
def extend (r : Region) (increment : Nat) : Region :=
  let r' := (r.setHdrLength r.evhLength increment).setHdrType r.evhLength typeFrb
  { r'.setLink (some r.evhLength) 0 with evhLength := r.evhLength + increment }

/-- `remapped` says whether the mapping can grow; without a result the process logs and dies. -/
def allocGlobal (r : Region) (increment : Nat) (remapped : Bool) (type length : Nat) : Option (Nat × Region) :=
  match r.allocFrom type (fbAlign length) with
  | some allocated => some allocated
  | none =>
    if remapped then do (← (r.extend increment).freeGlobal r.evhLength).allocFrom type (fbAlign length) else none

def init (sizeofEvh mapped : Nat) : Region :=
  { words := update (update (update (fun _ => 0) sizeofEvh (mapped - sizeofEvh)) (sizeofEvh + 4) typeFrb) (sizeofEvh +
    8) 0
    sizeofEvh
    evhFree := sizeofEvh
    evhLength := mapped }

end Region

structure Block where
  length : Nat
  free : Bool
deriving DecidableEq

variable {r r' : Region} {A B bs : List Block} {b : Block} {o x len target : Nat} {prior : Option Nat}
  {words words' : Nat → Nat}

def total (bs : List Block) : Nat := (bs.map Block.length).sum

def offsets (free : Bool) : Nat → List Block → List (Nat × Nat)
  | _, [] => []
  | o, b :: bs => if b.free = free then (o, b.length) :: offsets free (o + b.length)
      bs else offsets free (o + b.length) bs

def frees (o : Nat) (bs : List Block) : List Nat := (offsets true o bs).map Prod.fst

def Tiles (words : Nat → Nat) : Nat → List Block → Prop
  | _, [] => True
  | o, b :: bs => words o = b.length ∧ 12 ≤ b.length ∧ Tiles words (o + b.length) bs

theorem total_cons : total (b :: bs) = b.length + total bs := sum_cons

theorem total_append : total (A ++ B) = total A + total B := by
  rw [total, map_append, sum_append]
  rfl

theorem tiles_append : Tiles words o (A ++ B) ↔ Tiles words o A ∧ Tiles words (o + total A) B := by
  induction A generalizing o with
  | nil => simp [Tiles, total]
  | cons b A ih => simp only [cons_append, Tiles, ih, total_cons, Nat.add_assoc, and_assoc]

theorem offsets_append (free : Bool) : offsets free o (A ++ B) = offsets free o A ++ offsets free (o + total A) B := by
  induction A generalizing o with
  | nil => rfl
  | cons b A ih =>
    simp only [cons_append, offsets, ih, total_cons, Nat.add_assoc]
    split <;> rfl

theorem frees_append : frees o (A ++ B) = frees o A ++ frees (o + total A) B := by
  rw [frees, offsets_append, map_append]
  rfl

theorem mem_offsets {free : Bool} {f : Nat × Nat} (h : Tiles words o bs) (hf : f ∈ offsets free o bs) :
    o ≤ f.1 ∧ f.1 + f.2 ≤ o + total bs ∧ 12 ≤ f.2 ∧ words f.1 = f.2 := by
  induction bs generalizing o with
  | nil => cases hf
  | cons b bs ih =>
    obtain ⟨hlen, hroom, hrest⟩ := h
    rw [total_cons]
    have hlater : f ∈ offsets free (o + b.length) bs → _ := fun hf => ih hrest hf
    rw [offsets] at hf
    split at hf
    · rcases mem_cons.mp hf with rfl | hf
      · exact ⟨Nat.le_refl _, by dsimp only; omega, hroom, hlen⟩
      · obtain ⟨h1, h2, h3⟩ := hlater hf
        exact ⟨by omega, by omega, h3⟩
    · obtain ⟨h1, h2, h3⟩ := hlater hf
      exact ⟨by omega, by omega, h3⟩

theorem mem_frees (h : Tiles words o bs) (hx : x ∈ frees o bs) : o ≤ x ∧ x + words x ≤ o + total bs ∧ 12 ≤ words x := by
  obtain ⟨⟨y, n⟩, hf, rfl⟩ := mem_map.mp hx
  obtain ⟨h1, h2, h3, h4⟩ := mem_offsets h hf
  dsimp only at h1 h2 h3 h4 ⊢
  rw [h4]
  exact ⟨h1, h2, h3⟩

theorem Tiles.congr (h : Tiles words o bs)
    (hsame : ∀ y, o ≤ y → y < o + total bs → words' y = words y ∨ ∃ f ∈ frees o bs, y = f + 8) : Tiles words' o bs := by
  induction bs generalizing o with
  | nil => trivial
  | cons b bs ih =>
    have htiles := h
    obtain ⟨hlen, hroom, hrest⟩ := h
    rw [total_cons] at hsame
    refine ⟨?_, hroom, ih hrest fun y hy hlt => ?_⟩
    · rcases hsame o (Nat.le_refl _) (by omega) with hsame | ⟨f, hf, hne⟩
      · rw [hsame, hlen]
      · have := (mem_frees htiles hf).1
        omega
    · rcases hsame y (by omega) (by omega) with hsame | ⟨f, hf, rfl⟩
      · exact .inl hsame
      · refine .inr ⟨f, ?_, rfl⟩
        rw [frees, offsets] at hf
        split at hf
        · rcases mem_cons.mp hf with rfl | hf
          · omega
          · exact hf
        · exact hf

def Linked (r : Region) (list : List Nat) : Prop :=
  Leads (fun block => Region.link (r.frbNext block)) (Region.link r.evhFree) list none

structure Partition (r : Region) (bs : List Block) : Prop where
  tiles : Tiles r.words r.sizeofEvh bs
  covers : r.sizeofEvh + total bs = r.evhLength
  linked : Linked r (frees r.sizeofEvh bs)
  start : 0 < r.sizeofEvh
  addresses : r.evhLength < 2 ^ 31

def Apart (bs : List Block) : Prop := bs.IsChain fun a b => a.free = true → b.free = false

def Region.nextOf (r : Region) (block : Nat) : Option Nat := Region.link (r.frbNext block)

theorem link_of_pos (h : 0 < target) : Region.link target = some target := if_neg (Nat.ne_of_gt h)

theorem Region.nextOf_congr {q : Nat} (h : r'.words (q + 8) = r.words (q + 8)) : r'.nextOf q = r.nextOf q :=
  congrArg Region.link h

theorem Region.nextOf_setLink (r : Region) (p target q : Nat) :
    (r.setLink (some p) target).nextOf q = if q = p then Region.link target else r.nextOf q := by
  change Region.link (update r.words (p + 8) target (q + 8)) = _
  by_cases h : q = p
  · rw [if_pos h, h, update_self]
  · rw [if_neg h, update_of_ne (by omega)]
    rfl

theorem leads_setLink {F : List Nat} {mid : Option Nat} (h : Leads r.nextOf (Region.link r.evhFree) F mid)
    (hn : F.Nodup) :
    Leads (r.setLink F.getLast? target).nextOf (Region.link (r.setLink F.getLast? target).evhFree) F
    (Region.link target) := by
  rcases eq_nil_or_concat F with rfl | ⟨F', p, rfl⟩
  · exact rfl
  · rw [concat_eq_append] at *
    obtain ⟨at_p, hF', hp⟩ := leads_append.mp h
    have hnp : ∀ q ∈ F', q ≠ p := by
      rintro q hq rfl
      exact (nodup_append.mp hn).2.2 q hq q (.head []) rfl
    rw [getLast?_concat]
    refine leads_append.mpr ⟨at_p, hF'.congr fun q hq => ?_, hp.1, ?_⟩
    · rw [Region.nextOf_setLink, if_neg (hnp q hq)]
    · rw [Leads, Region.nextOf_setLink, if_pos rfl]

theorem frees_ascending (h : Tiles words o bs) : (frees o bs).Pairwise (· < ·) := by
  induction bs generalizing o with
  | nil => exact .nil
  | cons b bs ih =>
    obtain ⟨-, hroom, hrest⟩ := h
    rw [frees, offsets]
    split
    · refine pairwise_cons.mpr ⟨fun x hx => ?_, ih hrest⟩
      have hle := (mem_frees hrest hx).1
      dsimp only
      omega
    · exact ih hrest

theorem Partition.replace {M N : List Block} {n : Nat} (h : Partition r (A ++ (M ++ B)))
    (hx : x = r.sizeofEvh + total A)
    (hn : total M = n) (hn' : total N = n) (hevh : r'.sizeofEvh = r.sizeofEvh ∧ r'.evhLength = r.evhLength)
    (hout : ∀ y, y < x ∨ x + n ≤ y → r'.words y = r.words y ∨ ∃ p ∈ frees r.sizeofEvh A, y = p + 8)
    (hM : Tiles r'.words x N) {first behind : Option Nat} (hF : Leads r'.nextOf (Region.link r'.evhFree)
      (frees r.sizeofEvh A) first)
    (hmid : Leads r'.nextOf first (frees x N) behind) (hlast : Leads r.nextOf behind (frees (x + n) B) none) :
    Partition r' (A ++ (N ++ B)) := by
  obtain ⟨hA, hrest⟩ := tiles_append.mp h.tiles
  obtain ⟨-, hB⟩ := tiles_append.mp hrest
  have hcovers := h.covers
  rw [total_append, total_append, hn] at hcovers
  rw [← hx, hn] at hB
  have hsame : ∀ y, x + n ≤ y → r'.words y = r.words y := fun y hy => by
    rcases hout y (.inr hy) with hsame | ⟨p, hp, rfl⟩
    · exact hsame
    · have := mem_frees hA hp
      omega
  refine ⟨?_, by rw [hevh.1, hevh.2, total_append, total_append, hn']; exact hcovers, ?_,
    hevh.1 ▸ h.start, hevh.2 ▸ h.addresses⟩
  · rw [hevh.1]
    refine tiles_append.mpr ⟨hA.congr fun y _ hy => hout y (.inl (hx ▸ hy)), tiles_append.mpr ⟨hx ▸ hM, ?_⟩⟩
    rw [← hx, hn']
    exact hB.congr fun y hy _ => .inl (hsame y hy)
  · rw [hevh.1, frees_append, frees_append, ← hx, hn']
    refine leads_append.mpr ⟨first, hF, leads_append.mpr ⟨behind, hmid, hlast.congr fun q hq =>
      Region.nextOf_congr (hsame _ ?_)⟩⟩
    have := mem_frees hB hq
    omega

structure Around (r : Region) (A : List Block) (b : Block) (B : List Block) (x : Nat) : Prop where
  length : r.words x = b.length
  room : 12 ≤ b.length
  inside : x + b.length ≤ r.evhLength
  before : ∀ q ∈ frees r.sizeofEvh A, q + r.words q ≤ x ∧ 12 ≤ r.words q
  behind : ∀ q ∈ frees (x + b.length) B, x + b.length ≤ q
  nodup : (frees r.sizeofEvh A).Nodup
  linked : ∃ mid, Leads r.nextOf (Region.link r.evhFree) (frees r.sizeofEvh A) mid ∧
    Leads r.nextOf mid (frees x (b :: B)) none

theorem Partition.around (h : Partition r (A ++ b :: B)) (hx : x = r.sizeofEvh + total A) : Around r A b B x := by
  obtain ⟨hA, hlen, hroom, hB⟩ := tiles_append.mp h.tiles
  have hcovers := h.covers
  have hlinked := h.linked
  have hnodup := h.linked.nodup
  rw [total_append, total_cons] at hcovers
  rw [frees_append] at hlinked hnodup
  rw [← hx] at hlen hB hlinked
  refine ⟨hlen, hroom, by omega, fun q hq => ?_, fun q hq => (mem_frees hB hq).1, (nodup_append.mp hnodup).1,
    leads_append.mp hlinked⟩
  have := mem_frees hA hq
  omega

def Found (r : Region) (length : Nat) (list : List Nat) : Option Region.Best → Prop
  | none => ∀ f ∈ list, r.hdrLength f < length
  | some best => ∃ C D, list = C ++ best.block :: D ∧ best.prior = C.getLast? ∧ length ≤ r.hdrLength best.block ∧
      best.tail = r.hdrLength best.block - length

theorem search_found {length : Nat} {before list : List Nat} {best : Option Region.Best} (hlength : length < 2 ^ 31)
    (hbound : ∀ f ∈ list, r.hdrLength f < 2 ^ 31) (hbest : Found r length before best) :
    Found r length (before ++ list) (r.search length before.getLast? list best) := by
  induction list generalizing before best with
  | nil =>
    rw [append_nil]
    exact hbest
  | cons free rest ih =>
    have hfree := hbound free (.head rest)
    have htail : slong (r.hdrLength free - length) = r.hdrLength free - length := by
      unfold slong
      omega
    rw [Region.search, htail, append_cons, ← getLast?_concat (l := before)]
    refine ih (fun f hf => hbound f (.tail free hf)) ?_
    by_cases htake : 0 ≤ (r.hdrLength free : Int) - length ∧ best.all fun best =>
      (r.hdrLength free : Int) - length < best.tail
    · rw [if_pos htake]
      exact ⟨before, [], rfl, rfl, by have := htake.1; dsimp only; omega, rfl⟩
    · rw [if_neg htake]
      cases best with
      | none =>
        intro f hf
        rcases mem_append.mp hf with hf | hf
        · exact hbest f hf
        · rw [mem_singleton.mp hf]
          simp only [Option.all_none, and_true] at htake
          omega
      | some best =>
        obtain ⟨C, D, rfl, hrest⟩ := hbest
        exact ⟨C, D ++ [free], by simp, hrest⟩

theorem exists_block {free : Bool} {C D : List (Nat × Nat)} (h : offsets free o bs = C ++ (x, len) :: D) :
    ∃ A B, bs = A ++ ⟨len, free⟩ :: B ∧ x = o + total A ∧ offsets free o A = C ∧ offsets free (x + len) B = D := by
  induction bs generalizing o C with
  | nil => simp [offsets] at h
  | cons b bs ih =>
    rw [offsets] at h
    split at h
    · rename_i hfree
      cases C with
      | nil =>
        obtain ⟨hb, hD⟩ := cons.inj h
        obtain ⟨rfl, rfl⟩ := Prod.mk.inj hb
        exact ⟨[], bs, by rw [← hfree]; rfl, rfl, rfl, hD⟩
      | cons c C =>
        obtain ⟨rfl, hrest⟩ := cons.inj h
        obtain ⟨A, B, rfl, rfl, rfl, hD⟩ := ih hrest
        exact ⟨b :: A, B, rfl, by rw [total_cons, Nat.add_assoc], by rw [offsets, if_pos hfree], hD⟩
    · rename_i hfree
      obtain ⟨A, B, rfl, rfl, rfl, hD⟩ := ih h
      exact ⟨b :: A, B, rfl, by rw [total_cons, Nat.add_assoc], by rw [offsets, if_neg hfree], hD⟩

theorem Region.clear_words {type y : Nat} (hlen : r.hdrLength x = len) (hroom : 12 ≤ len) (hbound : len < 2 ^ 31)
    (hy : y ≤ x ∨ x + len ≤ y) : (r.clear x type).words y = r.words y := by
  unfold Region.clear
  refine (update_of_ne (by omega) _ _).trans ?_
  refine if_neg ?_
  rw [hlen]
  unfold sizeofHdr
  omega

theorem Region.setLink_words (r : Region) (F : List Nat) (target y : Nat) :
    (r.setLink F.getLast? target).words y = r.words y ∨ ∃ p ∈ F, y = p + 8 := by
  cases h : F.getLast? with
  | none => exact .inl rfl
  | some p =>
    by_cases hy : y = p + 8
    · exact .inr ⟨p, mem_of_getLast? h, hy⟩
    · exact .inl (update_of_ne hy _ _)

theorem Region.setLink_words_of_le (r : Region) {F : List Nat} (hF : ∀ p ∈ F, p + r.words p ≤ x ∧ 12 ≤ r.words p)
    (target : Nat) {y : Nat} (hy : x ≤ y) : (r.setLink F.getLast? target).words y = r.words y := by
  rcases r.setLink_words F target y with hsame | ⟨p, hp, rfl⟩
  · exact hsame
  · have := hF p hp
    omega

theorem Region.setLink_evh (r : Region) (prior : Option Nat) (target : Nat) :
    (r.setLink prior target).sizeofEvh = r.sizeofEvh ∧ (r.setLink prior target).evhLength = r.evhLength := by
  cases prior <;> exact ⟨rfl, rfl⟩

theorem Partition.takeWhole (h : Partition r (A ++ (⟨len, true⟩ :: B))) (hx : x = r.sizeofEvh + total A) (type : Nat) :
    Partition ((r.setLink (frees r.sizeofEvh A).getLast? (r.frbNext x)).clear x type) (A ++ (⟨len, false⟩ :: B)) := by
  obtain ⟨hlen, hroom, hin, hbefore, hbehind, hnodup, mid, hF, -, hB⟩ := h.around hx
  dsimp only at hlen hroom hin hbehind
  have haddr := h.addresses
  have hevh := r.setLink_evh (frees r.sizeofEvh A).getLast? (r.frbNext x)
  have hleads := @leads_setLink r (r.frbNext x) _ _ hF hnodup
  have hset := r.setLink_words (frees r.sizeofEvh A) (r.frbNext x)
  have hkept : ∀ y, x ≤ y → _ = r.words y := fun y hy => r.setLink_words_of_le hbefore (r.frbNext x) hy
  generalize r.setLink (frees r.sizeofEvh A).getLast? (r.frbNext x) = r₁ at hevh hleads hset hkept ⊢
  have hclear : ∀ y, y ≤ x ∨ x + len ≤ y → (r₁.clear x type).words y = r₁.words y := fun y hy =>
    Region.clear_words ((hkept x (Nat.le_refl x)).trans hlen) hroom (by omega) hy
  refine h.replace (M := [⟨len, true⟩]) (N := [⟨len, false⟩]) hx rfl rfl hevh (fun y hy => ?_) ?_
    (hleads.congr fun q hq => ?_) rfl hB
  · rw [hclear y (hy.imp_left Nat.le_of_lt)]
    exact hset y
  · exact ⟨(hclear x (.inl (Nat.le_refl x))).trans ((hkept x (Nat.le_refl x)).trans hlen), hroom, trivial⟩
  · have := hbefore q hq
    exact Region.nextOf_congr (hclear _ (.inl (by omega)))

theorem Partition.takeTail (h : Partition r (A ++ (⟨len, true⟩ :: B))) (hx : x = r.sizeofEvh + total A) {length : Nat}
    (type : Nat) (hlength : 12 ≤ length) (hrest : length + 12 ≤ len) :
    Partition (((r.setHdrLength x (len - length)).setHdrLength (x + (len - length)) length).clear (x + (len - length))
      type) (A ++ ([⟨len - length, true⟩, ⟨length, false⟩] ++ B)) := by
  obtain ⟨hlen, hroom, hin, hbefore, hbehind, hnodup, mid, hF, hB⟩ := h.around hx
  dsimp only at hlen hroom hin hbehind
  have haddr := h.addresses
  generalize hsplit : x + (len - length) = y at *
  have hend : x + len = y + length := by omega
  have hlast : ((r.setHdrLength x (len - length)).setHdrLength y length).words y = length := update_self _ _ _
  have hkept : ∀ z, z ≠ x → z ≠ y → (z ≤ y ∨ x + len ≤ z) →
      (((r.setHdrLength x (len - length)).setHdrLength y length).clear y type).words z = r.words z :=
      fun z hzx hzy hz => by
    rw [Region.clear_words hlast hlength (by omega) (hend ▸ hz)]
    exact (update_of_ne hzy _ _).trans (update_of_ne hzx _ _)
  have hfirst : (((r.setHdrLength x (len - length)).setHdrLength y length).clear y type).words x = len - length := by
    rw [Region.clear_words hlast hlength (by omega) (by omega)]
    exact (update_of_ne (by omega) _ _).trans (update_self _ _ _)
  have hsecond : (((r.setHdrLength x (len - length)).setHdrLength y length).clear y type).words y = length :=
    (Region.clear_words hlast hlength (by omega) (.inl (Nat.le_refl y))).trans hlast
  refine h.replace (M := [⟨len, true⟩]) (n := len) hx rfl ?_ ⟨rfl, rfl⟩ (fun z hz => ?_) ?_ (hF.congr fun q hq => ?_)
    ⟨hB.1, Region.nextOf_congr (hkept _ (by omega) (by omega) (by omega))⟩ hB.2
  · change len - length + (length + 0) = len
    omega
  · exact .inl (hkept z (by omega) (by omega) (by omega))
  · exact ⟨hfirst, by dsimp only; omega, hsplit.symm ▸ hsecond, hlength, trivial⟩
  · have := hbefore q hq
    exact Region.nextOf_congr (hkept _ (by omega) (by omega) (by omega))

/-! ### Blocks put back -/

theorem Partition.link (h : Partition r (A ++ (⟨len, false⟩ :: B))) (hx : x = r.sizeofEvh + total A)
    (htarget : Region.link target = (frees (x + len) B).head?) :
    Partition (((r.setHdrType x typeFrb).setLink (some x) target).setLink (frees r.sizeofEvh A).getLast? x)
      (A ++ (⟨len, true⟩ :: B)) := by
  obtain ⟨hlen, hroom, hin, hbefore, hbehind, hnodup, mid, hF, hB⟩ := h.around hx
  dsimp only at hlen hroom hin hbehind
  have hpos := h.start
  generalize hr₁ : (r.setHdrType x typeFrb).setLink (some x) target = r₁
  have hwords : ∀ y, y ≠ x + 4 → y ≠ x + 8 → r₁.words y = r.words y := fun y h4 h8 => by
    rw [← hr₁]
    exact (update_of_ne h8 _ _).trans (update_of_ne h4 _ _)
  have hself : r₁.nextOf x = Region.link target := by
    rw [← hr₁, Region.nextOf_setLink, if_pos rfl]
  have hfree : r₁.evhFree = r.evhFree := by rw [← hr₁]; rfl
  have hbefore' : ∀ q ∈ frees r.sizeofEvh A, q + r₁.words q ≤ x ∧ 12 ≤ r₁.words q := fun q hq => by
    have := hbefore q hq
    rw [hwords q (by omega) (by omega)]
    exact this
  have hleads : Leads r₁.nextOf (Region.link r₁.evhFree) (frees r.sizeofEvh A) mid := by
    rw [hfree]
    refine hF.congr fun q hq => Region.nextOf_congr (hwords _ ?_ ?_) <;> have := hbefore q hq <;> omega
  have hset := r₁.setLink_words (frees r.sizeofEvh A) x
  have hlast := @leads_setLink r₁ x _ _ hleads hnodup
  have hevh := r₁.setLink_evh (frees r.sizeofEvh A).getLast? x
  have hkept : ∀ y, x ≤ y → _ = r₁.words y := fun y hy => r₁.setLink_words_of_le hbefore' x hy
  generalize r₁.setLink (frees r.sizeofEvh A).getLast? x = r₂ at hset hlast hevh hkept ⊢
  refine h.replace (M := [⟨len, false⟩]) (N := [⟨len, true⟩]) (n := len) hx rfl rfl
    (by rw [hevh.1, hevh.2, ← hr₁]; exact ⟨rfl, rfl⟩)
    (fun y hy => ?_) ?_ hlast ⟨link_of_pos (by omega), (Region.nextOf_congr (hkept (x + 8) (by omega))).trans
      (hself.trans htarget)⟩ ?_
  · rw [← hwords y (by omega) (by omega)]
    exact hset y
  · exact ⟨by rw [hkept x (Nat.le_refl x), hwords x (by omega) (by omega), hlen], hroom, trivial⟩
  · have hB' : Leads r.nextOf mid (frees (x + len) B) none := hB
    exact hB'.head ▸ hB'

theorem Partition.merge {n z : Nat} (h : Partition r (A ++ ([⟨len, true⟩, ⟨n, true⟩] ++ B)))
    (hx : x = r.sizeofEvh + total A)
    (hz : x + len = z) : Partition ((r.setHdrLength x (r.hdrLength x + r.hdrLength z)).setLink (some x) (r.frbNext z))
      (A ++ (⟨len + n, true⟩ :: B)) := by
  subst hz
  obtain ⟨hlen, hroom, hin, hbefore, hbehind, hnodup, mid, hF, hB⟩ := h.around hx
  have hx' : x + len = r.sizeofEvh + total (A ++ [⟨len, true⟩]) := by
    rw [total_append, hx, Nat.add_assoc]
    rfl
  obtain ⟨hlen', hroom', hin', -, hbehind', -⟩ := Partition.around (A := A ++ [⟨len, true⟩]) (b := ⟨n, true⟩) (B := B)
    (by rw [append_assoc]; exact h) hx'
  dsimp only at hlen hroom hlen' hroom' hbehind'
  generalize hr' : (r.setHdrLength x (r.hdrLength x + r.hdrLength (x + len))).setLink (some x)
      (r.frbNext (x + len)) = r'
  have hkept : ∀ y, y ≠ x → y ≠ x + 8 → r'.words y = r.words y := fun y h0 h8 => by
    rw [← hr']
    exact (update_of_ne h8 _ _).trans (update_of_ne h0 _ _)
  have hnext : r'.nextOf x = r.nextOf (x + len) := by rw [← hr', Region.nextOf_setLink, if_pos rfl]; rfl
  have hfree : r'.evhFree = r.evhFree := by rw [← hr']; rfl
  refine h.replace (n := len + n) (N := [⟨len + n, true⟩]) hx rfl rfl (by rw [← hr']; exact ⟨rfl, rfl⟩) (fun y hy => ?_)
    ?_ (hfree ▸ hF.congr fun q hq => ?_) ⟨hB.1, hnext⟩ (Nat.add_assoc x len n ▸ hB.2.2)
  · exact .inl (hkept y (by omega) (by omega))
  · refine ⟨?_, by dsimp only; omega, trivial⟩
    rw [← hr']
    exact (update_of_ne (by omega) _ _).trans ((update_self _ _ _).trans (congrArg₂ (· + ·) hlen hlen'))
  · have := hbefore q hq
    exact Region.nextOf_congr (hkept _ (by omega) (by omega))

theorem frees_length (h : Tiles words o bs) : (frees o bs).length ≤ total bs := by
  induction bs generalizing o with
  | nil => exact Nat.le_refl 0
  | cons b bs ih =>
    obtain ⟨-, hroom, hrest⟩ := h
    have := ih hrest
    rw [frees, offsets, total_cons]
    split
    · simp only [map_cons, length_cons]
      exact Nat.le_trans (Nat.succ_le_succ this) (by omega)
    · exact Nat.le_trans this (by omega)

theorem Partition.freeList (h : Partition r bs) (hfree : r'.evhFree = r.evhFree) (hlength : r'.evhLength = r.evhLength)
    (hsame : ∀ q ∈ frees r.sizeofEvh bs, r'.words (q + 8) = r.words (q + 8)) :
    r'.freeList = some (frees r.sizeofEvh bs) := by
  have hlist : Leads r'.nextOf (Region.link r'.evhFree) (frees r.sizeofEvh bs) none :=
    hfree ▸ Leads.congr (show Leads r.nextOf _ _ _ from h.linked) fun q hq => Region.nextOf_congr (hsame q hq)
  have := frees_length h.tiles
  have := h.covers
  exact hlist.walk_eq (by omega)

theorem Partition.joinNext (h : Partition r (A ++ (⟨len, true⟩ :: B))) (hx : x = r.sizeofEvh + total A) (hB : Apart B) :
    ∃ n B', Partition (r.joinNext x ((frees (x + len) B).head?.getD 0)) (A ++ (⟨n, true⟩ :: B')) ∧
    Apart (⟨n, true⟩ :: B') ∧
      (r.joinNext x ((frees (x + len) B).head?.getD 0)).sizeofEvh = r.sizeofEvh ∧
      offsets false (x + n) B' = offsets false (x + len) B ∧ len ≤ n := by
  obtain ⟨hlen, hroom, -⟩ := h.around hx
  have hlen : r.hdrLength x = len := hlen
  dsimp only at hroom
  unfold Region.joinNext
  rw [hlen]
  match B, hB with
  | [], _ =>
    rw [if_neg (by change x + len ≠ 0; omega)]
    exact ⟨len, [], h, .singleton _, rfl, rfl, Nat.le_refl len⟩
  | ⟨n, true⟩ :: B, hB =>
    rw [if_pos (by rfl), ← hlen]
    refine ⟨len + n, B, Partition.merge (n := n) h hx (by rw [hlen]; rfl), ?_, rfl, by rw [hlen, ← Nat.add_assoc]; rfl,
      hlen ▸ Nat.le_add_right _ n⟩
    exact isChain_cons.mpr (isChain_cons.mp hB)
  | ⟨n, false⟩ :: B, hB =>
    obtain ⟨-, hroom', -, -, hbehind, -⟩ := Partition.around (A := A ++ [⟨len, true⟩]) (b := ⟨n, false⟩) (B := B)
      (x := x + len) (by rw [append_assoc]; exact h) (by rw [total_append, hx, Nat.add_assoc]; rfl)
    rw [if_neg]
    · exact ⟨len, ⟨n, false⟩ :: B, h, isChain_cons_cons.mpr ⟨fun _ => rfl, hB⟩, rfl, rfl, Nat.le_refl len⟩
    · change x + len ≠ (frees (x + len + n) B).head?.getD 0
      cases hhead : (frees (x + len + n) B).head? with
      | none => exact Nat.ne_of_gt (by change 0 < x + len; omega)
      | some y =>
        have := hbehind y (mem_of_mem_head? hhead)
        dsimp only at this hroom'
        change x + len ≠ y
        omega

theorem Partition.joinPrior (h : Partition r (A ++ (⟨len, true⟩ :: B))) (hx : x = r.sizeofEvh + total A) (hA : Apart A)
    (hB : Apart (⟨len, true⟩ :: B)) :
    ∃ bs, Partition (r.joinPrior x (frees r.sizeofEvh A).getLast?) bs ∧ Apart bs ∧
      (r.joinPrior x (frees r.sizeofEvh A).getLast?).sizeofEvh = r.sizeofEvh ∧
      offsets false r.sizeofEvh bs = offsets false r.sizeofEvh A ++ offsets false (x + len) B ∧ ∃ m,
      ⟨m, true⟩ ∈ bs ∧ len ≤ m := by
  have hapart : ∀ A', Apart A' → (∀ b ∈ A'.getLast?, b.free = false) → Apart (A' ++ (⟨len, true⟩ :: B)) :=
    fun A' hA' hlast =>
    isChain_append.mpr ⟨hA', hB, fun b hb c _ hfree => absurd (hlast b hb) (by rw [hfree]; decide)⟩
  rcases eq_nil_or_concat A with rfl | ⟨A, ⟨n, free⟩, rfl⟩
  · exact ⟨⟨len, true⟩ :: B, h, hB, rfl, congrArg (offsets false · B) (congrArg (· + len) hx.symm), len,
      .head B, Nat.le_refl len⟩
  · rw [concat_eq_append] at *
    have hy : r.sizeofEvh + total A + n = x := by
      rw [hx, total_append, ← Nat.add_assoc]
      rfl
    have hassoc : Partition r (A ++ (⟨n, free⟩ :: (⟨len, true⟩ :: B))) := by rwa [append_assoc] at h
    obtain ⟨hlen, hroom, -, hbefore, -⟩ := hassoc.around rfl
    have hlength : r.hdrLength (r.sizeofEvh + total A) = n := hlen
    dsimp only at hroom
    obtain ⟨hA', -, hlast⟩ := isChain_append.mp hA
    rw [frees_append, offsets_append]
    cases free with
    | true =>
      rw [show frees (r.sizeofEvh + total A) [⟨n, true⟩] = [r.sizeofEvh + total A] from rfl, getLast?_concat]
      have hjoin : r.joinPrior x (some (r.sizeofEvh + total A)) = _ := if_pos (by rw [hlength, hy])
      rw [hjoin]
      refine ⟨A ++ (⟨n + len, true⟩ :: B), hassoc.merge rfl hy, ?_, rfl, ?_, n + len,
        mem_append_right A (.head B), Nat.le_add_left len n⟩
      · refine isChain_append.mpr ⟨hA', isChain_cons.mpr (isChain_cons.mp hB), fun b hb c hc hfree => ?_⟩
        cases hlast b hb ⟨n, true⟩ rfl hfree
      · rw [offsets_append, ← hy, Nat.add_assoc _ n len, append_assoc]
        rfl
    | false =>
      have hjoin : r.joinPrior x (frees r.sizeofEvh A).getLast? = r := by
        cases hprior : (frees r.sizeofEvh A).getLast? with
        | none => rfl
        | some p =>
          have hp := (hbefore p (mem_of_getLast? hprior)).1
          exact if_neg (by change p + r.words p ≠ x; omega)
      rw [show frees (r.sizeofEvh + total A) [⟨n, false⟩] = [] from rfl, append_nil, hjoin]
      refine ⟨_, h, ?_, rfl, ?_, len, mem_append_right _ (.head B), Nat.le_refl len⟩
      · exact hapart _ hA fun b hb => by
          rw [getLast?_concat] at hb
          cases hb
          rfl
      · rw [offsets_append, offsets_append, append_assoc, append_assoc, ← hx]
        rfl

theorem span_append {F G : List Nat} (hF : ∀ q ∈ F, q ≤ x) (hG : ∀ q ∈ G.head?, x < q) :
    (F ++ G).takeWhile (· ≤ x) = F ∧ (F ++ G).dropWhile (· ≤ x) = G := by
  rw [takeWhile_append_of_pos (fun q hq => decide_eq_true (hF q hq)),
    dropWhile_append_of_pos fun q hq => decide_eq_true (hF q hq)]
  cases G with
  | nil => exact ⟨append_nil F, rfl⟩
  | cons q G =>
    simp [hG q rfl]

theorem Partition.freeGlobal (h : Partition r (A ++ (⟨len, false⟩ :: B))) (hx : x = r.sizeofEvh + total A)
    (hapart : Apart (A ++ (⟨len, false⟩ :: B))) :
    ∃ r' bs, r.freeGlobal x = some r' ∧ Partition r' bs ∧ Apart bs ∧ r'.sizeofEvh = r.sizeofEvh ∧
      offsets false r.sizeofEvh bs = offsets false r.sizeofEvh A ++ offsets false (x + len) B ∧ ∃ m,
      ⟨m, true⟩ ∈ bs ∧ len ≤ m := by
  obtain ⟨hlen, hroom, hin, hbefore, hbehind, -⟩ := h.around hx
  dsimp only at hlen hroom hin hbehind
  have hpos := h.start
  have hfrees : frees r.sizeofEvh (A ++ (⟨len, false⟩ :: B)) = frees r.sizeofEvh A ++ frees (x + len) B := by
    rw [frees_append, ← hx]
    rfl
  obtain ⟨htake, hdrop⟩ := span_append (x := x) (F := frees r.sizeofEvh A) (G := frees (x + len) B)
    (fun q hq => by have := hbefore q hq; omega) fun q hq => by have := hbehind q (mem_of_mem_head? hq); omega
  have hlist : (r.setHdrType x typeFrb).freeList = some (frees r.sizeofEvh A ++ frees (x + len) B) := by
    rw [← hfrees]
    refine h.freeList rfl rfl fun q hq => update_of_ne ?_ _ _
    rw [hfrees, mem_append] at hq
    rcases hq with hq | hq
    · have := hbefore q hq
      omega
    · have := hbehind q hq
      omega
  have hgood : ¬ (x = 0 ∨ (r.setHdrType x typeFrb).evhLength < x ∨
      (frees r.sizeofEvh A).getLast?.any fun prior => x < prior + (r.setHdrType x typeFrb).hdrLength prior) := by
    rw [not_or, not_or]
    refine ⟨by omega, by change ¬ r.evhLength < x; omega, ?_⟩
    cases hprior : (frees r.sizeofEvh A).getLast? with
    | none => exact Bool.false_ne_true
    | some p =>
      have hp := (hbefore p (mem_of_getLast? hprior)).1
      have hkept : (r.setHdrType x typeFrb).hdrLength p = r.words p := update_of_ne (by omega) _ _
      simp only [Option.any_some, decide_eq_true_eq, hkept]
      omega
  have htarget : Region.link ((frees (x + len) B).head?.getD 0) = (frees (x + len) B).head? := by
    cases hhead : (frees (x + len) B).head? with
    | none => rfl
    | some q =>
      have := hbehind q (mem_of_mem_head? hhead)
      exact link_of_pos (by change 0 < q; omega)
  obtain ⟨hA, hB, -⟩ := isChain_append.mp hapart
  have hevh := Region.setLink_evh ((r.setHdrType x typeFrb).setLink (some x) ((frees (x + len) B).head?.getD 0))
    (frees r.sizeofEvh A).getLast? x
  have hset := h.link hx htarget
  unfold Region.freeGlobal
  simp only [hlist, Option.bind_eq_bind, Option.bind_some, htake, hdrop]
  rw [if_neg hgood]
  generalize ((r.setHdrType x typeFrb).setLink (some x) ((frees (x + len) B).head?.getD 0)).setLink
    (frees r.sizeofEvh A).getLast? x = r₁ at hset hevh ⊢
  have hstart : r₁.sizeofEvh = r.sizeofEvh := hevh.1
  obtain ⟨n, B', hnext, hB', hevh', hoffsets, hn⟩ := hset.joinNext (hstart ▸ hx) (isChain_cons.mp hB).2
  generalize r₁.joinNext x ((frees (x + len) B).head?.getD 0) = r₂ at hnext hevh' ⊢
  have hstart' := hevh'.trans hstart
  obtain ⟨bs, hprior, hbs, hevh'', hoffsets', m, hm, hle⟩ := hnext.joinPrior (hstart' ▸ hx) hA hB'
  rw [hstart'] at hprior hevh'' hoffsets'
  exact ⟨_, bs, rfl, hprior, hbs, hevh'', hoffsets ▸ hoffsets', m, hm, hn.trans hle⟩

/-! ### Runs -/

/-- A block that the manager holds: its offset, its length when it was handed out, and the length asked for. -/
structure Allocated where
  block : Nat
  length : Nat
  requested : Nat
deriving DecidableEq

/-- The blocks of the region are the free ones and those held. -/
structure Region.Inv (r : Region) (held : List Allocated) (bs : List Block) : Prop where
  partition : Partition r bs
  apart : Apart bs
  allocated : (offsets false r.sizeofEvh bs).Perm (held.map fun a => (a.block, a.length))
  requested : ∀ a ∈ held, a.requested ≤ a.length

section
variable {held : List Allocated}

theorem Region.Inv.free {a : Allocated} (h : r.Inv held bs) (ha : a ∈ held) :
    ∃ r' bs', r.freeGlobal a.block = some r' ∧ r'.Inv (held.erase a) bs' ∧ ∃ m, ⟨m, true⟩ ∈ bs' ∧ a.length ≤ m := by
  have hmem : (a.block, a.length) ∈ offsets false r.sizeofEvh bs :=
    h.allocated.mem_iff.mpr (mem_map_of_mem ha)
  obtain ⟨C, D, hsplit⟩ := append_of_mem hmem
  obtain ⟨A, B, rfl, hx, hC, hD⟩ := exists_block hsplit
  obtain ⟨r', bs, hfree, hpart, hapart, hstart, hoffsets, hm⟩ := h.partition.freeGlobal hx h.apart
  refine ⟨r', bs, hfree, ⟨hpart, hapart, ?_, fun b hb => h.requested b (mem_of_mem_erase hb)⟩, hm⟩
  rw [hstart, hoffsets, hC, hD]
  have hperm := (hsplit ▸ h.allocated).trans ((perm_cons_erase ha).map _)
  exact (perm_middle.symm.trans hperm).cons_inv

theorem Region.Inv.handOut {bs' : List Block} {y n requested : Nat}
    (h : r.Inv held (A ++ (⟨len, true⟩ :: B))) (hpart : Partition r' bs') (hapart : Apart bs')
    (hstart : r'.sizeofEvh = r.sizeofEvh) (hoffsets : offsets false r.sizeofEvh bs' =
      offsets false r.sizeofEvh A ++ (y, n) :: offsets false (r.sizeofEvh + total A + len) B) (hn : requested ≤ n) :
    r'.Inv (⟨y, r'.hdrLength y, requested⟩ :: held) bs' := by
  have hmem : (y, n) ∈ offsets false r'.sizeofEvh bs' := by
    rw [hstart, hoffsets]
    exact mem_append_right _ (.head _)
  have hlen : r'.hdrLength y = n := (mem_offsets hpart.tiles hmem).2.2.2
  refine ⟨hpart, hapart, ?_, fun a ha => ?_⟩
  · have hperm := h.allocated
    rw [offsets_append] at hperm
    rw [hstart, hoffsets, hlen]
    exact perm_middle.trans (.cons _ hperm)
  · rcases mem_cons.mp ha with rfl | ha
    · rw [hlen]
      exact hn
    · exact h.requested a ha

theorem Region.Inv.allocFrom (h : r.Inv held bs) (type : Nat) {length requested : Nat}
    (hlength : 12 ≤ length) (hbound : length < 2 ^ 31) (hrequested : requested ≤ length) :
    (r.allocFrom type length = none ∧ ∀ f ∈ frees r.sizeofEvh bs, r.hdrLength f < length) ∨
      ∃ x r' bs', r.allocFrom type length = some (x, r') ∧ r'.Inv (⟨x, r'.hdrLength x, requested⟩ :: held) bs' := by
  have hlist := h.partition.freeList rfl rfl fun _ _ => rfl
  have hlt : ∀ f ∈ frees r.sizeofEvh bs, r.hdrLength f < 2 ^ 31 := fun f hf => by
    have hf := mem_frees h.partition.tiles hf
    have := h.partition.covers
    have := h.partition.addresses
    change r.words f < 2 ^ 31
    omega
  have hfound : Found r length [] none := fun f hf => nomatch hf
  have hfound := search_found hbound hlt hfound
  rw [nil_append] at hfound
  unfold Region.allocFrom
  rw [hlist]
  simp only [Option.bind_eq_bind, Option.bind_some]
  change Found r length _ (r.search length none _ none) at hfound
  cases hbest : r.search length none (frees r.sizeofEvh bs) none with
  | none =>
    rw [hbest] at hfound
    exact .inl ⟨rfl, hfound⟩
  | some best =>
    rw [hbest] at hfound
    obtain ⟨C, D, hsplit, hprior, hle, htail⟩ := hfound
    obtain ⟨C', D', hoffsets, rfl, hD⟩ := map_eq_append_iff.mp hsplit
    obtain ⟨⟨x, len⟩, D'', rfl, rfl, -⟩ := map_eq_cons_iff.mp hD
    obtain ⟨A, B, rfl, hx, rfl, -⟩ := exists_block hoffsets
    change length ≤ r.hdrLength best.block at hle
    change best.tail = (r.hdrLength best.block : Int) - length at htail
    change best.prior = (frees r.sizeofEvh A).getLast? at hprior
    obtain ⟨hlen, -, hin, -⟩ := h.partition.around hx
    have hlen : r.hdrLength best.block = len := hlen
    have := h.partition.addresses
    dsimp only at hin
    rw [hlen] at hle htail
    obtain ⟨hA, hB, hjoin⟩ := isChain_append.mp h.apart
    refine .inr ?_
    simp only [Option.bind_some]
    unfold Region.take
    by_cases hwhole : best.tail < sizeofFrb
    · rw [if_pos hwhole, hprior]
      refine ⟨_, _, _, rfl, h.handOut (h.partition.takeWhole hx type) ?_ (Region.setLink_evh ..).1
        ?_ (hrequested.trans hle)⟩
      · refine isChain_append.mpr ⟨hA, isChain_cons.mpr ⟨fun b _ => nofun, (isChain_cons.mp hB).2⟩, ?_⟩
        exact fun b _ c hc _ => by cases hc; rfl
      · rw [offsets_append, ← hx]
        rfl
    · have hmod : (len + (2 ^ 32 - length)) % 2 ^ 32 = len - length := by omega
      have hrest : length + 12 ≤ len := by
        unfold sizeofFrb at hwhole
        omega
      have hself : (r.setHdrLength best.block (len - length)).hdrLength best.block = len - length := update_self _ _ _
      rw [if_neg hwhole, hlen, hmod]
      simp only [hself]
      refine ⟨_, _, _, rfl, h.handOut (h.partition.takeTail hx type hlength hrest) ?_ rfl ?_ hrequested⟩
      · refine isChain_append.mpr ⟨hA, isChain_cons_cons.mpr ⟨fun _ => rfl,
          isChain_cons.mpr ⟨fun b _ => nofun, (isChain_cons.mp hB).2⟩⟩, fun b hb c hc hfree => ?_⟩
        cases hc
        exact nomatch hjoin b hb ⟨len, true⟩ rfl hfree
      · rw [offsets_append, ← hx]
        change _ ++ (best.block + (len - length), length) :: offsets false (best.block + (len - length) + length) B = _
        rw [Nat.add_assoc best.block, Nat.sub_add_cancel hle]

theorem Region.Inv.extend {increment : Nat} (h : r.Inv held bs) (hincrement : 12 ≤ increment)
    (hroom : r.evhLength + increment < 2 ^ 31) :
    (r.extend increment).Inv (⟨r.evhLength, increment, 0⟩ :: held) (bs ++ [⟨increment, false⟩]) := by
  have hcovers := h.partition.covers
  have hkept : ∀ y, y < r.evhLength → (r.extend increment).words y = r.words y := fun y hy =>
    (update_of_ne (by omega) _ _).trans ((update_of_ne (by omega) _ _).trans (update_of_ne (by omega) _ _))
  have hself : (r.extend increment).words r.evhLength = increment :=
    (update_of_ne (by omega) _ _).trans ((update_of_ne (by omega) _ _).trans (update_self _ _ _))
  refine ⟨⟨?_, ?_, ?_, h.partition.start, hroom⟩, ?_, ?_, fun a ha => ?_⟩
  · refine tiles_append.mpr ⟨h.partition.tiles.congr fun y _ hy => .inl (hkept y (hcovers ▸ hy)), ?_⟩
    change Tiles _ (r.sizeofEvh + total bs) _
    rw [hcovers]
    exact ⟨hself, hincrement, trivial⟩
  · change r.sizeofEvh + total (bs ++ [_]) = r.evhLength + increment
    rw [total_append, ← Nat.add_assoc, hcovers]
    rfl
  · change Linked _ (frees r.sizeofEvh _)
    rw [frees_append]
    change Linked _ (frees r.sizeofEvh bs ++ [])
    rw [append_nil]
    refine Leads.congr (show Leads r.nextOf _ _ _ from h.partition.linked) fun q hq => Region.nextOf_congr (hkept _ ?_)
    have := mem_frees h.partition.tiles hq
    omega
  · exact isChain_append.mpr ⟨h.apart, .singleton _, fun _ _ c hc _ => by cases hc; rfl⟩
  · change (offsets false r.sizeofEvh _).Perm _
    rw [offsets_append, hcovers]
    exact (perm_append_singleton _ _).trans (.cons _ h.allocated)
  · rcases mem_cons.mp ha with rfl | ha
    · exact Nat.zero_le _
    · exact h.requested a ha

theorem Region.Inv.allocGlobal {increment length : Nat} (h : r.Inv held bs) (remapped : Bool) (type : Nat)
    (hlength : 9 ≤ length) (hle : length ≤ increment) (hincrement : fbAlignment ∣ increment)
    (hmax : increment < 2 ^ 31) (hroom : remapped = true → r.evhLength + increment < 2 ^ 31) :
    (r.allocGlobal increment remapped type length = none ∧ remapped = false ∧
        ∀ f ∈ frees r.sizeofEvh bs, r.hdrLength f < fbAlign length) ∨
      ∃ x r' bs', r.allocGlobal increment remapped type length = some (x, r') ∧
        r'.Inv (⟨x, r'.hdrLength x, length⟩ :: held) bs' := by
  have halign : length ≤ fbAlign length ∧ 12 ≤ fbAlign length ∧ fbAlign length ≤ increment := by
    unfold fbAlign fbAlignment at *
    omega
  obtain ⟨h1, h2, h3⟩ := halign
  have hbound : fbAlign length < 2 ^ 31 := h3.trans_lt hmax
  unfold Region.allocGlobal
  rcases h.allocFrom type h2 hbound h1 with ⟨hnone, hshort⟩ | ⟨x, r', bs', hsome, hinv⟩
  · rw [hnone]
    cases remapped with
    | false => exact .inl ⟨rfl, rfl, hshort⟩
    | true =>
      have hextended := h.extend (h2.trans h3) (hroom rfl)
      obtain ⟨r', bs', hfree, hinv, m, hm, hle'⟩ := hextended.free (.head held)
      rw [erase_cons_head] at hinv
      simp only [ite_true, hfree, Option.bind_eq_bind, Option.bind_some]
      rcases hinv.allocFrom type h2 hbound h1 with ⟨-, hshort⟩ | hsome
      · obtain ⟨A, B, rfl⟩ := append_of_mem hm
        have hlong := (hinv.partition.around rfl).length
        have := hshort (r'.sizeofEvh + total A) (frees_append ▸ mem_append_right _ (.head _))
        change r'.words _ < _ at this
        dsimp only at hlong hle'
        omega
      · exact .inr hsome
  · rw [hsome]
    exact .inr ⟨x, r', bs', rfl, hinv⟩

end

inductive Region.Call
  | alloc (remapped : Bool) (type length : Nat)
  | free (a : Allocated)

/-- A length that a caller may ask for: more than a block header, and no more than the region grows by. -/
def Region.Call.Proper (increment : Nat) : Region.Call → Prop
  | .alloc _ _ length => 9 ≤ length ∧ length ≤ increment
  | .free _ => True

/-- The mapping cannot grow further than offsets reach. -/
def Region.canGrow (r : Region) (increment : Nat) (remapped : Bool) : Bool :=
  remapped && decide (r.evhLength + increment < 2 ^ 31)

def Region.step (increment : Nat) (s : Region × List Allocated) : Region.Call → Option (Region × List Allocated)
  | .alloc remapped type length =>
    (s.1.allocGlobal increment (s.1.canGrow increment remapped) type length).map fun (x, r) =>
      (r, ⟨x, r.hdrLength x, length⟩ :: s.2)
  | .free a => if a ∈ s.2 then (s.1.freeGlobal a.block).map fun r => (r, s.2.erase a) else none

def Region.run (increment : Nat) (s : Region × List Allocated) (calls : List Region.Call) :
    Option (Region × List Allocated) :=
  calls.foldlM (Region.step increment) s

theorem Region.Inv.init {start mapped : Nat} (hstart : 0 < start)
    (hmapped : start + 12 ≤ mapped) (haddr : mapped < 2 ^ 31) :
    (Region.init start mapped).Inv [] [⟨mapped - start, true⟩] := by
  have hlen : (Region.init start mapped).words start = mapped - start :=
    (update_of_ne (by omega) _ _).trans ((update_of_ne (by omega) _ _).trans (update_self _ _ _))
  refine ⟨⟨⟨hlen, by dsimp only; omega, trivial⟩, ?_, ?_, hstart, haddr⟩, .singleton _, .nil, fun a ha => nomatch ha⟩
  · change start + (mapped - start + 0) = mapped
    omega
  · have hend : (Region.init start mapped).words (start + 8) = 0 := update_self _ _ _
    have hnext : (Region.init start mapped).nextOf start = none := congrArg Region.link hend
    exact ⟨link_of_pos hstart, hnext⟩

theorem Region.Inv.step {increment : Nat} {s s' : Region × List Allocated} {c : Region.Call} (h : s.1.Inv s.2 bs)
    (hincrement : fbAlignment ∣ increment) (hmax : increment < 2 ^ 31) (hc : c.Proper increment)
    (hs : Region.step increment s c = some s') : ∃ bs', s'.1.Inv s'.2 bs' := by
  cases c with
  | alloc remapped type length =>
    rcases h.allocGlobal (s.1.canGrow increment remapped) type hc.1 hc.2 hincrement hmax
      (fun hgrow => of_decide_eq_true (Bool.and_eq_true_iff.mp hgrow).2) with ⟨hnone, -⟩ | ⟨x, r', bs', hsome, hinv⟩
    · rw [Region.step, hnone] at hs
      cases hs
    · rw [Region.step, hsome] at hs
      cases hs
      exact ⟨bs', hinv⟩
  | free a =>
    rw [Region.step] at hs
    split at hs
    · rename_i ha
      obtain ⟨r', bs', hfree, hinv, -⟩ := h.free ha
      rw [hfree] at hs
      cases hs
      exact ⟨bs', hinv⟩
    · cases hs

/-- After every run of requests and releases the region is partitioned, and a request fails only when it must. -/
theorem region_partitioned {start mapped increment : Nat} (hstart : 0 < start) (hmapped : start + 12 ≤ mapped)
    (haddr : mapped < 2 ^ 31) (hincrement : fbAlignment ∣ increment) (hmax : increment < 2 ^ 31)
    {calls : List Region.Call} (hproper : ∀ c ∈ calls, c.Proper increment) {held : List Allocated}
    (hrun : Region.run increment (Region.init start mapped, []) calls = some (r, held)) :
    ∃ bs, r.Inv held bs ∧ (frees r.sizeofEvh bs).Pairwise (· < ·) ∧ (∀ a ∈ held, r.hdrLength a.block = a.length) ∧
      (∀ a ∈ held, (r.freeGlobal a.block).isSome) ∧
      ∀ remapped type length, 9 ≤ length → length ≤ increment →
        r.allocGlobal increment (r.canGrow increment remapped) type length = none →
        r.canGrow increment remapped = false ∧ ∀ f ∈ frees r.sizeofEvh bs, r.hdrLength f < fbAlign length := by
  have hinv : ∃ bs, r.Inv held bs := by
    have hall : ∀ (calls : List Region.Call) (s : Region × List Allocated) (bs : List Block), s.1.Inv s.2 bs →
        (∀ c ∈ calls, c.Proper increment) → Region.run increment s calls = some (r, held) → ∃ bs, r.Inv held bs := by
      intro calls
      induction calls with
      | nil =>
        intro s bs h _ hrun
        cases hrun
        exact ⟨bs, h⟩
      | cons c calls ih =>
        intro s bs h hproper hrun
        obtain ⟨s', hs, hrest⟩ := Option.bind_eq_some_iff.mp hrun
        obtain ⟨bs', h'⟩ := h.step hincrement hmax (hproper c (.head calls)) hs
        exact ih s' bs' h' (fun c hc => hproper c (.tail _ hc)) hrest
    exact hall calls _ _ (.init hstart hmapped haddr) hproper hrun
  obtain ⟨bs, h⟩ := hinv
  refine ⟨bs, h, frees_ascending h.partition.tiles, fun a ha => ?_, fun a ha => ?_,
    fun remapped type length h9 hle hnone => ?_⟩
  · exact (mem_offsets h.partition.tiles (h.allocated.mem_iff.mpr (mem_map_of_mem ha))).2.2.2
  · obtain ⟨r', -, hfree, -⟩ := h.free ha
    rw [hfree]
    rfl
  · rcases h.allocGlobal (r.canGrow increment remapped) type h9 hle hincrement hmax
      (fun hgrow => of_decide_eq_true (Bool.and_eq_true_iff.mp hgrow).2) with ⟨-, hfail⟩ | ⟨x, r', bs', hsome, -⟩
    · exact hfail
    · rw [hsome] at hnone
      cases hnone

/-- Three neighbouring blocks are allocated and freed, the last one between two free ones; then the region grows. -/
def merging : List Region.Call :=
  [.alloc false 6 16, .alloc false 6 40, .alloc false 6 24, .free ⟨1008, 16, 16⟩, .free ⟨944, 24, 24⟩,
    .free ⟨968, 40, 40⟩, .alloc true 6 2000]

theorem region_partitioned_merging : ∃ s bs, Region.run 4096 (Region.init 64 1024, []) merging =
    some s ∧ s.1.Inv s.2 bs := by
  have hsome : (Region.run 4096 (Region.init 64 1024, []) merging).isSome = true := by decide +kernel
  have hproper : ∀ c ∈ merging, c.Proper 4096 := by
    intro c hc
    simp only [merging, mem_cons, not_mem_nil, or_false] at hc
    rcases hc with rfl | rfl | rfl | rfl | rfl | rfl | rfl <;> simp [Region.Call.Proper]
  obtain ⟨⟨r, held⟩, hrun⟩ := Option.isSome_iff_exists.mp hsome
  obtain ⟨bs, hinv, -⟩ := region_partitioned (by decide) (by decide) (by decide) ⟨512, rfl⟩ (by decide) hproper hrun
  exact ⟨(r, held), bs, hrun, hinv⟩

/-- A block of 8 bytes has no room for the link of a free block, which goes into the header of the block behind it. -/
theorem short_block_overwrites :
    ((Region.run 4096 (Region.init 64 1024, []) [.alloc true 6 16, .alloc true 6 8, .free ⟨1000, 8, 8⟩]).map fun s =>
      s.2.map fun a => (a, s.1.hdrLength a.block)) = some [(⟨1008, 16, 16⟩, 0)] := by
  decide +kernel

end Firebird.Evt
