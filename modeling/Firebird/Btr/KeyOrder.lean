import Firebird.Btr.IndexKey
import Firebird.Lib.Stuffing

/-! # The order of index keys

Composed keys compare as the tuples of the keys of their segments do, with every segment padded that another one
follows. -/

namespace Firebird.Btr

open List

variable {idx : IndexDesc} {segments n maxKeyLength : Nat} {record record' : Record} {key key' : TemporaryKey}
  {data data' : List UInt8}

def segmentKeys (idx : IndexDesc) (segments : Nat) (record : Record) : List (List UInt8) :=
  match idx.rpt with
  | [tail] =>
    let desc := match idx.expression with
      | some expression => expression record
      | none => record tail.field
    [(compress desc tail.itype tail.length idx.descending).1]
  | rpt => (rpt.take segments).map fun tail => (compress (record tail.field) tail.itype tail.length idx.descending).1

/-- The first segments whose keys differ do so only in zero bytes at the end of their last group, and the later ones do
    not compare as they do. -/
abbrev Confused (as bs : List (List UInt8)) : Prop := Lib.Confused (stuffCount - 1) 0 as bs

/-- The keys compare as the tuples of the segments' own keys, and are the same only if those are. -/
structure SameOrder (key key' : TemporaryKey) (as bs : List (List UInt8)) : Prop where
  order : compare key.data key'.data = compare as bs
  identity : key.data = key'.data → as = bs

theorem bigEndian_ne_nil (size : Nat) (n : Int) : bigEndian (size + 1) n ≠ [] := by
  intro hnil
  have hlength := congrArg length (reverse_eq_nil_iff.mp hnil)
  exact nomatch hlength

theorem putByte_ok {byte : UInt8} (h : putByte maxKeyLength data byte = .ok data') : data' = data ++ [byte] := by
  unfold putByte at h
  split at h
  · exact nomatch h
  · exact (Except.ok.inj h).symm

theorem bind_ok {ε α β : Type} {x : Except ε α} {f : α → Except ε β} {b : β} (h : x >>= f = .ok b) :
    ∃ a, x = .ok a ∧ f a = .ok b := by
  cases x with
  | error e => exact nomatch h
  | ok a => exact ⟨a, rfl, h⟩

theorem putPadding_ok {stuff : Nat} (h : putPadding maxKeyLength stuff data = .ok data') :
    data' = data ++ List.replicate stuff 0 := by
  induction stuff generalizing data with
  | zero =>
    obtain rfl := Except.ok.inj h
    exact (append_nil _).symm
  | succ stuff ih =>
    obtain ⟨data₁, hput, hrest⟩ := bind_ok h
    rw [ih hrest, putByte_ok hput, append_assoc]
    rfl

theorem putSegment_ok {marker : UInt8} (bytes : List UInt8) : ∀ {stuff stuff' : Nat} {data data' : List UInt8},
    putSegment maxKeyLength marker bytes stuff data = .ok (stuff', data') →
      data' = data ++ Lib.stuff (stuffCount - 1) marker stuff bytes ∧
      stuff' = Lib.room (stuffCount - 1) stuff bytes.length := by
  induction bytes with
  | nil =>
    intro stuff stuff' data data' h
    obtain ⟨rfl, rfl⟩ := Prod.mk.inj (Except.ok.inj h)
    rw [Lib.stuff, append_nil, length_nil]
    exact ⟨rfl, rfl⟩
  | cons byte bytes ih =>
    intro stuff stuff' data data' h
    cases stuff with
    | zero =>
      obtain ⟨data₁, hmarker, h⟩ := bind_ok h
      obtain ⟨data₂, hbyte, h⟩ := bind_ok h
      obtain ⟨hdata, hstuff⟩ := ih h
      rw [hdata, hstuff, putByte_ok hbyte, putByte_ok hmarker, length_cons, append_assoc,
        append_assoc]
      exact ⟨rfl, rfl⟩
    | succ stuff =>
      obtain ⟨data₁, hbyte, h⟩ := bind_ok h
      obtain ⟨hdata, hstuff⟩ := ih h
      rw [hdata, hstuff, putByte_ok hbyte, length_cons, append_assoc]
      exact ⟨rfl, rfl⟩

theorem composeSegments_ok (tails : List IdxRepeat) : ∀ {n : Nat} {s s' : Composing},
    composeSegments idx maxKeyLength record n tails s = .ok s' →
      s'.data = s.data ++ Lib.stuffTuple (stuffCount - 1) 0 UInt8.ofNat (idx.rpt.length - n) s.stuff
        (tails.map fun tail => (compress (record tail.field) tail.itype tail.length idx.descending).1) := by
  induction tails with
  | nil =>
    intro n s s' h
    obtain rfl := Except.ok.inj h
    exact (append_nil _).symm
  | cons tail tails ih =>
    intro n s s' h
    obtain ⟨data₁, hpadding, h⟩ := bind_ok h
    rw [map_cons]
    dsimp only at h
    generalize compress (record tail.field) tail.itype tail.length idx.descending = own at h ⊢
    obtain ⟨⟨stuff, data₂⟩, hsegment, h⟩ := bind_ok h
    obtain ⟨hdata, hstuff⟩ := putSegment_ok _ hsegment
    rw [ih h, hdata, hstuff, putPadding_ok hpadding, Lib.stuffTuple, append_assoc, append_assoc, append_assoc,
      append_assoc, Nat.sub_add_eq]

theorem composeKey_of_compose (hasc : idx.descending = false) (h : compose idx segments maxKeyLength record = .ok key) :
    composeKey idx segments maxKeyLength record = .ok key := by
  obtain ⟨key', hkey, h⟩ := bind_ok h
  rw [hasc] at h
  split at h
  · exact nomatch h
  · rw [hkey, ← Except.ok.inj h]

theorem compose_one {tail : IdxRepeat} (hasc : idx.descending = false) (hone : idx.rpt = [tail])
    (h : compose idx segments maxKeyLength record = .ok key) : segmentKeys idx segments record = [key.data] := by
  have hkey := composeKey_of_compose hasc h
  unfold composeKey at hkey
  unfold segmentKeys
  rw [hone] at hkey ⊢
  exact congrArg (fun key : TemporaryKey => [key.data]) (Except.ok.inj hkey)

theorem segmentKeys_several (hseveral : ∀ tail, idx.rpt ≠ [tail]) (record : Record) :
    segmentKeys idx segments record = (idx.rpt.take segments).map fun tail =>
      (compress (record tail.field) tail.itype tail.length idx.descending).1 := by
  unfold segmentKeys
  split
  case h_1 tail hone => exact absurd hone (hseveral tail)
  case h_2 => rfl

theorem compose_several (hseveral : ∀ tail, idx.rpt ≠ [tail]) (hasc : idx.descending = false)
    (h : compose idx segments maxKeyLength record = .ok key) :
    key.data = Lib.stuffTuple (stuffCount - 1) 0 UInt8.ofNat idx.rpt.length 0 (segmentKeys idx segments record) := by
  rw [segmentKeys_several hseveral]
  have hkey := composeKey_of_compose hasc h
  unfold composeKey at hkey
  split at hkey
  case h_1 tail hone => exact absurd hone (hseveral tail)
  case h_2 =>
    obtain ⟨s, hs, hkey⟩ := bind_ok hkey
    obtain rfl := Except.ok.inj hkey
    have hdata := composeSegments_ok _ hs
    exact hdata

theorem least_zero : Lib.Least (0 : UInt8) := by
  intro a
  rcases Nat.eq_zero_or_pos a.toNat with hzero | hpos
  · obtain rfl : a = 0 := UInt8.toNat_inj.mp hzero
    exact .inr (Lib.compare_refl _)
  · exact .inl (Std.compare_eq_lt.mpr (UInt8.lt_iff_toNat_lt.mpr hpos))

theorem compare_markers {i j : Nat} (hij : i < j) (hj : j ≤ 255) : compare (UInt8.ofNat i) (UInt8.ofNat j) = .lt := by
  refine Std.compare_eq_lt.mpr (UInt8.lt_iff_toNat_lt.mpr ?_)
  rw [UInt8.toNat_ofNat', UInt8.toNat_ofNat']
  omega

theorem compose_order_iff (hasc : idx.descending = false) (hcount : idx.rpt.length ≤ 255)
    (h : compose idx segments maxKeyLength record = .ok key)
    (h' : compose idx segments maxKeyLength record' = .ok key') :
    compare key.data key'.data = compare (segmentKeys idx segments record) (segmentKeys idx segments record') ↔
      ¬ Confused (segmentKeys idx segments record) (segmentKeys idx segments record') := by
  by_cases hone : ∃ tail, idx.rpt = [tail]
  · obtain ⟨tail, hone⟩ := hone
    rw [compose_one hasc hone h, compose_one hasc hone h', List.compare_cons_cons,
      List.compare_nil_nil, Ordering.then_eq]
    exact ⟨fun _ => id, fun _ => rfl⟩
  · have hseveral : ∀ tail, idx.rpt ≠ [tail] := fun tail heq => hone ⟨tail, heq⟩
    have hlength : (segmentKeys idx segments record).length = (segmentKeys idx segments record').length := by
      rw [segmentKeys_several hseveral, segmentKeys_several hseveral, length_map, length_map]
    have hle : (segmentKeys idx segments record).length ≤ idx.rpt.length := by
      rw [segmentKeys_several hseveral, length_map]
      exact length_take_le' ..
    rw [compose_several hseveral hasc h, compose_several hseveral hasc h', Lib.compare_stuffTuple 0 hlength hle
      fun i j hij hj => compare_markers hij (Nat.le_trans hj hcount)]
    exact Lib.compare_paddedTuple least_zero hlength

/-- Composed keys keep the order of the tuples of segment keys exactly where these are not confused. -/
theorem compose_sameOrder_iff (hasc : idx.descending = false) (hcount : idx.rpt.length ≤ 255)
    (h : compose idx segments maxKeyLength record = .ok key)
    (h' : compose idx segments maxKeyLength record' = .ok key') :
    SameOrder key key' (segmentKeys idx segments record) (segmentKeys idx segments record') ↔
      ¬ Confused (segmentKeys idx segments record) (segmentKeys idx segments record') := by
  have horder := compose_order_iff hasc hcount h h'
  refine ⟨fun hsame => horder.mp hsame.order, fun hclear => ⟨horder.mpr hclear, fun heq => ?_⟩⟩
  have hcompare := horder.mpr hclear
  rw [heq, Lib.compare_refl] at hcompare
  exact Std.LawfulEqCmp.eq_of_compare hcompare.symm

/-- Two rows that differ in a date behind the same string. -/
theorem compose_sameOrder_date :
    SameOrder ⟨[2, 65, 0, 0, 0, 1, 128, 0, 0, 1], false, [false, false]⟩
      ⟨[2, 65, 0, 0, 0, 1, 128, 0, 0, 2], false, [false, false]⟩
      [[65], [128, 0, 0, 1]] [[65], [128, 0, 0, 2]] :=
  (@compose_sameOrder_iff ⟨[⟨0, .string, 0⟩, ⟨1, .sqlDate, 0⟩], false, none⟩ 2 2048
    (fun field => some ⟨if field = 0 then [65] else [], 1, 0, (0, 0), false⟩)
    (fun field => some ⟨if field = 0 then [65] else [], 2, 0, (0, 0), false⟩) _ _
    rfl (by decide) (by rfl) (by rfl)).mpr (by decide +kernel)

/-- `'a'` and `'a'` followed by a zero byte, before the same second segment. -/
theorem compose_same_key_of_other_row : ¬ ∀ (idx : IndexDesc) (segments maxKeyLength : Nat) (record record' : Record)
    (key key' : TemporaryKey), idx.descending = false → idx.rpt.length ≤ 255 →
      compose idx segments maxKeyLength record = .ok key → compose idx segments maxKeyLength record' = .ok key' →
        SameOrder key key' (segmentKeys idx segments record) (segmentKeys idx segments record') := by
  intro h
  have hsame := h ⟨[⟨0, .string, 0⟩, ⟨1, .string, 0⟩], false, none⟩ 2 2048
    (fun field => some ⟨if field = 0 then [97] else [98], 0, 0, (0, 0), false⟩)
    (fun field => some ⟨if field = 0 then [97, 0] else [98], 0, 0, (0, 0), false⟩) _ _ rfl (by decide) rfl rfl
  exact absurd (hsame.identity (by decide +kernel)) (by decide +kernel)

end Firebird.Btr
