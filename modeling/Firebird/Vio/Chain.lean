import Firebird.Sqz.MakeApply
import Firebird.Vio.Pages

/-! # Chains of versions -/

namespace Firebird.Vio

open List
open Tpc (TraNumber)
open Sqz.Difference (IsDifference Describes overlay decode length_overlay)

structure Version where
  transaction : TraNumber
  format : FormatNumber
  deleted : Bool
  data : Bytes
  deriving DecidableEq

/-- A version with its slot, and the difference it is stored as. -/
structure StoredVersion extends Version where
  address : Address
  difference : Option Bytes

namespace StoredVersion

def slot (chained gcActive : Bool) (v : StoredVersion) (older : List StoredVersion) : Slot where
  transaction := v.transaction
  format := v.format
  deleted := v.deleted
  delta := older.head?.any (·.difference.isSome)
  chained := chained
  gcActive := gcActive
  back := older.head?.map (·.address)
  data := v.difference.getD v.data

/-- A deleted version has no data; the data of any other one have the length of its format. -/
def Fits (formats : Formats) (v : StoredVersion) : Prop :=
  if v.deleted then v.data = [] ∧ v.difference = none else v.data.length = formats v.format

/-- What is stored gives the data back, from the next newer version if it is a difference. -/
def DecodesFrom (newer : Option StoredVersion) (v : StoredVersion) : Prop :=
  ∀ d, v.difference = some d → ∃ n, newer = some n ∧ n.deleted = false ∧ IsDifference d n.data v.data

end StoredVersion

def Decodable (formats : Formats) : Option StoredVersion → List StoredVersion → Prop
  | _, [] => True
  | newer, v :: older => v.Fits formats ∧ v.DecodesFrom newer ∧ Decodable formats (some v) older

def BackVersions (pages : Pages) : List StoredVersion → Prop
  | [] => True
  | v :: older => dpmFetch pages v.address = some (v.slot true false older) ∧ BackVersions pages older

structure Stored (formats : Formats) (pages : Pages) (primary : Address) (gcActive : Bool) (head : StoredVersion)
    (older : List StoredVersion) : Prop where
  atPrimary : head.address = primary
  slot : dpmFetch pages primary = some (head.slot false gcActive older)
  back : BackVersions pages older
  distinct : ((head :: older).map (·.address)).Nodup
  decodable : Decodable formats none (head :: older)

variable {formats : Formats} {pages pages' : Pages} {primary address : Address} {gcActive : Bool}
  {head v newer : StoredVersion} {older chain : List StoredVersion} {record : Record} {slot : Slot}

theorem dpmFetch_eq_some : dpmFetch pages address = some slot ↔ pages[address]? = some (some slot) := by
  simp [dpmFetch, Option.join_eq_some_iff]

theorem lt_length_of_dpmFetch (h : dpmFetch pages address = some slot) : address < pages.length :=
  (List.getElem?_eq_some_iff.mp (dpmFetch_eq_some.mp h)).1

theorem dpmFetch_set (value : Option Slot) (h : address < pages.length) (a : Address) :
    dpmFetch (pages.set address value) a = if a = address then value else dpmFetch pages a := by
  unfold dpmFetch
  by_cases ha : a = address
  · subst ha
    rw [if_pos rfl, getElem?_set_self h]
    rfl
  · rw [if_neg ha, getElem?_set_ne (Ne.symm ha)]

theorem dpmFetch_dpmDelete (a : Address) :
    dpmFetch (dpmDelete pages address) a = if a = address then none else dpmFetch pages a := by
  by_cases h : address < pages.length
  · exact dpmFetch_set none h a
  · unfold dpmDelete
    rw [set_eq_of_length_le (Nat.not_lt.mp h)]
    by_cases ha : a = address
    · rw [if_pos ha, ha, dpmFetch, getElem?_eq_none (Nat.not_lt.mp h)]
      rfl
    · rw [if_neg ha]

theorem dpmFetch_dpmRewriteHeader (h : dpmFetch pages address = some slot) (slot' : Slot) (a : Address) :
    dpmFetch (dpmRewriteHeader pages address slot') a = if a = address then some slot' else dpmFetch pages a :=
  dpmFetch_set _ (lt_length_of_dpmFetch h) a

theorem dpmFetch_dpmUpdate (h : dpmFetch pages address = some slot) (slot' : Slot) (a : Address) :
    dpmFetch (dpmUpdate pages address slot') a =
      if a = address then some { slot' with chained := false, gcActive := false } else dpmFetch pages a :=
  dpmFetch_set _ (lt_length_of_dpmFetch h) a

theorem dpmFetch_dpmStore (pages : Pages) (slot : Slot) :
    dpmFetch pages (dpmStore pages slot).2 = none ∧
      ∀ a, dpmFetch (dpmStore pages slot).1 a = if a = (dpmStore pages slot).2 then some
      slot else dpmFetch pages a := by
  unfold dpmStore
  split
  · rename_i hlt
    refine ⟨?_, fun a => dpmFetch_set _ hlt a⟩
    have hfree := findIdx_getElem (w := hlt)
    rw [dpmFetch, getElem?_eq_getElem hlt]
    exact Option.isNone_iff_eq_none.mp hfree
  · refine ⟨by simp [dpmFetch], fun a => ?_⟩
    by_cases ha : a = pages.length
    · subst ha
      simp [dpmFetch]
    · rw [if_neg ha]
      rcases Nat.lt_or_gt_of_ne ha with hlt | hgt
      · simp [dpmFetch, getElem?_append_left hlt]
      · rw [dpmFetch, dpmFetch, getElem?_eq_none (by simp; omega), getElem?_eq_none (by omega)]

section
variable (h : BackVersions pages chain)
include h

theorem BackVersions.congr
    (heq : ∀ v ∈ chain, dpmFetch pages' v.address = dpmFetch pages v.address) : BackVersions pages' chain := by
  induction chain with
  | nil => trivial
  | cons v older ih =>
    exact ⟨(heq v mem_cons_self).trans h.1, ih h.2 fun w hw => heq w (mem_cons_of_mem v hw)⟩

theorem BackVersions.mem (hv : v ∈ chain) : ∃ slot, dpmFetch pages v.address = some slot := by
  induction chain with
  | nil => cases hv
  | cons w older ih =>
    rcases mem_cons.mp hv with rfl | hv
    · exact ⟨_, h.1⟩
    · exact ih h.2 hv

theorem BackVersions.length_le (hd : (chain.map (·.address)).Nodup) : chain.length ≤ pages.length := by
  have hsub : (chain.map (·.address)).toFinset ⊆ Finset.range pages.length := by
    intro a ha
    obtain ⟨v, hv, rfl⟩ := mem_map.mp (mem_toFinset.mp ha)
    obtain ⟨slot, hslot⟩ := h.mem hv
    exact Finset.mem_range.mpr (lt_length_of_dpmFetch hslot)
  have hcard := Finset.card_le_card hsub
  rwa [toFinset_card_of_nodup hd, length_map, Finset.card_range] at hcard

end

namespace Stored

section
variable (h : Stored formats pages primary gcActive head older)
include h

theorem nodup_older : (older.map (·.address)).Nodup :=
  (nodup_cons.mp h.distinct).2

theorem ne_primary (hv : v ∈ older) : v.address ≠ primary := by
  intro he
  exact (nodup_cons.mp h.distinct).1 (mem_map.mpr ⟨v, hv, he.trans h.atPrimary.symm⟩)

theorem length_le : older.length ≤ pages.length :=
  h.back.length_le h.nodup_older

theorem difference_head : head.difference = none := by
  cases hd : head.difference with
  | none => rfl
  | some d =>
    obtain ⟨_, hn, -⟩ := h.decodable.2.1 d hd
    cases hn

theorem dpmGet_eq : dpmGet pages primary = some (head.slot false gcActive older) := by
  rw [dpmGet, h.slot]
  rfl

end

end Stored

namespace Record

/-- The memory of the block holds a record of its format, and what the array counts. -/
structure Fitting (formats : Formats) (r : Record) : Prop where
  count : r.count ≤ r.data.length
  format : r.getLength formats ≤ r.data.length

structure Holds (formats : Formats) (r : Record) (v : Version) : Prop where
  fitting : r.Fitting formats
  format : r.format = v.format
  bytes : r.bytes formats = v.data

theorem fitting_new (formats : Formats) (format : FormatNumber) : (Record.new formats format).Fitting formats :=
  ⟨(length_replicate ..).ge, (length_replicate ..).ge⟩

@[simp] theorem format_reset (formats : Formats) (r : Record) (format : FormatNumber) :
    (r.reset formats format).format = format := by
  unfold Record.reset
  split
  · assumption
  · rfl

theorem count_reset (formats : Formats) (r : Record) (format : FormatNumber) :
    (r.reset formats format).count = if r.format = format then r.count else formats format := by
  unfold Record.reset Record.resize
  split
  · rfl
  · split <;> rfl

theorem Fitting.reset (h : record.Fitting formats) (format : FormatNumber) :
    (record.reset formats format).Fitting formats := by
  unfold Record.reset
  split
  · exact h
  · have hcount := h.count
    refine ⟨?_, ?_⟩ <;> unfold Record.resize
    · split
      · simp only [length_append, length_take, length_replicate, length_drop]
        omega
      · dsimp only
        omega
    · unfold Record.getLength
      split
      · simp only [length_append, length_take, length_replicate, length_drop]
        omega
      · dsimp only
        omega

theorem getElem?_reset (h : record.Fitting formats) (format : FormatNumber) {i : Nat} (hi : i < record.count) :
    (record.reset formats format).data[i]? = record.data[i]? := by
  have hcount := h.count
  unfold Record.reset
  split
  · rfl
  · unfold Record.resize
    split
    · rw [append_assoc, getElem?_append_left (by rw [length_take]; omega), getElem?_take_of_lt hi]
    · rfl

theorem Holds.getElem? {v : Version} (h : record.Holds formats v) {i : Nat} (hi : i < v.data.length) :
    record.data[i]? = v.data[i]? := by
  have hbytes := h.bytes
  rw [Record.bytes] at hbytes
  rw [← hbytes, length_take] at hi
  rw [← hbytes, getElem?_take_of_lt (by omega)]

end Record

theorem vioData_full {prior : Prior} (hprior : prior = .none ∨ slot.chained = false)
    (hlen : slot.data.length = formats slot.format) :
    vioData formats record prior slot =
      .ok { record.reset formats slot.format with
            data := slot.data ++ (record.reset formats slot.format).data.drop slot.data.length } := by
  have hlength : (record.reset formats slot.format).getLength formats = slot.data.length := by
    rw [Record.getLength, Record.format_reset, hlen]
  unfold vioData
  dsimp only
  split
  · rename_i hchained
    simp [hchained] at hprior
  · rename_i r hchained
    simp [hchained] at hprior
  · rw [if_neg (by omega), if_neg (by omega)]

def differenceBase (formats : Formats) (record : Record) (format : FormatNumber) : Prior → Record
  | .record r => (record.reset formats format).copyDataFrom r
  | _ => record.reset formats format

theorem vioData_difference (record : Record) (slot : Slot) (prior : Prior) {base data : Bytes} (hprior : prior ≠ .none)
    (hchained : slot.chained = true)
    (hdiff : IsDifference slot.data base data) (hlen : data.length = formats slot.format)
    (hmemory : data.length ≤ (differenceBase formats record slot.format prior).data.length) :
    ∃ changes, decode slot.data = some changes ∧ Describes changes base data ∧
      vioData formats record prior slot =
        .ok { differenceBase formats record slot.format prior with
              data := overlay changes (differenceBase formats record slot.format prior).data } := by
  obtain ⟨changes, hdecode, hdescribes, happly⟩ := hdiff.apply_eq hmemory
  refine ⟨changes, hdecode, hdescribes, ?_⟩
  have hmax : ¬Sqz.maxDifferences < slot.data.length := Nat.not_lt.mpr hdiff.1
  cases prior with
  | none => exact absurd rfl hprior
  | same =>
    have hlength : (record.reset formats slot.format).getLength formats = data.length := by
      rw [Record.getLength, Record.format_reset, hlen]
    simp only [differenceBase] at happly ⊢
    simp only [vioData, hchained, hmax, if_false, hlength, happly, ne_eq, not_true_eq_false]
  | record r =>
    have hlength : ((record.reset formats slot.format).copyDataFrom r).getLength formats = data.length := by
      rw [Record.getLength, Record.copyDataFrom, Record.format_reset, hlen]
    simp only [differenceBase] at happly ⊢
    simp only [vioData, hchained, hmax, if_false, hlength, happly, ne_eq, not_true_eq_false]

theorem holds_of_vioData_full {v : Version} (h : record.Fitting formats) (hlen : v.data.length = formats v.format) :
    Record.Holds formats
      { record.reset formats v.format with
        data := v.data ++ (record.reset formats v.format).data.drop v.data.length } v where
  fitting := by
    have hreset := h.reset v.format
    have hcount := hreset.count
    constructor
    · simp only [length_append, length_drop]
      omega
    · simp only [Record.getLength, Record.format_reset, length_append]
      omega
  format := Record.format_reset ..
  bytes := by
    simp only [Record.bytes, Record.getLength, Record.format_reset, ← hlen, take_left]

theorem holds_of_vioData_difference {v : Version} {base : Bytes} {block : Record} {changes : List (Option UInt8)}
    (hfitting : block.Fitting formats) (hformat : block.format = v.format) (hlen : v.data.length = formats v.format)
    (hdescribes : Describes changes base v.data)
    (hagree : ∀ i < v.data.length, changes[i]? = some none → block.data[i]? = v.data[i]?) :
    Record.Holds formats { block with data := overlay changes block.data } v where
  fitting := by
    constructor
    · exact (length_overlay ..).ge.trans' hfitting.count
    · exact (length_overlay ..).ge.trans' hfitting.format
  format := hformat
  bytes := by
    have hmemory := hfitting.format
    rw [Record.getLength, hformat, ← hlen] at hmemory
    rw [Record.bytes, Record.getLength]
    rw [hformat, ← hlen]
    exact (hdescribes.take_overlay_iff hmemory).mpr hagree

theorem vioData_same {v newer : Version} (slot : Slot) (h : record.Holds formats newer)
    (hcount : newer.data.length ≤ record.count)
    (hdiff : IsDifference slot.data newer.data v.data) (hlen : v.data.length = formats v.format)
    (hchained : slot.chained = true) (hformat : slot.format = v.format) :
    ∃ record', vioData formats record .same slot = .ok record' ∧ record'.Holds formats v ∧
      record'.count = (record.reset formats v.format).count := by
  have hfitting := h.fitting.reset v.format
  have hmemory := hfitting.format
  rw [Record.getLength, Record.format_reset, ← hlen] at hmemory
  obtain ⟨changes, -, hdescribes, hdata⟩ := vioData_difference record slot .same nofun hchained hdiff
    (hformat ▸ hlen) (by simpa only [hformat])
  simp only [differenceBase, hformat] at hdata
  refine ⟨_, hdata, holds_of_vioData_difference hfitting (Record.format_reset ..) hlen hdescribes fun i hi hstay =>
    ?_, rfl⟩
  obtain ⟨hlt, hbase⟩ := hdescribes.stays hi hstay
  rw [Record.getElem?_reset h.fitting _ (by omega), h.getElem? hlt, hbase]

def Prior.ofDelta : Bool → Prior
  | true => .same
  | false => .none

/-- The versions from this slot on, each read into the same block: it is `rpb_prior` of a difference. -/
def versionsFrom (formats : Formats) (pages : Pages) : Nat → Record → Prior → Slot → Except VioError (List Version)
  | 0, _, _, _ => .error .outOfFuel
  | fuel + 1, record, prior, slot =>
    match if slot.deleted then .ok record else vioData formats record prior slot with
    | .error e => .error e
    | .ok record =>
      let version : Version :=
        { transaction := slot.transaction, format := slot.format, deleted := slot.deleted,
          data := if slot.deleted then [] else record.bytes formats }
      match slot.back with
      | none => .ok [version]
      | some back =>
        match dpmFetch pages back with
        | none => .error .noBackVersion
        | some older =>
          match versionsFrom formats pages fuel record (.ofDelta slot.delta) older with
          | .error e => .error e
          | .ok versions => .ok (version :: versions)

def versions (formats : Formats) (pages : Pages) (primary : Address) : Except VioError (List Version) :=
  match dpmGet pages primary with
  | none => .ok []
  | some head => versionsFrom formats pages (pages.length + 1) (Record.new formats head.format) .none head

structure Record.Counted (formats : Formats) (r : Record) : Prop where
  fitting : r.Fitting formats
  count : r.count = formats r.format

/-- A block that is ready to read this version: it holds the next newer one for a difference. -/
structure ReadyFor (formats : Formats) (record : Record) (newer : Option StoredVersion) (v : StoredVersion) : Prop where
  counted : record.Counted formats
  holds : ∀ n d, newer = some n → v.difference = some d → record.Holds formats n.toVersion

theorem Record.counted_new (formats : Formats) (format : FormatNumber) : (Record.new formats format).Counted formats :=
  ⟨fitting_new .., rfl⟩

theorem Record.Counted.count_reset (h : record.Counted formats) (format : FormatNumber) :
    (record.reset formats format).count = formats format := by
  rw [Record.count_reset]
  split
  · rename_i heq
    rw [← heq, h.count]
  · rfl

theorem vioData_whole (hrecord : record.Fitting formats) (hfits : v.Fits formats) (hdeleted : v.deleted = false)
    (hwhole : v.difference = none) (chained gcActive : Bool) (older : List StoredVersion) :
    vioData formats record .none (v.slot chained gcActive older) =
        .ok { record.reset formats v.format with
              data := v.data ++ (record.reset formats v.format).data.drop v.data.length } ∧
      Record.Holds formats
        { record.reset formats v.format with
          data := v.data ++ (record.reset formats v.format).data.drop v.data.length } v.toVersion := by
  have hlen : v.data.length = formats v.format := by simpa [StoredVersion.Fits, hdeleted] using hfits
  have hdata : (v.slot chained gcActive older).data = v.data := by simp [StoredVersion.slot, hwhole]
  refine ⟨?_, holds_of_vioData_full hrecord hlen⟩
  rw [vioData_full (.inl rfl) (by rw [hdata]; exact hlen), hdata]
  rfl

section
variable {newer : Option StoredVersion}

section
variable (gcActive : Bool) (older : List StoredVersion) (hready : ReadyFor formats record newer v)
  (hfits : v.Fits formats) (hdecodes : v.DecodesFrom newer) {chained : Bool} (hchained : newer.isSome → chained = true)
include hready hfits hdecodes hchained

theorem vioData_eq (hdeleted : v.deleted = false) :
    ∃ record', vioData formats record (.ofDelta v.difference.isSome) (v.slot chained gcActive older) = .ok record' ∧
      record'.Holds formats v.toVersion ∧ record'.Counted formats := by
  have hlen : v.data.length = formats v.format := by simpa [StoredVersion.Fits, hdeleted] using hfits
  have hcount := hready.counted.count_reset v.format
  cases hdiff : v.difference with
  | none =>
    obtain ⟨hread, hholds⟩ := vioData_whole hready.counted.fitting hfits hdeleted hdiff chained gcActive older
    refine ⟨_, hread, hholds, hholds.fitting, ?_⟩
    rw [hcount, Record.format_reset]
  | some d =>
    obtain ⟨n, rfl, hn, hisdiff⟩ := hdecodes d hdiff
    have hholds := hready.holds n d rfl hdiff
    have hle : n.data.length ≤ record.count := by
      rw [hready.counted.count, ← hholds.bytes, Record.bytes, length_take]
      exact Nat.min_le_left _ _
    obtain ⟨record', hdata, hholds', hcount'⟩ := vioData_same (v.slot chained gcActive older) hholds hle
      (by simpa [StoredVersion.slot, hdiff] using hisdiff) hlen (hchained rfl) rfl
    refine ⟨record', hdata, hholds', hholds'.fitting, ?_⟩
    rw [hcount', hcount, hholds'.format]

theorem readVersion_eq :
    ∃ record', (if v.deleted then Except.ok record else
        vioData formats record (.ofDelta v.difference.isSome) (v.slot chained gcActive older)) = .ok record' ∧
      (∀ w : StoredVersion, w.DecodesFrom (some v) → ReadyFor formats record' (some v) w) ∧
      ({ transaction := v.transaction, format := v.format, deleted := v.deleted,
         data := if v.deleted then [] else record'.bytes formats } : Version) = v.toVersion := by
  cases hdeleted : v.deleted with
  | true =>
    have hdata : v.data = [] := (by simpa [StoredVersion.Fits, hdeleted] using hfits : v.data = [] ∧ _).1
    refine ⟨record, rfl, fun w hw => ⟨hready.counted, fun n d hn hd => ?_⟩, ?_⟩
    · obtain ⟨_, hm, hnot, -⟩ := hw d hd
      cases hm
      rw [hdeleted] at hnot
      cases hnot
    · rw [if_pos rfl, ← hdata, ← hdeleted]
  | false =>
    obtain ⟨record', hread, hholds, hcounted⟩ := vioData_eq gcActive older hready hfits hdecodes hchained hdeleted
    refine ⟨record', hread, fun w _ => ⟨hcounted, fun n _ hn _ => ?_⟩, ?_⟩
    · cases hn
      exact hholds
    · rw [if_neg Bool.false_ne_true, hholds.bytes, ← hdeleted]

end

theorem versionsFrom_eq {chained : Bool} {fuel : Nat} (hback : BackVersions pages older)
    (hdec : Decodable formats newer (v :: older)) (hready : ReadyFor formats record newer v)
    (hchained : newer.isSome → chained = true) (hfuel : older.length < fuel) :
    versionsFrom formats pages fuel record (.ofDelta v.difference.isSome) (v.slot chained gcActive older) =
      .ok ((v :: older).map (·.toVersion)) := by
  induction older generalizing newer v chained gcActive fuel record with
  | nil =>
    obtain ⟨fuel, rfl⟩ : ∃ k, fuel = k + 1 := ⟨fuel - 1, by omega⟩
    obtain ⟨record', hread, -, hversion⟩ := readVersion_eq gcActive [] hready hdec.1 hdec.2.1 hchained
    have hread' : (if (v.slot chained gcActive []).deleted then Except.ok record else _) = _ := hread
    rw [versionsFrom, hread']
    exact congrArg (fun version => Except.ok [version]) hversion
  | cons w older ih =>
    obtain ⟨fuel, rfl⟩ : ∃ k, fuel = k + 1 := ⟨fuel - 1, by omega⟩
    obtain ⟨record', hread, hready', hversion⟩ :=
      readVersion_eq gcActive (w :: older) hready hdec.1 hdec.2.1 hchained
    have hread' : (if (v.slot chained gcActive (w :: older)).deleted then Except.ok record else _) = _ := hread
    have hrest : versionsFrom formats pages fuel record' (.ofDelta w.difference.isSome) (w.slot true false older) = _ :=
      ih hback.2 hdec.2.2 (hready' w hdec.2.2.2.1) (fun _ => rfl) (by simpa using hfuel)
    rw [versionsFrom, hread']
    simp only [StoredVersion.slot, head?_cons, Option.map_some, Option.any_some] at hrest ⊢
    rw [hback.1]
    simp only [StoredVersion.slot, hrest, map_cons]
    exact congrArg (fun version => Except.ok (version :: w.toVersion :: older.map (·.toVersion))) hversion

end

theorem Stored.versions_eq (h : Stored formats pages primary gcActive head older) :
    versions formats pages primary = .ok ((head :: older).map (·.toVersion)) := by
  have hready : ReadyFor formats (Record.new formats head.format) none head := ⟨Record.counted_new .., nofun⟩
  have hdifference := h.difference_head
  have hread : versionsFrom formats pages (pages.length + 1) _ _ (head.slot false gcActive older) = _ :=
    versionsFrom_eq h.back h.decodable hready (fun hsome => nomatch hsome) (Nat.lt_succ_of_le h.length_le)
  rw [versions, h.dpmGet_eq]
  rwa [hdifference] at hread

end Firebird.Vio
