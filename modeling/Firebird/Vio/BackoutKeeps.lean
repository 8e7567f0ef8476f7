import Firebird.Vio.Backout

/-! # What backing out keeps

The version that is brought forward is the one that was written, unless it is a difference and the first idle garbage
collect record counts too few bytes. -/

namespace Firebird.Vio

open List
open Tpc (TraNumber)
open Sqz.Difference (IsDifference Describes overlay decode length_overlay)

variable {formats : Formats} {pages : Pages} {relation : Relation} {primary back : Address} {gcActive : Bool}
  {head old v : StoredVersion} {older : List StoredVersion} {record : Record} {gcRecords : List Record} {c active : Nat}
  {currentFormat format : FormatNumber} {samePage : Address → Address → Bool} {dead : TraNumber → Prop} {rpb : Slot}

/-- How many bytes the block counts that is handed out first. -/
def gcCount (formats : Formats) (gcRecords : List Record) (format : FormatNumber) : Nat :=
  (getGCRecord formats gcRecords 0 format).count

theorem fitting_getGCRecord (h : ∀ r ∈ gcRecords, r.Fitting formats) (active : Nat) (format : FormatNumber) :
    (getGCRecord formats gcRecords active format).Fitting formats := by
  unfold getGCRecord
  split
  · rename_i r hr
    exact (h r (mem_of_getElem? hr)).reset format
  · exact Record.fitting_new formats format

@[simp] theorem format_getGCRecord (gcRecords : List Record) (active : Nat) (format : FormatNumber) :
    (getGCRecord formats gcRecords active format).format = format := by
  unfold getGCRecord
  split
  · exact Record.format_reset ..
  · rfl

theorem fitting_releaseGCRecord (h : ∀ r ∈ gcRecords, r.Fitting formats) (hr : record.Fitting formats) (active : Nat) :
    ∀ r ∈ releaseGCRecord gcRecords active record, r.Fitting formats := by
  intro r hmem
  unfold releaseGCRecord at hmem
  split at hmem
  · rcases mem_or_eq_of_mem_set hmem with hmem | rfl
    · exact h r hmem
    · exact hr
  · rcases mem_append.mp hmem with hmem | hmem
    · exact h r hmem
    · rw [mem_singleton.mp hmem]
      exact hr

theorem getElem?_releaseGCRecord_zero (gcRecords : List Record) (record : Record) :
    (releaseGCRecord gcRecords 0 record)[0]? = some record := by
  cases gcRecords with
  | nil => rfl
  | cons r rs => rfl

theorem getElem?_releaseGCRecord_one (h : gcRecords ≠ []) (record : Record) :
    (releaseGCRecord gcRecords 1 record)[0]? = gcRecords[0]? := by
  unfold releaseGCRecord
  cases gcRecords with
  | nil => exact absurd rfl h
  | cons r rs =>
    split
    · cases rs <;> rfl
    · rfl

theorem gcCount_of_first (h : gcRecords[0]? = some record) (format : FormatNumber) :
    gcCount formats gcRecords format = if record.format = format then record.count else formats format := by
  rw [gcCount, getGCRecord, h]
  exact Record.count_reset ..

theorem count_reset_getGCRecord (gcRecords : List Record) (current format : FormatNumber) :
    ((getGCRecord formats gcRecords 0 current).reset formats format).count =
      if format = current then gcCount formats gcRecords current else formats format := by
  rw [Record.count_reset, format_getGCRecord, gcCount]
  by_cases h : current = format
  · rw [if_pos h, if_pos h.symm]
  · rw [if_neg h, if_neg (Ne.symm h)]

def Covered (c : Nat) (v : StoredVersion) : Prop :=
  ∀ d changes, v.difference = some d → decode d = some changes →
    ∀ i < v.data.length, c ≤ i → changes[i]? ≠ some none

theorem covered_of_le (h : v.DecodesFrom (some head)) (hle : head.data.length ≤ c) : Covered c v := by
  intro d changes hd hdecode i hi hic hstay
  obtain ⟨n, hn, -, -, changes', hdecode', hdescribes⟩ := h d hd
  cases hn
  cases hdecode.symm.trans hdecode'
  have := (hdescribes.stays hi hstay).1
  omega

/-- The dead versions at the head can be backed out one after another, the first block counting `c`
    bytes of the current format: as long as it is not reset to another format, these are enough. -/
def BackoutsCovered (currentFormat : FormatNumber) (dead : TraNumber → Prop) (c : Nat) : List StoredVersion → Prop
  | head :: old :: older =>
    dead head.transaction → head.deleted ∨ head.format = currentFormat →
      Covered c old ∧ BackoutsCovered currentFormat dead c (old :: older)
  | _ => True

theorem backoutsCovered_of_le {newer : Option StoredVersion} (hle : formats currentFormat ≤ c)
    (hdec : Decodable formats newer (head :: older)) : BackoutsCovered currentFormat dead c (head :: older) := by
  induction older generalizing newer head with
  | nil => trivial
  | cons old older ih =>
    intro _ hcase
    refine ⟨?_, ih hdec.2.2⟩
    have hfits := hdec.1
    unfold StoredVersion.Fits at hfits
    cases hdeleted : head.deleted with
    | true =>
      intro d _ hd
      obtain ⟨n, hn, hnot, -⟩ := hdec.2.2.2.1 d hd
      cases hn
      rw [hdeleted] at hnot
      cases hnot
    | false =>
      have hformat : head.format = currentFormat := by simpa [hdeleted] using hcase
      have hlen : head.data.length = formats head.format := by simpa [hdeleted] using hfits
      exact covered_of_le hdec.2.2.2.1 (by rw [hlen, hformat]; exact hle)

def StoredVersion.forward (old : StoredVersion) (primary : Address) : StoredVersion :=
  { old with address := primary, difference := none }

theorem StoredVersion.Fits.forward (h : old.Fits formats) (primary : Address) : (old.forward primary).Fits formats := by
  cases hdeleted : old.deleted with
  | true =>
    have hdata : old.data = [] ∧ old.difference = none := by simpa [StoredVersion.Fits, hdeleted] using h
    simpa [StoredVersion.Fits, StoredVersion.forward, hdeleted] using hdata.1
  | false => simpa [StoredVersion.Fits, StoredVersion.forward, hdeleted] using h

theorem Decodable.forward {newer : Option StoredVersion} (h : Decodable formats newer (old :: older))
    (primary : Address) : Decodable formats none (old.forward primary :: older) := by
  obtain ⟨hfits, -, holder⟩ := h
  refine ⟨hfits.forward primary, nofun, ?_⟩
  · cases older with
    | nil => trivial
    | cons v older =>
      refine ⟨holder.1, fun d hd => ?_, holder.2.2⟩
      obtain ⟨n, hn, hdeleted, hisdiff⟩ := holder.2.1 d hd
      cases hn
      exact ⟨_, rfl, hdeleted, hisdiff⟩

theorem BackoutsCovered.forward (h : BackoutsCovered currentFormat dead c (old :: older)) (primary : Address) :
    BackoutsCovered currentFormat dead c (old.forward primary :: older) := by
  cases older with
  | nil => trivial
  | cons v older => exact h

theorem difference_of_deleted (h : v.DecodesFrom (some head)) (hdeleted : head.deleted = true) :
    v.difference = none := by
  cases hd : v.difference with
  | none => rfl
  | some d =>
    obtain ⟨n, hn, hnot, -⟩ := h d hd
    cases hn
    rw [hdeleted] at hnot
    cases hnot

theorem difference_of_deleted_self (h : v.Fits formats) (hdeleted : v.deleted = true) : v.data = [] ∧
    v.difference = none := by
  simpa [StoredVersion.Fits, hdeleted] using h

theorem Stored.bringForward {pages' : Pages} (h : Stored formats pages primary gcActive head (old :: older))
    (hpages : ∀ a, dpmFetch pages' a = if a = old.address then none else
      if a = primary then some ((old.forward primary).slot false false older) else dpmFetch pages a) :
    Stored formats pages' primary false (old.forward primary) older ∧
      SameOutside pages (head :: old :: older) pages' (old.forward primary :: older) := by
  have hnotHead : primary ∉ (old :: older).map (·.address) := h.atPrimary ▸ (nodup_cons.mp h.distinct).1
  have holder := h.nodup_older
  rw [map_cons, nodup_cons] at holder
  obtain ⟨hnotOld, hnodup⟩ := holder
  have hne : primary ≠ old.address := fun he => hnotHead (he ▸ mem_cons_self)
  refine ⟨⟨rfl, ?_, ?_, ?_, ?_⟩, ?_⟩
  · rw [hpages, if_neg hne, if_pos rfl]
  · refine h.back.2.congr fun v hv => ?_
    have hmem : v.address ∈ older.map (·.address) := mem_map.mpr ⟨v, hv, rfl⟩
    rw [hpages, if_neg fun he : v.address = old.address => hnotOld (he ▸ hmem),
      if_neg fun he : v.address = primary => hnotHead (he ▸ mem_cons_of_mem _ hmem)]
  · exact nodup_cons.mpr ⟨fun hmem => hnotHead (mem_cons_of_mem _ hmem), hnodup⟩
  · exact h.decodable.2.2.forward primary
  · intro a s
    rw [hpages, map_cons, map_cons]
    simp only [StoredVersion.forward, mem_cons, h.atPrimary, not_or]
    by_cases hold : a = old.address
    · simp [hold]
    · by_cases hprimary : a = primary
      · simp [hprimary]
      · simp [hold, hprimary]

/-! ### Backing out -/

theorem gcCount_after_read (gcRecords : List Record) (currentFormat format : FormatNumber) (data : Bytes) :
    gcCount formats (releaseGCRecord gcRecords 0
        { (getGCRecord formats gcRecords 0 currentFormat).reset formats format with data }) currentFormat =
      if format = currentFormat then gcCount formats gcRecords currentFormat else formats currentFormat := by
  rw [gcCount_of_first (getElem?_releaseGCRecord_zero ..), Record.format_reset, count_reset_getGCRecord]
  by_cases h : format = currentFormat
  · rw [if_pos h, if_pos h, if_pos h]
  · rw [if_neg h, if_neg h]

theorem Stored.backoutData_spec (h : Stored formats pages primary gcActive head older)
    (hfitting : ∀ r ∈ gcRecords, r.Fitting formats) (hdeleted : head.deleted = false) (currentFormat : FormatNumber) :
    ∃ record, backoutData formats currentFormat gcRecords (head.slot false gcActive older) = .ok (some record) ∧
      record.Holds formats head.toVersion ∧
      record.count = ((getGCRecord formats gcRecords 0 currentFormat).reset formats head.format).count ∧
      gcCount formats (releaseGCRecord gcRecords 0 record) currentFormat =
        if head.format = currentFormat then gcCount formats gcRecords currentFormat else formats currentFormat := by
  obtain ⟨hread, hholds⟩ := vioData_whole (fitting_getGCRecord hfitting 0 currentFormat) h.decodable.1 hdeleted
    h.difference_head false gcActive older
  refine ⟨_, ?_, hholds, rfl, gcCount_after_read ..⟩
  have hnot : ¬((head.slot false gcActive older).deleted = true ∧ ¬(head.slot false gcActive older).delta = true) := by
    simp [StoredVersion.slot, hdeleted]
  rw [backoutData, if_neg hnot, hread]

theorem Stored.backoutOldData_spec (data : Option Record)
    (h : Stored formats pages primary gcActive head (old :: older))
    (hfitting : record.Fitting formats) (hdeleted : old.deleted = false)
    (hdata : ∀ d, old.difference = some d → ∃ r, data = some r ∧ r.Holds formats head.toVersion ∧ Covered r.count old) :
    ∃ record', backoutOldData formats record data (head.slot false gcActive (old :: older))
    (old.slot true false older) =
        .ok record' ∧ record'.Holds formats old.toVersion ∧
      (old.difference = none → record' = { record.reset formats old.format with
        data := old.data ++ (record.reset formats old.format).data.drop old.data.length }) := by
  have hlen : old.data.length = formats old.format := by
    simpa [StoredVersion.Fits, hdeleted] using h.decodable.2.2.1
  have hnot : ¬(old.slot true false older).deleted = true := by simp [StoredVersion.slot, hdeleted]
  rw [backoutOldData, if_neg hnot]
  cases hdiff : old.difference with
  | none =>
    have hprior : ¬(head.slot false gcActive (old :: older)).delta = true := by simp [StoredVersion.slot, hdiff]
    obtain ⟨hread, hholds⟩ := vioData_whole hfitting h.decodable.2.2.1 hdeleted hdiff true false older
    exact ⟨_, by rw [if_neg hprior, hread], hholds, fun _ => rfl⟩
  | some d =>
    obtain ⟨r, rfl, hr, hcovered⟩ := hdata d hdiff
    obtain ⟨n, hn, -, hisdiff⟩ := h.decodable.2.2.2.1 d hdiff
    cases hn
    have hprior : (head.slot false gcActive (old :: older)).delta = true := by simp [StoredVersion.slot, hdiff]
    have hslot : (old.slot true false older).data = d := by simp [StoredVersion.slot, hdiff]
    have hreset := hfitting.reset old.format
    have hcount := hr.fitting.count
    have hmemory := hreset.format
    rw [Record.getLength, Record.format_reset] at hmemory
    have hfit : ((record.reset formats old.format).copyDataFrom r).Fitting formats := by
      constructor
      · simp only [Record.copyDataFrom, length_append, length_take, length_drop]
        omega
      · simp only [Record.copyDataFrom, Record.getLength, Record.format_reset, length_append, length_take,
          length_drop]
        omega
    obtain ⟨changes, hdecode, hdescribes, hread⟩ := vioData_difference record (old.slot true false older) (.record r)
      (by simp) rfl (by rw [hslot]; exact hisdiff) hlen (by
        have := hfit.format
        rwa [Record.getLength, Record.copyDataFrom, Record.format_reset, ← hlen] at this)
    rw [hslot] at hdecode
    refine ⟨_, ?_, holds_of_vioData_difference hfit (Record.format_reset ..) hlen hdescribes fun i hi hstay =>
      ?_, by simp⟩
    · rw [if_pos hprior]
      exact hread
    · have hic : i < r.count := by
        by_contra hge
        exact hcovered d changes hdiff hdecode i hi (by omega) hstay
      obtain ⟨hlt, hbase⟩ := hdescribes.stays hi hstay
      rw [Record.copyDataFrom]
      rw [getElem?_append_left (by rw [length_take]; omega), getElem?_take_of_lt hic, hr.getElem? hlt, hbase]

structure BackoutReads (formats : Formats) (currentFormat : FormatNumber) (gcRecords : List Record)
    (head old : StoredVersion) (headSlot oldSlot : Slot) (older : List StoredVersion) (data : Option Record)
    (oldData : Record) : Prop where
  current : backoutData formats currentFormat gcRecords headSlot = .ok data
  before : backoutOldData formats (getGCRecord formats (data.elim gcRecords (releaseGCRecord gcRecords 0))
    (data.elim 0 fun _ => 1) currentFormat) data headSlot oldSlot = .ok oldData
  bytes : old.deleted = false → oldData.bytes formats = old.data
  fitting : ∀ r ∈ releaseGCRecord (data.elim gcRecords (releaseGCRecord gcRecords 0)) (data.elim 0 fun _ => 1) oldData,
    r.Fitting formats
  covered : ∀ dead, (head.deleted ∨ head.format = currentFormat →
      BackoutsCovered currentFormat dead (gcCount formats gcRecords currentFormat) (old :: older)) →
    BackoutsCovered currentFormat dead (gcCount formats
      (releaseGCRecord (data.elim gcRecords (releaseGCRecord gcRecords 0)) (data.elim 0 fun _ => 1) oldData)
      currentFormat) (old :: older)

theorem Stored.backoutReads_of_deleted (h : Stored formats pages primary gcActive head (old :: older))
    (hfitting : ∀ r ∈ gcRecords, r.Fitting formats) (hdeleted : head.deleted = true) (currentFormat : FormatNumber) :
    ∃ oldData, BackoutReads formats currentFormat gcRecords head old (head.slot false gcActive (old :: older))
      (old.slot true false older) older none oldData := by
  have hwhole : old.difference = none := difference_of_deleted h.decodable.2.2.2.1 hdeleted
  have hcurrent : backoutData formats currentFormat gcRecords (head.slot false gcActive (old :: older)) = .ok none :=
    if_pos (by simp [StoredVersion.slot, hdeleted, hwhole])
  have hgc := fitting_getGCRecord hfitting 0 currentFormat
  cases hold : old.deleted with
  | true =>
    refine ⟨getGCRecord formats gcRecords 0 currentFormat, hcurrent, if_pos hold, fun hn => ?_,
      fitting_releaseGCRecord hfitting hgc 0, fun dead hcovered => ?_⟩
    · rw [hold] at hn
      cases hn
    · dsimp only [Option.elim_none]
      rw [gcCount_of_first (getElem?_releaseGCRecord_zero ..), format_getGCRecord, if_pos rfl]
      exact hcovered (.inl hdeleted)
  | false =>
    obtain ⟨oldData, hread, hholds, heq⟩ := h.backoutOldData_spec none hgc hold fun d hd => by
      rw [hwhole] at hd
      cases hd
    refine ⟨oldData, hcurrent, hread, fun _ => hholds.bytes, fitting_releaseGCRecord hfitting hholds.fitting 0,
      fun dead hcovered => ?_⟩
    rw [heq hwhole]
    dsimp only [Option.elim_none]
    rw [gcCount_after_read]
    split
    · exact hcovered (.inl hdeleted)
    · exact backoutsCovered_of_le le_rfl h.decodable.2.2

theorem Stored.backoutReads (h : Stored formats pages primary gcActive head (old :: older))
    (hfitting : ∀ r ∈ gcRecords, r.Fitting formats) (hdeleted : head.deleted = false)
    (hcovered : head.format = currentFormat → Covered (gcCount formats gcRecords currentFormat) old) :
    ∃ data oldData, BackoutReads formats currentFormat gcRecords head old (head.slot false gcActive (old :: older))
      (old.slot true false older) older (some data) oldData := by
  obtain ⟨data, hcurrent, hholds, hcount, hgcCount⟩ := h.backoutData_spec hfitting hdeleted currentFormat
  have hfirst := fitting_releaseGCRecord hfitting hholds.fitting 0
  have hgc := fitting_getGCRecord hfirst 1 currentFormat
  have hne : releaseGCRecord gcRecords 0 data ≠ [] := by
    intro hnil
    have := getElem?_releaseGCRecord_zero gcRecords data
    rw [hnil] at this
    cases this
  have hkeeps : ∀ dead oldData, (head.deleted ∨ head.format = currentFormat →
      BackoutsCovered currentFormat dead (gcCount formats gcRecords currentFormat) (old :: older)) →
      BackoutsCovered currentFormat dead (gcCount formats
        (releaseGCRecord (releaseGCRecord gcRecords 0 data) 1 oldData) currentFormat) (old :: older) := by
    intro dead oldData hcov
    rw [gcCount_of_first ((getElem?_releaseGCRecord_one hne oldData).trans (getElem?_releaseGCRecord_zero ..)),
      ← gcCount_of_first (getElem?_releaseGCRecord_zero ..), hgcCount]
    split
    · rename_i hformat
      exact hcov (.inr hformat)
    · exact backoutsCovered_of_le le_rfl h.decodable.2.2
  cases hold : old.deleted with
  | true =>
    refine ⟨data, _, hcurrent, if_pos hold, fun hn => ?_, fitting_releaseGCRecord hfirst hgc 1,
      fun dead => hkeeps dead _⟩
    rw [hold] at hn
    cases hn
  | false =>
    have henough : Covered data.count old := by
      rw [hcount, count_reset_getGCRecord]
      split
      · rename_i hformat
        exact hcovered hformat
      · have hlen : head.data.length = formats head.format := by
          simpa [StoredVersion.Fits, hdeleted] using h.decodable.1
        exact covered_of_le h.decodable.2.2.2.1 hlen.le
    obtain ⟨oldData, hread, hholds', -⟩ := h.backoutOldData_spec (some data) hgc hold
      fun d hd => ⟨data, rfl, hholds, henough⟩
    exact ⟨data, oldData, hcurrent, hread, fun _ => hholds'.bytes, fitting_releaseGCRecord hfirst hholds'.fitting 1,
      fun dead => hkeeps dead _⟩

theorem Stored.forward_slot {oldData : Record} (h : Stored formats pages primary gcActive head (old :: older))
    (hbytes : old.deleted = false → oldData.bytes formats = old.data) :
    ({ transaction := (old.slot true false older).transaction, format := (old.slot true false older).format
       deleted := (old.slot true false older).deleted
       delta := if (old.slot true false older).deleted then (head.slot false gcActive (old :: older)).delta
         else (old.slot true false older).back.isSome && (old.slot true false older).delta
       chained := false, gcActive := false, back := (old.slot true false older).back
       data := if (old.slot true false older).deleted then (old.slot true false older).data
         else oldData.bytes formats } : Slot) = (old.forward primary).slot false false older := by
  unfold StoredVersion.slot StoredVersion.forward
  cases hold : old.deleted with
  | true =>
    have hwhole : old.difference = none := (difference_of_deleted_self h.decodable.2.2.1 hold).2
    cases older with
    | nil => simp [hwhole]
    | cons v older =>
      have hnext : v.difference = none := difference_of_deleted h.decodable.2.2.2.2.2.1 hold
      simp [hwhole, hnext]
  | false => cases older <;> simp [hbytes hold]

/-- The current version is backed out: the version before is in its place as it was written. -/
theorem Stored.vioBackout_spec (h : Stored formats relation.pages primary gcActive head (old :: older))
    (currentFormat : FormatNumber) (samePage : Address → Address → Bool)
    (hfitting : ∀ r ∈ relation.gcRecords, r.Fitting formats) (hback : rpb.back = some old.address)
    (htransaction : rpb.transaction = head.transaction)
    (hcovered : head.deleted = false → head.format = currentFormat →
      Covered (gcCount formats relation.gcRecords currentFormat) old) :
    ∃ relation', vioBackout formats currentFormat samePage relation primary rpb = .ok relation' ∧
      (∀ r ∈ relation'.gcRecords, r.Fitting formats) ∧
      Stored formats relation'.pages primary false (old.forward primary) older ∧
      SameOutside relation.pages (head :: old :: older) relation'.pages (old.forward primary :: older) ∧
      ∀ dead, (head.deleted ∨ head.format = currentFormat →
          BackoutsCovered currentFormat dead (gcCount formats relation.gcRecords currentFormat) (old :: older)) →
        BackoutsCovered currentFormat dead (gcCount formats relation'.gcRecords currentFormat)
          (old.forward primary :: older) := by
  obtain ⟨data, oldData, hreads⟩ : ∃ data oldData, BackoutReads formats currentFormat relation.gcRecords head old
      (head.slot false gcActive (old :: older)) (old.slot true false older) older data oldData := by
    cases hdeleted : head.deleted with
    | true =>
      obtain ⟨oldData, hreads⟩ := h.backoutReads_of_deleted hfitting hdeleted currentFormat
      exact ⟨none, oldData, hreads⟩
    | false =>
      obtain ⟨data, oldData, hreads⟩ := h.backoutReads hfitting hdeleted (hcovered hdeleted)
      exact ⟨some data, oldData, hreads⟩
  have hsame : ¬((head.slot false gcActive (old :: older)).back ≠ rpb.back ∨
      (head.slot false gcActive (old :: older)).transaction ≠ rpb.transaction) := by
    simp [StoredVersion.slot, hback, htransaction]
  have hslotBack : (head.slot false gcActive (old :: older)).back = some old.address := rfl
  have hdelta : (head.slot false gcActive (old :: older)).delta = old.difference.isSome := rfl
  obtain ⟨pages', hbackout, hpages⟩ : ∃ pages', vioBackout formats currentFormat samePage relation primary rpb =
      .ok { pages := pages'
            gcRecords := releaseGCRecord (data.elim relation.gcRecords (releaseGCRecord relation.gcRecords 0))
              (data.elim 0 fun _ => 1) oldData } ∧
      ∀ a, dpmFetch pages' a = if a = old.address then none else
        if a = primary then some ((old.forward primary).slot false false older) else dpmFetch relation.pages a := by
    rw [vioBackout, h.dpmGet_eq]
    dsimp only
    rw [if_neg hsame, hreads.current]
    rw [hslotBack]
    dsimp only
    rw [h.back.1]
    dsimp only
    rw [hreads.before]
    dsimp only
    split
    · rename_i hpage
      have hwhole : old.difference = none := by simpa [hdelta] using hpage.2
      refine ⟨_, rfl, fun a => ?_⟩
      rw [dpmBackout, dpmFetch_dpmDelete, dpmFetch_set _ (lt_length_of_dpmFetch h.slot)]
      simp [StoredVersion.slot, StoredVersion.forward, hwhole]
    · refine ⟨_, rfl, fun a => ?_⟩
      rw [dpmFetch_dpmDelete, dpmFetch_dpmUpdate h.slot, h.forward_slot hreads.bytes]
  obtain ⟨hstored, hsameOutside⟩ := h.bringForward hpages
  exact ⟨_, hbackout, hreads.fitting, hstored, hsameOutside, fun dead hcov =>
    (hreads.covered dead hcov).forward primary⟩

theorem Stored.vioBackout_last (h : Stored formats relation.pages primary gcActive head [])
    (currentFormat : FormatNumber) (samePage : Address → Address → Bool)
    (hfitting : ∀ r ∈ relation.gcRecords, r.Fitting formats) (hback : rpb.back = none)
    (htransaction : rpb.transaction = head.transaction) :
    ∃ relation', vioBackout formats currentFormat samePage relation primary rpb = .ok relation' ∧
      (∀ r ∈ relation'.gcRecords, r.Fitting formats) ∧ relation'.pages = dpmDelete relation.pages primary := by
  have hsame : ¬((head.slot false gcActive []).back ≠ rpb.back ∨
      (head.slot false gcActive []).transaction ≠ rpb.transaction) := by
    simp [StoredVersion.slot, hback, htransaction]
  have hslotBack : (head.slot false gcActive []).back = none := rfl
  obtain ⟨data, hdata, hdataFitting⟩ : ∃ data, backoutData formats currentFormat relation.gcRecords
      (head.slot false gcActive []) = .ok data ∧
      ∀ r ∈ data.elim relation.gcRecords (releaseGCRecord relation.gcRecords 0), r.Fitting formats := by
    cases hdeleted : head.deleted with
    | true => exact ⟨none, if_pos (by simp [StoredVersion.slot, hdeleted]), hfitting⟩
    | false =>
      obtain ⟨data, hdata, hholds, -, -⟩ := h.backoutData_spec hfitting hdeleted currentFormat
      exact ⟨some data, hdata, fitting_releaseGCRecord hfitting hholds.fitting 0⟩
  refine ⟨{ pages := dpmDelete relation.pages primary
            gcRecords := data.elim relation.gcRecords (releaseGCRecord relation.gcRecords 0) }, ?_, hdataFitting, rfl⟩
  rw [vioBackout, h.dpmGet_eq]
  dsimp only
  rw [if_neg hsame, hdata]
  rw [hslotBack]

theorem Stored.purge_spec (h : Stored formats relation.pages primary false head older) (currentFormat : FormatNumber)
    (hfitting : ∀ r ∈ relation.gcRecords, r.Fitting formats) (hdeleted : head.deleted = false) :
    ∃ relation', purge formats currentFormat relation primary (head.slot false false older) = .ok relation' ∧
      (∀ r ∈ relation'.gcRecords, r.Fitting formats) ∧ Stored formats relation'.pages primary false head [] ∧
      SameOutside relation.pages (head :: older) relation'.pages [head] := by
  obtain ⟨hread, hholds⟩ := vioData_whole (fitting_getGCRecord hfitting 0 currentFormat) h.decodable.1 hdeleted
    h.difference_head false false older
  have hgc := fitting_releaseGCRecord hfitting hholds.fitting 0
  rw [purge, hread]
  rw [h.dpmGet_eq]
  dsimp only
  cases older with
  | nil =>
    rw [if_pos (.inr (.inr rfl))]
    exact ⟨_, rfl, hgc, h, fun _ _ => .rfl⟩
  | cons old older =>
    obtain ⟨pages', hdelete, hstored, hsame⟩ := h.replaceChain (.nil _) trivial
      { head.slot false false (old :: older) with back := none, delta := false, gcActive := false }
      (by rfl)
    have hslotBack : (head.slot false false (old :: older)).back = (old :: older).head?.map (·.address) := rfl
    rw [if_neg (by simp [StoredVersion.slot]), hslotBack, hdelete]
    exact ⟨_, rfl, hgc, hstored, hsame⟩

theorem Stored.expunge_spec (h : Stored formats relation.pages primary gcActive head older) (oldestSnapshot : TraNumber)
    (noCleanup : Bool) : ∃ relation', expunge oldestSnapshot noCleanup relation primary = .ok relation' := by
  have hback : BackVersions (dpmDelete relation.pages primary) older := by
    refine h.back.congr fun v hv => ?_
    rw [dpmFetch_dpmDelete, if_neg (h.ne_primary hv)]
  obtain ⟨pages', hdelete, -⟩ := deleteVersionChain_spec hback h.nodup_older (h.length_le.trans (Nat.le_succ _))
  have hslotBack : (head.slot false gcActive older).back = older.head?.map (·.address) := rfl
  rw [expunge, h.dpmGet_eq]
  dsimp only
  rw [hslotBack, hdelete]
  split
  · exact ⟨_, rfl⟩
  · split
    all_goals exact ⟨_, rfl⟩

end Firebird.Vio
