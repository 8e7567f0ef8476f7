import Firebird.Vio.Staying

/-! # What intermediate garbage collection keeps

`list_staying` reads each version into a block of its own, and `VIO_data` copies to it what the array of the prior
record counts. -/

namespace Firebird.Vio

open List
open Tpc (TraNumber CommitNumber ActiveSnapshots IsCommitted)
open Sqz.Difference (IsDifference Describes overlay decode length_overlay getElem?_overlay isDifference_make)

variable {formats : Formats} {pages pages' stored : Pages} {primary : Address} {gcActive : Bool}
  {head v newer : StoredVersion} {older chain : List StoredVersion} {record : Record} {c : Nat}
  {cacheState : TraNumber → CommitNumber} {active : ActiveSnapshots}

def countAfter (c : Nat) (v : StoredVersion) : Nat := if v.difference.isSome then c else v.data.length

def withCounts : Nat → List StoredVersion → List (StoredVersion × Nat)
  | _, [] => []
  | c, v :: older => (v, countAfter c v) :: withCounts (countAfter c v) older

def Copied (v : StoredVersion) (c : Nat) : Prop :=
  ∀ d changes, v.difference = some d → decode d = some changes →
    ∀ i < v.data.length, c ≤ i → changes[i]? = some none → v.data[i]? = some 0

structure ReadAs (formats : Formats) (version : StoredVersion × Nat) (r : StayingRecord) : Prop where
  transaction : r.transaction = version.1.transaction
  fitting : r.record.Fitting formats
  format : r.record.format = version.1.format
  count : r.record.count = version.2
  copied : ∀ i < version.1.data.length, i < version.2 → r.record.data[i]? = version.1.data[i]?
  bytes : r.record.bytes formats = version.1.data ↔ Copied version.1 version.2

def LastRead (formats : Formats) (newer : Option StoredVersion) (c : Nat) (data : Prior) : Prop :=
  ∀ n, newer = some n → n.deleted = false → ∃ r, ReadAs formats (n, c) r ∧ data = .record r.record

theorem reset_new (formats : Formats) (format : FormatNumber) :
    (Record.new formats format).reset formats format = Record.new formats format := if_pos rfl

theorem differenceBase_record (r : Record) (format : FormatNumber) :
    differenceBase formats (Record.new formats format) format (.record r) =
      { format, data := r.data.take r.count ++ replicate (formats format - r.count) 0, count := r.count } := by
  rw [differenceBase, reset_new, Record.new, Record.copyDataFrom, drop_replicate]

theorem vioData_readAs {newerVersion : Option StoredVersion} {data : Prior} {chained : Bool}
    (older : List StoredVersion)
    (hlast : LastRead formats newerVersion c data) (hfits : v.Fits formats) (hdecodes : v.DecodesFrom newerVersion)
    (hdeleted : v.deleted = false) (hchained : newerVersion.isSome → chained = true) :
    ∃ record, vioData formats (Record.new formats v.format) (bif v.difference.isSome then data else .none)
        (v.slot chained false older) = .ok record ∧
      ReadAs formats (v, countAfter c v) ⟨v.transaction, record⟩ := by
  have hlen : v.data.length = formats v.format := by simpa [StoredVersion.Fits, hdeleted] using hfits
  cases hdiff : v.difference with
  | none =>
    obtain ⟨hread, hholds⟩ :=
      vioData_whole (Record.fitting_new formats v.format) hfits hdeleted hdiff chained false older
    refine ⟨_, hread, ?_⟩
    exact {
      transaction := rfl
      fitting := hholds.fitting
      format := hholds.format
      count := by
        rw [reset_new, countAfter, hdiff, hlen]
        rfl
      copied := fun i hi _ => hholds.getElem? hi
      bytes := by
        refine ⟨fun _ d _ hd => ?_, fun _ => hholds.bytes⟩
        rw [hdiff] at hd
        cases hd }
  | some d =>
    obtain ⟨n, rfl, hn, hisdiff⟩ := hdecodes d hdiff
    obtain ⟨r, hr, rfl⟩ := hlast n rfl hn
    have hcount := hr.fitting.count
    rw [hr.count] at hcount
    have hbase : differenceBase formats (Record.new formats v.format) v.format (.record r.record) =
        { format := v.format, data := r.record.data.take c ++ replicate (v.data.length - c) 0, count := c } := by
      rw [differenceBase_record, hr.count, hlen]
    have hlength : v.data.length ≤ (r.record.data.take c ++ replicate (v.data.length - c) 0).length := by
      simp only [length_append, length_take, length_replicate]
      omega
    obtain ⟨changes, hdecode, hdescribes, hread⟩ := vioData_difference (Record.new formats v.format)
      (v.slot chained false older) (.record r.record) (by simp) (hchained rfl)
      (by simpa [StoredVersion.slot, hdiff] using hisdiff) hlen (hbase ▸ hlength)
    have hcopied : ∀ i < v.data.length, changes[i]? = some none → i < c →
        (r.record.data.take c ++ replicate (v.data.length - c) 0)[i]? = v.data[i]? := by
      intro i hi hstay hic
      obtain ⟨hn, heq⟩ := hdescribes.stays hi hstay
      rw [getElem?_append_left (by rw [length_take]; omega), getElem?_take_of_lt hic, hr.copied i hn hic, heq]
    have hzero : ∀ i < v.data.length, c ≤ i →
        (r.record.data.take c ++ replicate (v.data.length - c) 0)[i]? = some 0 := by
      intro i hi hic
      rw [getElem?_append_right (by rw [length_take]; omega), length_take, getElem?_replicate,
        if_pos (by omega)]
    have hslot : (v.slot chained false older).data = d := by simp [StoredVersion.slot, hdiff]
    rw [hslot] at hdecode
    refine ⟨_, hread, ?_⟩
    rw [show (v.slot chained false older).format = v.format from rfl, hbase]
    exact {
      transaction := rfl
      fitting := by
        constructor
        · simp only [length_overlay, length_append, length_take, length_replicate]
          omega
        · rw [Record.getLength, length_overlay, ← hlen]
          exact hlength
      format := rfl
      count := by simp [countAfter, hdiff]
      copied := by
        intro i hi hic
        simp only [countAfter, hdiff, Option.isSome_some, if_true] at hic
        rw [getElem?_overlay]
        rcases hdescribes.getElem? i hi with hwrite | ⟨hstay, -⟩
        · rw [hwrite, getElem?_eq_getElem hi, getElem?_eq_getElem (Nat.lt_of_lt_of_le hi hlength)]
          rfl
        · rw [hstay, hcopied i hi hstay hic, getElem?_eq_getElem hi]
          rfl
      bytes := by
        have hbytes := hdescribes.take_overlay_iff hlength
        rw [Record.bytes, Record.getLength]
        rw [← hlen, hbytes]
        simp only [countAfter, hdiff, Option.isSome_some, if_true]
        constructor
        · intro h d' changes' hd hchanges i hi hic hstay
          cases hdiff.symm.trans hd
          cases hdecode.symm.trans hchanges
          rw [← h i hi hstay, hzero i hi hic]
        · intro h i hi hstay
          by_cases hic : i < c
          · exact hcopied i hi hstay hic
          · rw [hzero i hi (by omega), h d changes hdiff hdecode i hi (by omega) hstay] }

theorem listStayingFrom_spec {newerVersion : Option StoredVersion} {data : Prior} {chained : Bool} {fuel : Nat}
    (hback : BackVersions pages older) (hdec : Decodable formats newerVersion (v :: older))
    (hdeleted : ∀ w ∈ v :: older, w.deleted = false) (hlast : LastRead formats newerVersion c data)
    (hchained : newerVersion.isSome → chained = true) (hfuel : older.length < fuel) :
    ∃ records, listStayingFrom formats pages fuel data v.difference.isSome (v.slot chained false older) = .ok records ∧
      Forall₂ (ReadAs formats) (withCounts c (v :: older)) records := by
  induction older generalizing newerVersion v chained fuel data c with
  | nil =>
    obtain ⟨fuel, rfl⟩ : ∃ k, fuel = k + 1 := ⟨fuel - 1, by omega⟩
    obtain ⟨record, hread, hreadAs⟩ := vioData_readAs [] hlast hdec.1 hdec.2.1
      (hdeleted v mem_cons_self) hchained
    refine ⟨[⟨v.transaction, record⟩], ?_, .cons hreadAs .nil⟩
    have hformat : (v.slot chained false []).format = v.format := rfl
    rw [listStayingFrom, hformat, hread]
    simp [StoredVersion.slot, hdeleted v mem_cons_self]
  | cons w older ih =>
    obtain ⟨fuel, rfl⟩ : ∃ k, fuel = k + 1 := ⟨fuel - 1, by omega⟩
    obtain ⟨record, hread, hreadAs⟩ := vioData_readAs (w :: older) hlast hdec.1 hdec.2.1
      (hdeleted v mem_cons_self) hchained
    have hlast' : LastRead formats (some v) (countAfter c v) (.record record) := by
      intro n hn _
      cases hn
      exact ⟨_, hreadAs, rfl⟩
    obtain ⟨records, hrest, hall⟩ := ih hback.2 hdec.2.2 (fun u hu => hdeleted u (mem_cons_of_mem v hu)) hlast'
      (fun _ => rfl) (Nat.lt_of_succ_lt_succ hfuel)
    refine ⟨⟨v.transaction, record⟩ :: records, ?_, .cons hreadAs hall⟩
    have hformat : (v.slot chained false (w :: older)).format = v.format := rfl
    have hnext : dpmFetch pages w.address = some (w.slot true false older) := hback.1
    rw [listStayingFrom, hformat, hread]
    simp only [StoredVersion.slot, hdeleted v mem_cons_self, head?_cons, Option.map_some, Option.any_some,
      Bool.false_eq_true, if_false] at hrest hnext ⊢
    rw [hnext]
    simp only [hrest, cons_append, nil_append]

def readVersions (head : StoredVersion) (older : List StoredVersion) : List (StoredVersion × Nat) :=
  if head.deleted then withCounts 0 older else withCounts 0 (head :: older)

theorem Stored.listStaying_spec (h : Stored formats pages primary false head older)
    (hdeleted : ∀ v ∈ older, v.deleted = false) :
    ∃ records, listStaying formats pages (head.slot false false older) = .ok records ∧
      Forall₂ (ReadAs formats) (readVersions head older) records := by
  unfold listStaying readVersions
  cases hhead : head.deleted with
  | false =>
    have hdifference := h.difference_head
    have hlast : LastRead formats none 0 .none := fun _ hn => nomatch hn
    obtain ⟨records, hread, hall⟩ := listStayingFrom_spec h.back h.decodable
      (fun v hv => (mem_cons.mp hv).elim (fun he => he ▸ hhead) (hdeleted v)) hlast (fun hn => nomatch hn)
      (Nat.lt_succ_of_le h.length_le)
    exact ⟨records, hread, hall⟩
  | true =>
    cases older with
    | nil =>
      refine ⟨[], ?_, .nil⟩
      simp [listStayingFrom, StoredVersion.slot, hhead]
    | cons w older =>
      have hlast : LastRead formats (some head) 0 .none := by
        intro n hn hnot
        cases hn
        rw [hhead] at hnot
        cases hnot
      have hnext : dpmFetch pages w.address = some (w.slot true false older) := h.back.1
      obtain ⟨records, hread, hall⟩ := listStayingFrom_spec h.back.2 h.decodable.2.2 hdeleted hlast (fun _ => rfl)
        h.length_le
      refine ⟨records, ?_, hall⟩
      rw [listStayingFrom]
      simp only [StoredVersion.slot, hhead, head?_cons, Option.map_some, Option.any_some, if_true] at hread hnext ⊢
      rw [hnext]
      simp only [hread, nil_append]

def StayingRecord.version (formats : Formats) (r : StayingRecord) : Version where
  transaction := r.transaction
  format := r.record.format
  deleted := false
  data := r.record.bytes formats

structure NewChain (pages stored : Pages) (back : Option Address) (delta : Bool)
    (chain : List StoredVersion) : Prop where
  versions : BackVersions stored chain
  address : back = chain.head?.map (·.address)
  delta : delta = chain.head?.any (·.difference.isSome)
  distinct : (chain.map (·.address)).Nodup
  free : ∀ v ∈ chain, dpmFetch pages v.address = none
  others : ∀ a, a ∉ chain.map (·.address) → dpmFetch stored a = dpmFetch pages a

theorem NewChain.nil (pages : Pages) : NewChain pages pages none false [] :=
  ⟨trivial, rfl, rfl, .nil, nofun, fun _ _ => rfl⟩

theorem NewChain.store {back : Option Address} {delta : Bool} (h : NewChain pages stored back delta chain)
    (version : Version) (difference : Option Bytes) {slot : Slot}
    (hslot : ∀ address, slot = StoredVersion.slot true false { version with address, difference } chain) :
    NewChain pages (dpmStore stored slot).1 (some (dpmStore stored slot).2) difference.isSome
      ({ version with address := (dpmStore stored slot).2, difference } :: chain) := by
  obtain ⟨hfree, hfetch⟩ := dpmFetch_dpmStore stored slot
  have hne : ∀ v ∈ chain, v.address ≠ (dpmStore stored slot).2 := by
    intro v hv he
    obtain ⟨s, hs⟩ := h.versions.mem hv
    rw [he, hfree] at hs
    cases hs
  have hnot : (dpmStore stored slot).2 ∉ chain.map (·.address) := by
    intro hmem
    obtain ⟨v, hv, he⟩ := mem_map.mp hmem
    exact hne v hv he
  refine ⟨⟨?_, h.versions.congr fun v hv => ?_⟩, rfl, rfl, nodup_cons.mpr ⟨hnot, h.distinct⟩, ?_, ?_⟩
  · rw [hfetch, if_pos rfl]
    exact congrArg some (hslot _)
  · rw [hfetch, if_neg (hne v hv)]
  · intro v hv
    rcases mem_cons.mp hv with rfl | hv
    · rw [← h.others _ hnot, hfree]
    · exact h.free v hv
  · intro a ha
    rw [map_cons, mem_cons, not_or] at ha
    rw [hfetch, if_neg ha.1, h.others a ha.2]

theorem deltaOf_isDifference {current org d : Bytes} (h : deltaOf current org = some d) : IsDifference d current org :=
  isDifference_make (Option.filter_eq_some_iff.mp h).1

theorem StayingRecord.length_version {r : StayingRecord} (h : r.record.Fitting formats) :
    (r.version formats).data.length = formats r.record.format := by
  have hformat := h.format
  simp only [StayingRecord.version, Record.bytes, length_take, Record.getLength] at hformat ⊢
  omega

theorem NewChain.storeRecord {back : Option Address} {delta : Bool} (h : NewChain pages stored back delta chain)
    {r : StayingRecord} (hfitting : r.record.Fitting formats) (difference : Option Bytes) {base : Bytes}
    (hdiff : ∀ d, difference = some d → IsDifference d base (r.record.bytes formats))
    (hdec : ∀ n : StoredVersion, n.deleted = false → n.data = r.record.bytes formats →
      Decodable formats (some n) chain) :
    ∃ v : StoredVersion, v.toVersion = r.version formats ∧
      NewChain pages (dpmStore stored (r.slot formats difference back delta)).1
        (some (dpmStore stored (r.slot formats difference back delta)).2) difference.isSome (v :: chain) ∧
      ∀ n : StoredVersion, (difference.isSome → n.deleted = false ∧ n.data = base) →
      Decodable formats (some n) (v :: chain) := by
  refine ⟨_, rfl, h.store (r.version formats) difference fun address => ?_, fun n hn =>
    ⟨?_, fun d hd => ?_, hdec _ rfl rfl⟩⟩
  · rw [StoredVersion.slot, ← h.address, ← h.delta]
    rfl
  · exact StayingRecord.length_version hfitting
  · obtain ⟨hdeleted, hdata⟩ := hn (by rw [show difference = some d from hd]; rfl)
    exact ⟨n, rfl, hdeleted, hdata ▸ hdiff d hd⟩

theorem storeStaying_spec (pages : Pages) (records : List StayingRecord)
    (hfitting : ∀ r ∈ records, r.record.Fitting formats) :
    ∃ chain, NewChain pages (storeStaying formats pages records).1 (storeStaying formats pages records).2.1
        (storeStaying formats pages records).2.2 chain ∧
      chain.map (·.toVersion) = records.tail.map (·.version formats) ∧
      ∀ n : StoredVersion, n.deleted = false → records.head?.map (·.record.bytes formats) = some n.data →
        Decodable formats (some n) chain := by
  induction records with
  | nil => exact ⟨[], .nil pages, rfl, fun _ _ _ => trivial⟩
  | cons current records ih =>
    cases records with
    | nil => exact ⟨[], .nil pages, rfl, fun _ _ _ => trivial⟩
    | cons org older =>
      obtain ⟨chain, hnew, hversions, hdec⟩ := ih fun r hr => hfitting r (mem_cons_of_mem _ hr)
      obtain ⟨v, hv, hnew', hdec'⟩ := hnew.storeRecord (r := org)
        (hfitting org (mem_cons_of_mem _ mem_cons_self))
        (deltaOf (current.record.bytes formats) (org.record.bytes formats))
        (fun d hd => deltaOf_isDifference hd) fun n hn hdata => hdec n hn (congrArg some hdata.symm)
      refine ⟨v :: chain, hnew', by rw [map_cons, hv, hversions]; rfl, fun n hn hdata => hdec' n fun _ => ⟨hn, ?_⟩⟩
      exact (Option.some_inj.mp hdata).symm

theorem storeStayingChain_spec (pages : Pages) {records : List StayingRecord}
    (hfitting : ∀ r ∈ records, r.record.Fitting formats)
    (hhead : head.deleted = false → records.head?.map (·.record.bytes formats) = some head.data) :
    ∃ chain, NewChain pages (storeStayingChain formats pages head.deleted records).1
        (storeStayingChain formats pages head.deleted records).2.1
        (storeStayingChain formats pages head.deleted records).2.2 chain ∧
      chain.map (·.toVersion) = (bif head.deleted then records else records.tail).map (·.version formats) ∧
      Decodable formats (some head) chain := by
  obtain ⟨chain, hnew, hversions, hdec⟩ := storeStaying_spec pages records hfitting
  cases hdeleted : head.deleted with
  | false => exact ⟨chain, hnew, hversions, hdec head hdeleted (hhead hdeleted)⟩
  | true =>
    cases records with
    | nil => exact ⟨[], .nil pages, rfl, trivial⟩
    | cons current older =>
      have hwhole : ∀ d, none = some d → IsDifference d [] (current.record.bytes formats) := nofun
      obtain ⟨v, hv, hnew', hdec'⟩ := hnew.storeRecord (hfitting current mem_cons_self) none hwhole
        fun n hn hdata => hdec n hn (congrArg some hdata.symm)
      exact ⟨v :: chain, hnew', by rw [map_cons, hv, hversions]; rfl, hdec' head nofun⟩

theorem deleteVersionChain_spec {fuel : Nat} (hback : BackVersions pages older) (hd : (older.map (·.address)).Nodup)
    (hfuel : older.length ≤ fuel) :
    ∃ pages', deleteVersionChain pages fuel (older.head?.map (·.address)) = .ok pages' ∧
      ∀ a, dpmFetch pages' a = if a ∈ older.map (·.address) then none else dpmFetch pages a := by
  induction older generalizing pages fuel with
  | nil => exact ⟨pages, by rw [head?_nil, Option.map_none, deleteVersionChain], fun _ => rfl⟩
  | cons v older ih =>
    obtain ⟨fuel, rfl⟩ : ∃ k, fuel = k + 1 := ⟨fuel - 1, by simp only [length_cons] at hfuel; omega⟩
    obtain ⟨hv, hd⟩ := nodup_cons.mp hd
    have hback' : BackVersions (dpmDelete pages v.address) older := by
      refine hback.2.congr fun w hw => ?_
      rw [dpmFetch_dpmDelete, if_neg fun he => hv (mem_map.mpr ⟨w, hw, he⟩)]
    obtain ⟨pages', hdelete, hfetch⟩ := ih hback' hd (by simpa using hfuel)
    refine ⟨pages', ?_, fun a => ?_⟩
    · rw [head?_cons, Option.map_some, deleteVersionChain, hback.1]
      exact hdelete
    · rw [hfetch, dpmFetch_dpmDelete]
      by_cases ha : a = v.address
      all_goals simp [ha]

/-! ### The whole collection -/

def SameOutside (pages : Pages) (chain : List StoredVersion) (pages' : Pages) (chain' : List StoredVersion) : Prop :=
  ∀ a slot, (a ∉ chain'.map (·.address) ∧ dpmFetch pages' a = some slot) ↔
    (a ∉ chain.map (·.address) ∧ dpmFetch pages a = some slot)

/-- The new chain takes the place of the old one behind the primary version. -/
theorem Stored.replaceChain (h : Stored formats pages primary gcActive head older)
    {back : Option Address} {delta : Bool}
    (hnew : NewChain pages stored back delta chain) (hdec : Decodable formats (some head) chain) (slot : Slot)
    (hslot : slot = head.slot false gcActive chain) :
    ∃ pages', deleteVersionChain (dpmRewriteHeader stored primary slot) (pages.length + 1)
    (older.head?.map (·.address)) =
        .ok pages' ∧ Stored formats pages' primary gcActive head chain ∧
      SameOutside pages (head :: older) pages' (head :: chain) := by
  -- no slot of the old chain was free
  have hold : ∀ v ∈ head :: older, v.address ∉ chain.map (·.address) := by
    intro v hv hmem
    obtain ⟨w, hw, he⟩ := mem_map.mp hmem
    have hfree := hnew.free w hw
    rw [he] at hfree
    rcases mem_cons.mp hv with rfl | hv
    · rw [h.atPrimary, h.slot] at hfree
      cases hfree
    · obtain ⟨s, hs⟩ := h.back.mem hv
      rw [hs] at hfree
      cases hfree
  have hprimary : primary ∉ chain.map (·.address) := h.atPrimary ▸ hold head mem_cons_self
  have hfetch : dpmFetch stored primary = some (head.slot false gcActive older) := by
    rw [hnew.others _ hprimary, h.slot]
  have hback : BackVersions (dpmRewriteHeader stored primary slot) older := by
    refine h.back.congr fun v hv => ?_
    rw [dpmFetch_dpmRewriteHeader hfetch, if_neg (h.ne_primary hv), hnew.others _ (hold v (mem_cons_of_mem _ hv))]
  obtain ⟨pages', hdelete, hpages⟩ := deleteVersionChain_spec hback h.nodup_older (h.length_le.trans (Nat.le_succ _))
  have hget : ∀ a, dpmFetch pages' a = if a ∈ older.map (·.address) then none else
      if a = primary then some slot else dpmFetch stored a := by
    intro a
    rw [hpages, dpmFetch_dpmRewriteHeader hfetch]
  have hnotOlder : primary ∉ older.map (·.address) := h.atPrimary ▸ (nodup_cons.mp h.distinct).1
  refine ⟨pages', hdelete, ⟨h.atPrimary, ?_, ?_, ?_, h.decodable.1, h.decodable.2.1, hdec⟩, ?_⟩
  · rw [hget, if_neg hnotOlder, if_pos rfl, hslot]
  · refine hnew.versions.congr fun v hv => ?_
    have hmem : v.address ∈ chain.map (·.address) := mem_map.mpr ⟨v, hv, rfl⟩
    rw [hget, if_neg fun ho => ?_, if_neg fun he : v.address = primary => hprimary (he ▸ hmem)]
    obtain ⟨w, hw, he⟩ := mem_map.mp ho
    exact hold w (mem_cons_of_mem _ hw) (he ▸ hmem)
  · exact nodup_cons.mpr ⟨hold head mem_cons_self, hnew.distinct⟩
  · intro a s
    rw [hget, map_cons, map_cons, h.atPrimary]
    by_cases ha : a = primary
    · simp [ha]
    · by_cases ho : a ∈ older.map (·.address)
      · simp [ho]
      · by_cases hc : a ∈ chain.map (·.address)
        · obtain ⟨w, hw, he⟩ := mem_map.mp hc
          have hfree := he ▸ hnew.free w hw
          simp [hc, hfree]
        · rw [hnew.others a hc]
          simp [ha, ho, hc]

theorem forall₂_split {α β : Type} {R : α → β → Prop} {f : α → CommitNumber} {g : β → CommitNumber}
    (hR : ∀ a b, R a b → f a = g b) {as : List α} {bs : List β} (h : Forall₂ R as bs) (previous : CommitNumber) :
    Forall₂ R (staying f previous as) (staying g previous bs) ∧
      Forall₂ R (going f previous as) (going g previous bs) := by
  induction h generalizing previous with
  | nil => exact ⟨.nil, .nil⟩
  | cons hab _ ih =>
    rw [staying, staying, going, going, hR _ _ hab]
    split
    · exact ⟨(ih _).1, .cons hab (ih _).2⟩
    · exact ⟨.cons hab (ih _).1, (ih _).2⟩

theorem exists_of_mem_forall₂ {α β : Type} {R : α → β → Prop} {as : List α} {bs : List β} (h : Forall₂ R as bs)
    {b : β} (hb : b ∈ bs) : ∃ a ∈ as, R a b := by
  induction h with
  | nil => cases hb
  | @cons a b' as bs hab _ ih =>
    rcases mem_cons.mp hb with rfl | hb
    · exact ⟨a, mem_cons_self, hab⟩
    · obtain ⟨a', ha', hab'⟩ := ih hb
      exact ⟨a', mem_cons_of_mem a ha', hab'⟩

theorem ReadAs.bytes_of_whole {r : StayingRecord} (h : ReadAs formats (v, c) r) (hv : v.difference = none) :
    r.record.bytes formats = v.data := by
  refine h.bytes.mpr fun d _ hd => ?_
  rw [hv] at hd
  cases hd

def snapshotOf (cacheState : TraNumber → CommitNumber) (active : ActiveSnapshots) (version : StoredVersion × Nat) :
    CommitNumber :=
  snapshotForVersion cacheState active version.1.transaction

theorem Stored.vioIntermediateGc_spec (h : Stored formats pages primary false head older)
    (hdeleted : ∀ v ∈ older, v.deleted = false)
    (hgoing : going (snapshotOf cacheState active) 0 (readVersions head older) ≠ []) :
    ∃ records pages' chain,
      Forall₂ (ReadAs formats) (staying (snapshotOf cacheState active) 0 (readVersions head older)) records ∧
      vioIntermediateGc formats cacheState active pages primary = .ok pages' ∧
      Stored formats pages' primary false head chain ∧
      (head :: chain).map (·.toVersion) =
        (bif head.deleted then [head.toVersion] else []) ++ records.map (·.version formats) ∧
      SameOutside pages (head :: older) pages' (head :: chain) := by
  obtain ⟨records, hlist, hall⟩ := h.listStaying_spec hdeleted
  obtain ⟨hstaying, hgoing'⟩ := forall₂_split (f := snapshotOf cacheState active)
    (g := fun r : StayingRecord => snapshotForVersion cacheState active r.transaction)
    (fun v r hr => by rw [snapshotOf, hr.transaction]) hall 0
  have hne : going (fun r : StayingRecord => snapshotForVersion cacheState active r.transaction) 0 records ≠ [] := by
    intro he
    rw [he] at hgoing'
    cases hg : going (snapshotOf cacheState active) 0 (readVersions head older) with
    | nil => exact hgoing hg
    | cons v versions =>
      rw [hg] at hgoing'
      cases hgoing'
  have hmany : ¬records.length ≤ 1 := by
    intro hle
    refine hne ?_
    match records, hle with
    | [], _ => rfl
    | [r], _ => exact if_neg fun hr => hr.1 hr.2
  generalize hsnapshot : (fun r : StayingRecord => snapshotForVersion cacheState active r.transaction) = snapshot at *
  have hfitting : ∀ r ∈ staying snapshot 0 records, r.record.Fitting formats := by
    intro r hr
    obtain ⟨v, -, hv⟩ := exists_of_mem_forall₂ hstaying hr
    exact hv.fitting
  have hhead : head.deleted = false → (staying snapshot 0 records).head?.map (·.version formats) =
      some head.toVersion := by
    intro hd
    rw [readVersions, hd, if_neg Bool.false_ne_true, withCounts, staying_cons_zero] at hstaying
    obtain ⟨r, rs, hr, -, heq⟩ := forall₂_cons_left_iff.mp hstaying
    rw [heq, head?_cons, Option.map_some, StayingRecord.version, hr.bytes_of_whole h.difference_head, hr.format,
      hr.transaction, ← hd]
  obtain ⟨chain, hnew, hversions, hdec⟩ := storeStayingChain_spec pages hfitting fun hd => by
    have := congrArg (Option.map Version.data) (hhead hd)
    rwa [Option.map_map] at this
  obtain ⟨pages', hpages, hstored, hsame⟩ := h.replaceChain hnew hdec {
    head.slot false false older with
    back := (storeStayingChain formats pages head.deleted (staying snapshot 0 records)).2.1
    delta := (storeStayingChain formats pages head.deleted (staying snapshot 0 records)).2.2 }
    (by rw [hnew.address, hnew.delta]; rfl)
  refine ⟨_, pages', chain, hstaying, ?_, hstored, ?_, hsame⟩
  rotate_left
  · rw [map_cons, hversions]
    cases hd : head.deleted with
    | true => rfl
    | false =>
      obtain ⟨r, hr, hr'⟩ := Option.map_eq_some_iff.mp (hhead hd)
      obtain ⟨rs, hrs⟩ := head?_eq_some_iff.mp hr
      rw [hrs, ← hr']
      rfl
  rw [vioIntermediateGc, h.dpmGet_eq]
  have hactive : (head.slot false false older).gcActive = false := rfl
  dsimp only
  rw [hactive, hlist]
  dsimp only
  rw [hsnapshot, if_neg hmany, if_neg hne]
  exact hpages

theorem map_withCounts (c : Nat) (chain : List StoredVersion) :
    (withCounts c chain).map (·.1.toVersion) = chain.map (·.toVersion) := by
  induction chain generalizing c with
  | nil => rfl
  | cons v older ih => rw [withCounts, map_cons, map_cons, ih]

theorem mem_of_mem_withCounts {p : StoredVersion × Nat} (h : p ∈ withCounts c chain) : p.1 ∈ chain := by
  induction chain generalizing c with
  | nil => cases h
  | cons v older ih =>
    rcases mem_cons.mp h with rfl | h
    · exact mem_cons_self
    · exact mem_cons_of_mem v (ih h)

theorem map_version_eq_iff {vs : List (StoredVersion × Nat)} {records : List StayingRecord}
    (h : Forall₂ (ReadAs formats) vs records) (hdeleted : ∀ p ∈ vs, p.1.deleted = false) :
    records.map (·.version formats) = vs.map (·.1.toVersion) ↔ ∀ p ∈ vs, Copied p.1 p.2 := by
  induction h with
  | nil => simp
  | @cons p r vs records hr _ ih =>
    have hversion : r.version formats = p.1.toVersion ↔ Copied p.1 p.2 := by
      rw [← hr.bytes, StayingRecord.version, Version.mk.injEq]
      simp [hr.transaction, hr.format, hdeleted p mem_cons_self]
    rw [map_cons, map_cons, cons.injEq, hversion, ih fun q hq => hdeleted q (mem_cons_of_mem p hq)]
    simp

/-- The versions of a record that are kept; those of a record that is being backed out are left alone. -/
def versionsAfterGc (cacheState : TraNumber → CommitNumber) (active : ActiveSnapshots) (gcActive : Bool)
    (all : List Version) : List Version :=
  if gcActive then all else keptVersions cacheState active all

/-- Nothing goes, or all bytes of the versions that stay are copied when they are read. -/
def ReadsWhole (cacheState : TraNumber → CommitNumber) (active : ActiveSnapshots) (gcActive : Bool)
    (head : StoredVersion) (older : List StoredVersion) : Prop :=
  gcActive = true ∨ going (snapshotOf cacheState active) 0 (readVersions head older) = [] ∨
    ∀ p ∈ staying (snapshotOf cacheState active) 0 (readVersions head older), Copied p.1 p.2

theorem map_staying_withCounts (c : Nat) (chain : List StoredVersion) :
    (staying (snapshotOf cacheState active) 0 (withCounts c chain)).map (·.1.toVersion) =
      staying (fun v : Version => snapshotForVersion cacheState active v.transaction) 0 (chain.map (·.toVersion)) := by
  rw [← map_withCounts c chain, staying_map]
  rfl

theorem keptVersions_eq (head : StoredVersion) (older : List StoredVersion) :
    keptVersions cacheState active ((head :: older).map (·.toVersion)) =
      (bif head.deleted then [head.toVersion] else []) ++
        (staying (snapshotOf cacheState active) 0 (readVersions head older)).map (·.1.toVersion) := by
  rw [map_cons, keptVersions, readVersions]
  cases head.deleted with
  | true | false => simp [map_staying_withCounts]

theorem Stored.vioIntermediateGc_idle (h : Stored formats pages primary gcActive head older)
    (hdeleted : ∀ v ∈ older, v.deleted = false)
    (hidle : gcActive = true ∨ going (snapshotOf cacheState active) 0 (readVersions head older) = []) :
    vioIntermediateGc formats cacheState active pages primary = .ok pages := by
  rw [vioIntermediateGc, h.dpmGet_eq]
  cases gcActive with
  | true => exact if_pos rfl
  | false =>
    have hgoing : going (snapshotOf cacheState active) 0 (readVersions head older) = [] := by simpa using hidle
    obtain ⟨records, hlist, hall⟩ := h.listStaying_spec hdeleted
    obtain ⟨-, hgoing'⟩ := forall₂_split (f := snapshotOf cacheState active)
      (g := fun r : StayingRecord => snapshotForVersion cacheState active r.transaction)
      (fun v r hr => by rw [snapshotOf, hr.transaction]) hall 0
    rw [hgoing, forall₂_nil_left_iff] at hgoing'
    have hactive : (head.slot false false older).gcActive = false := rfl
    dsimp only
    rw [hactive, if_neg Bool.false_ne_true, hlist]
    dsimp only
    rw [if_pos hgoing', ite_self]

/-- The versions that intermediate garbage collection leaves behind are the kept ones, exactly if it
    reads those whole. -/
theorem Stored.versions_after_gc_iff (h : Stored formats pages primary gcActive head older)
    (hdeleted : ∀ v ∈ older, v.deleted = false) :
    (∃ pages', vioIntermediateGc formats cacheState active pages primary = .ok pages' ∧
        versions formats pages' primary =
          .ok (versionsAfterGc cacheState active gcActive ((head :: older).map (·.toVersion)))) ↔
      ReadsWhole cacheState active gcActive head older := by
  unfold ReadsWhole versionsAfterGc
  by_cases hidle : gcActive = true ∨ going (snapshotOf cacheState active) 0 (readVersions head older) = []
  · have hkept : (if gcActive then (head :: older).map (·.toVersion)
        else keptVersions cacheState active ((head :: older).map (·.toVersion))) =
          (head :: older).map (·.toVersion) := by
      rcases hidle with hactive | hgoing
      · rw [if_pos hactive]
      · rw [keptVersions_eq, staying_eq_of_going hgoing, readVersions]
        cases head.deleted <;> simp [map_withCounts]
    rw [hkept]
    exact iff_of_true ⟨pages, h.vioIntermediateGc_idle hdeleted hidle, h.versions_eq⟩ (or_assoc.mp (.inl hidle))
  · rw [not_or] at hidle
    obtain ⟨hactive, hgoing⟩ := hidle
    obtain rfl : gcActive = false := by simpa using hactive
    obtain ⟨records, pages', chain, hreadAs, hgc, hstored, hversions, -⟩ := h.vioIntermediateGc_spec hdeleted hgoing
    have hread : ∀ p ∈ staying (snapshotOf cacheState active) 0 (readVersions head older), p.1.deleted = false := by
      intro p hp
      have hmem := (staying_sublist ..).mem hp
      unfold readVersions at hmem
      split at hmem
      · exact hdeleted _ (mem_of_mem_withCounts hmem)
      · rename_i hd
        rcases mem_cons.mp (mem_of_mem_withCounts hmem) with he | he
        · simpa [he] using hd
        · exact hdeleted _ he
    have hcopied := map_version_eq_iff hreadAs hread
    simp only [Bool.false_eq_true, if_false, false_or, hgoing, keptVersions_eq]
    rw [← hcopied]
    constructor
    · rintro ⟨pages'', hgc', hafter⟩
      cases hgc.symm.trans hgc'
      rw [hstored.versions_eq, hversions] at hafter
      exact append_cancel_left (Except.ok.inj hafter)
    · intro hwhole
      exact ⟨pages', hgc, by rw [hstored.versions_eq, hversions, hwhole]⟩

theorem keepsReads_versionsAfterGc {live : CommitNumber → Prop}
    (hlive : ∀ s, live s → s < active.lastCommit → s ∈ active.snapshots) (gcActive : Bool) (all : List Version) :
    KeepsReads cacheState live all (versionsAfterGc cacheState active gcActive all) := by
  unfold versionsAfterGc
  split
  · exact .refl live all
  · exact keepsReads_keptVersions hlive all

/-- Intermediate garbage collection keeps what every live snapshot reads and the versions of unfinished
    transactions, each as it was written, exactly if it reads the versions that stay whole. -/
theorem vioIntermediateGc_keeps_iff {live : CommitNumber → Prop} (h : Stored formats pages primary gcActive head older)
    (hdeleted : ∀ v ∈ older, v.deleted = false)
    (hlive : ∀ s, live s → s < active.lastCommit → s ∈ active.snapshots) :
    KeepsReads cacheState live ((head :: older).map (·.toVersion))
        (versionsAfterGc cacheState active gcActive ((head :: older).map (·.toVersion))) ∧
      ((∃ pages', vioIntermediateGc formats cacheState active pages primary = .ok pages' ∧
          versions formats pages' primary =
            .ok (versionsAfterGc cacheState active gcActive ((head :: older).map (·.toVersion)))) ↔
        ReadsWhole cacheState active gcActive head older) :=
  ⟨keepsReads_versionsAfterGc hlive gcActive _, h.versions_after_gc_iff hdeleted⟩

/-- Records of format 1 have 6 bytes; the last column, of 2 bytes, was dropped in format 2. -/
def droppedColumnFormats : Formats := fun format => if format = 1 then 6 else 4

def droppedColumnHead : StoredVersion where
  transaction := 4
  format := 2
  deleted := false
  data := [1, 2, 3, 4]
  address := 0
  difference := none

def droppedColumnOlder : List StoredVersion :=
  [{ transaction := 3, format := 1, deleted := false, data := [1, 2, 3, 4, 5, 6], address := 1,
     difference := some [252, 2, 5, 6] },
   { transaction := 2, format := 1, deleted := false, data := [9, 2, 3, 4, 5, 6], address := 2,
     difference := some [1, 9, 251] },
   { transaction := 1, format := 1, deleted := false, data := [8, 2, 3, 4, 5, 6], address := 3,
     difference := some [1, 8, 251] }]

def droppedColumnPages : Pages :=
  some (droppedColumnHead.slot false false droppedColumnOlder) ::
    droppedColumnOlder.tails.filterMap fun
      | v :: older => some (some (v.slot true false older))
      | [] => none

theorem droppedColumn_stored :
    Stored droppedColumnFormats droppedColumnPages 0 false droppedColumnHead droppedColumnOlder where
  atPrimary := rfl
  slot := by decide
  back := ⟨by decide, by decide, by decide, trivial⟩
  distinct := by decide
  decodable := by
    refine ⟨rfl, nofun, rfl, ?_, rfl, ?_, rfl, ?_, trivial⟩ <;> intro d hd <;> cases hd <;>
      exact ⟨_, rfl, rfl, isDifference_make (by decide +kernel)⟩

def droppedColumnStates : TraNumber → CommitNumber := fun n => n * 10

def droppedColumnSnapshots : ActiveSnapshots where
  snapshots := {20, 30}
  lastCommit := 40
  releaseCount := 0
  slotsUsed := 2

theorem vioIntermediateGc_keeps_iff_droppedColumn :
    KeepsReads droppedColumnStates (· ∈ droppedColumnSnapshots.snapshots)
        ((droppedColumnHead :: droppedColumnOlder).map (·.toVersion))
        (versionsAfterGc droppedColumnStates droppedColumnSnapshots false
          ((droppedColumnHead :: droppedColumnOlder).map (·.toVersion))) ∧
      ((∃ pages', vioIntermediateGc droppedColumnFormats droppedColumnStates droppedColumnSnapshots droppedColumnPages
        0 =
            .ok pages' ∧
          versions droppedColumnFormats pages' 0 =
            .ok (versionsAfterGc droppedColumnStates droppedColumnSnapshots false
              ((droppedColumnHead :: droppedColumnOlder).map (·.toVersion)))) ↔
        ReadsWhole droppedColumnStates droppedColumnSnapshots false droppedColumnHead droppedColumnOlder) :=
  vioIntermediateGc_keeps_iff droppedColumn_stored (by decide) fun _ hs _ => hs

/-- Snapshot 20 reads zeros for the dropped column of the version it read before. -/
theorem vioIntermediateGc_clears_dropped_column :
    Stored droppedColumnFormats droppedColumnPages 0 false droppedColumnHead droppedColumnOlder ∧
      ¬∃ pages' kept,
        vioIntermediateGc droppedColumnFormats droppedColumnStates droppedColumnSnapshots droppedColumnPages 0 =
        .ok pages' ∧ versions droppedColumnFormats pages' 0 = .ok kept ∧
        KeepsReads droppedColumnStates (· ∈ droppedColumnSnapshots.snapshots)
          ((droppedColumnHead :: droppedColumnOlder).map (·.toVersion)) kept := by
  refine ⟨droppedColumn_stored, ?_⟩
  rintro ⟨pages', kept, hgc, hversions, hkeeps⟩
  have hread : ((vioIntermediateGc droppedColumnFormats droppedColumnStates droppedColumnSnapshots droppedColumnPages
      0).toOption.bind fun pages' => (versions droppedColumnFormats pages' 0).toOption.bind
        (versionAt droppedColumnStates 20)) =
      some { transaction := 2, format := 1, deleted := false, data := [9, 2, 3, 4, 0, 0] } := by
    decide +kernel
  rw [hgc, Except.toOption, Option.bind_some, hversions, Except.toOption, Option.bind_some,
    hkeeps.snapshots 20 (by decide)] at hread
  revert hread
  decide

end Firebird.Vio
