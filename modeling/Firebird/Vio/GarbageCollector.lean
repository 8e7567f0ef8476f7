import Mathlib

/-! # The garbage collector's notebook

Attachments notify the pages on which they leave record versions behind; the garbage collector thread takes them,
relation by relation, once the oldest snapshot has passed the transaction that was notified. -/

namespace Firebird.Vio

open List

def maxTraNumber : Nat := 0x0000FFFFFFFFFFFF

/-- The pages noted for a relation, each with the smallest transaction notified. -/
abbrev RelationData := Std.TreeMap Nat Nat

namespace RelationData

def findPage (d : RelationData) (pageno tranid : Nat) : Nat × RelationData :=
  match d[pageno]? with
  | none => (maxTraNumber, d)
  | some current =>
    if current > tranid then (tranid, d.insert pageno tranid) else (current, d)

def addPage (d : RelationData) (pageno tranid : Nat) : Nat × RelationData :=
  let (findTran, d) := d.findPage pageno tranid
  if findTran ≠ maxTraNumber then (findTran, d) else (tranid, d.insertIfNew pageno tranid)

def swept (d : RelationData) (oldestSnapshot : Nat) : List Nat × RelationData :=
  ((d.filter fun _ tranid => tranid < oldestSnapshot).keys, d.filter fun _ tranid => oldestSnapshot ≤ tranid)

def lowered (noted : Option Nat) (tranid : Nat) : Nat :=
  noted.elim tranid (min tranid)

section
variable (d : RelationData)

theorem getElem?_findPage (pageno tranid p : Nat) :
    (d.findPage pageno tranid).2[p]? =
      if p = pageno then d[pageno]?.map (min tranid) else d[p]? := by
  unfold findPage
  cases h : d[pageno]? with
  | none => grind
  | some current =>
    by_cases hlt : current > tranid
    · simp only [hlt, ite_true, Std.TreeMap.getElem?_insert]
      grind
    · simp only [hlt, ite_false]
      grind

theorem findPage_fst (pageno tranid : Nat) :
    (d.findPage pageno tranid).1 = (d[pageno]?.map (min tranid)).getD maxTraNumber := by
  unfold findPage
  cases h : d[pageno]? with
  | none => rfl
  | some current =>
    by_cases hlt : current > tranid
    · simp [hlt, Nat.le_of_lt hlt]
    · simp [hlt, Nat.not_lt.mp hlt]

theorem getElem?_addPage (pageno tranid p : Nat) :
    (d.addPage pageno tranid).2[p]? =
      if p = pageno then some (lowered d[pageno]? tranid) else d[p]? := by
  have hg := getElem?_findPage d pageno tranid
  have hf := findPage_fst d pageno tranid
  unfold addPage lowered
  cases h : d[pageno]? with
  | none | some current => grind

theorem getElem?_swept (oldestSnapshot p : Nat) :
    (d.swept oldestSnapshot).2[p]? = d[p]?.filter (oldestSnapshot ≤ ·) := by
  simp [swept]

end

theorem mem_swept {d : RelationData} {oldestSnapshot p : Nat} :
    p ∈ (d.swept oldestSnapshot).1 ↔ ∃ tranid, d[p]? = some tranid ∧ tranid < oldestSnapshot := by
  rw [swept, Std.TreeMap.mem_keys, Std.TreeMap.mem_iff_isSome_getElem?, Std.TreeMap.getElem?_filter',
    Option.isSome_iff_exists]
  simp

end RelationData

structure GarbageCollector where
  relations : Std.TreeMap UInt16 RelationData := {}
  nextRelId : UInt16 := 0

inductive GarbageCollector.Call
  | addPage (relId : UInt16) (pageno tranid : Nat)
  | getPages (oldestSnapshot : Nat)
  | removeRelation (relId : UInt16)
  | sweptRelation (oldestSnapshot : Nat) (relId : UInt16)
deriving DecidableEq

namespace GarbageCollector

def getRelData (g : GarbageCollector) (relId : UInt16) : RelationData :=
  g.relations.getD relId {}

def addPage (g : GarbageCollector) (relId : UInt16) (pageno tranid : Nat) : Nat × GarbageCollector :=
  let (minTraId, relData) := (g.getRelData relId).findPage pageno tranid
  if minTraId ≠ maxTraNumber then
    (minTraId, { g with relations := g.relations.insert relId relData })
  else
    let (minTraId, relData) := relData.addPage pageno tranid
    (minTraId, { g with relations := g.relations.insert relId relData })

/-- The relations in the order of the search: from the remembered id on, or all of them where none is left there. -/
def searched (g : GarbageCollector) : List (UInt16 × RelationData) :=
  match g.relations.toList.dropWhile (·.1 < g.nextRelId) with
  | [] => g.relations.toList
  | rel :: rels => rel :: rels

def getPages (g : GarbageCollector) (oldestSnapshot : Nat) : Option (UInt16 × List Nat) × GarbageCollector :=
  match g.searched.find? fun rel => (rel.2.swept oldestSnapshot).1 ≠ [] with
  | none => (none, { g with nextRelId := 0 })
  | some (relId, relData) =>
    let (bm, relData) := relData.swept oldestSnapshot
    (some (relId, bm), { relations := g.relations.insert relId relData, nextRelId := relId + 1 })

def removeRelation (g : GarbageCollector) (relId : UInt16) : GarbageCollector :=
  { g with relations := g.relations.erase relId }

def sweptRelation (g : GarbageCollector) (oldestSnapshot : Nat) (relId : UInt16) : GarbageCollector :=
  { g with relations := g.relations.modify relId fun relData => (relData.swept oldestSnapshot).2 }

def call (g : GarbageCollector) : Call → GarbageCollector
  | .addPage relId pageno tranid => (g.addPage relId pageno tranid).2
  | .getPages oldestSnapshot => (g.getPages oldestSnapshot).2
  | .removeRelation relId => g.removeRelation relId
  | .sweptRelation oldestSnapshot relId => g.sweptRelation oldestSnapshot relId

def taken (g : GarbageCollector) : Call → Option (UInt16 × List Nat)
  | .getPages oldestSnapshot => (g.getPages oldestSnapshot).1
  | _ => none

def calls (g : GarbageCollector) (cs : List Call) : GarbageCollector :=
  cs.foldl call g

def recorded (g : GarbageCollector) (relId : UInt16) (pageno : Nat) : Option Nat :=
  (g.getRelData relId)[pageno]?

def Due (g : GarbageCollector) (oldestSnapshot : Nat) (relId : UInt16) : Prop :=
  ∃ pageno tranid, g.recorded relId pageno = some tranid ∧ tranid < oldestSnapshot

section
variable (g : GarbageCollector)

theorem recorded_insert (relId next : UInt16) (relData : RelationData) (r : UInt16) (p : Nat) :
    GarbageCollector.recorded { relations := g.relations.insert relId relData, nextRelId := next } r p =
      if r = relId then relData[p]? else g.recorded r p := by
  simp only [recorded, getRelData, Std.TreeMap.getD_insert, Std.LawfulEqCmp.compare_eq_iff_eq]
  by_cases h : relId = r
  · simp [h]
  · simp [h, Ne.symm h]

theorem recorded_addPage (relId r : UInt16) (pageno tranid p : Nat) :
    (g.addPage relId pageno tranid).2.recorded r p =
      if r = relId ∧ p = pageno then some (RelationData.lowered (g.recorded relId pageno) tranid) else g.recorded
        r p := by
  have hf := RelationData.getElem?_findPage (g.getRelData relId) pageno tranid
  have hm := RelationData.findPage_fst (g.getRelData relId) pageno tranid
  simp only [addPage]
  by_cases hne : ((g.getRelData relId).findPage pageno tranid).1 ≠ maxTraNumber
  · rw [if_pos hne]
    simp only [recorded_insert, hf]
    cases h : (g.getRelData relId)[pageno]? with
    | none => simp [h, hm] at hne
    | some current =>
      simp only [RelationData.lowered, recorded, h, Option.map_some, Option.elim_some]
      grind
  · rw [if_neg hne]
    simp only [recorded_insert, RelationData.getElem?_addPage, hf]
    cases h : (g.getRelData relId)[pageno]? with
    | none =>
      simp only [RelationData.lowered, recorded, h, Option.map_none, Option.elim_none]
      grind
    | some current =>
      simp only [RelationData.lowered, recorded, h, Option.map_some, Option.elim_some]
      grind

theorem recorded_removeRelation (relId r : UInt16) (p : Nat) :
    (g.removeRelation relId).recorded r p = if r = relId then none else g.recorded r p := by
  simp only [recorded, getRelData, removeRelation, Std.TreeMap.getD_erase, Std.LawfulEqCmp.compare_eq_iff_eq]
  by_cases h : relId = r
  · simp [h]
  · simp [h, Ne.symm h]

theorem recorded_sweptRelation (oldestSnapshot : Nat) (relId r : UInt16) (p : Nat) :
    (g.sweptRelation oldestSnapshot relId).recorded r p =
      if r = relId then (g.recorded r p).filter (oldestSnapshot ≤ ·) else g.recorded r p := by
  simp only [recorded, getRelData, sweptRelation, Std.TreeMap.getD_eq_getD_getElem?, Std.TreeMap.getElem?_modify,
    Std.LawfulEqCmp.compare_eq_iff_eq]
  by_cases h : relId = r
  · subst h
    cases hr : g.relations[relId]? with
    | none => simp
    | some relData => simp [RelationData.getElem?_swept]
  · simp [h, Ne.symm h]

end

variable {g : GarbageCollector}

theorem mem_searched {rel : UInt16 × RelationData} (h : rel ∈ g.searched) : g.getRelData rel.1 = rel.2 := by
  have hl : rel ∈ g.relations.toList := by
    unfold searched at h
    split at h
    · exact h
    · rename_i rels hd
      exact (dropWhile_sublist _).subset (hd ▸ h)
  rw [getRelData, Std.TreeMap.getD_eq_getD_getElem?, Std.TreeMap.mem_toList_iff_getElem?_eq_some.mp
    hl, Option.getD_some]

theorem searched_ordered (g : GarbageCollector) : g.searched.Pairwise (·.1 < ·.1) := by
  have hl : g.relations.toList.Pairwise (·.1 < ·.1) := by
    have := Std.TreeMap.ordered_keys_toList (t := g.relations)
    simpa only [Std.compare_eq_lt] using this
  unfold searched
  split
  · exact hl
  · rename_i hd
    exact hd ▸ hl.sublist (dropWhile_sublist _)

variable {r : UInt16}

theorem searched_of_le {relData : RelationData}
    (h : g.relations[r]? = some relData) (hr : g.nextRelId ≤ r) : (r, relData) ∈ g.searched := by
  have hl := Std.TreeMap.mem_toList_iff_getElem?_eq_some.mpr h
  have hmem : (r, relData) ∈ g.relations.toList.dropWhile (·.1 < g.nextRelId) := by
    rw [← takeWhile_append_dropWhile (p := fun rel => decide (rel.1 < g.nextRelId)) (l := g.relations.toList)] at hl
    rcases mem_append.mp hl with ht | hd
    · have := mem_takeWhile_imp ht
      grind
    · exact hd
  unfold searched
  split
  · rename_i hnil
    rw [hnil] at hmem
    cases hmem
  · rename_i hd
    exact hd ▸ hmem

section
variable {g : GarbageCollector} {oldestSnapshot : Nat}

theorem due_iff : g.Due oldestSnapshot r ↔ ((g.getRelData r).swept oldestSnapshot).1 ≠ [] := by
  simp only [ne_eq, eq_nil_iff_forall_not_mem, not_forall, not_not, RelationData.mem_swept, Due, recorded]

theorem getPages_none (h : (g.getPages oldestSnapshot).1 = none) :
    (g.getPages oldestSnapshot).2 = { g with nextRelId := 0 } ∧ ∀ rel ∈ g.searched, ¬ g.Due oldestSnapshot rel.1 := by
  unfold getPages at h ⊢
  split at h
  · rename_i hf
    refine ⟨rfl, fun rel hrel => ?_⟩
    rw [due_iff, mem_searched hrel]
    simpa using find?_eq_none.mp hf rel hrel
  · cases h

theorem getPages_some {bm : List Nat} (h : (g.getPages oldestSnapshot).1 = some (r, bm)) :
    bm = ((g.getRelData r).swept oldestSnapshot).1 ∧
      (g.getPages oldestSnapshot).2 =
        { relations := g.relations.insert r ((g.getRelData r).swept oldestSnapshot).2, nextRelId := r + 1 } ∧
      (∃ relData, (r, relData) ∈ g.searched) ∧ g.Due oldestSnapshot r ∧
      ∀ rel ∈ g.searched, rel.1 < r → ¬ g.Due oldestSnapshot rel.1 := by
  unfold getPages at h ⊢
  split at h
  · cases h
  · rename_i relId relData hf
    obtain ⟨hfound, before, after, hs, hb⟩ := find?_eq_some_iff_append.mp hf
    simp only [Option.some.injEq, Prod.mk.injEq] at h
    obtain ⟨rfl, rfl⟩ := h
    have hmem : (relId, relData) ∈ g.searched := by simp [hs]
    have hd : g.getRelData relId = relData := mem_searched hmem
    refine ⟨by rw [hd], by rw [hd], ⟨relData, hmem⟩, ?_, fun rel hrel hlt => ?_⟩
    · rw [due_iff, hd]
      simpa using hfound
    -- what comes after the relation found has a greater id
    have hord := g.searched_ordered
    rw [hs, pairwise_append] at hord
    have hin : rel ∈ before := by
      rcases mem_append.mp (hs ▸ hrel) with hin | hin
      · exact hin
      · rcases mem_cons.mp hin with rfl | hin
        · exact absurd hlt (UInt16.lt_irrefl _)
        · exact absurd hlt (UInt16.lt_asymm (rel_of_pairwise_cons hord.2.1 hin))
    rw [due_iff, mem_searched hrel]
    simpa using hb rel hin

end

theorem searched_cases (g : GarbageCollector) :
    (∀ rel ∈ g.searched, g.nextRelId ≤ rel.1) ∨
      g.searched = g.relations.toList ∧ ∀ rel ∈ g.searched, rel.1 < g.nextRelId := by
  unfold searched
  split
  · rename_i hnil
    exact .inr ⟨rfl, by simpa using dropWhile_eq_nil_iff.mp hnil⟩
  · rename_i first rels hd
    refine .inl fun rel hrel => ?_
    have hfirst : g.nextRelId ≤ first.1 := by
      have := head?_dropWhile_not (fun rel : UInt16 × RelationData => decide (rel.1 < g.nextRelId)) g.relations.toList
      rw [hd] at this
      simpa using this
    have hord := g.searched_ordered
    rw [searched, hd] at hord
    rcases mem_cons.mp hrel with rfl | hrel
    · exact hfirst
    · exact UInt16.le_trans hfirst (UInt16.le_of_lt (rel_of_pairwise_cons hord hrel))

/-- The smallest transaction notified for each page since it was last taken. -/
abbrev Ledger := UInt16 → Nat → Option Nat

def Ledger.after (m : Ledger) (c : Call) (given : Option (UInt16 × List Nat)) : Ledger := fun r p =>
  match c, given with
  | .addPage relId pageno tranid, _ =>
    if r = relId ∧ p = pageno then some (RelationData.lowered (m relId pageno) tranid) else m r p
  | .getPages _, some (relId, bm) => if r = relId ∧ p ∈ bm then none else m r p
  | .getPages _, none => m r p
  | .removeRelation relId, _ => if r = relId then none else m r p
  | .sweptRelation oldestSnapshot relId, _ =>
    if r = relId then (m r p).filter (oldestSnapshot ≤ ·) else m r p

def notified (g : GarbageCollector) (m : Ledger) : List Call → Ledger
  | [] => m
  | c :: cs => notified (g.call c) (m.after c (g.taken c)) cs

theorem recorded_call (g : GarbageCollector) (c : Call) :
    (g.call c).recorded = Ledger.after g.recorded c (g.taken c) := by
  funext r p
  cases c with
  | addPage relId pageno tranid => exact g.recorded_addPage relId r pageno tranid p
  | removeRelation relId => exact g.recorded_removeRelation relId r p
  | sweptRelation oldestSnapshot relId => exact g.recorded_sweptRelation oldestSnapshot relId r p
  | getPages oldestSnapshot =>
    simp only [call, taken, Ledger.after]
    cases h : (g.getPages oldestSnapshot).1 with
    | none =>
      rw [(getPages_none h).1]
      rfl
    | some given =>
      obtain ⟨relId, bm⟩ := given
      obtain ⟨rfl, hg, -⟩ := getPages_some h
      rw [hg, recorded_insert, RelationData.getElem?_swept]
      by_cases hr : r = relId
      · subst hr
        simp only [RelationData.mem_swept, true_and, ite_true, recorded]
        cases hp : (g.getRelData r)[p]? with
        | none => simp
        | some tranid =>
          by_cases hlt : tranid < oldestSnapshot
          · simp [hlt]
          · simp [hlt, Nat.not_lt.mp hlt]
      · simp [hr]

theorem recorded_calls (g : GarbageCollector) (cs : List Call) : (g.calls cs).recorded = g.notified g.recorded cs := by
  induction cs generalizing g with
  | nil => rfl
  | cons c cs ih =>
    rw [notified, ← recorded_call]
    exact ih (g.call c)

/-! ### Turns -/

def Ahead (g : GarbageCollector) (oldestSnapshot : Nat) : Prop :=
  (∃ r, g.Due oldestSnapshot r) → ∃ rel ∈ g.searched, g.Due oldestSnapshot rel.1

/-- How far a relation is from the remembered id, around the ids. -/
def turn (g : GarbageCollector) (r : UInt16) : Nat :=
  (r - g.nextRelId).toNat

section
variable {g : GarbageCollector} {oldestSnapshot : Nat}

theorem exists_of_due (h : g.Due oldestSnapshot r) : ∃ relData, g.relations[r]? = some relData := by
  obtain ⟨p, tranid, hrec, -⟩ := h
  cases hr : g.relations[r]? with
  | none => simp [recorded, getRelData, Std.TreeMap.getD_eq_getD_getElem?, hr] at hrec
  | some relData => exact ⟨relData, rfl⟩

theorem getPages_ne_none (ha : g.Ahead oldestSnapshot)
    (hn : (g.getPages oldestSnapshot).1 = none) (r : UInt16) : ¬ g.Due oldestSnapshot r := fun hd => by
  obtain ⟨rel, hrel, hdue⟩ := ha ⟨r, hd⟩
  exact (getPages_none hn).2 rel hrel hdue

theorem turn_getPages {r relId : UInt16} {bm : List Nat}
    (hd : g.Due oldestSnapshot r) (h : (g.getPages oldestSnapshot).1 = some (relId, bm)) (hne : relId ≠ r) :
    (g.getPages oldestSnapshot).2.turn r < g.turn r := by
  obtain ⟨-, hg, ⟨relData, hmem⟩, -, hfirst⟩ := getPages_some h
  obtain ⟨rData, hr⟩ := exists_of_due hd
  have hbefore : (r, rData) ∈ g.searched → relId.toNat < r.toNat := by
    intro hin
    have hle : relId ≤ r := UInt16.not_lt.mp fun hlt => hfirst _ hin hlt hd
    exact UInt16.lt_iff_toNat_lt.mp (UInt16.lt_of_le_of_ne hle hne)
  have h1 := relId.toNat_lt
  have h2 := r.toNat_lt
  have h3 := g.nextRelId.toNat_lt
  simp only [turn, hg, UInt16.toNat_sub, UInt16.toNat_add, UInt16.toNat_one]
  rcases g.searched_cases with hge | ⟨hall, hlt⟩
  · have hle : g.nextRelId.toNat ≤ relId.toNat := UInt16.le_iff_toNat_le.mp (hge _ hmem)
    by_cases hrn : g.nextRelId ≤ r
    · have hrl := hbefore (searched_of_le hr hrn)
      omega
    · -- the search goes up to the last id before it comes to the relation
      rw [UInt16.le_iff_toNat_le] at hrn
      omega
  · have hin : (r, rData) ∈ g.searched := hall ▸ Std.TreeMap.mem_toList_iff_getElem?_eq_some.mpr hr
    have hrl := hbefore hin
    have hrn : r.toNat < g.nextRelId.toNat := UInt16.lt_iff_toNat_lt.mp (hlt _ hin)
    omega

end

def Call.Leaves (oldestSnapshot : Nat) (r : UInt16) : Call → Prop
  | .addPage .. => True
  | .getPages oldest => oldest = oldestSnapshot
  | .removeRelation relId => relId ≠ r
  | .sweptRelation _ relId => relId ≠ r

theorem call_leaves {c : Call} {oldestSnapshot tranid p : Nat}
    (hrec : g.recorded r p = some tranid) (ht : tranid < oldestSnapshot) (hl : c.Leaves oldestSnapshot r)
    (ha : c = .getPages oldestSnapshot → g.Ahead oldestSnapshot)
    (hkept : ∀ bm, g.taken c = some (r, bm) → p ∉ bm) :
    (∃ tranid' < oldestSnapshot, (g.call c).recorded r p = some tranid') ∧
      (g.call c).turn r + [c].count (.getPages oldestSnapshot) ≤ g.turn r := by
  cases c with
  | addPage relId pageno notified =>
    have hn : (g.addPage relId pageno notified).2.nextRelId = g.nextRelId := by
      simp only [addPage]
      split <;> rfl
    refine ⟨?_, by simp [call, turn, hn]⟩
    rw [recorded_call]
    simp only [Ledger.after]
    by_cases hp : r = relId ∧ p = pageno
    · obtain ⟨rfl, rfl⟩ := hp
      exact ⟨min notified tranid, by omega, by simp [hrec, RelationData.lowered]⟩
    · exact ⟨tranid, ht, by rw [if_neg hp, hrec]⟩
  | removeRelation relId =>
    refine ⟨⟨tranid, ht, ?_⟩, by simp [call, turn, removeRelation]⟩
    rw [recorded_call]
    simp only [Ledger.after, if_neg (Ne.symm hl), hrec]
  | sweptRelation oldest relId =>
    refine ⟨⟨tranid, ht, ?_⟩, by simp [call, turn, sweptRelation]⟩
    rw [recorded_call]
    simp only [Ledger.after, if_neg (Ne.symm hl), hrec]
  | getPages oldest =>
    obtain rfl : oldest = oldestSnapshot := hl
    have hd : g.Due oldest r := ⟨p, tranid, hrec, ht⟩
    cases h : (g.getPages oldest).1 with
    | none => exact absurd hd (getPages_ne_none (ha rfl) h r)
    | some given =>
      obtain ⟨relId, bm⟩ := given
      have hne : relId ≠ r := by
        rintro rfl
        have hbm := (getPages_some h).1
        exact hkept bm h (hbm ▸ RelationData.mem_swept.mpr ⟨tranid, hrec, ht⟩)
      refine ⟨⟨tranid, ht, ?_⟩, ?_⟩
      · rw [recorded_call]
        simp only [taken, h, Ledger.after, Ne.symm hne, false_and, ite_false, hrec]
      · have := turn_getPages hd h hne
        simp only [call, count_singleton_self]
        omega

theorem calls_leave {cs : List Call} {oldestSnapshot tranid p : Nat}
    (hrec : g.recorded r p = some tranid) (ht : tranid < oldestSnapshot)
    (hl : ∀ c ∈ cs, Call.Leaves oldestSnapshot r c)
    (ha : ∀ us, us ++ [.getPages oldestSnapshot] <+: cs → (g.calls us).Ahead oldestSnapshot)
    (hkept : ∀ us bm, us ++ [.getPages oldestSnapshot] <+: cs →
      ((g.calls us).getPages oldestSnapshot).1 = some (r, bm) → p ∉ bm) :
    (∃ tranid' < oldestSnapshot, (g.calls cs).recorded r p = some tranid') ∧
      (g.calls cs).turn r + cs.count (.getPages oldestSnapshot) ≤ g.turn r := by
  induction cs generalizing g tranid with
  | nil => exact ⟨⟨tranid, ht, hrec⟩, by simp [calls]⟩
  | cons c cs ih =>
    obtain ⟨⟨tranid', ht', hrec'⟩, hturn⟩ := call_leaves (c := c) hrec ht (hl c mem_cons_self)
      (by rintro rfl; exact ha [] (prefix_iff_eq_take.mpr rfl))
      (by
        intro bm hbm
        cases c with
        | getPages oldest =>
          obtain rfl : oldest = oldestSnapshot := hl _ mem_cons_self
          exact hkept [] bm (prefix_iff_eq_take.mpr rfl) hbm
        | addPage | removeRelation | sweptRelation => cases hbm)
    obtain ⟨hrest, hcount⟩ := ih hrec' ht' (fun c hc => hl c (mem_cons_of_mem _ hc))
      (fun us hus => ha (c :: us) (cons_prefix_cons.mpr ⟨rfl, hus⟩))
      (fun us bm hus => hkept (c :: us) bm (cons_prefix_cons.mpr ⟨rfl, hus⟩))
    refine ⟨hrest, ?_⟩
    rw [count_cons, ← count_singleton, Nat.add_comm (cs.count _)]
    have : (g.calls (c :: cs)).turn r = ((g.call c).calls cs).turn r := rfl
    omega

structure NoneLost (cs : List Call) : Prop where
  recorded : ∀ xs, xs <+: cs → (calls {} xs).recorded = notified {} (fun _ _ => none) xs
  /-- only pages below the oldest snapshot are given out -/
  below : ∀ xs oldestSnapshot r bm, xs ++ [.getPages oldestSnapshot] <+: cs →
    ((calls {} xs).getPages oldestSnapshot).1 = some (r, bm) →
    ∀ p ∈ bm, ∃ tranid, (calls {} xs).recorded r p = some tranid ∧ tranid < oldestSnapshot
  /-- nothing is given out only when nothing is due -/
  emptied : ∀ xs oldestSnapshot, xs ++ [.getPages oldestSnapshot] <+: cs →
    ((calls {} xs).getPages oldestSnapshot).1 = none → ∀ r, ¬ (calls {} xs).Due oldestSnapshot r
  /-- a page that is due is given out before the calls come to an end or after one call for each id -/
  served : ∀ xs mid oldestSnapshot r p tranid, xs ++ mid <+: cs →
    (calls {} xs).recorded r p = some tranid → tranid < oldestSnapshot → (∀ c ∈ mid, Call.Leaves oldestSnapshot r c) →
    (65536 ≤ mid.count (.getPages oldestSnapshot) ∨
      ∃ us, us ++ [.getPages oldestSnapshot] <+: mid ∧ ((calls {} (xs ++ us)).getPages oldestSnapshot).1 = none) →
    ∃ us bm, us ++ [.getPages oldestSnapshot] <+: mid ∧
      ((calls {} (xs ++ us)).getPages oldestSnapshot).1 = some (r, bm) ∧ p ∈ bm

theorem noneLost_of_ahead {cs : List Call}
    (h : ∀ xs oldestSnapshot, xs ++ [.getPages oldestSnapshot] <+: cs → (calls {} xs).Ahead oldestSnapshot) :
    NoneLost cs where
  recorded xs _ := by
    rw [recorded_calls]
    congr 1
  below xs oldestSnapshot r bm _ hbm p hp := by
    rw [(getPages_some hbm).1] at hp
    exact RelationData.mem_swept.mp hp
  emptied xs oldestSnapshot hxs hn := getPages_ne_none (h xs oldestSnapshot hxs) hn
  served xs mid oldestSnapshot r p tranid hxs hrec ht hl hend := by
    have hcalls : ∀ us, calls {} (xs ++ us) = (calls {} xs).calls us := fun us => foldl_append
    have hahead : ∀ us, us ++ [.getPages oldestSnapshot] <+: mid → ((calls {} xs).calls us).Ahead oldestSnapshot := by
      intro us hus
      rw [← hcalls]
      refine h _ _ (List.IsPrefix.trans ?_ hxs)
      rw [append_assoc]
      exact (prefix_append_right_inj xs).mpr hus
    by_contra hnot
    simp only [not_exists, not_and, hcalls] at hnot hend
    rcases hend with hmany | ⟨us, hus, hn⟩
    · obtain ⟨-, hcount⟩ := calls_leave hrec ht hl hahead hnot
      have : ((calls {} xs).turn r) < 65536 := UInt16.toNat_lt _
      omega
    · have hsub : us <+: mid := (prefix_append _ _).trans hus
      obtain ⟨⟨tranid', ht', hrec'⟩, -⟩ := calls_leave hrec ht (fun c hc => hl c (hsub.subset hc))
        (fun vs hvs => hahead vs (hvs.trans hsub)) (fun vs bm hvs => hnot vs bm (hvs.trans hsub))
      exact getPages_ne_none (hahead us hus) hn r ⟨p, tranid', hrec', ht'⟩

/-- No notification is lost in a run just when every search has something due ahead or nothing is due. -/
theorem noneLost_iff_ahead (cs : List Call) :
    NoneLost cs ↔
      ∀ xs oldestSnapshot, xs ++ [.getPages oldestSnapshot] <+: cs → (calls {} xs).Ahead oldestSnapshot := by
  refine ⟨fun hk xs oldestSnapshot hxs hdue => ?_, noneLost_of_ahead⟩
  obtain ⟨r, hr⟩ := hdue
  cases h : ((calls {} xs).getPages oldestSnapshot).1 with
  | none => exact absurd hr (hk.emptied xs oldestSnapshot hxs h r)
  | some given =>
    obtain ⟨-, -, ⟨relData, hmem⟩, hd, -⟩ := getPages_some h
    exact ⟨_, hmem, hd⟩

/-- The relation before the remembered id is notified after it was passed, and the relation behind is not due yet. -/
def passedOver : List Call := [.addPage 5 1 10, .addPage 7 1 30, .getPages 20, .addPage 3 1 10]

theorem passedOver_lost : ¬ NoneLost (passedOver ++ [.getPages 20]) := fun h =>
  h.emptied passedOver 20 (prefix_refl _) (by decide +kernel) 3 ⟨1, 10, by decide +kernel, by decide⟩

end GarbageCollector

end Firebird.Vio
