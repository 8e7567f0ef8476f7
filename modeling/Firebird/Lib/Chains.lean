import Mathlib

/-! # Singly linked chains -/

namespace Firebird.Lib

open Function List

variable {α : Type*} {next next' : α → Option α} {start mid stop : Option α} {row row' A B : List α} {p q : α}

def Leads (next : α → Option α) : Option α → List α → Option α → Prop
  | start, [], stop => start = stop
  | start, p :: row, stop => start = some p ∧ Leads next (next p) row stop

theorem leads_cons : Leads next start (p :: row) stop ↔ start = some p ∧ Leads next (next p) row stop := Iff.rfl

theorem leads_append : Leads next start (A ++ B) stop ↔ ∃ mid, Leads next start A mid ∧ Leads next mid B stop := by
  induction A generalizing start with
  | nil => exact ⟨fun h => ⟨start, rfl, h⟩, by rintro ⟨mid, rfl, h⟩; exact h⟩
  | cons a A ih =>
    rw [cons_append, leads_cons, ih]
    constructor
    · rintro ⟨ha, mid, hA, hB⟩
      exact ⟨mid, ⟨ha, hA⟩, hB⟩
    · rintro ⟨mid, ⟨ha, hA⟩, hB⟩
      exact ⟨ha, mid, hA, hB⟩

theorem Leads.congr (h : Leads next start row stop) (hnext : ∀ p ∈ row, next' p = next p) :
    Leads next' start row stop := by
  induction row generalizing start with
  | nil => exact h
  | cons p row ih =>
    obtain ⟨hp, hrest⟩ := h
    refine ⟨hp, ?_⟩
    rw [hnext p (.head row)]
    exact ih hrest fun q hq => hnext q (.tail p hq)

theorem Leads.head (h : Leads next start row none) : start = row.head? := by
  cases row with
  | nil => exact h
  | cons p row => exact h.1

theorem Leads.unique (h : Leads next start row none) (h' : Leads next start row' none) : row = row' := by
  induction row generalizing start row' with
  | nil =>
    cases row' with
    | nil => rfl
    | cons q row' => cases h.symm.trans h'.1
  | cons p row ih =>
    cases row' with
    | nil => cases h.1.symm.trans h'
    | cons q row' =>
      cases Option.some.inj (h.1.symm.trans h'.1)
      rw [ih h.2 h'.2]

theorem Leads.behind (h : Leads next start (A ++ p :: B) none) : Leads next (some p) (p :: B) none := by
  obtain ⟨mid, -, hmid⟩ := leads_append.mp h
  obtain ⟨rfl, hB⟩ := hmid
  exact ⟨rfl, hB⟩

theorem Leads.nodup (h : Leads next start row none) : row.Nodup := by
  induction row generalizing start with
  | nil => exact nodup_nil
  | cons p row ih =>
    refine nodup_cons.mpr ⟨fun hp => ?_, ih h.2⟩
    obtain ⟨A, B, rfl⟩ := append_of_mem hp
    have hagain : p :: B = p :: (A ++ p :: B) := by
      have hlater : Leads next (some p) (p :: B) none := h.2.behind
      exact hlater.unique ⟨rfl, h.2⟩
    have hlength := congrArg length hagain
    simp only [length_cons, length_append] at hlength
    omega

/-- The elements passed from `start` to the end of the chain, if that is reached with the fuel. -/
def walk (next : α → Option α) : Nat → Option α → Option (List α)
  | _, none => some []
  | 0, some _ => none
  | fuel + 1, some p => (walk next fuel (next p)).map (p :: ·)

theorem Leads.walk_eq (h : Leads next start row none) {fuel : Nat} (hfuel : row.length ≤ fuel) :
    walk next fuel start = some row := by
  induction row generalizing start fuel with
  | nil =>
    cases (h : start = none)
    cases fuel <;> rfl
  | cons p row ih =>
    obtain ⟨rfl, hrest⟩ := h
    obtain ⟨fuel, rfl⟩ := Nat.exists_eq_add_of_le' (Nat.one_le_of_lt hfuel)
    rw [walk, ih hrest (Nat.le_of_succ_le_succ hfuel)]
    rfl

variable [DecidableEq α] {C : List α}

theorem Leads.update_of_notMem (h : Leads next start row stop) (hp : p ∉ row) (target : Option α) :
    Leads (update next p target) start row stop := by
  refine h.congr fun q hq => update_of_ne ?_ _ _
  rintro rfl
  exact hp hq

theorem Leads.relink (h : Leads next start (A ++ p :: B) none) (hC : Leads next mid C none) (hp : p ∉ C) :
    Leads (update next p mid) start (A ++ p :: C) none := by
  have hnodup := h.nodup
  obtain ⟨at_p, hA, hstart, -⟩ := leads_append.mp h
  have hpA : p ∉ A := fun hmem => (nodup_append.mp hnodup).2.2 p hmem p (.head B) rfl
  refine leads_append.mpr ⟨at_p, hA.update_of_notMem hpA _, hstart, ?_⟩
  rw [update_self]
  exact hC.update_of_notMem hp _

theorem Leads.insert_behind (h : Leads next start (A ++ p :: B) none) (hq : q ∉ A ++ p :: B) :
    Leads (update (update next q (next p)) p (some q)) start (A ++ p :: q :: B) none := by
  rw [mem_append, mem_cons, not_or, not_or] at hq
  obtain ⟨hqA, hqp, hqB⟩ := hq
  have hpB : p ∉ B := (nodup_cons.mp h.behind.nodup).1
  have hq : q ∉ A ++ p :: B := by simp [hqA, hqp, hqB]
  refine (h.update_of_notMem hq _).relink ⟨rfl, ?_⟩ ?_
  · rw [update_self]
    exact h.behind.2.update_of_notMem hqB _
  · simp [Ne.symm hqp, hpB]

theorem Leads.unlink (h : Leads next start (A ++ p :: q :: B) none) :
    Leads (update next p (next q)) start (A ++ p :: B) none := by
  have hq : Leads next (next q) B none := h.behind.2.2
  have hpB : p ∉ q :: B := (nodup_cons.mp h.behind.nodup).1
  exact h.relink hq fun hp => hpB (.tail q hp)

end Firebird.Lib
