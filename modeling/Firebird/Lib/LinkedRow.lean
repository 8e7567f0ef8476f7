import Mathlib

/-! # Doubly linked rows -/

namespace Firebird.Lib

open Function List

variable {α : Type} {next prev next' prev' : α → Option α} {before behind : Option α} {row A B : List α} {m n p : α}

/-- The pages of the row point at each other in order, its ends at `before` and `behind`. -/
def Linked (next prev : α → Option α) : Option α → List α → Option α → Prop
  | _, [], _ => True
  | before, p :: row, behind =>
    prev p = before ∧ next p = row.head?.or behind ∧ Linked next prev (some p) row behind

theorem linked_cons : Linked next prev before (p :: row) behind ↔
    prev p = before ∧ next p = row.head?.or behind ∧ Linked next prev (some p) row behind := Iff.rfl

theorem linked_append : Linked next prev before (A ++ B) behind ↔
    Linked next prev before A (B.head?.or behind) ∧ Linked next prev (A.getLast?.or before) B behind := by
  induction A generalizing before with
  | nil => simp [Linked]
  | cons a A ih =>
    rw [cons_append, linked_cons, linked_cons, ih]
    cases A with
    | nil => simp [and_assoc]
    | cons b A =>
      have hlast : (b :: A).getLast? = some ((b :: A).getLast (cons_ne_nil b A)) :=
        getLast?_eq_some_getLast (cons_ne_nil b A)
      rw [getLast?_cons_cons, hlast]
      simp [and_assoc]

theorem Linked.congr (h : Linked next prev before row behind) (hnext : ∀ p ∈ row, next' p = next p)
    (hprev : ∀ p ∈ row, prev' p = prev p) : Linked next' prev' before row behind := by
  induction row generalizing before with
  | nil => exact trivial
  | cons p row ih =>
    obtain ⟨hp, hn, hrest⟩ := h
    refine ⟨?_, ?_, ih hrest (fun q hq => hnext q (.tail p hq)) fun q hq => hprev q (.tail p hq)⟩
    · rw [hprev p (.head row), hp]
    · rw [hnext p (.head row), hn]

theorem Linked.next_eq (h : Linked next prev none (A ++ p :: B) none) : next p = B.head? := by
  have hp := (linked_append.mp h).2.2.1
  rwa [Option.or_none] at hp

theorem Linked.prev_eq (h : Linked next prev none (A ++ p :: B) none) : prev p = A.getLast? := by
  have hp := (linked_append.mp h).2.1
  rwa [Option.or_none] at hp

theorem Linked.singleton (hnext : next p = none) (hprev : prev p = none) : Linked next prev none [p] none :=
  ⟨hprev, hnext, trivial⟩

variable [DecidableEq α]

def nextBehind (next : α → Option α) (m n : α) : α → Option α :=
  update (update next n (next m)) m (some n)

def prevBehind (next prev : α → Option α) (m n : α) : α → Option α :=
  update ((next m).elim prev fun q => update prev q (some n)) n (some m)

theorem nextBehind_of_ne (hm : p ≠ m) (hn : p ≠ n) : nextBehind next m n p = next p := by
  rw [nextBehind, update_of_ne hm, update_of_ne hn]

theorem prevBehind_of_ne (hnext : next m ≠ some p) (hn : p ≠ n) : prevBehind next prev m n p = prev p := by
  rw [prevBehind, update_of_ne hn]
  cases hq : next m with
  | none => rfl
  | some q =>
    refine update_of_ne ?_ _ _
    rintro rfl
    exact hnext hq

theorem Linked.insert_behind (h : Linked next prev none (A ++ m :: B) none) (hnodup : (A ++ m :: B).Nodup)
    (hn : n ∉ A ++ m :: B) : Linked (nextBehind next m n) (prevBehind next prev m n) none (A ++ m :: n :: B) none := by
  have hnext : next m = B.head? := h.next_eq
  have hprev : prev m = A.getLast? := h.prev_eq
  obtain ⟨hA, hm⟩ := linked_append.mp h
  have hB := hm.2.2
  simp only [nodup_append, nodup_cons, mem_append, mem_cons, not_or] at hnodup hn
  obtain ⟨hnA, hnm, hnB⟩ := hn
  obtain ⟨-, ⟨hmB, hBnodup⟩, hAB⟩ := hnodup
  have hmA : m ∉ A := fun hmem => hAB m hmem m (.inl rfl) rfl
  refine linked_append.mpr ⟨hA.congr (fun p hp => ?_) (fun p hp => ?_), ?_, ?_, ?_, ?_, ?_⟩
  · exact nextBehind_of_ne (fun hpm => hmA (hpm ▸ hp)) fun hpn => hnA (hpn ▸ hp)
  · refine prevBehind_of_ne (fun hq => ?_) fun hpn => hnA (hpn ▸ hp)
    exact hAB p hp p (.inr (mem_of_mem_head? (hnext ▸ hq))) rfl
  · rw [prevBehind_of_ne (fun hq => hmB (mem_of_mem_head? (hnext ▸ hq))) (Ne.symm hnm), hprev, Option.or_none]
  · exact update_self _ _ _
  · exact update_self _ _ _
  · rw [nextBehind, update_of_ne hnm, update_self, hnext, Option.or_none]
  · cases B with
    | nil => exact trivial
    | cons b B =>
      obtain ⟨-, hbnext, hrest⟩ := hB
      rw [mem_cons, not_or] at hmB hnB
      have hbB : b ∉ B := (nodup_cons.mp hBnodup).1
      refine ⟨?_, ?_, hrest.congr (fun p hp => ?_) (fun p hp => ?_)⟩
      · rw [prevBehind, update_of_ne (Ne.symm hnB.1), hnext]
        exact update_self _ _ _
      · rw [nextBehind_of_ne (Ne.symm hmB.1) (Ne.symm hnB.1), hbnext]
      · exact nextBehind_of_ne (fun hpm => hmB.2 (hpm ▸ hp)) fun hpn => hnB.2 (hpn ▸ hp)
      · refine prevBehind_of_ne (fun hq => ?_) fun hpn => hnB.2 (hpn ▸ hp)
        rw [hnext] at hq
        exact hbB (Option.some.inj hq ▸ hp)

def nextWithout (next prev : α → Option α) (p : α) : α → Option α :=
  (prev p).elim next fun q => update next q (next p)

def prevWithout (next prev : α → Option α) (p : α) : α → Option α :=
  (next p).elim prev fun q => update prev q (prev p)

theorem nextWithout_of_ne (h : prev p ≠ some n) : nextWithout next prev p n = next n := by
  unfold nextWithout
  cases hq : prev p with
  | none => rfl
  | some q =>
    refine update_of_ne ?_ _ _
    rintro rfl
    exact h hq

theorem prevWithout_of_ne (h : next p ≠ some n) : prevWithout next prev p n = prev n := by
  unfold prevWithout
  cases hq : next p with
  | none => rfl
  | some q =>
    refine update_of_ne ?_ _ _
    rintro rfl
    exact h hq

theorem Linked.without (h : Linked next prev none (A ++ p :: B) none) (hnodup : (A ++ p :: B).Nodup) :
    Linked (nextWithout next prev p) (prevWithout next prev p) none (A ++ B) none := by
  have hnext : next p = B.head? := h.next_eq
  have hprev : prev p = A.getLast? := h.prev_eq
  obtain ⟨hA, -, -, hB⟩ := linked_append.mp h
  simp only [nodup_append, nodup_cons, mem_cons] at hnodup
  obtain ⟨hAnodup, ⟨hpB, hBnodup⟩, hAB⟩ := hnodup
  have hleft : ∀ q ∈ A, prevWithout next prev p q = prev q := fun q hq =>
    prevWithout_of_ne fun hpq => hAB q hq q (.inr (mem_of_mem_head? (hnext ▸ hpq))) rfl
  have hright : ∀ q ∈ B, nextWithout next prev p q = next q := fun q hq =>
    nextWithout_of_ne fun hpq => hAB q (mem_of_getLast? (hprev ▸ hpq)) q (.inr hq) rfl
  refine linked_append.mpr ⟨?_, ?_⟩
  · rcases eq_nil_or_concat A with rfl | ⟨A, a, rfl⟩
    · exact trivial
    · rw [concat_eq_append] at *
      rw [getLast?_concat] at hprev
      obtain ⟨hA, ha, -, -⟩ := linked_append.mp hA
      refine linked_append.mpr ⟨hA.congr (fun q hq => ?_) fun q hq => hleft q (mem_append_left _ hq), ?_, ?_, trivial⟩
      · refine nextWithout_of_ne fun hpq => ?_
        have haq : a = q := Option.some.inj (hprev.symm.trans hpq)
        exact (nodup_append.mp hAnodup).2.2 q hq a (.head []) haq.symm
      · rw [hleft a (mem_append_right _ (.head []))]
        exact ha
      · rw [nextWithout, hprev]
        simp [hnext]
  · cases B with
    | nil => exact trivial
    | cons b B =>
      obtain ⟨-, hbnext, hrest⟩ := hB
      have hbB : b ∉ B := (nodup_cons.mp hBnodup).1
      refine ⟨?_, ?_, hrest.congr (fun q hq => hright q (.tail b hq)) (fun q hq => ?_)⟩
      · rw [prevWithout, hnext]
        simp [hprev]
      · rw [hright b (.head B), hbnext]
      · refine prevWithout_of_ne fun hpq => ?_
        rw [hnext] at hpq
        exact hbB (Option.some.inj hpq ▸ hq)

end Firebird.Lib
