import Firebird.Lib.Languages

/-! # Borders of a word

A border of the first `k` letters of `x` is a shorter beginning of `x` with which they end. A text that ends with the
first `k` letters of `x`, and with no longer beginning of it, has no more to say about where `x` will be found next. -/

namespace Firebird.Lib
open List

variable {α : Type*} {x u w p v : List α} {c : α} {i j k : Nat} {P Q : Nat → Prop} {n : Int}

/-- The largest number with the property, or `-1` if there is none. -/
def Greatest (P : Nat → Prop) (n : Int) : Prop :=
  (∀ j, P j → (j : Int) ≤ n) ∧ (n = -1 ∨ ∃ j : Nat, n = j ∧ P j)

theorem Greatest.congr (h : Greatest P n) (hiff : ∀ j, Q j ↔ P j) : Greatest Q n := by
  obtain ⟨hmax, hfound⟩ := h
  refine ⟨fun j hj => hmax j ((hiff j).mp hj), ?_⟩
  rcases hfound with hnone | ⟨j, hj, hP⟩
  · exact Or.inl hnone
  · exact Or.inr ⟨j, hj, (hiff j).mpr hP⟩

theorem greatest_none (h : ∀ j, ¬P j) : Greatest P (-1) := ⟨fun j hj => absurd hj (h j), Or.inl rfl⟩

theorem Greatest.lower (h : Greatest P n) : -1 ≤ n := by
  rcases h.2 with rfl | ⟨j, rfl, _⟩
  · simp
  · omega

/-- The first `j` letters of `x` are a border of the first `k`. -/
def Border (x : List α) (j k : Nat) : Prop := j < k ∧ x.take j <:+ x.take k

theorem border_zero (h : 0 < k) : Border x 0 k := ⟨h, by simp⟩

theorem Border.trans (h : Border x i j) (h' : Border x j k) : Border x i k := ⟨h.1.trans h'.1, h.2.trans h'.2⟩

theorem Border.nested (h : Border x i k) (h' : Border x j k) (hlt : i < j) : Border x i j := by
  refine ⟨hlt, suffix_of_suffix_length_le h.2 h'.2 ?_⟩
  simp only [length_take]
  omega

theorem border_take {m : Nat} (hk : k ≤ m) : Border x j k ↔ Border (x.take m) j k := by
  refine and_congr_right fun hlt => ?_
  rw [take_take, take_take, Nat.min_eq_left hk, Nat.min_eq_left (hlt.le.trans hk)]

theorem take_succ_eq (h : x[k]? = some c) : x.take (k + 1) = x.take k ++ [c] := by
  rw [take_add_one, h, Option.toList_some]

theorem suffix_concat_iff (hc : x[j]? = some c) {d : α} : x.take (j + 1) <:+ u ++ [d] ↔ x.take j <:+ u ∧ c = d := by
  rw [take_succ_eq hc]
  constructor
  · rintro ⟨t, ht⟩
    rw [← append_assoc] at ht
    obtain ⟨hu, hcd⟩ := append_inj' ht rfl
    exact ⟨⟨t, hu⟩, by simpa using hcd⟩
  · rintro ⟨⟨t, rfl⟩, rfl⟩
    exact ⟨t, by simp⟩

/-- A border is made longer by one letter where both go on with the same one. -/
theorem border_succ (hk : k < x.length) : Border x (j + 1) (k + 1) ↔ Border x j k ∧ x[j]? = x[k]? := by
  have hd : x[k]? = some x[k] := getElem?_eq_getElem hk
  constructor
  · rintro ⟨hlt, hsuffix⟩
    have hj : x[j]? = some x[j] := getElem?_eq_getElem (by omega)
    rw [take_succ_eq hd, suffix_concat_iff hj] at hsuffix
    exact ⟨⟨Nat.lt_of_succ_lt_succ hlt, hsuffix.1⟩, by rw [hj, hd, hsuffix.2]⟩
  · rintro ⟨⟨hlt, hsuffix⟩, heq⟩
    refine ⟨Nat.succ_lt_succ hlt, ?_⟩
    rw [take_succ_eq hd, suffix_concat_iff (heq.trans hd)]
    exact ⟨hsuffix, rfl⟩

/-- The text `u` ends with the first `j` letters of `x`. -/
def EndsWith (x u : List α) (j : Nat) : Prop := j ≤ x.length ∧ x.take j <:+ u

theorem endsWith_take_iff (hk : k ≤ x.length) : EndsWith x (x.take k) j ↔ j = k ∨ Border x j k := by
  constructor
  · rintro ⟨hj, hsuffix⟩
    have hle : j ≤ k := by simpa [hj] using hsuffix.length_le
    rcases hle.lt_or_eq with hlt | heq
    · exact Or.inr ⟨hlt, hsuffix⟩
    · exact Or.inl heq
  · rintro (rfl | hborder)
    · exact ⟨hk, suffix_refl _⟩
    · exact ⟨hborder.1.le.trans hk, hborder.2⟩

theorem endsWith_concat : EndsWith x (u ++ [c]) (j + 1) ↔ EndsWith x u j ∧ x[j]? = some c := by
  constructor
  · rintro ⟨hj, hsuffix⟩
    have hd : x[j]? = some x[j] := getElem?_eq_getElem hj
    rw [suffix_concat_iff hd] at hsuffix
    exact ⟨⟨Nat.le_of_succ_le hj, hsuffix.1⟩, by rw [hd, hsuffix.2]⟩
  · rintro ⟨⟨_, hsuffix⟩, hc⟩
    exact ⟨(List.getElem?_eq_some_iff.mp hc).1, (suffix_concat_iff hc).mpr ⟨hsuffix, rfl⟩⟩

/-- A place where `x` is found and that ends after the text `u` is still seen when `u` is cut to the longest beginning
of `x` with which it ends. -/
theorem found_after_cut (hends : EndsWith x u k) (hlongest : ∀ j, j < x.length → EndsWith x u j → j ≤ k)
    (hfound : u ++ w = p ++ x ++ v) (hlater : u.length < p.length + x.length) : ∃ p', x.take k ++ w = p' ++ x ++ v := by
  rcases le_total u.length p.length with hle | hle
  · obtain ⟨q, rfl⟩ : u <+: p := prefix_of_prefix_length_le ⟨w, rfl⟩ ⟨x ++ v, by simp [hfound]⟩ hle
    have hw : w = q ++ x ++ v := by simpa using hfound
    exact ⟨x.take k ++ q, by simp [hw]⟩
  · obtain ⟨s, rfl⟩ : p <+: u := prefix_of_prefix_length_le ⟨x ++ v, by simp [hfound]⟩ ⟨w, rfl⟩ hle
    have htail : s ++ w = x ++ v := by simpa using hfound
    have hlength : s.length < x.length := by simpa using hlater
    have hs : x.take s.length = s := by
      have htake : (x ++ v).take s.length = x.take s.length := take_append_of_le_length hlength.le
      rw [← htake, ← htail, take_left]
    have hj : s.length ≤ k := hlongest s.length hlength ⟨hlength.le, by rw [hs]; exact suffix_append p s⟩
    obtain ⟨q, hq⟩ : x.take s.length <:+ x.take k := by
      refine suffix_of_suffix_length_le (by rw [hs]; exact suffix_append p s) hends.2 ?_
      simp only [length_take]
      omega
    exact ⟨q, by rw [← hq, hs, append_assoc, htail, append_assoc]⟩

variable {A : Language α}

theorem mem_search_iff : w ∈ ⊤ * ({x} * A) ↔ ∃ p v, w = p ++ x ++ v ∧ v ∈ A := by
  simp only [mem_top_mul, mem_singleton_mul]
  constructor
  · rintro ⟨p, _, ⟨v, hv, rfl⟩, rfl⟩
    exact ⟨p, v, by simp, hv⟩
  · rintro ⟨p, v, rfl, hv⟩
    exact ⟨p, x ++ v, ⟨v, hv, rfl⟩, by simp⟩

/-- A search for `x` in a text that begins with `u`: `x` is in `u` already, or `u` is cut to the beginning of `x` with
which it ends. -/
theorem search_cut (hends : EndsWith x u k) (hlongest : ∀ j, j < x.length → EndsWith x u j → j ≤ k) :
    u ++ w ∈ ⊤ * ({x} * A) ↔
      (∃ p v, u ++ w = p ++ x ++ v ∧ p.length + x.length ≤ u.length ∧ v ∈ A) ∨ x.take k ++ w ∈ ⊤ * ({x} * A) := by
  constructor
  · intro h
    obtain ⟨p, v, heq, hv⟩ := mem_search_iff.mp h
    rcases le_or_gt (p.length + x.length) u.length with hle | hlt
    · exact Or.inl ⟨p, v, heq, hle, hv⟩
    · obtain ⟨p', heq'⟩ := found_after_cut hends hlongest heq hlt
      exact Or.inr (mem_search_iff.mpr ⟨p', v, heq', hv⟩)
  · rintro (⟨p, v, heq, _, hv⟩ | h)
    · exact mem_search_iff.mpr ⟨p, v, heq, hv⟩
    · obtain ⟨q, hq⟩ := hends.2
      rw [← hq, append_assoc]
      exact append_mem_top_mul h

theorem search_cut_within (hends : EndsWith x u k) (hlongest : ∀ j, EndsWith x u j → j ≤ k) (hlt : k < x.length)
    (hu : u.length ≤ x.length) : u ++ w ∈ ⊤ * ({x} * A) ↔ x.take k ++ w ∈ ⊤ * ({x} * A) := by
  rw [search_cut hends fun j _ hj => hlongest j hj]
  refine or_iff_right ?_
  rintro ⟨p, v, heq, hle, -⟩
  -- The word would have to be all that is read, and longer than `k`.
  obtain rfl : p = [] := eq_nil_of_length_eq_zero (by omega)
  have hlength : x.length = u.length := by
    rw [length_nil] at hle
    omega
  obtain ⟨hsame, -⟩ := append_inj (by simpa using heq : u ++ w = x ++ v) hlength.symm
  have hall := hlongest x.length ⟨le_refl _, by rw [take_length, hsame]⟩
  omega

end Firebird.Lib
