import Firebird.Evl.LikeCompiled

/-! # The branches of a LIKE match

What a branch still accepts, and what one character leaves of it. -/

namespace Firebird.Evl

open Lib List

variable {α : Type} {i j : PatternItem α} {next items : List (PatternItem α)} {e : Option (List (PatternItem α))}
  {k : Nat} {c : α} {w : List α}

/-- The words that take a branch to the end of the pattern. A search has the part of the string before it that is
matched already. -/
def BranchItem.accepts (b : BranchItem α) : Language α :=
  match b.pattern with
  | [] => 0
  | i :: next =>
    match i.type with
    | .piSkipFixed => exactly (i.length - b.offset.toNat) * (i.behind * itemsLanguage next)
    | .piDirectMatch => {i.text.drop b.offset.toNat} * (i.behind * itemsLanguage next)
    | .piSearch => {w | i.text.take b.offset.toNat ++ w ∈ ⊤ * ({i.text} * (i.behind * itemsLanguage next))}
    | .piNone | .piEscapedString | .piSkipMore => 0

theorem accepts_skip (htype : i.type = .piSkipFixed) :
    (⟨i :: next, (k : Int)⟩ : BranchItem α).accepts = exactly (i.length - k) * (i.behind * itemsLanguage next) := by
  simp [BranchItem.accepts, htype]

theorem accepts_direct (htype : i.type = .piDirectMatch) :
    (⟨i :: next, (k : Int)⟩ : BranchItem α).accepts = {i.text.drop k} * (i.behind * itemsLanguage next) := by
  simp [BranchItem.accepts, htype]

theorem mem_accepts_search (htype : i.type = .piSearch) :
    w ∈ (⟨i :: next, (k : Int)⟩ : BranchItem α).accepts ↔
      i.text.take k ++ w ∈ ⊤ * ({i.text} * (i.behind * itemsLanguage next)) := by
  simp only [BranchItem.accepts, htype, Int.toNat_natCast]
  rfl

theorem PatternItem.Fit.length_text (h : i.Fit) (htype : i.type ≠ .piSkipFixed) : i.text.length = i.length := by
  simp [PatternItem.text, h.inside htype]

theorem accepts_start (h : i.Fit) : (⟨i :: next, 0⟩ : BranchItem α).accepts = itemsLanguage (i :: next) := by
  rw [itemsLanguage_cons]
  rcases h.type with htype | htype | htype
  · simp [BranchItem.accepts, PatternItem.own, htype]
  · simp [BranchItem.accepts, PatternItem.own, htype]
  · ext w
    rw [show (0 : Int) = ((0 : Nat) : Int) from rfl, mem_accepts_search htype]
    simp [PatternItem.own, htype, mul_assoc]

structure On (i : PatternItem α) (next : List (PatternItem α)) (k : Nat) (b : BranchItem α) : Prop where
  eq : b = ⟨i :: next, k⟩
  compiled : Compiled (i :: next)
  lt : k < i.length

variable {b b' : BranchItem α}

theorem on_start (h : Compiled (i :: next)) : On i next 0 ⟨i :: next, 0⟩ := ⟨rfl, h, h.head_fit.pos⟩

theorem On.accepts_cons (h : On i next k b) (hw : w ∈ b.accepts) :
    ∃ x y, x ≠ [] ∧ w = x ++ y ∧ y ∈ i.behind * itemsLanguage next := by
  have hlt := h.lt
  have hfit := h.compiled.head_fit
  rw [h.eq] at hw
  rcases hfit.type with htype | htype | htype
  · rw [accepts_skip htype, Language.mem_mul] at hw
    obtain ⟨x, hx, y, hy, rfl⟩ := hw
    rw [mem_exactly] at hx
    exact ⟨x, y, ne_nil_of_length_pos (by omega), rfl, hy⟩
  · rw [accepts_direct htype, mem_singleton_mul] at hw
    obtain ⟨y, hy, rfl⟩ := hw
    refine ⟨i.text.drop k, y, ne_nil_of_length_pos ?_, rfl, hy⟩
    rw [length_drop, hfit.length_text (by simp [htype])]
    omega
  · rw [mem_accepts_search htype, mem_search_iff] at hw
    obtain ⟨p, y, heq, hy⟩ := hw
    have hlength := congrArg length heq
    simp only [length_append, length_take, hfit.length_text (by simp [htype] : i.type ≠ .piSkipFixed)] at hlength
    obtain ⟨x, rfl⟩ : y <:+ w :=
      suffix_of_suffix_length_le (heq ▸ suffix_append _ y) (suffix_append (i.text.take k) w) (by omega)
    refine ⟨x, y, ne_nil_of_length_pos ?_, rfl, hy⟩
    simp only [length_append] at hlength
    omega

theorem On.not_nil (h : On i next k b) : [] ∉ b.accepts := by
  intro hw
  obtain ⟨x, y, hx, heq, -⟩ := h.accepts_cons hw
  exact hx (append_eq_nil_iff.mp heq.symm).1

def afterAny : List (PatternItem α) → Option (List (PatternItem α))
  | [] => none
  | i :: rest => if i.matchAny then some rest else afterAny rest

theorem afterAny_marked (h : i.matchAny = true) : afterAny (i :: next) = some next := by simp [afterAny, h]

theorem afterAny_unmarked (h : i.matchAny = false) : afterAny (i :: next) = afterAny next := by simp [afterAny, h]

theorem behind_marked (h : i.matchAny = true) : i.behind = ⊤ := by simp [PatternItem.behind, h]

theorem behind_unmarked (h : i.matchAny = false) : i.behind = 1 := by simp [PatternItem.behind, h]

theorem mem_afterAny (hafter : afterAny (i :: next) = some items) (hw : w ∈ i.behind * itemsLanguage next) :
    w ∈ ⊤ * itemsLanguage items := by
  induction next generalizing i w with
  | nil =>
    cases hmark : i.matchAny with
    | true =>
      obtain rfl : [] = items := by simpa [afterAny, hmark] using hafter
      rwa [behind_marked hmark] at hw
    | false => simp [afterAny, hmark] at hafter
  | cons j next ih =>
    cases hmark : i.matchAny with
    | true =>
      obtain rfl : j :: next = items := by simpa [afterAny, hmark] using hafter
      rwa [behind_marked hmark] at hw
    | false =>
      rw [afterAny_unmarked hmark] at hafter
      rw [behind_unmarked hmark, one_mul, itemsLanguage_cons] at hw
      obtain ⟨u, _, v, hv, rfl⟩ := hw
      exact append_mem_top_mul (ih hafter hv)

theorem On.through (h : On i next k b) (hafter : afterAny (i :: next) = some items) (hw : w ∈ b.accepts) :
    ∃ x y, x ≠ [] ∧ w = x ++ y ∧ y ∈ ⊤ * itemsLanguage items := by
  obtain ⟨x, y, hx, heq, hy⟩ := h.accepts_cons hw
  exact ⟨x, y, hx, heq, mem_afterAny hafter hy⟩

theorem top_mul_next (h : Compiled (i :: next)) (hmark : i.matchAny = true) :
    (⊤ : Language α) * itemsLanguage next = if next = [] then ⊤ else itemsLanguage next := by
  cases next with
  | nil => simp
  | cons j next =>
    have htype : j.type = .piSearch := h.next.mp hmark
    rw [itemsLanguage_cons]
    simp [PatternItem.own, htype, ← mul_assoc]

def Walking (e : Option (List (PatternItem α))) (b : BranchItem α) : Prop :=
  ∃ i next k, On i next k b ∧ i.type ≠ .piSearch ∧ afterAny (i :: next) = e

def Searching (e : Option (List (PatternItem α))) (b : BranchItem α) : Prop :=
  ∃ i next k, On i next k b ∧ i.type = .piSearch ∧ i.matchAny = false ∧ afterAny (i :: next) = e

def WalkStep (e : Option (List (PatternItem α))) (c : α) (b : BranchItem α) : BranchStep α → Prop
  | .dropped => ∀ w, c :: w ∉ b.accepts
  | .finished => e = none ∧ ∀ w, c :: w ∈ b.accepts ↔ w = []
  | .kept b' => Walking e b' ∧ ∀ w, c :: w ∈ b.accepts ↔ w ∈ b'.accepts
  | .alone b' => (∃ i next, e = some (i :: next) ∧ On i next 0 b' ∧ i.type = .piSearch) ∧ ∀ w,
      c :: w ∈ b.accepts ↔ w ∈ b'.accepts
  | .matched => e = some [] ∧ ∀ w, c :: w ∈ b.accepts
  | .found _ | .split _ _ => False

def SearchStep (e : Option (List (PatternItem α))) (c : α) (b : BranchItem α) : BranchStep α → Prop
  | .kept b' => Searching e b' ∧ ∀ w, c :: w ∈ b.accepts ↔ w ∈ b'.accepts
  | .found b' => Searching e b' ∧ e = none ∧ ∀ w, c :: w ∈ b.accepts ↔ w = [] ∨ w ∈ b'.accepts
  | .split b' inserted => Searching e b' ∧ Walking e inserted ∧ ∀ w, c :: w ∈ b.accepts ↔
      w ∈ b'.accepts ∨ w ∈ inserted.accepts
  | .dropped | .finished | .alone _ | .matched => False

def LastSearchStep (c : α) (b : BranchItem α) : BranchStep α → Prop
  | .kept b' => (∃ i next k, On i next k b') ∧ ∀ w, c :: w ∈ b.accepts ↔ w ∈ b'.accepts
  | .matched => ∀ w, c :: w ∈ b.accepts
  | .dropped | .finished | .found _ | .split _ _ | .alone _ => False

structure Takes (i : PatternItem α) (next : List (PatternItem α)) (k : Nat) (c : α) : Prop where
  within : k + 1 < i.length → ∀ w, c :: w ∈ (⟨i :: next, (k : Int)⟩ : BranchItem α).accepts ↔
    w ∈ (⟨i :: next, ((k + 1 : Nat) : Int)⟩ : BranchItem α).accepts
  last : k + 1 = i.length → ∀ w, c :: w ∈ (⟨i :: next, (k : Int)⟩ : BranchItem α).accepts ↔
    w ∈ i.behind * itemsLanguage next

theorem takes_skip (htype : i.type = .piSkipFixed) : Takes i next k c := by
  have hstep : ∀ n w, (c :: w ∈ (exactly (n + 1) : Language α) * (i.behind * itemsLanguage next)) ↔
      w ∈ exactly n * (i.behind * itemsLanguage next) := by
    intro n w
    rw [Language.mem_mul, Language.mem_mul]
    constructor
    · rintro ⟨x, hx, y, hy, heq⟩
      obtain ⟨d, x, rfl⟩ := exists_cons_of_length_eq_add_one hx
      obtain ⟨rfl, rfl⟩ := cons.inj heq
      exact ⟨x, by simpa using hx, y, hy, rfl⟩
    · rintro ⟨x, hx, y, hy, rfl⟩
      exact ⟨c :: x, by simpa using hx, y, hy, rfl⟩
  constructor
  · intro hlt w
    rw [accepts_skip htype, accepts_skip htype, show i.length - k = i.length - (k + 1) + 1 by omega]
    exact hstep _ w
  · intro hlast w
    rw [accepts_skip htype, show i.length - k = 0 + 1 by omega, hstep, exactly_zero, one_mul]

theorem takes_direct (h : i.Fit) (hlt : k < i.length) (htype : i.type = .piDirectMatch)
    (hc : i.data[k]? = some c) : Takes i next k c := by
  have hlength : i.text.length = i.length := h.length_text (by simp [htype])
  have hdrop : i.text.drop k = c :: i.text.drop (k + 1) := by
    have hget : i.text[k]? = some c := by rw [PatternItem.text, getElem?_take_of_lt hlt, hc]
    obtain ⟨hk, heq⟩ := List.getElem?_eq_some_iff.mp hget
    rw [drop_eq_getElem_cons hk, heq]
  have hstep : ∀ w, c :: w ∈ (⟨i :: next, (k : Int)⟩ : BranchItem α).accepts ↔
      w ∈ {i.text.drop (k + 1)} * (i.behind * itemsLanguage next) := by
    intro w
    rw [accepts_direct htype, mem_singleton_mul, mem_singleton_mul, hdrop]
    simp
  constructor
  · intro _ w
    rw [hstep, accepts_direct htype]
  · intro hlast w
    rw [hstep, drop_eq_nil_of_le (by omega), mem_singleton_mul]
    simp

theorem On.next_item (h : On i next k b) (hmark : i.matchAny = false) (hnext : next = j :: items) :
    On j items 0 ⟨next, 0⟩ ∧ j.type ≠ .piSearch ∧ afterAny (j :: items) = afterAny (i :: next) ∧
      i.behind * itemsLanguage next = (⟨next, 0⟩ : BranchItem α).accepts := by
  subst hnext
  have htype : j.type ≠ .piSearch := fun htype => by simp [h.compiled.next.mpr htype] at hmark
  refine ⟨on_start h.compiled.tail, htype, (afterAny_unmarked hmark).symm, ?_⟩
  rw [behind_unmarked hmark, one_mul, accepts_start h.compiled.tail.head_fit]

theorem On.next_search (h : On i next k b) (hmark : i.matchAny = true) (hnext : next = j :: items) :
    On j items 0 ⟨next, 0⟩ ∧ j.type = .piSearch ∧ i.behind * itemsLanguage next =
    (⟨next, 0⟩ : BranchItem α).accepts := by
  subst hnext
  refine ⟨on_start h.compiled.tail, h.compiled.next.mp hmark, ?_⟩
  rw [behind_marked hmark, top_mul_next h.compiled hmark, accepts_start h.compiled.tail.head_fit]
  simp

theorem advance_spec (h : On i next k b) (htype : i.type ≠ .piSearch) (htakes : Takes i next k c) :
    WalkStep (afterAny (i :: next)) c b (advance i next b) := by
  have hlt := h.lt
  have hb := h.eq
  by_cases hend : k + 1 = i.length
  · have haccepts := htakes.last hend
    rw [← hb] at haccepts
    have hge : b.offset + 1 ≥ (i.length : Int) := by simp [hb]; omega
    cases hmark : i.matchAny with
    | true =>
      cases hnext : next with
      | nil =>
        subst hnext
        simp only [advance, hge, if_true, hmark, WalkStep, afterAny_marked hmark, true_and]
        intro w
        rw [haccepts, behind_marked hmark]
        simp
      | cons j items =>
        obtain ⟨hon, hj, heq⟩ := h.next_search hmark hnext
        simp only [advance, hge, if_true, hmark, WalkStep, afterAny_marked hmark]
        rw [← hnext]
        exact ⟨⟨j, items, by rw [hnext], hon, hj⟩, fun w => by rw [haccepts, heq]⟩
    | false =>
      cases hnext : next with
      | nil =>
        subst hnext
        simp only [advance, hge, if_true, hmark, WalkStep, afterAny, Bool.false_eq_true, if_false, true_and]
        intro w
        rw [haccepts, behind_unmarked hmark]
        simp
      | cons j items =>
        obtain ⟨hon, hj, hafter, heq⟩ := h.next_item hmark hnext
        simp only [advance, hge, if_true, hmark, WalkStep]
        rw [← hnext]
        exact ⟨⟨j, items, 0, hon, hj, hafter⟩, fun w => by rw [haccepts, heq]⟩
  · have haccepts := htakes.within (by omega)
    rw [← hb] at haccepts
    have hge : ¬b.offset + 1 ≥ (i.length : Int) := by simp [hb]; omega
    simp only [advance, hge, if_false, WalkStep]
    refine ⟨⟨i, next, k + 1, ⟨by simp [hb], h.compiled, by omega⟩, htype, rfl⟩, fun w => ?_⟩
    rw [haccepts, hb]
    simp

theorem stepBranch_walking [DecidableEq α] (h : Walking e b) : ∃ s, stepBranch c b = some s ∧ WalkStep e c b s := by
  obtain ⟨i, next, k, hon, htype, rfl⟩ := h
  have hfit := hon.compiled.head_fit
  have hlt := hon.lt
  rcases hfit.type with hskip | hdirect | hsearch
  · refine ⟨advance i next b, ?_, advance_spec hon htype (takes_skip hskip)⟩
    simp [stepBranch, hon.eq, hskip]
  · have hinside := hfit.inside (by simp [hdirect])
    have hd : i.data[k]? = some i.data[k] := getElem?_eq_getElem (by omega)
    by_cases hc : c = i.data[k]
    · refine ⟨advance i next b, ?_, advance_spec hon htype (takes_direct hfit hlt hdirect (hc ▸ hd))⟩
      simp [stepBranch, hon.eq, hdirect, hd, hc]
    · refine ⟨.dropped, by simp [stepBranch, hon.eq, hdirect, hd, hc], fun w hw => hc ?_⟩
      have htext : i.text[k]? = some i.data[k] := by rw [PatternItem.text, getElem?_take_of_lt hlt, hd]
      obtain ⟨hk, heq⟩ := List.getElem?_eq_some_iff.mp htext
      rw [hon.eq, accepts_direct hdirect, mem_singleton_mul, drop_eq_getElem_cons hk, heq] at hw
      obtain ⟨v, -, hw⟩ := hw
      exact (cons.inj hw).1.symm
  · exact absurd hsearch htype

theorem border_text (hk : k ≤ i.length) {n : Nat} : Border i.data n k ↔ Border i.text n k := border_take hk

theorem On.fallBack [DecidableEq α] (h : On i next k b) (htype : i.type = .piSearch) :
    ∃ r, Evl.fallBack i.data i.kmpNext c (i.kmpNext.length + 1) k = some r ∧ ∃ k' : Nat, r + 1 = k' ∧ k' ≤ k + 1 ∧
      EndsWith i.text (i.text.take k ++ [c]) k' ∧ ∀ n, EndsWith i.text (i.text.take k ++ [c]) n → n ≤ k' :=
  (h.compiled.head_fit.table htype).fallBack h.lt (h.compiled.head_fit.inside (by simp [htype]))

theorem On.search_within (h : On i next k b) (htype : i.type = .piSearch) {k' : Nat}
    (hends : EndsWith i.text (i.text.take k ++ [c]) k') (hlongest : ∀ n, EndsWith i.text (i.text.take k ++ [c]) n →
      n ≤ k')
    (hlt' : k' < i.length) (w : List α) :
    c :: w ∈ b.accepts ↔ w ∈ (⟨i :: next, (k' : Int)⟩ : BranchItem α).accepts := by
  have hlt := h.lt
  have hlength : i.text.length = i.length := h.compiled.head_fit.length_text (by simp [htype])
  rw [h.eq, mem_accepts_search htype, mem_accepts_search htype, show i.text.take k ++ c :: w =
    i.text.take k ++ [c] ++ w by simp]
  exact search_cut_within hends hlongest (hlength.symm ▸ hlt') (by simp; omega)

theorem On.search_found (h : On i next k b) (htype : i.type = .piSearch)
    (hends : EndsWith i.text (i.text.take k ++ [c]) i.length) :
    ∃ n : Nat, i.kmpNext[i.length]? = some (n : Int) ∧ n < i.length ∧ ∀ w, c :: w ∈ b.accepts ↔
      w ∈ i.behind * itemsLanguage next ∨ w ∈ (⟨i :: next, (n : Int)⟩ : BranchItem α).accepts := by
  have hlt := h.lt
  have hfit := h.compiled.head_fit
  have hlength : i.text.length = i.length := hfit.length_text (by simp [htype])
  obtain ⟨n, hn, hborder, hmax⟩ := (hfit.table htype).found
  have hsame : i.text.take k ++ [c] = i.text := by
    have hsuffix := hends.2
    rw [← hlength, take_length] at hsuffix
    exact (hsuffix.eq_of_length_le (by simp; omega)).symm
  refine ⟨n, hn, hborder.1, fun w => ?_⟩
  rw [h.eq, mem_accepts_search htype, mem_accepts_search htype, show i.text.take k ++ c :: w = i.text.take
    k ++ [c] ++ w by simp, hsame]
  have hborder' : EndsWith i.text i.text n :=
    ⟨by rw [hlength]; exact hborder.1.le, by simpa [← hlength] using ((border_text (le_refl _)).mp hborder).2⟩
  rw [search_cut hborder' fun j hj hjends => ?_]
  · refine or_congr_left ⟨?_, fun hw => ⟨[], w, rfl, by simp, hw⟩⟩
    rintro ⟨p, v, heq, hle, hv⟩
    obtain rfl : p = [] := eq_nil_of_length_eq_zero (by omega)
    obtain rfl : w = v := by simpa using heq
    exact hv
  · refine hmax j ((border_text (le_refl _)).mpr ⟨hlength ▸ hj, ?_⟩)
    rw [← hlength, take_length]
    exact hjends.2

theorem stepBranch_searching [DecidableEq α] (h : Searching e b) :
    ∃ s, stepBranch c b = some s ∧ SearchStep e c b s := by
  obtain ⟨i, next, k, hon, htype, hmark, rfl⟩ := h
  obtain ⟨r, hr, k', hk', hle, hends, hlongest⟩ := hon.fallBack (c := c) htype
  have hlt := hon.lt
  by_cases hfound : k' = i.length
  · subst hfound
    obtain ⟨n, hn, hlt', haccepts⟩ := hon.search_found htype hends
    have hstays : Searching (afterAny (i :: next)) ⟨i :: next, (n : Int)⟩ :=
      ⟨i, next, n, ⟨rfl, hon.compiled, hlt'⟩, htype, hmark, rfl⟩
    cases hnext : next with
    | nil =>
      subst hnext
      refine ⟨.found ⟨[i], n⟩, by simp [stepBranch, hon.eq, htype, hr, hk', hmark, hn],
        hstays, by simp [afterAny, hmark], fun w => ?_⟩
      rw [haccepts, behind_unmarked hmark]
      simp
    | cons j items =>
      obtain ⟨hnew, hj, hafter, heq⟩ := hon.next_item hmark hnext
      refine ⟨.split ⟨i :: next, n⟩ ⟨next, 0⟩, ?_, ?_, ⟨j, items, 0, hnew, hj, ?_⟩, fun w => ?_⟩
      · simp [stepBranch, hon.eq, htype, hr, hk', hn, hnext, hj]
      · rwa [← hnext]
      · rw [hafter, hnext]
      · rw [haccepts, heq]
        exact or_comm
  · have hlt' : k' < i.length := by omega
    refine ⟨.kept ⟨i :: next, k'⟩, ?_, ⟨i, next, k', ⟨rfl, hon.compiled, hlt'⟩, htype, hmark, rfl⟩,
      fun w => hon.search_within htype hends hlongest hlt' w⟩
    simp [stepBranch, hon.eq, htype, hr, hk', hlt']

theorem stepBranch_lastSearch [DecidableEq α] (hon : On i next k b) (htype : i.type = .piSearch)
    (hmark : i.matchAny = true) : ∃ s, stepBranch c b = some s ∧ LastSearchStep c b s := by
  obtain ⟨r, hr, k', hk', hle, hends, hlongest⟩ := hon.fallBack (c := c) htype
  have hlt := hon.lt
  by_cases hfound : k' = i.length
  · subst hfound
    obtain ⟨n, -, hlt', haccepts⟩ := hon.search_found htype hends
    have hlater : ∀ w, w ∈ (⟨i :: next, (n : Int)⟩ : BranchItem α).accepts → w ∈ i.behind * itemsLanguage next := by
      intro w hw
      obtain ⟨x, y, -, rfl, hy⟩ := On.accepts_cons ⟨rfl, hon.compiled, hlt'⟩ hw
      rw [behind_marked hmark] at hy ⊢
      exact append_mem_top_mul hy
    have hiff : ∀ w, c :: w ∈ b.accepts ↔ w ∈ i.behind * itemsLanguage next := by
      intro w
      rw [haccepts]
      exact or_iff_left_of_imp (hlater w)
    cases hnext : next with
    | nil =>
      subst hnext
      refine ⟨.matched, by simp [stepBranch, hon.eq, htype, hr, hk', hmark], fun w => ?_⟩
      rw [hiff, behind_marked hmark]
      simp
    | cons j items =>
      obtain ⟨hnew, hj, heq⟩ := hon.next_search hmark hnext
      refine ⟨.kept ⟨next, 0⟩, ?_, ⟨j, items, 0, hnew⟩, fun w => by rw [hiff, heq]⟩
      simp [stepBranch, hon.eq, htype, hr, hk', hnext, hj]
  · have hlt' : k' < i.length := by omega
    refine ⟨.kept ⟨i :: next, k'⟩, ?_, ⟨i, next, k', ⟨rfl, hon.compiled, hlt'⟩⟩,
      fun w => hon.search_within htype hends hlongest hlt' w⟩
    simp [stepBranch, hon.eq, htype, hr, hk', hlt']

end Firebird.Evl
