import Mathlib

/-! # Iterators that mark what they have processed

`MarkIterator` goes over an array pass by pass (`src/common/classes/vector.h`). Items that are done are
marked in place; while it goes, the iterator moves the lower bound of the next pass up and its upper bound
down. -/

namespace Firebird.Cch

open List

variable {α : Type*}

/-- The array, with `none` for the mark value, and four places in it. The last one stands a place in front
    of the array when the first item is marked. -/
structure MarkIterator (α : Type*) where
  items : List (Option α)
  mBegin : Nat
  mEnd : Nat
  mCurr : Nat
  mLast : Int

namespace MarkIterator

def create (items : List α) : MarkIterator α :=
  { items := items.map some, mBegin := 0, mEnd := items.length, mCurr := 0, mLast := 0 }

def item (it : MarkIterator α) (i : Nat) : Option α := it.items[i]?.join

def isMarked (it : MarkIterator α) (i : Nat) : Bool := (it.item i).isNone

def mark (it : MarkIterator α) : MarkIterator α :=
  { it with items := it.items.set it.mCurr none, mLast := if it.mLast = it.mCurr then it.mLast - 1 else it.mLast }

def rewind (it : MarkIterator α) : MarkIterator α :=
  { it with mCurr := it.mBegin, mEnd := (it.mLast + 1).toNat, mLast := it.mBegin }

def skipMarked (it : MarkIterator α) (i : Nat) : Nat → Nat
  | 0 => i
  | n + 1 => if it.isMarked i then it.skipMarked (i + 1) n else i

def next (it : MarkIterator α) : MarkIterator α :=
  let curr := it.skipMarked (it.mCurr + 1) (it.mEnd - (it.mCurr + 1))
  if curr = it.mEnd then { it with mCurr := curr }
  else
    let moved :=
      if it.mBegin = it.mCurr then
        if it.isMarked it.mBegin then { it with mBegin := curr }
        -- the first item moves up to the current one, over marked ones
        else if it.mBegin ≠ curr - 1 then
          { it with items := it.items.set (curr - 1) (it.item it.mBegin), mBegin := curr - 1 }
        else it
      else it
    { moved with mCurr := curr, mLast := if moved.isMarked curr then moved.mLast else curr }

def isEof (it : MarkIterator α) : Bool := it.mEnd ≤ it.mCurr

def isEmpty (it : MarkIterator α) : Bool := it.mEnd ≤ it.mBegin

end MarkIterator

def live (item : Nat → Option α) (i j : Nat) : List α := (List.range' i (j - i)).filterMap item

variable {item item' : Nat → Option α} {i j k : Nat} {x y : α} {kept rest : List α}

@[simp] theorem live_self (item : Nat → Option α) (i : Nat) : live item i i = [] := by simp [live]

theorem live_append (hij : i ≤ j) (hjk : j ≤ k) : live item i j ++ live item j k = live item i k := by
  have hrange : range' i (j - i) ++ range' j (k - j) = range' i (k - i) := by
    have h : range' i (j - i) ++ range' (i + (j - i)) (k - j) = range' i (j - i + (k - j)) :=
      range'_append_1
    rwa [show i + (j - i) = j by omega, show j - i + (k - j) = k - i by omega] at h
  rw [live, live, live, ← filterMap_append, hrange]

theorem live_succ (item : Nat → Option α) (i : Nat) : live item i (i + 1) = (item i).toList := by
  rw [live]
  cases h : item i <;> simp [h]

theorem live_congr (h : ∀ k, i ≤ k → k < j → item k = item' k) : live item i j = live item' i j := by
  refine filterMap_congr fun k hk => ?_
  rw [mem_range'_1] at hk
  exact h k hk.1 (by omega)

theorem live_of_marked (h : ∀ k, i ≤ k → k < j → item k = none) : live item i j = [] := by
  rw [live, filterMap_eq_nil_iff]
  intro k hk
  rw [mem_range'_1] at hk
  exact h k hk.1 (by omega)

theorem mem_live : x ∈ live item i j ↔ ∃ k, i ≤ k ∧ k < j ∧ item k = some x := by
  simp only [live, mem_filterMap, mem_range'_1]
  constructor
  · rintro ⟨k, ⟨hik, hkj⟩, hk⟩
    exact ⟨k, hik, by omega, hk⟩
  · rintro ⟨k, hik, hkj, hk⟩
    exact ⟨k, ⟨hik, by omega⟩, hk⟩

theorem live_getElem? (front l : List α) :
    live (fun k => (front ++ l)[k]?) front.length (front.length + l.length) = l := by
  induction l generalizing front with
  | nil => simp
  | cons x l ih =>
    have hrest := ih (front ++ [x])
    rw [append_assoc, singleton_append, length_append, length_singleton] at hrest
    rw [← live_append (Nat.le_succ front.length) (by rw [length_cons]; omega), live_succ, length_cons,
      show front.length + (l.length + 1) = front.length + 1 + l.length by omega, hrest]
    simp

namespace MarkIterator

variable {it : MarkIterator α}

theorem item_set (it : MarkIterator α) (k : Nat) (v : Option α) (i : Nat) :
    (it.items.set k v)[i]?.join = if k = i ∧ i < it.items.length then v else it.item i := by
  rw [item]
  by_cases hk : k = i
  · subst hk
    by_cases hlt : k < it.items.length
    · simp [hlt]
    · simp [hlt]
  · simp [hk]

theorem skipMarked_spec (it : MarkIterator α) (i n : Nat) :
    i ≤ it.skipMarked i n ∧ it.skipMarked i n ≤ i + n ∧ (∀ k, i ≤ k → k < it.skipMarked i n → it.item k = none) ∧
      (it.skipMarked i n < i + n → it.isMarked (it.skipMarked i n) = false) := by
  induction n generalizing i with
  | zero => exact ⟨Nat.le_refl _, Nat.le_refl _, fun k h₁ h₂ => absurd h₂ (Nat.not_lt.mpr h₁), fun h =>
      absurd h (Nat.lt_irrefl _)⟩
  | succ n ih =>
    rw [skipMarked]
    split
    · next hmarked =>
      obtain ⟨hle, hbound, hskipped, hstop⟩ := ih (i + 1)
      refine ⟨by omega, by omega, ?_, fun h => hstop (by omega)⟩
      intro k hik hk
      rcases Nat.eq_or_lt_of_le hik with rfl | hlt
      · exact Option.isNone_iff_eq_none.mp hmarked
      · exact hskipped k hlt hk
    · next hlive =>
      exact ⟨Nat.le_refl _, by omega, fun k h₁ h₂ => absurd h₂ (Nat.not_lt.mpr h₁), fun _ => by simpa using hlive⟩

theorem skipMarked_of_cons {stop : Nat} (h : live it.item i stop = y :: rest) :
    ∃ k, it.skipMarked i (stop - i) = k ∧ i ≤ k ∧ k < stop ∧ it.item k = some y ∧
    (∀ l, i ≤ l → l < k → it.item l = none) ∧
      live it.item (k + 1) stop = rest := by
  obtain ⟨hik, hbound, hskipped, hstop⟩ := it.skipMarked_spec i (stop - i)
  have hlt : it.skipMarked i (stop - i) < stop := by
    by_contra hge
    rw [live_of_marked fun k h₁ h₂ => hskipped k h₁ (by omega)] at h
    exact nomatch h
  have hlive := hstop (by omega)
  rw [isMarked, Option.isNone_eq_false_iff, Option.isSome_iff_exists] at hlive
  obtain ⟨z, hz⟩ := hlive
  rw [← live_append hik (Nat.le_of_lt hlt), live_of_marked hskipped, ← live_append (Nat.le_succ _) hlt, live_succ,
    hz] at h
  obtain ⟨rfl, hrest⟩ := cons.inj h
  exact ⟨_, rfl, hik, hlt, hz, hskipped, hrest⟩

theorem skipMarked_of_nil {stop : Nat} (hle : i ≤ stop) (h : live it.item i stop = []) :
    it.skipMarked i (stop - i) = stop := by
  obtain ⟨hik, hbound, -, hstop⟩ := it.skipMarked_spec i (stop - i)
  by_contra hne
  have hlive := hstop (by omega)
  rw [isMarked, Option.isNone_eq_false_iff, Option.isSome_iff_exists] at hlive
  obtain ⟨z, hz⟩ := hlive
  have hmem : z ∈ live it.item i stop := mem_live.mpr ⟨_, hik, by omega, hz⟩
  rw [h] at hmem
  exact nomatch hmem

/-- In a pass, at item `x`: `kept` have been passed and are not processed, `rest` are to come. -/
structure At (it : MarkIterator α) (kept : List α) (x : α) (rest : List α) : Prop where
  bounds : it.mBegin ≤ it.mCurr ∧ it.mCurr < it.mEnd ∧ it.mEnd ≤ it.items.length
  first : it.mBegin = it.mCurr ∨ ∃ y, it.item it.mBegin = some y ∧ it.mBegin < it.mCurr
  kept : live it.item it.mBegin it.mCurr = kept
  item : it.item it.mCurr = some x
  rest : live it.item (it.mCurr + 1) it.mEnd = rest
  last : it.mLast = it.mCurr

structure AtEnd (it : MarkIterator α) (kept : List α) : Prop where
  eof : it.isEof = true
  bound : (it.mLast + 1).toNat ≤ it.items.length
  left : live it.item it.mBegin (it.mLast + 1).toNat = kept
  first : kept = [] ∧ (it.mLast + 1).toNat ≤ it.mBegin ∨
    ∃ y, it.item it.mBegin = some y ∧ it.mBegin < (it.mLast + 1).toNat

theorem at_create (x : α) (rest : List α) : At (create (x :: rest)) [] x rest where
  bounds := ⟨Nat.le_refl _, by simp [create], by simp [create]⟩
  first := .inl rfl
  kept := live_self _ _
  item := rfl
  rest := by
    have hitem : (create (x :: rest)).item = fun k => ([x] ++ rest)[k]? := by
      funext k
      rw [MarkIterator.item, create, getElem?_map, singleton_append]
      cases (x :: rest)[k]? <;> rfl
    rw [hitem]
    have hend : (create (x :: rest)).mEnd = [x].length + rest.length := by
      rw [Nat.add_comm]
      rfl
    rw [hend]
    exact live_getElem? [x] rest
  last := rfl

theorem At.not_isEof (h : At it kept x rest) : it.isEof = false := by
  simp [isEof, h.bounds.2.1]

theorem At.not_isEmpty (h : At it kept x rest) : it.isEmpty = false := by
  have := h.bounds
  simp only [isEmpty, decide_eq_false_iff_not]
  omega

theorem At.kept_nil_iff (h : At it kept x rest) : kept = [] ↔ it.mBegin = it.mCurr := by
  constructor
  · rintro rfl
    rcases h.first with h' | ⟨y, hy, hlt⟩
    · exact h'
    · have hmem : y ∈ live it.item it.mBegin it.mCurr := mem_live.mpr ⟨_, Nat.le_refl _, hlt, hy⟩
      rw [h.kept] at hmem
      exact nomatch hmem
  · intro heq
    rw [← h.kept, heq, live_self]

/-! What `operator++` does, by what it finds. -/

section Next
variable (hk : it.skipMarked (it.mCurr + 1) (it.mEnd - (it.mCurr + 1)) = k) (hitem : it.item k = some y)
  (hend : k ≠ it.mEnd)
include hk hitem hend

theorem next_later (hbegin : it.mBegin ≠ it.mCurr) : it.next = { it with mCurr := k, mLast := k } := by
  have hmarked : it.isMarked k = false := by rw [isMarked, hitem]; rfl
  simp only [next, hk, hend, hbegin, hmarked, if_false, Bool.false_eq_true]

theorem next_marked (hbegin : it.mBegin = it.mCurr) (hfirst : it.item it.mBegin = none) :
    it.next = { it with mBegin := k, mCurr := k, mLast := k } := by
  have hmarked : it.isMarked it.mBegin = true := by rw [isMarked, hfirst]; rfl
  have hmarked' : ({ it with mBegin := k } : MarkIterator α).isMarked k = false := by
    rw [isMarked, show MarkIterator.item { it with mBegin := k } k = some y from hitem]
    rfl
  simp only [next, hk, hend, if_false]
  rw [if_pos hbegin, if_pos hmarked, if_neg (by rw [hmarked']; decide)]

theorem next_first (hbegin : it.mBegin = it.mCurr) (hfirst : it.item it.mBegin = some x) (hlt : it.mCurr < k)
    (hlength : k < it.items.length) :
    ∃ items, it.next = { it with items, mBegin := k - 1, mCurr := k, mLast := k } ∧ items.length = it.items.length ∧
      items[k - 1]?.join = some x ∧ ∀ i, i ≠ k - 1 → items[i]?.join = it.item i := by
  have hmarked : it.isMarked it.mBegin = false := by rw [isMarked, hfirst]; rfl
  have hmarked' : ∀ items : List (Option α), items[k]?.join = some y →
      ({ it with items, mBegin := k - 1 } : MarkIterator α).isMarked k = false := by
    intro items h
    rw [isMarked, MarkIterator.item, h]
    rfl
  by_cases hnext : it.mBegin = k - 1
  · refine ⟨it.items, ?_, rfl, by rw [← hnext]; exact hfirst, fun _ _ => rfl⟩
    simp only [next, hk, hend, if_false]
    rw [if_pos hbegin, if_neg (by rw [hmarked]; decide), if_neg (not_not.mpr hnext),
      if_neg (by rw [isMarked, hitem]; exact Bool.false_ne_true)]
    simp only [hnext]
  · have hset := it.item_set (k - 1) (some x)
    refine ⟨it.items.set (k - 1) (some x), ?_, length_set, ?_, ?_⟩
    · simp only [next, hk, hend, if_false, hfirst]
      rw [if_pos hbegin, if_neg (by rw [hmarked]; decide), if_pos hnext, if_neg]
      rw [hmarked' _ (by rw [hset, if_neg (by omega), hitem])]
      decide
    · rw [hset, if_pos ⟨rfl, by omega⟩]
    · intro i hi
      rw [hset, if_neg fun h => hi h.1.symm]

end Next

theorem next_eof (hk : it.skipMarked (it.mCurr + 1) (it.mEnd - (it.mCurr + 1)) = it.mEnd) :
    it.next = { it with mCurr := it.mEnd } := by
  simp only [next, hk, if_true]

/-! ### One step of a pass -/

theorem At.next_kept (h : At it kept x (y :: rest)) : At it.next (kept ++ [x]) y rest := by
  obtain ⟨hbegin, hcurr, hend⟩ := h.bounds
  obtain ⟨k, hk, hck, hke, hitem, hskipped, hrest⟩ := skipMarked_of_cons h.rest
  have hne : k ≠ it.mEnd := by omega
  by_cases hfirst : it.mBegin = it.mCurr
  · obtain rfl : kept = [] := h.kept_nil_iff.mpr hfirst
    obtain ⟨items, hnext, hlength, hmoved, hsame⟩ :=
      next_first hk hitem hne hfirst (by rw [hfirst, h.item]) hck (by omega)
    rw [hnext]
    refine ⟨⟨show k - 1 ≤ k by omega, hke, show it.mEnd ≤ items.length by omega⟩,
      .inr ⟨x, hmoved, show k - 1 < k by omega⟩, ?_, ?_, ?_, rfl⟩
    · have hsucc := live_succ (fun i => items[i]?.join) (k - 1)
      rw [show k - 1 + 1 = k by omega] at hsucc
      exact hsucc.trans (by rw [hmoved]; rfl)
    · exact (hsame k (by omega)).trans hitem
    · exact (live_congr fun i (hi : k + 1 ≤ i) _ => hsame i (by omega)).trans hrest
  · rw [next_later hk hitem hne hfirst]
    refine ⟨⟨show it.mBegin ≤ k by omega, hke, hend⟩, ?_, ?_, hitem, hrest, rfl⟩
    · obtain ⟨z, hz, hlt⟩ := h.first.resolve_left hfirst
      exact .inr ⟨z, hz, show it.mBegin < k by omega⟩
    · have hlive : live it.item it.mBegin k = kept ++ [x] := by
        rw [← live_append hbegin (by omega : it.mCurr ≤ k), ← live_append (Nat.le_succ it.mCurr) hck, live_succ,
          live_of_marked hskipped, h.kept, h.item]
        rfl
      exact hlive

theorem At.next_kept_last (h : At it kept x []) : AtEnd it.next (kept ++ [x]) := by
  obtain ⟨hbegin, hcurr, hend⟩ := h.bounds
  rw [next_eof (skipMarked_of_nil hcurr h.rest)]
  have hlast : (it.mLast + 1).toNat = it.mCurr + 1 := by
    rw [h.last]
    omega
  refine ⟨by simp [isEof], by simp only [hlast]; omega, ?_, .inr ?_⟩
  · have hlive : live it.item it.mBegin (it.mCurr + 1) = kept ++ [x] := by
      rw [← live_append hbegin (Nat.le_succ it.mCurr), live_succ, h.kept, h.item]
      rfl
    simp only [hlast]
    exact hlive
  · simp only [hlast]
    rcases h.first with hfirst | ⟨y, hy, hlt⟩
    · exact ⟨x, by rw [← h.item, ← hfirst]; rfl, by omega⟩
    · exact ⟨y, hy, by omega⟩

theorem item_mark (it : MarkIterator α) (i : Nat) : it.mark.item i = if it.mCurr = i then none else it.item i := by
  rw [mark, MarkIterator.item, item_set]
  by_cases hi : it.mCurr = i
  · subst hi
    by_cases hlt : it.mCurr < it.items.length
    · simp [hlt]
    · simp [hlt, MarkIterator.item]
  · simp [hi]

theorem item_mark_of_ne {i : Nat} (h : i ≠ it.mCurr) : it.mark.item i = it.item i := by
  rw [item_mark, if_neg h.symm]

theorem length_mark (it : MarkIterator α) : it.mark.items.length = it.items.length := length_set

theorem At.next_mark (h : At it kept x (y :: rest)) : At it.mark.next kept y rest := by
  obtain ⟨hbegin, hcurr, hend⟩ := h.bounds
  have hlive : live it.mark.item (it.mCurr + 1) it.mEnd = y :: rest := by
    rw [← h.rest]
    exact live_congr fun i hi _ => item_mark_of_ne (by omega)
  obtain ⟨k, hk, hck, hke, hitem, hskipped, hrest⟩ := skipMarked_of_cons hlive
  have hne : k ≠ it.mark.mEnd := by simp only [mark]; omega
  by_cases hfirst : it.mBegin = it.mCurr
  · obtain rfl : kept = [] := h.kept_nil_iff.mpr hfirst
    rw [next_marked hk hitem hne hfirst ((item_mark it it.mBegin).trans (if_pos hfirst.symm))]
    exact ⟨⟨Nat.le_refl _, hke, Nat.le_trans hend (Nat.le_of_eq (length_mark it).symm)⟩, .inl rfl,
      live_self _ _, hitem, hrest, rfl⟩
  · rw [next_later hk hitem hne hfirst]
    obtain ⟨z, hz, hlt⟩ := h.first.resolve_left hfirst
    refine ⟨⟨show it.mBegin ≤ k by omega, hke, Nat.le_trans hend (Nat.le_of_eq (length_mark it).symm)⟩,
      .inr ⟨z, (item_mark_of_ne (i := it.mBegin) (by omega)).trans hz, show it.mBegin < k by omega⟩, ?_, hitem,
      hrest, rfl⟩
    have hlive' : live it.mark.item it.mBegin k = kept := by
      rw [← live_append hbegin (by omega : it.mCurr ≤ k), ← live_append (Nat.le_succ it.mCurr) hck, live_succ,
        live_of_marked hskipped, item_mark, if_pos rfl, ← h.kept]
      simp only [Option.toList_none, append_nil]
      exact live_congr fun i _ hi => item_mark_of_ne (by omega)
    exact hlive'

theorem At.next_mark_last (h : At it kept x []) : AtEnd it.mark.next kept := by
  obtain ⟨hbegin, hcurr, hend⟩ := h.bounds
  have hlive : live it.mark.item (it.mCurr + 1) it.mEnd = [] := by
    rw [← h.rest]
    exact live_congr fun i hi _ => item_mark_of_ne (by omega)
  have hlast : (it.mark.mLast + 1).toNat = it.mCurr := by
    simp only [mark, h.last, if_true]
    omega
  have hskip : it.mark.skipMarked (it.mark.mCurr + 1) (it.mark.mEnd - (it.mark.mCurr + 1)) = it.mark.mEnd :=
    skipMarked_of_nil hcurr hlive
  rw [next_eof hskip]
  refine ⟨by simp [isEof], by simp only [hlast, length_mark]; omega, ?_, ?_⟩
  · simp only [hlast]
    exact (live_congr fun i _ hi => item_mark_of_ne (by omega)).trans h.kept
  · simp only [hlast]
    rcases h.first with hfirst | ⟨y, hy, hlt⟩
    · exact .inl ⟨h.kept_nil_iff.mpr hfirst, Nat.le_of_eq hfirst.symm⟩
    · exact .inr ⟨y, (item_mark_of_ne (i := it.mBegin) (by omega)).trans hy, hlt⟩

def Ready (it : MarkIterator α) : List α → Prop
  | [] => it.isEmpty = true
  | x :: rest => At it [] x rest

theorem ready_create (items : List α) : (create items).Ready items := by
  cases items with
  | nil => rfl
  | cons x rest => exact at_create x rest

theorem AtEnd.ready_rewind (h : AtEnd it kept) : it.rewind.Ready kept := by
  cases kept with
  | nil =>
    rcases h.first with ⟨-, hle⟩ | ⟨y, hy, hlt⟩
    · simp [Ready, isEmpty, MarkIterator.rewind, hle]
    · have hmem : y ∈ live it.item it.mBegin (it.mLast + 1).toNat := mem_live.mpr ⟨_, Nat.le_refl _, hlt, hy⟩
      rw [h.left] at hmem
      exact nomatch hmem
  | cons x rest =>
    obtain ⟨y, hy, hlt⟩ := h.first.resolve_left fun h => nomatch h.1
    have hlive := h.left
    rw [← live_append (Nat.le_succ it.mBegin) hlt, live_succ, hy] at hlive
    obtain ⟨rfl, hrest⟩ := cons.inj hlive
    exact ⟨⟨Nat.le_refl _, hlt, h.bound⟩, .inl rfl, live_self _ _, hy, hrest, rfl⟩

theorem Ready.isEmpty_eq {items : List α} (h : it.Ready items) : it.isEmpty = items.isEmpty := by
  cases items with
  | nil => exact h
  | cons x rest => exact At.not_isEmpty h

theorem At.rest_lt (h : At it kept x rest) : rest.length < it.items.length := by
  have hlength : (live it.item (it.mCurr + 1) it.mEnd).length ≤ it.mEnd - (it.mCurr + 1) := by
    simpa [live] using length_filterMap_le it.item (range' (it.mCurr + 1) (it.mEnd - (it.mCurr + 1)))
  rw [h.rest] at hlength
  have := h.bounds
  omega

def pass (p : α → Bool) : Nat → MarkIterator α → List α × MarkIterator α
  | 0, it => ([], it)
  | n + 1, it =>
    if it.isEof then ([], it)
    else
      match it.item it.mCurr with
      | none => pass p n it.next
      | some x =>
        let (visited, it') := pass p n (if p x then it.mark.next else it.next)
        (x :: visited, it')

def passes : MarkIterator α → List (α → Bool) → List (List α) × MarkIterator α
  | it, [] => ([], it)
  | it, p :: ps =>
    if it.isEmpty then ([], it)
    else
      let (visited, it') := pass p it.items.length it
      let (more, it'') := passes it'.rewind ps
      (visited :: more, it'')

def visits (items : List α) : List (α → Bool) → List (List α)
  | [] => []
  | p :: ps => if items.isEmpty then [] else items :: visits (items.filter fun x => !p x) ps

theorem pass_spec (p : α → Bool) {n : Nat} (h : At it kept x rest) (hn : rest.length < n) :
    ∃ it', pass p n it = (x :: rest, it') ∧ AtEnd it' (kept ++ (x :: rest).filter fun x => !p x) := by
  have hstop : ∀ n (it : MarkIterator α), it.isEof = true → pass p n it = ([], it) := by
    intro n it heof
    cases n with
    | zero => rfl
    | succ n => rw [pass, if_pos heof]
  induction rest generalizing it kept x n with
  | nil =>
    obtain ⟨n, rfl⟩ := Nat.exists_eq_succ_of_ne_zero (Nat.ne_zero_of_lt hn)
    rw [pass, if_neg (by rw [h.not_isEof]; exact Bool.false_ne_true)]
    simp only [h.item]
    by_cases hp : p x = true
    · have hend := h.next_mark_last
      rw [if_pos hp, hstop _ _ hend.eof]
      exact ⟨_, rfl, by simpa [hp] using hend⟩
    · have hend := h.next_kept_last
      rw [if_neg hp, hstop _ _ hend.eof]
      exact ⟨_, rfl, by simpa [hp] using hend⟩
  | cons y rest ih =>
    obtain ⟨n, rfl⟩ := Nat.exists_eq_succ_of_ne_zero (Nat.ne_zero_of_lt hn)
    rw [pass, if_neg (by rw [h.not_isEof]; exact Bool.false_ne_true)]
    simp only [h.item]
    have hn' : rest.length < n := by simpa using hn
    by_cases hp : p x = true
    · obtain ⟨it', hpass, hend⟩ := ih h.next_mark hn'
      rw [if_pos hp, hpass]
      refine ⟨it', rfl, ?_⟩
      rwa [filter_cons_of_neg (by simp [hp])]
    · obtain ⟨it', hpass, hend⟩ := ih h.next_kept hn'
      rw [if_neg hp, hpass]
      refine ⟨it', rfl, ?_⟩
      rwa [filter_cons_of_pos (by simp [hp]), append_cons]

theorem passes_spec {items : List α} (h : it.Ready items) (ps : List (α → Bool)) :
    (it.passes ps).1 = visits items ps ∧
      ((it.passes ps).2.isEmpty = true ↔ ∀ x ∈ items, ∃ p ∈ ps, p x = true) := by
  induction ps generalizing it items with
  | nil =>
    refine ⟨rfl, ?_⟩
    rw [passes, h.isEmpty_eq, List.isEmpty_iff]
    exact ⟨fun hnil x hx => absurd (hnil ▸ hx) not_mem_nil, fun hall =>
      eq_nil_iff_forall_not_mem.mpr fun x hx => nomatch hall x hx⟩
  | cons p ps ih =>
    rw [passes, visits, h.isEmpty_eq]
    cases items with
    | nil => simpa using h.isEmpty_eq
    | cons x rest =>
      obtain ⟨it', hpass, hend⟩ := pass_spec p h (At.rest_lt h)
      obtain ⟨hvisits, hempty⟩ := ih hend.ready_rewind
      rw [hpass]
      refine ⟨congrArg _ hvisits, hempty.trans ?_⟩
      rw [nil_append]
      simp only [mem_filter, Bool.not_eq_true', and_imp, mem_cons, exists_eq_or_imp]
      constructor
      · intro hall z hz
        cases hpz : p z with
        | true => exact .inl rfl
        | false => exact .inr (hall z hz hpz)
      · intro hall z hz hpz
        refine (hall z hz).resolve_left ?_
        rw [hpz]
        exact Bool.false_ne_true

end MarkIterator

end Firebird.Cch
