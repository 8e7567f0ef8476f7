import Firebird.Lib.Borders

/-! # Jump tables

The table of the Knuth-Morris-Pratt search. A read outside of an array, or of an entry of the table that is not written
yet, has no result. -/

namespace Firebird.Evl

open Lib List

variable {α : Type} {x : List α} {kmpNext : List Int} {i j k m : Nat} {v : Int} {c : α}

/-- Where to go on when `x` is matched up to `k` and the next letter is not `x[k]`: the longest border behind which `x`
has another letter. -/
def Fallback (x : List α) (k : Nat) (v : Int) : Prop := Greatest (fun j => Border x j k ∧ x[j]? ≠ x[k]?) v

def Filled (x : List α) (kmpNext : List Int) (n : Nat) : Prop := ∀ k < n, ∃ v, kmpNext[k]? = some v ∧ Fallback x k v

theorem reached_iff {d : α} (hd : x[k]? = some d) (hne : d ≠ c) (hv : Fallback x k (i : Int)) :
    (j = k ∨ Border x j k) ∧ x[j]? = some c ↔ (j = i ∨ Border x j i) ∧ x[j]? = some c := by
  obtain ⟨hmax, hfound⟩ := hv
  obtain ⟨i', hi', hborder, _⟩ : ∃ i' : Nat, (i : Int) = i' ∧ Border x i' k ∧ x[i']? ≠ x[k]? := by
    rcases hfound with hnone | hfound
    · omega
    · exact hfound
  obtain rfl : i = i' := by omega
  constructor
  · rintro ⟨rfl | hj, hc⟩
    · simp_all
    · refine ⟨?_, hc⟩
      have hle : j ≤ i := by
        have h := hmax j ⟨hj, by simpa [hc, hd] using hne.symm⟩
        omega
      rcases hle.eq_or_lt with heq | hlt
      · exact Or.inl heq
      · exact Or.inr (hj.nested hborder hlt)
  · rintro ⟨rfl | hj, hc⟩
    · exact ⟨Or.inr hborder, hc⟩
    · exact ⟨Or.inr (hj.trans hborder), hc⟩

theorem fallback_of_border (hborder : Border x j k) (hmax : ∀ j', Border x j' k → j' ≤ j) (heq : x[j]? = x[k]?)
    (hv : Fallback x j v) : Fallback x k v := by
  refine hv.congr fun j' => ?_
  rw [heq]
  refine and_congr_left fun hne => ⟨fun h => ?_, fun h => h.trans hborder⟩
  rcases (hmax j' h).eq_or_lt with rfl | hlt
  · exact absurd heq hne
  · exact h.nested hborder hlt

theorem fallback_self (hborder : Border x j k) (hmax : ∀ j', Border x j' k → j' ≤ j) (hne : x[j]? ≠ x[k]?) :
    Fallback x k (j : Int) :=
  ⟨fun j' h => by exact_mod_cast hmax j' h.1, Or.inr ⟨j, rfl, hborder, hne⟩⟩

theorem Filled.push (h : Filled x kmpNext k) (hlength : kmpNext.length = k) (hv : Fallback x k v) :
    Filled x (kmpNext ++ [v]) (k + 1) := by
  intro i hi
  rcases Nat.lt_succ_iff_lt_or_eq.mp hi with hlt | rfl
  · obtain ⟨v', hv', hfallback⟩ := h i hlt
    exact ⟨v', by rw [getElem?_append_left (by omega), hv'], hfallback⟩
  · exact ⟨v, by simp [← hlength], hv⟩

variable [DecidableEq α]

def readAt {β : Type} (xs : List β) (j : Int) : Option β :=
  match j with
  | .ofNat j => xs[j]?
  | .negSucc _ => none

@[simp] theorem readAt_natCast {β : Type} (xs : List β) (j : Nat) : readAt xs (j : Int) = xs[j]? := rfl

/-- The loop `while (j > -1 && x[j] != c) j = kmpNext[j]`. -/
def fallBack (x : List α) (kmpNext : List Int) (c : α) : Nat → Int → Option Int
  | 0, _ => none
  | fuel + 1, j =>
    if j > -1 then do
      if (← readAt x j) ≠ c then
        fallBack x kmpNext c fuel (← readAt kmpNext j)
      else
        some j
    else
      some j

/-- The entry for `i`: `kmpNext[j]` where `x[i] == x[j]`, and `j` elsewhere. -/
def nextEntry (x : List α) (kmpNext : List Int) (i : Nat) (j : Int) : Option Int := do
  if (← x[i]?) = (← readAt x j) then readAt kmpNext j else some j

/-- `while (i < m - 1)`, with the number of rounds left. -/
def preKmpLoop (x : List α) : Nat → Nat → Int → List Int → Option (Nat × Int × List Int)
  | 0, i, j, kmpNext => some (i, j, kmpNext)
  | rounds + 1, i, j, kmpNext => do
    let j ← fallBack x kmpNext (← x[i]?) (kmpNext.length + 1) j
    let next ← nextEntry x kmpNext (i + 1) (j + 1)
    preKmpLoop x rounds (i + 1) (j + 1) (kmpNext ++ [next])

/-- The entries are written in their order, the last one without a look at the letter behind `x`. -/
def preKmp (x : List α) (m : Nat) : Option (List Int) := do
  let (i, j, kmpNext) ← preKmpLoop x (m - 1) 0 (-1) [-1]
  -- Nothing is read where `x` is empty: `j > -1` fails before.
  let j ← if j > -1 then do fallBack x kmpNext (← x[i]?) (kmpNext.length + 1) j else some j
  return kmpNext ++ [j + 1]

theorem fallBack_start (fuel : Nat) : fallBack x kmpNext c (fuel + 1) (-1) = some (-1) := rfl

theorem fallBack_eq (hc : x[k]? = some c) (fuel : Nat) : fallBack x kmpNext c (fuel + 1) k = some (k : Int) := by
  have hk : (k : Int) > -1 := by omega
  simp [fallBack, hk, hc]

theorem fallBack_ne {d : α} (hd : x[k]? = some d) (hne : d ≠ c) (hv : kmpNext[k]? = some v) (fuel : Nat) :
    fallBack x kmpNext c (fuel + 1) k = fallBack x kmpNext c fuel v := by
  have hk : (k : Int) > -1 := by omega
  simp [fallBack, hk, hd, hne, hv]

theorem fallBack_spec (hfilled : Filled x kmpNext (k + 1)) (hk : k < x.length) {fuel : Nat} (hfuel : k + 1 < fuel) :
    ∃ r, fallBack x kmpNext c fuel k = some r ∧ Greatest (fun j => (j = k ∨ Border x j k) ∧ x[j]? = some c) r := by
  induction k using Nat.strong_induction_on generalizing fuel with
  | _ k ih =>
    obtain ⟨fuel, rfl⟩ : ∃ n, fuel = n + 1 := Nat.exists_eq_add_of_le' (by omega)
    have hd : x[k]? = some x[k] := getElem?_eq_getElem hk
    by_cases heq : x[k] = c
    · refine ⟨k, fallBack_eq (heq ▸ hd) fuel, ?_, Or.inr ⟨k, rfl, Or.inl rfl, heq ▸ hd⟩⟩
      rintro j ⟨rfl | hj, _⟩
      · simp
      · have hlt := hj.1
        omega
    · obtain ⟨v, hv, hfallback⟩ := hfilled k (by omega)
      rw [fallBack_ne hd heq hv]
      rcases hfallback.2 with rfl | ⟨i, rfl, hborder, _⟩
      · obtain ⟨fuel, rfl⟩ : ∃ n, fuel = n + 1 := Nat.exists_eq_add_of_le' (by omega)
        refine ⟨-1, fallBack_start fuel, greatest_none ?_⟩
        rintro j ⟨rfl | hj, hc⟩
        · simp_all
        · have h := hfallback.1 j ⟨hj, by simpa [hc, hd] using Ne.symm heq⟩
          omega
      · have hlt := hborder.1
        have hless : i + 1 < fuel := by omega
        obtain ⟨r, hr, hgreatest⟩ := ih i hlt (fun k' hk' => hfilled k' (by omega)) (hlt.trans hk) hless
        exact ⟨r, hr, hgreatest.congr fun j => reached_iff hd heq hfallback⟩

theorem fallBack_border (hfilled : Filled x kmpNext (i + 1)) (hi : x[i]? = some c) (hj : Greatest (Border x · i) v)
    {fuel : Nat} (hfuel : i + 1 < fuel) :
    ∃ r, fallBack x kmpNext c fuel v = some r ∧ Greatest (Border x · (i + 1)) (r + 1) ∧ -1 ≤ r := by
  have hlength : i < x.length := (List.getElem?_eq_some_iff.mp hi).1
  have hgreatest : ∃ r, fallBack x kmpNext c fuel v = some r ∧ Greatest (fun j => Border x j i ∧ x[j]? = x[i]?) r := by
    rcases hj.2 with rfl | ⟨k, rfl, hborder⟩
    · obtain ⟨fuel, rfl⟩ : ∃ n, fuel = n + 1 := Nat.exists_eq_add_of_le' (by omega)
      refine ⟨-1, fallBack_start fuel, greatest_none ?_⟩
      rintro j ⟨hborder, _⟩
      have h := hj.1 j hborder
      omega
    · have hlt := hborder.1
      obtain ⟨r, hr, hgreatest⟩ : ∃ r, fallBack x kmpNext c fuel k = some r ∧ _ :=
        fallBack_spec (fun k' hk' => hfilled k' (by omega)) (hlt.trans hlength) (by omega)
      refine ⟨r, hr, hgreatest.congr fun j => ?_⟩
      rw [hi]
      refine and_congr_left fun _ => ⟨fun h => ?_, ?_⟩
      · have hle : j ≤ k := by
          have h := hj.1 j h
          omega
        rcases hle.eq_or_lt with heq | hlt
        · exact Or.inl heq
        · exact Or.inr (h.nested hborder hlt)
      · rintro (rfl | h)
        · exact hborder
        · exact h.trans hborder
  obtain ⟨r, hr, hmax, hfound⟩ := hgreatest
  refine ⟨r, hr, ⟨?_, ?_⟩, Greatest.lower ⟨hmax, hfound⟩⟩
  · rintro (_ | j) hborder
    · omega
    · have h := hmax j ((border_succ hlength).mp hborder)
      omega
  · rcases hfound with rfl | ⟨j, rfl, hborder⟩
    · exact Or.inr ⟨0, by simp, border_zero (Nat.succ_pos i)⟩
    · exact Or.inr ⟨j + 1, by simp, (border_succ hlength).mpr hborder⟩

theorem preKmpLoop_spec (rounds : Nat) (hlength : kmpNext.length = i + 1) (hfilled : Filled x kmpNext (i + 1))
    (hj : Greatest (Border x · i) v) (hrounds : i + rounds < x.length) :
    ∃ v' kmpNext', preKmpLoop x rounds i v kmpNext = some (i + rounds, v', kmpNext') ∧
    kmpNext'.length = i + rounds + 1 ∧
      Filled x kmpNext' (i + rounds + 1) ∧ Greatest (Border x · (i + rounds)) v' := by
  induction rounds generalizing i v kmpNext with
  | zero => exact ⟨v, kmpNext, rfl, hlength, hfilled, hj⟩
  | succ rounds ih =>
    have hi : x[i]? = some x[i] := getElem?_eq_getElem (by omega)
    have hi' : x[i + 1]? = some x[i + 1] := getElem?_eq_getElem (by omega)
    obtain ⟨r, hr, hgreatest, hlower⟩ := fallBack_border hfilled hi hj (show i + 1 < kmpNext.length + 1 by omega)
    -- The longest border of the first `i + 1` letters: there always is one, the empty one at least.
    obtain ⟨j, hrj, hborder⟩ : ∃ j : Nat, r + 1 = j ∧ Border x j (i + 1) := by
      rcases hgreatest.2 with hnone | hfound
      · omega
      · exact hfound
    have hmax : ∀ j', Border x j' (i + 1) → j' ≤ j := by
      intro j' h
      have hle := hgreatest.1 j' h
      omega
    have hlt := hborder.1
    have hjx : x[j]? = some x[j] := getElem?_eq_getElem (by omega)
    have hentry : ∃ next, nextEntry x kmpNext (i + 1) j = some next ∧ Fallback x (i + 1) next := by
      by_cases heq : x[i + 1] = x[j]
      · obtain ⟨next, hnext, hfallback⟩ := hfilled j (by omega)
        refine ⟨next, by simp [nextEntry, hi', hjx, heq, hnext], fallback_of_border hborder hmax ?_ hfallback⟩
        rw [hjx, hi', heq]
      · refine ⟨j, by simp [nextEntry, hi', hjx, heq], fallback_self hborder hmax ?_⟩
        simpa [hjx, hi'] using Ne.symm heq
    obtain ⟨next, hnext, hfallback⟩ := hentry
    obtain ⟨v', kmpNext', hloop, hlength', hfilled', hgreatest'⟩ :=
      ih (by simp [hlength]) (hfilled.push hlength hfallback) hgreatest (by omega)
    refine ⟨v', kmpNext', ?_, by omega, by rwa [show i + (rounds + 1) = i + 1 + rounds by omega],
      by rwa [show i + (rounds + 1) = i + 1 + rounds by omega]⟩
    rw [show i + (rounds + 1) = i + 1 + rounds by omega, ← hloop]
    simp [preKmpLoop, hi, hr, hrj, hnext]

/-- The finished table for the first `m` letters of `x`: where to go on after a mismatch, and after all of them were
found. -/
structure JumpTable (x : List α) (m : Nat) (kmpNext : List Int) : Prop where
  filled : Filled x kmpNext m
  length : kmpNext.length = m + 1
  found : ∃ b : Nat, kmpNext[m]? = some (b : Int) ∧ Border x b m ∧ ∀ j, Border x j m → j ≤ b

theorem preKmp_spec (hpos : 0 < m) (hm : m ≤ x.length) : ∃ kmpNext, preKmp x m = some kmpNext ∧
    JumpTable x m kmpNext := by
  have hfirst : Filled x [-1] (0 + 1) := by
    intro k hk
    obtain rfl : k = 0 := by omega
    exact ⟨-1, rfl, greatest_none fun j h => absurd h.1.1 (Nat.not_lt_zero j)⟩
  obtain ⟨v, kmpNext, hloop, hlength, hfilled, hgreatest⟩ := preKmpLoop_spec (m - 1) rfl hfirst
    (greatest_none fun j h => absurd h.1 (Nat.not_lt_zero j)) (by omega)
  have hi : 0 + (m - 1) = m - 1 := Nat.zero_add _
  have hsucc : m - 1 + 1 = m := Nat.succ_pred_eq_of_pos hpos
  rw [hi] at hloop hlength hfilled hgreatest
  have hlast : x[m - 1]? = some x[m - 1] := getElem?_eq_getElem (by omega)
  obtain ⟨r, hr, hborder, _⟩ := fallBack_border hfilled hlast hgreatest (show m - 1 + 1 < kmpNext.length + 1 by omega)
  rw [hsucc] at hborder hlength hfilled
  obtain ⟨b, hb, hfound⟩ : ∃ b : Nat, r + 1 = b ∧ Border x b m := by
    rcases hborder.2 with hnone | hfound
    · omega
    · exact hfound
  have hpreKmp : preKmp x m = some (kmpNext ++ [r + 1]) := by
    by_cases hv : v > -1
    · simp [preKmp, hloop, hlast, hr, hv]
    · obtain rfl : v = r := by simpa [fallBack, hv] using hr
      simp [preKmp, hloop, hv]
  refine ⟨kmpNext ++ [r + 1], hpreKmp, ?_, by simp [hlength], b, ?_, hfound, ?_⟩
  · intro k hk
    obtain ⟨v', hv', hfallback⟩ := hfilled k hk
    exact ⟨v', by rw [getElem?_append_left (by omega), hv'], hfallback⟩
  · rw [hb]
    simp [hlength]
  · intro j hj
    have hle := hborder.1 j hj
    omega

/-- One letter more, with `k` letters of the word matched before: the longest beginning of the word with which the text
ends now. -/
theorem JumpTable.fallBack (h : JumpTable x m kmpNext) (hk : k < m) (hm : m ≤ x.length) :
    ∃ r, Evl.fallBack x kmpNext c (kmpNext.length + 1) k = some r ∧ ∃ k' : Nat, r + 1 = k' ∧ k' ≤ k + 1 ∧
      EndsWith (x.take m) ((x.take m).take k ++ [c]) k' ∧ ∀ n, EndsWith (x.take m) ((x.take m).take k ++ [c]) n →
      n ≤ k' := by
  obtain ⟨r, hr, hgreatest⟩ := fallBack_spec (c := c) (fun n hn => h.filled n (by omega)) (show k < x.length by omega)
    (show k + 1 < kmpNext.length + 1 by rw [h.length]; omega)
  -- The candidates of the table are the beginnings that go on with `c`.
  have hiff : ∀ n, EndsWith (x.take m) ((x.take m).take k ++ [c]) (n + 1) ↔
      (n = k ∨ Border x n k) ∧ x[n]? = some c := by
    intro n
    rw [endsWith_concat, endsWith_take_iff (by simp; omega), ← border_take hk.le]
    refine and_congr_right fun hn => ?_
    rw [getElem?_take_of_lt]
    rcases hn with rfl | hborder
    · exact hk
    · exact hborder.1.trans hk
  obtain ⟨hmax, hfound⟩ := hgreatest
  refine ⟨r, hr, (r + 1).toNat, by omega, ?_, ?_, ?_⟩
  · rcases hfound with rfl | ⟨n, rfl, hn | hn, -⟩
    · simp
    · omega
    · have hle := hn.1
      omega
  · rcases hfound with rfl | ⟨n, rfl, hn⟩
    · exact ⟨Nat.zero_le _, by simp⟩
    · exact (hiff n).mpr hn
  · rintro (_ | n) hn
    · omega
    · have hle := hmax n ((hiff n).mp hn)
      omega

end Firebird.Evl
