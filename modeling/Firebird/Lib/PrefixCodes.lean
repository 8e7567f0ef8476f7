import Mathlib

/-! # Words of a prefix code

A prefix code says of a list whether a word of the code stands at its front, and how long it is; what follows the word
does not matter. -/

namespace Firebird.Lib

open List

structure PrefixCode (α : Type*) where
  /-- The length of the word at the front. -/
  front : List α → Option Nat
  front_bounds : ∀ {text n}, front text = some n → 0 < n ∧ n ≤ text.length
  front_take : ∀ {text n}, front text = some n → ∀ more, front (text.take n ++ more) = some n

namespace PrefixCode
variable {α : Type*} (code : PrefixCode α)

def rest (text : List α) : List α :=
  match _hfront : code.front text with
  | none => text
  | some n => rest (text.drop n)
termination_by text.length
decreasing_by
  have := code.front_bounds _hfront
  rw [length_drop]
  omega

inductive WellFormed : List α → Prop
  | nil : WellFormed []
  | word {text : List α} {n : Nat} : code.front text = some n → WellFormed (text.drop n) → WellFormed text

variable {code} {text more : List α} {n : Nat}

theorem front_append (h : code.front text = some n) (more : List α) : code.front (text ++ more) = some n := by
  have := code.front_take h (text.drop n ++ more)
  rwa [← append_assoc, take_append_drop] at this

theorem front_nil (code : PrefixCode α) : code.front [] = none := by
  cases h : code.front [] with
  | none => rfl
  | some n =>
    obtain ⟨hpos, hle⟩ := code.front_bounds h
    rw [length_nil] at hle
    omega

theorem rest_of_none (h : code.front text = none) : code.rest text = text := by
  rw [rest.eq_def]
  split
  · rfl
  · rename_i n hn
    rw [h] at hn
    cases hn

theorem rest_of_some (h : code.front text = some n) : code.rest text = code.rest (text.drop n) := by
  rw [rest.eq_def]
  split
  · rename_i hnone
    rw [h] at hnone
    cases hnone
  · rename_i m hm
    rw [h] at hm
    cases hm
    rfl

@[simp] theorem rest_nil (code : PrefixCode α) : code.rest [] = [] := rest_of_none code.front_nil

theorem wordInduction (code : PrefixCode α) {motive : List α → Prop}
    (none : ∀ text, code.front text = none → motive text)
    (word : ∀ text n, code.front text = some n → motive (text.drop n) → motive text) (text : List α) : motive text := by
  cases h : code.front text with
  | none => exact none text h
  | some n => exact word text n h (wordInduction code none word (text.drop n))
termination_by text.length
decreasing_by
  have := code.front_bounds h
  rw [length_drop]
  omega

theorem rest_suffix (code : PrefixCode α) (text : List α) : code.rest text <:+ text := by
  induction text using code.wordInduction with
  | none text h =>
    exact (rest_of_none h).symm ▸ suffix_refl text
  | word text n h ih =>
    rw [rest_of_some h]
    exact ih.trans (drop_suffix n text)

theorem rest_length_lt (h : code.front text ≠ none) : (code.rest text).length < text.length := by
  obtain ⟨n, hn⟩ := Option.ne_none_iff_exists'.mp h
  have hbounds := code.front_bounds hn
  have hle := (code.rest_suffix (text.drop n)).length_le
  rw [rest_of_some hn]
  rw [length_drop] at hle
  omega

theorem wellFormed_word_iff (h : code.front text = some n) : code.WellFormed text ↔ code.WellFormed (text.drop n) := by
  constructor
  · intro hwell
    cases hwell with
    | nil =>
      rw [code.front_nil] at h
      cases h
    | word hm hrest =>
      rw [h] at hm
      cases hm
      exact hrest
  · exact .word h

theorem wellFormed_iff : code.WellFormed text ↔ code.rest text = [] := by
  induction text using code.wordInduction with
  | none text h =>
    rw [rest_of_none h]
    constructor
    · intro hwell
      cases hwell with
      | nil => rfl
      | word hm _ =>
        rw [h] at hm
        cases hm
    · rintro rfl
      exact .nil
  | word text n h ih => rw [wellFormed_word_iff h, rest_of_some h, ih]

/-- With more behind it, a text is well formed exactly if what is left of it is, with the same behind it. -/
theorem wellFormed_append_iff (code : PrefixCode α) (text more : List α) :
    code.WellFormed (text ++ more) ↔ code.WellFormed (code.rest text ++ more) := by
  induction text using code.wordInduction with
  | none text h => rw [rest_of_none h]
  | word text n h ih =>
    have hle := (code.front_bounds h).2
    rw [wellFormed_word_iff (front_append h more), drop_append_of_le_length hle, rest_of_some h, ih]

/-- It cannot be said yet how a text that is not empty begins, or it begins wrongly. -/
def Undecided (code : PrefixCode α) (text : List α) : Prop := text ≠ [] ∧ code.front text = none

instance [DecidableEq α] (code : PrefixCode α) (text : List α) : Decidable (code.Undecided text) :=
  inferInstanceAs (Decidable (_ ∧ _))

theorem rest_ne_nil (h : code.Undecided text) : code.rest text ≠ [] := by
  rw [rest_of_none h.2]
  exact h.1

/-- A scan that goes on behind each word and stops where none stands gives the position of what is left. -/
theorem scan_eq {scan : Nat → List α → Option Nat} (nil : ∀ pos, scan pos [] = none)
    (stop : ∀ pos text, text ≠ [] → code.front text = none → scan pos text = some pos)
    (word : ∀ pos text n, code.front text = some n → scan pos text = scan (pos + n) (text.drop n))
    (pos : Nat) (text : List α) :
    scan pos text = if code.rest text = [] then none else some (pos + (text.length - (code.rest text).length)) := by
  induction text using code.wordInduction generalizing pos with
  | none text h =>
    rw [rest_of_none h]
    by_cases hnil : text = []
    · rw [if_pos hnil, hnil, nil]
    · rw [if_neg hnil, stop pos text hnil h, Nat.sub_self, Nat.add_zero]
  | word text n h ih =>
    obtain ⟨_, hle⟩ := code.front_bounds h
    have hrest := (code.rest_suffix (text.drop n)).length_le
    rw [word pos text n h, rest_of_some h, ih, length_drop]
    rw [length_drop] at hrest
    have hpos : pos + n + (text.length - n - (code.rest (text.drop n)).length) =
        pos + (text.length - (code.rest (text.drop n)).length) := by omega
    rw [hpos]

theorem drop_rest (code : PrefixCode α)
    (text : List α) : text.drop (text.length - (code.rest text).length) = code.rest text := by
  obtain ⟨words, hwords⟩ := code.rest_suffix text
  have hlength : words.length + (code.rest text).length = text.length := by rw [← length_append, hwords]
  calc text.drop (text.length - (code.rest text).length)
      = (words ++ code.rest text).drop words.length := by rw [hwords]; congr 1; omega
    _ = code.rest text := drop_left

end PrefixCode

end Firebird.Lib
