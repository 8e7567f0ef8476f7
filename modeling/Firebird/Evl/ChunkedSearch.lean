import Firebird.Evl.PreKmp

/-! # STARTING and CONTAINING

The evaluators get the text in chunks, and stop when the answer cannot change any more. -/

namespace Firebird.Evl

open Lib List

variable {α σ : Type}

/-- The chunks are given to `processNextChunk` until it returns false. -/
def feed (processNextChunk : σ → List α → Option (Bool × σ)) : σ → List (List α) → Option σ
  | e, [] => some e
  | e, data :: chunks => do
    let (more, e) ← processNextChunk e data
    if more then feed processNextChunk e chunks else some e

variable [DecidableEq α]

structure StartsEvaluator (α : Type) where
  pattern : List α
  offset : Nat
  result : Bool

namespace StartsEvaluator

def reset (e : StartsEvaluator α) : StartsEvaluator α := { e with result := true, offset := 0 }

def new (pattern : List α) : StartsEvaluator α := reset ⟨pattern, 0, true⟩

def getResult (e : StartsEvaluator α) : Bool := e.offset ≥ e.pattern.length && e.result

def processNextChunk (e : StartsEvaluator α) (data : List α) : Bool × StartsEvaluator α :=
  if !e.result || e.offset ≥ e.pattern.length then
    (false, e)
  else
    let compLength := min data.length (e.pattern.length - e.offset)
    if data.take compLength ≠ (e.pattern.drop e.offset).take compLength then
      (false, { e with result := false })
    else
      (e.offset + compLength < e.pattern.length, { e with offset := e.offset + compLength })

end StartsEvaluator

structure ContainsEvaluator (α : Type) where
  pattern : List α
  offset : Int
  result : Bool
  kmpNext : List Int

namespace ContainsEvaluator

def reset (e : ContainsEvaluator α) : ContainsEvaluator α := { e with offset := 0, result := e.pattern.length == 0 }

def new (pattern : List α) : Option (ContainsEvaluator α) := do
  return reset ⟨pattern, 0, false, ← preKmp pattern pattern.length⟩

def getResult (e : ContainsEvaluator α) : Bool := e.result

def search (e : ContainsEvaluator α) : List α → Option (Bool × ContainsEvaluator α)
  | [] => some (true, e)
  | c :: data => do
    let offset := (← fallBack e.pattern e.kmpNext c (e.kmpNext.length + 1) e.offset) + 1
    if offset ≥ e.pattern.length then
      some (false, { e with offset, result := true })
    else
      search { e with offset } data

def processNextChunk (e : ContainsEvaluator α) (data : List α) : Option (Bool × ContainsEvaluator α) :=
  if e.result then some (false, e) else e.search data

end ContainsEvaluator

variable {x w data : List α} {kmpNext : List Int} {k : Nat}

/-! ### STARTING -/

theorem starts_stopped {e e' : StartsEvaluator α} (h : e.processNextChunk data = (false, e')) (data' : List α) :
    e'.processNextChunk data' = (false, e') := by
  unfold StartsEvaluator.processNextChunk at h
  split at h
  · cases h
    rename_i hstop
    exact if_pos hstop
  · dsimp only at h
    split at h
    · cases h
      rfl
    · rename_i hstop _
      obtain ⟨hend, rfl⟩ := Prod.mk.inj h
      simp only [decide_eq_false_iff_not, not_lt] at hend
      exact if_pos (by simpa using Or.inr hend)

/-- With `k` letters of the pattern found, the rest of it has to be a prefix of the rest of the text. -/
theorem feed_starts (chunks : List (List α)) (hk : k ≤ x.length) :
    ∃ f, feed (fun e data => some (StartsEvaluator.processNextChunk e data)) ⟨x, k, true⟩ chunks = some f ∧
      (f.getResult = true ↔ x.drop k <+: chunks.flatten) ∧ f.pattern = x := by
  induction chunks generalizing k with
  | nil =>
    refine ⟨_, rfl, ?_, rfl⟩
    simp [StartsEvaluator.getResult, drop_eq_nil_iff]
  | cons data chunks ih =>
    rw [feed, flatten_cons]
    by_cases hend : k ≥ x.length
    · refine ⟨⟨x, k, true⟩, by simp [StartsEvaluator.processNextChunk, hend], ?_, rfl⟩
      simp [StartsEvaluator.getResult, hend, drop_eq_nil_of_le hend]
    -- What is compared is the shorter of the two, the chunk and the rest of the pattern.
    obtain ⟨s, hs, hshort⟩ : ∃ s, x.drop k = s ∧ s.length = x.length - k := ⟨_, rfl, length_drop⟩
    simp only [StartsEvaluator.processNextChunk, hs, ← hshort, Bool.not_true, Bool.false_or, decide_eq_true_eq,
      if_neg hend, Option.bind_eq_bind, Option.bind_some]
    split
    · rename_i hne
      refine ⟨⟨x, k, false⟩, rfl, iff_of_false (by simp [StartsEvaluator.getResult]) fun hstarts => hne ?_, rfl⟩
      have htake := prefix_iff_eq_take.mp (hstarts.take (min data.length s.length))
      rw [take_append_of_le_length (Nat.min_le_left ..), length_take, take_take,
        Nat.min_eq_left (Nat.min_le_right ..)] at htake
      rw [htake, Nat.min_self]
    · rename_i heq
      rw [not_not] at heq
      rcases Nat.lt_or_ge data.length s.length with hlt | hle
      · rw [Nat.min_eq_left hlt.le, take_length] at heq
        obtain ⟨t, ht⟩ : ∃ t, s = data ++ t :=
          ⟨s.drop data.length, by rw [← take_append_drop data.length s, ← heq, drop_left]⟩
        obtain ⟨f, hf, hanswer, hpattern⟩ := ih (show k + data.length ≤ x.length by omega)
        refine ⟨f, ?_, ?_, hpattern⟩
        · rw [Nat.min_eq_left hlt.le, if_pos (by simp; omega)]
          exact hf
        · rw [hanswer, ← drop_drop, hs, ht, drop_left, prefix_append_right_inj]
      · rw [Nat.min_eq_right hle, take_length] at heq
        refine ⟨⟨x, k + s.length, true⟩, by simp [Nat.min_eq_right hle]; omega, ?_, rfl⟩
        refine iff_of_true (by simp [StartsEvaluator.getResult]; omega) ?_
        exact heq ▸ ( take_prefix s.length data).trans (prefix_append data _)

/-! ### CONTAINING -/

theorem contains_stopped {e e' : ContainsEvaluator α} (h : e.processNextChunk data = some (false, e'))
    (data' : List α) : e'.processNextChunk data' = some (false, e') := by
  suffices hresult : e'.result = true from if_pos hresult
  unfold ContainsEvaluator.processNextChunk at h
  split at h
  · cases h
    assumption
  · induction data generalizing e with
    | nil => cases h
    | cons c data ih =>
      rw [ContainsEvaluator.search, Option.bind_eq_bind, Option.bind_eq_some_iff] at h
      obtain ⟨r, -, h⟩ := h
      dsimp only at h
      split at h
      · cases h
        rfl
      · exact ih ‹_› h

omit [DecidableEq α] in
theorem infix_iff_search : x <:+: w ↔ w ∈ (⊤ : Language α) * ({x} * ⊤) := by
  rw [mem_search_iff]
  constructor
  · rintro ⟨p, v, rfl⟩
    exact ⟨p, v, rfl, trivial⟩
  · rintro ⟨p, v, rfl, -⟩
    exact ⟨p, v, rfl⟩

/-- The pattern is found, or `k'` letters of it are all that the rest of the text needs to know. -/
theorem search_spec (htable : JumpTable x x.length kmpNext) (hk : k < x.length) :
    (∃ offset, (⟨x, k, false, kmpNext⟩ : ContainsEvaluator α).search data = some (false, ⟨x, offset, true, kmpNext⟩) ∧
      x <:+: x.take k ++ data) ∨
    ∃ k' < x.length, (⟨x, k, false, kmpNext⟩ : ContainsEvaluator α).search data = some (true, ⟨x, k', false, kmpNext⟩) ∧
      ∀ w, x <:+: x.take k ++ (data ++ w) ↔ x <:+: x.take k' ++ w := by
  induction data generalizing k with
  | nil => exact .inr ⟨k, hk, rfl, fun w => Iff.rfl⟩
  | cons c data ih =>
    obtain ⟨r, hr, k', hk', hle, hends, hlongest⟩ := htable.fallBack (c := c) hk (Nat.le_refl _)
    rw [take_length] at hends hlongest
    have hsplit : ∀ w, x.take k ++ (c :: w) = x.take k ++ [c] ++ w := fun w => by simp
    simp only [ContainsEvaluator.search, hr, Option.bind_eq_bind, Option.bind_some, hk']
    by_cases hfound : x.length ≤ k'
    · refine .inl ⟨k', if_pos (by exact_mod_cast hfound), ?_⟩
      have hsuffix := hends.2
      rw [take_of_length_le hfound] at hsuffix
      rw [hsplit]
      exact hsuffix.isInfix.trans (prefix_append _ _).isInfix
    · have hcut : ∀ w, x <:+: x.take k ++ (c :: w) ↔ x <:+: x.take k' ++ w := fun w => by
        rw [hsplit, infix_iff_search, infix_iff_search]
        exact search_cut_within hends hlongest (by omega) (by simp; omega)
      rw [if_neg (by omega)]
      rcases ih (Nat.lt_of_not_le hfound) with ⟨offset, hsearch, hin⟩ | ⟨k'', hk'', hsearch, hiff⟩
      · exact .inl ⟨offset, hsearch, (hcut data).mpr hin⟩
      · exact .inr ⟨k'', hk'', hsearch, fun w => (hcut (data ++ w)).trans (hiff w)⟩

theorem feed_contains (chunks : List (List α)) (htable : JumpTable x x.length kmpNext) (hk : k < x.length) :
    ∃ f, feed ContainsEvaluator.processNextChunk ⟨x, k, false, kmpNext⟩ chunks = some f ∧
      (f.getResult = true ↔ x <:+: x.take k ++ chunks.flatten) ∧ f.pattern = x ∧ f.kmpNext = kmpNext := by
  induction chunks generalizing k with
  | nil =>
    refine ⟨_, rfl, iff_of_false (Bool.false_ne_true) fun hin => ?_, rfl, rfl⟩
    have hlength := hin.length_le
    simp at hlength
    omega
  | cons data chunks ih =>
    rw [feed, flatten_cons]
    rcases @search_spec _ _ x data kmpNext k htable hk with ⟨offset, hsearch, hin⟩ | ⟨k', hk', hsearch, hiff⟩
    · refine ⟨⟨x, offset, true, kmpNext⟩, by simp [ContainsEvaluator.processNextChunk, hsearch],
        iff_of_true rfl ?_, rfl, rfl⟩
      rw [← append_assoc]
      exact hin.trans (prefix_append _ _).isInfix
    · obtain ⟨f, hf, hanswer, hkept⟩ := ih hk'
      exact ⟨f, by simpa [ContainsEvaluator.processNextChunk, hsearch] using hf, hanswer.trans (hiff _).symm, hkept⟩

/-- Whatever the chunks are, the answers are those of the text, no array is read outside of it, and `reset` begins anew.
-/
theorem chunked_search_spec (pattern : List α) (chunks : List (List α)) :
    (∃ e f, ContainsEvaluator.new pattern = some e ∧ feed ContainsEvaluator.processNextChunk e chunks = some f ∧
      (f.getResult = true ↔ pattern <:+: chunks.flatten) ∧ f.reset = e) ∧
    (∃ f, feed (fun e data => some (StartsEvaluator.processNextChunk e data)) (.new pattern) chunks = some f ∧
      (f.getResult = true ↔ pattern <+: chunks.flatten) ∧ f.reset = .new pattern) ∧
    (∀ (e e' : ContainsEvaluator α) (data data' : List α), e.processNextChunk data = some (false, e') →
      e'.processNextChunk data' = some (false, e')) ∧
    ∀ (e e' : StartsEvaluator α) (data data' : List α), e.processNextChunk data = (false, e') →
      e'.processNextChunk data' = (false, e') := by
  refine ⟨?_, ?_, fun _ _ _ data' h => contains_stopped h data', fun _ _ _ data' h => starts_stopped h data'⟩
  · rcases eq_or_ne pattern [] with rfl | hne
    · refine ⟨⟨[], 0, true, [-1, 0]⟩, ⟨[], 0, true, [-1, 0]⟩, rfl, ?_, iff_of_true rfl ( nil_infix ..), rfl⟩
      cases chunks <;> rfl
    · have hpos := length_pos_of_ne_nil hne
      obtain ⟨kmpNext, hkmp, htable⟩ := preKmp_spec hpos (Nat.le_refl _)
      obtain ⟨f, hf, hanswer, rfl, rfl⟩ := feed_contains chunks htable hpos
      have hresult : (f.pattern.length == 0) = false := beq_false_of_ne hpos.ne'
      refine ⟨⟨f.pattern, 0, false, f.kmpNext⟩, f, ?_, hf, by simpa using hanswer, ?_⟩
      · simp [ContainsEvaluator.new, ContainsEvaluator.reset, hkmp, hresult]
      · simp [ContainsEvaluator.reset, hresult]
  · obtain ⟨f, hf, hanswer, rfl⟩ := feed_starts (x := pattern) chunks (Nat.zero_le _)
    exact ⟨f, hf, hanswer, rfl⟩

end Firebird.Evl
