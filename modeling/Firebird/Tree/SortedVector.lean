import Firebird.Lib.SortedSearch

/-! # Sorted pages -/

namespace Firebird.Tree

open Lib List

variable {α κ : Type} [LinearOrder κ] {generate : α → κ} {k : κ} {data A B : List α} {d x b : α} {pos : Nat}

namespace SortedVector

/-- `SortedVector::find`: whether some item has the key, and the place of the first that is not below it. -/
def find (d : α) (generate : α → κ) (data : List α) (item : κ) : Bool × Nat :=
  let pos := bisect (fun temp => decide (generate (data.getD temp d) < item)) 0 data.length
  (decide (pos ≠ data.length ∧ ¬item < generate (data.getD pos d)), pos)

theorem find_present (hA : ∀ a ∈ A, generate a < k) (hb : generate b = k) (hB : ∀ c ∈ B, k < generate c) :
    find d generate (A ++ b :: B) k = (true, A.length) := by
  have hpos := bisect_append (d := d) hA (B := b :: B) (forall_mem_cons.mpr ⟨hb.ge, fun c hc => (hB c hc).le⟩)
  have hitem : (A ++ b :: B).getD A.length d = b := by
    rw [getD_append_right A _ d _ (Nat.le_refl _), Nat.sub_self]
    rfl
  have hlen : A.length ≠ (A ++ b :: B).length := by
    rw [length_append, length_cons]
    omega
  simp only [find, hpos, hitem, hb, lt_irrefl, not_false_eq_true, and_true, hlen, ne_eq, decide_true]

theorem find_absent (hA : ∀ a ∈ A, generate a < k) (hB : ∀ c ∈ B, k < generate c) :
    find d generate (A ++ B) k = (false, A.length) := by
  have hpos := bisect_append (d := d) hA fun c hc => (hB c hc).le
  have hfound : ¬(A.length ≠ (A ++ B).length ∧ ¬k < generate ((A ++ B).getD A.length d)) := by
    rintro ⟨hlen, hge⟩
    cases B with
    | nil => exact hlen (by rw [append_nil])
    | cons c B =>
      rw [getD_append_right A _ d _ (Nat.le_refl _), Nat.sub_self] at hge
      exact hge (hB c (.head B))
  simp only [find, hpos, hfound, decide_false]

end SortedVector

/-- What stays on a full page that takes `x` in at `pos`, and what goes to the page behind it:
`x` itself if it comes last, otherwise the last item. -/
def spillRight (d : α) (count : Nat) (data : List α) (pos : Nat) (x : α) : List α × α :=
  if pos = count then (data, x)
  else ((data.take (count - 1)).insertIdx pos x, data.getD (count - 1) d)

/-- What stays on a full page that takes `x` in at `pos`, and what goes to the page before it:
`x` itself if it comes first, otherwise the first item. -/
def spillLeft (d : α) (data : List α) (pos : Nat) (x : α) : List α × α :=
  if pos = 0 then (data, x) else ((data.eraseIdx 0).insertIdx (pos - 1) x, data.getD 0 d)

theorem insertIdx_append : (A ++ B).insertIdx A.length x = A ++ x :: B := by
  induction A with
  | nil => rfl
  | cons a A ih =>
    rw [cons_append, length_cons, insertIdx_succ_cons, ih]
    rfl

theorem spillRight_eq : ∃ stays goes, spillRight d (A ++ B).length (A ++ B) A.length x = (stays, goes) ∧
    stays ++ [goes] = A ++ x :: B := by
  unfold spillRight
  split
  next hlen =>
    have hB : B = [] := eq_nil_of_length_eq_zero (by rw [length_append] at hlen; omega)
    subst hB
    exact ⟨_, _, rfl, by rw [append_nil]⟩
  next hlen =>
    obtain ⟨B', b, rfl⟩ := (eq_nil_or_concat B).resolve_left fun hB => hlen (by rw [hB, append_nil])
    rw [concat_eq_append]
    have htake : (A ++ (B' ++ [b])).take ((A ++ (B' ++ [b])).length - 1) = A ++ B' := by
      rw [← append_assoc, length_append, length_singleton, Nat.add_sub_cancel, take_left]
    have hlast : (A ++ (B' ++ [b])).getD ((A ++ (B' ++ [b])).length - 1) d = b := by
      rw [← append_assoc, length_append, length_singleton, Nat.add_sub_cancel,
        getD_append_right _ _ d _ (Nat.le_refl _), Nat.sub_self]
      rfl
    refine ⟨_, _, rfl, ?_⟩
    rw [htake, hlast, insertIdx_append, append_assoc, cons_append]

theorem spillLeft_eq : ∃ stays goes, spillLeft d (A ++ B) A.length x = (stays, goes) ∧
    goes :: stays = A ++ x :: B := by
  cases A with
  | nil => exact ⟨B, x, rfl, rfl⟩
  | cons a A =>
    refine ⟨A ++ x :: B, a, ?_, rfl⟩
    rw [spillLeft, cons_append, eraseIdx_zero, tail_cons,
      length_cons, Nat.add_sub_cancel, insertIdx_append]
    rfl

theorem spillRight_goes {stays : List α} {goes : α} (h : stays ++ [goes] = A ++ x :: B) :
    (goes = x ∧ B = []) ∨ goes ∈ B := by
  rcases eq_nil_or_concat B with rfl | ⟨B, b, rfl⟩
  · exact .inl ⟨(append_inj' h rfl).2 |> singleton_inj.mp, rfl⟩
  · rw [concat_eq_append] at *
    rw [← cons_append, ← append_assoc] at h
    have hgoes : goes = b := singleton_inj.mp (append_inj' h rfl).2
    exact .inr (hgoes ▸ mem_append_right B (.head []))

theorem spillLeft_goes {stays : List α} {goes : α} (h : goes :: stays = A ++ x :: B) :
    (goes = x ∧ A = []) ∨ goes ∈ A := by
  cases A with
  | nil => exact .inl ⟨(cons.inj h).1, rfl⟩
  | cons a A => exact .inr ((cons.inj h).1 ▸ .head A)

end Firebird.Tree
