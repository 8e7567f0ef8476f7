import Mathlib

/-! # Tuples of strings as one string

Strings are cut into groups of the same length, each behind the marker of its string; a string that another one
follows is padded to whole groups. -/

namespace Firebird.Lib

open List

variable {α : Type*}

section Groups
variable (size : Nat)

/-- The string in groups of `size + 1` elements, the first `room` ones of which still belong to the group before. -/
def stuff (marker : α) : Nat → List α → List α
  | _, [] => []
  | 0, a :: l => marker :: a :: stuff marker size l
  | room + 1, a :: l => a :: stuff marker room l

def room : Nat → Nat → Nat
  | room', 0 => room'
  | 0, length + 1 => room size length
  | room' + 1, length + 1 => room room' length

def padded (pad : α) (l : List α) : List α := l ++ replicate (room size 0 l.length) pad

def paddedTuple (pad : α) : List (List α) → List (List α)
  | [] => []
  | [l] => [l]
  | l :: l' :: rest => padded size pad l :: paddedTuple pad (l' :: rest)

/-- The strings one after another; `room'` elements of the last group are to be filled before the next one. -/
def stuffTuple (pad : α) (marker : Nat → α) : Nat → Nat → List (List α) → List α
  | _, _, [] => []
  | n, room', l :: rest =>
    replicate room' pad ++ stuff size (marker n) 0 l ++ stuffTuple pad marker (n - 1) (room size 0 l.length) rest

end Groups

variable {size c : Nat} {marker pad : α} {l l' s t x y : List α}

theorem room_add (size : Nat) : ∀ c m n : Nat, room size c (m + n) = room size (room size c m) n
  | c, 0, n => by rw [Nat.zero_add, room]
  | 0, m + 1, n | c + 1, m + 1, n => by rw [Nat.add_right_comm, room, room, room_add]

theorem room_self (size : Nat) : ∀ c : Nat, room size c c = 0
  | 0 => rfl
  | c + 1 => room_self size c

theorem stuff_append (marker : α) (s t : List α) : ∀ c : Nat,
    stuff size marker c (s ++ t) = stuff size marker c s ++ stuff size marker (room size c s.length) t := by
  induction s with
  | nil => exact fun _ => by rw [nil_append, stuff, nil_append, length_nil, room]
  | cons a s ih =>
    intro c
    cases c with
    | zero | succ c => rw [cons_append, stuff, ih, length_cons]; rfl

theorem stuff_replicate (marker pad : α) : ∀ c : Nat, stuff size marker c (replicate c pad) = replicate c pad
  | 0 => rfl
  | c + 1 => by rw [replicate_succ, stuff, stuff_replicate]

theorem stuff_padded (marker pad : α) (l : List α) :
    stuff size marker 0 (padded size pad l) = stuff size marker 0 l ++ replicate (room size 0 l.length) pad := by
  rw [padded, stuff_append, stuff_replicate]

theorem room_padded (size : Nat) (pad : α) (l : List α) : room size 0 (padded size pad l).length = 0 := by
  rw [padded, length_append, length_replicate, room_add, room_self]

section Order
variable [Ord α] [Std.OrientedOrd α]

/-- The string is empty, or begins below the marker. -/
def Below (marker : α) (l : List α) : Prop := ∀ a ∈ l.head?, compare a marker = .lt

omit [Std.OrientedOrd α] in
theorem compare_below (h : Below marker x) : compare x (marker :: y) = .lt := by
  cases x with
  | nil => exact List.compare_nil_cons
  | cons a x => rw [List.compare_cons_cons, h a rfl, Ordering.lt_then]

theorem compare_swap (a b : α) : compare a b = (compare b a).swap := Std.OrientedCmp.eq_swap

theorem compare_refl (a : α) : compare a a = .eq := Std.ReflCmp.compare_self

theorem below_compare (h : Below marker y) : compare (marker :: x) y = .gt := by
  cases y with
  | nil => exact List.compare_cons_nil
  | cons a y => rw [List.compare_cons_cons, compare_swap marker a, h a rfl, Ordering.swap_lt, Ordering.gt_then]

theorem compare_stuff (marker : α) : ∀ (c : Nat) (s t : List α),
    compare (stuff size marker c s) (stuff size marker c t) = compare s t
  | _, [], [] | 0, [], _ :: _ | _ + 1, [], _ :: _ | 0, _ :: _, [] | _ + 1, _ :: _, [] => rfl
  | 0, a :: s, b :: t => by
    rw [stuff, stuff, List.compare_cons_cons, compare_refl, Ordering.eq_then, List.compare_cons_cons,
      List.compare_cons_cons, compare_stuff]
  | c + 1, a :: s, b :: t => by
    rw [stuff, stuff, List.compare_cons_cons, List.compare_cons_cons, compare_stuff]

theorem compare_stuff_append (hx : Below marker x) (hy : Below marker y) : ∀ (c : Nat) (s t : List α),
    room size c s.length = 0 → room size c t.length = 0 →
      compare (stuff size marker c s ++ x) (stuff size marker c t ++ y) =
        (compare s t).then (compare x y)
  | _, [], [], _, _ => by rfl
  | 0, [], b :: t, _, _ => by
    exact compare_below hx
  | c + 1, [], _ :: _, hs, _ => nomatch hs
  | 0, a :: s, [], _, _ => by
    exact below_compare hy
  | c + 1, _ :: _, [], _, ht => nomatch ht
  | 0, a :: s, b :: t, hs, ht => by
    rw [stuff, stuff, cons_append, cons_append, cons_append, cons_append, List.compare_cons_cons,
      compare_refl, Ordering.eq_then, List.compare_cons_cons, List.compare_cons_cons,
      compare_stuff_append hx hy size s t hs ht, Ordering.then_assoc]
  | c + 1, a :: s, b :: t, hs, ht => by
    rw [stuff, stuff, cons_append, cons_append, List.compare_cons_cons, List.compare_cons_cons,
      compare_stuff_append hx hy c s t hs ht, Ordering.then_assoc]

variable {as bs : List (List α)} {n : Nat} {markers : Nat → α}

section
variable (pad : α) (markers : Nat → α)

omit [Ord α] [Std.OrientedOrd α] in
theorem stuffTuple_room (n c : Nat) (l : List α) (rest : List (List α)) :
    stuffTuple size pad markers n c (l :: rest) = replicate c pad ++ stuffTuple size pad markers n 0 (l :: rest) := by
  rw [stuffTuple, stuffTuple, replicate_zero, nil_append, append_assoc]

omit [Ord α] [Std.OrientedOrd α] in
theorem stuffTuple_cons_cons (n : Nat) (l l' : List α) (rest : List (List α)) :
    stuffTuple size pad markers n 0 (l :: l' :: rest) =
      stuff size (markers n) 0 (padded size pad l) ++ stuffTuple size pad markers (n - 1) 0 (l' :: rest) := by
  rw [stuffTuple, stuffTuple_room, stuff_padded, replicate_zero, nil_append, append_assoc]

omit [Ord α] [Std.OrientedOrd α] in
theorem stuffTuple_singleton (n : Nat) (l : List α) :
    stuffTuple size pad markers n 0 [l] = stuff size (markers n) 0 l := by
  rw [stuffTuple, stuffTuple, replicate_zero, nil_append, append_nil]

end

omit [Std.OrientedOrd α] in
theorem below_stuffTuple (h : ∀ k ≤ n, compare (markers k) marker = .lt) (pad : α) (as : List (List α)) :
    Below marker (stuffTuple size pad markers n 0 as) := by
  induction as generalizing n with
  | nil => exact nofun
  | cons l rest ih =>
    have hrest := ih fun k hk => h k (Nat.le_trans hk (Nat.sub_le n 1))
    cases l with
    | nil =>
      cases rest with
      | nil => exact nofun
      | cons l' rest => exact hrest
    | cons a l =>
      intro b hb
      obtain rfl : markers n = b := Option.some.inj hb
      exact h n (Nat.le_refl n)

theorem compare_stuffTuple (pad : α) (hlength : as.length = bs.length) (hn : as.length ≤ n)
    (hmarkers : ∀ i j, i < j → j ≤ n → compare (markers i) (markers j) = .lt) :
    compare (stuffTuple size pad markers n 0 as) (stuffTuple size pad markers n 0 bs) =
      compare (paddedTuple size pad as) (paddedTuple size pad bs) := by
  induction as generalizing bs n with
  | nil =>
    obtain rfl := eq_nil_of_length_eq_zero hlength.symm
    rfl
  | cons a as ih =>
    match as, bs with
    | _, [] => exact nomatch hlength
    | [], [b] =>
      rw [stuffTuple_singleton, stuffTuple_singleton, compare_stuff, paddedTuple, paddedTuple, List.compare_cons_cons,
        List.compare_nil_nil, Ordering.then_eq]
    | [], _ :: _ :: _ | _ :: _, [_] => exact nomatch hlength
    | a' :: as, b :: b' :: bs =>
      have hpos : n - 1 < n := Nat.sub_lt (Nat.lt_of_lt_of_le (Nat.succ_pos _) hn) Nat.one_pos
      have hbelow : ∀ cs, Below (markers n) (stuffTuple size pad markers (n - 1) 0 cs) := fun cs =>
        below_stuffTuple (fun k hk => hmarkers k n (Nat.lt_of_le_of_lt hk hpos) (Nat.le_refl n)) pad cs
      have hrest : compare (stuffTuple size pad markers (n - 1) 0 (a' :: as))
          (stuffTuple size pad markers (n - 1) 0 (b' :: bs)) = _ :=
        ih (Nat.succ.inj hlength) (Nat.le_sub_of_add_le hn) fun i j hij hj =>
          hmarkers i j hij (Nat.le_trans hj (Nat.sub_le n 1))
      rw [stuffTuple_cons_cons, stuffTuple_cons_cons, compare_stuff_append (hbelow _) (hbelow _) 0 _ _ (room_padded ..)
        (room_padded ..), hrest, paddedTuple, paddedTuple, List.compare_cons_cons]

/-- No element is smaller. -/
def Least (pad : α) : Prop := ∀ a : α, compare pad a = .lt ∨ compare pad a = .eq

omit [Std.OrientedOrd α] in
theorem then_cases {o p q : Ordering} (h : p = .eq ∨ p = q) : o.then p = .eq ∨ o.then p = o.then q := by
  cases o with
  | lt => exact .inr rfl
  | eq => exact h
  | gt => exact .inr rfl

theorem compare_fill_nil (size : Nat) (hpad : Least pad) (c : Nat) : ∀ t : List α,
    compare (replicate c pad) (t ++ replicate (room size c t.length) pad) = .eq ∨
    compare (replicate c pad) (t ++ replicate (room size c t.length) pad) = compare [] t := by
  induction c with
  | zero =>
    intro t
    cases t with
    | nil => exact .inl rfl
    | cons b t => exact .inr rfl
  | succ c ih =>
    intro t
    cases t with
    | nil => exact .inl (compare_refl _)
    | cons b t =>
      rw [length_cons, replicate_succ, cons_append, List.compare_cons_cons]
      rcases hpad b with hlt | heq
      · rw [hlt]
        exact .inr rfl
      · rw [heq]
        rcases ih t with hsame | hsame
        · exact .inl hsame
        · cases t with
          | nil => exact .inl hsame
          | cons b' t => exact .inr hsame

/-- Padding with the least element never turns the order round, but strings may become equal. -/
theorem compare_fill (hpad : Least pad) : ∀ (c : Nat) (s t : List α),
    compare (s ++ replicate (room size c s.length) pad) (t ++ replicate (room size c t.length) pad) = .eq ∨
    compare (s ++ replicate (room size c s.length) pad) (t ++ replicate (room size c t.length) pad) = compare s t
  | c, [], t => compare_fill_nil size hpad c t
  | c, a :: s, [] => by
    rw [compare_swap]
    rcases compare_fill_nil size hpad c (a :: s) with heq | hsame
    · exact .inl (congrArg Ordering.swap heq)
    · exact .inr (congrArg Ordering.swap hsame)
  | 0, a :: s, b :: t => by
    rw [length_cons, length_cons, cons_append, cons_append, List.compare_cons_cons,
      List.compare_cons_cons]
    exact then_cases (compare_fill hpad size s t)
  | c + 1, a :: s, b :: t => by
    rw [length_cons, length_cons, cons_append, cons_append, List.compare_cons_cons,
      List.compare_cons_cons]
    exact then_cases (compare_fill hpad c s t)

/-- The first strings that differ become equal by padding, and those behind them do not compare in the same way. -/
def Confused (size : Nat) (pad : α) [DecidableEq α] : List (List α) → List (List α) → Prop
  | a :: a' :: as, b :: b' :: bs =>
    if a = b then Confused size pad (a' :: as) (b' :: bs)
    else padded size pad a = padded size pad b ∧
      compare (paddedTuple size pad (a' :: as)) (paddedTuple size pad (b' :: bs)) ≠ compare a b
  | _, _ => False

omit [Std.OrientedOrd α] in
theorem confused_cons_cons [DecidableEq α] {a a' b b' : List α} : Confused size pad (a :: a' :: as) (b :: b' :: bs) ↔
    if a = b then Confused size pad (a' :: as) (b' :: bs)
    else padded size pad a = padded size pad b ∧
      compare (paddedTuple size pad (a' :: as)) (paddedTuple size pad (b' :: bs)) ≠ compare a b := Iff.rfl

instance decidableConfused (size : Nat) (pad : α) [DecidableEq α] : ∀ as bs : List (List α), Decidable
    (Confused size pad as bs)
  | _ :: a' :: as, _ :: b' :: bs =>
    have := decidableConfused size pad (a' :: as) (b' :: bs)
    decidable_of_iff _ confused_cons_cons.symm
  | [], _ | [_], _ | _ :: _ :: _, [] | _ :: _ :: _, [_] => .isFalse id

/-- Padded tuples compare as the tuples do unless they are confused. -/
theorem compare_paddedTuple [DecidableEq α] [Std.LawfulEqOrd α] (hpad : Least pad) (hlength : as.length = bs.length) :
    compare (paddedTuple size pad as) (paddedTuple size pad bs) = compare as bs ↔ ¬ Confused size pad as bs := by
  induction as generalizing bs with
  | nil =>
    obtain rfl := eq_nil_of_length_eq_zero hlength.symm
    exact ⟨fun _ => id, fun _ => rfl⟩
  | cons a as ih =>
    match as, bs with
    | _, [] => exact nomatch hlength
    | [], [b] => exact ⟨fun _ => id, fun _ => rfl⟩
    | [], _ :: _ :: _ => exact nomatch hlength
    | _ :: _, [_] => exact nomatch hlength
    | a' :: as, b :: b' :: bs =>
      rw [paddedTuple, paddedTuple, List.compare_cons_cons, List.compare_cons_cons, Confused]
      by_cases heq : a = b
      · rw [if_pos heq, heq, compare_refl, compare_refl]
        exact ih (Nat.succ.inj hlength)
      · rw [if_neg heq]
        have hne : compare a b ≠ .eq := fun h => heq (Std.LawfulEqCmp.eq_of_compare h)
        have hright : (compare a b).then (compare (a' :: as) (b' :: bs)) = compare a b := by
          cases hab : compare a b with
          | lt => rfl
          | eq => exact absurd hab hne
          | gt => rfl
        rw [hright]
        by_cases hpadded : padded size pad a = padded size pad b
        · rw [hpadded, compare_refl, not_and, not_not]
          exact ⟨fun h _ => h, fun h => h rfl⟩
        · have hkept : compare (padded size pad a) (padded size pad b) = compare a b :=
            (compare_fill hpad 0 a b).resolve_left fun h => hpadded (Std.LawfulEqCmp.eq_of_compare h)
          rw [hkept]
          refine ⟨fun _ h => hpadded h.1, fun _ => ?_⟩
          cases hab : compare a b with
          | lt => rfl
          | eq => exact absurd hab hne
          | gt => rfl

end Order
end Firebird.Lib
