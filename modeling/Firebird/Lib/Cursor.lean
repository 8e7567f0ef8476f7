import Mathlib

/-! # Bytes read through a pointer -/

namespace Firebird.Lib

open List

/-- Bytes by their places. -/
abbrev Memory := Nat → UInt8

variable {α β : Type} {m m' : Memory} {p n : Nat} {l l' : List UInt8}

def Cursor (α : Type) := Memory → Nat → α × Nat

namespace Cursor

instance : Monad Cursor where
  pure a := fun _ p => (a, p)
  bind c f := fun m p => f (c m p).1 m (c m p).2

def read (c : Cursor α) (m : Memory) (p : Nat) : α × Nat := c m p

theorem read_pure (a : α) : (pure a : Cursor α).read m p = (a, p) := rfl

theorem read_bind (c : Cursor α) (f : α → Cursor β) :
    (c >>= f).read m p = (f (c.read m p).1).read m (c.read m p).2 := rfl

def getByte : Cursor UInt8 := fun m p => (m p, p + 1)

def getBytes (n : Nat) : Cursor (List UInt8) := fun m p => ((List.range n).map fun i => m (p + i), p + n)

structure Local (c : Cursor α) : Prop where
  le : ∀ m p, p ≤ (c.read m p).2
  congr : ∀ m m' p p', (∀ i, p + i < (c.read m p).2 → m' (p' + i) = m (p + i)) →
    c.read m' p' = ((c.read m p).1, p' + ((c.read m p).2 - p))

theorem Local.pure (a : α) : Local (Pure.pure a) where
  le _ p := Nat.le_refl p
  congr m _ p p' _ := by
    rw [read_pure, read_pure, Nat.sub_self]
    rfl

theorem Local.bind {c : Cursor α} {f : α → Cursor β} (hc : Local c) (hf : ∀ a, Local (f a)) : Local (c >>= f) where
  le m p := (hc.le m p).trans ((hf _).le m _)
  congr m m' p p' h := by
    rw [read_bind] at h
    have hle := hc.le m p
    have hle' := (hf (c.read m p).1).le m (c.read m p).2
    have hfirst := hc.congr m m' p p' fun i hi => h i (hi.trans_le hle')
    have hsecond := (hf (c.read m p).1).congr m m' (c.read m p).2 (p' + ((c.read m p).2 - p)) fun i hi => by
      have hstep := h ((c.read m p).2 - p + i) (by omega)
      rw [← Nat.add_assoc] at hstep
      rw [hstep]
      exact congrArg m (by omega)
    rw [read_bind, read_bind, hfirst, hsecond]
    exact congrArg _ (by omega)

theorem Local.ite {c d : Cursor α} {P : Prop} [Decidable P] (hc : Local c)
    (hd : Local d) : Local (if P then c else d) := by
  split
  · exact hc
  · exact hd

theorem getByte_local : Local getByte where
  le _ p := Nat.le_succ p
  congr m m' p p' h := by
    have hbyte : m' p' = m p := h 0 (Nat.lt_succ_self p)
    show (m' p', p' + 1) = (m p, p' + (p + 1 - p))
    rw [hbyte, Nat.add_sub_cancel_left]

theorem getBytes_local (n : Nat) : Local (getBytes n) where
  le _ p := Nat.le_add_right p n
  congr m m' p p' h := by
    have hbytes : ((range n).map fun i => m' (p' + i)) = (range n).map fun i => m (p + i) :=
      map_congr_left fun i hi => h i (Nat.add_lt_add_left (mem_range.mp hi) p)
    show (((range n).map fun i => m' (p' + i)), p' + n) = (((range n).map fun i => m (p + i)), p' + (p + n - p))
    rw [hbytes, Nat.add_sub_cancel_left]

theorem Local.read_eq {c : Cursor α} (hc : Local c) (h : ∀ i, p ≤ i → i < (c.read m p).2 → m' i = m i) :
    c.read m' p = c.read m p := by
  have hcongr := hc.congr m m' p p fun i hi => h (p + i) (Nat.le_add_right p i) hi
  rw [hcongr, Nat.add_sub_cancel' (hc.le m p)]

/-- The bytes stand from the place on. -/
def Holds (m : Memory) (p : Nat) (l : List UInt8) : Prop := ∀ i (h : i < l.length), m (p + i) = l[i]

theorem holds_append : Holds m p (l ++ l') ↔ Holds m p l ∧ Holds m (p + l.length) l' := by
  refine ⟨fun h => ⟨fun i hi => ?_, fun i hi => ?_⟩, fun ⟨h, h'⟩ i hi => ?_⟩
  · have hbyte := h i (by rw [length_append]; exact hi.trans_le (Nat.le_add_right ..))
    rw [hbyte, getElem_append_left hi]
  · have hbyte := h (l.length + i) (by rw [length_append]; exact Nat.add_lt_add_left hi _)
    rw [Nat.add_assoc, hbyte, getElem_append_right (Nat.le_add_right ..)]
    exact getElem_congr_idx (Nat.add_sub_cancel_left ..)
  · by_cases hlt : i < l.length
    · rw [getElem_append_left hlt]
      exact h i hlt
    · rw [getElem_append_right (Nat.not_lt.mp hlt)]
      have hbyte := h' (i - l.length) (by rw [length_append] at hi; omega)
      rw [← hbyte]
      exact congrArg m (by omega)

/-- The cursor reads exactly these bytes, and gives `a`. -/
def Decodes (c : Cursor α) (l : List UInt8) (a : α) : Prop := ∀ m p, Holds m p l → c.read m p = (a, p + l.length)

theorem decodes_pure (a : α) : Decodes (pure a) [] a := fun _ _ _ => rfl

theorem Decodes.bind {c : Cursor α} {f : α → Cursor β} {a : α} {b : β} (hc : Decodes c l a) (hf : Decodes (f a) l' b) :
    Decodes (c >>= f) (l ++ l') b := by
  intro m p h
  obtain ⟨hfirst, hsecond⟩ := holds_append.mp h
  rw [read_bind, hc m p hfirst, length_append, ← Nat.add_assoc]
  exact hf m _ hsecond

theorem Decodes.map {c : Cursor α} {a : α} (f : α → β) (hc : Decodes c l a) :
    Decodes (c >>= fun a => pure (f a)) l (f a) := by
  have h := Decodes.bind (f := fun a => pure (f a)) hc (decodes_pure (f a))
  rw [append_nil] at h
  exact h

theorem decodes_getByte (b : UInt8) : Decodes getByte [b] b := fun _ _ h => Prod.ext (h 0 Nat.zero_lt_one) rfl

theorem decodes_getBytes (l : List UInt8) : Decodes (getBytes l.length) l l := by
  intro m p h
  have hbytes : ((range l.length).map fun i => m (p + i)) = l := by
    refine ext_getElem (by rw [length_map, length_range]) fun i _ hi => ?_
    rw [getElem_map, getElem_range]
    exact h i hi
  exact Prod.ext hbytes rfl

theorem getBytes_length : ((getBytes n).read m p).1.length = n := by
  show ((range n).map fun i => m (p + i)).length = n
  rw [length_map, length_range]

/-- `memcpy` of these bytes to the place -/
def put (m : Memory) (p : Nat) (l : List UInt8) : Memory := fun i => if p ≤ i then l.getD (i - p) (m i) else m i

/-- `memmove` -/
def move (m : Memory) (dst src n : Nat) : Memory := fun i => if dst ≤ i ∧ i < dst + n then m (src + (i - dst)) else m i

theorem holds_put : Holds (put m p l) p l := by
  intro i hi
  unfold put
  rw [if_pos (Nat.le_add_right p i), Nat.add_sub_cancel_left, getD_eq_getElem?_getD, getElem?_eq_getElem hi]
  rfl

theorem put_of_lt {i : Nat} (h : i < p) : put m p l i = m i := if_neg (Nat.not_le.mpr h)

theorem put_of_le {i : Nat} (h : p + l.length ≤ i) : put m p l i = m i := by
  unfold put
  split
  case isTrue =>
    rw [getD_eq_getElem?_getD, getElem?_eq_none (by omega)]
    rfl
  case isFalse => rfl

theorem put_append : put m p (l ++ l') = put (put m (p + l.length) l') p l := by
  funext i
  by_cases hlow : p ≤ i
  · by_cases hmid : i - p < l.length
    · simp [put, hlow, getElem?_append_left hmid, hmid]
    · have hle : p + l.length ≤ i := by omega
      simp [put, hlow, hle, getElem?_append_right (Nat.not_lt.mp hmid),
        getElem?_eq_none (Nat.not_lt.mp hmid), Nat.sub_sub]
  · simp [put, hlow, show ¬ p + l.length ≤ i by omega]

theorem move_eq_put {dst src : Nat} (h : Holds m src l) : move m dst src l.length = put m dst l := by
  funext i
  unfold move put
  by_cases hin : dst ≤ i ∧ i < dst + l.length
  · have hlt : i - dst < l.length := by omega
    simp [hin, hlt, h _ hlt]
  · by_cases hle : dst ≤ i
    · simp [hin, getElem?_eq_none (show l.length ≤ i - dst by omega)]
    · simp [hle]

theorem move_of_mem {dst src i : Nat} (h : i < n) : move m dst src n (dst + i) = m (src + i) := by
  unfold move
  rw [if_pos ⟨Nat.le_add_right .., Nat.add_lt_add_left h _⟩, Nat.add_sub_cancel_left]

theorem move_of_lt {dst src i : Nat} (h : i < dst) : move m dst src n i = m i :=
  if_neg fun hi => absurd hi.1 (Nat.not_le.mpr h)

/-- Reads a number of at most `k + 1` bytes; the last of them counts below `last`. -/
def getGroups (last : Nat) : Nat → Cursor Nat
  | 0 => do
    let tmp ← getByte
    pure (tmp.toNat % last)
  | k + 1 => do
    let tmp ← getByte
    if 128 ≤ tmp.toNat then do
      let number ← getGroups last k
      pure (tmp.toNat % 128 + 128 * number)
    else pure (tmp.toNat % 128)

def groups (last : Nat) : Nat → Nat → List UInt8
  | 0, n => [UInt8.ofNat (n % last)]
  | k + 1, n => if n / 128 = 0 then [UInt8.ofNat (n % 128)] else UInt8.ofNat (n % 128 + 128) :: groups last k (n / 128)

variable {last k : Nat}

theorem getGroups_local : ∀ k, Local (getGroups last k)
  | 0 => getByte_local.bind fun _ => .pure _
  | k + 1 => getByte_local.bind fun _ => .ite ((getGroups_local k).bind fun _ => .pure _) (.pure _)

theorem decodes_groups (hlast : last ≤ 256) (h : n < 128 ^ k * last) : Decodes (getGroups last k)
    (groups last k n) n := by
  induction k generalizing n with
  | zero =>
    rw [Nat.pow_zero, Nat.one_mul] at h
    have hvalue : (UInt8.ofNat (n % last)).toNat % last = n := by
      rw [UInt8.toNat_ofNat', Nat.mod_eq_of_lt h, Nat.mod_eq_of_lt (h.trans_le hlast), Nat.mod_eq_of_lt h]
    have hread := (decodes_getByte (UInt8.ofNat (n % last))).map fun tmp => tmp.toNat % last
    rw [hvalue] at hread
    exact hread
  | succ k ih =>
    unfold getGroups groups
    by_cases hsmall : n / 128 = 0
    · have hbyte : (UInt8.ofNat (n % 128)).toNat = n := by
        rw [UInt8.toNat_ofNat']
        omega
      rw [if_pos hsmall]
      have hread := (decodes_getByte (UInt8.ofNat (n % 128))).bind (β := Nat) (f := fun tmp =>
        if 128 ≤ tmp.toNat then do
        let number ← getGroups last k
        pure (tmp.toNat % 128 + 128 * number) else pure (tmp.toNat % 128)) (b := n) (by
          rw [hbyte, if_neg (by omega), Nat.mod_eq_of_lt (by omega)]
          exact decodes_pure n)
      exact hread
    · have hbyte : (UInt8.ofNat (n % 128 + 128)).toNat = n % 128 + 128 := by
        rw [UInt8.toNat_ofNat']
        omega
      rw [if_neg hsmall]
      have hrest : n / 128 < 128 ^ k * last := by
        rw [Nat.div_lt_iff_lt_mul (by decide)]
        calc n < 128 ^ k * 128 * last := h
          _ = 128 ^ k * last * 128 := by ring
      refine (decodes_getByte (UInt8.ofNat (n % 128 + 128))).bind ?_
      rw [hbyte]
      have hread := (ih hrest).map fun number => (n % 128 + 128) % 128 + 128 * number
      have hvalue : (n % 128 + 128) % 128 + 128 * (n / 128) = n := by omega
      rw [hvalue] at hread
      exact hread

/-- What is read can be written, in no more bytes. -/
theorem getGroups_bound (hlast : 0 < last) (m : Memory) (p : Nat) :
    ((getGroups last k).read m p).1 < 128 ^ k * last ∧
      p + (groups last k ((getGroups last k).read m p).1).length ≤ ((getGroups last k).read m p).2 := by
  induction k generalizing p with
  | zero =>
    rw [Nat.pow_zero, Nat.one_mul]
    exact ⟨Nat.mod_lt _ hlast, Nat.le_refl _⟩
  | succ k ih =>
    obtain ⟨hlt, hsize⟩ := ih (p + 1)
    have hread : (getGroups last (k + 1)).read m p = if 128 ≤ (m p).toNat then
        ((m p).toNat % 128 + 128 * ((getGroups last k).read m (p + 1)).1, ((getGroups last k).read m (p + 1)).2)
        else ((m p).toNat % 128, p + 1) := by
      show Cursor.read (if 128 ≤ (m p).toNat then _ else _) m (p + 1) = _
      split <;> rfl
    have hpow : 128 ^ (k + 1) * last = 128 * (128 ^ k * last) := by ring
    rw [hread]
    split
    case isTrue hmore =>
      refine ⟨by omega, ?_⟩
      unfold groups
      split
      case isTrue =>
        have hle := (@getGroups_local last k).le m (p + 1)
        exact hle
      case isFalse =>
        rw [length_cons, Nat.add_mul_div_left _ _ (by decide),
          Nat.div_eq_of_lt (Nat.mod_lt _ (by decide)), Nat.zero_add]
        omega
    case isFalse =>
      refine ⟨by omega, ?_⟩
      unfold groups
      rw [if_pos (Nat.div_eq_of_lt (Nat.mod_lt _ (by decide)))]
      exact Nat.le_refl _

theorem groups_length_pos : 0 < (groups last k n).length := by
  cases k with
  | zero => exact Nat.zero_lt_one
  | succ k =>
    unfold groups
    split
    · exact Nat.zero_lt_one
    · exact Nat.succ_pos _

theorem groups_length_le : (groups last k n).length ≤ k + 1 := by
  induction k generalizing n with
  | zero => exact Nat.le_refl _
  | succ k ih =>
    unfold groups
    split
    · exact Nat.le_add_left ..
    · exact Nat.succ_le_succ ih

theorem groups_length_mono {n' : Nat} (h : n ≤ n') : (groups last k n).length ≤ (groups last k n').length := by
  induction k generalizing n n' with
  | zero => exact Nat.le_refl _
  | succ k ih =>
    have hdiv : n / 128 ≤ n' / 128 := Nat.div_le_div_right h
    rw [groups, groups]
    by_cases hsmall : n / 128 = 0
    · rw [if_pos hsmall]
      exact groups_length_pos (k := k + 1)
    · rw [if_neg hsmall, if_neg (by omega)]
      exact Nat.succ_le_succ (ih hdiv)

end Cursor
end Firebird.Lib
