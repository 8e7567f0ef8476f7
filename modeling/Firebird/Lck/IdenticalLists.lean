import Firebird.Lck.InternalLocks

/-! # Identical lists and the hash table -/

namespace Firebird.Lck

open State Function Lib List

variable {n : Nat} {hash : List UInt8 → Nat} {s t : State n} {l h m : Fin n}
  {rest A B : List (Fin n)}

namespace State

/-- The lock manager has granted the lock or queued it. -/
def Held (s : State n) (l : Fin n) : Prop := (s.locks l).id ≠ 0

instance (s : State n) (l : Fin n) : Decidable (s.Held l) := inferInstanceAs (Decidable ((s.locks l).id ≠ 0))

section
variable (f : Lock n → Lock n)

@[simp] theorem modify_table : (s.modify l f).table = s.table := rfl

theorem modify_self : (s.modify l f).locks l = f (s.locks l) := update_self _ _ _

theorem modify_of_ne (hne : m ≠ l) : (s.modify l f).locks m = s.locks m := update_of_ne hne _ _

theorem collision_modify : (s.modify l f).collision = update s.collision l (f (s.locks l)).collision := by
  funext k
  by_cases hk : k = l
  · cases hk
    simp [collision, modify_self]
  · simp [collision, modify_of_ne f hk, hk]

theorem identical_modify : (s.modify l f).identical = update s.identical l (f (s.locks l)).identical := by
  funext k
  by_cases hk : k = l
  · cases hk
    simp [identical, modify_self]
  · simp [identical, modify_of_ne f hk, hk]

end

theorem field_modify {τ : Type} (g : Lock n → τ) (f : Lock n → Lock n) (hf : ∀ lock, g (f lock) = g lock) (k : Fin n) :
    g ((s.modify l f).locks k) = g (s.locks k) := by
  by_cases hk : k = l
  · cases hk
    rw [modify_self, hf]
  · rw [modify_of_ne f hk]

end State

/-- A lock without its links -/
def Lock.bare (lock : Lock n) : Lock n := { lock with collision := none, identical := none }

/-- Only links differ. -/
structure SameLocks (s t : State n) : Prop where
  bare : ∀ k, (t.locks k).bare = (s.locks k).bare
  requests : t.requests = s.requests

namespace SameLocks

theorem field {τ : Type} (hst : SameLocks s t) (g : Lock n → τ) (hg : ∀ lock, g lock.bare = g lock) (k : Fin n) :
    g (t.locks k) = g (s.locks k) := by
  rw [← hg (t.locks k), hst.bare k, hg]

theorem refl (s : State n) : SameLocks s s := ⟨fun _ => rfl, rfl⟩

theorem trans {u : State n} (hst : SameLocks s t) (htu : SameLocks t u) : SameLocks s u :=
  ⟨fun k => (htu.bare k).trans (hst.bare k), htu.requests.trans hst.requests⟩

theorem modify (f : Lock n → Lock n) (hf : ∀ lock, (f lock).bare = lock.bare) : SameLocks s (s.modify l f) :=
  ⟨fun k => field_modify Lock.bare f hf k, rfl⟩

end SameLocks

/-- The links are those of the lists `rows`, and `heads` are the first locks of the lists of each slot. -/
structure Linked (hash : List UInt8 → Nat) (s : State n) (rows : Key → List (Fin n))
    (heads : Fin lockHashSize → List (Fin n)) : Prop where
  collisions : ∀ slot, Leads s.collision (s.table slot) (heads slot) none
  identicals : ∀ key, Leads s.identical (rows key).head? (rows key) none
  heads_iff : ∀ slot h, h ∈ heads slot ↔ State.slot hash (s.key h) = slot ∧ (rows (s.key h)).head? = some h
  keys : ∀ key, ∀ k ∈ rows key, s.key k = key

variable {rows : Key → List (Fin n)} {heads : Fin lockHashSize → List (Fin n)}

variable {row : List (Fin n)}

/-- No list is longer than there are locks, so that a walk of `n` steps comes to its end. -/
theorem length_le_of_nodup (hrow : row.Nodup) : row.length ≤ n := by
  simpa using hrow.length_le_card

namespace Linked

section
variable (hs : Linked hash s rows heads)
include hs

theorem congr (hcollision : t.collision = s.collision) (hidentical : t.identical = s.identical)
    (hkey : t.key = s.key) (htable : t.table = s.table) : Linked hash t rows heads := by
  refine ⟨fun slot => ?_, fun key => ?_, fun slot h => ?_, fun key k hk => ?_⟩
  · rw [hcollision, htable]
    exact hs.collisions slot
  · rw [hidentical]
    exact hs.identicals key
  · rw [hkey]
    exact hs.heads_iff slot h
  · rw [hkey]
    exact hs.keys key k hk

theorem modify (f : Lock n → Lock n) (hcollision : ∀ lock, (f lock).collision = lock.collision)
    (hidentical : ∀ lock, (f lock).identical = lock.identical) (hkey : ∀ lock, (f lock).key = lock.key) :
    Linked hash (s.modify l f) rows heads :=
  hs.congr (funext fun k => field_modify Lock.collision f hcollision k)
    (funext fun k => field_modify Lock.identical f hidentical k)
    (funext fun k => field_modify Lock.key f hkey k) rfl

/-- A walk meets the locks of a list in order. -/
theorem walk_row {key : Key} (hrow : rows key = A ++ h :: B) : walk s.identical n (some h) = some (h :: B) := by
  have hleads := hs.identicals key
  rw [hrow] at hleads
  exact hleads.behind.walk_eq (length_le_of_nodup hleads.behind.nodup)

theorem row_nodup (key : Key) : (rows key).Nodup := (hs.identicals key).nodup

theorem heads_nodup (slot : Fin lockHashSize) : (heads slot).Nodup := (hs.collisions slot).nodup

/-- In the collision list of its slot, only the first lock of a list has its key. -/
theorem head_split {key : Key} (hrow : rows key = h :: rest) :
    ∃ A B, heads (State.slot hash key) = A ++ h :: B ∧ (∀ a ∈ A, s.key a ≠ key) ∧ ∀ b ∈ B, s.key b ≠ key := by
  have hkey : s.key h = key := hs.keys key h (by rw [hrow]; exact .head rest)
  have hmem : h ∈ heads (State.slot hash key) := by
    rw [hs.heads_iff, hkey, hrow]
    exact ⟨rfl, rfl⟩
  obtain ⟨A, B, hsplit⟩ := append_of_mem hmem
  have hnodup := hs.heads_nodup (State.slot hash key)
  rw [hsplit, nodup_append, nodup_cons] at hnodup
  obtain ⟨-, ⟨hB, -⟩, hA⟩ := hnodup
  -- a head with this key heads this list
  have honly : ∀ a ∈ heads (State.slot hash key), s.key a = key → a = h := by
    intro a ha hak
    have hhead := ((hs.heads_iff _ _).mp ha).2
    rw [hak, hrow] at hhead
    exact (Option.some.inj hhead).symm
  refine ⟨A, B, hsplit, fun a ha hak => ?_, fun b hb hbk => ?_⟩
  · exact hA a ha h (.head B) (honly a (by rw [hsplit]; exact mem_append_left _ ha) hak)
  · have hbh := honly b (by rw [hsplit]; exact mem_append_right A (.tail h hb)) hbk
    exact hB (hbh ▸ hb)

end

end Linked

namespace State

theorem findCollision_of_notMem {key : Key} {fuel : Nat} {prior start : Option (Fin n)}
    (hrow : Leads s.collision start row none) (hfuel : row.length ≤ fuel) (hkey : ∀ c ∈ row, s.key c ≠ key) :
    s.findCollision key fuel prior start = some none := by
  induction row generalizing fuel prior start with
  | nil =>
    cases (hrow : start = none)
    cases fuel <;> rfl
  | cons c row ih =>
    obtain ⟨rfl, hrest⟩ := hrow
    obtain ⟨fuel, rfl⟩ := Nat.exists_eq_add_of_le' (Nat.one_le_of_lt hfuel)
    rw [findCollision, if_neg (hkey c (.head row))]
    exact ih hrest (Nat.le_of_succ_le_succ hfuel) fun d hd => hkey d (.tail c hd)

/-- The search passes locks of other keys and keeps the last of them. -/
theorem findCollision_of_mem {key : Key} {fuel : Nat} {prior start : Option (Fin n)}
    (hrow : Leads s.collision start (A ++ h :: B) none) (hfuel : (A ++ h :: B).length ≤ fuel)
    (hA : ∀ a ∈ A, s.key a ≠ key)
    (hkey : s.key h = key) : s.findCollision key fuel prior start = some (some (A.getLast?.or prior, h)) := by
  induction A generalizing fuel prior start with
  | nil =>
    obtain ⟨rfl, -⟩ := hrow
    obtain ⟨fuel, rfl⟩ := Nat.exists_eq_add_of_le' (Nat.one_le_of_lt hfuel)
    rw [findCollision, if_pos hkey]
    rfl
  | cons a A ih =>
    obtain ⟨rfl, hrest⟩ := hrow
    obtain ⟨fuel, rfl⟩ := Nat.exists_eq_add_of_le' (Nat.one_le_of_lt hfuel)
    rw [findCollision, if_neg (hA a (.head A)), ih hrest (Nat.le_of_succ_le_succ hfuel) fun d hd => hA d (.tail a hd)]
    cases A with
    | nil => rfl
    | cons b A =>
      have hlast : (b :: A).getLast? = some ((b :: A).getLast (cons_ne_nil b A)) :=
        getLast?_eq_some_getLast (cons_ne_nil b A)
      rfl

end State

namespace Linked

theorem hashGetLock_nil (hs : Linked hash s rows heads) (hatt : (s.locks l).attached = true)
    (hrow : rows (s.key l) = []) : s.hashGetLock hash l = some none := by
  rw [State.hashGetLock, if_pos hatt]
  refine findCollision_of_notMem (hs.collisions _) (length_le_of_nodup (hs.heads_nodup _)) fun c hc hck => ?_
  have hhead := ((hs.heads_iff _ _).mp hc).2
  rw [hck, hrow] at hhead
  cases hhead

/-- The search finds the first lock of the list, and the lock before it in the collision list. -/
theorem hashGetLock_cons (hs : Linked hash s rows heads) (hatt : (s.locks l).attached = true)
    (hrow : rows (s.key l) = h :: rest) :
    ∃ A B, heads (State.slot hash (s.key l)) = A ++ h :: B ∧ (∀ a ∈ A, s.key a ≠ s.key l) ∧
      (∀ b ∈ B, s.key b ≠ s.key l) ∧ s.hashGetLock hash l = some (some (A.getLast?, h)) := by
  obtain ⟨A, B, hsplit, hA, hB⟩ := hs.head_split hrow
  refine ⟨A, B, hsplit, hA, hB, ?_⟩
  have hcollisions := hs.collisions (State.slot hash (s.key l))
  have hlength := length_le_of_nodup (hs.heads_nodup (State.slot hash (s.key l)))
  rw [hsplit] at hcollisions hlength
  have hkey : s.key h = s.key l := hs.keys _ h (by rw [hrow]; exact .head rest)
  rw [State.hashGetLock, if_pos hatt, findCollision_of_mem hcollisions hlength hA hkey, Option.or_none]

end Linked

namespace Linked

/-- A lock without identical ones comes first in its slot. -/
theorem insert_first (hs : Linked hash s rows heads) (hrow : rows (s.key l) = []) (hlink : s.identical l = none)
    (hlocks : t.locks = (s.modify l fun lock => { lock with collision := s.table (State.slot hash lock.key) }).locks)
    (htable : t.table = update s.table (State.slot hash (s.key l)) (some l)) :
    Linked hash t (update rows (s.key l) [l])
      (update heads (State.slot hash (s.key l)) (l :: heads (State.slot hash (s.key l)))) := by
  have hfield : ∀ {τ : Type} (g : Lock n → τ), (∀ lock next, g { lock with collision := next } = g lock) →
      ∀ k, g (t.locks k) = g (s.locks k) := by
    intro τ g hg k
    rw [hlocks]
    exact field_modify g _ (fun lock => hg lock _) k
  have hcollision : t.collision = update s.collision l (s.table (State.slot hash (s.key l))) := by
    have hmodify := collision_modify (s := s) (l := l)
      fun lock => { lock with collision := s.table (State.slot hash lock.key) }
    refine Eq.trans (funext fun k => ?_) hmodify
    rw [State.collision, hlocks, State.collision]
  have hidentical : t.identical = s.identical := funext (hfield Lock.identical fun _ _ => rfl)
  have hkey : t.key = s.key := funext (hfield Lock.key fun _ _ => rfl)
  have hno : ∀ slot, ∀ c ∈ heads slot, s.key c ≠ s.key l := by
    intro slot c hc hck
    have hhead := ((hs.heads_iff slot c).mp hc).2
    rw [hck, hrow] at hhead
    cases hhead
  have hnotMem : ∀ slot, l ∉ heads slot := fun slot hl => hno slot l hl rfl
  refine ⟨fun slot => ?_, fun key => ?_, fun slot h => ?_, fun key k hk => ?_⟩
  · rw [hcollision, htable]
    by_cases hslot : slot = State.slot hash (s.key l)
    · cases hslot
      simp only [update_self]
      refine ⟨rfl, ?_⟩
      rw [update_self]
      exact (hs.collisions _).update_of_notMem (hnotMem _) _
    · simp only [update_of_ne hslot]
      exact (hs.collisions slot).update_of_notMem (hnotMem slot) _
  · rw [hidentical]
    by_cases hk : key = s.key l
    · cases hk
      rw [update_self]
      exact ⟨rfl, hlink⟩
    · rw [update_of_ne hk]
      exact hs.identicals key
  · rw [hkey]
    by_cases hk : s.key h = s.key l
    · rw [hk, update_self]
      by_cases hslot : slot = State.slot hash (s.key l)
      · cases hslot
        rw [update_self, mem_cons]
        constructor
        · rintro (rfl | hmem)
          · exact ⟨rfl, rfl⟩
          · exact absurd hk (hno _ h hmem)
        · rintro ⟨-, hh⟩
          exact .inl (Option.some.inj hh).symm
      · rw [update_of_ne hslot]
        constructor
        · intro hmem
          exact absurd hk (hno slot h hmem)
        · rintro ⟨heq, -⟩
          exact absurd heq.symm hslot
    · rw [update_of_ne hk, ← hs.heads_iff]
      by_cases hslot : slot = State.slot hash (s.key l)
      · cases hslot
        have hne : h ≠ l := by
          rintro rfl
          exact hk rfl
        simp [hne]
      · rw [update_of_ne hslot]
  · rw [hkey]
    by_cases hkk : key = s.key l
    · cases hkk
      rw [update_self, mem_singleton] at hk
      rw [hk]
    · rw [update_of_ne hkk] at hk
      exact hs.keys key k hk

/-- A lock with identical ones comes second in their list. -/
theorem insert_second (hs : Linked hash s rows heads) (hrow : rows (s.key l) = h :: rest) (hl : l ∉ rows (s.key l))
    (ht : t = (s.modify l fun lock => { lock with identical := s.identical h }).modify h
      fun lock => { lock with identical := some l }) :
    Linked hash t (update rows (s.key l) (h :: l :: rest)) heads := by
  have hcollision : t.collision = s.collision := by
    rw [ht]
    refine funext fun k => (field_modify Lock.collision _ ?_ k).trans (field_modify Lock.collision _ ?_ k)
    all_goals exact fun _ => rfl
  have hkey : t.key = s.key := by
    rw [ht]
    refine funext fun k => (field_modify Lock.key _ ?_ k).trans (field_modify Lock.key _ ?_ k)
    all_goals exact fun _ => rfl
  have hidentical : t.identical = update (update s.identical l (s.identical h)) h (some l) := by
    rw [ht, identical_modify, identical_modify]
  have hhkey : s.key h = s.key l := hs.keys _ h (by rw [hrow]; exact .head rest)
  have hleads := hs.identicals (s.key l)
  rw [hrow] at hleads hl
  have hhead : ∀ key, (update rows (s.key l) (h :: l :: rest) key).head? = (rows key).head? := by
    intro key
    by_cases hk : key = s.key l
    · cases hk
      rw [update_self, hrow]
      rfl
    · rw [update_of_ne hk]
  refine ⟨fun slot => ?_, fun key => ?_, fun slot k => ?_, fun key k hk => ?_⟩
  · rw [hcollision, ht]
    exact hs.collisions slot
  · rw [hidentical, hhead]
    by_cases hk : key = s.key l
    · cases hk
      rw [update_self, hrow]
      exact hleads.insert_behind (A := []) hl
    · have hrows := hs.identicals key
      rw [update_of_ne hk]
      refine (hrows.update_of_notMem (fun hmem => hk ?_) _).update_of_notMem (fun hmem => hk ?_) _
      · exact (hs.keys key l hmem).symm
      · exact (hs.keys key h hmem).symm.trans hhkey
  · rw [hkey, hhead]
    exact hs.heads_iff slot k
  · rw [hkey]
    by_cases hkk : key = s.key l
    · cases hkk
      rw [update_self, mem_cons, mem_cons] at hk
      rcases hk with rfl | rfl | hk
      · exact hhkey
      · rfl
      · exact hs.keys _ k (by rw [hrow]; exact .tail h hk)
    · rw [update_of_ne hkk] at hk
      exact hs.keys key k hk

end Linked

/-! ### Taking a lock out -/

namespace State

theorem setPrior_field {τ : Type} (g : Lock n → τ)
    (hg : ∀ (lock : Lock n) next, g { lock with collision := next } = g lock)
    (key : Key) (prior target : Option (Fin n)) (k : Fin n) :
    g ((s.setPrior hash key prior target).locks k) = g (s.locks k) := by
  cases prior with
  | none => rfl
  | some p =>
    exact field_modify g _ (fun lock => hg lock target) k

section
variable (key : Key) (prior target : Option (Fin n))

theorem setPrior_identical : (s.setPrior hash key prior target).identical = s.identical :=
  funext (setPrior_field Lock.identical (fun _ _ => rfl) key prior target)

theorem setPrior_key : (s.setPrior hash key prior target).key = s.key :=
  funext (setPrior_field Lock.key (fun _ _ => rfl) key prior target)

theorem sameLocks_setPrior : SameLocks s (s.setPrior hash key prior target) := by
  refine ⟨setPrior_field Lock.bare (fun _ _ => rfl) key prior target, ?_⟩
  cases prior with
  | none => rfl
  | some p => rfl

end

/-- What followed the lock before now follows the locks of `A`. -/
theorem setPrior_leads {key : Key} {A B C : List (Fin n)} {target : Option (Fin n)}
    (hrow : Leads s.collision (s.table (slot hash key)) (A ++ l :: B) none) (hC : Leads s.collision target C none)
    (hA : ∀ a ∈ A, a ∉ C) :
    Leads (s.setPrior hash key A.getLast? target).collision ((s.setPrior hash key A.getLast? target).table
      (slot hash key)) (A ++ C) none := by
  rcases eq_nil_or_concat A with rfl | ⟨A, a, rfl⟩
  · simp only [getLast?_nil, setPrior, update_self]
    exact hC
  · rw [concat_eq_append, append_assoc, cons_append] at hrow
    simp only [concat_eq_append, getLast?_concat, setPrior, collision_modify, modify_table, append_assoc,
      cons_append, nil_append]
    exact hrow.relink hC (hA a (by simp))

/-- The lists of other slots stay. -/
theorem setPrior_leads_other {key : Key} {prior target : Option (Fin n)} {slot' : Fin lockHashSize}
    (hslot : slot' ≠ slot hash key) (hrow : Leads s.collision (s.table slot') row none)
    (hprior : ∀ p, prior = some p → p ∉ row) :
    Leads (s.setPrior hash key prior target).collision ((s.setPrior hash key prior target).table slot') row none := by
  cases prior with
  | none =>
    simp only [setPrior, update_of_ne hslot]
    exact hrow
  | some p =>
    simp only [setPrior, collision_modify, modify_table]
    exact hrow.update_of_notMem (hprior p rfl) _

/-- The walk along identical locks stops before the one that is looked for. -/
theorem lastBefore_of_mem (last : Fin n) {fuel : Nat}
    (hrow : Leads s.identical (s.identical last) (A ++ l :: B) none) (hfuel : (A ++ l :: B).length ≤ fuel)
    (hA : l ∉ A) : s.lastBefore l fuel last (s.identical last) = some (some (A.getLast?.getD last)) := by
  induction A generalizing fuel last with
  | nil =>
    obtain ⟨hstart, -⟩ := hrow
    obtain ⟨fuel, rfl⟩ := Nat.exists_eq_add_of_le' (Nat.one_le_of_lt hfuel)
    rw [hstart, lastBefore, if_pos rfl]
    rfl
  | cons a A ih =>
    obtain ⟨hstart, hrest⟩ := hrow
    obtain ⟨fuel, rfl⟩ := Nat.exists_eq_add_of_le' (Nat.one_le_of_lt hfuel)
    rw [mem_cons, not_or] at hA
    rw [hstart, lastBefore, if_neg (Ne.symm hA.1), ih a hrest (Nat.le_of_succ_le_succ hfuel) hA.2]
    cases A with
    | nil | cons b A => rfl

end State

namespace Linked

section
variable (hs : Linked hash s rows heads) {key : Key}
include hs

theorem keys_update (hrow : ∀ k ∈ row, k ∈ rows key)
    (key' : Key) (k : Fin n) (hk : k ∈ update rows key row key') : s.key k = key' := by
  by_cases hkk : key' = key
  · cases hkk
    rw [update_self] at hk
    exact hs.keys _ k (hrow k hk)
  · rw [update_of_ne hkk] at hk
    exact hs.keys key' k hk

section
variable {row C : List (Fin n)}
  (hsplit : heads (State.slot hash key) = A ++ l :: B) (hA : ∀ a ∈ A, s.key a ≠ key) (hlkey : s.key l = key)
  (hC : ∀ h, s.key h ≠ key → (h ∈ C ↔ h ∈ B)) (hrow : ∀ h, s.key h = key → (h ∈ C ↔ row.head? = some h))
include hsplit hA hlkey hC hrow

theorem heads_update (slot : Fin lockHashSize) (h : Fin n) :
    h ∈ update heads (State.slot hash key) (A ++ C) slot ↔
      State.slot hash (s.key h) = slot ∧ (update rows key row (s.key h)).head? = some h := by
  by_cases hk : s.key h = key
  · rw [hk, update_self, ← hrow h hk]
    by_cases hslot : slot = State.slot hash key
    · cases hslot
      have hhA : h ∉ A := fun hmem => hA h hmem hk
      simp [hhA]
    · rw [update_of_ne hslot]
      constructor
      · intro hmem
        have hsame := ((hs.heads_iff slot h).mp hmem).1
        rw [hk] at hsame
        exact absurd hsame.symm hslot
      · rintro ⟨heq, -⟩
        exact absurd heq.symm hslot
  · rw [update_of_ne hk, ← hs.heads_iff]
    by_cases hslot : slot = State.slot hash key
    · cases hslot
      have hne : h ≠ l := by
        rintro rfl
        exact hk hlkey
      rw [update_self, hsplit, mem_append, mem_append, hC h hk]
      simp [hne]
    · rw [update_of_ne hslot]

/-- The first lock of a list is replaced in its collision list by what comes first then. -/
theorem replace_head {target : Option (Fin n)} (hsub : ∀ k ∈ row, k ∈ rows key)
    (hidentical : Leads s.identical row.head? row none)
    (hlead : Leads s.collision target C none) :
    Linked hash (s.setPrior hash key A.getLast? target) (update rows key row)
      (update heads (State.slot hash key) (A ++ C)) := by
  have hcollisions := hs.collisions (State.slot hash key)
  rw [hsplit] at hcollisions
  have hnodup := hcollisions.nodup
  have hAB : ∀ a ∈ A, a ∉ B := fun a ha hb => (nodup_append.mp hnodup).2.2 a ha a (.tail l hb) rfl
  refine ⟨fun slot => ?_, fun key' => ?_, fun slot h => ?_, fun key' k hk => ?_⟩
  · by_cases hslot : slot = State.slot hash key
    · cases hslot
      rw [update_self]
      exact setPrior_leads hcollisions hlead fun a ha hac => hAB a ha ((hC a (hA a ha)).mp hac)
    · rw [update_of_ne hslot]
      refine setPrior_leads_other hslot (hs.collisions slot) fun p hp hmem => hslot ?_
      -- a lock of this slot is in no other one
      have hpA : p ∈ A := mem_of_getLast? hp
      have hpslot : p ∈ heads (State.slot hash key) := by
        rw [hsplit]
        exact mem_append_left _ hpA
      exact ((hs.heads_iff slot p).mp hmem).1.symm.trans ((hs.heads_iff _ p).mp hpslot).1
  · rw [setPrior_identical]
    by_cases hk : key' = key
    · cases hk
      rw [update_self]
      exact hidentical
    · rw [update_of_ne hk]
      exact hs.identicals key'
  · rw [setPrior_key]
    exact hs.heads_update hsplit hA hlkey hC hrow slot h
  · rw [setPrior_key]
    exact hs.keys_update hsub key' k hk

end

end

section
variable (hs : Linked hash s rows heads) (hatt : (s.locks l).attached = true)
include hs hatt

/-- The only lock with its key -/
theorem remove_only (hrow : rows (s.key l) = [l]) :
    ∃ t heads', s.hashRemoveLock hash l = some (t, some (true, l)) ∧ SameLocks s t ∧
      Linked hash t (update rows (s.key l) []) heads' := by
  obtain ⟨A, B, hsplit, hA, hB, hget⟩ := hs.hashGetLock_cons hatt hrow
  have hidentical : s.identical l = none := by
    have hleads := hs.identicals (s.key l)
    rw [hrow] at hleads
    exact hleads.2
  have hcollisions := hs.collisions (State.slot hash (s.key l))
  rw [hsplit] at hcollisions
  refine ⟨s.setPrior hash (s.key l) A.getLast? (s.collision l), update heads (State.slot hash (s.key l)) (A ++ B), ?_,
    sameLocks_setPrior _ _ _, ?_⟩
  · simp [State.hashRemoveLock, hget, hidentical]
  · refine hs.replace_head hsplit hA rfl (fun _ _ => Iff.rfl) (fun h hh => ?_) (fun k hk => ?_) rfl hcollisions.behind.2
    · constructor
      · intro hmem
        exact absurd hh (hB h hmem)
      · rintro ⟨⟩
    · cases hk

/-- The first one of several locks; the second one takes its place in the collision list. -/
theorem remove_head (hrow : rows (s.key l) = l :: m :: rest) :
    ∃ t heads', s.hashRemoveLock hash l = some (t, some (false, l)) ∧ SameLocks s t ∧
      Linked hash t (update rows (s.key l) (m :: rest)) heads' ∧ t.identical = s.identical := by
  obtain ⟨A, B, hsplit, hA, hB, hget⟩ := hs.hashGetLock_cons hatt hrow
  have hleads := hs.identicals (s.key l)
  have hnodup := hs.row_nodup (s.key l)
  rw [hrow] at hleads hnodup
  have hml : m ≠ l := by
    rintro rfl
    exact (nodup_cons.mp hnodup).1 (.head rest)
  have hmkey : s.key m = s.key l := hs.keys _ m (by rw [hrow]; exact .tail l (.head rest))
  have hmheads : ∀ slot, m ∉ heads slot := by
    intro slot hm
    have hhead := ((hs.heads_iff slot m).mp hm).2
    rw [hmkey, hrow] at hhead
    exact hml (Option.some.inj hhead).symm
  have hidentical : s.identical l = some m := hleads.2.1
  -- the second lock first gets the collision link
  let u := s.modify m fun lock => { lock with collision := s.collision l }
  have hucollision : u.collision = update s.collision m (s.collision l) := collision_modify _
  have huidentical : u.identical = s.identical := funext (field_modify Lock.identical _ (by intro lock; rfl))
  have hukey : u.key = s.key := funext (field_modify Lock.key _ (by intro lock; rfl))
  have hu : Linked hash u rows heads := by
    refine ⟨fun slot => ?_, ?_, ?_, ?_⟩
    · rw [hucollision]
      exact (hs.collisions slot).update_of_notMem (hmheads slot) _
    · rw [huidentical]
      exact hs.identicals
    · rw [hukey]
      exact hs.heads_iff
    · rw [hukey]
      exact hs.keys
  have hcollisions := hs.collisions (State.slot hash (s.key l))
  rw [hsplit] at hcollisions
  have hmB : m ∉ B := by
    intro hm
    exact hmheads (State.slot hash (s.key l)) (by rw [hsplit]; exact mem_append_right A (.tail l hm))
  refine ⟨u.setPrior hash (s.key l) A.getLast? (some m), update heads (State.slot hash (s.key l)) (A ++ m :: B), ?_,
    .trans (.modify _ (by intro lock; rfl)) (sameLocks_setPrior _ _ _), ?_, ?_⟩
  · simp only [State.hashRemoveLock, hget, hidentical, if_true]
    have hul : u.key l = s.key l := congrFun hukey l
    rw [← hul]
  · refine hu.replace_head hsplit ?_ ?_ (fun h hh => ?_) (fun h hh => ?_) (fun k hk => ?_) ?_ ⟨rfl, ?_⟩
    · rw [hukey]
      exact hA
    · rw [hukey]
    · rw [hukey] at hh
      rw [mem_cons]
      constructor
      · rintro (rfl | hmem)
        · exact absurd hmkey hh
        · exact hmem
      · exact .inr
    · rw [hukey] at hh
      rw [mem_cons, head?_cons, Option.some.injEq]
      constructor
      · rintro (rfl | hmem)
        · rfl
        · exact absurd hh (hB h hmem)
      · exact fun hmh => .inl hmh.symm
    · rw [hrow]
      exact .tail l hk
    · rw [huidentical]
      exact ⟨rfl, hleads.2.2⟩
    · rw [hucollision, update_self]
      exact hcollisions.behind.2.update_of_notMem hmB _
  · rw [setPrior_identical, huidentical]

/-- A lock behind the first one; the collision list stays. -/
theorem remove_later (hrow : rows (s.key l) = h :: (A ++ l :: B)) :
    ∃ t, s.hashRemoveLock hash l = some (t, some (false, h)) ∧ SameLocks s t ∧
      Linked hash t (update rows (s.key l) (h :: (A ++ B))) heads := by
  obtain ⟨A', B', -, -, -, hget⟩ := hs.hashGetLock_cons hatt hrow
  have hleads := hs.identicals (s.key l)
  have hnodup := hs.row_nodup (s.key l)
  rw [hrow] at hleads hnodup
  obtain ⟨hhrest, hrest⟩ := nodup_cons.mp hnodup
  have hne : h ≠ l := by
    rintro rfl
    exact hhrest (by simp)
  have hlA : l ∉ A := fun hl => (nodup_append.mp hrest).2.2 l hl l (.head B) rfl
  have hlength : (A ++ l :: B).length ≤ n := length_le_of_nodup hrest
  have hlast := lastBefore_of_mem h hleads.2 hlength hlA
  -- the lock before it
  obtain ⟨C, c, hC, hclast⟩ : ∃ C c, h :: A = C ++ [c] ∧ A.getLast?.getD h = c := by
    rcases eq_nil_or_concat A with rfl | ⟨A, a, rfl⟩
    · exact ⟨[], h, rfl, rfl⟩
    · refine ⟨h :: A, a, ?_, ?_⟩
      · simp
      · simp
  have hsplit : h :: (A ++ l :: B) = C ++ c :: l :: B := by
    rw [← cons_append, hC]
    simp
  have hsmaller : h :: (A ++ B) = C ++ c :: B := by
    rw [← cons_append, hC]
    simp
  have hc : c ∈ rows (s.key l) := by
    rw [hrow, hsplit]
    simp
  have hckey : s.key c = s.key l := hs.keys _ c hc
  rw [hclast] at hlast
  let t := s.modify c fun lock => { lock with identical := s.identical l }
  have hidentical : t.identical = update s.identical c (s.identical l) := identical_modify _
  have hkey : t.key = s.key := funext (field_modify Lock.key _ (by intro lock; rfl))
  have hcollision : t.collision = s.collision := funext (field_modify Lock.collision _ (by intro lock; rfl))
  refine ⟨t, ?_, .modify _ (by intro lock; rfl), ?_, ?_, ?_, ?_⟩
  · simp only [State.hashRemoveLock, hget, if_neg hne, hlast]
    rfl
  · rw [hcollision]
    exact hs.collisions
  · intro key
    rw [hidentical]
    by_cases hk : key = s.key l
    · cases hk
      rw [update_self]
      rw [hsplit] at hleads
      rw [hsmaller]
      have hunlink := hleads.unlink
      rwa [hunlink.head] at hunlink
    · rw [update_of_ne hk]
      refine (hs.identicals key).update_of_notMem (fun hmem => hk ?_) _
      exact (hs.keys key c hmem).symm.trans hckey
  · rw [hkey]
    intro slot k
    rw [hs.heads_iff]
    by_cases hk : s.key k = s.key l
    · rw [hk, update_self, hrow]
      rfl
    · rw [update_of_ne hk]
  · rw [hkey]
    refine hs.keys_update fun k hk => ?_
    rw [hrow]
    simp only [mem_cons, mem_append] at hk ⊢
    tauto

end

end Linked

end Firebird.Lck
