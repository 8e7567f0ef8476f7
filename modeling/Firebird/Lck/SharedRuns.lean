import Firebird.Lck.SharedRequests

/-! # Runs of calls on the locks of an attachment -/

namespace Firebird.Lck

open State Function Lib List
open Firebird.Lock (Level)

variable {n : Nat} {hash : List UInt8 → Nat} {deliver : Fin n → State n → State n} {s t u v : State n} {l h m k : Fin n}
  {rows rows' : Key → List (Fin n)} {heads' : Fin lockHashSize → List (Fin n)} {level : Level} {ans : Answers}

theorem Level.ord_injective {a b : Level} (hab : a.ord = b.ord) : a = b := by
  cases a <;> cases b <;> first | rfl | cases hab

theorem foldl_maxLevel (f : Fin n → Level) (row : List (Fin n)) (level : Level) :
    level.ord ≤ (row.foldl (fun a k => maxLevel a (f k)) level).ord ∧
      (∀ k ∈ row, (f k).ord ≤ (row.foldl (fun a k => maxLevel a (f k)) level).ord) ∧
      (row.foldl (fun a k => maxLevel a (f k)) level = level ∨ ∃ k ∈ row,
        f k = row.foldl (fun a k => maxLevel a (f k)) level) := by
  induction row generalizing level with
  | nil => exact ⟨le_rfl, fun k hk => (nomatch hk), .inl rfl⟩
  | cons m row ih =>
    obtain ⟨hge, hall, hfrom⟩ := ih (maxLevel level (f m))
    have hmax : level.ord ≤ (maxLevel level (f m)).ord ∧ (f m).ord ≤ (maxLevel level (f m)).ord ∧
        (maxLevel level (f m) = level ∨ maxLevel level (f m) = f m) := by
      unfold maxLevel
      split
      · exact ⟨by omega, le_rfl, .inr rfl⟩
      · exact ⟨le_rfl, by omega, .inl rfl⟩
    refine ⟨hmax.1.trans hge, fun k hk => ?_, ?_⟩
    · rcases mem_cons.mp hk with rfl | hk
      · exact hmax.2.1.trans hge
      · exact hall k hk
    · rcases hfrom with hsame | ⟨k, hk, hfk⟩
      · rcases hmax.2.2 with hl | hm
        · exact .inl (hsame.trans hl)
        · exact .inr ⟨m, .head row, (hsame.trans hm).symm⟩
      · exact .inr ⟨k, .tail m hk, hfk⟩

namespace State

variable {row : List (Fin n)}

theorem le_highest (hk : k ∈ row) : (s.locks k).logical.ord ≤ (s.highest row).ord :=
  (foldl_maxLevel (fun k => (s.locks k).logical) row .none).2.1 k hk

theorem exists_highest (hne : row ≠ []) (hlevels : ∀ k ∈ row, (s.locks k).logical ≠ .none) :
    ∃ k ∈ row, (s.locks k).logical = s.highest row := by
  obtain ⟨k, hk⟩ := exists_mem_of_ne_nil row hne
  rcases (foldl_maxLevel (fun k => (s.locks k).logical) row .none).2.2 with hnone | hfrom
  · have hle := le_highest (s := s) hk
    rw [highest, hnone] at hle
    exact absurd (Level.ord_injective (Nat.le_zero.mp hle)) (hlevels k hk)
  · exact hfrom

theorem internalDowngrade_of_walk (ans : Answers) {first : Fin n} (hwalk : walk s.identical n (some first) = some row) :
    s.internalDowngrade ans first = some
      (if (s.highest row).ord < (s.locks first).physical.ord ∧ ans.convert = true then
        (s.lmConvert (s.locks first).id (s.highest row) first).setPhysical row (s.highest row)
      else s) := by
  rw [internalDowngrade, hwalk]
  simp only
  split <;> rfl

/-- `m` is held and has the key of `l`. -/
def Sharer (s : State n) (l m : Fin n) : Prop := s.Held m ∧ s.key m = s.key l

def Heads (hash : List UInt8 → Nat) (s : State n) (l : Fin n) : Prop :=
  ∃ prior, s.hashGetLock hash l = some (some (prior, l))

/-- The lock that the blocking AST of the request of `l` gets. -/
def argument (s : State n) (l : Fin n) : Option (Fin n) := (s.requests (s.locks l).id).map Request.argument

/-- A lock that is not compatible with `l` at the level, but has a blocking AST, does not slip through: all locks of the
key are compatible, or one without a blocking AST is not, or the first lock of the list finds another one. -/
def Admits (hash : List UInt8 → Nat) (s : State n) (l : Fin n) (level : Level) : Prop :=
  (∀ m, s.Sharer l m → compatible (s.locks m) (s.locks l) level = true) ∨
  (∃ m, s.Sharer l m ∧ (s.locks m).ast = false ∧ compatible (s.locks m) (s.locks l) level = false) ∨
  ∃ h m, s.Sharer l h ∧ s.Heads hash h ∧ s.Sharer l m ∧ compatible (s.locks m) (s.locks h) level = false

/-- What releasing a held lock needs: the last lock of a key is let go; a first one of several leaves the request its
    argument and its level; any other is not the argument, or lowers the request. -/
def Releases (hash : List UInt8 → Nat) (s : State n) (ans : Answers) (l : Fin n) : Prop :=
  ((∀ m, s.Sharer l m → m = l) → ans.dequeue = true) ∧
  ((∃ m, s.Sharer l m ∧ m ≠ l) →
    (s.Heads hash l → s.argument l ≠ some l ∧
      ((∃ m, s.Sharer l m ∧ m ≠ l ∧ (s.locks m).logical = (s.locks l).physical) ∨
        (ans.convert = false ∧ (s.locks l).logical ≠ (s.locks l).physical))) ∧
    (¬s.Heads hash l → s.argument l ≠ some l ∨
      (ans.convert = true ∧ ∀ m, s.Sharer l m → m ≠ l → (s.locks m).logical ≠ (s.locks l).physical)))

end State

/-- What a call needs of the locks before it and of the answers of the lock manager. -/
def Meets (hash : List UInt8 → Nat) (s : State n) (ans : Answers) : Call n → Prop
  -- the lock is not held, and carries no link of an earlier list if it starts a new one
  | .lock l level => ¬s.Held l ∧ level ≠ .none ∧ ((∀ m, ¬s.Sharer l m) → s.identical l = none) ∧ s.Admits hash l level
  | .convert l level => s.Held l ∧ level ≠ .none ∧ s.Admits hash l level
  -- the lock heads its list, or the list from it on needs the level, or the lock manager refuses
  | .downgrade l => s.Held l → s.Heads hash l ∨ ans.convert = false ∨
      ∃ row, walk s.identical n (some l) = some row ∧ ∃ m ∈ row, (s.locks m).logical = (s.locks l).physical
  | .release l => s.Held l → s.Releases hash ans l

def Fresh (s : State n) (ans : Answers) : Prop := ∀ id, ans.enqueue = some id → id ≠ 0 ∧ s.requests id = none

/-- After a release or a downgrade of a held lock that the lock manager grants, some lock of the key needs the level of
the request. -/
def Tight (s t : State n) (ans : Answers) : Call n → Prop
  | .lock _ _ | .convert _ _ => True
  | .downgrade l | .release l => s.Held l → ans.convert = true →
      ∀ k, t.Sharer l k → ∃ m, t.Sharer l m ∧ (t.locks m).logical = (t.locks k).physical

/-- The lock block as `LCK_release` leaves it. -/
def Lock.released (lock : Lock n) : Lock n :=
  { lock with physical := .none, logical := .none, id := 0, attached := false }

namespace Shares

theorem heads_iff (hs : Shares hash s rows) (hl : s.Held l) : s.Heads hash l ↔ (rows (s.key l)).head? = some l := by
  have hmem : l ∈ rows (s.key l) := (hs.mem_iff _ _).mpr ⟨hl, rfl⟩
  obtain ⟨h, rest, hrow⟩ := exists_cons_of_ne_nil (ne_nil_of_mem hmem)
  obtain ⟨prior, hget⟩ := hs.hashGetLock (hs.attached hl) hrow
  rw [hrow, State.Heads, hget]
  simp

theorem sharer_iff (hs : Shares hash s rows) (m : Fin n) : s.Sharer l m ↔ m ∈ rows (s.key l) := (hs.mem_iff _ _).symm

theorem decides (hs : Shares hash s rows) {rest : List (Fin n)} (hrow : rows (s.key l) = h :: rest)
    (hadmits : s.Admits hash l level) : Decides s (rows (s.key l)) h l level := by
  rcases hadmits with hall | ⟨m, hm, hast, hmcompatible⟩ | ⟨h', m, hh', hhead, hm, hmcompatible⟩
  · exact .inl fun m hm => hall m ((hs.sharer_iff m).mpr hm)
  · exact .inr (.inl ⟨m, (hs.sharer_iff m).mp hm, hast, hmcompatible⟩)
  · have hfirst := (hs.heads_iff hh'.1).mp hhead
    rw [hh'.2, hrow, head?_cons] at hfirst
    cases hfirst
    exact .inr (.inr ⟨m, (hs.sharer_iff m).mp hm, hmcompatible⟩)

theorem lckLock (hs : Shares hash s rows) (hl : ¬s.Held l) (hlevel : level ≠ .none)
    (hlink : (∀ m, ¬s.Sharer l m) → s.identical l = none) (hadmits : s.Admits hash l level) (hfresh : Fresh s ans) :
    ∃ t result, s.lckLock hash deliver ans l level = some (t, result) ∧ ∃ rows', Shares hash t rows' := by
  let u := s.modify l fun lock => { lock with attached := true }
  have hu : Shares hash u rows := hs.modify_free hl _ (by intro lock; rfl) (by intro lock; rfl) (by intro lock; rfl)
    (by intro lock; rfl) (by simpa [State.Held] using hl) (hs.free l hl)
  have hukey : u.key = s.key := funext (field_modify Lock.key _ (by intro lock; rfl))
  have huid : ∀ k, (u.locks k).id = (s.locks k).id := field_modify Lock.id _ (by intro lock; rfl)
  have hul : ¬u.Held l := by
    rw [State.Held, huid]
    exact hl
  have huatt : (u.locks l).attached = true := by rw [modify_self]
  have hsome : (u.locks l).compatible.isSome = true := hu.compatible l
  have hulinks : u.identical = s.identical := funext (field_modify Lock.identical _ (by intro lock; rfl))
  -- what the internal part of the call leaves
  obtain ⟨v, result, henqueue, hheld, rows', hv⟩ : ∃ v result, u.internalEnqueue hash deliver ans l level
      false = some (v, result) ∧
      ((result = .refused ∧ ¬v.Held l) ∨ (result = .granted ∧ v.Held l)) ∧ ∃ rows', Shares hash v rows' := by
    cases hrow : rows (s.key l) with
    | nil =>
      obtain ⟨heads, hlinked⟩ := hu.linked
      have hurow : rows (u.key l) = [] := by rw [hukey, hrow]
      have hnone : u.identical l = none := by
        rw [hulinks]
        refine hlink fun m hm => ?_
        have hmem := (hs.sharer_iff m).mp hm
        rw [hrow] at hmem
        cases hmem
      have hget := hlinked.hashGetLock_nil huatt hurow
      rw [State.internalEnqueue, hget]
      exact hu.enqueueNew hurow hlevel huatt hul hnone hfresh
    | cons h rest =>
      have hurow : rows (u.key l) = h :: rest := by rw [hukey, hrow]
      have hsame : ∀ m ∈ rows (s.key l), u.locks m = s.locks m := by
        intro m hm
        refine modify_of_ne _ ?_
        rintro rfl
        exact hl (hs.held_of_mem hm).1
      have hmemh : h ∈ rows (s.key l) := by
        rw [hrow]
        exact .head rest
      have hcompatible : ∀ lock : Lock n, Lck.compatible lock (u.locks l) level = Lck.compatible
          lock (s.locks l) level := by
        intro lock
        rw [modify_self]
        rfl
      have hdecides : Decides u (rows (u.key l)) h l level := by
        rw [hukey]
        rcases hs.decides hrow hadmits with hall | ⟨m, hm, hast, hno⟩ | ⟨m, hm, hno⟩
        · refine .inl fun m hm => ?_
          rw [hcompatible, hsame m hm]
          exact hall m hm
        · refine .inr (.inl ⟨m, hm, ?_, ?_⟩)
          · rw [hsame m hm]
            exact hast
          · rw [hcompatible, hsame m hm]
            exact hno
        · refine .inr (.inr ⟨m, hm, ?_⟩)
          rw [hsame m hm, hsame h hmemh]
          exact hno
      obtain ⟨prior, hget⟩ := hu.hashGetLock huatt hurow
      obtain ⟨b, hb, hall⟩ := hu.internalCompatible deliver hurow hdecides
      rw [State.internalEnqueue, hget]
      simp only [hb]
      cases b with
      | false => exact ⟨u, .refused, rfl, .inl ⟨rfl, hul⟩, rows, hu⟩
      | true =>
        have hflag : false = true ↔ u.Held l := by simp [hul]
        obtain ⟨v, result, hshare, hcases⟩ := hu.shareRequest ans hurow hlevel huatt (hall rfl) hflag
        simp only [hget]
        refine ⟨v, result, hshare, ?_⟩
        rcases hcases with ⟨rfl, rfl⟩ | ⟨rfl, hvl, hrows'⟩
        · exact ⟨.inl ⟨rfl, hul⟩, rows, hu⟩
        · exact ⟨.inr ⟨rfl, hvl⟩, hrows'⟩
  have hequation : s.lckLock hash deliver ans l level =
      if (v.locks l).id = 0 then some (v.modify l fun lock => { lock with attached := false }, .refused) else some
        (v, .granted) := by
    rw [State.lckLock, if_pos hsome, henqueue]
    rfl
  rw [hequation]
  rcases hheld with ⟨-, hvl⟩ | ⟨-, hvl⟩
  · have hid : (v.locks l).id = 0 := by
      by_contra hne
      exact hvl hne
    rw [if_pos hid]
    exact ⟨_, _, rfl, rows', hv.modify_free hvl _ (by intro lock; rfl) (by intro lock; rfl) (by intro lock; rfl)
      (by intro lock; rfl) hid (hv.free l hvl)⟩
  · rw [if_neg hvl]
    exact ⟨_, _, rfl, rows', hv⟩

theorem lckConvert (hs : Shares hash s rows) (hl : s.Held l) (hlevel : level ≠ .none)
    (hadmits : s.Admits hash l level) :
    ∃ t result, s.lckConvert hash deliver ans l level = some (t, result) ∧ ∃ rows', Shares hash t rows' := by
  have hatt := hs.attached hl
  have hsame : (s.modify l fun lock => { lock with attached := true }) = s := by
    have hlock : { s.locks l with attached := true } = s.locks l := by rw [← hatt]
    rw [State.modify, hlock, update_eq_self]
  have hmem : l ∈ rows (s.key l) := (hs.mem_iff _ _).mpr ⟨hl, rfl⟩
  obtain ⟨h, rest, hrow⟩ := exists_cons_of_ne_nil (ne_nil_of_mem hmem)
  obtain ⟨prior, hget⟩ := hs.hashGetLock hatt hrow
  obtain ⟨b, hb, hall⟩ := hs.internalCompatible deliver hrow (hs.decides hrow hadmits)
  obtain ⟨v, result, henqueue, hcases⟩ : ∃ v result, s.internalEnqueue hash deliver ans l level true = some (v,
      result) ∧ ((result = .refused ∧ v = s) ∨ (result = .granted ∧ v.Held l ∧ ∃ rows', Shares hash v rows')) := by
    rw [State.internalEnqueue, hget]
    simp only [hb]
    cases b with
    | false => exact ⟨s, .refused, rfl, .inl ⟨rfl, rfl⟩⟩
    | true =>
      simp only [hget]
      exact hs.shareRequest ans hrow hlevel hatt (hall rfl) (by simp [hl])
  rw [State.lckConvert]
  simp only [hsame]
  rw [if_pos (hs.compatible l), henqueue]
  rcases hcases with ⟨rfl, rfl⟩ | ⟨rfl, -, rows', hv⟩
  · have hback : (v.modify l fun lock => { lock with attached := (v.locks l).attached }) = v := by
      rw [State.modify, update_eq_self]
    simp only [hback]
    exact ⟨v, .refused, rfl, rows, hs⟩
  · exact ⟨v, .granted, rfl, rows', hv⟩

/-! ### Downgrading and releasing -/


section
variable (hs : Shares hash s rows)
include hs

theorem lower (gone : List (Fin n)) (r : Request n) {key : Key} (hsu : SameLocks s u)
    (hlinked : Linked hash u rows' heads') (hrows : ∀ key', key' ≠ key → rows' key' = rows key')
    (hmem : ∀ k, k ∈ rows' key ↔ k ∈ rows key ∧ k ∉ gone)
    (hlocks : ∀ k, v.locks k = if k ∈ rows' key then { u.locks k with physical := r.level } else u.locks k)
    (htable : v.table = u.table)
    (hrequest : ∀ k ∈ rows' key, v.requests (s.locks k).id = some r ∧ r.argument ∈ rows' key)
    (hlevel : ∀ k ∈ rows' key, (s.locks k).logical.ord ≤ r.level.ord)
    (hother : ∀ k, s.Held k → s.key k ≠ key → v.requests (s.locks k).id = s.requests (s.locks k).id)
    (hstay : ∀ k, k ∉ gone → t.locks k = v.locks k)
    (hgone : ∀ k ∈ gone, s.key k = key ∧
      t.locks k = (v.locks k).released)
    (httable : t.table = v.table) (htrequests : t.requests = v.requests) : Shares hash t rows' := by
  -- no link, no key and no compatibility block changed after the lists did
  have hfield : ∀ {τ : Type} (g : Lock n → τ), (∀ (lock : Lock n) id logical physical attached,
      g { lock with id := id, logical := logical, physical := physical, attached := attached } = g lock) →
      ∀ k, g (t.locks k) = g (u.locks k) := by
    intro τ g hg k
    have hv : g (v.locks k) = g (u.locks k) := by
      rw [hlocks]
      split
      · exact hg (u.locks k) _ _ _ _
      · rfl
    by_cases hk : k ∈ gone
    · rw [(hgone k hk).2, ← hv]
      exact hg (v.locks k) _ _ _ _
    · rw [hstay k hk, hv]
  have htlinked : Linked hash t rows' heads' :=
    hlinked.congr (funext (hfield Lock.collision fun _ _ _ _ _ => rfl))
    (funext (hfield Lock.identical fun _ _ _ _ _ => rfl))
      (funext (hfield Lock.key fun _ _ _ _ _ => rfl)) (httable.trans htable)
  have hlike : ∀ {τ : Type} (g : Lock n → τ), (∀ lock : Lock n, g lock.bare = g lock) →
      (∀ (lock : Lock n) physical, g { lock with physical := physical } = g lock) →
      ∀ k, k ∉ gone → g (t.locks k) = g (s.locks k) := by
    intro τ g hg hphysical k hk
    rw [hstay k hk, hlocks, ← hsu.field g hg k]
    split
    · exact hphysical _ _
    · rfl
  refine hs.settle htlinked hrows hmem ?_ (fun k => ?_) (fun k hk => ?_) (fun k hk => ?_) (fun k hk => ?_) (fun k hk =>
    ?_) (fun k hk => ?_) (fun k hk => ?_) hlevel (fun k hk hkk => ?_)
  · exact (funext (hfield Lock.key fun _ _ _ _ _ => rfl)).trans hsu.key
  · rw [hfield Lock.compatible (fun _ _ _ _ _ => rfl), hsu.field Lock.compatible fun _ => rfl]
  · obtain ⟨hkk, hcleared⟩ := hgone k hk
    rw [hcleared]
    exact ⟨hkk, rfl, rfl⟩
  · exact hlike Lock.fixed (fun _ => rfl) (fun _ _ => rfl) k hk
  · exact hlike Lock.id (fun _ => rfl) (fun _ _ => rfl) k hk
  · exact hlike Lock.logical (fun _ => rfl) (fun _ _ => rfl) k hk
  · rw [hstay k hk, hlocks]
    split
    · rfl
    · exact hsu.field Lock.physical (fun _ => rfl) k
  · rw [htrequests]
    exact hrequest k hk
  · rw [htrequests]
    exact hother k hk hkk

theorem physical_ne_none (hl : s.Held l) : (s.locks l).physical ≠ .none := by
  obtain ⟨r, hr⟩ := hs.groups l hl
  obtain ⟨hne, hle⟩ := hr.covered l hl rfl
  rw [(hr.same l hl rfl).2]
  intro hnone
  rw [hnone] at hle
  exact hne (Level.ord_injective (Nat.le_zero.mp hle))

theorem id_injOn (hk : s.Held k) (hl : s.Held l) (hne : s.key k ≠ s.key l) :
    (s.locks k).id ≠ (s.locks l).id := fun heq => hne (hs.apart k l hk hl heq)

theorem lckDowngrade_free (hl : ¬s.Held l) :
    ∃ t result, s.lckDowngrade ans l = some (t, result) ∧ Shares hash t rows := by
  have hcond : ¬((s.locks l).id ≠ 0 ∧ (s.locks l).physical ≠ .none) := fun h => hl h.1
  have hphysical := hs.free l hl
  rw [State.lckDowngrade, if_neg hcond]
  simp only
  rw [if_pos hphysical]
  exact ⟨_, _, rfl, hs.modify_free hl _ (by intro lock; rfl) (by intro lock; rfl) (by intro lock; rfl)
    (by intro lock; rfl) rfl hphysical⟩

end

section
variable (hs : Shares hash s rows) (hl : s.Held l)
include hs hl

theorem lckDowngrade (hmeets : s.Heads hash l ∨ ans.convert = false ∨
      ∃ row, walk s.identical n (some l) = some row ∧ ∃ m ∈ row, (s.locks m).logical = (s.locks l).physical) :
    ∃ t result, s.lckDowngrade ans l = some (t, result) ∧ Shares hash t rows ∧ Tight s t ans (.downgrade l) := by
  have hcond : (s.locks l).id ≠ 0 ∧ (s.locks l).physical ≠ .none := ⟨hl, hs.physical_ne_none hl⟩
  obtain ⟨heads, hlinked⟩ := hs.linked
  obtain ⟨r, hr⟩ := hs.groups l hl
  have hmem : l ∈ rows (s.key l) := (hs.mem_iff _ _).mpr ⟨hl, rfl⟩
  obtain ⟨A, B, hrow⟩ := append_of_mem hmem
  have hwalk := hlinked.walk_row hrow
  have hin : ∀ k ∈ l :: B, k ∈ rows (s.key l) := by
    intro k hk
    rw [hrow]
    exact mem_append_right A hk
  have hlevels : ∀ k ∈ l :: B, (s.locks k).logical ≠ .none := by
    intro k hk
    obtain ⟨hks, hkk⟩ := hs.held_of_mem (hin k hk)
    exact (hr.covered k hks hkk).1
  obtain ⟨high, hhigh, hlevel⟩ := s.exists_highest (cons_ne_nil l B) hlevels
  have hlphysical := (hr.same l hl rfl).2
  -- the call as the model computes it
  have hdowngrade := s.internalDowngrade_of_walk ans hwalk
  have hfinish : ∀ v : State n, s.internalDowngrade ans l = some v → (v.locks l).physical ≠ .none →
      s.lckDowngrade ans l = some (v, .granted) := by
    intro v hv hne
    rw [State.lckDowngrade, if_pos hcond, if_pos (hs.compatible l), hv]
    simp only
    rw [if_neg hne]
  by_cases hlower : (s.highest (l :: B)).ord < (s.locks l).physical.ord ∧ ans.convert = true
  · rw [if_pos hlower] at hdowngrade
    -- then the lock heads its list
    have hhead : s.Heads hash l := by
      rcases hmeets with hhead | hno | ⟨row, hwalk', m, hm, hmlevel⟩
      · exact hhead
      · rw [hno] at hlower
        cases hlower.2
      · rw [hwalk] at hwalk'
        cases hwalk'
        have hle := s.le_highest hm
        rw [hmlevel] at hle
        omega
    have hA : A = [] := by
      have hfirst := (hs.heads_iff hl).mp hhead
      cases A with
      | nil => rfl
      | cons a A =>
        rw [hrow, cons_append, head?_cons, Option.some.injEq] at hfirst
        have hnodup := hlinked.row_nodup (s.key l)
        rw [hrow, cons_append, nodup_cons, hfirst] at hnodup
        exact absurd (mem_append_right A (.head B)) hnodup.1
    rw [hA] at hrow
    obtain ⟨v, hv⟩ : ∃ v, v = (s.lmConvert (s.locks l).id (s.highest (l :: B)) l).setPhysical
        (l :: B) (s.highest (l :: B)) :=
      ⟨_, rfl⟩
    rw [← hv] at hdowngrade
    have hvlocks : ∀ k, v.locks k =
        if k ∈ rows (s.key l) then { s.locks k with physical := s.highest (l :: B) } else s.locks k := by
      intro k
      rw [hv, hrow]
      rfl
    have hvs : Shares hash v rows := by
      refine hs.lower [] ⟨s.highest (l :: B), l⟩ (.refl s) hlinked (fun _ _ => rfl) (fun k => ?_) hvlocks ?_
        (fun k hk => ?_) (fun k hk => ?_) (fun k hk hkk => ?_) (fun _ _ => rfl) (fun k hk => ?_) rfl rfl
      · simp
      · rw [hv]
        rfl
      · obtain ⟨hks, hkk⟩ := hs.held_of_mem hk
        refine ⟨?_, hmem⟩
        rw [(hr.same k hks hkk).1, hv]
        exact update_self _ _ _
      · rw [hrow] at hk
        exact s.le_highest hk
      · rw [hv]
        exact update_of_ne (hs.id_injOn hk hl hkk) _ _
      · cases hk
    have hphysical : ∀ k ∈ rows (s.key l), (v.locks k).physical = s.highest (l :: B) := by
      intro k hk
      rw [hvlocks, if_pos hk]
    have hkey : v.key l = s.key l := by
      rw [State.key, hvlocks, if_pos hmem]
      rfl
    refine ⟨v, .granted, hfinish v hdowngrade ?_, hvs, fun _ _ k hk => ⟨high, ?_, ?_⟩⟩
    · rw [hphysical l hmem, ← hlevel]
      exact hlevels high hhigh
    · rw [hvs.sharer_iff, hkey]
      exact hin high hhigh
    · rw [hvs.sharer_iff, hkey] at hk
      rw [hphysical k hk, hvlocks, if_pos (hin high hhigh)]
      exact hlevel
  · rw [if_neg hlower] at hdowngrade
    refine ⟨s, .granted, hfinish s hdowngrade hcond.2, hs, fun _ hconvert k hk => ⟨high, ?_, ?_⟩⟩
    · exact (hs.sharer_iff high).mpr (hin high hhigh)
    · obtain ⟨hhs, hhk⟩ := hs.held_of_mem (hin high hhigh)
      have hle := (hr.covered high hhs hhk).2
      have hnot : ¬(s.highest (l :: B)).ord < (s.locks l).physical.ord := fun hlt => hlower ⟨hlt, hconvert⟩
      rw [← hlevel, hlphysical] at hnot
      rw [(hr.same k hk.1 hk.2).2]
      exact Level.ord_injective (by omega)

/-- The call returns, the locks still share their requests, and none is higher than needed. -/
def Keeps (hash : List UInt8 → Nat) (s : State n) (ans : Answers) (c : Call n) (r : Option (State n × Result)) : Prop :=
  ∃ t result, r = some (t, result) ∧ (∃ rows', Shares hash t rows') ∧ Tight s t ans c

theorem lckRelease_eq {result : Result}
    (hdequeue : s.internalDequeue hash ans l = some (v, result))
    (hresult : result ≠ .bugcheck) : s.lckRelease hash ans l =
      some (v.modify l Lock.released, .granted) := by
  rw [State.lckRelease, if_neg (hs.physical_ne_none hl), if_pos (hs.compatible l), hdequeue]
  cases result with
  | bugcheck => exact absurd rfl hresult
  | granted => rfl
  | refused => rfl

theorem lckRelease_only (hrow : rows (s.key l) = [l]) (hdequeue : ans.dequeue = true) :
    Keeps hash s ans (.release l) (s.lckRelease hash ans l) := by
  obtain ⟨heads, hlinked⟩ := hs.linked
  obtain ⟨u, heads', hremove, hsu, hu⟩ := hlinked.remove_only (hs.attached hl) hrow
  have huid : (u.locks l).id = (s.locks l).id := hsu.field Lock.id (fun _ => rfl) l
  let v := (u.lmDequeue (u.locks l).id).modify l fun lock => { lock with id := 0, physical := .none, logical := .none }
  let t := v.modify l Lock.released
  have hequation : s.internalDequeue hash ans l = some (v, .granted) := by
    rw [State.internalDequeue, hremove]
    simp only [hdequeue, if_true]
    rfl
  have ht : Shares hash t (update rows (s.key l) []) := by
    refine hs.lower [l] ⟨.none, l⟩ (v := u.lmDequeue (u.locks l).id) hsu hu (fun key hk => update_of_ne hk _ _)
      (fun k => ?_) (fun k => ?_) rfl (fun k hk => ?_) (fun k hk => ?_) (fun k hk hkk => ?_)
      (fun k hk => ?_) (fun k hk => ?_) rfl rfl
    · rw [hrow]
      simp
    · rw [update_self]
      rfl
    · rw [update_self] at hk
      cases hk
    · rw [update_self] at hk
      cases hk
    · rw [State.lmDequeue, huid]
      simp only [hsu.requests]
      exact update_of_ne (hs.id_injOn hk hl hkk) _ _
    · rw [mem_singleton] at hk
      simp only [t, v, modify_of_ne _ hk]
    · rw [mem_singleton] at hk
      cases hk
      refine ⟨rfl, ?_⟩
      simp only [t, v, modify_self]
      rfl
  refine ⟨t, .granted, hs.lckRelease_eq hl hequation (by rintro ⟨⟩), ⟨_, ht⟩, fun _ _ k hk => ?_⟩
  have htkey : t.key l = s.key l := by
    have hkey := hsu.field Lock.key (fun _ => rfl) l
    simp only [t, v, State.key, modify_self]
    exact hkey
  have hmem := (ht.sharer_iff k).mp hk
  rw [htkey, update_self] at hmem
  cases hmem

theorem lckRelease_left {r : Request n} {head : Fin n} {row : List (Fin n)}
    (hremove : s.hashRemoveLock hash l = some (u, some (false, head))) (hsu : SameLocks s u)
    (hu : Linked hash u (update rows (s.key l) row) heads') (hmem : ∀ k, k ∈ row ↔ k ∈ rows (s.key l) ∧ k ≠ l)
    (hdowngrade : u.internalDowngrade ans head = some v)
    (hlocks : ∀ k, v.locks k = if k ∈ row then { u.locks k with physical := r.level } else u.locks k)
    (htable : v.table = u.table) (hrequest : v.requests (s.locks l).id = some r) (hargument : r.argument ∈ row)
    (hlevel : ∀ k ∈ row, (s.locks k).logical.ord ≤ r.level.ord)
    (hother : ∀ id, id ≠ (s.locks l).id → v.requests id = s.requests id)
    (htight : ans.convert = true → ∃ k ∈ row, (s.locks k).logical = r.level) :
    Keeps hash s ans (.release l) (s.lckRelease hash ans l) := by
  have hequation : s.internalDequeue hash ans l = some (v, .granted) := by
    rw [State.internalDequeue, hremove]
    simp only [hdowngrade]
  obtain ⟨r₀, hr₀⟩ := hs.groups l hl
  let t := v.modify l Lock.released
  have hid : ∀ k ∈ row, (s.locks k).id = (s.locks l).id := by
    intro k hk
    obtain ⟨hks, hkk⟩ := hs.held_of_mem ((hmem k).mp hk).1
    exact (hr₀.same k hks hkk).1
  have hstay : ∀ k, k ≠ l → t.locks k = v.locks k := fun k hk => modify_of_ne _ hk
  have ht : Shares hash t (update rows (s.key l) row) := by
    refine hs.lower [l] r hsu hu (fun key hk => update_of_ne hk _ _) (fun k => ?_) (fun k => ?_) htable (fun k hk => ?_)
      (fun k hk => ?_) (fun k hk hkk => ?_) (fun k hk => ?_) (fun k hk => ?_) rfl rfl
    · rw [update_self, hmem, mem_singleton]
    · rw [update_self]
      exact hlocks k
    · rw [update_self] at hk
      rw [hid k hk, update_self]
      exact ⟨hrequest, hargument⟩
    · rw [update_self] at hk
      exact hlevel k hk
    · exact hother _ (hs.id_injOn hk hl hkk)
    · rw [mem_singleton] at hk
      exact hstay k hk
    · rw [mem_singleton] at hk
      cases hk
      exact ⟨rfl, modify_self _⟩
  have hlrow : l ∉ row := fun hlrow => ((hmem l).mp hlrow).2 rfl
  have htkey : t.key l = s.key l := by
    have hkey : t.key l = v.key l := field_modify Lock.key _ (by intro lock; rfl) l
    rw [hkey, State.key, hlocks, if_neg hlrow]
    exact hsu.field Lock.key (fun _ => rfl) l
  refine ⟨t, .granted, hs.lckRelease_eq hl hequation (by rintro ⟨⟩), ⟨_, ht⟩, fun _ hconvert k hk => ?_⟩
  obtain ⟨m, hm, hmlevel⟩ := htight hconvert
  have hmne : m ≠ l := ((hmem m).mp hm).2
  rw [ht.sharer_iff, htkey, update_self] at hk
  have hkne : k ≠ l := ((hmem k).mp hk).2
  refine ⟨m, ?_, ?_⟩
  · rw [ht.sharer_iff, htkey, update_self]
    exact hm
  · rw [hstay m hmne, hstay k hkne, hlocks, if_pos hm, hlocks, if_pos hk]
    exact (hsu.field Lock.logical (fun _ => rfl) m).trans hmlevel

theorem lckRelease (hreleases : s.Releases hash ans l) :
    Keeps hash s ans (.release l) (s.lckRelease hash ans l) := by
  obtain ⟨heads, hlinked⟩ := hs.linked
  obtain ⟨r, hr⟩ := hs.groups l hl
  have hmem : l ∈ rows (s.key l) := (hs.mem_iff _ _).mpr ⟨hl, rfl⟩
  have hlphysical := (hr.same l hl rfl).2
  have hargument : s.argument l ≠ some l → r.argument ∈ rows (s.key l) ∧ r.argument ≠ l := by
    intro hne
    refine ⟨(hs.mem_iff _ _).mpr hr.argument, fun heq => hne ?_⟩
    rw [State.argument, hr.request, Option.map_some, heq]
  obtain ⟨hsingle, hseveral⟩ := hreleases
  have hnodup := hlinked.row_nodup (s.key l)
  have hstay : ∀ {u : State n} {row : List (Fin n)}, SameLocks s u → (∀ k, k ∈ row ↔ k ∈ rows (s.key l) ∧ k ≠ l) →
      ∀ k, u.locks k = if k ∈ row then { u.locks k with physical := r.level } else u.locks k := by
    intro u row hsu hrowmem k
    split
    · next hk =>
      obtain ⟨hks, hkk⟩ := hs.held_of_mem ((hrowmem k).mp hk).1
      have hphysical : (u.locks k).physical = (s.locks k).physical := hsu.field Lock.physical (fun _ => rfl) k
      rw [← (hr.same k hks hkk).2, ← hphysical]
    · rfl
  have hcovered : ∀ {row : List (Fin n)}, (∀ k, k ∈ row ↔ k ∈ rows (s.key l) ∧ k ≠ l) →
      ∀ k ∈ row, (s.locks k).logical ≠ .none ∧ (s.locks k).logical.ord ≤ r.level.ord := by
    intro row hrowmem k hk
    obtain ⟨hks, hkk⟩ := hs.held_of_mem ((hrowmem k).mp hk).1
    exact hr.covered k hks hkk
  by_cases honly : ∀ m, s.Sharer l m → m = l
  · have hrow : rows (s.key l) = [l] := by
      have hall : ∀ k ∈ rows (s.key l), k = l := fun k hk => honly k ((hs.sharer_iff k).mpr hk)
      rw [eq_replicate_of_mem hall, nodup_replicate] at hnodup
      have hlength : (rows (s.key l)).length = 1 := le_antisymm hnodup (length_pos_of_mem hmem)
      rw [eq_replicate_of_mem hall, hlength]
      rfl
    exact hs.lckRelease_only hl hrow (hsingle honly)
  · have hsome : ∃ m, s.Sharer l m ∧ m ≠ l := by
      by_contra hnone
      exact honly fun m hm => by_contra fun hne => hnone ⟨m, hm, hne⟩
    obtain ⟨hfirst, hlater⟩ := hseveral hsome
    obtain ⟨h, rest, hrow⟩ := exists_cons_of_ne_nil (ne_nil_of_mem hmem)
    by_cases hhead : s.Heads hash l
    · -- the first of several
      have hhl := (hs.heads_iff hl).mp hhead
      rw [hrow, head?_cons] at hhl
      cases hhl
      obtain ⟨harg, hlevels⟩ := hfirst hhead
      cases rest with
      | nil =>
        obtain ⟨m, hm, hne⟩ := hsome
        rw [hs.sharer_iff, hrow, mem_singleton] at hm
        exact absurd hm hne
      | cons m rest =>
        obtain ⟨u, heads', hremove, hsu, hu, huidentical⟩ := hlinked.remove_head (hs.attached hl) hrow
        rw [hrow] at hnodup
        have hrowmem : ∀ k, k ∈ m :: rest ↔ k ∈ rows (s.key l) ∧ k ≠ l := by
          intro k
          rw [hrow, mem_cons (a := k) (b := l)]
          constructor
          · intro hk
            refine ⟨.inr hk, ?_⟩
            rintro rfl
            exact (nodup_cons.mp hnodup).1 hk
          · rintro ⟨hk | hk, hne⟩
            · exact absurd hk hne
            · exact hk
        -- the walk that looks for the level still starts at the lock
        have hwalk : walk u.identical n (some l) = some (l :: m :: rest) := by
          rw [huidentical]
          exact hlinked.walk_row (A := []) hrow
        have hno : ¬((u.highest (l :: m :: rest)).ord < (u.locks l).physical.ord ∧ ans.convert = true) := by
          rintro ⟨hlt, hconvert⟩
          rcases hlevels with ⟨k, hk, hne, hklevel⟩ | ⟨hrefuse, -⟩
          · have hkin : k ∈ l :: m :: rest := by
              rw [← hrow]
              exact (hs.sharer_iff k).mp hk
            have hle := u.le_highest hkin
            rw [hsu.field Lock.logical (fun _ => rfl) k, hklevel] at hle
            rw [hsu.field Lock.physical (fun _ => rfl) l] at hlt
            omega
          · rw [hrefuse] at hconvert
            cases hconvert
        have hdowngrade := u.internalDowngrade_of_walk ans hwalk
        rw [if_neg hno] at hdowngrade
        refine hs.lckRelease_left hl hremove hsu hu hrowmem hdowngrade (hstay hsu hrowmem) rfl ?_
          ((hrowmem _).mpr (hargument harg))
          (fun k hk => (hcovered hrowmem k hk).2) (fun id _ => by rw [hsu.requests]) fun hconvert => ?_
        · rw [hsu.requests]
          exact hr.request
        · rcases hlevels with ⟨k, hk, hne, hklevel⟩ | ⟨hrefuse, -⟩
          · exact ⟨k, (hrowmem k).mpr ⟨(hs.sharer_iff k).mp hk, hne⟩, hklevel.trans hlphysical⟩
          · rw [hrefuse] at hconvert
            cases hconvert
    · -- one further down
      have hne : h ≠ l := by
        rintro rfl
        refine hhead ((hs.heads_iff hl).mpr ?_)
        rw [hrow]
        rfl
      have hlrest : l ∈ rest := by
        rw [hrow] at hmem
        exact (mem_cons.mp hmem).resolve_left (Ne.symm hne)
      obtain ⟨A, B, hsplit⟩ := append_of_mem hlrest
      rw [hsplit] at hrow
      obtain ⟨u, hremove, hsu, hu⟩ := hlinked.remove_later (hs.attached hl) hrow
      rw [hrow] at hnodup
      have hrowmem : ∀ k, k ∈ h :: (A ++ B) ↔ k ∈ rows (s.key l) ∧ k ≠ l := by
        intro k
        have hlA : l ∉ A ++ B := (nodup_middle.mp (nodup_cons.mp hnodup).2).notMem
        rw [hrow]
        simp only [mem_cons, mem_append]
        constructor
        · rintro (rfl | hk)
          · exact ⟨.inl rfl, hne⟩
          · refine ⟨.inr (hk.imp_right .inr), ?_⟩
            rintro rfl
            exact hlA (mem_append.mpr hk)
        · rintro ⟨rfl | hk | rfl | hk, hkl⟩
          · exact .inl rfl
          · exact .inr (.inl hk)
          · exact absurd rfl hkl
          · exact .inr (.inr hk)
      have hhmem : h ∈ h :: (A ++ B) := .head _
      obtain ⟨hhs, hhk⟩ := hs.held_of_mem ((hrowmem h).mp hhmem).1
      have hwalk : walk u.identical n (some h) = some (h :: (A ++ B)) := by
        have hurow : update rows (s.key l) (h :: (A ++ B)) (s.key l) = [] ++ h :: (A ++ B) := update_self _ _ _
        exact hu.walk_row hurow
      have hlogical : ∀ k, (u.locks k).logical = (s.locks k).logical := hsu.field Lock.logical fun _ => rfl
      have hphysical : (u.locks h).physical = r.level := by
        rw [hsu.field Lock.physical (fun _ => rfl) h]
        exact (hr.same h hhs hhk).2
      have hid : (u.locks h).id = (s.locks l).id := by
        rw [hsu.field Lock.id (fun _ => rfl) h]
        exact (hr.same h hhs hhk).1
      obtain ⟨high, hhigh, hlevel⟩ := u.exists_highest (cons_ne_nil h (A ++ B)) fun k hk => by
        rw [hlogical]
        exact (hcovered hrowmem k hk).1
      rw [hlogical] at hlevel
      have hdowngrade := u.internalDowngrade_of_walk ans hwalk
      by_cases hlower : (u.highest (h :: (A ++ B))).ord < (u.locks h).physical.ord ∧ ans.convert = true
      · rw [if_pos hlower, hid] at hdowngrade
        refine hs.lckRelease_left (r := ⟨u.highest (h :: (A ++ B)), h⟩) hl hremove hsu hu hrowmem hdowngrade (fun k =>
          ?_) rfl (update_self _ _ _) hhmem (fun k hk => ?_) (fun id hidne => ?_) fun _ => ⟨high, hhigh, hlevel⟩
        · rfl
        · rw [← hlogical]
          exact u.le_highest hk
        · rw [← hsu.requests]
          exact update_of_ne hidne _ _
      · rw [if_neg hlower] at hdowngrade
        have hle : high ∈ rows (s.key l) ∧ high ≠ l := (hrowmem high).mp hhigh
        have hsame : ans.convert = true → (s.locks high).logical = r.level := by
          intro hconvert
          have hnot : ¬(u.highest (h :: (A ++ B))).ord < (u.locks h).physical.ord := fun hlt => hlower ⟨hlt, hconvert⟩
          rw [← hlevel, hphysical] at hnot
          have hcover := (hcovered hrowmem high hhigh).2
          exact Level.ord_injective (by omega)
        have harg : s.argument l ≠ some l := by
          rcases hlater hhead with harg | ⟨hconvert, hall⟩
          · exact harg
          · refine absurd ((hsame hconvert).trans hlphysical.symm) (hall high ?_ hle.2)
            exact (hs.sharer_iff high).mpr hle.1
        refine hs.lckRelease_left hl hremove hsu hu hrowmem hdowngrade (hstay hsu hrowmem) rfl ?_
          ((hrowmem _).mpr (hargument harg))
          (fun k hk => (hcovered hrowmem k hk).2) (fun id _ => by rw [hsu.requests]) fun hconvert =>
          ⟨high, hhigh, hsame hconvert⟩
        rw [hsu.requests]
        exact hr.request

end

end Shares

/-! ### The locks after every call -/

namespace State

def slotLists (s : State n) (slot : Fin lockHashSize) : Option (List (List (Fin n))) :=
  (walk s.collision n (s.table slot)).bind fun heads => heads.mapM fun h => walk s.identical n (some h)

structure Initial (s : State n) : Prop where
  locks : ∀ k, (s.locks k).id = 0 ∧ (s.locks k).physical = .none ∧ (s.locks k).compatible.isSome = true
  table : ∀ slot, s.table slot = none

end State

structure Coherent (hash : List UInt8 → Nat) (s : State n) : Prop where
  /-- The held locks of a key are one list, which the hash table leads to once. -/
  lists : ∃ lists : Fin lockHashSize → List (List (Fin n)), (∀ slot, s.slotLists slot = some (lists slot)) ∧
    (∀ slot, ∀ row ∈ lists slot, ∀ k ∈ row, ∀ m, m ∈ row ↔ s.Sharer k m) ∧
    ∀ slot k, (lists slot).flatten.count k = if s.Held k ∧ State.slot hash (s.key k) = slot then 1 else 0
  request : ∀ k, s.Held k → ∃ r, s.requests (s.locks k).id = some r ∧ s.Sharer k r.argument ∧
    ∀ m, s.Sharer k m → (s.locks m).id = (s.locks k).id ∧ (s.locks m).physical = r.level ∧
      (s.locks m).logical.ord ≤ r.level.ord
  compatible : ∀ k m, s.Held k → s.Sharer k m → (s.locks k).compatible ≠ (s.locks m).compatible →
    Firebird.Lock.compatible (s.locks k).logical (s.locks m).logical = true

theorem mapM_eq_some {α β : Type} {f : α → Option β} {g : α → β} {row : List α} (hf : ∀ a ∈ row, f a = some (g a)) :
    row.mapM f = some (row.map g) := by
  induction row with
  | nil => rfl
  | cons a row ih =>
    rw [mapM_cons, hf a (.head row), ih fun b hb => hf b (.tail a hb)]
    rfl

namespace Shares

theorem initial (hs : s.Initial) : Shares hash s fun _ => [] := by
  have hheld : ∀ k, ¬s.Held k := fun k hk => hk (hs.locks k).1
  refine ⟨⟨fun _ => [], ?_, ?_, ?_, ?_⟩, ?_, ?_, ?_, ?_, ?_⟩
  · exact fun slot => hs.table slot
  · exact fun key => rfl
  · simp
  · exact fun key k hk => (nomatch hk)
  · exact fun key k => ⟨fun hk => (nomatch hk), fun hk => absurd hk.1 (hheld k)⟩
  · exact fun k hk => absurd hk (hheld k)
  · exact fun k m hk => absurd hk (hheld k)
  · exact fun k => (hs.locks k).2.2
  · exact fun k _ => (hs.locks k).2.1

theorem lists (hs : Shares hash s rows) :
    ∃ lists : Fin lockHashSize → List (List (Fin n)), (∀ slot, s.slotLists slot = some (lists slot)) ∧
      (∀ slot, ∀ row ∈ lists slot, ∀ k ∈ row, ∀ m, m ∈ row ↔ s.Sharer k m) ∧
      ∀ slot k, (lists slot).flatten.count k = if s.Held k ∧ State.slot hash (s.key k) = slot then 1 else 0 := by
  obtain ⟨heads, hlinked⟩ := hs.linked
  have hhead : ∀ slot, ∀ h ∈ heads slot, ∃ rest, rows (s.key h) = h :: rest := by
    intro slot h hh
    have hfirst := ((hlinked.heads_iff slot h).mp hh).2
    cases hrow : rows (s.key h) with
    | nil =>
      rw [hrow] at hfirst
      cases hfirst
    | cons m rest =>
      rw [hrow, head?_cons, Option.some.injEq] at hfirst
      exact ⟨rest, by rw [hfirst]⟩
  have hmem : ∀ slot k, k ∈ ((heads slot).map fun h => rows (s.key h)).flatten ↔ s.Held k ∧
      State.slot hash (s.key k) = slot := by
    intro slot k
    rw [mem_flatten]
    constructor
    · rintro ⟨row, hrow, hk⟩
      obtain ⟨h, hh, rfl⟩ := mem_map.mp hrow
      obtain ⟨hks, hkk⟩ := hs.held_of_mem hk
      rw [hkk]
      exact ⟨hks, ((hlinked.heads_iff slot h).mp hh).1⟩
    · rintro ⟨hks, rfl⟩
      have hkrow : k ∈ rows (s.key k) := (hs.mem_iff _ _).mpr ⟨hks, rfl⟩
      obtain ⟨h, rest, hrow⟩ := exists_cons_of_ne_nil (ne_nil_of_mem hkrow)
      obtain ⟨A, B, hsplit, -⟩ := hlinked.head_split hrow
      have hhk : s.key h = s.key k := hlinked.keys _ h (by rw [hrow]; exact .head rest)
      refine ⟨rows (s.key h), mem_map.mpr ⟨h, ?_, rfl⟩, ?_⟩
      · rw [hsplit]
        simp
      · rw [hhk]
        exact hkrow
  have hnodup : ∀ slot, ((heads slot).map fun h => rows (s.key h)).flatten.Nodup := by
    intro slot
    rw [nodup_flatten]
    refine ⟨fun row hrow => ?_, ?_⟩
    · obtain ⟨h, -, rfl⟩ := mem_map.mp hrow
      exact hlinked.row_nodup _
    · rw [pairwise_map]
      refine (hlinked.heads_nodup slot).imp_of_mem fun {h h'} hh hh' hne => ?_
      intro k hk hk'
      -- locks of two heads with one key would be one
      have hkeys : s.key h = s.key h' := (hs.held_of_mem hk).2.symm.trans (hs.held_of_mem hk').2
      obtain ⟨rest, hrow⟩ := hhead slot h hh
      obtain ⟨rest', hrow'⟩ := hhead slot h' hh'
      rw [hkeys, hrow'] at hrow
      exact hne (cons.inj hrow).1.symm
  refine ⟨fun slot => (heads slot).map fun h => rows (s.key h), fun slot => ?_, fun slot row hrow k hk m => ?_,
    fun slot k => ?_⟩
  · have hwalk := (hlinked.collisions slot).walk_eq (length_le_of_nodup (hlinked.heads_nodup slot))
    rw [State.slotLists, hwalk]
    refine mapM_eq_some fun h hh => ?_
    obtain ⟨rest, hrow⟩ := hhead slot h hh
    rw [hlinked.walk_row (A := []) hrow, hrow]
  · obtain ⟨h, -, rfl⟩ := mem_map.mp hrow
    rw [hs.mem_iff, State.Sharer, (hs.held_of_mem hk).2]
  · split
    · next hk => exact count_eq_one_of_mem (hnodup slot) ((hmem slot k).mpr hk)
    · next hk => exact count_eq_zero_of_not_mem fun hin => hk ((hmem slot k).mp hin)

theorem coherent (hs : Shares hash s rows) : Coherent hash s := by
  refine ⟨hs.lists, fun k hk => ?_, fun k m hk hm hne => ?_⟩
  · obtain ⟨r, hr⟩ := hs.groups k hk
    refine ⟨r, hr.request, hr.argument, fun m hm => ?_⟩
    exact ⟨(hr.same m hm.1 hm.2).1, (hr.same m hm.1 hm.2).2, (hr.covered m hm.1 hm.2).2⟩
  · obtain ⟨r, hr⟩ := hs.groups k hk
    have hpair := hr.compatible k m hk rfl hm.1 hm.2
    rw [Lck.compatible, if_neg] at hpair
    · exact hpair
    · simp [hne]

theorem call (hs : Shares hash s rows) (deliver : Fin n → State n → State n) (c : Call n) (hfresh : Fresh s ans)
    (hmeets : Meets hash s ans c) :
    Keeps hash s ans c (s.call hash deliver ans c) := by
  cases c with
  | lock l level =>
    obtain ⟨hl, hlevel, hlink, hadmits⟩ := hmeets
    obtain ⟨t, result, ht, hrows'⟩ := hs.lckLock hl hlevel hlink hadmits hfresh
    exact ⟨t, result, ht, hrows', trivial⟩
  | convert l level =>
    obtain ⟨hl, hlevel, hadmits⟩ := hmeets
    obtain ⟨t, result, ht, hrows'⟩ := hs.lckConvert hl hlevel hadmits
    exact ⟨t, result, ht, hrows', trivial⟩
  | downgrade l =>
    by_cases hl : s.Held l
    · obtain ⟨t, result, ht, hrows', htight⟩ := hs.lckDowngrade hl (hmeets hl)
      exact ⟨t, result, ht, ⟨rows, hrows'⟩, htight⟩
    · obtain ⟨t, result, ht, hrows'⟩ := hs.lckDowngrade_free hl
      exact ⟨t, result, ht, ⟨rows, hrows'⟩, fun hheld => absurd hheld hl⟩
  | release l =>
    by_cases hl : s.Held l
    · exact hs.lckRelease hl (hmeets hl)
    · have hequation : s.lckRelease hash ans l = some (s.modify l Lock.released, .granted) := by
        rw [State.lckRelease, if_pos (hs.free l hl)]
        rfl
      exact ⟨_, _, hequation, ⟨rows, hs.modify_free hl _ (by intro lock; rfl) (by intro lock; rfl) (by intro lock; rfl)
        (by intro lock; rfl) rfl rfl⟩, fun hheld => absurd hheld hl⟩

end Shares

def Step (hash : List UInt8 → Nat) (deliver : Fin n → State n → State n) (s : State n)
    (c : Answers × Call n) (t : State n) : Prop :=
  Fresh s c.1 ∧ Meets hash s c.1 c.2 ∧ ∃ result, s.call hash deliver c.1 c.2 = some (t, result)

/-- In every run whose calls have what they need the locks stay coherent, and the next such call returns and leaves no
request higher than needed if it released or downgraded a lock. -/
theorem locks_coherent {calls : List (Answers × Call n)} (hs : s.Initial) (hrun : Run (Step hash deliver) s calls t) :
    Coherent hash t ∧ ∀ ans c, Fresh t ans → Meets hash t ans c →
      ∃ u result, t.call hash deliver ans c = some (u, result) ∧ Coherent hash u ∧ Tight t u ans c := by
  have hkeep : ∀ (s : State n) (c : Answers × Call n) (t : State n), (∃ rows, Shares hash s rows) →
      Step hash deliver s c t → ∃ rows, Shares hash t rows := by
    rintro s c t ⟨rows, hrows⟩ ⟨hfresh, hmeets, result, hcall⟩
    obtain ⟨u, result', hcall', hrows', -⟩ := hrows.call deliver c.2 hfresh hmeets
    rw [hcall] at hcall'
    cases hcall'
    exact hrows'
  obtain ⟨rows, ht⟩ := hrun.invariant hkeep ⟨_, Shares.initial hs⟩
  refine ⟨ht.coherent, fun ans c hfresh hmeets => ?_⟩
  obtain ⟨u, result, hcall, ⟨rows', hu⟩, htight⟩ := ht.call deliver c hfresh hmeets
  exact ⟨u, result, hcall, hu.coherent, htight⟩

def twoLocks : State 2 where
  locks _ := ⟨⟨4, [0]⟩, some 0, none, false, false, none, none, 0, .none, .none⟩
  table _ := none
  requests _ := none

def granting (id : Nat) : Answers := ⟨some id, true, true, .none⟩

def State.after (hash : List UInt8 → Nat) (deliver : Fin n → State n → State n) : State n →
    List (Answers × Call n) → State n
  | s, [] => s
  | s, c :: calls => ((s.call hash deliver c.1 c.2).elim s Prod.fst).after hash deliver calls

theorem twoLocks_initial : twoLocks.Initial := ⟨fun _ => ⟨rfl, rfl, rfl⟩, fun _ => rfl⟩

/-- The locks after calls that the lock manager grants, each with a new request if it asks for one. -/
def afterCalls (calls : List (Call 2)) : State 2 :=
  twoLocks.after (fun _ => 0) (fun _ s => s) (calls.mapIdx fun k c => (granting (k + 8), c))

/-- Two locks share a request; one of them raises it, and is released again. -/
def sharing (l m : Fin 2) : List (Call 2) := [.lock l .sr, .lock m .sr, .convert m .pr, .downgrade l, .release m]

theorem locks_coherent_twoLocks : Coherent (fun _ => 0) (afterCalls (sharing 0 1)) := by
  have hrun : Run (Step (fun _ => 0) fun _ s => s) twoLocks ((sharing 0 1).mapIdx fun k c => (granting (k + 8), c))
      (afterCalls (sharing 0 1)) := by
    refine .cons (t := afterCalls ((sharing 0 1).take 1)) ⟨?_, ?_, .granted, rfl⟩
      (.cons (t := afterCalls ((sharing 0 1).take 2)) ⟨?_, ?_, .granted, rfl⟩
        (.cons (t := afterCalls ((sharing 0 1).take 3)) ⟨?_, ?_, .granted, rfl⟩
          (.cons (t := afterCalls ((sharing 0 1).take 4)) ⟨?_, ?_, .granted, rfl⟩ (.single ⟨?_, ?_, .granted, rfl⟩))))
    · rintro id ⟨⟩
      exact ⟨by decide, rfl⟩
    · refine ⟨by decide, by decide, fun _ => rfl, .inl ?_⟩
      rintro m ⟨hm, -⟩
      exact absurd rfl hm
    · rintro id ⟨⟩
      exact ⟨by decide, rfl⟩
    · refine ⟨by decide, by decide, fun hnone => absurd ⟨by decide, rfl⟩ (hnone 0), .inl ?_⟩
      rintro m -
      revert m
      decide
    · rintro id ⟨⟩
      exact ⟨by decide, rfl⟩
    · refine ⟨by decide, by decide, .inl ?_⟩
      rintro m -
      revert m
      decide
    · rintro id ⟨⟩
      exact ⟨by decide, rfl⟩
    · exact fun _ => .inl ⟨none, rfl⟩
    · rintro id ⟨⟩
      exact ⟨by decide, rfl⟩
    · refine fun _ => ⟨fun hone => absurd (hone 0 ⟨by decide, rfl⟩) (by decide), fun _ => ⟨?_, fun _ => .inr ⟨rfl, ?_⟩⟩⟩
      · rintro ⟨prior, hfirst⟩
        cases hfirst
      · rintro m - hm
        revert m
        decide
  exact (locks_coherent twoLocks_initial hrun).1

/-- A call on a lock in the state it is for: what is locked is not held, what is converted is. -/
def Proper (s : State n) : Call n → Prop
  | .lock l level => ¬s.Held l ∧ level ≠ .none
  | .convert l level => s.Held l ∧ level ≠ .none
  | .downgrade _ | .release _ => True

/-- The first of two locks is released: the request goes on with the released lock as its argument. -/
theorem locks_not_coherent : ∃ (s t : State 2) (calls : List (Answers × Call 2)), s.Initial ∧
    Run (fun s c t => Fresh s c.1 ∧ Proper s c.2 ∧ ∃ result, s.call (fun _ => 0) (fun _ s => s) c.1 c.2 = some (t,
      result)) s calls t ∧
    ¬Coherent (fun _ => 0) t := by
  refine ⟨twoLocks, twoLocks.after (fun _ => 0) (fun _ s => s)
    [(granting 8, .lock 0 .sr), (granting 9, .lock 1 .sr), (granting 9, .release 0)],
    [(granting 8, .lock 0 .sr), (granting 9, .lock 1 .sr), (granting 9, .release 0)], twoLocks_initial,
    .cons (t := twoLocks.after (fun _ => 0) (fun _ s => s) [(granting 8, .lock 0 .sr)]) ⟨?_, ?_, .granted, rfl⟩
      (.cons (t := twoLocks.after (fun _ => 0) (fun _ s => s) [(granting 8, .lock 0 .sr), (granting 9, .lock 1 .sr)])
        ⟨?_, ?_, .granted, rfl⟩ (.single ⟨?_, ?_, .granted, rfl⟩)), fun hcoherent => ?_⟩
  · rintro id ⟨⟩
    exact ⟨by decide, rfl⟩
  · exact ⟨by decide, by decide⟩
  · rintro id ⟨⟩
    exact ⟨by decide, rfl⟩
  · exact ⟨by decide, by decide⟩
  · rintro id ⟨⟩
    exact ⟨by decide, rfl⟩
  · exact trivial
  · obtain ⟨r, hr, hargument, -⟩ := hcoherent.request 1 (by decide)
    have hsame : r = ⟨.sr, 0⟩ := by
      rw [← Option.some.injEq, ← hr]
      rfl
    rw [hsame] at hargument
    exact absurd rfl hargument.1

end Firebird.Lck
