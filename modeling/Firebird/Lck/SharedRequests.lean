import Firebird.Lck.IdenticalLists
import Firebird.Lib.Run
import Firebird.Lock.Safety

/-! # Locks that share a request

The held locks of a key share one request of the lock manager. `Shares` is what careful calls keep of lists and
requests. -/

namespace Firebird.Lck

open State List Function Lib
open Firebird.Lock (Level)

variable {n : Nat} {hash : List UInt8 → Nat} {deliver : Fin n → State n → State n} {s t : State n} {l h m k : Fin n}
  {rest : List (Fin n)}
  {rows rows' : Key → List (Fin n)} {heads heads' : Fin lockHashSize → List (Fin n)} {level : Level} {ans : Answers}

theorem compatible_symm {a b : Lock n} (hab : compatible a b b.logical = true) : compatible b a a.logical = true := by
  unfold compatible at hab ⊢
  rw [Firebird.Lock.compatible_symm b.logical]
  grind

theorem compatible_self {a : Lock n} (ha : a.compatible.isSome = true)
    (level : Level) : compatible a a level = true := by
  simp [compatible, ha]

/-- The locks of the key that are held share the request `r`, named `id`. -/
structure Group (s : State n) (key : Key) (id : Nat) (r : Request n) : Prop where
  request : s.requests id = some r
  argument : s.Held r.argument ∧ s.key r.argument = key
  same : ∀ k, s.Held k → s.key k = key → (s.locks k).id = id ∧ (s.locks k).physical = r.level
  attached : ∀ k, s.Held k → s.key k = key → (s.locks k).attached = true
  covered : ∀ k, s.Held k → s.key k = key → (s.locks k).logical ≠ .none ∧ (s.locks k).logical.ord ≤ r.level.ord
  compatible : ∀ k m, s.Held k → s.key k = key → s.Held m → s.key m = key →
    compatible (s.locks k) (s.locks m) (s.locks m).logical = true

/-- Lists of the held locks of each key, and their requests. -/
structure Shares (hash : List UInt8 → Nat) (s : State n) (rows : Key → List (Fin n)) : Prop where
  linked : ∃ heads, Linked hash s rows heads
  mem_iff : ∀ key k, k ∈ rows key ↔ s.Held k ∧ s.key k = key
  groups : ∀ k, s.Held k → ∃ r, Group s (s.key k) (s.locks k).id r
  apart : ∀ k m, s.Held k → s.Held m → (s.locks k).id = (s.locks m).id → s.key k = s.key m
  compatible : ∀ k, (s.locks k).compatible.isSome = true
  free : ∀ k, ¬s.Held k → (s.locks k).physical = .none

/-! ### What a call leaves alone -/

theorem SameLocks.key (hst : SameLocks s t) : t.key = s.key := funext (hst.field Lock.key fun _ => rfl)

theorem Group.congr {key : Key} {id : Nat} {r : Request n} (hg : Group s key id r) (hkey : t.key = s.key)
    (hbare : ∀ k, s.key k = key → (t.locks k).bare = (s.locks k).bare) (hrequest : t.requests id = s.requests id) :
    Group t key id r := by
  have hfield : ∀ {τ : Type} (g : Lock n → τ), (∀ lock, g lock.bare = g lock) →
      ∀ k, s.key k = key → g (t.locks k) = g (s.locks k) := by
    intro τ g hg k hk
    rw [← hg (t.locks k), hbare k hk, hg]
  have hheld : ∀ k, s.key k = key → (t.Held k ↔ s.Held k) := by
    intro k hk
    rw [State.Held, State.Held, hfield Lock.id (fun _ => rfl) k hk]
  refine ⟨hrequest.trans hg.request, ?_, fun k hk hkk => ?_, fun k hk hkk => ?_, fun k hk hkk => ?_,
    fun k m hk hkk hm hmk => ?_⟩
  · rw [hkey, hheld _ hg.argument.2]
    exact hg.argument
  all_goals rw [hkey] at hkk
  · rw [hfield Lock.id (fun _ => rfl) k hkk, hfield Lock.physical (fun _ => rfl) k hkk]
    exact hg.same k ((hheld k hkk).mp hk) hkk
  · rw [hfield Lock.attached (fun _ => rfl) k hkk]
    exact hg.attached k ((hheld k hkk).mp hk) hkk
  · rw [hfield Lock.logical (fun _ => rfl) k hkk]
    exact hg.covered k ((hheld k hkk).mp hk) hkk
  · rw [hkey] at hmk
    have hpair := hg.compatible k m ((hheld k hkk).mp hk) hkk ((hheld m hmk).mp hm) hmk
    rw [hfield Lock.logical (fun _ => rfl) m hmk]
    have hcompatible : ∀ a b : Lock n, Lck.compatible a b (s.locks m).logical = Lck.compatible a.bare
        b.bare (s.locks m).logical :=
      fun _ _ => rfl
    rw [hcompatible, hbare k hkk, hbare m hmk]
    exact hpair

namespace Shares

section
variable (hs : Shares hash s rows)
include hs

theorem rebuild (key : Key) (hlinked : Linked hash t rows' heads')
    (hrows : ∀ key', key' ≠ key → rows' key' = rows key') (hmem : ∀ k, k ∈ rows' key ↔ t.Held k ∧ s.key k = key)
    (hother : ∀ k, s.key k ≠ key → (t.locks k).bare = (s.locks k).bare) (hkey : t.key = s.key)
    (hcompatible : ∀ k, (t.locks k).compatible = (s.locks k).compatible)
    (hrequests : ∀ k, s.Held k → s.key k ≠ key → t.requests (s.locks k).id = s.requests (s.locks k).id)
    (hapart : ∀ k m, s.Held k → s.key k ≠ key → t.Held m → s.key m = key → (t.locks m).id ≠ (s.locks k).id)
    (hgroup : ∀ k, t.Held k → s.key k = key → ∃ r, Group t key (t.locks k).id r)
    (hfree : ∀ k, s.key k = key → ¬t.Held k → (t.locks k).physical = .none) : Shares hash t rows' := by
  have hid : ∀ k, s.key k ≠ key → (t.locks k).id = (s.locks k).id := by
    intro k hk
    have hbare := congrArg Lock.id (hother k hk)
    exact hbare
  have hheld : ∀ k, s.key k ≠ key → (t.Held k ↔ s.Held k) := by
    intro k hk
    rw [State.Held, State.Held, hid k hk]
  refine ⟨⟨heads', hlinked⟩, fun key' k => ?_, fun k hk => ?_, fun k m hk hm heq => ?_, fun k => ?_, fun k hk => ?_⟩
  · rw [hkey]
    by_cases hkk : key' = key
    · cases hkk
      exact hmem k
    · rw [hrows key' hkk, hs.mem_iff]
      constructor
      · rintro ⟨hk, rfl⟩
        exact ⟨(hheld k hkk).mpr hk, rfl⟩
      · rintro ⟨hk, rfl⟩
        exact ⟨(hheld k hkk).mp hk, rfl⟩
  · rw [hkey]
    by_cases hkk : s.key k = key
    · rw [hkk]
      exact hgroup k hk hkk
    · have hks := (hheld k hkk).mp hk
      obtain ⟨r, hr⟩ := hs.groups k hks
      rw [hid k hkk]
      refine ⟨r, hr.congr hkey (fun m hm => hother m ?_) (hrequests k hks hkk)⟩
      rw [hm]
      exact hkk
  · rw [hkey]
    by_cases hkk : s.key k = key
    · by_cases hmk : s.key m = key
      · rw [hkk, hmk]
      · rw [hid m hmk] at heq
        exact absurd heq (hapart m k ((hheld m hmk).mp hm) hmk hk hkk)
    · by_cases hmk : s.key m = key
      · rw [hid k hkk] at heq
        exact absurd heq.symm (hapart k m ((hheld k hkk).mp hk) hkk hm hmk)
      · rw [hid k hkk, hid m hmk] at heq
        exact hs.apart k m ((hheld k hkk).mp hk) ((hheld m hmk).mp hm) heq
  · rw [hcompatible]
    exact hs.compatible k
  · by_cases hkk : s.key k = key
    · exact hfree k hkk hk
    · have hphysical := congrArg Lock.physical (hother k hkk)
      rw [Lock.bare] at hphysical
      rw [hphysical]
      exact hs.free k fun hks => hk ((hheld k hkk).mpr hks)

theorem modify_free (hl : ¬s.Held l) (f : Lock n → Lock n)
    (hcollision : ∀ lock, (f lock).collision = lock.collision)
    (hidentical : ∀ lock, (f lock).identical = lock.identical) (hkey : ∀ lock, (f lock).key = lock.key)
    (hcompatible : ∀ lock, (f lock).compatible = lock.compatible) (hid : (f (s.locks l)).id = 0)
    (hphysical : (f (s.locks l)).physical = .none) : Shares hash (s.modify l f) rows := by
  obtain ⟨heads, hlinked⟩ := hs.linked
  have hkeys : (s.modify l f).key = s.key := funext (field_modify Lock.key f hkey)
  have hlt : ¬(s.modify l f).Held l := by
    rw [State.Held, modify_self, hid]
    exact fun hne => hne rfl
  have hsame : ∀ k, (s.modify l f).Held k → (s.modify l f).locks k = s.locks k := by
    intro k hk
    refine modify_of_ne f ?_
    rintro rfl
    exact hlt hk
  have hheld : ∀ k, (s.modify l f).Held k ↔ s.Held k := by
    intro k
    by_cases hk : k = l
    · cases hk
      exact ⟨fun h => absurd h hlt, fun h => absurd h hl⟩
    · rw [State.Held, modify_of_ne f hk, State.Held]
  refine ⟨⟨heads, hlinked.modify f hcollision hidentical hkey⟩, fun key k => ?_, fun k hk => ?_, fun k m hk hm heq =>
    ?_, fun k => ?_, fun k hk => ?_⟩
  · rw [hheld, hkeys]
    exact hs.mem_iff key k
  · obtain ⟨r, hr⟩ := hs.groups k ((hheld k).mp hk)
    rw [hsame k hk]
    refine ⟨r, hr.request, ?_, fun k' hk' hkk' => ?_, fun k' hk' hkk' => ?_, fun k' hk' hkk' => ?_,
      fun k' m hk' hkk' hm hmk => ?_⟩
    · rw [hheld, hkeys]
      exact hr.argument
    all_goals rw [hkeys] at hkk'
    · rw [hsame k' hk']
      exact hr.same k' ((hheld k').mp hk') hkk'
    · rw [hsame k' hk']
      exact hr.attached k' ((hheld k').mp hk') hkk'
    · rw [hsame k' hk']
      exact hr.covered k' ((hheld k').mp hk') hkk'
    · rw [hkeys] at hmk
      rw [hsame k' hk', hsame m hm]
      exact hr.compatible k' m ((hheld k').mp hk') hkk' ((hheld m).mp hm) hmk
  · rw [hsame k hk, hsame m hm] at heq
    rw [hkeys]
    exact hs.apart k m ((hheld k).mp hk) ((hheld m).mp hm) heq
  · by_cases hk : k = l
    · cases hk
      rw [modify_self, hcompatible]
      exact hs.compatible _
    · rw [modify_of_ne f hk]
      exact hs.compatible k
  · by_cases hkl : k = l
    · cases hkl
      rw [modify_self]
      exact hphysical
    · rw [modify_of_ne f hkl]
      exact hs.free k fun hks => hk ((hheld k).mpr hks)

theorem held_of_mem {key : Key} (hk : k ∈ rows key) : s.Held k ∧ s.key k = key :=
  (hs.mem_iff key k).mp hk

theorem attached (hk : s.Held k) : (s.locks k).attached = true := by
  obtain ⟨r, hr⟩ := hs.groups k hk
  exact hr.attached k hk rfl

theorem hashGetLock (hatt : (s.locks l).attached = true)
    (hrow : rows (s.key l) = h :: rest) : ∃ prior, s.hashGetLock hash l = some (some (prior, h)) := by
  obtain ⟨heads, hlinked⟩ := hs.linked
  obtain ⟨A, B, -, -, -, hget⟩ := hlinked.hashGetLock_cons hatt hrow
  exact ⟨A.getLast?, hget⟩

end

end Shares

variable {row : List (Fin n)}

theorem deliverFrom_of_compatible {fuel : Nat} {start : Option (Fin n)}
    (hrow : Leads s.identical start row none) (hfuel : row.length ≤ fuel)
    (hall : ∀ m ∈ row, compatible (s.locks m) (s.locks l) (s.locks l).logical = true) :
    State.deliverFrom deliver l fuel start s = some s := by
  induction row generalizing fuel start with
  | nil =>
    cases (hrow : start = none)
    cases fuel <;> rfl
  | cons m row ih =>
    obtain ⟨rfl, hrest⟩ := hrow
    obtain ⟨fuel, rfl⟩ := Nat.exists_eq_add_of_le' (Nat.one_le_of_lt hfuel)
    rw [State.deliverFrom, if_neg (by simp [hall m (.head row)])]
    exact ih hrest (Nat.le_of_succ_le_succ hfuel) fun d hd => hall d (.tail m hd)

namespace Shares

theorem internalAst (hs : Shares hash s rows) {key : Key} (hrow : rows key = h :: rest) :
    s.internalAst hash deliver h = some s := by
  obtain ⟨heads, hlinked⟩ := hs.linked
  have hmem : h ∈ rows key := by
    rw [hrow]
    exact .head rest
  obtain ⟨hh, hhkey⟩ := hs.held_of_mem hmem
  cases hhkey
  obtain ⟨prior, hget⟩ := hs.hashGetLock (hs.attached hh) hrow
  obtain ⟨r, hr⟩ := hs.groups h hh
  have hleads := hlinked.identicals (s.key h)
  have hlength := length_le_of_nodup (hlinked.row_nodup (s.key h))
  rw [State.internalAst, hget]
  rw [hrow] at hleads hlength
  refine deliverFrom_of_compatible hleads hlength fun m hm => ?_
  rw [← hrow] at hm
  obtain ⟨hmheld, hmkey⟩ := hs.held_of_mem hm
  exact hr.compatible m h hmheld hmkey hh rfl

/-- The locks of the list are compatible with the lock asked for, or one of them makes the call give up. -/
def Decides (s : State n) (row : List (Fin n)) (head l : Fin n) (level : Level) : Prop :=
  (∀ m ∈ row, Lck.compatible (s.locks m) (s.locks l) level = true) ∨
  (∃ m ∈ row, (s.locks m).ast = false ∧ Lck.compatible (s.locks m) (s.locks l) level = false) ∨
  ∃ m ∈ row, Lck.compatible (s.locks m) (s.locks head) level = false

theorem internalCompatible (deliver : Fin n → State n → State n) (hs : Shares hash s rows) {key : Key}
    (hrow : rows key = h :: rest) (hdecides : Decides s (rows key) h l level) :
    ∃ b, s.internalCompatible hash deliver h l level = some (s, b) ∧
      (b = true → ∀ m ∈ rows key, Lck.compatible (s.locks m) (s.locks l) level = true) := by
  obtain ⟨heads, hlinked⟩ := hs.linked
  have hwalk := hlinked.walk_row (A := []) hrow
  rw [State.internalCompatible, hwalk, hs.internalAst hrow, ← hrow]
  by_cases hblock : ∃ m ∈ rows key, (s.locks m).ast = false ∧ Lck.compatible (s.locks m) (s.locks l) level = false
  · refine ⟨false, ?_, ?_⟩
    · simp only [if_pos hblock]
    · rintro ⟨⟩
  · refine ⟨(rows key).all fun m => Lck.compatible (s.locks m) (s.locks h) level, ?_, fun hall => ?_⟩
    · simp only [hwalk, if_neg hblock]
      rw [← hrow]
    · rcases hdecides with hdecides | hdecides | ⟨m, hm, hmh⟩
      · exact hdecides
      · exact absurd hdecides hblock
      · rw [all_eq_true] at hall
        rw [hall m hm] at hmh
        cases hmh

end Shares

/-! ### A lock joins a request -/

def raised (physical level : Level) : Level := if physical.ord < level.ord then level else physical

theorem ord_le_raised_left (physical level : Level) : physical.ord ≤ (raised physical level).ord := by
  unfold raised
  split
  · omega
  · exact le_rfl

theorem ord_le_raised_right (physical level : Level) : level.ord ≤ (raised physical level).ord := by
  unfold raised
  split
  · exact le_rfl
  · omega

def Lock.fixed (lock : Lock n) : Lock n := { lock.bare with id := 0, logical := .none, physical := .none }

theorem bare_ext {a b : Lock n} (hfixed : a.fixed = b.fixed) (hid : a.id = b.id) (hlogical : a.logical = b.logical)
    (hphysical : a.physical = b.physical) : a.bare = b.bare := by
  simp only [Lock.fixed, Lock.bare, Lock.mk.injEq] at hfixed hid hlogical hphysical ⊢
  tauto

theorem fixed_field {τ : Type} (g : Lock n → τ) (hg : ∀ lock, g lock.fixed = g lock) {a b : Lock n}
    (hfixed : a.fixed = b.fixed) : g a = g b := by
  rw [← hg a, hfixed, hg]

structure Joined (s t : State n) (row : List (Fin n)) (head l : Fin n) (level : Level) : Prop where
  fixed : ∀ k, (t.locks k).fixed = (s.locks k).fixed
  id : ∀ k, (t.locks k).id = if k = l then (s.locks head).id else (s.locks k).id
  logical : ∀ k, (t.locks k).logical = if k = l then level else (s.locks k).logical
  physical : ∀ k, (t.locks k).physical =
    if k = l ∨ k ∈ row then raised (s.locks head).physical level else (s.locks k).physical
  requests : t.requests =
    if (s.locks head).physical.ord < level.ord then update s.requests (s.locks head).id
      (some ⟨level, l⟩) else s.requests

theorem compatible_fixed {a b a' b' : Lock n} (ha : a'.fixed = a.fixed) (hb : b'.fixed = b.fixed)
    (hlogical : a'.logical = a.logical) (level : Level) : compatible a' b' level = compatible a b level := by
  simp only [Lock.fixed, Lock.bare, Lock.mk.injEq] at ha hb hlogical
  simp only [compatible]
  grind

namespace Shares

theorem join (hs : Shares hash s rows) (hrow : rows (s.key l) = h :: rest) (hlevel : level ≠ .none)
    (hatt : (s.locks l).attached = true)
    (hall : ∀ m ∈ rows (s.key l), Lck.compatible (s.locks m) (s.locks l) level = true)
    (hjoined : Joined s t (rows (s.key l)) h l level) (hlinked : Linked hash t rows' heads)
    (hother : ∀ key, key ≠ s.key l → rows' key = rows key)
    (hmem : ∀ k, k ∈ rows' (s.key l) ↔ k = l ∨ k ∈ rows (s.key l)) : Shares hash t rows' ∧ t.Held l := by
  have hmemh : h ∈ rows (s.key l) := by
    rw [hrow]
    exact .head rest
  obtain ⟨hh, hhkey⟩ := hs.held_of_mem hmemh
  obtain ⟨r, hr⟩ := hs.groups h hh
  rw [hhkey] at hr
  have hphysical : (s.locks h).physical = r.level := (hr.same h hh hhkey).2
  have hkey : t.key = s.key := funext fun k => fixed_field Lock.key (fun _ => rfl) (hjoined.fixed k)
  have hheld : ∀ k, t.Held k ↔ k = l ∨ s.Held k := by
    intro k
    rw [State.Held, hjoined.id]
    by_cases hkl : k = l
    · simp only [hkl, if_true, true_or, iff_true]
      exact hh
    · simp only [hkl, if_false, false_or]
      rfl
  have hbare : ∀ k, s.key k ≠ s.key l → (t.locks k).bare = (s.locks k).bare := by
    intro k hk
    have hkl : k ≠ l := by
      rintro rfl
      exact hk rfl
    have hkrow : k ∉ rows (s.key l) := fun hmem => hk (hs.held_of_mem hmem).2
    refine bare_ext (hjoined.fixed k) ?_ ?_ ?_
    · rw [hjoined.id, if_neg hkl]
    · rw [hjoined.logical, if_neg hkl]
    · rw [hjoined.physical, if_neg (by simp [hkl, hkrow])]
  have hidh : ∀ k, t.Held k → s.key k = s.key l → (t.locks k).id = (s.locks h).id := by
    intro k hk hkk
    rw [hjoined.id]
    by_cases hkl : k = l
    · rw [if_pos hkl]
    · have hks : s.Held k := ((hheld k).mp hk).resolve_left hkl
      rw [if_neg hkl]
      exact (hr.same k hks hkk).1
  have hlevels : ∀ k, t.Held k → s.key k = s.key l → (t.locks k).physical = raised r.level level := by
    intro k hk hkk
    have hin : k = l ∨ k ∈ rows (s.key l) := ((hheld k).mp hk).imp_right fun hks => (hs.mem_iff _ _).mpr ⟨hks, hkk⟩
    rw [hjoined.physical, if_pos hin, hphysical]
  have hrequest : ∃ r', t.requests (s.locks h).id = some r' ∧ r'.level = raised r.level level ∧ t.Held r'.argument ∧
      s.key r'.argument = s.key l := by
    rw [hjoined.requests, hphysical]
    by_cases hraise : r.level.ord < level.ord
    · refine ⟨⟨level, l⟩, ?_, ?_, (hheld l).mpr (.inl rfl), rfl⟩
      · rw [if_pos hraise, update_self]
      · rw [raised, if_pos hraise]
    · refine ⟨r, ?_, ?_, (hheld _).mpr (.inr hr.argument.1), hr.argument.2⟩
      · rw [if_neg hraise]
        exact hr.request
      · rw [raised, if_neg hraise]
  obtain ⟨r', hr', hlevel', harg, hargkey⟩ := hrequest
  have hpair : ∀ k m, t.Held k → s.key k = s.key l → t.Held m → s.key m = s.key l →
      Lck.compatible (t.locks k) (t.locks m) (t.locks m).logical = true := by
    intro k m hk hkk hm hmk
    -- against the lock that joined, either way round
    have hnew : ∀ k, s.Held k → s.key k = s.key l → k ≠ l →
        Lck.compatible (t.locks k) (t.locks l) (t.locks l).logical = true := by
      intro k hk hkk hkl
      have hsame : (t.locks k).logical = (s.locks k).logical := by rw [hjoined.logical, if_neg hkl]
      rw [hjoined.logical l, if_pos rfl, compatible_fixed (hjoined.fixed k) (hjoined.fixed l) hsame]
      exact hall k ((hs.mem_iff _ _).mpr ⟨hk, hkk⟩)
    have hself : ∀ level, Lck.compatible (t.locks l) (t.locks l) level = true := by
      refine compatible_self ?_
      have hcompatible : (t.locks l).compatible = (s.locks l).compatible :=
        fixed_field Lock.compatible (fun _ => rfl) (hjoined.fixed l)
      rw [hcompatible]
      exact hs.compatible l
    by_cases hkl : k = l
    · by_cases hml : m = l
      · rw [hkl, hml]
        exact hself _
      · rw [hkl]
        exact compatible_symm (hnew m (((hheld m).mp hm).resolve_left hml) hmk hml)
    · have hks := ((hheld k).mp hk).resolve_left hkl
      by_cases hml : m = l
      · rw [hml]
        exact hnew k hks hkk hkl
      · have hms := ((hheld m).mp hm).resolve_left hml
        have hksame : (t.locks k).logical = (s.locks k).logical := by rw [hjoined.logical, if_neg hkl]
        have hmsame : (t.locks m).logical = (s.locks m).logical := by rw [hjoined.logical, if_neg hml]
        rw [hmsame, compatible_fixed (hjoined.fixed k) (hjoined.fixed m) hksame]
        exact hr.compatible k m hks hkk hms hmk
  have hgroup : Group t (s.key l) (s.locks h).id r' := by
    refine ⟨hr', ?_, fun k hk hkk => ?_, fun k hk hkk => ?_, fun k hk hkk => ?_, fun k m hk hkk hm hmk => ?_⟩
    · rw [hkey]
      exact ⟨harg, hargkey⟩
    all_goals rw [hkey] at hkk
    · rw [hlevel']
      exact ⟨hidh k hk hkk, hlevels k hk hkk⟩
    · have hattached : (t.locks k).attached = (s.locks k).attached :=
        fixed_field Lock.attached (fun _ => rfl) (hjoined.fixed k)
      rw [hattached]
      rcases (hheld k).mp hk with rfl | hks
      · exact hatt
      · exact hr.attached k hks hkk
    · rw [hjoined.logical, hlevel']
      by_cases hkl : k = l
      · rw [if_pos hkl]
        exact ⟨hlevel, ord_le_raised_right _ _⟩
      · have hks := ((hheld k).mp hk).resolve_left hkl
        rw [if_neg hkl]
        exact ⟨(hr.covered k hks hkk).1, (hr.covered k hks hkk).2.trans (ord_le_raised_left _ _)⟩
    · rw [hkey] at hmk
      exact hpair k m hk hkk hm hmk
  refine ⟨hs.rebuild (s.key l) hlinked hother (fun k => ?_) hbare hkey ?_ (fun k hk hkk => ?_) (fun k m hk hkk hm hmk =>
    ?_) (fun k hk hkk => ?_) (fun k hkk hk => ?_), (hheld l).mpr (.inl rfl)⟩
  · rw [hmem, hheld, hs.mem_iff]
    constructor
    · rintro (rfl | ⟨hks, hkk⟩)
      · exact ⟨.inl rfl, rfl⟩
      · exact ⟨.inr hks, hkk⟩
    · rintro ⟨rfl | hks, hkk⟩
      · exact .inl rfl
      · exact .inr ⟨hks, hkk⟩
  · exact fun k => fixed_field Lock.compatible (fun _ => rfl) (hjoined.fixed k)
  · rw [hjoined.requests]
    split
    · refine update_of_ne (fun heq => hkk ?_) _ _
      exact (hs.apart k h hk hh heq).trans hhkey
    · rfl
  · rw [hidh m hm hmk]
    intro heq
    exact hkk ((hs.apart k h hk hh heq.symm).trans hhkey)
  · rw [hidh k hk hkk]
    exact ⟨r', hgroup⟩
  · have hkl : k ≠ l := by
      rintro rfl
      exact hk ((hheld k).mpr (.inl rfl))
    have hks : ¬s.Held k := fun hks => hk ((hheld k).mpr (.inr hks))
    have hkrow : k ∉ rows (s.key l) := fun hmem => hks (hs.held_of_mem hmem).1
    rw [hjoined.physical, if_neg (by simp [hkl, hkrow])]
    exact hs.free k hks

end Shares

theorem Joined.of_sameLocks {u : State n} (hu : Joined s u row h l level) (hut : SameLocks u t) :
    Joined s t row h l level := by
  refine ⟨fun k => ?_, fun k => ?_, fun k => ?_, fun k => ?_, ?_⟩
  · rw [hut.field Lock.fixed (fun _ => rfl) k]
    exact hu.fixed k
  · rw [hut.field Lock.id (fun _ => rfl) k]
    exact hu.id k
  · rw [hut.field Lock.logical (fun _ => rfl) k]
    exact hu.logical k
  · rw [hut.field Lock.physical (fun _ => rfl) k]
    exact hu.physical k
  · rw [hut.requests]
    exact hu.requests

namespace State

/-- What `shareRequest` does before it enters the lock. -/
def shared (s : State n) (row : List (Fin n)) (head l : Fin n) (level : Level) : State n :=
  let s := if (s.locks head).physical.ord < level.ord then (s.lmConvert (s.locks head).id level l).setPhysical row
    level else s
  let s := s.modify l fun lock => { lock with id := (s.locks head).id, logical := level }
  s.modify l fun lock => { lock with physical := (s.locks head).physical }

theorem raised_locks {u : State n} (hrow : ∀ k ∈ row, (s.locks k).physical = (s.locks h).physical)
    (hu : u = if (s.locks h).physical.ord < level.ord then (s.lmConvert (s.locks h).id level l).setPhysical row
      level else s)
    (k : Fin n) :
    u.locks k = if k ∈ row then { s.locks k with physical := raised (s.locks h).physical level } else s.locks k := by
  subst hu
  by_cases hraise : (s.locks h).physical.ord < level.ord
  · rw [if_pos hraise, raised, if_pos hraise]
    rfl
  · rw [if_neg hraise, raised, if_neg hraise]
    by_cases hk : k ∈ row
    · rw [if_pos hk, ← hrow k hk]
    · rw [if_neg hk]

theorem shared_locks (hrow : ∀ k ∈ row, (s.locks k).physical = (s.locks h).physical) (hh : h ∈ row)
    (k : Fin n) : (s.shared row h l level).locks k =
      if k = l then
        { s.locks l with id := (s.locks h).id, logical := level, physical := raised (s.locks h).physical level }
      else if k ∈ row then { s.locks k with physical := raised (s.locks h).physical level } else s.locks k := by
  unfold shared
  generalize hu : (if (s.locks h).physical.ord < level.ord then (s.lmConvert (s.locks h).id level l).setPhysical
      row level
    else s) = u
  have hlocks := raised_locks hrow hu.symm
  have hhead : u.locks h = { s.locks h with physical := raised (s.locks h).physical level } := by rw [hlocks, if_pos hh]
  by_cases hk : k = l
  · rw [hk, if_pos rfl]
    simp only [modify_self]
    by_cases hhl : h = l
    · cases hhl
      simp only [modify_self, hhead]
    · simp only [modify_of_ne _ hhl, hhead, hlocks l]
      split <;> rfl
  · rw [if_neg hk]
    simp only [modify_of_ne _ hk]
    exact hlocks k

theorem joined_shared (l : Fin n) (level : Level)
    (hrow : ∀ k ∈ row, (s.locks k).physical = (s.locks h).physical) (hh : h ∈ row) :
    Joined s (s.shared row h l level) row h l level := by
  refine ⟨fun k => ?_, fun k => ?_, fun k => ?_, fun k => ?_, ?_⟩
  · rw [shared_locks hrow hh]
    split
    · subst k
      rfl
    · split <;> rfl
  · rw [shared_locks hrow hh]
    split
    · rfl
    · split <;> rfl
  · rw [shared_locks hrow hh]
    split
    · rfl
    · split <;> rfl
  · rw [shared_locks hrow hh]
    by_cases hk : k = l
    · simp [hk]
    · by_cases hkrow : k ∈ row
      all_goals simp [hk, hkrow]
  · unfold shared
    split <;> rfl

theorem shared_field {τ : Type} (g : Lock n → τ)
    (hg : ∀ lock id logical physical, g { lock with id := id, logical := logical, physical := physical } = g lock)
    (hrow : ∀ k ∈ row, (s.locks k).physical = (s.locks h).physical) (hh : h ∈ row) (k : Fin n) :
    g ((s.shared row h l level).locks k) = g (s.locks k) := by
  rw [shared_locks hrow hh]
  split
  · subst k
    exact hg _ _ _ _
  · split
    · exact hg _ _ _ _
    · rfl

end State

namespace Shares

theorem shareRequest (ans : Answers) (hs : Shares hash s rows) (hrow : rows (s.key l) = h :: rest)
    (hlevel : level ≠ .none) (hatt : (s.locks l).attached = true)
    (hall : ∀ m ∈ rows (s.key l), Lck.compatible (s.locks m) (s.locks l) level = true) {convertFlg : Bool}
    (hflag : convertFlg = true ↔ s.Held l) :
    ∃ t result, s.shareRequest hash ans h l level convertFlg = some (t, result) ∧
      ((result = .refused ∧ t = s) ∨ (result = .granted ∧ t.Held l ∧ ∃ rows', Shares hash t rows')) := by
  obtain ⟨heads, hlinked⟩ := hs.linked
  have hwalk : walk s.identical n (some h) = some (rows (s.key l)) := by
    rw [hrow]
    exact hlinked.walk_row (A := []) hrow
  have hmem : h ∈ rows (s.key l) := by
    rw [hrow]
    exact .head rest
  obtain ⟨hh, hhkey⟩ := hs.held_of_mem hmem
  obtain ⟨r, hr⟩ := hs.groups h hh
  rw [hhkey] at hr
  have hphysical : ∀ k ∈ rows (s.key l), (s.locks k).physical = (s.locks h).physical := by
    intro k hk
    obtain ⟨hks, hkk⟩ := hs.held_of_mem hk
    rw [(hr.same k hks hkk).2, (hr.same h hh hhkey).2]
  have hjoined := joined_shared l level hphysical hmem
  have hfield : ∀ {τ : Type} (g : Lock n → τ),
      (∀ lock id logical physical, g { lock with id := id, logical := logical, physical := physical } = g lock) →
      ∀ k, g ((s.shared (rows (s.key l)) h l level).locks k) = g (s.locks k) :=
    fun g hg k => shared_field g hg hphysical hmem k
  have htable : (s.shared (rows (s.key l)) h l level).table = s.table := by
    unfold State.shared
    split <;> rfl
  have hulinked : Linked hash (s.shared (rows (s.key l)) h l level) rows heads :=
    hlinked.congr (funext (hfield Lock.collision fun _ _ _ _ => rfl))
    (funext (hfield Lock.identical fun _ _ _ _ => rfl))
      (funext (hfield Lock.key fun _ _ _ _ => rfl)) htable
  by_cases hrefused : (s.locks h).physical.ord < level.ord ∧ ans.convert = false
  · refine ⟨s, .refused, ?_, .inl ⟨rfl, rfl⟩⟩
    rw [State.shareRequest, hwalk]
    simp only [if_pos hrefused]
  · have hconverted : s.shareRequest hash ans h l level true =
        some (s.shared (rows (s.key l)) h l level, .granted) := by
      rw [State.shareRequest, hwalk]
      simp only [if_neg hrefused]
      rfl
    have hinserted : ∀ t, (s.shared (rows (s.key l)) h l level).hashInsertLock hash l = some t →
        s.shareRequest hash ans h l level false = some (t, .granted) := by
      intro t ht
      rw [State.shareRequest, hwalk]
      simp only [if_neg hrefused]
      generalize hr : State.hashInsertLock hash _ l = r
      obtain rfl : r = some t := hr.symm.trans ht
      rfl
    cases hflg : convertFlg with
    | true =>
      have hl : s.Held l := hflag.mp hflg
      obtain ⟨ht, htl⟩ := hs.join hrow hlevel hatt hall hjoined hulinked (fun _ _ => rfl) fun k => by
        constructor
        · exact .inr
        · rintro (rfl | hk)
          · exact (hs.mem_iff _ _).mpr ⟨hl, rfl⟩
          · exact hk
      exact ⟨_, .granted, hconverted, .inr ⟨rfl, htl, rows, ht⟩⟩
    | false =>
      have hl : l ∉ rows (s.key l) := fun hl => by
        have htrue := hflag.mpr (hs.held_of_mem hl).1
        rw [hflg] at htrue
        cases htrue
      have hukey : (s.shared (rows (s.key l)) h l level).key l = s.key l := hfield Lock.key (fun _ _ _ _ => rfl) l
      have huatt : ((s.shared (rows (s.key l)) h l level).locks l).attached = true := by
        rw [hfield Lock.attached fun _ _ _ _ => rfl]
        exact hatt
      obtain ⟨A, B, -, -, -, hget⟩ := hulinked.hashGetLock_cons huatt (by rw [hukey]; exact hrow)
      have hinsert := hulinked.insert_second (l := l) (by rw [hukey]; exact hrow) (by rw [hukey]; exact hl) rfl
      rw [hukey] at hinsert
      have hsame : SameLocks (s.shared (rows (s.key l)) h l level)
          (((s.shared (rows (s.key l)) h l level).modify l fun lock =>
            { lock with identical := (s.shared (rows (s.key l)) h l level).identical h }).modify h
              fun lock => { lock with identical := some l }) :=
        .trans (.modify _ (by intro lock; rfl)) (.modify _ (by intro lock; rfl))
      obtain ⟨ht, htl⟩ := hs.join hrow hlevel hatt hall (hjoined.of_sameLocks hsame) hinsert
        (fun key hk => update_of_ne hk _ _) fun k => by
          rw [update_self, hrow]
          simp only [mem_cons]
          tauto
      refine ⟨_, .granted, hinserted _ ?_, .inr ⟨rfl, htl, _, ht⟩⟩
      simp only [State.hashInsertLock, if_pos huatt, hget]

theorem enqueueNew (hs : Shares hash s rows) (hrow : rows (s.key l) = []) (hlevel : level ≠ .none)
    (hatt : (s.locks l).attached = true) (hl : ¬s.Held l) (hlink : s.identical l = none)
    (hfresh : ∀ id, ans.enqueue = some id → id ≠ 0 ∧ s.requests id = none) :
    ∃ t result, s.enqueueNew hash ans l level = some (t, result) ∧
      ((result = .refused ∧ ¬t.Held l) ∨ (result = .granted ∧ t.Held l)) ∧ ∃ rows', Shares hash t rows' := by
  have hid : (s.locks l).id = 0 := by
    by_contra hne
    exact hl hne
  cases hanswer : ans.enqueue with
  | none =>
    have hsame : s.lmEnqueue none (s.locks l).id level l = s := by simp [State.lmEnqueue, hid]
    refine ⟨s.modify l fun lock => { lock with id := 0, physical := .none, logical := .none }, .refused, ?_,
      .inl ⟨rfl, ?_⟩, rows, ?_⟩
    · simp only [State.enqueueNew, hanswer, hsame]
    · rw [State.Held, modify_self]
      exact fun hne => hne rfl
    · exact hs.modify_free hl _ (fun _ => rfl) (fun _ => rfl) (fun _ => rfl) (fun _ => rfl) rfl rfl
  | some id =>
    obtain ⟨hidne, hnone⟩ := hfresh id hanswer
    obtain ⟨heads, hlinked⟩ := hs.linked
    -- with its identifier, as it is entered
    let w : State n := { s with requests := update s.requests id (some ⟨level, l⟩) }
    let u := w.modify l fun lock => { lock with id := id }
    have hwlinked : Linked hash w rows heads := hlinked.congr rfl rfl rfl rfl
    have hulinked : Linked hash u rows heads :=
      hwlinked.modify _ (by intro lock; rfl) (by intro lock; rfl) (by intro lock; rfl)
    have hukey : u.key = s.key := funext (field_modify Lock.key _ (by intro lock; rfl))
    have huatt : (u.locks l).attached = true := by
      rw [field_modify Lock.attached _ (by intro lock; rfl)]
      exact hatt
    have hulink : u.identical l = none := by
      have hsame : (u.locks l).identical = (s.locks l).identical := field_modify Lock.identical _ (by intro lock; rfl) l
      rw [State.identical, hsame]
      exact hlink
    have hurow : rows (u.key l) = [] := by
      rw [hukey]
      exact hrow
    have hget := hulinked.hashGetLock_nil huatt hurow
    let v : State n := { u.modify l fun lock => { lock with collision := u.table (State.slot hash lock.key) } with
      table := update u.table (State.slot hash (u.key l)) (some l) }
    have hinsert : u.hashInsertLock hash l = some v := by
      simp only [State.hashInsertLock, if_pos huatt, hget]
      have hkey : (u.modify l fun lock => { lock with collision := u.table (State.slot hash lock.key) }).key l =
          u.key l :=
        field_modify Lock.key _ (by intro lock; rfl) l
      rw [hkey]
      rfl
    have hvlinked := hulinked.insert_first (t := v) hurow hulink rfl rfl
    rw [hukey] at hvlinked
    let t := v.modify l fun lock => { lock with physical := level, logical := level }
    have htlinked := hvlinked.modify (l := l) (fun lock => { lock with physical := level, logical := level })
      (by intro lock; rfl) (by intro lock; rfl) (by intro lock; rfl)
    have hother : ∀ k, k ≠ l → t.locks k = s.locks k := by
      intro k hk
      rw [modify_of_ne _ hk]
      have hv : v.locks k = u.locks k := update_of_ne hk _ _
      have hu : u.locks k = s.locks k := modify_of_ne _ hk
      rw [hv, hu]
    have hself : (t.locks l).bare = { (s.locks l).bare with id := id, physical := level, logical := level } := by
      simp only [t, v, u, modify_self]
      rfl
    have hlcompatible : (t.locks l).compatible = (s.locks l).compatible := by
      have hfield := congrArg Lock.compatible hself
      exact hfield
    have hkey : t.key = s.key := by
      funext k
      by_cases hk : k = l
      · have hfield := congrArg Lock.key hself
        rw [hk]
        exact hfield
      · rw [State.key, hother k hk, State.key]
    have hlheld : t.Held l := by
      have htid : (t.locks l).id = id := congrArg Lock.id hself
      rw [State.Held, htid]
      exact hidne
    have honly : ∀ k, t.Held k → s.key k = s.key l → k = l := by
      intro k hk hkk
      by_contra hkl
      rw [State.Held, hother k hkl] at hk
      have hmem := (hs.mem_iff (s.key l) k).mpr ⟨hk, hkk⟩
      rw [hrow] at hmem
      cases hmem
    have hne : ∀ k, s.Held k → (s.locks k).id ≠ id := by
      intro k hk heq
      obtain ⟨r, hr⟩ := hs.groups k hk
      have hsome := hr.request
      rw [heq, hnone] at hsome
      cases hsome
    have htid : (t.locks l).id = id := congrArg Lock.id hself
    have hgroup : Group t (s.key l) id ⟨level, l⟩ := by
      refine ⟨update_self _ _ _, ⟨hlheld, congrFun hkey l⟩, fun k hk hkk => ?_, fun k hk hkk => ?_, fun k hk hkk => ?_,
        fun k m hk hkk hm hmk => ?_⟩
      all_goals
        rw [hkey] at hkk
        cases honly k hk hkk
      · exact ⟨htid, congrArg Lock.physical hself⟩
      · have hattached := congrArg Lock.attached hself
        exact Eq.trans hattached hatt
      · have hlogical : (t.locks l).logical = level := congrArg Lock.logical hself
        rw [hlogical]
        exact ⟨hlevel, le_rfl⟩
      · rw [hkey] at hmk
        cases honly m hm hmk
        refine compatible_self ?_ _
        rw [hlcompatible]
        exact hs.compatible l
    refine ⟨t, .granted, ?_, .inr ⟨rfl, hlheld⟩, _, hs.rebuild (s.key l) htlinked (fun key hk => update_of_ne hk _ _)
      (fun k => ?_)
      (fun k hk => ?_) hkey (fun k => ?_) (fun k hk hkk => ?_) (fun k m hk hkk hm hmk => ?_)
      (fun k hk hkk => ?_) (fun k hkk hk => ?_)⟩
    · simp only [State.enqueueNew, hanswer, State.lmEnqueue, hid, if_true]
      rw [hinsert]
    · rw [update_self, mem_singleton]
      constructor
      · rintro rfl
        exact ⟨hlheld, rfl⟩
      · rintro ⟨hk, hkk⟩
        exact honly k hk hkk
    · rw [hother k]
      rintro rfl
      exact hk rfl
    · by_cases hk : k = l
      · rw [hk]
        exact hlcompatible
      · rw [hother k hk]
    · exact update_of_ne (hne k hk) _ _
    · cases honly m hm hmk
      rw [htid]
      exact (hne k hk).symm
    · cases honly k hk hkk
      rw [htid]
      exact ⟨_, hgroup⟩
    · have hkl : k ≠ l := by
        rintro rfl
        exact hk hlheld
      rw [State.Held, hother k hkl] at hk
      rw [hother k hkl]
      exact hs.free k hk

theorem settle (hs : Shares hash s rows) {key : Key} {gone : List (Fin n)} {r : Request n}
    (hlinked : Linked hash t rows' heads')
    (hrows : ∀ key', key' ≠ key → rows' key' = rows key') (hmem : ∀ k, k ∈ rows' key ↔ k ∈ rows key ∧ k ∉ gone)
    (hkey : t.key = s.key) (hcompatible : ∀ k, (t.locks k).compatible = (s.locks k).compatible)
    (hgone : ∀ k ∈ gone, s.key k = key ∧ (t.locks k).id = 0 ∧ (t.locks k).physical = .none)
    (hfixed : ∀ k, k ∉ gone → (t.locks k).fixed = (s.locks k).fixed)
    (hid : ∀ k, k ∉ gone → (t.locks k).id = (s.locks k).id)
    (hlogical : ∀ k, k ∉ gone → (t.locks k).logical = (s.locks k).logical)
    (hphysical : ∀ k, k ∉ gone → (t.locks k).physical = if k ∈ rows' key then r.level else (s.locks k).physical)
    (hrequest : ∀ k ∈ rows' key, t.requests (s.locks k).id = some r ∧ r.argument ∈ rows' key)
    (hlevel : ∀ k ∈ rows' key, (s.locks k).logical.ord ≤ r.level.ord)
    (hother : ∀ k, s.Held k → s.key k ≠ key → t.requests (s.locks k).id = s.requests (s.locks k).id) :
    Shares hash t rows' := by
  have hheld : ∀ k, t.Held k ↔ s.Held k ∧ k ∉ gone := by
    intro k
    rw [State.Held]
    by_cases hk : k ∈ gone
    · simp [(hgone k hk).2.1, hk]
    · rw [hid k hk]
      simp only [hk, not_false_eq_true, and_true]
      rfl
  have hmemHeld : ∀ k, k ∈ rows' key ↔ t.Held k ∧ s.key k = key := by
    intro k
    rw [hmem, hs.mem_iff, hheld]
    tauto
  refine hs.rebuild key hlinked hrows hmemHeld (fun k hk => ?_) hkey hcompatible hother (fun k m hk hkk hm hmk => ?_)
    (fun k hk hkk => ?_) (fun k hkk hk => ?_)
  · have hkgone : k ∉ gone := fun hmem => hk (hgone k hmem).1
    refine bare_ext (hfixed k hkgone) (hid k hkgone) (hlogical k hkgone) ?_
    rw [hphysical k hkgone, if_neg]
    exact fun hmem => hk ((hmemHeld k).mp hmem).2
  · obtain ⟨hms, hmgone⟩ := (hheld m).mp hm
    rw [hid m hmgone]
    intro heq
    rw [hs.apart m k hms hk heq] at hmk
    exact hkk hmk
  · have hkrow : k ∈ rows' key := (hmemHeld k).mpr ⟨hk, hkk⟩
    obtain ⟨hks, hkgone⟩ := (hheld k).mp hk
    obtain ⟨r₀, hr₀⟩ := hs.groups k hks
    rw [hkk] at hr₀
    refine ⟨r, ?_, ?_, fun m hm hmk => ?_, fun m hm hmk => ?_, fun m hm hmk => ?_, fun m m' hm hmk hm' hmk' => ?_⟩
    · rw [hid k hkgone]
      exact (hrequest k hkrow).1
    · rw [hkey]
      exact (hmemHeld _).mp (hrequest k hkrow).2
    all_goals
      rw [hkey] at hmk
      obtain ⟨hms, hmgone⟩ := (hheld m).mp hm
    · rw [hid m hmgone, hid k hkgone, hphysical m hmgone, if_pos ((hmemHeld m).mpr ⟨hm, hmk⟩)]
      exact ⟨(hr₀.same m hms hmk).1, rfl⟩
    · rw [fixed_field Lock.attached (fun _ => rfl) (hfixed m hmgone)]
      exact hr₀.attached m hms hmk
    · rw [hlogical m hmgone]
      exact ⟨(hr₀.covered m hms hmk).1, hlevel m ((hmemHeld m).mpr ⟨hm, hmk⟩)⟩
    · rw [hkey] at hmk'
      obtain ⟨hms', hmgone'⟩ := (hheld m').mp hm'
      rw [hlogical m' hmgone', compatible_fixed (hfixed m hmgone) (hfixed m' hmgone') (hlogical m hmgone)]
      exact hr₀.compatible m m' hms hmk hms' hmk'
  · by_cases hkgone : k ∈ gone
    · exact (hgone k hkgone).2.2
    · rw [hphysical k hkgone, if_neg fun hmem => hk ((hmemHeld k).mp hmem).1]
      exact hs.free k fun hks => hk ((hheld k).mpr ⟨hks, hkgone⟩)

end Shares

end Firebird.Lck
