import Firebird.Nbak.AllocTable

/-! # Processes agree on the difference pages -/

namespace Firebird.Nbak

open Lib List

namespace PageSize
variable {psize : PageSize}

theorem words_eq (psize : PageSize) : psize.words = 2 ^ psize.shift := by
  rw [words, psize.isPower, Nat.mul_div_cancel _ (by omega)]

theorem words_pos (psize : PageSize) : 4 ≤ psize.words := by
  have h := Nat.pow_le_pow_right (show 0 < 2 by omega) psize.shift_pos
  rw [psize.words_eq]
  omega

theorem words_eq_succ (psize : PageSize) : psize.words = psize.pagesPerAllocPage + 1 := by
  have h := psize.words_pos
  unfold pagesPerAllocPage
  omega

def position (psize : PageSize) (n : Nat) : Nat :=
  n / psize.pagesPerAllocPage * psize.words + n % psize.pagesPerAllocPage

def diffPage (psize : PageSize) (n : Nat) : Nat := psize.position n + 1

theorem pagesPerAllocPage_pos (psize : PageSize) : 3 ≤ psize.pagesPerAllocPage := by
  have h := psize.words_pos
  unfold pagesPerAllocPage
  omega

theorem mod_pagesPerAllocPage_lt (psize : PageSize) (n : Nat) :
    n % psize.pagesPerAllocPage < psize.pagesPerAllocPage :=
  Nat.mod_lt n (Nat.lt_of_lt_of_le (by decide) psize.pagesPerAllocPage_pos)

theorem position_mod (n : Nat) : psize.position n % psize.words = n % psize.pagesPerAllocPage := by
  have hmod := psize.mod_pagesPerAllocPage_lt n
  have hwords := psize.words_eq_succ
  rw [position, Nat.mul_add_mod_self_right, Nat.mod_eq_of_lt (by omega)]

theorem position_div (n : Nat) : psize.position n / psize.words = n / psize.pagesPerAllocPage := by
  have hmod := psize.mod_pagesPerAllocPage_lt n
  have hwords := psize.words_eq_succ
  have hsmall : n % psize.pagesPerAllocPage / psize.words = 0 := Nat.div_eq_of_lt (by omega)
  rw [position, Nat.mul_comm, Nat.mul_add_div (by omega), hsmall, Nat.add_zero]

theorem allocPage_position (n : Nat) : psize.allocPage (psize.position n) = n /
    psize.pagesPerAllocPage * psize.words := by
  have hmask : psize.position n &&& psize.pagesPerAllocPage = n % psize.pagesPerAllocPage := by
    rw [← position_mod, pagesPerAllocPage, words_eq, Nat.and_two_pow_sub_one_eq_mod]
  rw [allocPage, hmask, position, Nat.add_sub_cancel]

theorem diffPage_mod (psize : PageSize)
    (n : Nat) : psize.diffPage n % psize.words = n % psize.pagesPerAllocPage + 1 := by
  have hmod := psize.mod_pagesPerAllocPage_lt n
  have hwords := psize.words_eq_succ
  rw [diffPage, position, Nat.add_assoc, Nat.mul_add_mod_self_right, Nat.mod_eq_of_lt (by omega)]

theorem diffPage_injective {m n : Nat} (h : psize.diffPage m = psize.diffPage n) : m = n := by
  have hposition : psize.position m = psize.position n := Nat.succ.inj h
  have hmod : m % psize.pagesPerAllocPage = n % psize.pagesPerAllocPage := by
    rw [← position_mod, ← position_mod, hposition]
  have hdiv : m / psize.pagesPerAllocPage = n / psize.pagesPerAllocPage := by
    rw [← position_div, ← position_div, hposition]
  rw [← Nat.div_add_mod m psize.pagesPerAllocPage, ← Nat.div_add_mod n psize.pagesPerAllocPage, hmod, hdiv]

theorem position_eq (psize : PageSize) (j : Nat) {i : Nat} (hi : i < psize.pagesPerAllocPage) :
    psize.position (j * psize.pagesPerAllocPage + i) = j * psize.words + i := by
  have hdiv : (j * psize.pagesPerAllocPage + i) / psize.pagesPerAllocPage = j := by
    rw [Nat.mul_comm, Nat.mul_add_div (by omega), Nat.div_eq_of_lt hi, Nat.add_zero]
  rw [position, hdiv, Nat.mul_add_mod_self_right, Nat.mod_eq_of_lt hi]

end PageSize

variable {psize : PageSize} {file : DiffFile} {entries : List Nat} {manager : BackupManager} {n : Nat}

/-- The allocation pages of the file hold the database pages in the order in which they were given
    difference pages. -/
structure FileHolds (psize : PageSize) (file : DiffFile) (entries : List Nat) : Prop where
  length : ∀ j, j * psize.pagesPerAllocPage ≤ entries.length → j * psize.words < file.length
  count : ∀ j, j * psize.pagesPerAllocPage ≤ entries.length →
    file.pages (j * psize.words) 0 = min psize.pagesPerAllocPage (entries.length - j * psize.pagesPerAllocPage)
  item : ∀ j i, i < psize.pagesPerAllocPage → ∀ dbPage, entries[j * psize.pagesPerAllocPage + i]? = some dbPage →
    file.pages (j * psize.words) (i + 1) = dbPage

def tableOf (psize : PageSize) (entries : List Nat) (dbPage : Nat) : Option Nat :=
  if dbPage ∈ entries then some (psize.diffPage (entries.idxOf dbPage)) else none

variable {dbPage diffPage : Nat}

theorem tableOf_eq_some (hnodup : entries.Nodup) : tableOf psize entries dbPage = some diffPage ↔
    ∃ n, entries[n]? = some dbPage ∧ diffPage = psize.diffPage n := by
  unfold tableOf
  constructor
  · intro h
    split at h
    · rename_i hmem
      have hlt := idxOf_lt_length_of_mem hmem
      exact ⟨entries.idxOf dbPage, by rw [getElem?_eq_getElem hlt, getElem_idxOf], (Option.some.inj h).symm⟩
    · cases h
  · rintro ⟨n, hget, rfl⟩
    obtain ⟨hlt, rfl⟩ := List.getElem?_eq_some_iff.mp hget
    rw [if_pos (getElem_mem hlt), hnodup.idxOf_getElem]

theorem add_tableOf {dbPage : Nat} (hnew : dbPage ∉ entries) :
    BackupManager.add dbPage (psize.diffPage entries.length) (tableOf psize entries) =
      some (tableOf psize (entries ++ [dbPage])) := by
  have hnone : tableOf psize entries dbPage = none := if_neg hnew
  rw [BackupManager.add, hnone]
  refine congrArg some (funext fun p => ?_)
  by_cases hp : p = dbPage
  · subst hp
    rw [if_pos rfl, tableOf, if_pos (by simp), idxOf_append_of_notMem hnew, idxOf_cons_self]
    rfl
  · rw [if_neg hp, tableOf, tableOf]
    by_cases hmem : p ∈ entries
    · rw [if_pos hmem, if_pos (mem_append_left _ hmem), idxOf_append_of_mem hmem]
    · rw [if_neg hmem, if_neg (by simp [hmem, hp])]

structure Knows (psize : PageSize) (entries : List Nat) (n : Nat) (manager : BackupManager) : Prop where
  le : n ≤ entries.length
  table : manager.allocTable = tableOf psize (entries.take n)
  last : manager.lastAllocatedPage = psize.position n

/-- The process knows at least what it knew before, and all entries if it has the lock; its buffer is the allocation
page at which it stopped. -/
def Actualized (psize : PageSize) (file : DiffFile) (entries : List Nat) (haveGlobalLock : Bool) (n : Nat)
    (manager : BackupManager) (r : Option (Bool × BackupManager)) : Prop :=
  ∃ n' manager', r = some (true, manager') ∧ Knows psize entries n' manager' ∧
    manager'.cachedLock = manager.cachedLock ∧ n ≤ n' ∧ (haveGlobalLock = true → n' = entries.length) ∧
    manager'.allocBuffer = file.pages (n' / psize.pagesPerAllocPage * psize.words)

structure BufferHolds (psize : PageSize) (entries : List Nat) (buffer : Nat → Nat) : Prop where
  count : buffer 0 = entries.length % psize.pagesPerAllocPage
  item : ∀ i dbPage, entries[entries.length / psize.pagesPerAllocPage * psize.pagesPerAllocPage + i]? = some dbPage →
    buffer (i + 1) = dbPage

theorem FileHolds.buffer (h : FileHolds psize file entries) :
    BufferHolds psize entries (file.pages (entries.length / psize.pagesPerAllocPage * psize.words)) := by
  have hpos := psize.pagesPerAllocPage_pos
  have hdivmod := Nat.div_add_mod' entries.length psize.pagesPerAllocPage
  have hmod := psize.mod_pagesPerAllocPage_lt entries.length
  refine ⟨?_, fun i dbPage hget => h.item _ i ?_ dbPage hget⟩
  · rw [h.count _ (by omega)]
    omega
  · have := (List.getElem?_eq_some_iff.mp hget).1
    omega

theorem FileHolds.write (h : FileHolds psize file entries) {page : Nat} (words : Nat → Nat)
    (hother : ∀ j, j * psize.pagesPerAllocPage ≤ entries.length → j * psize.words ≠ page) :
    FileHolds psize (file.write page words) entries where
  length j hj := Nat.lt_of_lt_of_le (h.length j hj) (Nat.le_max_left ..)
  count j hj := by
    simp only [DiffFile.write, if_neg (hother j hj)]
    exact h.count j hj
  item j i hi dbPage hget := by
    have hlt := (List.getElem?_eq_some_iff.mp hget).1
    simp only [DiffFile.write, if_neg (hother j (by omega))]
    exact h.item j i hi dbPage hget

theorem addEntries_spec (hnodup : entries.Nodup) {base j : Nat} {words : Nat → Nat} (hbase : base = j * psize.words)
    (hwords : ∀ i, i < psize.pagesPerAllocPage → ∀ dbPage, entries[j * psize.pagesPerAllocPage + i]? = some dbPage →
      words (i + 1) = dbPage) (first count : Nat) (hroom : first + count ≤ psize.pagesPerAllocPage)
    (hlen : j * psize.pagesPerAllocPage + first + count ≤ entries.length) :
    BackupManager.addEntries base words (range' first count)
        (tableOf psize (entries.take (j * psize.pagesPerAllocPage + first))) =
      some (tableOf psize (entries.take (j * psize.pagesPerAllocPage + first + count))) := by
  induction count generalizing first with
  | zero => rfl
  | succ count ih =>
    have hlt : j * psize.pagesPerAllocPage + first < entries.length := by omega
    have hget := getElem?_eq_getElem hlt
    have hnew : entries[j * psize.pagesPerAllocPage + first] ∉ entries.take (j * psize.pagesPerAllocPage + first) := by
      intro hmem
      obtain ⟨m, hm, heq⟩ := mem_take_iff_getElem.mp hmem
      have := (hnodup.getElem_inj_iff).mp heq
      omega
    have hpage : base + first + 1 = psize.diffPage (entries.take (j * psize.pagesPerAllocPage + first)).length := by
      rw [length_take, Nat.min_eq_left (by omega), PageSize.diffPage, PageSize.position_eq psize j (by omega), hbase]
    have hnext := ih (first + 1) (by omega) (by omega)
    rw [range'_succ, BackupManager.addEntries, hwords first (by omega) _ hget, hpage,
      add_tableOf hnew, take_append_getElem hlt]
    have hcount : j * psize.pagesPerAllocPage + first + (count + 1) = j * psize.pagesPerAllocPage +
        (first + 1) + count := by
      omega
    rw [hcount]
    exact hnext

theorem actualizeFrom_spec (hfile : FileHolds psize file entries) (hnodup : entries.Nodup) (haveGlobalLock : Bool)
    {fuel : Nat} (hknows : Knows psize entries n manager)
    (hfuel : entries.length / psize.pagesPerAllocPage < n / psize.pagesPerAllocPage + fuel) :
    Actualized psize file entries haveGlobalLock n manager
      (BackupManager.actualizeFrom psize file haveGlobalLock fuel manager) := by
  have hpos := psize.pagesPerAllocPage_pos
  have hwords := psize.words_eq_succ
  induction fuel generalizing n manager with
  | zero =>
    have := Nat.div_le_div_right (c := psize.pagesPerAllocPage) hknows.le
    omega
  | succ fuel ih =>
    have hdivmod := Nat.div_add_mod' n psize.pagesPerAllocPage
    have hmod := psize.mod_pagesPerAllocPage_lt n
    have hle := hknows.le
    have hused : n / psize.pagesPerAllocPage * psize.pagesPerAllocPage ≤ entries.length := by omega
    have hcount := hfile.count _ hused
    have hfirst : psize.position n - n / psize.pagesPerAllocPage * psize.words = n % psize.pagesPerAllocPage := by
      rw [PageSize.position]
      omega
    rw [BackupManager.actualizeFrom, hknows.last, PageSize.allocPage_position, DiffFile.read,
      if_pos (hfile.length _ hused)]
    dsimp only
    rw [hfirst, hcount]
    by_cases hstop : haveGlobalLock = false ∧
        min psize.pagesPerAllocPage (entries.length - n / psize.pagesPerAllocPage * psize.pagesPerAllocPage) ≠
          psize.pagesPerAllocPage
    · -- an allocation page that may still change is not read without the lock
      rw [if_pos hstop]
      refine ⟨n, _, rfl, ⟨hknows.le, hknows.table, rfl⟩, rfl, Nat.le_refl _, fun hlock => ?_, rfl⟩
      rw [hlock] at hstop
      cases hstop.1
    · have hadded := addEntries_spec hnodup (rfl : n / psize.pagesPerAllocPage * psize.words = _) (hfile.item _)
        (n % psize.pagesPerAllocPage)
        (min psize.pagesPerAllocPage (entries.length - n / psize.pagesPerAllocPage * psize.pagesPerAllocPage) -
          n % psize.pagesPerAllocPage) (by omega) (by omega)
      rw [hdivmod, ← hknows.table] at hadded
      rw [if_neg hstop, hadded]
      dsimp only
      by_cases hfull : min psize.pagesPerAllocPage
          (entries.length - n / psize.pagesPerAllocPage * psize.pagesPerAllocPage) = psize.pagesPerAllocPage
      · -- the page is full: on with the next one
        have hnext : n + (psize.pagesPerAllocPage - n % psize.pagesPerAllocPage) =
            (n / psize.pagesPerAllocPage + 1) * psize.pagesPerAllocPage := by
          rw [Nat.add_mul]
          omega
        have hdiv : (n / psize.pagesPerAllocPage + 1) * psize.pagesPerAllocPage / psize.pagesPerAllocPage =
            n / psize.pagesPerAllocPage + 1 := Nat.mul_div_cancel _ (by omega)
        have hplace : psize.position ((n / psize.pagesPerAllocPage + 1) * psize.pagesPerAllocPage) =
            n / psize.pagesPerAllocPage * psize.words + psize.pagesPerAllocPage + 1 := by
          have hzero := psize.position_eq (n / psize.pagesPerAllocPage + 1) (show 0 < psize.pagesPerAllocPage by omega)
          have hsucc : (n / psize.pagesPerAllocPage + 1) * psize.words =
              n / psize.pagesPerAllocPage * psize.words + psize.words := by rw [Nat.add_mul, Nat.one_mul]
          rw [Nat.add_zero] at hzero
          omega
        rw [if_pos hfull, hfull, hnext]
        have hread : Knows psize entries ((n / psize.pagesPerAllocPage + 1) * psize.pagesPerAllocPage)
            { manager with
              allocBuffer := file.pages (n / psize.pagesPerAllocPage * psize.words)
              allocTable := tableOf psize (entries.take ((n / psize.pagesPerAllocPage + 1) * psize.pagesPerAllocPage))
              lastAllocatedPage := n / psize.pagesPerAllocPage * psize.words + psize.pagesPerAllocPage + 1 } :=
          ⟨by omega, rfl, hplace.symm⟩
        obtain ⟨n', manager', heq, hknows', hlock, hge, hall, hbuffer⟩ := ih hread (by
          omega)
        exact ⟨n', manager', heq, hknows', hlock, by omega, hall, hbuffer⟩
      · rw [if_neg hfull]
        have hlast : entries.length / psize.pagesPerAllocPage = n / psize.pagesPerAllocPage := by
          refine Nat.div_eq_of_lt_le (by omega) ?_
          rw [Nat.add_mul]
          omega
        have hend : n + (min psize.pagesPerAllocPage
            (entries.length - n / psize.pagesPerAllocPage * psize.pagesPerAllocPage) - n % psize.pagesPerAllocPage) =
            entries.length := by omega
        have hplace : psize.position entries.length = n / psize.pagesPerAllocPage * psize.words +
            min psize.pagesPerAllocPage (entries.length - n / psize.pagesPerAllocPage * psize.pagesPerAllocPage) := by
          have := Nat.div_add_mod entries.length psize.pagesPerAllocPage
          rw [hlast, Nat.mul_comm] at this
          rw [PageSize.position, hlast]
          omega
        rw [hend]
        exact ⟨entries.length, _, rfl, ⟨Nat.le_refl _, rfl, hplace.symm⟩, rfl, hle, fun _ => rfl, by rw [hlast]⟩

theorem actualizeAlloc_spec (hfile : FileHolds psize file entries) (hnodup : entries.Nodup) (haveGlobalLock : Bool)
    (hknows : Knows psize entries n manager) :
    Actualized psize file entries haveGlobalLock n manager (manager.actualizeAlloc psize file haveGlobalLock) := by
  have hwords := psize.words_eq_succ
  have hlast := hfile.length (entries.length / psize.pagesPerAllocPage) (Nat.div_mul_le_self ..)
  have hle : entries.length / psize.pagesPerAllocPage ≤ entries.length / psize.pagesPerAllocPage * psize.words :=
    Nat.le_mul_of_pos_right _ (by omega)
  have hlt : entries.length / psize.pagesPerAllocPage < file.length + 1 := by omega
  exact actualizeFrom_spec hfile hnodup haveGlobalLock hknows (Nat.lt_of_lt_of_le hlt (Nat.le_add_left ..))

/-! ### Allocation -/

theorem BufferHolds.append {buffer : Nat → Nat} (hbuffer : BufferHolds psize entries buffer) {dbPage i page : Nat}
    (hget : (entries ++ [dbPage])[entries.length / psize.pagesPerAllocPage * psize.pagesPerAllocPage + i]? = some
      page) :
    BackupManager.append buffer dbPage (i + 1) = page := by
  have hidx := (List.getElem?_eq_some_iff.mp hget).1
  have hsplit := Nat.div_add_mod' entries.length psize.pagesPerAllocPage
  rw [length_append, length_singleton] at hidx
  rw [BackupManager.append, hbuffer.count]
  by_cases hnew : i = entries.length % psize.pagesPerAllocPage
  · have hend : entries.length / psize.pagesPerAllocPage * psize.pagesPerAllocPage + i = entries.length := by omega
    rw [hend, getElem?_append_right (Nat.le_refl _), Nat.sub_self] at hget
    rw [if_pos (by omega)]
    exact Option.some.inj hget
  · rw [getElem?_append_left (by omega)] at hget
    rw [if_neg (by omega)]
    exact hbuffer.item i page hget

/-- An entry is added to the allocation page; if it fills the page, an empty one has been written behind. -/
theorem FileHolds.append (h : FileHolds psize file entries) {buffer : Nat → Nat}
    (hbuffer : BufferHolds psize entries buffer)
    (dbPage : Nat) (hnext : entries.length % psize.pagesPerAllocPage = psize.pagesPerAllocPage - 1 →
      (entries.length / psize.pagesPerAllocPage + 1) * psize.words < file.length ∧
        file.pages ((entries.length / psize.pagesPerAllocPage + 1) * psize.words) = emptyBuffer) :
    FileHolds psize (file.write (entries.length / psize.pagesPerAllocPage * psize.words) (BackupManager.append buffer
      dbPage)) (entries ++ [dbPage]) := by
  have hpos := psize.pagesPerAllocPage_pos
  have hdivmod := Nat.div_add_mod' entries.length psize.pagesPerAllocPage
  have hmod := psize.mod_pagesPerAllocPage_lt entries.length
  have hlength : (entries ++ [dbPage]).length = entries.length + 1 := by rw [length_append, length_singleton]
  -- an allocation page is an earlier one, the one written or the next one
  have hcases : ∀ j, j * psize.pagesPerAllocPage ≤ entries.length + 1 → j < entries.length / psize.pagesPerAllocPage ∨
      j = entries.length / psize.pagesPerAllocPage ∨
      j = entries.length / psize.pagesPerAllocPage + 1 ∧
        entries.length % psize.pagesPerAllocPage = psize.pagesPerAllocPage - 1 := fun j hj => by
    rcases Nat.lt_trichotomy j (entries.length / psize.pagesPerAllocPage) with hlt | heq | hgt
    · exact .inl hlt
    · exact .inr (.inl heq)
    · have hge := Nat.mul_le_mul_right psize.pagesPerAllocPage (show entries.length / psize.pagesPerAllocPage + 1 ≤
        j by omega)
      have hsucc : (entries.length / psize.pagesPerAllocPage + 1) * psize.pagesPerAllocPage =
          entries.length / psize.pagesPerAllocPage * psize.pagesPerAllocPage + psize.pagesPerAllocPage := by
        rw [Nat.add_mul, Nat.one_mul]
      by_contra hne
      have hge2 := Nat.mul_le_mul_right psize.pagesPerAllocPage
        (show entries.length / psize.pagesPerAllocPage + 2 ≤ j by omega)
      have hsucc2 : (entries.length / psize.pagesPerAllocPage + 2) * psize.pagesPerAllocPage =
          entries.length / psize.pagesPerAllocPage * psize.pagesPerAllocPage + 2 * psize.pagesPerAllocPage := by
        rw [Nat.add_mul]
      omega
  have hearlier : ∀ j, j < entries.length / psize.pagesPerAllocPage →
      j * psize.pagesPerAllocPage + psize.pagesPerAllocPage ≤ entries.length := fun j hj => by
    have hge := Nat.mul_le_mul_right psize.pagesPerAllocPage (show j + 1 ≤ entries.length /
      psize.pagesPerAllocPage by omega)
    rw [Nat.add_mul] at hge
    omega
  have hne : ∀ i j, i ≠ j → i * psize.words ≠ j * psize.words := fun i j hij heq =>
    hij (Nat.eq_of_mul_eq_mul_right (by have := psize.words_pos; omega) heq)
  exact {
    length := fun j hj => by
      rw [hlength] at hj
      simp only [DiffFile.write]
      rcases hcases j hj with hlt | rfl | ⟨rfl, hfull⟩
      · have := h.length j (by have := hearlier j hlt; omega)
        omega
      · omega
      · omega
    count := fun j hj => by
      rw [hlength] at hj ⊢
      simp only [DiffFile.write]
      rcases hcases j hj with hlt | rfl | ⟨rfl, hfull⟩
      · have hroom := hearlier j hlt
        rw [if_neg (hne _ _ (by omega)), h.count j (by omega)]
        omega
      · rw [if_pos rfl, BackupManager.append, if_neg (by omega), if_pos rfl, hbuffer.count]
        omega
      · rw [if_neg (hne _ _ (by omega)), (hnext hfull).2, Nat.add_mul]
        simp only [emptyBuffer]
        omega
    item := fun j i hi page hget => by
      have hlt := (List.getElem?_eq_some_iff.mp hget).1
      simp only [DiffFile.write]
      rcases hcases j (by omega) with hearly | rfl | ⟨rfl, hfull⟩
      · have hroom := hearlier j hearly
        rw [getElem?_append_left (by omega)] at hget
        rw [if_neg (hne _ _ (by omega))]
        exact h.item j i hi page hget
      · rw [if_pos rfl]
        exact hbuffer.append hget
      · rw [Nat.add_mul] at hlt
        omega }

/-- What an allocation leaves: nothing is changed for the other processes, or the entry is there. -/
theorem allocate_spec (hfile : FileHolds psize file entries) (hknows : Knows psize entries entries.length manager)
    (hbuffer : BufferHolds psize entries manager.allocBuffer) {dbPage : Nat} (hnew : dbPage ∉ entries)
    (writes : BackupManager.Writes) :
    ∃ diffPage file' manager', manager.allocate psize dbPage writes file = (diffPage, file', manager') ∧
      manager'.cachedLock = manager.cachedLock ∧
      (diffPage = 0 ∧ FileHolds psize file' entries ∧ Knows psize entries entries.length manager' ∧
          (manager'.allocBuffer 0 = entries.length % psize.pagesPerAllocPage →
            BufferHolds psize entries manager'.allocBuffer) ∨
        diffPage = psize.diffPage entries.length ∧ FileHolds psize file' (entries ++ [dbPage]) ∧
          Knows psize (entries ++ [dbPage]) (entries.length + 1) manager' ∧
          BufferHolds psize (entries ++ [dbPage]) manager'.allocBuffer) := by
  have hpos := psize.pagesPerAllocPage_pos
  have hwords := psize.words_eq_succ
  have hmod := psize.mod_pagesPerAllocPage_lt entries.length
  have hposition : psize.position entries.length =
      entries.length / psize.pagesPerAllocPage * psize.words + entries.length % psize.pagesPerAllocPage := rfl
  have hsucc : (entries.length / psize.pagesPerAllocPage + 1) * psize.words =
      entries.length / psize.pagesPerAllocPage * psize.words + psize.words := by rw [Nat.add_mul, Nat.one_mul]
  have hlength : (entries ++ [dbPage]).length = entries.length + 1 := by rw [length_append, length_singleton]
  have htable : BackupManager.add dbPage (psize.position entries.length + 1) manager.allocTable =
      some (tableOf psize ((entries ++ [dbPage]).take (entries.length + 1))) := by
    rw [hknows.table, take_length, take_of_length_le (Nat.le_of_eq hlength)]
    exact add_tableOf hnew
  have hsame : ∀ buffer, Knows psize entries entries.length
      { manager with allocBuffer := buffer, lastAllocatedPage := psize.position entries.length } := fun _ =>
    ⟨Nat.le_refl _, hknows.table, rfl⟩
  -- the page that is allocated is not an allocation page, and the next allocation page is not yet in use
  have hgrown : ∀ j, j * psize.pagesPerAllocPage ≤ entries.length →
      j * psize.words ≠ psize.position entries.length + 1 :=
    fun j _ heq => by
      have := psize.diffPage_mod entries.length
      rw [PageSize.diffPage, ← heq, Nat.mul_mod_left] at this
      omega
  have hbeyond : ∀ j, j * psize.pagesPerAllocPage ≤ entries.length →
      j * psize.words ≠ (entries.length / psize.pagesPerAllocPage + 1) * psize.words := fun j hj heq => by
    have hjle := (Nat.le_div_iff_mul_le (show 0 < psize.pagesPerAllocPage by omega)).mpr hj
    have := Nat.eq_of_mul_eq_mul_right (show 0 < psize.words by omega) heq
    omega
  have hfile' := hfile.write emptyBuffer hgrown
  unfold BackupManager.allocate
  dsimp only
  rw [hknows.last, PageSize.allocPage_position, htable, hbuffer.count]
  by_cases hgrow : writes.grow = false
  · rw [if_pos hgrow]
    exact ⟨0, _, _, rfl, rfl, .inl ⟨rfl, hfile, hknows, fun _ => hbuffer⟩⟩
  rw [if_neg hgrow]
  by_cases hnextAlloc : entries.length % psize.pagesPerAllocPage = psize.words - 2 ∧ writes.nextAlloc = false
  · rw [if_pos hnextAlloc]
    exact ⟨0, _, _, rfl, rfl, .inl ⟨rfl, hfile', hknows, fun _ => hbuffer⟩⟩
  rw [if_neg hnextAlloc]
  -- from here on the count of the buffer is changed, before it is known whether it can be written
  have hcount : BackupManager.append manager.allocBuffer dbPage 0 = entries.length % psize.pagesPerAllocPage + 1 := by
    rw [BackupManager.append, if_neg (by omega), if_pos rfl, hbuffer.count]
  have hstale : BackupManager.append manager.allocBuffer dbPage 0 = entries.length % psize.pagesPerAllocPage →
      BufferHolds psize entries (BackupManager.append manager.allocBuffer dbPage) := fun h => by omega
  by_cases hfull : entries.length % psize.pagesPerAllocPage = psize.words - 2
  · have hbehind : psize.position entries.length + 2 = (entries.length / psize.pagesPerAllocPage + 1) *
        psize.words := by
      omega
    have hfile'' := hfile'.write emptyBuffer hbeyond
    rw [if_pos hfull, if_pos hfull, hbehind]
    by_cases hitem : writes.item = false
    · rw [if_pos hitem]
      exact ⟨0, _, _, rfl, rfl, .inl ⟨rfl, hfile'', hsame _, hstale⟩⟩
    · rw [if_neg hitem]
      have hround : entries.length + 1 = (entries.length / psize.pagesPerAllocPage + 1) * psize.pagesPerAllocPage := by
        have := Nat.div_add_mod entries.length psize.pagesPerAllocPage
        rw [Nat.add_mul, Nat.mul_comm]
        omega
      refine ⟨_, _, _, rfl, rfl, .inr
        ⟨rfl, hfile''.append hbuffer dbPage fun _ => ⟨?_, ?_⟩, ⟨?_, rfl, ?_⟩, ?_, fun i page hget => ?_⟩⟩
      · simp only [DiffFile.write]
        omega
      · simp only [DiffFile.write, if_true]
      · rw [hlength]
      · have hplace := psize.position_eq (entries.length / psize.pagesPerAllocPage + 1)
          (show 0 < psize.pagesPerAllocPage by omega)
        rw [← hround] at hplace
        exact hplace.symm
      · rw [hlength, hround, Nat.mul_mod_left]
        rfl
      · have hidx := (List.getElem?_eq_some_iff.mp hget).1
        rw [hlength, hround, Nat.mul_div_cancel _ (by omega)] at hidx
        omega
  · rw [if_neg hfull, if_neg hfull]
    by_cases hitem : writes.item = false
    · rw [if_pos hitem]
      exact ⟨0, _, _, rfl, rfl, .inl ⟨rfl, hfile', hsame _, hstale⟩⟩
    · rw [if_neg hitem]
      have hsplit := Nat.div_add_mod entries.length psize.pagesPerAllocPage
      rw [Nat.mul_comm] at hsplit
      have hdiv : (entries.length + 1) / psize.pagesPerAllocPage = entries.length / psize.pagesPerAllocPage := by
        refine Nat.div_eq_of_lt_le (by omega) ?_
        rw [Nat.add_mul]
        omega
      have hrest : (entries.length + 1) % psize.pagesPerAllocPage = entries.length % psize.pagesPerAllocPage + 1 := by
        have := Nat.div_add_mod (entries.length + 1) psize.pagesPerAllocPage
        rw [hdiv, Nat.mul_comm] at this
        omega
      refine ⟨_, _, _, rfl, rfl, .inr
        ⟨rfl, hfile'.append hbuffer dbPage fun hend => ?_, ⟨?_, rfl, ?_⟩, ?_, fun i page hget => ?_⟩⟩
      · omega
      · rw [hlength]
      · have hplace : psize.position (entries.length + 1) =
            entries.length / psize.pagesPerAllocPage * psize.words +
            (entries.length % psize.pagesPerAllocPage + 1) := by
          rw [PageSize.position, hdiv, hrest]
        exact hplace.symm
      · rw [hlength, hrest]
        exact hcount
      · rw [hlength, hdiv] at hget
        exact hbuffer.append hget

/-! ### The processes -/

section
variable {ι : Type*} [DecidableEq ι] {s t : Backup ι} {p : ι}

/-- What holds between calls, with the database pages that were given difference pages so far. -/
structure Backup.Inv (psize : PageSize) (s : Backup ι) (entries : List Nat) : Prop where
  nodup : entries.Nodup
  file : FileHolds psize s.diffFile entries
  knows : ∀ p, ∃ n, Knows psize entries n (s.process p)
  /-- A process with the lock knows all entries. -/
  current : ∀ p, (s.process p).cachedLock ≠ .none → Knows psize entries entries.length (s.process p)
  /-- A process that may write has the allocation page, if the count in its buffer is right. -/
  buffer : ∀ p, (s.process p).cachedLock = .write →
    (s.process p).allocBuffer 0 = entries.length % psize.pagesPerAllocPage → BufferHolds psize entries
    (s.process p).allocBuffer
  exclusive : ∀ p q, (s.process p).cachedLock = .write → q ≠ p → (s.process q).cachedLock = .none
  returned : ∀ item, item ∈ s.returned ↔ ∃ n, entries[n]? = some item.dbPage ∧ item.diffPage = psize.diffPage n

/-- A process that goes on with the buffer it has kept finds in it the count that `last_allocated_page` says. -/
def Careful (psize : PageSize) (s : Backup ι) : Op ι → Prop
  | .allocateDifferencePage p dbPage _ => (s.process p).cachedLock = .write → (s.process p).allocTable dbPage = none →
      (s.process p).lastAllocatedPage % psize.words = (s.process p).allocBuffer 0
  | .getPageIndex .. | .writeDifference .. | .initializeAlloc _ | .releaseLock _ => True

/-- The processes agree on the difference pages. -/
structure Agrees (psize : PageSize) (s : Backup ι) : Prop where
  /-- Whatever a process knows, it rereads exactly what the calls returned. -/
  reread : ∀ p, ∃ manager, (s.process p).actualizeAlloc psize s.diffFile true = some (true, manager) ∧
    ∀ dbPage diffPage, manager.allocTable dbPage = some diffPage ↔ ⟨dbPage, diffPage⟩ ∈ s.returned
  /-- `getPageIndex` gives it to any process. -/
  index : ∀ p dbPage diffPage, diffPage ≠ 0 → ((s.getPageIndex psize p dbPage).1 = diffPage ↔
    ⟨dbPage, diffPage⟩ ∈ s.returned)
  /-- No database page has two difference pages. -/
  single : ∀ a ∈ s.returned, ∀ b ∈ s.returned, a.dbPage = b.dbPage → a.diffPage = b.diffPage
  /-- No two database pages share a difference page. -/
  distinct : ∀ a ∈ s.returned, ∀ b ∈ s.returned, a.diffPage = b.diffPage → a.dbPage = b.dbPage
  /-- No difference page is an allocation page. -/
  notAlloc : ∀ a ∈ s.returned, a.diffPage % psize.words ≠ 0

theorem Knows.congr {m : BackupManager} (h : Knows psize entries n manager) (htable : m.allocTable = manager.allocTable)
    (hlast : m.lastAllocatedPage = manager.lastAllocatedPage) : Knows psize entries n m :=
  ⟨h.le, htable.trans h.table, hlast.trans h.last⟩

theorem Knows.append (h : Knows psize entries n manager)
    (dbPage : Nat) : Knows psize (entries ++ [dbPage]) n manager where
  le := by
    rw [length_append]
    exact Nat.le_add_right_of_le h.le
  table := by
    rw [take_append_of_le_length h.le]
    exact h.table
  last := h.last

theorem Knows.mem (h : Knows psize entries n manager) (hnodup : entries.Nodup)
    (htable : manager.allocTable dbPage = some diffPage) :
    ∃ n, entries[n]? = some dbPage ∧ diffPage = psize.diffPage n := by
  rw [h.table] at htable
  obtain ⟨m, hget, hpage⟩ := (tableOf_eq_some (hnodup.sublist (take_sublist ..))).mp htable
  rw [getElem?_take] at hget
  split at hget
  · exact ⟨m, hget, hpage⟩
  · cases hget

namespace Backup.Inv

omit [DecidableEq ι] in
theorem begun : (Backup.begun : Backup ι).Inv psize [] where
  nodup := nodup_nil
  file := {
    length := fun j hj => by
      have hpos := psize.pagesPerAllocPage_pos
      obtain rfl : j = 0 := (Nat.mul_eq_zero.mp (Nat.le_zero.mp hj)).resolve_right (by omega)
      rw [Nat.zero_mul]
      exact Nat.zero_lt_one
    count := fun _ _ => by simp [Backup.begun, emptyBuffer]
    item := fun _ _ _ _ hget => by simp at hget }
  knows _ := ⟨0, Nat.le_refl _, rfl, by simp [PageSize.position, Backup.begun, BackupManager.initial]⟩
  current _ hlock := absurd rfl hlock
  buffer _ hlock := LockLevel.noConfusion hlock
  exclusive _ _ hlock := LockLevel.noConfusion hlock
  returned _ := by simp [Backup.begun]

section
variable (h : s.Inv psize entries)
include h

theorem setProcess {manager : BackupManager} (hknows : ∃ n, Knows psize entries n manager)
    (hcurrent : manager.cachedLock ≠ .none → Knows psize entries entries.length manager)
    (hbuffer : manager.cachedLock = .write → manager.allocBuffer 0 = entries.length % psize.pagesPerAllocPage →
      BufferHolds psize entries manager.allocBuffer)
    (hexclusive : ∀ q, q ≠ p → (manager.cachedLock = .write → (s.process q).cachedLock = .none) ∧
      ((s.process q).cachedLock = .write → manager.cachedLock = .none)) :
      (s.setProcess p manager).Inv psize entries where
  nodup := h.nodup
  file := h.file
  knows q := by
    simp only [Backup.setProcess]
    split
    · exact hknows
    · exact h.knows q
  current q := by
    simp only [Backup.setProcess]
    split
    · exact hcurrent
    · exact h.current q
  buffer q := by
    simp only [Backup.setProcess]
    split
    · exact hbuffer
    · exact h.buffer q
  exclusive q r := by
    simp only [Backup.setProcess]
    intro hlock hne
    by_cases hq : q = p
    · rw [if_pos hq] at hlock
      rw [if_neg fun hr => hne (hr.trans hq.symm)]
      exact (hexclusive r fun hr => hne (hr.trans hq.symm)).1 hlock
    · rw [if_neg hq] at hlock
      by_cases hr : r = p
      · rw [if_pos hr]
        exact (hexclusive q hq).2 hlock
      · rw [if_neg hr]
        exact h.exclusive q r hlock hne
  returned := h.returned

theorem lower (level : LockLevel → LockLevel) (hnone : level .none = .none)
    (hread : level .read ≠ .write) : (s.lower p level).Inv psize entries where
  nodup := h.nodup
  file := h.file
  knows q := by
    obtain ⟨n, hknows⟩ := h.knows q
    refine ⟨n, ?_⟩
    simp only [Backup.lower]
    split
    · exact hknows
    · exact hknows.congr rfl rfl
  current q hlock := by
    simp only [Backup.lower] at hlock ⊢
    split at hlock
    · rename_i hq
      rw [if_pos hq]
      exact h.current q hlock
    · rename_i hq
      rw [if_neg hq]
      exact (h.current q fun heq => hlock (by rw [heq, hnone])).congr rfl rfl
  buffer q hlock := by
    simp only [Backup.lower] at hlock ⊢
    split at hlock
    · rename_i hq
      rw [if_pos hq]
      exact h.buffer q hlock
    · rename_i hq
      rw [if_neg hq]
      refine h.buffer q ?_
      cases hold : (s.process q).cachedLock with
      | write => rfl
      | read => exact absurd (hold ▸ hlock) hread
      | none =>
        rw [hold, hnone] at hlock
        cases hlock
  exclusive q r hlock hne := by
    have hwrite : (s.process q).cachedLock = .write := by
      simp only [Backup.lower] at hlock
      split at hlock
      · exact hlock
      · cases hold : (s.process q).cachedLock with
        | write => rfl
        | read => exact absurd (hold ▸ hlock) hread
        | none =>
          rw [hold, hnone] at hlock
          cases hlock
    have hfree := h.exclusive q r hwrite hne
    simp only [Backup.lower]
    split
    · exact hfree
    · rw [hfree, hnone]
  returned := h.returned

theorem fetch (level : LockLevel)
    (hothers : ∀ q, q ≠ p → (level = .write → (s.process q).cachedLock = .none) ∧ (s.process q).cachedLock ≠ .write) :
    ∃ t, Backup.fetch psize p level s = some t ∧ t.Inv psize entries ∧ t.returned = s.returned ∧
      (t.process p).cachedLock = level ∧ Knows psize entries entries.length (t.process p) ∧
      BufferHolds psize entries (t.process p).allocBuffer := by
  obtain ⟨n, hknows⟩ := h.knows p
  obtain ⟨n', manager, heq, hknows', -, -, hall, hbuffer⟩ := actualizeAlloc_spec h.file h.nodup true hknows
  obtain rfl := hall rfl
  have hholds : BufferHolds psize entries manager.allocBuffer := by
    rw [hbuffer]
    exact h.file.buffer
  have hlocked : Knows psize entries entries.length { manager with cachedLock := level } := hknows'.congr rfl rfl
  refine ⟨s.setProcess p { manager with cachedLock := level }, by rw [Backup.fetch, heq], ?_, rfl, ?_, ?_, ?_⟩
  · exact h.setProcess ⟨_, hlocked⟩ (fun _ => hlocked) (fun _ _ => hholds) fun q hq =>
      ⟨(hothers q hq).1, fun hwrite => absurd hwrite (hothers q hq).2⟩
  · simp only [Backup.setProcess, if_true]
  · simp only [Backup.setProcess, if_true]
    exact hlocked
  · simp only [Backup.setProcess, if_true]
    exact hholds

theorem lockWrite (hkept : (s.process p).cachedLock = .write → BufferHolds psize entries (s.process p).allocBuffer) :
    ∃ t, Backup.lockWrite psize p s = some t ∧ t.Inv psize entries ∧ t.returned = s.returned ∧
      (t.process p).cachedLock = .write ∧ Knows psize entries entries.length (t.process p) ∧
      BufferHolds psize entries (t.process p).allocBuffer := by
  unfold Backup.lockWrite
  by_cases hlock : (s.process p).cachedLock = .write
  · rw [if_pos hlock]
    exact ⟨s, rfl, h, rfl, hlock, h.current p (by rw [hlock]; exact LockLevel.noConfusion), hkept hlock⟩
  · rw [if_neg hlock]
    refine (h.lower _ rfl LockLevel.noConfusion).fetch _ fun q hq => ?_
    simp only [Backup.lower, if_neg hq]
    exact ⟨fun _ => trivial, LockLevel.noConfusion⟩

theorem lockRead :
    ∃ t, Backup.lockRead psize p s = some t ∧ t.Inv psize entries ∧ t.returned = s.returned ∧
      Knows psize entries entries.length (t.process p) := by
  unfold Backup.lockRead
  by_cases hlock : (s.process p).cachedLock ≠ .none
  · rw [if_pos hlock]
    exact ⟨s, rfl, h, rfl, h.current p hlock⟩
  · rw [if_neg hlock]
    have hothers : ∀ q, q ≠ p → (LockLevel.read = .write → ((s.lower p Backup.readable).process q).cachedLock = .none) ∧
        ((s.lower p Backup.readable).process q).cachedLock ≠ .write := fun q hq => by
      refine ⟨LockLevel.noConfusion, ?_⟩
      simp only [Backup.lower, if_neg hq]
      cases (s.process q).cachedLock <;> exact LockLevel.noConfusion
    obtain ⟨t, heq, hinv, hreturned, -, hknows, -⟩ :=
      (h.lower Backup.readable rfl LockLevel.noConfusion).fetch .read hothers
    exact ⟨t, heq, hinv, hreturned, hknows⟩

end

/-! ### The calls -/

section
variable (h : s.Inv psize entries)
include h

omit [DecidableEq ι] in
theorem mem_returned (htable : (s.process p).allocTable dbPage = some diffPage) : ⟨dbPage, diffPage⟩ ∈ s.returned := by
  obtain ⟨n, hknows⟩ := h.knows p
  exact (h.returned _).mpr (hknows.mem h.nodup htable)

omit [DecidableEq ι] in
theorem known (htable : (s.process p).allocTable dbPage = some diffPage) :
    Backup.Inv psize { s with returned := ⟨dbPage, diffPage⟩ :: s.returned } entries :=
  { h with
    returned := fun item => by
      rw [← h.returned, mem_cons]
      refine ⟨fun hmem => ?_, .inr⟩
      rcases hmem with rfl | hmem
      · exact h.mem_returned htable
      · exact hmem }

theorem allocate (hlock : (s.process p).cachedLock = .write)
    (hbuffer : BufferHolds psize entries (s.process p).allocBuffer) {dbPage : Nat} (hnew : dbPage ∉ entries)
    {writes : BackupManager.Writes} {diffPage : Nat} {file : DiffFile} {manager : BackupManager}
    (heq : (s.process p).allocate psize dbPage writes s.diffFile = (diffPage, file, manager)) :
    ∃ entries', Backup.Inv psize (if diffPage = 0 then { s.setProcess p manager with diffFile := file }
      else { s.setProcess p manager with diffFile := file, returned := ⟨dbPage, diffPage⟩ :: s.returned })
        entries' := by
  have hknows := h.current p (by rw [hlock]; exact LockLevel.noConfusion)
  obtain ⟨_, _, _, heq', hlock', hcase⟩ := allocate_spec h.file hknows hbuffer hnew writes
  rw [heq] at heq'
  cases heq'
  have hfree : ∀ q, q ≠ p → (s.process q).cachedLock = .none := fun q hq => h.exclusive p q hlock hq
  have hexclusive : ∀ q, q ≠ p → (manager.cachedLock = .write → (s.process q).cachedLock = .none) ∧
      ((s.process q).cachedLock = .write → manager.cachedLock = .none) := fun q hq =>
    ⟨fun _ => hfree q hq, fun hwrite => by
      rw [hfree q hq] at hwrite
      cases hwrite⟩
  rcases hcase with ⟨rfl, hfile, hknows', hbuffer'⟩ | ⟨rfl, hfile, hknows', hbuffer'⟩
  · exact ⟨entries, { h.setProcess ⟨_, hknows'⟩ (fun _ => hknows') (fun _ => hbuffer') hexclusive with file := hfile }⟩
  · rw [if_neg (show psize.diffPage entries.length ≠ 0 from Nat.succ_ne_zero _)]
    have hlength : (entries ++ [dbPage]).length = entries.length + 1 := by rw [length_append, length_singleton]
    refine ⟨entries ++ [dbPage], ?_⟩
    exact {
      nodup := nodup_append.mpr ⟨h.nodup, nodup_singleton _, fun x hx y hy hxy => by
        rw [mem_singleton.mp hy] at hxy
        exact hnew (hxy ▸ hx)⟩
      file := hfile
      knows := fun q => by
        simp only [Backup.setProcess]
        split
        · exact ⟨_, hknows'⟩
        · obtain ⟨n, hq⟩ := h.knows q
          exact ⟨n, hq.append dbPage⟩
      current := fun q hq => by
        simp only [Backup.setProcess] at hq ⊢
        split at hq
        · rename_i hqp
          rw [if_pos hqp, hlength]
          exact hknows'
        · rename_i hqp
          exact absurd (hfree q hqp) hq
      buffer := fun q hq _ => by
        simp only [Backup.setProcess] at hq ⊢
        split at hq
        · rename_i hqp
          rw [if_pos hqp]
          exact hbuffer'
        · rename_i hqp
          rw [hfree q hqp] at hq
          cases hq
      exclusive := fun q r hq hr => by
        simp only [Backup.setProcess] at hq ⊢
        split at hq
        · rename_i hqp
          rw [if_neg fun hrp => hr (hrp.trans hqp.symm)]
          exact hfree r fun hrp => hr (hrp.trans hqp.symm)
        · rename_i hqp
          rw [hfree q hqp] at hq
          cases hq
      returned := fun item => by
        rw [mem_cons, h.returned]
        constructor
        · rintro (rfl | ⟨n, hget, hpage⟩)
          · exact ⟨entries.length, by rw [getElem?_append_right (Nat.le_refl _), Nat.sub_self]; rfl, rfl⟩
          · exact ⟨n, by rw [getElem?_append_left (List.getElem?_eq_some_iff.mp hget).1]; exact hget, hpage⟩
        · rintro ⟨n, hget, hpage⟩
          have hn := (List.getElem?_eq_some_iff.mp hget).1
          by_cases hlast : n = entries.length
          · subst hlast
            rw [getElem?_append_right (Nat.le_refl _), Nat.sub_self] at hget
            have hdb : item.dbPage = dbPage := (Option.some.inj hget).symm
            refine .inl ?_
            rw [AllocItem.mk.injEq]
            exact ⟨hdb, hpage⟩
          · rw [getElem?_append_left (by omega)] at hget
            exact .inr ⟨n, hget, hpage⟩ }

theorem allocateDifferencePage {dbPage : Nat} {writes : BackupManager.Writes}
    (hcareful : Careful psize s (.allocateDifferencePage p dbPage writes)) :
    ∃ entries', (s.allocateDifferencePage psize p dbPage writes).Inv psize entries' := by
  unfold Backup.allocateDifferencePage
  split
  case h_1 diffPage htable => exact ⟨entries, h.known htable⟩
  case h_2 hnone =>
    obtain ⟨t, heq, hinv, -, hlock, hknows, hbuffer⟩ := h.lockWrite fun hlock => h.buffer p hlock (by
      rw [← hcareful hlock hnone, (h.current p (by rw [hlock]; exact LockLevel.noConfusion)).last,
        PageSize.position_mod])
    rw [heq]
    dsimp only
    split
    case h_1 diffPage htable => exact ⟨entries, hinv.known htable⟩
    case h_2 hfree =>
      have hnew : dbPage ∉ entries := fun hmem => by
        rw [hknows.table, take_length, tableOf, if_pos hmem] at hfree
        cases hfree
      exact hinv.allocate hlock hbuffer hnew rfl

theorem getPageIndex (dbPage : Nat) :
    (s.getPageIndex psize p dbPage).2.Inv psize entries ∧
      ∀ diffPage, diffPage ≠ 0 → ((s.getPageIndex psize p dbPage).1 = diffPage ↔ ⟨dbPage, diffPage⟩ ∈ s.returned) := by
  unfold Backup.getPageIndex
  split
  case h_1 diffPage htable =>
    refine ⟨h, fun other _ => ⟨fun heq => heq ▸ h.mem_returned htable, fun hmem => ?_⟩⟩
    obtain ⟨n, hknows⟩ := h.knows p
    have hfirst := (tableOf_eq_some h.nodup).mpr (hknows.mem h.nodup htable)
    have hsecond := (tableOf_eq_some h.nodup).mpr ((h.returned _).mp hmem)
    exact Option.some.inj (hfirst.symm.trans hsecond)
  case h_2 hnone =>
    obtain ⟨t, heq, hinv, hreturned, hknows⟩ := h.lockRead (p := p)
    rw [heq]
    dsimp only
    refine ⟨hinv, fun diffPage hpage => ?_⟩
    rw [← hreturned, hinv.returned, ← tableOf_eq_some h.nodup, hknows.table, take_length]
    cases tableOf psize entries dbPage with
    | none => exact ⟨fun hzero => absurd hzero.symm hpage, fun hfalse => by cases hfalse⟩
    | some found => exact ⟨congrArg some, Option.some.inj⟩

omit [DecidableEq ι] in
theorem writeDifference (htable : (s.process p).allocTable dbPage = some diffPage) (page : Nat → Nat) :
    Backup.Inv psize { s with diffFile := s.diffFile.write diffPage page } entries := by
  obtain ⟨n, -, rfl⟩ := (h.returned _).mp (h.mem_returned htable)
  refine { h with file := h.file.write page fun j _ heq => ?_ }
  have hmod := psize.diffPage_mod n
  rw [← heq, Nat.mul_mod_left] at hmod
  omega

theorem initializeAlloc (p : ι) : (s.exec psize (.initializeAlloc p)).Inv psize entries := by
  obtain ⟨n, hknows⟩ := h.knows p
  obtain ⟨n', manager, heq, hknows', hlock, hle, -, hbuffer⟩ := actualizeAlloc_spec h.file h.nodup false hknows
  simp only [Backup.exec, heq]
  have hall : (s.process p).cachedLock ≠ .none → n' = entries.length := fun hold => by
    have hlast := (h.current p hold).last
    rw [hknows.last] at hlast
    have := PageSize.diffPage_injective (congrArg (· + 1) hlast)
    have := hknows'.le
    omega
  rw [← hlock] at hall
  refine h.setProcess ⟨n', hknows'⟩ (fun hold => hall hold ▸ hknows') (fun hwrite _ => ?_) fun q hq => ?_
  · rw [hbuffer, hall (by rw [hwrite]; exact LockLevel.noConfusion)]
    exact h.file.buffer
  · rw [hlock]
    refine ⟨fun hwrite => h.exclusive p q hwrite hq, fun hwrite => ?_⟩
    exact h.exclusive q p hwrite (Ne.symm hq)

theorem releaseLock (p : ι) : (s.exec psize (.releaseLock p)).Inv psize entries := by
  obtain ⟨n, hknows⟩ := h.knows p
  exact h.setProcess ⟨n, hknows.congr rfl rfl⟩ (fun hlock => absurd rfl hlock) (fun hlock => LockLevel.noConfusion
    hlock) fun _ _ => ⟨fun hlock => LockLevel.noConfusion hlock, fun _ => rfl⟩

theorem does {op : Op ι} (hstep : Does (Careful psize) (Backup.exec psize) s op t) :
    ∃ entries', t.Inv psize entries' := by
  obtain ⟨hcareful, rfl⟩ := hstep
  cases op with
  | allocateDifferencePage p dbPage writes => exact h.allocateDifferencePage hcareful
  | getPageIndex p dbPage => exact ⟨entries, (h.getPageIndex dbPage).1⟩
  | writeDifference p dbPage page =>
    simp only [Backup.exec]
    split
    case h_1 diffPage htable => exact ⟨entries, h.writeDifference htable page⟩
    case h_2 => exact ⟨entries, h⟩
  | initializeAlloc p => exact ⟨entries, h.initializeAlloc p⟩
  | releaseLock p => exact ⟨entries, h.releaseLock p⟩

theorem agrees : Agrees psize s where
  reread p := by
    obtain ⟨n, hknows⟩ := h.knows p
    obtain ⟨n', manager, heq, hknows', -, -, hall, -⟩ := actualizeAlloc_spec h.file h.nodup true hknows
    refine ⟨manager, heq, fun dbPage diffPage => ?_⟩
    rw [hknows'.table, hall rfl, take_length, tableOf_eq_some h.nodup, h.returned]
  index p dbPage := (h.getPageIndex dbPage).2
  single a ha b hb hab := by
    have hfirst := (tableOf_eq_some h.nodup).mpr ((h.returned a).mp ha)
    have hsecond := (tableOf_eq_some h.nodup).mpr ((h.returned b).mp hb)
    rw [hab] at hfirst
    exact Option.some.inj (hfirst.symm.trans hsecond)
  distinct a ha b hb hab := by
    obtain ⟨m, hm, hma⟩ := (h.returned a).mp ha
    obtain ⟨n, hn, hnb⟩ := (h.returned b).mp hb
    obtain rfl := PageSize.diffPage_injective (hma.symm.trans (hab.trans hnb))
    exact Option.some.inj (hm.symm.trans hn)
  notAlloc a ha := by
    obtain ⟨n, -, hpage⟩ := (h.returned a).mp ha
    rw [hpage, PageSize.diffPage_mod]
    exact Nat.succ_ne_zero _

end

end Backup.Inv

/-- After any calls of any processes, with any writes failing, the processes agree, if none goes on with
    an allocation page that it failed to write. -/
theorem agrees_of_careful_calls {ops : List (Op ι)}
    (hrun : Run (Does (Careful psize) (Backup.exec psize)) Backup.begun ops s) : Agrees psize s := by
  obtain ⟨entries, hinv⟩ : ∃ entries, s.Inv psize entries :=
    hrun.invariant (I := fun s => ∃ entries, s.Inv psize entries) (fun _ _ _ ⟨_, hinv⟩ hstep => hinv.does hstep)
      ⟨[], Backup.Inv.begun⟩
  exact hinv.agrees

end

def pages8192 : PageSize := ⟨8192, 11, rfl, by omega⟩

/-- The first process fails to write the allocation page, gives up the lock and tries again; the second one reads. -/
def retried : List (Op Bool) :=
  [.allocateDifferencePage false 10 ⟨true, true, false⟩, .releaseLock false,
    .allocateDifferencePage false 20 ⟨true, true, true⟩, .getPageIndex true 20]

theorem agrees_of_careful_calls_retried :
    Agrees pages8192 (retried.foldl (Backup.exec pages8192) (Backup.begun : Backup Bool)) := by
  refine agrees_of_careful_calls (run_of_allAllowed ⟨fun hlock => ?_, trivial, fun hlock => ?_, trivial, trivial⟩)
  · cases hlock
  · cases hlock

/-- Without giving up the lock the second page is told the place of the first: the table in the file has
    the first page there, whose allocation failed, and the second page behind. -/
theorem failed_write_not_agrees : ¬ ∀ (psize : PageSize) (ops : List (Op Bool)) (s : Backup Bool),
    Run (Does (fun _ _ => True) (Backup.exec psize)) Backup.begun ops s → Agrees psize s := by
  intro h
  have hagrees := h pages8192 [.allocateDifferencePage false 10 ⟨true, true, false⟩,
    .allocateDifferencePage false 20 ⟨true, true, true⟩] _ (run_of_allAllowed ⟨trivial, trivial, trivial⟩)
  obtain ⟨manager, heq, htable⟩ := hagrees.reread true
  have hreturned := (htable 20 1).mpr (by decide +kernel)
  have hread := congrArg (fun r => r.map fun r : Bool × BackupManager => r.2.allocTable 20) heq
  have hsecond : (((Backup.exec pages8192 (Backup.exec pages8192 (Backup.begun : Backup Bool)
      (.allocateDifferencePage false 10 ⟨true, true, false⟩))
      (.allocateDifferencePage false 20 ⟨true, true, true⟩)).process
        true).actualizeAlloc pages8192 (Backup.exec pages8192 (Backup.exec pages8192 (Backup.begun : Backup Bool)
      (.allocateDifferencePage false 10 ⟨true, true, false⟩))
      (.allocateDifferencePage false 20 ⟨true, true, true⟩)).diffFile
        true).map (fun r => r.2.allocTable 20) = some (some 2) := by decide +kernel
  have hboth := hread.symm.trans hsecond
  simp only [Option.map_some, hreturned] at hboth
  cases hboth

end Firebird.Nbak
