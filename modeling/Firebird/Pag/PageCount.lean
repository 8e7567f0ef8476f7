import Firebird.Pag.Runs

/-! # Counting the pages of a page space

`PageSpace::usedPages`, `PageSpace::lastUsedPage` and `PAG_page_count` of `src/jrd/pag.cpp`: how many
pages are in use, which is the last one, and how many the file has to have. -/

namespace Firebird.Pag
open List

/-- What the device adds to a page space: whether it is a raw one, and what a page that is not an
    inventory page looks like when it is read as one. -/
structure Device where
  onRawDevice : Bool
  other : Nat → PageInvPage

namespace PageInvPage
variable (pip : PageInvPage)

/-- The pages of a byte that are in use: eight less what `bitsInByte` says. -/
def usedInByte (byte : Nat) : Nat := 8 - (range' (byte * 8) 8).countP pip.pipBits

/-- The pages that `usedPages` counts on an inventory page. -/
def usedCount : Nat :=
  pip.pipMin / 8 * 8 + ((range' (pip.pipMin / 8) (pip.pipUsed / 8 - pip.pipMin / 8)).map pip.usedInByte).sum

/-- The loop of `lastUsedPage` from `last_bit` downwards, with the byte and the bit in it that it looks
    at; its first argument and its result are `last_bit + 1`. -/
def lastBit : Nat → Nat → Nat → Nat
  | 0, _, _ => 0
  | n + 1, byteNum, mask =>
    if pip.pipBits (byteNum * 8 + mask) then
      if mask = 0 then lastBit n (byteNum - 1) 7 else lastBit n byteNum (mask - 1)
    else n + 1

end PageInvPage

/-- How the search for the last inventory page ends. -/
inductive LastPip
  | found (page : Nat) (pip : PageInvPage) | noPip | endless

section
variable (mgr : PageManager) (device : Device) (space : PageSpace)

/-- The inventory pages one after another; the one behind the last is of another type. -/
def usedFrom : List PageInvPage → Nat → Nat
  | [], used => used
  | pip :: rest, used => if pip.pipUsed < mgr.pagesPerPIP then used + pip.usedCount else usedFrom
      rest (used + pip.usedCount)

def usedPages : Nat := usedFrom mgr space.pips 0

/-- The sequence of the inventory page that has its place at a page number. -/
def sequenceAt (page : Nat) : Option Nat :=
  if page = firstPipPage then some 0
  else if (page + 1) % mgr.pagesPerPIP = 0 then some ((page + 1) / mgr.pagesPerPIP) else none

/-- Whether a page is an inventory page, and what is read from it as one. -/
def fetch (page : Nat) : Bool × PageInvPage :=
  match (sequenceAt mgr page).bind fun sequence => space.pips[sequence]? with
  | some pip => (true, pip)
  | none => (false, device.other page)

/-- From an inventory page that was the last one before. -/
def moveUp : Nat → Nat → LastPip
  | 0, _ => .endless
  | fuel + 1, pipLast =>
    let pip := (fetch mgr device space pipLast).2
    if pip.pipUsed ≠ mgr.pagesPerPIP ∨ pip.pipBits ((mgr.bytesBitPIP - 1) * 8 + 7) then .found pipLast pip
    else moveUp fuel (if pipLast = firstPipPage then mgr.pagesPerPIP - 1 else pipLast + mgr.pagesPerPIP)

/-- From the last place in the file where an inventory page may be. -/
def moveDown : Nat → Nat → LastPip
  | 0, _ => .endless
  | fuel + 1, pipLast =>
    match fetch mgr device space pipLast with
    | (true, pip) => .found pipLast pip
    | (false, _) =>
      if mgr.pagesPerPIP < pipLast then moveDown fuel (pipLast - mgr.pagesPerPIP)
      else if pipLast = firstPipPage then .noPip
      else moveDown fuel firstPipPage

def lastUsedOn (pipLast : Nat) (pip : PageInvPage) : Nat :=
  let last := pip.lastBit pip.pipUsed ((pip.pipUsed - 1) / 8) ((pip.pipUsed - 1) % 8)
  if pipLast = firstPipPage then last - 1 else pipLast + last

def lastUsedPage (pipMaxKnown : Nat) : Option Nat × PageSpace × Nat :=
  let (nPages, file) := space.disk.file.maxAlloc
  let (lastPip, space) :=
    if pipMaxKnown = 0 ∧ device.onRawDevice = false then
      let pipLast := nPages / mgr.pagesPerPIP * mgr.pagesPerPIP
      let pipLast := if pipLast ≠ 0 then pipLast - 1 else firstPipPage
      (moveDown mgr device space (nPages + 1) pipLast, { space with disk := { space.disk with file := file } })
    else (moveUp mgr device space (space.pips.length + 1) pipMaxKnown, space)
  match lastPip with
  | .found pipLast pip => (some (lastUsedOn pipLast pip), space, pipLast)
  | .noPip => (some 0, space, pipMaxKnown)
  | .endless => (none, space, pipMaxKnown)

end

namespace PageInvPage
variable {mgr : PageManager} {pip : PageInvPage}

end PageInvPage

section
variable {mgr : PageManager} {device : Device} {space : PageSpace} {pips : List PageInvPage} {pip : PageInvPage}

/-- What the counting relies on: the marks are right, and each inventory page but the last is used up. -/
structure Chained (mgr : PageManager) (pips : List PageInvPage) : Prop where
  marked : ∀ pip ∈ pips, pip.Marked mgr
  covers : ∀ pip ∈ pips, pip.UsedCovers mgr
  linked : ∀ (k : Nat) (pip : PageInvPage), pips[k]? = some pip →
    (pip.pipBits (mgr.pagesPerPIP - 1) = false ↔ k + 1 < pips.length)

theorem Chained.full (h : Chained mgr pips) {k : Nat} (hpip : pips[k]? = some pip) (hk : k + 1 < pips.length) :
    pip.pipUsed = mgr.pagesPerPIP := by
  have hbounds := mgr.pagesPerPIP_bounds
  have hmem := mem_of_getElem? hpip
  have hlast := h.covers pip hmem (mgr.pagesPerPIP - 1) (by omega) ((h.linked k pip hpip).mpr hk)
  have := (h.marked pip hmem).used_le
  omega

theorem Chained.tail {rest : List PageInvPage} (h : Chained mgr (pip :: rest)) : Chained mgr rest where
  marked q hq := h.marked q (mem_cons_of_mem _ hq)
  covers q hq := h.covers q (mem_cons_of_mem _ hq)
  linked k q hq := by
    have := h.linked (k + 1) q hq
    rw [this, length_cons]
    omega

def placeOf (mgr : PageManager) (sequence : Nat) : Nat :=
  if sequence = 0 then firstPipPage else sequence * mgr.pagesPerPIP - 1

theorem sequenceAt_placeOf (sequence : Nat) : sequenceAt mgr (placeOf mgr sequence) = some sequence := by
  have hbounds := mgr.pagesPerPIP_bounds
  unfold sequenceAt placeOf
  by_cases hzero : sequence = 0
  · rw [if_pos hzero, if_pos rfl, hzero]
  · have hle := Nat.le_mul_of_pos_left mgr.pagesPerPIP (Nat.pos_of_ne_zero hzero)
    have hplace : sequence * mgr.pagesPerPIP - 1 + 1 = sequence * mgr.pagesPerPIP := by omega
    have hne : sequence * mgr.pagesPerPIP - 1 ≠ firstPipPage := by
      unfold firstPipPage
      omega
    rw [if_neg hzero, if_neg hne, hplace, Nat.mul_mod_left, if_pos rfl, Nat.mul_div_cancel _ (by omega)]

theorem fetch_placeOf (sequence : Nat) : fetch mgr device space (placeOf mgr sequence) =
    match space.pips[sequence]? with
    | some pip => (true, pip)
    | none => (false, device.other (placeOf mgr sequence)) := by
  unfold fetch
  rw [sequenceAt_placeOf, Option.bind_some]

theorem moveUp_spec (device : Device) (h : ∀ (k : Nat) (pip : PageInvPage), space.pips[k]? = some pip →
      (pip.pipBits (mgr.pagesPerPIP - 1) = false ↔ k + 1 < space.pips.length)) {k : Nat} (fuel : Nat)
    (hk : k < space.pips.length) (hfuel : space.pips.length < k + fuel) :
    ∃ j pip, moveUp mgr device space fuel (placeOf mgr k) = .found (placeOf mgr j) pip ∧ space.pips[j]? = some pip ∧
      (pip.pipUsed = mgr.pagesPerPIP → j + 1 = space.pips.length) := by
  have hbytes := mgr.bytesBitPIP_bounds
  have hppp := mgr.pagesPerPIP_eq
  induction fuel generalizing k with
  | zero => omega
  | succ fuel ih =>
    have hpip : space.pips[k]? = some space.pips[k] := getElem?_eq_getElem hk
    generalize space.pips[k] = pip at hpip
    have hlast : (mgr.bytesBitPIP - 1) * 8 + 7 = mgr.pagesPerPIP - 1 := by omega
    rw [moveUp, fetch_placeOf, hpip, hlast]
    by_cases hstop : pip.pipUsed ≠ mgr.pagesPerPIP ∨ pip.pipBits (mgr.pagesPerPIP - 1) = true
    · refine ⟨k, pip, if_pos hstop, hpip, fun hfull => ?_⟩
      have hfree := hstop.resolve_left (not_not.mpr hfull)
      have hend : ¬k + 1 < space.pips.length := fun hlt => by
        rw [(h k pip hpip).mpr hlt] at hfree
        cases hfree
      omega
    · have hnext : (if placeOf mgr k = firstPipPage then mgr.pagesPerPIP - 1 else placeOf mgr k + mgr.pagesPerPIP) =
          placeOf mgr (k + 1) := by
        unfold placeOf firstPipPage
        rw [if_neg (Nat.succ_ne_zero k)]
        by_cases hzero : k = 0
        · rw [if_pos hzero, if_pos rfl, hzero]
          omega
        · have hle := Nat.le_mul_of_pos_left mgr.pagesPerPIP (Nat.pos_of_ne_zero hzero)
          rw [if_neg hzero, if_neg (by omega), Nat.add_mul]
          omega
      simp only [not_or, Bool.not_eq_true] at hstop
      rw [if_neg (by simp [hstop.1, hstop.2]), hnext]
      exact ih ((h k pip hpip).mp hstop.2) (by omega)

theorem moveDown_spec (device : Device) (j fuel : Nat) (hpos : 0 < space.pips.length) (hj : space.pips.length ≤ j + 1)
    (hfuel : j < fuel) :
    ∃ pip, moveDown mgr device space fuel (placeOf mgr j) = .found (placeOf mgr (space.pips.length - 1)) pip ∧
      space.pips[space.pips.length - 1]? = some pip := by
  have hbounds := mgr.pagesPerPIP_bounds
  induction fuel generalizing j with
  | zero => omega
  | succ fuel ih =>
    rw [moveDown, fetch_placeOf]
    by_cases hlast : j + 1 = space.pips.length
    · have hpip : space.pips[j]? = some (space.pips[j]) := getElem?_eq_getElem (by omega)
      obtain rfl : j = space.pips.length - 1 := by omega
      refine ⟨_, ?_, hpip⟩
      rw [hpip]
    · have hnone : space.pips[j]? = none := getElem?_eq_none (by omega)
      have hzero : j ≠ 0 := by omega
      have hplace : placeOf mgr j = j * mgr.pagesPerPIP - 1 := if_neg hzero
      have hsub : (j - 1) * mgr.pagesPerPIP = j * mgr.pagesPerPIP - mgr.pagesPerPIP := by rw [Nat.sub_mul, Nat.one_mul]
      rw [hnone]
      by_cases hone : j = 1
      · subst hone
        have hne : placeOf mgr 1 ≠ firstPipPage := by
          unfold firstPipPage
          omega
        rw [if_neg (by omega), if_neg hne]
        exact ih 0 (by omega) (by omega)
      · have hle2 := Nat.le_mul_of_pos_left mgr.pagesPerPIP (show 0 < j - 1 by omega)
        have hprev : placeOf mgr j - mgr.pagesPerPIP = placeOf mgr (j - 1) := by
          rw [hplace, placeOf, if_neg (by omega)]
          omega
        rw [if_pos (by omega), hprev]
        exact ih (j - 1) (by omega) (by omega)

theorem moveDown_found (device : Device) {j : Nat} (fuel : Nat) (hj : j < space.pips.length) :
    moveDown mgr device space (fuel + 1) (placeOf mgr j) = .found (placeOf mgr j) space.pips[j] := by
  rw [moveDown, fetch_placeOf, getElem?_eq_getElem hj]

end

end Firebird.Pag
