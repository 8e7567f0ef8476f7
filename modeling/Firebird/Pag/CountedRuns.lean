import Firebird.Pag.PageCount

/-! # Runs with counting

Between the calls that allocate and release pages, `PageSpace::lastUsedPage` is called, which remembers the inventory
page where it stopped. -/

namespace Firebird.Pag

open Lib List

structure Counted where
  inUse : InUse
  pipMaxKnown : Nat

inductive Use
  | call (call : Call) | lastUsedPage

def Counted.exec (mgr : PageManager) (device : Device) (s : Counted) : Use → Counted
  | .call call => { s with inUse := s.inUse.exec mgr call }
  | .lastUsedPage =>
    let (_, space, pipMaxKnown) := lastUsedPage mgr device s.inUse.space s.pipMaxKnown
    { inUse := { s.inUse with space := space }, pipMaxKnown := pipMaxKnown }

def uncounted (mgr : PageManager) (file : File) : Counted := { inUse := formatted mgr file, pipMaxKnown := 0 }

/-- The search for the last page begins at an inventory page, so not on a raw device. -/
def CarefulUse (mgr : PageManager) (device : Device) (s : Counted) : Use → Prop
  | .call call => Careful mgr s.inUse call
  | .lastUsedPage => device.onRawDevice = false

/-- The last inventory page is found: it was found before, or it lies in the file, which is not a raw device. -/
def Findable (mgr : PageManager) (device : Device) (s : Counted) : Prop :=
  device.onRawDevice = false ∧
    (s.pipMaxKnown ≠ 0 ∨ (s.inUse.space.pips.length - 1) * mgr.pagesPerPIP ≤ s.inUse.space.disk.file.pages)

/-- What holds between uses: each page in use is held or one of the database's own, and the inventory
    page that is known exists. -/
structure Counted.Inv (mgr : PageManager) (s : Counted) : Prop where
  inUse : s.inUse.Inv mgr
  taken : ∀ (k : Nat) (pip : PageInvPage), s.inUse.space.pips[k]? = some pip → ∀ i, i < mgr.pagesPerPIP →
    pip.pipBits i = false → i + k * mgr.pagesPerPIP ∈ s.inUse.held ∨ IsInventory mgr (i + k * mgr.pagesPerPIP)
  known : s.pipMaxKnown = 0 ∨ ∃ k, k < s.inUse.space.pips.length ∧ s.pipMaxKnown = placeOf mgr k

variable {mgr : PageManager} {device : Device} {start space : PageSpace} {held ever : List Nat}
  {s t : Counted} {file : File}

/-- After a call, a page in use was in use before and is still held if it was, or it is held now or one of
    the database's own. -/
theorem InUse.Inv.exec_taken {s : InUse} (hinv : s.Inv mgr) {call : Call} (hcareful : Careful mgr s call) :
    s.space.pips.length ≤ (s.exec mgr call).space.pips.length ∧
      ∀ (k : Nat) (pip : PageInvPage), (s.exec mgr call).space.pips[k]? = some pip → ∀ i, i < mgr.pagesPerPIP →
        pip.pipBits i = false →
        (∃ old, s.space.pips[k]? = some old ∧ old.pipBits i = false ∧
          (i + k * mgr.pagesPerPIP ∈ s.held → i + k * mgr.pagesPerPIP ∈ (s.exec mgr call).held)) ∨
        i + k * mgr.pagesPerPIP ∈ (s.exec mgr call).held ∨ IsInventory mgr (i + k * mgr.pagesPerPIP) := by
  cases call with
  | allocate request =>
    cases hcall : pagAllocatePages mgr request s.space with
    | mk space answer =>
      simp only [InUse.exec, hcall]
      rcases hinv.allocates hcareful hcall with ⟨-, rfl, rfl⟩ | ⟨-, hlen, ⟨rfl, htakes⟩ | ⟨first, rfl, -, htakes⟩⟩
      · exact ⟨Nat.le_refl _, fun k pip hpip i _ hbusy => .inl ⟨pip, hpip, hbusy, id⟩⟩
      · refine ⟨hlen, fun k pip hpip i hi hbusy => ?_⟩
        rcases htakes k pip hpip i hi hbusy with ⟨old, hold, hbit⟩ | hnil | hown
        · exact .inl ⟨old, hold, hbit, id⟩
        · exact absurd hnil not_mem_nil
        · exact .inr (.inr hown)
      · refine ⟨hlen, fun k pip hpip i hi hbusy => ?_⟩
        rcases htakes k pip hpip i hi hbusy with ⟨old, hold, hbit⟩ | htaken | hown
        · exact .inl ⟨old, hold, hbit, fun hheld => mem_append_right _ hheld⟩
        · exact .inr (.inl (mem_append_left _ htaken))
        · exact .inr (.inr hown)
  | release pgNums =>
    obtain ⟨⟨-, hnodup, hheld⟩, -⟩ := hcareful
    cases hcall : pagReleasePages mgr pgNums s.space with
    | mk space ok =>
      obtain ⟨-, -, hleaves⟩ := releaseFrom_spec hheld hnodup hinv (fun k hk => by cases hk) hcall
      simp only [InUse.exec, hcall]
      refine ⟨Nat.le_of_eq hleaves.length.symm, fun k pip hpip i hi hbusy => ?_⟩
      obtain ⟨⟨old, hold, hbit⟩, hkept⟩ := hleaves.bits k pip hpip i hi hbusy
      exact .inl ⟨old, hold, hbit, fun hmem => mem_filter.mpr ⟨hmem, decide_eq_true hkept⟩⟩

theorem Counted.Inv.call (hinv : s.Inv mgr) {call : Call} (hcareful : Careful mgr s.inUse call) :
    (s.exec mgr device (.call call)).Inv mgr := by
  obtain ⟨hlen, htaken⟩ := hinv.inUse.exec_taken hcareful
  exact {
    inUse := (hinv.inUse.step hcareful).2
    taken := fun k pip hpip i hi hbusy => by
      rcases htaken k pip hpip i hi hbusy with ⟨old, hold, hbit, hkept⟩ | hnew
      · rcases hinv.taken k old hold i hi hbit with hheld | hown
        · exact .inl (hkept hheld)
        · exact .inr hown
      · exact hnew
    known := by
      rcases hinv.known with hzero | ⟨k, hk, hplace⟩
      · exact .inl hzero
      · exact .inr ⟨k, Nat.lt_of_lt_of_le hk hlen, hplace⟩ }

theorem PageSpace.Inv.of_file (hinv : start.Inv mgr held ever) (file : File) :
    { start with disk := { start.disk with file := file } }.Inv mgr held ever :=
  { hinv with }

/-- The search ends at an inventory page, and at the last one if that was found before or lies in the file. -/
theorem lastUsedPage_spec (hinv : s.Inv mgr) (hraw : device.onRawDevice = false) :
    ∃ k pip file, s.inUse.space.pips[k]? = some pip ∧
      lastUsedPage mgr device s.inUse.space s.pipMaxKnown = (some (lastUsedOn (placeOf mgr k) pip),
        { s.inUse.space with disk := { s.inUse.space.disk with file := file } }, placeOf mgr k) ∧
      (Findable mgr device s → pip.pipUsed = mgr.pagesPerPIP → k + 1 = s.inUse.space.pips.length) := by
  have hbounds := mgr.pagesPerPIP_bounds
  have hpos : 0 < s.inUse.space.pips.length :=
    Nat.lt_of_le_of_lt (Nat.zero_le _) (PageSpace.Inv.highWater_lt hinv.inUse)
  by_cases hzero : s.pipMaxKnown = 0
  · have hplace : (if s.inUse.space.disk.file.pages / mgr.pagesPerPIP * mgr.pagesPerPIP ≠ 0 then
        s.inUse.space.disk.file.pages / mgr.pagesPerPIP * mgr.pagesPerPIP - 1 else firstPipPage) =
        placeOf mgr (s.inUse.space.disk.file.pages / mgr.pagesPerPIP) := by
      unfold placeOf
      by_cases hnone : s.inUse.space.disk.file.pages / mgr.pagesPerPIP = 0
      · rw [hnone, Nat.zero_mul, if_neg (not_not.mpr rfl), if_pos rfl]
      · rw [if_neg hnone, if_pos (Nat.mul_ne_zero hnone (by omega))]
    unfold lastUsedPage File.maxAlloc
    dsimp only
    rw [if_pos ⟨hzero, hraw⟩, hplace]
    by_cases hin : s.inUse.space.disk.file.pages / mgr.pagesPerPIP < s.inUse.space.pips.length
    · rw [moveDown_found device _ hin]
      refine ⟨_, _, s.inUse.space.disk.file.maxAlloc.2, getElem?_eq_getElem hin, rfl, fun hfind _ => ?_⟩
      have hle := hfind.2.resolve_left (not_not.mpr hzero)
      have hstart := (Nat.le_div_iff_mul_le (show 0 < mgr.pagesPerPIP by omega)).mpr hle
      omega
    · obtain ⟨pip, hfound, hpip⟩ := moveDown_spec device (s.inUse.space.disk.file.pages / mgr.pagesPerPIP)
        (s.inUse.space.disk.file.pages + 1) hpos (by omega) (Nat.lt_succ_of_le (Nat.div_le_self ..))
      rw [hfound]
      exact ⟨_, pip, s.inUse.space.disk.file.maxAlloc.2, hpip, rfl, fun _ _ => by omega⟩
  · obtain ⟨k, hk, hplace⟩ := hinv.known.resolve_left hzero
    obtain ⟨j, pip, hfound, hpip, hlast⟩ := moveUp_spec device (PageSpace.Inv.linked hinv.inUse)
      (s.inUse.space.pips.length + 1) hk (by omega)
    refine ⟨j, pip, s.inUse.space.disk.file, hpip, ?_, fun _ => hlast⟩
    unfold lastUsedPage File.maxAlloc
    dsimp only
    rw [if_neg (fun hboth => hzero hboth.1), hplace, hfound]

theorem Counted.Inv.lastUsedPage (hinv : s.Inv mgr) (hraw : device.onRawDevice = false) :
    (s.exec mgr device .lastUsedPage).Inv mgr := by
  obtain ⟨k, pip, file, hpip, heq, -⟩ := lastUsedPage_spec hinv hraw
  unfold Counted.exec
  rw [heq]
  exact {
    inUse := PageSpace.Inv.of_file hinv.inUse file
    taken := hinv.taken
    known := .inr ⟨k, (List.getElem?_eq_some_iff.mp hpip).1, rfl⟩ }

theorem Counted.Inv.does (hinv : s.Inv mgr) {use : Use}
    (hstep : Does (CarefulUse mgr device) (Counted.exec mgr device) s use t) : t.Inv mgr := by
  obtain ⟨hcareful, rfl⟩ := hstep
  cases use with
  | call call => exact hinv.call hcareful
  | lastUsedPage => exact hinv.lastUsedPage hcareful

theorem Counted.Inv.chained (hinv : s.Inv mgr) (hcovered : s.inUse.space.disk.Covered mgr) :
    Chained mgr s.inUse.space.pips where
  marked pip hmem := by
    obtain ⟨k, hk⟩ := mem_iff_getElem?.mp hmem
    exact PageSpace.Inv.marked hinv.inUse k pip hk
  covers pip hmem := by
    obtain ⟨k, hk⟩ := mem_iff_getElem?.mp hmem
    exact PageSpace.Inv.used hinv.inUse hcovered k pip hk
  linked := PageSpace.Inv.linked hinv.inUse

section
variable (hinv : s.Inv mgr) (hcovered : s.inUse.space.disk.Covered mgr)
include hinv hcovered

end

end Firebird.Pag
