import Firebird.Dpm.PageRuns
import Firebird.Pag.CallsKeep

/-! # Runs of allocations and releases -/

namespace Firebird.Pag

open Lib List

/-- A page space with the pages that were handed out and not yet released, and all that ever were. -/
structure InUse where
  space : PageSpace
  held : List Nat
  ever : List Nat

inductive Call
  | allocate (request : Request) | release (pgNums : List Nat)

def InUse.exec (mgr : PageManager) (s : InUse) : Call → InUse
  | .allocate request =>
    match pagAllocatePages mgr request s.space with
    | (space, .page first) =>
      { space := space
        held := range' first request.cntAlloc ++ s.held
        ever := range' first request.cntAlloc ++ s.ever }
    | (space, _) => { s with space := space }
  | .release pgNums =>
    { s with
      space := (pagReleasePages mgr pgNums s.space).1
      held := s.held.filter fun p => p ∉ pgNums }

def formatted (mgr : PageManager) (file : File) : InUse := { space := pagFormatPip mgr file, held := [], ever := [] }

/-- The calls that are made: up to an extent is allocated, and pages that are held are released. -/
def Allowed (s : InUse) : Call → Prop
  | .allocate request => request.cntAlloc ≤ pagesInExtent
  | .release pgNums => pgNums ≠ [] ∧ pgNums.Nodup ∧ ∀ page ∈ pgNums, page ∈ s.held

/-- A call that cannot go wrong: page numbers fit into 32 bits also on one more inventory page, and a
    single page at an extent boundary is found where the first ordinary free page is. -/
def Careful (mgr : PageManager) (s : InUse) (call : Call) : Prop :=
  Allowed s call ∧
    match call with
    | .allocate request => (s.space.pips.length + 1) * mgr.pagesPerPIP ≤ ulongSize ∧
        (request.cntAlloc = 1 → request.aligned = true → s.space.AlignedFirst mgr s.space.pipHighWater)
    | .release _ => True

/-- What a call does: pages handed out were not in use, are not the database's own, lie at an extent
    boundary if they should, and follow each other; pages released are not the database's own. -/
def SafeCall (mgr : PageManager) (s : InUse) : Call → Prop
  | .allocate request =>
    match (pagAllocatePages mgr request s.space).2 with
    | .page first => (∀ page ∈ range' first request.cntAlloc, page ∉ s.held ∧ ¬IsInventory mgr page) ∧
        (request.aligned = true → first % pagesInExtent = 0)
    | .noPage => request.cntAlloc = 0
    | .raised => True
    | .badPage => False
    | .endless => False
  | .release pgNums => (pagReleasePages mgr pgNums s.space).2 = true ∧ ∀ page ∈ pgNums, ¬IsInventory mgr page

/-- The marks of the inventory pages and the hints of the page space. -/
structure Consistent (mgr : PageManager) (s : InUse) : Prop where
  /-- Every page below `pip_min` is allocated. -/
  min : ∀ (k : Nat) (pip : PageInvPage), s.space.pips[k]? = some pip →
    ∀ i, i < mgr.pagesPerPIP → i < pip.pipMin → pip.pipBits i = false
  /-- No free extent lies below `pip_extent`. -/
  extent : ∀ (k : Nat) (pip : PageInvPage), s.space.pips[k]? = some pip →
    ∀ byte, byte < mgr.bytesBitPIP → byte * 8 < pip.pipExtent → pip.byteIsFull byte = false
  /-- Every page allocated, now or ever, lies below `pip_used`. -/
  used : ∀ (k : Nat) (pip : PageInvPage), s.space.pips[k]? = some pip → ∀ i, i < mgr.pagesPerPIP →
    (pip.pipBits i = false ∨ i + k * mgr.pagesPerPIP ∈ s.ever) → i < pip.pipUsed
  /-- No inventory page with a free page is skipped. -/
  highWater : ∀ (k : Nat) (pip : PageInvPage), s.space.pips[k]? = some pip → k < s.space.pipHighWater →
    ∀ i, i < mgr.pagesPerPIP → pip.pipBits i = false
  /-- No inventory page with a free extent is skipped. -/
  withExtent : ∀ (k : Nat) (pip : PageInvPage), s.space.pips[k]? = some pip → k < s.space.pipWithExtent →
    ∀ byte, byte < mgr.bytesBitPIP → pip.byteIsFull byte = false

def InUse.Inv (mgr : PageManager) (s : InUse) : Prop := s.space.Inv mgr s.held s.ever

variable {mgr : PageManager} {request : Request} {space : PageSpace} {held ever : List Nat}
  {s t : InUse} {file : File}

theorem marked_formatted : ∀ pip ∈ (pagFormatPip mgr file).pips, pip.Marked mgr := by
  have hbounds := mgr.pagesPerPIP_bounds
  intro pip hpip
  obtain rfl := mem_singleton.mp hpip
  have hused : (if mgr.temporary = true then firstPipPage else firstScnPage) + 1 ≤ 3 := by
    unfold firstPipPage firstScnPage
    split <;> omega
  exact {
    min := fun i hi hfree => by
      cases htemp : mgr.temporary <;>
        simp [htemp, firstPipPage, firstScnPage] at hfree ⊢ <;> omega
    extent := fun _ _ _ => Nat.zero_le _
    extent_end := fun hend => by
      dsimp only at hend
      omega
    min_le := by dsimp only; omega
    extent_le := Nat.zero_le _
    used_le := by dsimp only; omega }

theorem inv_formatted (mgr : PageManager) (file : File) : (formatted mgr file).Inv mgr := by
  have hbounds := mgr.pagesPerPIP_bounds
  have honly : ∀ (k : Nat) (pip : PageInvPage), (pagFormatPip mgr file).pips[k]? = some pip →
      k = 0 ∧ pip ∈ (pagFormatPip mgr file).pips := fun k pip hpip => by
    have hk : k < 1 := (List.getElem?_eq_some_iff.mp hpip).1
    exact ⟨by omega, mem_of_getElem? hpip⟩
  exact {
    marked := fun k pip hpip => marked_formatted pip (honly k pip hpip).2
    linked := fun k pip hpip => by
      obtain ⟨rfl, hmem⟩ := honly k pip hpip
      obtain rfl := mem_singleton.mp hmem
      dsimp only [formatted, pagFormatPip, length_singleton]
      simp only [firstPipPage, firstScnPage, Bool.not_eq_false', Bool.or_eq_true, beq_iff_eq, Bool.and_eq_true]
      omega
    fixed := fun pip hpip => by
      obtain rfl := mem_singleton.mp (honly 0 pip hpip).2
      refine ⟨rfl, rfl, fun htemp => ?_⟩
      rw [htemp]
      rfl
    highWater_lt := Nat.zero_lt_one
    withExtent_lt := Nat.zero_lt_one
    highWater := fun _ _ _ hk => absurd hk (Nat.not_lt_zero _)
    withExtent := fun _ _ _ hk => absurd hk (Nat.not_lt_zero _)
    held := fun page hpage => absurd hpage not_mem_nil
    used := fun _ k pip hpip i hi hbusy => by
      obtain rfl := mem_singleton.mp (honly k pip hpip).2
      cases htemp : mgr.temporary <;> simp [htemp, firstPipPage, firstScnPage] at hbusy ⊢ <;> omega
    ever := fun page hpage => absurd hpage not_mem_nil }

theorem PageSpace.Inv.hold {first : Nat} (hinv : space.Inv mgr held ever) (h : Allocated mgr request held first space) :
    space.Inv mgr (range' first request.cntAlloc ++ held) (range' first request.cntAlloc ++ ever) := by
  have htaken : ∀ page ∈ range' first request.cntAlloc, ∃ i, i < request.cntAlloc ∧ first + i = page :=
    fun page hpage => by
      obtain ⟨h1, h2⟩ := mem_range'_1.mp hpage
      exact ⟨page - first, by omega, by omega⟩
  exact { hinv with
    held := fun page hpage => by
      rcases mem_append.mp hpage with hpage | hpage
      · obtain ⟨i, hi, rfl⟩ := htaken page hpage
        obtain ⟨pip, hpip, hbit, -⟩ := h.taken i hi
        exact ⟨h.ordinary i hi, pip, hpip, hbit⟩
      · exact hinv.held page hpage
    ever := fun page hpage => by
      rcases mem_append.mp hpage with hpage | hpage
      · obtain ⟨i, hi, rfl⟩ := htaken page hpage
        obtain ⟨pip, hpip, -, hused⟩ := h.taken i hi
        refine ⟨(List.getElem?_eq_some_iff.mp hpip).1, fun hcovered q hq => ?_⟩
        rw [hpip] at hq
        cases hq
        exact hused hcovered
      · exact hinv.ever page hpage }

theorem InUse.Inv.allocates (hinv : s.Inv mgr) (hcareful : Careful mgr s (.allocate request)) {answer : Answer}
    (hcall : pagAllocatePages mgr request s.space = (space, answer)) :
    request.cntAlloc = 0 ∧ answer = .noPage ∧ space = s.space ∨
      space.Inv mgr s.held s.ever ∧ s.space.pips.length ≤ space.pips.length ∧
        (answer = .raised ∧ OnlyTakes mgr [] s.space space ∨ ∃ first, answer = .page first ∧
          Allocated mgr request s.held first space ∧ OnlyTakes mgr (range' first request.cntAlloc) s.space space) := by
  obtain ⟨hcnt, hroom, hfirst⟩ := hcareful
  unfold pagAllocatePages at hcall
  split at hcall
  case isTrue hzero =>
    cases hcall
    exact .inl ⟨hzero, rfl, rfl⟩
  case isFalse hpos =>
    exact .inr (allocateFrom_spec (Nat.pos_of_ne_zero hpos) hcnt hroom hinv (by
        split
        · exact PageSpace.Inv.withExtent_lt hinv
        · exact PageSpace.Inv.highWater_lt hinv) (by
        have := PageSpace.Inv.withExtent_lt hinv
        have := PageSpace.Inv.highWater_lt hinv
        split <;> omega) (Nat.le_refl _) (by omega) (fun hle => by
        have := PageSpace.Inv.withExtent_lt hinv
        have := PageSpace.Inv.highWater_lt hinv
        split at hle <;> omega) (fun hlt => absurd hlt (Nat.lt_irrefl _)) (fun hone haligned => by
        rw [if_neg (by unfold pagesInExtent; omega)]
        exact hfirst hone haligned) hcall)

theorem InUse.Inv.allocate (hinv : s.Inv mgr) (hcareful : Careful mgr s (.allocate request)) :
    SafeCall mgr s (.allocate request) ∧ (s.exec mgr (.allocate request)).Inv mgr := by
  cases hcall : pagAllocatePages mgr request s.space with
  | mk space answer =>
    simp only [SafeCall, InUse.exec, hcall]
    rcases hinv.allocates hcareful hcall with ⟨hzero, rfl, rfl⟩ | ⟨hkept, -, ⟨rfl, -⟩ | ⟨first, rfl, hallocated, -⟩⟩
    · exact ⟨hzero, hinv⟩
    · exact ⟨trivial, hkept⟩
    · refine ⟨⟨fun page hpage => ?_, hallocated.aligned⟩, hkept.hold hallocated⟩
      obtain ⟨h1, h2⟩ := mem_range'_1.mp hpage
      have heq : first + (page - first) = page := by omega
      exact ⟨heq ▸ hallocated.fresh (page - first) (by omega), heq ▸ hallocated.ordinary (page - first) (by omega)⟩

theorem InUse.Inv.release {pgNums : List Nat} (hinv : s.Inv mgr) (hallowed : Allowed s (.release pgNums)) :
    SafeCall mgr s (.release pgNums) ∧ (s.exec mgr (.release pgNums)).Inv mgr := by
  obtain ⟨-, hnodup, hheld⟩ := hallowed
  cases hcall : pagReleasePages mgr pgNums s.space with
  | mk space ok =>
    obtain ⟨rfl, hkept, -⟩ := releaseFrom_spec hheld hnodup hinv (fun k hk => by cases hk) hcall
    simp only [SafeCall, InUse.exec, hcall]
    exact ⟨⟨trivial, fun page hpage => (PageSpace.Inv.held hinv page (hheld page hpage)).1⟩, hkept⟩

theorem InUse.Inv.step (hinv : s.Inv mgr) {call : Call} (hcareful : Careful mgr s call) :
    SafeCall mgr s call ∧ (s.exec mgr call).Inv mgr := by
  cases call with
  | allocate request => exact hinv.allocate hcareful
  | release pgNums => exact hinv.release hcareful.1

theorem InUse.Inv.does (hinv : s.Inv mgr) {call : Call} (hstep : Does (Careful mgr) (InUse.exec mgr) s call t) :
    t.Inv mgr := by
  obtain ⟨hcareful, rfl⟩ := hstep
  exact (hinv.step hcareful).2

theorem InUse.Inv.consistent (hinv : s.Inv mgr) (hcovered : s.space.disk.Covered mgr) : Consistent mgr s where
  min k pip hpip i hi hlt := by
    by_contra hfree
    have := (PageSpace.Inv.marked hinv k pip hpip).min i hi (Bool.not_eq_false _ ▸ hfree)
    omega
  extent k pip hpip byte hbyte hlt := by
    by_contra hfull
    have := (PageSpace.Inv.marked hinv k pip hpip).extent byte hbyte (Bool.not_eq_false _ ▸ hfull)
    omega
  used k pip hpip i hi hcase := by
    rcases hcase with hbusy | hever
    · exact PageSpace.Inv.used hinv hcovered k pip hpip i hi hbusy
    · have hused := (PageSpace.Inv.ever hinv _ hever).2 hcovered
      rw [mgr.page_div hi, mgr.page_mod hi] at hused
      exact hused pip hpip
  highWater := PageSpace.Inv.highWater hinv
  withExtent := PageSpace.Inv.withExtent hinv

/-- In a page space that was formatted and then used by careful calls, each call is safe; if all the
    requests for disk space were answered with the missing pages, the marks and hints are right after it. -/
theorem safe_of_careful_calls {calls : List Call} {call : Call}
    (hrun : Run (Does (Careful mgr) (InUse.exec mgr)) (formatted mgr file) calls s)
    (hcareful : Careful mgr s call) (hcovered : (s.exec mgr call).space.disk.Covered mgr) :
    SafeCall mgr s call ∧ Consistent mgr (s.exec mgr call) := by
  have hinv : s.Inv mgr := hrun.invariant (fun _ _ _ hi hstep => hi.does hstep) (inv_formatted mgr file)
  obtain ⟨hsafe, hkept⟩ := hinv.step hcareful
  exact ⟨hsafe, hkept.consistent hcovered⟩

def smallMgr : PageManager where
  dbb := Dpm.smallDbb
  temporary := false
  growthIncrement := 134217728

def extentRequest : Request := { cntAlloc := 8, aligned := true, stalled := false, pastEnd := false }

/-- An extent is allocated in a file of three pages, and then a page of it released. -/
theorem safe_of_careful_calls_extent :
    SafeCall smallMgr ((formatted smallMgr ⟨3, false, 0, []⟩).exec smallMgr (.allocate extentRequest)) (.release [9]) ∧
    Consistent smallMgr (((formatted smallMgr ⟨3, false, 0, []⟩).exec smallMgr (.allocate extentRequest)).exec smallMgr
      (.release [9])) := by
  have hallocate : Careful smallMgr (formatted smallMgr ⟨3, false, 0, []⟩) (.allocate extentRequest) :=
    ⟨(by decide : 8 ≤ 8), by decide, fun hone => absurd hone (by decide)⟩
  have hheld : ((formatted smallMgr ⟨3, false, 0, []⟩).exec smallMgr (.allocate extentRequest)).held =
      [8, 9, 10, 11, 12, 13, 14, 15] := by decide +kernel
  have hrelease : Careful smallMgr ((formatted smallMgr ⟨3, false, 0, []⟩).exec smallMgr (.allocate extentRequest))
      (.release [9]) := by
    refine ⟨⟨by decide, by decide, ?_⟩, trivial⟩
    rw [hheld]
    decide
  refine safe_of_careful_calls (.single ⟨hallocate, rfl⟩) hrelease ?_
  decide +kernel

/-- The file already has 19 pages, three more than will be asked for: `pip_used` becomes 6, though the
    pages 8 to 15 were allocated. -/
theorem sparePages_not_consistent : ¬ ∀ (mgr : PageManager) (file : File) (calls : List Call) (s : InUse) (call : Call),
    Run (Does Allowed (InUse.exec mgr)) (formatted mgr file) calls s → Allowed s call →
      SafeCall mgr s call ∧ Consistent mgr (s.exec mgr call) := by
  intro h
  have hused : ((formatted smallMgr ⟨19, false, 0, []⟩).exec smallMgr (.allocate extentRequest)).space.pips[0]?.map
      (fun pip => decide (15 < pip.pipUsed)) = some false := by decide +kernel
  have hever : 15 ∈ ((formatted smallMgr ⟨19, false, 0, []⟩).exec smallMgr (.allocate extentRequest)).ever := by
    decide +kernel
  obtain ⟨pip, hpip, hlt⟩ := Option.map_eq_some_iff.mp hused
  have hconsistent := (h smallMgr ⟨19, false, 0, []⟩ [] _ (.allocate extentRequest) (.nil _) (by decide : 8 ≤ 8)).2
  have hbounds := smallMgr.pagesPerPIP_bounds
  refine of_decide_eq_false hlt (hconsistent.used 0 pip hpip 15 (by omega) (.inr ?_))
  exact hever

end Firebird.Pag
