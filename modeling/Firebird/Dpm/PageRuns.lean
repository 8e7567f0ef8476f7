import Firebird.Lib.Run
import Firebird.Dpm.ChainKeeps

/-! # Runs of operations on a data page

From an empty page on, every sequence of operations keeps the layout of the page and the records it
does not name, and no space computation leaves its range. -/

namespace Firebird.Dpm

open Lib List

variable {dbb : Dbb} {start page page' : DataPage} {line : Nat} {content : Bytes}

inductive PageOp
  | findSpace (type : RecordStorageType) (content : Bytes)
  | update (rpb : UpdateParam)
  | fragmentFill (line : Nat) (content : Bytes)
  | chain (line : Nat) (record : NewRecord)
  | backout (line bLine : Nat)
  | delete (line : Nat)
  | compress

def execNamed (dbb : Dbb) (page : DataPage) : PageOp → Except LayoutError (DataPage × List Nat)
  | .findSpace type content => (page.findSpace dbb type content).map fun r => (r.1, r.2.toList)
  | .update rpb => (page.dpmUpdate dbb rpb).map fun page => (page, [rpb.line])
  | .fragmentFill line content => (page.fragmentFill line content).map fun page => (page, [line])
  | .chain line record => (page.dpmChain dbb line record).map fun r => (r.1, line :: r.2.toList)
  | .backout line bLine => (page.dpmBackout line bLine).map fun page => (page, [line, bLine])
  | .delete line => (page.dpmDelete dbb line).map fun page => (page, [line])
  | .compress => (Dpm.compress dbb page).map fun r => (r.1, [])

/-- What the callers see to: a record has room for the header of a fragment and fits on an empty page;
    a line that is named is in use; the claimed space of a fragment is filled to its length. -/
def PageOp.Allowed (dbb : Dbb) (page : DataPage) : PageOp → Prop
  | .findSpace _ content => rhdfSize ≤ content.length ∧ content.length ≤ dbb.pageSize - sizeofDataPage
  | .update rpb => page.record rpb.line ≠ none
  | .fragmentFill line content => (page.record line).map length = some content.length
  | .chain line _ => page.record line ≠ none
  | .backout line bLine => page.record line ≠ none ∧ page.record bLine ≠ none ∧ line ≠ bLine
  | .delete line => page.record line ≠ none
  | .compress => True

instance PageOp.decidableAllowed (dbb : Dbb) (page : DataPage) : ∀ op : PageOp, Decidable (op.Allowed dbb page)
  | .findSpace .. => inferInstanceAs (Decidable (_ ∧ _))
  | .update .. | .chain .. | .delete .. => inferInstanceAs (Decidable (_ ≠ _))
  | .fragmentFill .. => inferInstanceAs (Decidable (_ = _))
  | .backout .. => inferInstanceAs (Decidable (_ ∧ _))
  | .compress => isTrue trivial

def Step (dbb : Dbb) : DataPage → PageOp → DataPage → Prop :=
  Steps (PageOp.Allowed dbb) fun page op => (execNamed dbb page op).map (·.1)

theorem exists_line (h : page.record line ≠ none) : ∃ index, page.dpgRpt[line]? = some index ∧ index.dpgOffset ≠ 0 := by
  by_contra hnot
  exact h (record_eq_none fun r hr => by_contra fun hused => hnot ⟨r, hr, hused⟩)

theorem layout_empty (h : page.dpgRpt = []) : Layout dbb page := by
  have hbounds := dbb.bounds
  have hcount : page.dpgCount = 0 := by rw [DataPage.dpgCount, h]; rfl
  refine layout_of_lengths ⟨?_, ?_, ?_, ?_⟩ ?_ ?_
  · rw [h]
    exact fun i r hr => absurd hr (by simp)
  · rw [h]
    exact fun i r hr => absurd hr (by simp)
  · rw [h]
    exact fun i j r s hr => absurd hr (by simp)
  · rw [highWater_eq, h, inUse_nil]
    omega
  · rw [h]
    exact fun i r hr => absurd hr (by simp)
  · rw [h]
    exact fun r hr => absurd hr (by simp)

def Keeps (dbb : Dbb) (page : DataPage) (op : PageOp) : Prop :=
  ∃ page' named, execNamed dbb page op = .ok (page', named) ∧ Layout dbb page' ∧
    ∀ line, line ∉ named → page'.record line = page.record line

theorem Layout.keeps (h : Layout dbb page) {op : PageOp} (hallowed : op.Allowed dbb page) : Keeps dbb page op := by
  cases op with
  | findSpace type content =>
    obtain ⟨page', slot, hfind, hlayout, hput⟩ := findSpace_spec type h hallowed.1 hallowed.2
    refine ⟨page', slot.toList, by rw [execNamed, hfind]; rfl, hlayout, fun line hline => ?_⟩
    cases slot with
    | none => exact hput line
    | some slot => exact hput.2.others line fun heq => hline (heq ▸ mem_singleton_self _)
  | update rpb =>
    obtain ⟨index, hr, hused⟩ := exists_line hallowed
    obtain ⟨page', hupdate, hlayout, hothers, -⟩ := dpmUpdate_spec h hr hused
    exact ⟨page', _, by rw [execNamed, hupdate]; rfl, hlayout, fun line hline => hothers line fun heq =>
      hline (mem_singleton.mpr heq)⟩
  | fragmentFill line content =>
    have hsome : page.record line ≠ none := fun hnone => by
      rw [PageOp.Allowed, hnone] at hallowed
      cases hallowed
    obtain ⟨index, hr, hused⟩ := exists_line hsome
    have hlen : content.length = index.dpgLength := by
      rw [PageOp.Allowed, record_eq_some hr hused, Option.map_some, Option.some.injEq, length_map,
        length_range] at hallowed
      exact hallowed.symm
    obtain ⟨page', hfill, hlayout, hput⟩ := fragmentFill_spec h hr hused hlen
    exact ⟨page', _, by rw [execNamed, hfill]; rfl, hlayout, fun i hi => hput.others i fun heq =>
      hi (mem_singleton.mpr heq)⟩
  | chain line record =>
    obtain ⟨index, hr, hused⟩ := exists_line hallowed
    obtain ⟨page', slot, hchain, hlayout, hput⟩ := dpmChain_spec record h hr hused
    refine ⟨page', _, by rw [execNamed, hchain]; rfl, hlayout, fun i hi => ?_⟩
    cases slot with
    | none => rw [hput]
    | some slot =>
      simp only [Option.toList_some, mem_cons, not_mem_nil, or_false, not_or] at hi
      exact hput.others i hi.1 hi.2
  | backout line bLine =>
    obtain ⟨hline, hbLine, hne⟩ := hallowed
    obtain ⟨r, hr, -⟩ := exists_line hline
    obtain ⟨s, hs, hsused⟩ := exists_line hbLine
    obtain ⟨page', hbackout, hlayout, hothers⟩ := dpmBackout_spec h hr hs hne hsused
    refine ⟨page', _, by rw [execNamed, hbackout]; rfl, hlayout, fun i hi => ?_⟩
    simp only [mem_cons, not_mem_nil, or_false, not_or] at hi
    exact hothers i hi.1 hi.2
  | delete line =>
    obtain ⟨r, hr, -⟩ := exists_line hallowed
    obtain ⟨page', hdelete, hlayout, -, hothers⟩ := dpmDelete_spec h hr
    exact ⟨page', _, by rw [execNamed, hdelete]; rfl, hlayout, fun i hi => hothers i fun heq =>
      hi (mem_singleton.mpr heq)⟩
  | compress =>
    obtain ⟨page', space, hcompress, hmoved, -, -⟩ := compress_spec h.toPacked
    exact ⟨page', [], by rw [execNamed, hcompress]; rfl, hmoved.layout h, fun i _ => hmoved.record i⟩

theorem Layout.step (h : Layout dbb page) {op : PageOp} (hstep : Step dbb page op page') : Layout dbb page' := by
  obtain ⟨page₁, named, hexec, hlayout, -⟩ := h.keeps hstep.1
  have hok := hstep.2
  dsimp only at hok
  rw [hexec] at hok
  exact Except.ok.inj hok ▸ hlayout

/-- After any operations on a page that was empty, its layout is correct, and whatever is done next
    succeeds, keeps the layout and leaves the records it does not name as they are. -/
theorem layout_of_run {ops : List PageOp} (hempty : start.dpgRpt = []) (hrun : Run (Step dbb) start ops page) :
    Layout dbb page ∧ ∀ op : PageOp, op.Allowed dbb page → Keeps dbb page op := by
  have h : Layout dbb page := hrun.invariant (fun _ _ _ hi hs => hi.step hs) (layout_empty hempty)
  exact ⟨h, fun op hop => h.keeps hop⟩

def smallDbb : Dbb where
  pageSize := 8192
  noReserve := false
  pageSize_min := by decide
  pageSize_max := by decide
  pageSize_aligned := by decide

def newPage : DataPage := { dpgRpt := [], bytes := fun _ => 0, full := false, secondary := false }

/-- Two records are stored, the second one is chained and its old version deleted. -/
def someOps : List PageOp :=
  [.findSpace .primary (replicate 30 1), .findSpace .primary (replicate 22 2),
    .chain 1 { header := replicate 13 3, data := [4] }, .delete 2]

theorem layout_of_run_someOps : ∃ page, Run (Step smallDbb) newPage someOps page ∧
    Layout smallDbb page ∧ ∀ op : PageOp, op.Allowed smallDbb page → Keeps smallDbb page op := by
  have hrun : ∃ page, Run (Step smallDbb) newPage someOps page := by
    refine ⟨_, .cons ⟨by decide, rfl⟩
      (.cons ⟨by decide, rfl⟩ (.cons ⟨by decide, rfl⟩ (.cons ⟨by decide, rfl⟩ (.nil _))))⟩
  obtain ⟨page, hrun⟩ := hrun
  exact ⟨page, hrun, layout_of_run rfl hrun⟩

end Firebird.Dpm
