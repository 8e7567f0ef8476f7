import Firebird.Pag.SearchKeeps

/-! # The inventory pages after a search

The marks of an inventory page are right again when its search is over, whether pages were found on it
or not; with that, what holds of the page space as a whole is kept. -/

namespace Firebird.Pag

open List

/-- The page is not for anybody's use: the header page, an inventory page or a page of page numbers. -/
def IsInventory (mgr : PageManager) (page : Nat) : Prop :=
  page = 0 ∨ page = firstPipPage ∨ page % mgr.pagesPerPIP = mgr.pagesPerPIP - 1 ∨
    mgr.temporary = false ∧ (page = firstScnPage ∨ page % mgr.pagesPerSCN = 0)

/-- What holds of a page space between calls. `held` are the pages handed out and not yet released,
    `ever` all that were handed out. -/
structure PageSpace.Inv (mgr : PageManager) (space : PageSpace) (held ever : List Nat) : Prop where
  marked : ∀ (k : Nat) (pip : PageInvPage), space.pips[k]? = some pip → pip.Marked mgr
  /-- The last bit of an inventory page stands for the next one. -/
  linked : ∀ (k : Nat) (pip : PageInvPage), space.pips[k]? = some pip → (pip.pipBits (mgr.pagesPerPIP - 1) = false ↔
    k + 1 < space.pips.length)
  fixed : ∀ pip : PageInvPage, space.pips[0]? = some pip → pip.pipBits 0 = false ∧ pip.pipBits firstPipPage = false ∧
    (mgr.temporary = false → pip.pipBits firstScnPage = false)
  highWater_lt : space.pipHighWater < space.pips.length
  withExtent_lt : space.pipWithExtent < space.pips.length
  highWater : ∀ (k : Nat) (pip : PageInvPage), space.pips[k]? = some pip → k < space.pipHighWater →
    ∀ i, i < mgr.pagesPerPIP → pip.pipBits i = false
  withExtent : ∀ (k : Nat) (pip : PageInvPage), space.pips[k]? = some pip → k < space.pipWithExtent →
    ∀ byte, byte < mgr.bytesBitPIP → pip.byteIsFull byte = false
  held : ∀ page ∈ held, ¬IsInventory mgr page ∧
    ∃ pip, space.pips[page / mgr.pagesPerPIP]? = some pip ∧ pip.pipBits (page % mgr.pagesPerPIP) = false
  used : space.disk.Covered mgr → ∀ (k : Nat) (pip : PageInvPage), space.pips[k]? = some pip → pip.UsedCovers mgr
  ever : ∀ page ∈ ever, page / mgr.pagesPerPIP < space.pips.length ∧ (space.disk.Covered mgr →
    ∀ pip : PageInvPage, space.pips[page / mgr.pagesPerPIP]? = some pip → page % mgr.pagesPerPIP < pip.pipUsed)

/-- The search of an inventory page has cleared some of its bits, and has made a new inventory page if
    the bit of the next one is among them. -/
structure Stepped (mgr : PageManager) (sequence : Nat) (pip pip' : PageInvPage) (start space : PageSpace) : Prop where
  bits : ∀ i, pip'.pipBits i = true → pip.pipBits i = true
  marked : pip'.Marked mgr
  used_le : pip.pipUsed ≤ pip'.pipUsed
  pips : space.pips = (if pip.pipBits (mgr.pagesPerPIP - 1) = true ∧ pip'.pipBits (mgr.pagesPerPIP - 1) = false
    then (start.putPip (sequence + 1) newPip).pips else start.pips).set sequence pip'
  highWater : space.pipHighWater =
    if mgr.pagesPerPIP ≤ pip'.pipMin then compareExchange start.pipHighWater sequence else start.pipHighWater
  withExtent : space.pipWithExtent =
    if mgr.pagesPerPIP ≤ pip'.pipExtent then compareExchange start.pipWithExtent sequence else start.pipWithExtent
  covered : space.disk.Covered mgr → start.disk.Covered mgr ∧ (pip.UsedCovers mgr → pip'.UsedCovers mgr)

variable {mgr : PageManager} {sequence : Nat} {pip pip' : PageInvPage} {start space : PageSpace}
  {held ever : List Nat}

theorem PageInvPage.byteIsFull_mono (h : ∀ i, pip'.pipBits i = true → pip.pipBits i = true) {byte : Nat}
    (hfull : pip'.byteIsFull byte = true) : pip.byteIsFull byte = true := by
  rw [PageInvPage.byteIsFull_iff] at hfull ⊢
  exact fun i hi => h _ (hfull i hi)

theorem marked_newPip : newPip.Marked mgr where
  min _ _ _ := Nat.zero_le _
  extent _ _ _ := Nat.zero_le _
  extent_end h := by
    have := mgr.pagesPerPIP_bounds
    simp only [newPip] at h
    omega
  min_le := Nat.zero_le _
  extent_le := Nat.zero_le _
  used_le := Nat.zero_le _

namespace Stepped

section
variable (h : Stepped mgr sequence pip pip' start space) (hinv : start.Inv mgr held ever)
  (hpip : start.pips[sequence]? = some pip)
include h hinv hpip

theorem getElem? :
    (start.pips.length = space.pips.length ∧
        (pip'.pipBits (mgr.pagesPerPIP - 1) = pip.pipBits (mgr.pagesPerPIP - 1)) ∨
      start.pips.length = sequence + 1 ∧ space.pips.length = sequence + 2 ∧
        pip'.pipBits (mgr.pagesPerPIP - 1) = false ∧ space.pips[sequence + 1]? = some newPip) ∧
    space.pips[sequence]? = some pip' ∧
    ∀ k, k < start.pips.length → k ≠ sequence → space.pips[k]? = start.pips[k]? := by
  have hlt : sequence < start.pips.length := (List.getElem?_eq_some_iff.mp hpip).1
  have hlinked := hinv.linked sequence pip hpip
  have hpips := h.pips
  by_cases hgrown : pip.pipBits (mgr.pagesPerPIP - 1) = true ∧ pip'.pipBits (mgr.pagesPerPIP - 1) = false
  · rw [if_pos hgrown] at hpips
    have hlast : start.pips.length = sequence + 1 := by
      by_contra hne
      have := hlinked.mpr (by omega)
      rw [hgrown.1] at this
      cases this
    have hput : (start.putPip (sequence + 1) newPip).pips = start.pips ++ [newPip] := by
      rw [PageSpace.putPip, take_of_length_le (by omega), drop_of_length_le (by omega)]
    rw [hput] at hpips
    refine ⟨.inr ⟨hlast, ?_, hgrown.2, ?_⟩, ?_, fun k hk hne => ?_⟩
    · rw [hpips, length_set, length_append, hlast, length_singleton]
    · rw [hpips, getElem?_set_ne (by omega), getElem?_append_right (by omega), hlast, Nat.sub_self]
      rfl
    · rw [hpips, getElem?_set_self (by rw [length_append]; omega)]
    · rw [hpips, getElem?_set_ne (Ne.symm hne), getElem?_append_left hk]
  · rw [if_neg hgrown] at hpips
    refine ⟨.inl ⟨by rw [hpips, length_set], ?_⟩, ?_, fun k hk hne => ?_⟩
    · cases hb' : pip'.pipBits (mgr.pagesPerPIP - 1) with
      | true => rw [h.bits _ hb']
      | false =>
        cases hb : pip.pipBits (mgr.pagesPerPIP - 1) with
        | false => rfl
        | true => exact absurd ⟨hb, hb'⟩ hgrown
    · rw [hpips, getElem?_set_self hlt]
    · rw [hpips, getElem?_set_ne (Ne.symm hne)]

theorem length_le : start.pips.length ≤ space.pips.length := by
  rcases (h.getElem? hinv hpip).1 with hcase | hcase <;> omega

theorem cases_of {k : Nat} {q : PageInvPage} (hq : space.pips[k]? = some q) :
    k = sequence ∧ q = pip' ∨ k = start.pips.length ∧ k = sequence + 1 ∧ q = newPip ∨
      k ≠ sequence ∧ k < start.pips.length ∧ start.pips[k]? = some q := by
  obtain ⟨hlen, hself, hothers⟩ := h.getElem? hinv hpip
  have hk : k < space.pips.length := (List.getElem?_eq_some_iff.mp hq).1
  by_cases hks : k = sequence
  · subst hks
    rw [hself] at hq
    exact .inl ⟨rfl, (Option.some.inj hq).symm⟩
  · by_cases hlt : k < start.pips.length
    · exact .inr (.inr ⟨hks, hlt, (hothers k hlt hks) ▸ hq⟩)
    · rcases hlen with ⟨hlen, -⟩ | ⟨hlen, hlen', -, hnew⟩
      · omega
      · obtain rfl : k = sequence + 1 := by omega
        rw [hnew] at hq
        exact .inr (.inl ⟨by omega, rfl, (Option.some.inj hq).symm⟩)

theorem linked : pip'.pipBits (mgr.pagesPerPIP - 1) = false ↔ sequence + 1 < space.pips.length := by
  have hlinked := hinv.linked sequence pip hpip
  rcases (h.getElem? hinv hpip).1 with ⟨hlen, hbit⟩ | ⟨hlen, hlen', hbit, -⟩
  · rw [hbit, ← hlen]
    exact hlinked
  · exact ⟨fun _ => by omega, fun _ => hbit⟩

/-- What holds of every inventory page below a counter goes on to hold. -/
theorem below {P : PageInvPage → Prop} {counter counter' first : Nat}
    (hcounter : counter' = counter ∨ counter = sequence ∧ counter' = sequence + 1 ∧ mgr.pagesPerPIP ≤ first)
    (hlt : counter < start.pips.length) (hold : ∀ k q, start.pips[k]? = some q → k < counter → P q)
    (hkept : P pip → P pip') (hend : mgr.pagesPerPIP ≤ first → P pip') {k : Nat} {q : PageInvPage}
    (hq : space.pips[k]? = some q) (hk : k < counter') : P q := by
  rcases cases_of h hinv hpip hq with ⟨rfl, rfl⟩ | ⟨hk', -, rfl⟩ | ⟨hne, -, hq⟩
  · rcases hcounter with heq | ⟨-, -, hreached⟩
    · exact hkept (hold k pip hpip (heq ▸ hk))
    · exact hend hreached
  · omega
  · exact hold k q hq (by omega)

end

theorem no_free (h : Stepped mgr sequence pip pip' start space) (hend : mgr.pagesPerPIP ≤ pip'.pipMin) {i : Nat}
    (hi : i < mgr.pagesPerPIP) : pip'.pipBits i = false := by
  by_contra hfree
  have := h.marked.min i hi (Bool.not_eq_false _ ▸ hfree)
  omega

theorem no_extent (h : Stepped mgr sequence pip pip' start space) (hend : mgr.pagesPerPIP ≤ pip'.pipExtent) {byte : Nat}
    (hbyte : byte < mgr.bytesBitPIP) : pip'.byteIsFull byte = false := by
  by_contra hfull
  have := h.marked.extent byte hbyte (Bool.not_eq_false _ ▸ hfull)
  have := mgr.pagesPerPIP_eq
  omega

theorem taken (h : Stepped mgr sequence pip pip' start space) {i : Nat} (hi : pip.pipBits i = false) :
    pip'.pipBits i = false := by
  by_contra hfree
  exact Bool.false_ne_true (hi.symm.trans (h.bits i (Bool.not_eq_false _ ▸ hfree)))

/-- A counter goes on by one when all pages of this inventory page are used up. -/
theorem counter_cases {counter counter' first : Nat}
    (h : counter' = if mgr.pagesPerPIP ≤ first then compareExchange counter sequence else counter) :
    counter' = counter ∨ counter = sequence ∧ counter' = sequence + 1 ∧ mgr.pagesPerPIP ≤ first := by
  subst h
  unfold compareExchange
  split
  · split
    · exact .inr ⟨‹_›, rfl, ‹_›⟩
    · exact .inl rfl
  · exact .inl rfl

theorem inv (h : Stepped mgr sequence pip pip' start space) (hinv : start.Inv mgr held ever)
    (hpip : start.pips[sequence]? = some pip) : space.Inv mgr held ever := by
  have hbounds := mgr.pagesPerPIP_bounds
  obtain ⟨hlen, hself, hothers⟩ := h.getElem? hinv hpip
  have hlenle := h.length_le hinv hpip
  have hlast : mgr.pagesPerPIP - 1 < mgr.pagesPerPIP := by omega
  have hhw := counter_cases h.highWater
  have hwe := counter_cases h.withExtent
  exact {
    marked := fun k q hq => by
      rcases h.cases_of hinv hpip hq with ⟨-, rfl⟩ | ⟨-, -, rfl⟩ | ⟨-, -, hq⟩
      · exact h.marked
      · exact marked_newPip
      · exact hinv.marked k q hq
    linked := fun k q hq => by
      rcases h.cases_of hinv hpip hq with ⟨rfl, rfl⟩ | ⟨hk', hk'', rfl⟩ | ⟨hne, hklt, hq⟩
      · exact h.linked hinv hpip
      · refine ⟨fun hbit => Bool.noConfusion hbit, fun hlt => ?_⟩
        rcases hlen with hlen | hlen <;> omega
      · rw [hinv.linked k q hq]
        rcases hlen with hlen | hlen <;> omega
    fixed := fun q hq => by
      rcases h.cases_of hinv hpip hq with ⟨rfl, rfl⟩ | ⟨-, hk, -⟩ | ⟨-, -, hq⟩
      · obtain ⟨h0, h1, h2⟩ := hinv.fixed pip hpip
        exact ⟨h.taken h0, h.taken h1, fun ht => h.taken (h2 ht)⟩
      · omega
      · exact hinv.fixed q hq
    highWater_lt := by
      have hold := hinv.highWater_lt
      rcases hhw with heq | ⟨-, heq, hend⟩
      · omega
      · have := (h.linked hinv hpip).mp (h.no_free hend hlast)
        omega
    withExtent_lt := by
      have hold := hinv.withExtent_lt
      rcases hwe with heq | ⟨-, heq, hend⟩
      · omega
      · have := (h.linked hinv hpip).mp (h.marked.extent_end hend)
        omega
    highWater := fun k q hq hk => h.below hinv hpip hhw hinv.highWater_lt hinv.highWater
      (fun hold i hi => h.taken (hold i hi)) (fun hend i hi => h.no_free hend hi) hq hk
    withExtent := fun k q hq hk => by
      refine h.below hinv hpip hwe hinv.withExtent_lt hinv.withExtent (fun hold byte hbyte => ?_)
        (fun hend byte hbyte => h.no_extent hend hbyte) hq hk
      by_contra hfull
      have hfull := PageInvPage.byteIsFull_mono h.bits (Bool.not_eq_false _ ▸ hfull)
      exact Bool.false_ne_true ((hold byte hbyte).symm.trans hfull)
    held := fun page hpage => by
      obtain ⟨hinventory, q, hq, hbit⟩ := hinv.held page hpage
      refine ⟨hinventory, ?_⟩
      by_cases hseq : page / mgr.pagesPerPIP = sequence
      · rw [hseq, hpip] at hq
        cases hq
        exact ⟨pip', hseq ▸ hself, h.taken hbit⟩
      · exact ⟨q, (hothers _ (List.getElem?_eq_some_iff.mp hq).1 hseq).trans hq, hbit⟩
    used := fun hcovered k q hq => by
      obtain ⟨hstart, hused⟩ := h.covered hcovered
      rcases h.cases_of hinv hpip hq with ⟨rfl, rfl⟩ | ⟨-, -, rfl⟩ | ⟨-, -, hq⟩
      · exact hused (hinv.used hstart k pip hpip)
      · intro i _ hbit
        cases hbit
      · exact hinv.used hstart k q hq
    ever := fun page hpage => by
      obtain ⟨hlt, hold⟩ := hinv.ever page hpage
      refine ⟨by omega, fun hcovered q hq => ?_⟩
      have hstart := (h.covered hcovered).1
      rcases h.cases_of hinv hpip hq with ⟨hseq, rfl⟩ | ⟨hk, -, -⟩ | ⟨-, -, hq⟩
      · exact Nat.lt_of_lt_of_le (hold hstart pip (hseq ▸ hpip)) h.used_le
      · omega
      · exact hold hstart q hq }

end Stepped

end Firebird.Pag
