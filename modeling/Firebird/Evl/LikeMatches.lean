import Firebird.Evl.LikeBranches

/-! # The result of a LIKE match -/

namespace Firebird.Evl

open Lib List

variable {α : Type} {e : Option (List (PatternItem α))} {branches done rest : List (BranchItem α)} {b b' : BranchItem α}
  {c : α} {w data : List α} {dataPos dataLen : Nat} {finishCandidate : Int} {L : List α → Prop}

def Accepted (branches : List (BranchItem α)) (w : List α) : Prop := ∃ b ∈ branches, w ∈ b.accepts

@[simp] theorem accepted_nil : ¬Accepted ([] : List (BranchItem α)) w := by simp [Accepted]

@[simp] theorem accepted_cons : Accepted (b :: rest) w ↔ w ∈ b.accepts ∨ Accepted rest w := by simp [Accepted]

@[simp] theorem accepted_append : Accepted (done ++ rest) w ↔ Accepted done w ∨ Accepted rest w := by
  simp [Accepted, or_and_right, exists_or]

def Crowd (e : Option (List (PatternItem α))) (branches : List (BranchItem α)) : Prop :=
  ∃ b walkers, branches = b :: walkers ∧ Searching e b ∧ ∀ b' ∈ walkers, Walking e b'

inductive Branches : List (BranchItem α) → Prop
  | crowd {e : Option (List (PatternItem α))} {branches : List (BranchItem α)} (h : Crowd e branches) :
      Branches branches
  | one {i : PatternItem α} {next : List (PatternItem α)} {k : Nat} {b : BranchItem α} (h : On i next k b) :
      Branches [b]

theorem Crowd.ne_nil (h : Crowd e branches) : branches ≠ [] := by
  obtain ⟨b, walkers, rfl, -⟩ := h
  simp

theorem Crowd.snoc (h : Crowd e done) (hb : Walking e b) : Crowd e (done ++ [b]) := by
  obtain ⟨first, walkers, rfl, hfirst, hwalkers⟩ := h
  refine ⟨first, walkers ++ [b], rfl, hfirst, fun b' hb' => ?_⟩
  rcases mem_append.mp hb' with hb' | hb'
  · exact hwalkers b' hb'
  · obtain rfl : b' = b := by simpa using hb'
    exact hb

theorem Crowd.on (h : Crowd e branches) (hb : b ∈ branches) : ∃ i next k, On i next k b ∧ afterAny (i :: next) = e := by
  obtain ⟨first, walkers, rfl, hfirst, hwalkers⟩ := h
  rcases mem_cons.mp hb with rfl | hb
  · obtain ⟨i, next, k, hon, -, -, hafter⟩ := hfirst
    exact ⟨i, next, k, hon, hafter⟩
  · obtain ⟨i, next, k, hon, -, hafter⟩ := hwalkers b hb
    exact ⟨i, next, k, hon, hafter⟩

theorem Branches.not_accepted_nil (h : Branches branches) : ¬Accepted branches [] := by
  rintro ⟨b, hb, hnil⟩
  cases h with
  | crowd hcrowd =>
    obtain ⟨i, next, k, hon, -⟩ := hcrowd.on hb
    exact hon.not_nil hnil
  | one hon =>
    obtain rfl := mem_singleton.mp hb
    exact hon.not_nil hnil

def CharOutcome (dataPos dataLen : Nat) (L : List α → Prop) : CharStep α → Prop
  | .more branches finishCandidate =>
    Branches branches ∧ finishCandidate ≤ dataPos ∧ ∀ w, L w ↔ Accepted branches w ∨
    (finishCandidate = dataPos ∧ w = [])
  | .return branches matchType more => branches = [] ∧
    match matchType with
    | .any => more = false ∧ ∀ w, L w
    | .fixed => more = true ∧ dataPos + 1 = dataLen ∧ ∀ w, L w ↔ w = []
    | .none => more = false ∧ ∀ w, L w → w = [] ∧ dataPos + 1 ≠ dataLen

theorem CharOutcome.congr {L L' : List α → Prop} {s : CharStep α} (h : CharOutcome dataPos dataLen L s)
    (hiff : ∀ w, L' w ↔ L w) : CharOutcome dataPos dataLen L' s := by
  obtain rfl : L' = L := funext fun w => propext (hiff w)
  exact h

theorem accepts_of_through {i : PatternItem α} {next : List (PatternItem α)} (hon : On i next 0 b')
    (htype : i.type = .piSearch) {v : List α} (hv : v ∈ ⊤ * itemsLanguage (i :: next)) : v ∈ b'.accepts := by
  have hstart : itemsLanguage (i :: next) = b'.accepts := by
    rw [hon.eq, ← accepts_start hon.compiled.head_fit]
    rfl
  have htop : (⊤ : Language α) * itemsLanguage (i :: next) = itemsLanguage (i :: next) := by
    rw [itemsLanguage_cons]
    simp [PatternItem.own, htype, ← mul_assoc]
  rwa [htop, hstart] at hv

section
variable [DecidableEq α] (c : α) (dataLen : Nat)

theorem eachBranch_walkers (hdone : Crowd e done) (hrest : ∀ b ∈ rest, Walking e b)
    (hle : finishCandidate ≤ dataPos) (hfinish : finishCandidate = dataPos → e = none) :
    ∃ s, eachBranch c dataPos dataLen .none rest done finishCandidate = some s ∧ CharOutcome dataPos dataLen
      (fun w => Accepted rest (c :: w) ∨ Accepted done w ∨ (finishCandidate = dataPos ∧ w = [])) s := by
  induction rest generalizing done finishCandidate with
  | nil => exact ⟨_, rfl, Branches.crowd hdone, hle, fun w => by simp⟩
  | cons b rest ih =>
    obtain ⟨s, hs, hstep⟩ := stepBranch_walking (c := c) (hrest b mem_cons_self)
    have hrest' : ∀ b ∈ rest, Walking e b := fun b hb => hrest b (mem_cons_of_mem _ hb)
    cases s with
    | dropped =>
      obtain ⟨s, hs', houtcome⟩ := ih hdone hrest' hle hfinish
      refine ⟨s, by simpa [eachBranch, hs, hdone.ne_nil] using hs', houtcome.congr fun w => ?_⟩
      have hw := hstep w
      simp [hw]
    | finished =>
      obtain ⟨hnone, haccepts⟩ := hstep
      obtain ⟨s, hs', houtcome⟩ := ih hdone hrest' (le_refl (dataPos : Int)) fun _ => hnone
      refine ⟨s, by simpa [eachBranch, hs, hdone.ne_nil] using hs', houtcome.congr fun w => ?_⟩
      simp only [accepted_cons, haccepts]
      tauto
    | kept b' =>
      obtain ⟨hwalking, haccepts⟩ := hstep
      obtain ⟨s, hs', houtcome⟩ := ih (hdone.snoc hwalking) hrest' hle hfinish
      refine ⟨s, by simpa [eachBranch, hs] using hs', houtcome.congr fun w => ?_⟩
      simp only [accepted_cons, accepted_append, haccepts, accepted_nil, or_false]
      tauto
    | alone b' =>
      obtain ⟨⟨i, next, hsome, hon, htype⟩, haccepts⟩ := hstep
      have hcandidate : finishCandidate ≠ dataPos := fun heq => by simp [hfinish heq] at hsome
      refine ⟨.more [b'] finishCandidate, by simp [eachBranch, hs], Branches.one hon, hle, fun w => ?_⟩
      simp only [accepted_cons, haccepts, accepted_nil, or_false, hcandidate, false_and]
      -- Every other branch has to pass the same match-any.
      constructor
      · rintro ((hw | ⟨b'', hb'', hw⟩) | ⟨b'', hb'', hw⟩)
        · exact hw
        · obtain ⟨i', next', k', hon', -, hafter⟩ := hrest' b'' hb''
          obtain ⟨x, y, hx, heq, hy⟩ := hon'.through (hafter.trans hsome) hw
          obtain ⟨d, x, rfl⟩ := exists_cons_of_ne_nil hx
          obtain ⟨-, rfl⟩ := cons.inj heq
          exact accepts_of_through hon htype (append_mem_top_mul hy)
        · obtain ⟨i', next', k', hon', hafter⟩ := hdone.on hb''
          obtain ⟨x, y, -, rfl, hy⟩ := hon'.through (hafter.trans hsome) hw
          exact accepts_of_through hon htype (append_mem_top_mul hy)
      · intro hw
        exact Or.inl (Or.inl hw)
    | matched =>
      obtain ⟨-, haccepts⟩ := hstep
      refine ⟨.return [] .any false, by simp [eachBranch, hs], rfl, rfl, fun w => ?_⟩
      exact Or.inl (accepted_cons.mpr (Or.inl (haccepts w)))
    | found b' | split b' inserted => exact hstep.elim

theorem eachBranch_crowd (h : Crowd e branches) (hlt : finishCandidate < dataPos) :
    ∃ s, eachBranch c dataPos dataLen .none branches [] finishCandidate = some s ∧
      CharOutcome dataPos dataLen (fun w => Accepted branches (c :: w)) s := by
  obtain ⟨b, walkers, rfl, hsearching, hwalkers⟩ := h
  obtain ⟨s, hs, hstep⟩ := stepBranch_searching (c := c) hsearching
  have hne : finishCandidate ≠ dataPos := hlt.ne
  cases s with
  | kept b' =>
    obtain ⟨hsearching', haccepts⟩ := hstep
    obtain ⟨s, hs', houtcome⟩ := eachBranch_walkers c dataLen
      ⟨b', [], rfl, hsearching', by simp⟩ hwalkers hlt.le fun heq => absurd heq hne
    refine ⟨s, by simpa [eachBranch, hs] using hs', houtcome.congr fun w => ?_⟩
    simp only [accepted_cons, haccepts, accepted_nil, or_false, hne, false_and]
    tauto
  | found b' =>
    obtain ⟨hsearching', hnone, haccepts⟩ := hstep
    obtain ⟨s, hs', houtcome⟩ := eachBranch_walkers c dataLen
      ⟨b', [], rfl, hsearching', by simp⟩ hwalkers (le_refl (dataPos : Int)) fun _ => hnone
    refine ⟨s, by simpa [eachBranch, hs] using hs', houtcome.congr fun w => ?_⟩
    simp only [accepted_cons, haccepts, accepted_nil, or_false, true_and]
    tauto
  | split b' inserted =>
    obtain ⟨hsearching', hwalking, haccepts⟩ := hstep
    obtain ⟨s, hs', houtcome⟩ := eachBranch_walkers c dataLen
      ⟨b', [inserted], rfl, hsearching', by simpa using hwalking⟩ hwalkers hlt.le fun heq => absurd heq hne
    refine ⟨s, by simpa [eachBranch, hs] using hs', houtcome.congr fun w => ?_⟩
    simp only [accepted_cons, haccepts, accepted_nil, or_false, hne, false_and]
    tauto
  | dropped | finished | alone b' | matched => exact hstep.elim

theorem eachBranch_one {i : PatternItem α} {next : List (PatternItem α)} {k : Nat}
    (hon : On i next k b) (hlt : finishCandidate < dataPos) :
    ∃ s, eachBranch c dataPos dataLen .none [b] [] finishCandidate = some s ∧
      CharOutcome dataPos dataLen (fun w => Accepted [b] (c :: w)) s := by
  have hne : finishCandidate ≠ dataPos := hlt.ne
  by_cases htype : i.type = .piSearch
  · cases hmark : i.matchAny with
    | false => exact eachBranch_crowd c dataLen ⟨b, [], rfl, ⟨i, next, k, hon, htype, hmark, rfl⟩, by simp⟩ hlt
    | true =>
      obtain ⟨s, hs, hstep⟩ := stepBranch_lastSearch (c := c) hon htype hmark
      cases s with
      | kept b' =>
        obtain ⟨⟨i', next', k', hon'⟩, haccepts⟩ := hstep
        refine ⟨.more [b'] finishCandidate, by simp [eachBranch, hs], Branches.one hon', hlt.le, fun w => ?_⟩
        simp [haccepts, hne]
      | matched =>
        refine ⟨.return [] .any false, by simp [eachBranch, hs], rfl, rfl, fun w => ?_⟩
        exact accepted_cons.mpr (Or.inl (hstep w))
      | dropped | finished | found b' | split b' inserted | alone b' => exact hstep.elim
  · obtain ⟨s, hs, hstep⟩ := stepBranch_walking (c := c) ⟨i, next, k, hon, htype, rfl⟩
    cases s with
    | dropped =>
      refine ⟨.return [] .none false, by simp [eachBranch, hs], rfl, rfl, fun w hw => ?_⟩
      have hnot := hstep w
      simp [hnot] at hw
    | finished =>
      obtain ⟨-, haccepts⟩ := hstep
      by_cases hlast : dataPos + 1 = dataLen
      · refine ⟨.return [] .fixed true, by simp [eachBranch, hs, hlast], rfl, rfl, hlast, fun w => ?_⟩
        simp [haccepts]
      · refine ⟨.return [] .none false, by simp [eachBranch, hs, hlast], rfl, rfl, fun w hw => ?_⟩
        exact ⟨by simpa [haccepts] using hw, hlast⟩
    | kept b' =>
      obtain ⟨⟨i', next', k', hon', -⟩, haccepts⟩ := hstep
      refine ⟨.more [b'] finishCandidate, by simp [eachBranch, hs], Branches.one hon', hlt.le, fun w => ?_⟩
      simp [haccepts, hne]
    | alone b' =>
      obtain ⟨⟨i', next', -, hon', -⟩, haccepts⟩ := hstep
      refine ⟨.more [b'] finishCandidate, by simp [eachBranch, hs], Branches.one hon', hlt.le, fun w => ?_⟩
      simp [haccepts, hne]
    | matched =>
      refine ⟨.return [] .any false, by simp [eachBranch, hs], rfl, rfl, fun w => ?_⟩
      exact accepted_cons.mpr (Or.inl (hstep.2 w))
    | found b' => exact hstep.elim
    | split b' inserted => exact hstep.elim

theorem eachBranch_spec (h : Branches branches) (hlt : finishCandidate < dataPos) :
    ∃ s, eachBranch c dataPos dataLen .none branches [] finishCandidate = some s ∧
      CharOutcome dataPos dataLen (fun w => Accepted branches (c :: w)) s := by
  cases h with
  | crowd hcrowd => exact eachBranch_crowd c dataLen hcrowd hlt
  | one hon => exact eachBranch_one c dataLen hon hlt

end

structure Means (e : LikeEvaluator α) (L : List α → Prop) : Prop where
  branches : e.branches = [] ∨ Branches e.branches
  any : e.matchType = .any → e.branches = []
  mem : ∀ w, L w ↔ e.matchType = .any ∨ (e.matchType = .fixed ∧ w = []) ∨ Accepted e.branches w

def Settled (e : LikeEvaluator α) : Prop := e.branches = [] ∧ e.matchType ≠ .fixed

theorem eachChar_spec [DecidableEq α] (items : List (PatternItem α)) (data : List α) (h : Branches branches)
    (hlt : finishCandidate < dataPos) (hlen : dataPos + data.length = dataLen) :
    ∃ branches' matchType more, eachChar dataLen data dataPos branches .none finishCandidate = some (branches',
      matchType, more) ∧ Means ⟨items, branches', matchType⟩
        (fun w => Accepted branches (data ++ w) ∨ (data = [] ∧ w = [] ∧ finishCandidate + 1 = dataPos)) ∧
      (more = false → Settled (⟨items, branches', matchType⟩ : LikeEvaluator α)) := by
  induction data generalizing branches dataPos finishCandidate with
  | nil =>
    obtain rfl : dataPos = dataLen := by simpa using hlen
    refine ⟨branches, if finishCandidate + 1 = dataPos then .fixed else .none, true, ?_,
      ⟨Or.inr h, ?_, fun w => ?_⟩, nofun⟩
    · have hiff : finishCandidate = (dataPos : Int) - 1 ↔ finishCandidate + 1 = dataPos := by omega
      simp only [eachChar, hiff]
    · split <;> simp
    · by_cases hcandidate : finishCandidate + 1 = dataPos
      · simp [hcandidate, or_comm]
      · simp [hcandidate]
  | cons c data ih =>
    obtain ⟨s, hs, houtcome⟩ := eachBranch_spec c dataLen h hlt
    cases s with
    | more branches' finishCandidate' =>
      obtain ⟨hbranches, hle, haccepts⟩ := houtcome
      obtain ⟨branches'', matchType, more, heach, hmeans, hsettled⟩ :=
        ih hbranches (show finishCandidate' < ((dataPos + 1 : Nat) : Int) by omega) (by simp at hlen; omega)
      refine ⟨branches'', matchType, more, by simp [eachChar, hs, heach],
        ⟨hmeans.branches, hmeans.any, fun w => ?_⟩, hsettled⟩
      rw [← hmeans.mem w]
      have hstep := haccepts (data ++ w)
      have hcandidate : finishCandidate' + 1 = ((dataPos + 1 : Nat) : Int) ↔ finishCandidate' = dataPos := by omega
      constructor
      · rintro (hw | ⟨hnil, -⟩)
        · rcases hstep.mp hw with hw | ⟨heq, hnil⟩
          · exact Or.inl hw
          · exact Or.inr ⟨(append_eq_nil_iff.mp hnil).1, (append_eq_nil_iff.mp hnil).2, hcandidate.mpr heq⟩
        · exact absurd hnil (by simp)
      · rintro (hw | ⟨rfl, rfl, heq⟩)
        · exact Or.inl (hstep.mpr (Or.inl hw))
        · exact Or.inl (hstep.mpr (Or.inr ⟨hcandidate.mp heq, rfl⟩))
    | «return» branches' matchType more =>
      obtain ⟨rfl, houtcome⟩ := houtcome
      refine ⟨[], matchType, more, by simp [eachChar, hs], ⟨Or.inl rfl, fun _ => rfl, fun w => ?_⟩, fun hmore =>
        ⟨rfl, ?_⟩⟩
      · cases matchType with
        | any => simpa using houtcome.2 (data ++ w)
        | fixed =>
          obtain ⟨-, hlast, haccepts⟩ := houtcome
          obtain rfl : data = [] := eq_nil_of_length_eq_zero (by simp at hlen; omega)
          simpa using haccepts w
        | none =>
          obtain ⟨-, haccepts⟩ := houtcome
          simp only [accepted_nil, or_false, reduceCtorEq, false_and, iff_false]
          intro hw
          obtain ⟨hnil, hlast⟩ := haccepts _ hw
          have hdata := (append_eq_nil_iff.mp hnil).1
          simp [hdata] at hlen
          omega
      · rintro rfl
        simp [hmore] at houtcome

variable {ev : LikeEvaluator α}

theorem Means.getResult (h : Means ev L) : ev.getResult = true ↔ L [] := by
  have hnot : ¬Accepted ev.branches [] := by
    rcases h.branches with hnil | hbranches
    · simp [hnil]
    · exact hbranches.not_accepted_nil
  rw [h.mem]
  cases htype : ev.matchType <;> simp [LikeEvaluator.getResult, htype, hnot]

theorem Means.settled (h : Means ev L) (hsettled : Settled ev) (w : List α) : L w ↔ ev.getResult = true := by
  obtain ⟨hbranches, hfixed⟩ := hsettled
  rw [h.mem]
  cases htype : ev.matchType <;> simp_all [LikeEvaluator.getResult]

theorem Ready.means {M : Language α} (h : Ready M ev) : Means ev (· ∈ M) := by
  cases h with
  | empty items h =>
    subst h
    exact ⟨Or.inl rfl, nofun, fun w => by simp⟩
  | anything items h =>
    subst h
    exact ⟨Or.inl rfl, fun _ => rfl, fun w => by simp⟩
  | @start items hne hcompiled h =>
    subst h
    obtain ⟨i, next, rfl⟩ := exists_cons_of_ne_nil hne
    refine ⟨Or.inr (Branches.one (on_start hcompiled)), nofun, fun w => ?_⟩
    simp [accepts_start hcompiled.head_fit]

theorem processNextChunk_spec [DecidableEq α] (h : Means ev L) (data : List α) :
    ∃ ev' more, ev.processNextChunk data = some (ev', more) ∧ Means ev' (fun w => L (data ++ w)) ∧
    (more = false → Settled ev') := by
  by_cases hdata : data = []
  · subst hdata
    refine ⟨ev, _, rfl, h, fun hmore => ?_⟩
    simpa [Settled] using hmore
  · by_cases hbranches : ev.branches = []
    · refine ⟨{ ev with matchType := if ev.matchType = .fixed then .none else ev.matchType }, false, ?_,
        ⟨Or.inl hbranches, fun _ => hbranches, fun w => ?_⟩, fun _ => ⟨hbranches, ?_⟩⟩
      · simp [LikeEvaluator.processNextChunk, hdata, hbranches]
      · have hmem := h.mem (data ++ w)
        refine hmem.trans ?_
        cases htype : ev.matchType <;> simp [hbranches, hdata]
      · cases htype : ev.matchType <;> simp
    · have hbs := h.branches.resolve_left hbranches
      have htype : (if ev.matchType = .fixed then .none else ev.matchType) = MatchType.none := by
        cases htype : ev.matchType with
        | none | fixed => rfl
        | any => exact absurd (h.any htype) hbranches
      obtain ⟨branches, matchType, more, heach, hmeans, hsettled⟩ := eachChar_spec ev.patternItems data hbs
        (show (-1 : Int) < ((0 : Nat) : Int) by simp) (Nat.zero_add _)
      refine ⟨{ ev with branches, matchType },
        more, by simp [LikeEvaluator.processNextChunk, hdata, hbranches, htype, heach],
        ⟨hmeans.branches, hmeans.any, fun w => ?_⟩, hsettled⟩
      refine Iff.trans ?_ (hmeans.mem w)
      have hmem := h.mem (data ++ w)
      refine hmem.trans ⟨?_, ?_⟩
      · rintro (hany | ⟨-, hnil⟩ | hw)
        · exact absurd (h.any hany) hbranches
        · exact absurd (append_eq_nil_iff.mp hnil).1 hdata
        · exact Or.inl hw
      · rintro (hw | ⟨hnil, -⟩)
        · exact Or.inr (Or.inr hw)
        · exact absurd hnil hdata

theorem Settled.processNextChunk [DecidableEq α] (h : Settled ev) (data : List α) :
    ev.processNextChunk data = some (ev, false) := by
  obtain ⟨hbranches, hfixed⟩ := h
  by_cases hdata : data = []
  · simp [LikeEvaluator.processNextChunk, hdata, hbranches, hfixed]
  · simp only [LikeEvaluator.processNextChunk, hdata, hbranches, hfixed, if_true, if_false]
    rw [← hbranches]

theorem feed_spec [DecidableEq α] (h : Means ev L) (chunks : List (List α)) :
    ∃ ev' more, ev.feed chunks = some (ev', more) ∧ (ev'.getResult = true ↔ L chunks.flatten) ∧
      (more = false → Settled ev' ∧ ∀ w, L (chunks.flatten ++ w) ↔ ev'.getResult = true) := by
  induction chunks generalizing ev L with
  | nil => exact ⟨ev, true, rfl, h.getResult, nofun⟩
  | cons data chunks ih =>
    obtain ⟨ev', more, hprocess, hmeans, hsettled⟩ := processNextChunk_spec h data
    cases more with
    | false =>
      have hall : ∀ w, L (data ++ w) ↔ ev'.getResult = true := hmeans.settled (hsettled rfl)
      refine ⟨ev', false, by simp [LikeEvaluator.feed, hprocess], ?_, fun _ => ⟨hsettled rfl, fun w => ?_⟩⟩
      · rw [flatten_cons, hall]
      · rw [flatten_cons, append_assoc, hall]
    | true =>
      obtain ⟨ev'', more, hfeed, hresult, hlater⟩ := ih hmeans
      refine ⟨ev'', more, by simp [LikeEvaluator.feed, hprocess, hfeed], ?_, fun hmore => ?_⟩
      · rw [hresult, flatten_cons]
      · obtain ⟨hsettled', hall⟩ := hlater hmore
        refine ⟨hsettled', fun w => ?_⟩
        rw [← hall w, flatten_cons, append_assoc]

/-- Whatever the chunks, the result is the reference meaning of the pattern for the whole subject, and the evaluator
asks for no more data only where none can change it. -/
theorem like_result [DecidableEq α] [Zero α] (p : Specials α) (pattern : List α) (e : LikeEvaluator α)
    (h : create p pattern = .ok e) (chunks : List (List α)) :
    ∃ ts e' more, tokens p pattern = some ts ∧ e.feed chunks = some (e', more) ∧
      (e'.getResult = true ↔ Matches ts chunks.flatten) ∧
      (more = false → (∀ rest, Matches ts (chunks.flatten ++ rest) ↔ e'.getResult = true) ∧
        ∀ data, e'.processNextChunk data = some (e', false)) := by
  have hcreate := create_spec (p := p) pattern
  cases htokens : tokens p pattern with
  | none => simp [htokens, h] at hcreate
  | some ts =>
    rw [htokens] at hcreate
    obtain ⟨e₁, he₁, hready⟩ := hcreate
    obtain rfl : e = e₁ := Except.ok.inj (h.symm.trans he₁)
    obtain ⟨e', more, hfeed, hresult, hlater⟩ := feed_spec hready.means chunks
    refine ⟨ts, e', more, rfl, hfeed, ?_, fun hmore => ?_⟩
    · rw [hresult, matches_iff]
    · obtain ⟨hsettled, hall⟩ := hlater hmore
      exact ⟨fun rest => by rw [matches_iff, hall], fun data => hsettled.processNextChunk data⟩

theorem like_result_chunks :
    ∃ e, create { escapeChar := 92, useEscape := true, sqlMatchAny := 37, sqlMatchOne := 95 }
    [37, 97, 98, 95, 37] = .ok e ∧
      ∃ ts e' more, tokens { escapeChar := 92, useEscape := true, sqlMatchAny := 37, sqlMatchOne := 95 }
      [37, 97, 98, 95, 37] = some ts ∧
        e.feed [[120, 97], [98], [], [99, 100]] = some (e', more) ∧
        (e'.getResult = true ↔ Matches ts [120, 97, 98, 99, 100]) := by
  obtain ⟨e, he⟩ : ∃ e, create ({ escapeChar := 92, useEscape := true, sqlMatchAny := 37, sqlMatchOne := 95 } : Specials
      Nat) [37, 97, 98, 95, 37] = .ok e := ⟨_, rfl⟩
  obtain ⟨ts, e', more, htokens, hfeed, hresult, -⟩ := like_result _ _ e he [[120, 97], [98], [], [99, 100]]
  exact ⟨e, he, ts, e', more, htokens, hfeed, hresult⟩

end Firebird.Evl
