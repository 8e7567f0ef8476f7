import Firebird.Tree.SortedVector

/-! # The intervals of a time zone

ICU is slow to ask for the offset of a region, so every interval between two transitions that was met is kept, and the
two that were of use last are looked at first. -/

namespace Firebird.Tz

open List

def millisPerMinute : Int := 60000
def millisPerDay : Int := 86400000
def minIcuTimestamp : Int := -719162 * millisPerDay
def maxIcuTimestamp : Int := 2932896 * millisPerDay + 86399999

/-- The dates are milliseconds from 1970 on, the offset is in milliseconds and the displacement in minutes. -/
structure OffsetInterval where
  start : Int
  end_ : Int
  offset : Int
  displacement : Int
deriving DecidableEq, Inhabited

/-- What ICU tells of a region: the offset of an instant, and the transitions around it. -/
structure Zone where
  offset : Int → Int
  transition : Int → Prop
  previousInclusive : Int → Option Int
  next : Int → Option Int
  /-- The offset for a wall time that no instant has. -/
  skipped : Int → Int
  steady {s t : Int} : s ≤ t → (∀ x, transition x → x ≤ s ∨ t < x) → offset s = offset t
  previous_some {t s : Int} : previousInclusive t = some s → transition s ∧ s ≤ t ∧ ∀ x, transition x → x ≤ s ∨ t < x
  previous_none {t : Int} : previousInclusive t = none → ∀ x, transition x → t < x
  next_some {t e : Int} : next t = some e → transition e ∧ t < e ∧ ∀ x, transition x → x ≤ t ∨ e ≤ x
  next_none {t : Int} : next t = none → ∀ x, transition x → x ≤ t
  wholeMinutes (t : Int) : millisPerMinute ∣ offset t
  near (s t : Int) : offset s - offset t < 2 * millisPerDay
  short (t : Int) : -2 ^ 15 * millisPerMinute ≤ offset t ∧ offset t < 2 ^ 15 * millisPerMinute

/-- How far the calls to ICU come in one request. -/
inductive Icu
  | fails
  | noTransitions
  | answers

def recentIntervalsCount : Nat := 2

structure TimeZoneDesc where
  intervals : List OffsetInterval := []
  recentIntervals : List (Option OffsetInterval) := replicate recentIntervalsCount none
  recentIntervalsNext : Nat := 0

namespace TimeZoneDesc

/-- `SortedArray::find` searches as `SortedVector::find` does. -/
def find (desc : TimeZoneDesc) (date : Int) : Bool × Nat :=
  Tree.SortedVector.find default OffsetInterval.start desc.intervals date

def locateInterval (desc : TimeZoneDesc) (icuDate : Int) : Int :=
  if (desc.find icuDate).1 then (desc.find icuDate).2 else (desc.find icuDate).2 - 1

def publishInterval (desc : TimeZoneDesc) (interval : OffsetInterval) : TimeZoneDesc :=
  { desc with
    recentIntervals := desc.recentIntervals.set (desc.recentIntervalsNext % recentIntervalsCount) (some interval)
    recentIntervalsNext := (desc.recentIntervalsNext + 1) % 2 ^ 32 }

/-- The neighbours of the place are tested too, as wall times are searched for by their local value. -/
def findInterval (desc : TimeZoneDesc) (fits : OffsetInterval → Bool)
    (icuDate : Int) : Option OffsetInterval × TimeZoneDesc :=
  match desc.recentIntervals.findSome? fun recent => recent.filter fits with
  | some interval => (some interval, desc)
  | none =>
    let pos := desc.locateInterval icuDate
    match ((desc.intervals.take (pos + 2).toNat).drop (max (pos - 1) 0).toNat).find? fits with
    | some found => (some found, desc.publishInterval found)
    | none => (none, desc)

def add (desc : TimeZoneDesc) (interval : OffsetInterval) : TimeZoneDesc :=
  { desc with intervals := desc.intervals.insertIdx (desc.find interval.start).2 interval }

def toDisplacement (offset : Int) : Int := (offset.tdiv millisPerMinute + 2 ^ 15) % 2 ^ 16 - 2 ^ 15

/-- Without a result an error is raised. -/
def fetchDisplacement (zone : Zone) (icu : Icu) (desc : TimeZoneDesc) (icuDate : Int) : Option (Int × TimeZoneDesc) :=
  let offset := zone.offset icuDate
  let displacement := toDisplacement offset
  match icu with
  | .fails => none
  | .noTransitions => some (displacement, desc)
  | .answers =>
    let start := (zone.previousInclusive icuDate).getD minIcuTimestamp
    let end_ := (zone.next icuDate).getD (maxIcuTimestamp + 1)
    if ¬(start ≤ icuDate ∧ icuDate < end_) then some (displacement, desc)
    else
      let pos := desc.locateInterval icuDate
      if 0 ≤ pos ∧ icuDate < (desc.intervals.getD pos.toNat default).end_ then
        some (displacement, desc.publishInterval (desc.intervals.getD pos.toNat default))
      else
        let interval : OffsetInterval := ⟨start, end_, offset, displacement⟩
        some (displacement, (desc.add interval).publishInterval interval)

def getDisplacement (zone : Zone) (icu : Icu) (desc : TimeZoneDesc) (icuDate : Int) : Option (Int × TimeZoneDesc) :=
  match desc.findInterval (fun interval => decide (interval.start ≤ icuDate ∧ icuDate < interval.end_)) icuDate with
  | (some interval, desc) => some (interval.displacement, desc)
  | (none, desc) => desc.fetchDisplacement zone icu icuDate

def startMargin : Int := 2 * millisPerDay

/-- The displacement of a wall time, if the intervals tell. -/
def getLocalDisplacement (desc : TimeZoneDesc) (localIcuDate : Int) : Option Int × TimeZoneDesc :=
  match desc.findInterval (fun interval =>
      decide (interval.start + startMargin ≤ localIcuDate - interval.offset ∧
        localIcuDate - interval.offset < interval.end_))
    localIcuDate with
  | (some interval, desc) => (some interval.displacement, desc)
  | (none, desc) => (none, desc)

end TimeZoneDesc

/-- The interval is the one between two transitions, as far as dates go. -/
structure Zone.Between (zone : Zone) (i : OffsetInterval) : Prop where
  nonempty : i.start < i.end_
  start : zone.transition i.start ∨ i.start = minIcuTimestamp ∧ ∀ x, zone.transition x → i.end_ ≤ x
  end_ : zone.transition i.end_ ∨ i.end_ = maxIcuTimestamp + 1 ∧ ∀ x, zone.transition x → x ≤ i.start
  inside : ∀ x, zone.transition x → x ≤ i.start ∨ i.end_ ≤ x
  offset : ∀ t, i.start ≤ t → t < i.end_ → zone.offset t = i.offset
  displacement : millisPerMinute * i.displacement = i.offset

variable {zone : Zone} {desc desc' : TimeZoneDesc} {i j : OffsetInterval} {t w : Int} {icu : Icu}
  {A B : List OffsetInterval}

theorem Zone.displacement_eq (zone : Zone) (t : Int) : millisPerMinute * TimeZoneDesc.toDisplacement
    (zone.offset t) = zone.offset t := by
  obtain ⟨minutes, hminutes⟩ := zone.wholeMinutes t
  obtain ⟨hlow, hhigh⟩ := zone.short t
  have hdiv : (zone.offset t).tdiv millisPerMinute = minutes := by
    rw [hminutes]
    exact Int.mul_tdiv_cancel_left _ (by decide)
  rw [TimeZoneDesc.toDisplacement, hdiv]
  unfold millisPerMinute at *
  omega

theorem Zone.Between.eq (hi : zone.Between i) (hj : zone.Between j) (hti : i.start ≤ t ∧ t < i.end_)
    (htj : j.start ≤ t ∧ t < j.end_) : i = j := by
  have hstart : i.start = j.start := by
    rcases hi.start with hx | ⟨hx, hall⟩ <;> rcases hj.start with hy | ⟨hy, hall'⟩
    · have := hi.inside _ hy
      have := hj.inside _ hx
      omega
    · have := hall' _ hx
      omega
    · have := hall _ hy
      omega
    · exact hx.trans hy.symm
  have hend : i.end_ = j.end_ := by
    rcases hi.end_ with hx | ⟨hx, hall⟩ <;> rcases hj.end_ with hy | ⟨hy, hall'⟩
    · have := hi.inside _ hy
      have := hj.inside _ hx
      omega
    · have := hall' _ hx
      omega
    · have := hall _ hy
      omega
    · exact hx.trans hy.symm
  have hoffset : i.offset = j.offset := (hi.offset t hti.1 hti.2).symm.trans (hj.offset t htj.1 htj.2)
  have hdisplacement : i.displacement = j.displacement := by
    have h1 := hi.displacement
    have h2 := hj.displacement
    unfold millisPerMinute at h1 h2
    omega
  cases i
  cases j
  simp only at hstart hend hoffset hdisplacement
  subst hstart hend hoffset hdisplacement
  rfl

theorem Zone.between (zone : Zone) (h : (zone.previousInclusive t).getD minIcuTimestamp ≤ t)
    (h' : t < (zone.next t).getD (maxIcuTimestamp + 1)) :
    zone.Between ⟨(zone.previousInclusive t).getD minIcuTimestamp, (zone.next t).getD (maxIcuTimestamp + 1),
      zone.offset t, TimeZoneDesc.toDisplacement (zone.offset t)⟩ := by
  have hbefore : ∀ x, zone.transition x → x ≤ (zone.previousInclusive t).getD minIcuTimestamp ∨ t < x := by
    cases hprevious : zone.previousInclusive t with
    | none => exact fun x hx => .inr (zone.previous_none hprevious x hx)
    | some s => exact (zone.previous_some hprevious).2.2
  have hbehind : ∀ x, zone.transition x → x ≤ t ∨ (zone.next t).getD (maxIcuTimestamp + 1) ≤ x := by
    cases hnext : zone.next t with
    | none => exact fun x hx => .inl (zone.next_none hnext x hx)
    | some e => exact (zone.next_some hnext).2.2
  refine ⟨h.trans_lt h', ?_, ?_, fun x hx => ?_, fun s hs hs' => ?_, zone.displacement_eq t⟩
  · cases hprevious : zone.previousInclusive t with
    | none => exact .inr ⟨rfl, fun x hx => (hbehind x hx).resolve_left (not_le.mpr (zone.previous_none hprevious x hx))⟩
    | some s => exact .inl (zone.previous_some hprevious).1
  · cases hnext : zone.next t with
    | none => exact .inr ⟨rfl, fun x hx => (hbefore x hx).resolve_right (not_lt.mpr (zone.next_none hnext x hx))⟩
    | some e => exact .inl (zone.next_some hnext).1
  · have := hbefore x hx
    have := hbehind x hx
    dsimp only
    omega
  · dsimp only at hs hs'
    rcases le_total s t with hle | hle
    · refine zone.steady hle fun x hx => ?_
      have := hbefore x hx
      omega
    · refine (zone.steady hle fun x hx => ?_).symm
      have := hbehind x hx
      omega

/-! ### The cache -/

/-- The intervals kept are true ones, in order and disjoint, and so are those used last. -/
structure TimeZoneDesc.Sound (zone : Zone) (desc : TimeZoneDesc) : Prop where
  between : ∀ i ∈ desc.intervals, zone.Between i
  ordered : desc.intervals.Pairwise fun i j => i.end_ ≤ j.start
  recent : ∀ i, some i ∈ desc.recentIntervals → i ∈ desc.intervals

namespace TimeZoneDesc

section
variable (h : desc.Sound zone)
include h

theorem Sound.publish (hi : i ∈ desc.intervals) : (desc.publishInterval i).Sound zone := by
  refine ⟨h.between, h.ordered, fun j hj => ?_⟩
  rcases mem_or_eq_of_mem_set hj with hj | hj
  · exact h.recent j hj
  · exact Option.some.inj hj ▸ hi

theorem Sound.findInterval (fits : OffsetInterval → Bool) (date : Int) :
    (desc.findInterval fits date).2.Sound zone ∧
      ∀ i, (desc.findInterval fits date).1 = some i → zone.Between i ∧ fits i = true := by
  unfold TimeZoneDesc.findInterval
  split
  next interval hrecent =>
    obtain ⟨recent, hmem, hfilter⟩ := exists_of_findSome?_eq_some hrecent
    obtain ⟨hsome, hfits⟩ := Option.filter_eq_some_iff.mp hfilter
    refine ⟨h, fun i hi => ?_⟩
    cases hi
    exact ⟨h.between _ (h.recent _ (hsome ▸ hmem)), hfits⟩
  next =>
    dsimp only
    split
    next found hfound =>
      have hmem : found ∈ desc.intervals := mem_of_mem_take (mem_of_mem_drop (mem_of_find?_eq_some hfound))
      refine ⟨h.publish hmem, fun i hi => ?_⟩
      cases hi
      exact ⟨h.between _ hmem, find?_some hfound⟩
    next => exact ⟨h, nofun⟩

theorem Sound.ascending : desc.intervals.Pairwise fun i j => i.start < j.start :=
  h.ordered.imp_of_mem fun hi _ hij => (h.between _ hi).nonempty.trans_le hij

theorem Sound.locate (t : Int) :
    let pos := desc.locateInterval t
    (0 ≤ pos ∧ t < (desc.intervals.getD pos.toNat default).end_) ∧
    desc.intervals.getD pos.toNat default ∈ desc.intervals ∨
      ¬(0 ≤ pos ∧ t < (desc.intervals.getD pos.toNat default).end_) ∧
        ∃ A B, desc.intervals = A ++ B ∧ (∀ a ∈ A, a.end_ ≤ t) ∧ ∀ b ∈ B, t < b.start := by
  have hordered := h.ordered
  unfold TimeZoneDesc.locateInterval TimeZoneDesc.find
  rcases Lib.exists_split OffsetInterval.start t desc.intervals h.ascending with
    ⟨A, b, B, hsplit, hb, hA, hB⟩ | ⟨A, B, hsplit, hA, hB⟩
  · rw [hsplit, Tree.SortedVector.find_present hA hb hB]
    have hget : (A ++ b :: B).getD A.length default = b := by simp
    simp only [if_true, Int.toNat_natCast, hget]
    have hbmem : b ∈ A ++ b :: B := mem_append_right A (.head B)
    exact .inl ⟨⟨Int.natCast_nonneg _, hb ▸ (h.between b (hsplit ▸ hbmem)).nonempty⟩, hbmem⟩
  · rw [hsplit, Tree.SortedVector.find_absent hA hB]
    rcases eq_nil_or_concat A with rfl | ⟨A, a, rfl⟩
    · exact .inr ⟨by simp, [], B, rfl, nofun, hB⟩
    · rw [concat_eq_append] at *
      have hpos : ((A ++ [a]).length : Int) - 1 = A.length := by simp
      have hget : ((A ++ [a]) ++ B).getD A.length default = a := by simp
      simp only [Bool.false_eq_true, if_false, hpos, Int.toNat_natCast, hget]
      by_cases hlt : t < a.end_
      · exact .inl ⟨⟨Int.natCast_nonneg _, hlt⟩, mem_append_left B (mem_append_right A (.head []))⟩
      · refine .inr ⟨fun hc => hlt hc.2, A ++ [a], B, rfl, fun a' ha' => ?_, hB⟩
        rw [hsplit, append_assoc] at hordered
        rcases mem_append.mp ha' with ha' | ha'
        · have := (pairwise_append.mp hordered).2.2 a' ha' a (.head B)
          have := hA a (mem_append_right A (.head []))
          omega
        · rw [mem_singleton.mp ha']
          exact not_lt.mp hlt

theorem Sound.add (hi : zone.Between i) (hti : i.start ≤ t ∧ t < i.end_) (hsplit : desc.intervals = A ++ B)
    (hA : ∀ a ∈ A, a.end_ ≤ t) (hB : ∀ b ∈ B, t < b.start) : (desc.add i).Sound zone ∧ i ∈ (desc.add i).intervals := by
  have hordered := h.ordered
  have hbetween := h.between
  rw [hsplit] at hordered hbetween
  have hbefore : ∀ a ∈ A, a.end_ ≤ i.start := fun a ha => by
    by_contra hlt
    have hcommon := (hbetween a (mem_append_left B ha)).eq hi (t := max a.start i.start)
    have hne := (hbetween a (mem_append_left B ha)).nonempty
    have := hA a ha
    have heq := hcommon (by omega) (by omega)
    rw [heq] at this
    omega
  have hbehind : ∀ b ∈ B, i.end_ ≤ b.start := fun b hb => by
    by_contra hlt
    have hne := (hbetween b (mem_append_right A hb)).nonempty
    have := hB b hb
    have heq := (hbetween b (mem_append_right A hb)).eq hi (t := b.start) ⟨le_rfl, hne⟩ (by omega)
    rw [heq] at this
    omega
  have hfind : (desc.find i.start).2 = A.length := by
    unfold TimeZoneDesc.find
    rw [hsplit, Tree.SortedVector.find_absent (fun a ha => (hbetween a (mem_append_left B ha)).nonempty.trans_le
      (hbefore a ha)) fun b hb => hi.nonempty.trans_le (hbehind b hb)]
  have hintervals : (desc.add i).intervals = A ++ i :: B := by
    unfold TimeZoneDesc.add
    rw [hfind, hsplit]
    exact Tree.insertIdx_append
  obtain ⟨hA', hB', hcross⟩ := pairwise_append.mp hordered
  have hmem : ∀ j, j ∈ A ++ i :: B ↔ j = i ∨ j ∈ A ++ B := fun j => by
    simp only [mem_append, mem_cons]
    tauto
  refine ⟨⟨fun j hj => ?_, ?_, fun j hj => ?_⟩, hintervals ▸ mem_append_right A (.head B)⟩
  · rw [hintervals, hmem] at hj
    rcases hj with rfl | hj
    · exact hi
    · exact hbetween j hj
  · rw [hintervals]
    refine pairwise_append.mpr ⟨hA', pairwise_cons.mpr ⟨hbehind, hB'⟩, fun a ha b hb => ?_⟩
    rcases mem_cons.mp hb with rfl | hb
    · exact hbefore a ha
    · exact hcross a ha b hb
  · rw [hintervals, hmem]
    exact .inr (hsplit ▸ h.recent j hj)

theorem Sound.fetchDisplacement (icu : Icu) (t : Int) :
    match desc.fetchDisplacement zone icu t with
    | none => icu = .fails
    | some (displacement, desc') => millisPerMinute * displacement = zone.offset t ∧ desc'.Sound zone := by
  have hright := zone.displacement_eq t
  unfold TimeZoneDesc.fetchDisplacement
  cases icu with
  | fails => rfl
  | noTransitions => exact ⟨hright, h⟩
  | answers =>
    dsimp only
    split_ifs with hin hkept
    · rcases h.locate t with ⟨-, hmem⟩ | ⟨hno, -⟩
      · exact ⟨hright, h.publish hmem⟩
      · exact absurd hkept hno
    · rcases h.locate t with ⟨hyes, -⟩ | ⟨-, A, B, hsplit, hA, hB⟩
      · exact absurd hyes hkept
      · obtain ⟨hadd, hmem⟩ := h.add (zone.between hin.1 hin.2) hin hsplit hA hB
        exact ⟨hright, hadd.publish hmem⟩
    · exact ⟨hright, h⟩

theorem Sound.getDisplacement (icu : Icu) (t : Int) :
    match desc.getDisplacement zone icu t with
    | none => icu = .fails
    | some (displacement, desc') => millisPerMinute * displacement = zone.offset t ∧ desc'.Sound zone := by
  unfold TimeZoneDesc.getDisplacement
  have hfind := h.findInterval (fun interval => decide (interval.start ≤ t ∧ t < interval.end_)) t
  rcases heq : desc.findInterval (fun interval => decide (interval.start ≤ t ∧ t < interval.end_))
      t with ⟨_ | interval, desc'⟩
  · rw [heq] at hfind
    exact hfind.1.fetchDisplacement icu t
  · rw [heq] at hfind
    obtain ⟨hsound, hfound⟩ := hfind
    obtain ⟨hi, hfits⟩ := hfound interval rfl
    obtain ⟨hstart, hend⟩ := of_decide_eq_true hfits
    exact ⟨hi.displacement.trans (hi.offset t hstart hend).symm, hsound⟩

end

end TimeZoneDesc

/-- The offset that ICU takes for a wall time: the one it has when it occurs first. -/
def Zone.Chooses (zone : Zone) (w offset : Int) : Prop :=
  (∃ u, u + zone.offset u = w ∧ (∀ u', u' + zone.offset u' = w → u ≤ u') ∧ offset = zone.offset u) ∨
    (∀ u, u + zone.offset u ≠ w) ∧ offset = zone.skipped w

theorem Zone.Between.chooses (hi : zone.Between i) (hmargin : i.start + TimeZoneDesc.startMargin ≤ w - i.offset)
    (hend : w - i.offset < i.end_) : zone.Chooses w i.offset := by
  have hstart : i.start ≤ w - i.offset := by
    unfold TimeZoneDesc.startMargin millisPerDay at hmargin
    omega
  have hoffset := hi.offset _ hstart hend
  refine .inl ⟨w - i.offset, by omega, fun u' hu' => ?_, hoffset.symm⟩
  by_contra hlt
  have hnear := zone.near u' (w - i.offset)
  unfold TimeZoneDesc.startMargin at hmargin
  have hoffset' := hi.offset u' (by omega) (by omega)
  omega

namespace TimeZoneDesc

theorem Sound.getLocalDisplacement (h : desc.Sound zone) (w : Int) :
    (desc.getLocalDisplacement w).2.Sound zone ∧
      ∀ displacement, (desc.getLocalDisplacement w).1 = some displacement →
      zone.Chooses w (millisPerMinute * displacement) := by
  unfold TimeZoneDesc.getLocalDisplacement
  obtain ⟨hsound, hfound⟩ := h.findInterval (fun interval =>
    decide (interval.start + startMargin ≤ w - interval.offset ∧ w - interval.offset < interval.end_)) w
  split
  next interval desc' heq =>
    rw [heq] at hsound hfound
    obtain ⟨hi, hfits⟩ := hfound interval rfl
    obtain ⟨hstart, hend⟩ := of_decide_eq_true hfits
    refine ⟨hsound, fun displacement hd => ?_⟩
    cases hd
    rw [hi.displacement]
    exact hi.chooses hstart hend
  next desc' heq =>
    rw [heq] at hsound
    exact ⟨hsound, nofun⟩

inductive Call
  | getDisplacement (icu : Icu) (icuDate : Int)
  | getLocalDisplacement (localIcuDate : Int)

def step (zone : Zone) (desc : TimeZoneDesc) : Call → TimeZoneDesc
  | .getDisplacement icu icuDate => ((desc.getDisplacement zone icu icuDate).map Prod.snd).getD desc
  | .getLocalDisplacement localIcuDate => (desc.getLocalDisplacement localIcuDate).2

def run (zone : Zone) (calls : List Call) : TimeZoneDesc := calls.foldl (step zone) {}

theorem Sound.step (h : desc.Sound zone) (call : Call) : (desc.step zone call).Sound zone := by
  cases call with
  | getDisplacement icu t =>
    have hget := h.getDisplacement icu t
    change (((desc.getDisplacement zone icu t).map Prod.snd).getD desc).Sound zone
    cases heq : desc.getDisplacement zone icu t with
    | none => exact h
    | some answer =>
      rw [heq] at hget
      exact hget.2
  | getLocalDisplacement w => exact (h.getLocalDisplacement w).1

theorem Sound.run (h : desc.Sound zone) (calls : List Call) :
    (calls.foldl (TimeZoneDesc.step zone) desc).Sound zone := by
  induction calls generalizing desc with
  | nil => exact h
  | cons call calls ih => exact ih (h.step call)

theorem sound_empty : Sound zone {} :=
  ⟨nofun, .nil, fun _ hi => nomatch eq_of_mem_replicate hi⟩

theorem run_transparent (zone : Zone) (calls : List Call) :
    (run zone calls).Sound zone ∧
      (∀ icu t, match (run zone calls).getDisplacement zone icu t with
        | none => icu = .fails
        | some (displacement, _) => millisPerMinute * displacement = zone.offset t) ∧
      ∀ w displacement, ((run zone calls).getLocalDisplacement w).1 = some displacement →
        zone.Chooses w (millisPerMinute * displacement) := by
  have h : (run zone calls).Sound zone := sound_empty.run calls
  refine ⟨h, fun icu t => ?_, fun w => (h.getLocalDisplacement w).2⟩
  have hget := h.getDisplacement icu t
  split
  next heq =>
    rw [heq] at hget
    exact hget
  next displacement desc' heq =>
    rw [heq] at hget
    exact hget.1

/-! ### A year of a zone -/

def springForward : Int := 1711846800000
def fallBack : Int := 1729990800000

/-- An hour ahead of UTC, and two hours between its transitions: the first one skips an hour and the second repeats one.
-/
def centralEurope : Zone where
  offset t := if springForward ≤ t ∧ t < fallBack then 7200000 else 3600000
  transition x := x = springForward ∨ x = fallBack
  previousInclusive t := if fallBack ≤ t then some fallBack else if springForward ≤ t then some springForward else none
  next t := if t < springForward then some springForward else if t < fallBack then some fallBack else none
  skipped _ := 3600000
  steady {s t} hle hno := by
    have hspring := hno springForward (.inl rfl)
    have hfall := hno fallBack (.inr rfl)
    unfold springForward fallBack at *
    grind
  previous_some {t s} h := by
    unfold springForward fallBack at *
    grind
  previous_none {t} h := by
    unfold springForward fallBack at *
    grind
  next_some {t e} h := by
    unfold springForward fallBack at *
    grind
  next_none {t} h := by
    unfold springForward fallBack at *
    grind
  wholeMinutes t := by
    split
    · exact ⟨120, rfl⟩
    · exact ⟨60, rfl⟩
  near s t := by
    unfold millisPerDay
    grind
  short t := by
    unfold millisPerMinute
    grind

/-- Half past two in the night in which the hour is repeated. -/
def repeatedTime : Int := fallBack + 5400000

/-- Half past two in the night in which the hour is skipped. -/
def skippedTime : Int := springForward + 5400000

def oneYear : List Call :=
  [.getDisplacement .answers (springForward + 1), .getLocalDisplacement repeatedTime, .getDisplacement .fails 0,
    .getDisplacement .answers 0, .getDisplacement .answers fallBack, .getLocalDisplacement skippedTime]

theorem run_transparent_oneYear : (run centralEurope oneYear).intervals.length = 3 ∧
    ((run centralEurope oneYear).getLocalDisplacement skippedTime).1 = none ∧
    ((run centralEurope oneYear).getLocalDisplacement repeatedTime).1 = some 120 ∧
    centralEurope.Chooses repeatedTime (millisPerMinute * 120) := by
  have hanswer : ((run centralEurope oneYear).getLocalDisplacement repeatedTime).1 = some 120 := by decide +kernel
  exact ⟨by decide +kernel, by decide +kernel, hanswer, (run_transparent centralEurope oneYear).2.2
    repeatedTime 120 hanswer⟩

end TimeZoneDesc

end Firebird.Tz
