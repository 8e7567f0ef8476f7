import Firebird.Cch.MarkIterator
import Firebird.Cch.WriteBuffer

/-! # Flushing pages -/

namespace Firebird.Cch
open Prod Lib Function List

structure FlushFlags where
  all : Bool
  release : Bool

namespace Cache

def addRef (c : Cache) (b : BdbId) : Cache := c.setBdb b { c.bdb b with useCount := (c.bdb b).useCount + 1 }

def release (c : Cache) (b : BdbId) : Cache := c.setBdb b { c.bdb b with useCount := (c.bdb b).useCount - 1 }

/-- `PAGE_LOCK_RELEASE`, if the flush releases locks. -/
def releaseLock (c : Cache) (flags : FlushFlags) (b : BdbId) : Cache :=
  if flags.release then c.setBdb b { c.bdb b with locked := false } else c

end Cache

def PageNumber.le (a b : PageNumber) : Bool :=
  a.pageSpaceId < b.pageSpaceId || a.pageSpaceId == b.pageSpaceId && a.pageNum ≤ b.pageNum

section
variable (io : Cache → BdbId → Bool) (flags : FlushFlags)

def flushBuffer (writeAll : Bool) (fuel : Nat) (c : Cache) (b : BdbId) :
    Option (Except FlushError (Cache × Option Bool)) :=
  let c := c.addRef b
  let c := if writeAll then c else c.purgePrecedence b
  if writeAll || (c.higher b).isEmpty then
    if flags.release && 1 < (c.bdb b).useCount then some (.error .pageInUse)
    else if !flags.all || (c.bdb b).dirty || (c.bdb b).dbDirty then
      match writeBuffer io flags.release fuel c b true with
      | none => none
      | some (.error e) => some (.error e)
      | some (.ok (.failed, _)) => some (.error .writeFailed)
      | some (.ok (_, c)) => some (.ok ((c.releaseLock flags b).release b, some true))
    else some (.ok ((c.releaseLock flags b).release b, some false))
  else some (.ok (c.release b, none))

def flushPass (writeAll : Bool) : Nat → MarkIterator BdbId → Cache → Bool → List (BdbId × Bool) →
    Option (Except FlushError (MarkIterator BdbId × Cache × Bool × List (BdbId × Bool)))
  | 0, _, _, _, _ => none
  | fuel + 1, it, c, found, done =>
    if it.isEof then some (.ok (it, c, found, done))
    else
      match it.item it.mCurr with
      | none => flushPass writeAll fuel it.next c found done
      | some b =>
        match flushBuffer io flags writeAll fuel c b with
        | none => none
        | some (.error e) => some (.error e)
        | some (.ok (c, some written)) => flushPass writeAll fuel it.mark.next c true (done ++ [(b, written)])
        | some (.ok (c, none)) => flushPass writeAll fuel it.next c found done

def flushLoop : Nat → MarkIterator BdbId → Cache → Bool → List (BdbId × Bool) →
    Option (Except FlushError (Cache × List (BdbId × Bool)))
  | 0, _, _, _, _ => none
  | fuel + 1, it, c, writeAll, done =>
    if it.isEmpty then some (.ok (c, done))
    else
      match flushPass io flags writeAll fuel it c false done with
      | none => none
      | some (.error e) => some (.error e)
      -- when nothing was found, write all
      | some (.ok (it, c, found, done)) => flushLoop fuel it.rewind c (writeAll || !found) done

def flushPages (fuel : Nat) (c : Cache) (buffers : List BdbId) :
    Option (Except FlushError (Cache × List (BdbId × Bool))) :=
  flushLoop io flags fuel (.create (buffers.mergeSort fun a b => (c.bdb a).page.le (c.bdb b).page)) c false []

end

variable {io : Cache → BdbId → Bool} {flags : FlushFlags} {c c' c'' : Cache} {b : BdbId} {writeAll : Bool}

/-- Only dirty flags, page locks and blocks have changed, and no block has come. -/
structure Flushed (c c' : Cache) : Prop where
  blocks : c'.precedences.Sublist c.precedences
  bdb : ∀ b, (c'.bdb b).marked = (c.bdb b).marked ∧ (c'.bdb b).faked = (c.bdb b).faked ∧
    (c'.bdb b).useCount = (c.bdb b).useCount
  clean : ∀ b, ((c'.bdb b).dirty = true → (c.bdb b).dirty = true) ∧ ((c'.bdb b).dbDirty = true →
    (c.bdb b).dbDirty = true)

theorem Flushed.refl (c : Cache) : Flushed c c := ⟨Sublist.refl _, fun _ => ⟨rfl, rfl, rfl⟩, fun _ => ⟨id, id⟩⟩

theorem Flushed.trans (h₁ : Flushed c c') (h₂ : Flushed c' c'') : Flushed c c'' where
  blocks := h₂.blocks.trans h₁.blocks
  bdb b := by
    obtain ⟨marked₁, faked₁, use₁⟩ := h₁.bdb b
    obtain ⟨marked₂, faked₂, use₂⟩ := h₂.bdb b
    exact ⟨marked₂.trans marked₁, faked₂.trans faked₁, use₂.trans use₁⟩
  clean b := by
    obtain ⟨dirty₁, dbDirty₁⟩ := h₁.clean b
    obtain ⟨dirty₂, dbDirty₂⟩ := h₂.clean b
    exact ⟨fun h => dirty₁ (dirty₂ h), fun h => dbDirty₁ (dbDirty₂ h)⟩

theorem acyclic_of_sublist (h : c'.precedences.Sublist c.precedences) (hacyclic : Acyclic (Before c)) :
    Acyclic (Before c') := by
  refine hacyclic.mono ?_
  rintro hi low ⟨p, hp, hprops⟩
  exact ⟨p, h.subset hp, hprops⟩

theorem Flushed.acyclic (h : Flushed c c') (hacyclic : Acyclic (Before c)) : Acyclic (Before c') :=
  acyclic_of_sublist h.blocks hacyclic

def Cause (io : Cache → BdbId → Bool) (flags : FlushFlags) (c : Cache) : FlushError → Prop
  | .pageInUse => flags.release = true ∧ ∃ b, 0 < (c.bdb b).useCount
  | .markedForUpdate => ∃ b, (c.bdb b).marked = true ∧ (c.bdb b).faked = false
  | .writeFailed => ∃ c b, io c b = false

theorem Cause.of_flushed {e : FlushError} (h : Flushed c c') (hcause : Cause io flags c' e) : Cause io flags c e := by
  cases e with
  | pageInUse =>
    obtain ⟨hrelease, b, hb⟩ := hcause
    exact ⟨hrelease, b, (h.bdb b).2.2 ▸ hb⟩
  | markedForUpdate =>
    obtain ⟨b, hmarked, hfaked⟩ := hcause
    exact ⟨b, (h.bdb b).1 ▸ hmarked, (h.bdb b).2.1 ▸ hfaked⟩
  | writeFailed => exact hcause

/-- While a buffer is referenced: its use count is one more. -/
structure Referenced (c c' : Cache) (b : BdbId) : Prop where
  blocks : c'.precedences.Sublist c.precedences
  bdb : ∀ b', (c'.bdb b').marked = (c.bdb b').marked ∧ (c'.bdb b').faked = (c.bdb b').faked ∧
    (c'.bdb b').useCount = (c.bdb b').useCount + if b' = b then 1 else 0
  clean : ∀ b', ((c'.bdb b').dirty = true → (c.bdb b').dirty = true) ∧ ((c'.bdb b').dbDirty = true →
    (c.bdb b').dbDirty = true)

theorem Referenced.addRef (c : Cache) (b : BdbId) : Referenced c (c.addRef b) b := by
  refine ⟨Sublist.refl _, fun b' => ?_, fun b' => ?_⟩
  all_goals
    by_cases hb : b' = b
    · subst hb
      simp [Cache.addRef, Cache.setBdb]
    · simp [Cache.addRef, Cache.setBdb, hb]

section
variable (h : Referenced c c' b)
include h

theorem Referenced.written (hwritten : Written c' c'') : Referenced c c'' b where
  blocks := hwritten.blocks.trans h.blocks
  bdb b' := by
    obtain ⟨marked₁, faked₁, use₁⟩ := h.bdb b'
    obtain ⟨-, marked₂, faked₂, use₂, -⟩ := hwritten.bdb b'
    exact ⟨marked₂.trans marked₁, faked₂.trans faked₁, use₂.trans use₁⟩
  clean b' := by
    obtain ⟨dirty₁, dbDirty₁⟩ := h.clean b'
    obtain ⟨dirty₂, dbDirty₂⟩ := hwritten.clean b'
    exact ⟨fun h => dirty₁ (dirty₂ h), fun h => dbDirty₁ (dbDirty₂ h)⟩

theorem Referenced.purged : Referenced c (if writeAll then c' else c'.purgePrecedence b) b := by
  cases writeAll with
  | true => exact h
  | false => exact h.written (.of_blocks filter_sublist)

theorem Referenced.releaseLock (flags : FlushFlags) : Referenced c (c'.releaseLock flags b) b := by
  rw [Cache.releaseLock]
  split
  · refine ⟨h.blocks, fun b' => ?_, fun b' => ?_⟩
    · by_cases hb : b' = b
      · subst hb
        simpa [Cache.setBdb] using h.bdb b'
      · simpa [Cache.setBdb, update_of_ne hb] using h.bdb b'
    · by_cases hb : b' = b
      · subst hb
        simpa [Cache.setBdb] using h.clean b'
      · simpa [Cache.setBdb, update_of_ne hb] using h.clean b'
  · exact h

theorem Referenced.release : Flushed c (c'.release b) := by
  refine ⟨h.blocks, fun b' => ?_, fun b' => ?_⟩
  · obtain ⟨hmarked, hfaked, huse⟩ := h.bdb b'
    by_cases hb : b' = b
    · subst hb
      simp [Cache.release, Cache.setBdb, hmarked, hfaked, huse]
    · simpa [Cache.release, Cache.setBdb, hb] using h.bdb b'
  · by_cases hb : b' = b
    · subst hb
      simpa [Cache.release, Cache.setBdb] using h.clean b'
    · simpa [Cache.release, Cache.setBdb, update_of_ne hb] using h.clean b'

end

def Skippable (flags : FlushFlags) (c : Cache) (b : BdbId) : Prop :=
  flags.all = true ∧ (c.bdb b).dirty = false ∧ (c.bdb b).dbDirty = false

theorem Skippable.of_flushed (h : Flushed c c') (hskip : Skippable flags c b) : Skippable flags c' b := by
  obtain ⟨hall, hdirty, hdbDirty⟩ := hskip
  obtain ⟨dirty, dbDirty⟩ := h.clean b
  rw [hdirty] at dirty
  rw [hdbDirty] at dbDirty
  refine ⟨hall, ?_, ?_⟩
  · exact Bool.eq_false_iff.mpr fun h => nomatch dirty h
  · exact Bool.eq_false_iff.mpr fun h => nomatch dbDirty h

theorem Skippable.release (h : Skippable flags c b) : Skippable flags ((c.releaseLock flags b).release b) b := by
  obtain ⟨hall, hdirty, hdbDirty⟩ := h
  cases hrelease : flags.release <;>
    simp [Skippable, Cache.release, Cache.releaseLock, Cache.setBdb, hrelease, hall, hdirty, hdbDirty]

def BufferOutcome (io : Cache → BdbId → Bool) (flags : FlushFlags) (writeAll : Bool) (c : Cache) (b : BdbId) :
    Except FlushError (Cache × Option Bool) → Prop
  | .error e => Cause io flags c e
  | .ok (c', done) => Flushed c c' ∧ (done = some false → Skippable flags c' b) ∧ (writeAll = true → done ≠ none)

/-- After `write_buffer`: release the buffer, unless the disk has failed. -/
def afterWrite (flags : FlushFlags) (b : BdbId) :
    Except FlushError (WriteStatus × Cache) → Except FlushError (Cache × Option Bool)
  | .error e => .error e
  | .ok (.failed, _) => .error .writeFailed
  | .ok (_, c) => .ok ((c.releaseLock flags b).release b, some true)

theorem outcome_afterWrite {result : Except FlushError (WriteStatus × Cache)} (h : Referenced c c' b)
    (hout : Outcome io c' b result) : BufferOutcome io flags writeAll c b (afterWrite flags b result) := by
  rcases result with e | ⟨status, c₁⟩
  · obtain ⟨rfl, b', hmarked, hfaked⟩ := hout
    obtain ⟨marked, faked, -⟩ := h.bdb b'
    exact ⟨b', marked ▸ hmarked, faked ▸ hfaked⟩
  · obtain ⟨hwritten, hfailed, -⟩ := hout
    have hreleased := ((h.written hwritten).releaseLock flags).release
    cases status with
    | failed => exact hfailed rfl
    | written | higherWritten => exact ⟨hreleased, nofun, nofun⟩

theorem flushBuffer_ends (hacyclic : Acyclic (Before c)) (b : BdbId) (writeAll : Bool) :
    Returns (fun fuel => flushBuffer io flags writeAll fuel c b) (BufferOutcome io flags writeAll c b) := by
  have href : Referenced c (if writeAll then c.addRef b else (c.addRef b).purgePrecedence b) b :=
    (Referenced.addRef c b).purged
  simp only [flushBuffer]
  generalize (if writeAll = true then c.addRef b else (c.addRef b).purgePrecedence b) = c₁ at href
  by_cases hwrite : (writeAll || (c₁.higher b).isEmpty) = true
  · simp only [hwrite, if_true]
    by_cases huse : (flags.release && decide (1 < (c₁.bdb b).useCount)) = true
    · simp only [huse, if_true]
      obtain ⟨hrelease, hlt⟩ := Bool.and_eq_true_iff.mp huse
      obtain ⟨-, -, hcount⟩ := href.bdb b
      rw [if_pos rfl] at hcount
      have hlt := of_decide_eq_true hlt
      exact .pure ⟨hrelease, b, by omega⟩
    · simp only [huse]
      by_cases hdirty : (!flags.all || (c₁.bdb b).dirty || (c₁.bdb b).dbDirty) = true
      · have hends : Returns (fun fuel => writeBuffer io flags.release fuel c₁ b true) (Outcome io c₁ b) :=
          writeBuffer_ends (acyclic_of_sublist href.blocks hacyclic) b true
        refine (hends.bind fun result hout => .pure (outcome_afterWrite href hout)).congr fun fuel => ?_
        simp only [hdirty, if_true]
        rcases writeBuffer io flags.release fuel c₁ b true with _ | ⟨e | ⟨status, c₂⟩⟩
        · rfl
        · rfl
        · cases status <;> rfl
      · simp only [hdirty]
        have hskip : Skippable flags c₁ b := by simpa [Skippable, and_assoc] using hdirty
        exact .pure ⟨(href.releaseLock flags).release, fun _ => hskip.release, fun _ => nofun⟩
  · simp only [hwrite]
    refine .pure ⟨href.release, nofun, fun hall => ?_⟩
    rw [hall] at hwrite
    exact absurd rfl hwrite

/-! ### A pass, and pass after pass -/

structure Done (flags : FlushFlags) (c : Cache) (done new done' : List (BdbId × Bool)) : Prop where
  eq : done' = done ++ new
  skipped : ∀ b, (b, false) ∈ new → Skippable flags c b

theorem Done.nil (flags : FlushFlags) (c : Cache) (done : List (BdbId × Bool)) : Done flags c done [] done :=
  ⟨(append_nil done).symm, nofun⟩

theorem Done.cons {written : Bool} {done new done' : List (BdbId × Bool)}
    (h : Done flags c (done ++ [(b, written)]) new done')
    (hskipped : some written = some false → Skippable flags c b) : Done flags c done ((b, written) :: new) done' := by
  refine ⟨by rw [h.eq, append_assoc, singleton_append], fun b' hmem => ?_⟩
  rcases mem_cons.mp hmem with heq | hmem
  · obtain ⟨rfl, rfl⟩ := mk.inj heq
    exact hskipped rfl
  · exact h.skipped b' hmem

theorem Done.append {done new done' new' done'' : List (BdbId × Bool)} (hflushed : Flushed c c')
    (h : Done flags c done new done') (h' : Done flags c' done' new' done'') :
    Done flags c' done (new ++ new') done'' := by
  refine ⟨by rw [h'.eq, h.eq, append_assoc], fun b hmem => ?_⟩
  rcases mem_append.mp hmem with hmem | hmem
  · exact (h.skipped b hmem).of_flushed hflushed
  · exact h'.skipped b hmem

def PassOutcome (io : Cache → BdbId → Bool) (flags : FlushFlags) (writeAll : Bool) (kept items : List BdbId) (c : Cache)
    (found : Bool) (done : List (BdbId × Bool)) :
    Except FlushError (MarkIterator BdbId × Cache × Bool × List (BdbId × Bool)) → Prop
  | .error e => Cause io flags c e
  | .ok (it', c', found', done') => Flushed c c' ∧ ∃ new left, it'.AtEnd (kept ++ left) ∧ Done flags c' done new done' ∧
      (new.map fst ++ left).Perm items ∧ found' = (found || !new.isEmpty) ∧ (writeAll = true → left = [])

variable {it : MarkIterator BdbId} {kept items rest : List BdbId} {x : BdbId} {found : Bool}
  {done : List (BdbId × Bool)}

def afterBuffer (io : Cache → BdbId → Bool) (flags : FlushFlags) (writeAll : Bool) (it : MarkIterator BdbId) (b : BdbId)
    (found : Bool) (done : List (BdbId × Bool)) (fuel : Nat) :
    Except FlushError (Cache × Option Bool) →
    Option (Except FlushError (MarkIterator BdbId × Cache × Bool × List (BdbId × Bool)))
  | .error e => some (.error e)
  | .ok (c, some written) => flushPass io flags writeAll fuel it.mark.next c true (done ++ [(b, written)])
  | .ok (c, none) => flushPass io flags writeAll fuel it.next c found done

theorem flushPass_of_at (h : it.At kept x rest) (fuel : Nat) :
    flushPass io flags writeAll (fuel + 1) it c found done =
      (flushBuffer io flags writeAll fuel c x).bind (afterBuffer io flags writeAll it x found done fuel) := by
  have hitem : it.item it.mCurr = some x := h.item
  simp only [flushPass, h.not_isEof, Bool.false_eq_true, if_false, hitem]
  rcases flushBuffer io flags writeAll fuel c x with _ | ⟨e | ⟨c₁, _ | written⟩⟩ <;> rfl

theorem PassOutcome.of_done {written : Bool}
    {result : Except FlushError (MarkIterator BdbId × Cache × Bool × List (BdbId × Bool))}
    (hflushed : Flushed c c') (hskipped : some written = some false → Skippable flags c' x)
    (h : PassOutcome io flags writeAll kept rest c' true (done ++ [(x, written)]) result) :
    PassOutcome io flags writeAll kept (x :: rest) c found done result := by
  rcases result with e | ⟨it', c₂, found', done'⟩
  · exact Cause.of_flushed hflushed h
  · obtain ⟨hflushed', new, left, hend, hdone, hperm, hfound, hall⟩ := h
    exact ⟨hflushed.trans hflushed', (x, written) :: new, left, hend,
      hdone.cons fun h => (hskipped h).of_flushed hflushed', hperm.cons x,
      by simpa using hfound, hall⟩

theorem PassOutcome.of_left {result : Except FlushError (MarkIterator BdbId × Cache × Bool × List (BdbId × Bool))}
    (hflushed : Flushed c c') (hsome : writeAll = false)
    (h : PassOutcome io flags writeAll (kept ++ [x]) rest c' found done result) :
    PassOutcome io flags writeAll kept (x :: rest) c found done result := by
  rcases result with e | ⟨it', c₂, found', done'⟩
  · exact Cause.of_flushed hflushed h
  · obtain ⟨hflushed', new, left, hend, hdone, hperm, hfound, -⟩ := h
    refine ⟨hflushed.trans hflushed', new, x :: left, ?_, hdone, ?_, hfound, ?_⟩
    · rwa [append_assoc] at hend
    · exact perm_middle.trans (hperm.cons x)
    · rw [hsome]
      nofun

theorem flushPass_ends_of_eof (h : it.AtEnd kept) (found : Bool) (done : List (BdbId × Bool)) :
    Returns (fun fuel => flushPass io flags writeAll fuel it c found done)
      (PassOutcome io flags writeAll kept [] c found done) := by
  have hout : PassOutcome io flags writeAll kept [] c found done (.ok (it, c, found, done)) :=
    ⟨.refl c, [], [], by rwa [append_nil], .nil flags c done, .nil, by simp, fun _ => rfl⟩
  refine (Returns.pure hout).succ fun fuel => ?_
  rw [flushPass, if_pos h.eof]

theorem flushPass_ends (h : it.At kept x rest) (hacyclic : Acyclic (Before c)) (found : Bool)
    (done : List (BdbId × Bool)) : Returns (fun fuel => flushPass io flags writeAll fuel it c found done)
      (PassOutcome io flags writeAll kept (x :: rest) c found done) := by
  induction rest generalizing it kept x c found done with
  | nil =>
    refine ((flushBuffer_ends hacyclic x writeAll).bind fun result hout => ?_).succ (flushPass_of_at h)
    rcases result with e | ⟨c', _ | written⟩
    · exact .pure hout
    · obtain ⟨hflushed, -, hall⟩ := hout
      have hsome : writeAll = false := Bool.eq_false_iff.mpr fun hwriteAll => hall hwriteAll rfl
      exact (flushPass_ends_of_eof h.next_kept_last found done).mono fun _ => .of_left hflushed hsome
    · obtain ⟨hflushed, hskipped, -⟩ := hout
      exact (flushPass_ends_of_eof h.next_mark_last true _).mono fun _ => .of_done hflushed hskipped
  | cons y rest ih =>
    refine ((flushBuffer_ends hacyclic x writeAll).bind fun result hout => ?_).succ (flushPass_of_at h)
    rcases result with e | ⟨c', _ | written⟩
    · exact .pure hout
    · obtain ⟨hflushed, -, hall⟩ := hout
      have hsome : writeAll = false := Bool.eq_false_iff.mpr fun hwriteAll => hall hwriteAll rfl
      exact (ih h.next_kept (hflushed.acyclic hacyclic) found done).mono fun _ => .of_left hflushed hsome
    · obtain ⟨hflushed, hskipped, -⟩ := hout
      exact (ih h.next_mark (hflushed.acyclic hacyclic) true _).mono fun _ => .of_done hflushed hskipped

def LoopOutcome (io : Cache → BdbId → Bool) (flags : FlushFlags) (items : List BdbId) (c : Cache)
    (done : List (BdbId × Bool)) : Except FlushError (Cache × List (BdbId × Bool)) → Prop
  | .error e => Cause io flags c e
  | .ok (c', done') => Flushed c c' ∧ ∃ new, Done flags c' done new done' ∧ (new.map fst).Perm items

def afterPass (io : Cache → BdbId → Bool) (flags : FlushFlags) (writeAll : Bool) (fuel : Nat) :
    Except FlushError (MarkIterator BdbId × Cache × Bool × List (BdbId × Bool)) →
      Option (Except FlushError (Cache × List (BdbId × Bool)))
  | .error e => some (.error e)
  | .ok (it, c, found, done) => flushLoop io flags fuel it.rewind c (writeAll || !found) done

theorem flushLoop_of_at (h : it.At [] x rest) (fuel : Nat) :
    flushLoop io flags (fuel + 1) it c writeAll done =
      (flushPass io flags writeAll fuel it c false done).bind (afterPass io flags writeAll fuel) := by
  simp only [flushLoop, h.not_isEmpty, Bool.false_eq_true, if_false]
  rcases flushPass io flags writeAll fuel it c false done with _ | ⟨e | ⟨it', c', found', done'⟩⟩ <;> rfl

theorem LoopOutcome.of_pass {new done' : List (BdbId × Bool)} {left : List BdbId}
    {result : Except FlushError (Cache × List (BdbId × Bool))} (hflushed : Flushed c c')
    (hdone : Done flags c' done new done')
    (hperm : (new.map fst ++ left).Perm items) (h : LoopOutcome io flags left c' done' result) :
    LoopOutcome io flags items c done result := by
  rcases result with e | ⟨c₂, done₂⟩
  · exact Cause.of_flushed hflushed h
  · obtain ⟨hflushed', new', hdone', hperm'⟩ := h
    refine ⟨hflushed.trans hflushed', new ++ new', hdone.append hflushed' hdone', ?_⟩
    rw [map_append]
    exact (hperm'.append_left _).trans hperm

theorem flushLoop_ends (h : it.Ready items) (hacyclic : Acyclic (Before c)) (writeAll : Bool)
    (done : List (BdbId × Bool)) :
    Returns (fun fuel => flushLoop io flags fuel it c writeAll done) (LoopOutcome io flags items c done) := by
  induction hk : 2 * items.length + (if writeAll then 0 else 1) using Nat.strong_induction_on
    generalizing it items c writeAll done with
  | _ k ih =>
    cases items with
    | nil =>
      have hout : LoopOutcome io flags [] c done (.ok (c, done)) := ⟨.refl c, [], .nil flags c done, .nil⟩
      have hempty : it.isEmpty = true := h
      refine (Returns.pure hout).succ fun fuel => ?_
      rw [flushLoop, if_pos hempty]
    | cons x rest =>
      have hat : it.At [] x rest := h
      refine ((flushPass_ends hat hacyclic false done).bind fun result hout => ?_).succ (flushLoop_of_at hat)
      rcases result with e | ⟨it', c', found', done'⟩
      · exact .pure hout
      obtain ⟨hflushed, new, left, hend, hdone, hperm, hfound, hall⟩ := hout
      have hlength := hperm.length_eq
      rw [length_append, length_map, length_cons] at hlength
      refine (ih _ ?_ hend.ready_rewind (hflushed.acyclic hacyclic) _ done' rfl).mono fun _ =>
        .of_pass hflushed hdone hperm
      rw [nil_append, ← hk, length_cons, hfound]
      cases new with
      | nil =>
        rw [length_nil, Nat.zero_add] at hlength
        have hsome : writeAll = false := by
          refine Bool.eq_false_iff.mpr fun hwriteAll => ?_
          rw [hall hwriteAll] at hlength
          exact nomatch hlength
        simp [hsome, hlength]
      | cons first new =>
        rw [length_cons] at hlength
        split <;> split <;> omega

/-- Flushing distinct buffers ends, if no cycle of blocks is in force. It stops only for a cause; else every buffer
    has been written, or skipped as clean, exactly once, and all are released. -/
theorem flushPages_each_once (io : Cache → BdbId → Bool) (flags : FlushFlags) (c : Cache) (buffers : List BdbId)
    (hdistinct : buffers.Nodup) (hacyclic : Acyclic (Before c)) :
    (∃ n result, (∀ fuel, n ≤ fuel → flushPages io flags fuel c buffers = some result) ∧
      match result with
      | .error e => Cause io flags c e
      | .ok (c', done) => (∀ b, (done.map fst).count b = if b ∈ buffers then 1 else 0) ∧
          (∀ b, (b, false) ∈ done → Skippable flags c' b) ∧ ∀ b, (c'.bdb b).useCount = (c.bdb b).useCount) ∧
      ∀ ps, ((MarkIterator.create buffers).passes ps).1 = MarkIterator.visits buffers ps ∧
        (((MarkIterator.create buffers).passes ps).2.isEmpty = true ↔ ∀ b ∈ buffers, ∃ p ∈ ps, p b = true) := by
  refine ⟨?_, MarkIterator.passes_spec (MarkIterator.ready_create buffers)⟩
  set sorted := buffers.mergeSort fun a b => (c.bdb a).page.le (c.bdb b).page
  have hends : Returns (fun fuel => flushPages io flags fuel c buffers) (LoopOutcome io flags sorted c []) :=
    flushLoop_ends (MarkIterator.ready_create sorted) hacyclic false []
  obtain ⟨n, result, hrun, hout⟩ := hends
  refine ⟨n, result, hrun, ?_⟩
  rcases result with e | ⟨c', done⟩
  · exact hout
  · obtain ⟨hflushed, new, hdone, hperm⟩ := hout
    obtain rfl : done = new := hdone.eq
    refine ⟨fun b => ?_, hdone.skipped, fun b => (hflushed.bdb b).2.2⟩
    rw [(hperm.trans (mergeSort_perm _ _)).count_eq]
    exact hdistinct.count

def chainedCache : Cache where
  bdb b :=
    { page := ⟨1, 10 * b⟩, dirty := true, dbDirty := true, marked := false, faked := false, useCount := 0,
      locked := true }
  precedences := [⟨1, 2, false⟩, ⟨2, 3, false⟩]

/-- The first two of them: nothing can be written in the first pass, and all are in the second. -/
theorem flushPages_each_once_chained :
    (∃ n result, (∀ fuel, n ≤ fuel →
      flushPages (fun _ _ => true) ⟨false, true⟩ fuel chainedCache [1, 2] = some result) ∧
      match result with
      | .error e => Cause (fun _ _ => true) ⟨false, true⟩ chainedCache e
      | .ok (c', done) => (∀ b, (done.map fst).count b = if b ∈ [1, 2] then 1 else 0) ∧
          (∀ b, (b, false) ∈ done → Skippable ⟨false, true⟩ c' b) ∧
            ∀ b, (c'.bdb b).useCount = (chainedCache.bdb b).useCount) ∧
      (∀ ps, ((MarkIterator.create [1, 2]).passes ps).1 = MarkIterator.visits [1, 2] ps ∧
        (((MarkIterator.create [1, 2]).passes ps).2.isEmpty = true ↔ ∀ b ∈ [1, 2], ∃ p ∈ ps, p b = true)) ∧
      (flushPages (fun _ _ => true) ⟨false, true⟩ 12 chainedCache [1, 2]).map (fun r => r.toOption.map snd) =
        some (some [(1, true), (2, true)]) := by
  have hacyclic : Acyclic (Before chainedCache) := by
    intro b hb
    have hlt : Relation.TransGen (· > ·) b b := by
      refine Relation.TransGen.mono (fun hi low hbefore => ?_) b b hb
      obtain ⟨p, hp, rfl, rfl, -⟩ := hbefore
      rcases mem_cons.mp hp with rfl | hp
      · decide
      · rcases mem_singleton.mp hp with rfl
        decide
    rw [Relation.transGen_eq_self] at hlt
    exact Nat.lt_irrefl b hlt
  have heach := flushPages_each_once (fun _ _ => true) ⟨false, true⟩ chainedCache [1, 2] (by decide) hacyclic
  refine ⟨heach.1, heach.2, ?_⟩
  have hsorted : [1, 2].mergeSort (fun a b => (chainedCache.bdb a).page.le (chainedCache.bdb b).page) = [1, 2] :=
    mergeSort_of_pairwise (by decide)
  rw [flushPages, hsorted]
  decide

end Firebird.Cch
