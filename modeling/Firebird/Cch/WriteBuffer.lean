import Firebird.Lib.Acyclic
import Firebird.Lib.Fuel

/-! # Writing a buffer with those it depends on

The precedence of pages in the cache and `write_buffer` (`src/jrd/cch.cpp`). A page is written only after
the pages that must be on disk before it; writing a page ends its precedence over others. Latches and the
blocking locks of other processes are left out. -/

namespace Firebird.Cch

open List Lib

abbrev BdbId := Nat

structure PageNumber where
  pageSpaceId : Nat
  pageNum : Nat

structure BufferDesc where
  page : PageNumber
  dirty : Bool
  dbDirty : Bool
  marked : Bool
  faked : Bool
  useCount : Nat
  locked : Bool

/-- The page of `low` must not be written before that of `hi`, unless the block is cleared. -/
structure Precedence where
  low : BdbId
  hi : BdbId
  cleared : Bool
  deriving DecidableEq

/-- The buffers, and the precedence blocks, the newest first: those of one page are `bdb_higher` or `bdb_lower` of its
    buffer. -/
structure Cache where
  bdb : BdbId → BufferDesc
  precedences : List Precedence

inductive FlushError
  /-- Bugcheck 210: the page is in use during a flush. -/
  | pageInUse
  /-- Bugcheck 217: the buffer is marked for update. -/
  | markedForUpdate
  | writeFailed

inductive WriteStatus
  | failed | written | higherWritten
  deriving DecidableEq

namespace Cache

def higher (c : Cache) (b : BdbId) : List Precedence := c.precedences.filter fun p => p.low = b

def setBdb (c : Cache) (b : BdbId) (bdb : BufferDesc) : Cache := { c with bdb := Function.update c.bdb b bdb }

def purgePrecedence (c : Cache) (b : BdbId) : Cache :=
  { c with precedences := c.precedences.filter fun p => ¬(p.low = b ∧ p.cleared = true) }

def clearPrecedence (c : Cache) (b : BdbId) : Cache :=
  { c with precedences := c.precedences.filter fun p => p.hi ≠ b }

def needsWrite (c : Cache) (writeThru : Bool) (b : BdbId) : Bool :=
  (c.bdb b).dirty || writeThru && (c.bdb b).dbDirty

end Cache

variable (io : Cache → BdbId → Bool) (writeThru : Bool)

def doneStatus (writeThis : Bool) : WriteStatus := if writeThis then .written else .higherWritten

/-- Write the page itself; `io` tells whether the disk takes it. -/
def writeThisPage (c : Cache) (b : BdbId) (writeThis : Bool) : WriteStatus × Cache :=
  if c.needsWrite writeThru b && !(c.bdb b).marked then
    if io c b then
      (doneStatus writeThis, (c.setBdb b { c.bdb b with dirty := false, dbDirty := false }).clearPrecedence b)
    else (.failed, c)
  else (doneStatus writeThis, c.clearPrecedence b)

mutual

/-- Write a buffer; `writeThis` is false when it is written for the precedence it has over another one. -/
def writeBuffer : Nat → Cache → BdbId → Bool → Option (Except FlushError (WriteStatus × Cache))
  | 0, _, _, _ => none
  | fuel + 1, c, b, writeThis =>
    if (c.bdb b).marked && !(c.bdb b).faked then some (.error .markedForUpdate)
    else if c.needsWrite writeThru b then writeHigher fuel c b writeThis
    else some (.ok (.written, c.clearPrecedence b))

/-- The buffers that must be written first, then the page. -/
def writeHigher : Nat → Cache → BdbId → Bool → Option (Except FlushError (WriteStatus × Cache))
  | 0, _, _, _ => none
  | fuel + 1, c, b, writeThis =>
    match c.higher b with
    | [] => some (.ok (writeThisPage io writeThru c b writeThis))
    | p :: _ =>
      if p.cleared then writeHigher fuel { c with precedences := c.precedences.erase p } b writeThis
      else
        match writeBuffer fuel c p.hi false with
        | some (.ok (.failed, c)) => some (.ok (.failed, c))
        -- the caller looks again whether its page needs to be written
        | some (.ok (_, c)) => if writeThis then writeHigher fuel c b writeThis else some (.ok (.higherWritten, c))
        | result => result

end

def Before (c : Cache) (hi low : BdbId) : Prop := ∃ p ∈ c.precedences, p.hi = hi ∧ p.low = low ∧ p.cleared = false

/-- Nothing but dirty flags and blocks has changed, and no block has come. -/
structure Written (c c' : Cache) : Prop where
  blocks : c'.precedences.Sublist c.precedences
  bdb : ∀ b, (c'.bdb b).page = (c.bdb b).page ∧ (c'.bdb b).marked = (c.bdb b).marked ∧
    (c'.bdb b).faked = (c.bdb b).faked ∧ (c'.bdb b).useCount = (c.bdb b).useCount ∧ (c'.bdb b).locked = (c.bdb b).locked
  clean : ∀ b, ((c'.bdb b).dirty = true → (c.bdb b).dirty = true) ∧ ((c'.bdb b).dbDirty = true →
    (c.bdb b).dbDirty = true)

variable {io writeThru} {c c' c'' : Cache} {b hi low : BdbId} {p : Precedence} {writeThis : Bool}

namespace Written

theorem refl (c : Cache) : Written c c := ⟨Sublist.refl _, fun _ => ⟨rfl, rfl, rfl, rfl, rfl⟩, fun _ => ⟨id, id⟩⟩

theorem trans (h₁ : Written c c') (h₂ : Written c' c'') : Written c c'' where
  blocks := h₂.blocks.trans h₁.blocks
  bdb b := by
    obtain ⟨page₁, marked₁, faked₁, use₁, locked₁⟩ := h₁.bdb b
    obtain ⟨page₂, marked₂, faked₂, use₂, locked₂⟩ := h₂.bdb b
    exact ⟨page₂.trans page₁, marked₂.trans marked₁, faked₂.trans faked₁, use₂.trans use₁, locked₂.trans locked₁⟩
  clean b := by
    obtain ⟨dirty₁, dbDirty₁⟩ := h₁.clean b
    obtain ⟨dirty₂, dbDirty₂⟩ := h₂.clean b
    exact ⟨fun h => dirty₁ (dirty₂ h), fun h => dbDirty₁ (dbDirty₂ h)⟩

theorem of_blocks {precedences : List Precedence} (h : precedences.Sublist c.precedences) :
    Written c { c with precedences } :=
  ⟨h, fun _ => ⟨rfl, rfl, rfl, rfl, rfl⟩, fun _ => ⟨id, id⟩⟩

theorem before (h : Written c c') (hbefore : Before c' hi low) : Before c hi low := by
  obtain ⟨p, hp, hprops⟩ := hbefore
  exact ⟨p, h.blocks.subset hp, hprops⟩

theorem acyclic (h : Written c c') (hacyclic : Acyclic (Before c)) : Acyclic (Before c') :=
  hacyclic.mono fun _ _ => h.before

theorem length_lt (h : Written c c') (hp : p ∈ c.precedences) (hgone : p ∉ c'.precedences) :
    c'.precedences.length < c.precedences.length := by
  rcases Nat.lt_or_eq_of_le h.blocks.length_le with hlt | heq
  · exact hlt
  · rw [h.blocks.eq_of_length heq] at hgone
    exact absurd hp hgone

end Written

theorem wellFounded_before (h : Acyclic (Before c)) : WellFounded (Before c) := by
  refine h.wellFounded (c.precedences.map (·.hi)).finite_toSet ?_
  rintro hi low ⟨p, hp, rfl, -⟩
  exact mem_map_of_mem hp

theorem written_clearPrecedence (c : Cache) (b : BdbId) : Written c (c.clearPrecedence b) :=
  .of_blocks filter_sublist

theorem hi_ne_of_cleared (hp : p ∈ (c.clearPrecedence b).precedences) : p.hi ≠ b := by
  simpa using (mem_filter.mp hp).2

theorem doneStatus_ne_failed (writeThis : Bool) : doneStatus writeThis ≠ .failed := by cases writeThis <;> decide

theorem writeThisPage_spec (c : Cache) (b : BdbId) (writeThis : Bool) :
    Written c (writeThisPage io writeThru c b writeThis).2 ∧
      ((writeThisPage io writeThru c b writeThis).1 = .failed → io c b = false) ∧
      ((writeThisPage io writeThru c b writeThis).1 ≠ .failed →
        ∀ p ∈ (writeThisPage io writeThru c b writeThis).2.precedences, p.hi ≠ b) := by
  rw [writeThisPage]
  by_cases hneeds : (c.needsWrite writeThru b && !(c.bdb b).marked) = true
  · rw [if_pos hneeds]
    by_cases hio : io c b = true
    · rw [if_pos hio]
      have hclean : Written c (c.setBdb b { c.bdb b with dirty := false, dbDirty := false }) := by
        constructor
        · exact Sublist.refl _
        all_goals
          intro b'
          by_cases hb : b' = b
          · subst hb
            simp [Cache.setBdb]
          · simp [Cache.setBdb, Function.update_of_ne hb]
      exact ⟨hclean.trans (written_clearPrecedence _ b), fun h => absurd h (doneStatus_ne_failed writeThis),
        fun _ p hp => hi_ne_of_cleared hp⟩
    · rw [if_neg hio]
      exact ⟨.refl c, fun _ => by simpa using hio, fun h => absurd rfl h⟩
  · rw [if_neg hneeds]
    exact ⟨written_clearPrecedence c b, fun h => absurd h (doneStatus_ne_failed writeThis),
      fun _ p hp => hi_ne_of_cleared hp⟩

/-- What a write comes to: an error for a cause, or a cache in which, unless the disk has failed, a block of
    the buffer over another one is gone. -/
def Outcome (io : Cache → BdbId → Bool) (c : Cache) (b : BdbId) : Except FlushError (WriteStatus × Cache) → Prop
  | .error e => e = .markedForUpdate ∧ ∃ b, (c.bdb b).marked = true ∧ (c.bdb b).faked = false
  | .ok (status, c') => Written c c' ∧ (status = .failed → ∃ c b, io c b = false) ∧
      (status ≠ .failed → (∃ p ∈ c.precedences, p.hi = b) → c'.precedences.length < c.precedences.length)

theorem Outcome.of_written {result : Except FlushError (WriteStatus × Cache)} (h : Written c c')
    (hlt : c'.precedences.length < c.precedences.length) (hout : Outcome io c' b result) : Outcome io c b result := by
  cases result with
  | error e =>
    obtain ⟨rfl, b', hmarked, hfaked⟩ := hout
    exact ⟨rfl, b', (h.bdb b').2.1 ▸ hmarked, (h.bdb b').2.2.1 ▸ hfaked⟩
  | ok r =>
    obtain ⟨hwritten, hfailed, -⟩ := hout
    exact ⟨h.trans hwritten, hfailed, fun _ _ => Nat.lt_of_le_of_lt hwritten.blocks.length_le hlt⟩

theorem outcome_writeThisPage (writeThru : Bool) (c : Cache) (b : BdbId) (writeThis : Bool) :
    Outcome io c b (.ok (writeThisPage io writeThru c b writeThis)) := by
  obtain ⟨hwritten, hfailed, hdone⟩ := @writeThisPage_spec io writeThru c b writeThis
  refine ⟨hwritten, fun h => ⟨c, b, hfailed h⟩, ?_⟩
  rintro hne ⟨p, hp, hhi⟩
  exact hwritten.length_lt hp fun hmem => hdone hne p hmem hhi

theorem mem_of_higher {rest : List Precedence} (h : c.higher b = p :: rest) : p ∈ c.precedences ∧ p.low = b := by
  have hmem : p ∈ c.higher b := h ▸ mem_cons_self
  simpa [Cache.higher] using hmem

def afterHigher (io : Cache → BdbId → Bool) (writeThru : Bool) (b : BdbId) (writeThis : Bool) (fuel : Nat) :
    Except FlushError (WriteStatus × Cache) → Option (Except FlushError (WriteStatus × Cache))
  | .error e => some (.error e)
  | .ok (.failed, c) => some (.ok (.failed, c))
  | .ok (_, c) => if writeThis then writeHigher io writeThru fuel c b writeThis else some (.ok (.higherWritten, c))

theorem writeHigher_of_block {rest : List Precedence} (hqueue : c.higher b = p :: rest) (hcleared : p.cleared = false)
    (fuel : Nat) : writeHigher io writeThru (fuel + 1) c b writeThis =
      (writeBuffer io writeThru fuel c p.hi false).bind (afterHigher io writeThru b writeThis fuel) := by
  simp only [writeHigher, hqueue, hcleared, Bool.false_eq_true, if_false]
  rcases writeBuffer io writeThru fuel c p.hi false with _ | ⟨e | ⟨status, c₁⟩⟩
  · rfl
  · rfl
  · cases status <;> rfl

theorem writeHigher_ends_of_rounds (hshorter : ∀ c', Written c c' → c'.precedences.length < c.precedences.length →
      Returns (fun fuel => writeHigher io writeThru fuel c' b writeThis) (Outcome io c' b))
    (hbefore : ∀ hi, Before c hi b → Returns (fun fuel => writeBuffer io writeThru fuel c hi false) (Outcome io c hi)) :
    Returns (fun fuel => writeHigher io writeThru fuel c b writeThis) (Outcome io c b) := by
  cases hqueue : c.higher b with
  | nil =>
    refine (Returns.pure (outcome_writeThisPage writeThru c b writeThis)).succ fun fuel => ?_
    simp only [writeHigher, hqueue]
  | cons p rest =>
    obtain ⟨hp, hlow⟩ := mem_of_higher hqueue
    cases hcleared : p.cleared with
    | true =>
      have hlength := length_erase_of_mem hp
      have hpos := length_pos_of_mem hp
      have herased : Written c { c with precedences := c.precedences.erase p } := .of_blocks erase_sublist
      have hlt : (c.precedences.erase p).length < c.precedences.length := by omega
      refine ((hshorter _ herased hlt).mono fun _ => .of_written herased hlt).succ fun fuel => ?_
      simp only [writeHigher, hqueue, hcleared, if_true]
    | false =>
      refine ((hbefore p.hi ⟨p, hp, rfl, hlow, hcleared⟩).bind fun result hout => ?_).succ
        (writeHigher_of_block hqueue hcleared)
      -- the block in force is gone after the page above it, or one above that, is written
      rcases result with e | ⟨status, c₁⟩
      · exact .pure hout
      obtain ⟨hwritten, hfailed, hdone⟩ := hout
      by_cases hstatus : status = .failed
      · subst hstatus
        exact .pure ⟨hwritten, hfailed, fun h => absurd rfl h⟩
      have hlt := hdone hstatus ⟨p, hp, rfl⟩
      have hafter : ∀ fuel, afterHigher io writeThru b writeThis fuel (.ok (status, c₁)) =
          if writeThis then writeHigher io writeThru fuel c₁ b writeThis else some (.ok (.higherWritten, c₁)) := by
        intro fuel
        cases status with
        | failed => exact absurd rfl hstatus
        | written | higherWritten => rfl
      cases writeThis with
      | true => exact ((hshorter c₁ hwritten hlt).mono fun _ => .of_written hwritten hlt).congr hafter
      | false => exact (Returns.pure ⟨hwritten, nofun, fun _ _ => hlt⟩).congr hafter

theorem writeBuffer_ends_of_higher (h : Returns (fun fuel => writeHigher io writeThru fuel c b writeThis)
    (Outcome io c b)) : Returns (fun fuel => writeBuffer io writeThru fuel c b writeThis) (Outcome io c b) := by
  by_cases hmarked : ((c.bdb b).marked && !(c.bdb b).faked) = true
  · have hout : Outcome io c b (.error .markedForUpdate) := ⟨rfl, b, by simpa using hmarked⟩
    refine (Returns.pure hout).succ fun fuel => ?_
    rw [writeBuffer, if_pos hmarked]
  by_cases hneeds : c.needsWrite writeThru b = true
  · refine h.succ fun fuel => ?_
    rw [writeBuffer, if_neg hmarked, if_pos hneeds]
  · have hwritten := written_clearPrecedence c b
    have hout : Outcome io c b (.ok (.written, c.clearPrecedence b)) :=
      ⟨hwritten, nofun, fun _ ⟨p, hp, hhi⟩ => hwritten.length_lt hp fun hmem => hi_ne_of_cleared hmem hhi⟩
    refine (Returns.pure hout).succ fun fuel => ?_
    rw [writeBuffer, if_neg hmarked, if_neg hneeds]

theorem writeBuffer_ends (hacyclic : Acyclic (Before c)) (b : BdbId) (writeThis : Bool) :
    Returns (fun fuel => writeBuffer io writeThru fuel c b writeThis) (Outcome io c b) := by
  suffices hboth : ∀ k (c : Cache), c.precedences.length = k → Acyclic (Before c) → ∀ b writeThis,
      Returns (fun fuel => writeHigher io writeThru fuel c b writeThis) (Outcome io c b) from
    writeBuffer_ends_of_higher (hboth _ c rfl hacyclic b writeThis)
  intro k
  induction k using Nat.strong_induction_on with
  | _ k ih =>
    rintro c rfl hacyclic b
    induction b using (wellFounded_before hacyclic).induction with
    | _ b ihb =>
      intro writeThis
      refine writeHigher_ends_of_rounds (fun c' hwritten hlt => ?_) fun hi hbefore => ?_
      · exact ih _ hlt c' rfl (hwritten.acyclic hacyclic) b writeThis
      · exact writeBuffer_ends_of_higher (ihb hi hbefore false)

end Firebird.Cch
