import Firebird.RecSrc.RecursiveStream

/-! # What a recursive union returns

Between two calls the blocks in memory are those of the suspended levels, and what the streams of these levels have
left, with what is below it, is what is still to be returned. -/

namespace Firebird.RecSrc
open List

/-- A level that is suspended, and the addresses of what it has saved. -/
structure Frame (Row : Type*) where
  stack : Nat
  data : Nat
  impure : Impure
  streams : Option Row
  record : Row

namespace RecursiveStream
variable {Row : Type*} (q : RecursiveStream Row)

def blocks (frames : List (Frame Row)) : List (Nat × Block Row) :=
  frames.flatMap fun f => [(f.data, .data (some f.record)), (f.stack, .saved f.impure f.streams)]

/-- The level of an impure area and the suspended ones below it. -/
def Nested : Impure → List (Frame Row) → Prop
  | i, [] => i.level = 1
  | i, f :: frames =>
    i.level = frames.length + 2 ∧ i.stack = some f.stack ∧ i.data = some f.data ∧
    f.impure.isOpen ∧ Nested f.impure frames

structure Suspended (s : RecursiveState Row) (frames : List (Frame Row)) : Prop where
  nested : Nested s.impure frames
  pool : s.pool = blocks frames

theorem Nested.level {i : Impure} : ∀ {frames : List (Frame Row)}, Nested i frames → i.level = frames.length + 1
  | [], h => h
  | _ :: _, h => h.1

theorem Nested.moved {i : Impure} {root inner : Option Nat} {isOpen : Bool} {mode : Mode} :
    ∀ {frames : List (Frame Row)}, Nested i frames → Nested { i with root, inner, isOpen, mode } frames
  | [], h => h
  | _ :: _, h => h

variable {s : RecursiveState Row} {f : Frame Row} {frames : List (Frame Row)}

theorem Suspended.cleanupLevel (h : Suspended s (f :: frames)) :
    s.cleanupLevel = some { s with impure := f.impure, streams := f.streams, pool := blocks frames } := by
  obtain ⟨⟨-, hstack, hdata, -⟩, hpool⟩ := h
  simp [RecursiveState.cleanupLevel, RecursiveState.delete, RecursiveState.blockAt, hstack, hdata, hpool, blocks]

theorem Suspended.cleaned (h : Suspended s (f :: frames)) :
    Suspended { s with impure := f.impure, streams := f.streams, pool := blocks frames } frames :=
  ⟨h.nested.2.2.2.2, rfl⟩

/-- Every block is deleted once, at whatever level the stream is closed. -/
theorem Suspended.closeLevels : ∀ {frames : List (Frame Row)} {s : RecursiveState Row}, Suspended s frames →
    ∃ t, RecursiveState.closeLevels (frames.length + 1) s = some t ∧ t.pool = []
  | [], s, h => ⟨s, by simp [RecursiveState.closeLevels, h.nested.level], h.pool⟩
  | f :: frames, s, h => by
    have hclosed : Suspended (s.closeSource .inner) (f :: frames) := ⟨h.nested, h.pool⟩
    obtain ⟨t, ht, hpool⟩ := hclosed.cleaned.closeLevels
    refine ⟨t, ?_, hpool⟩
    rw [RecursiveState.closeLevels, if_pos (by simp [h.nested.level]), hclosed.cleanupLevel]
    exact ht

theorem Suspended.close (h : Suspended s frames) (hopen : s.impure.isOpen) : ∃ t, s.close = some t ∧ t.pool = [] := by
  obtain ⟨t, ht, hpool⟩ := closeLevels (s := { s with impure.isOpen := false }) ⟨h.nested.moved, h.pool⟩
  refine ⟨t.closeSource .root, ?_, hpool⟩
  rw [RecursiveState.close, if_pos hopen, h.nested.level, ht]
  rfl

def below : Nat → Row → List (Outcome Row)
  | 0, _ => [.tooDeep]
  | n + 1, r => (q.inner r).flatMap fun c => .row c :: below n c

def visits (n : Nat) (rows : List Row) : List (Outcome Row) := rows.flatMap fun r => .row r :: q.below n r

theorem below_succ (n : Nat) (r : Row) : q.below (n + 1) r = q.visits n (q.inner r) := rfl

theorem visits_cons (n : Nat) (r : Row) (rows : List Row) :
    q.visits n (r :: rows) = .row r :: (q.below n r ++ q.visits n rows) := flatMap_cons

def siblings (i : Impure) : List (Frame Row) → List Row
  | [] => i.root.elim [] q.root.drop
  | f :: _ => i.inner.elim [] (q.inner f.record).drop

def pending : Impure → List (Frame Row) → List (Outcome Row)
  | i, [] => q.visits maxRecurseLevel (q.siblings i [])
  | i, f :: frames =>
    q.visits (maxRecurseLevel - (frames.length + 1)) (q.siblings i (f :: frames)) ++ pending f.impure frames

theorem pending_eq (i : Impure) (frames : List (Frame Row)) :
    q.pending i frames = q.visits (maxRecurseLevel - frames.length) (q.siblings i frames) ++
      (match frames with | [] => [] | f :: frames => q.pending f.impure frames) := by
  cases frames with
  | nil => simp [pending]
  | cons f frames => rfl

def rsb : List (Frame Row) → Source
  | [] => .root
  | _ :: _ => .inner

structure At (s : RecursiveState Row) (frames : List (Frame Row)) (r : Row) (rest : List (Outcome Row)) : Prop where
  isOpen : s.impure.isOpen
  mode : s.impure.mode = .recurse
  record : s.record = some r
  suspended : Suspended s frames
  rest : rest = q.below (maxRecurseLevel - frames.length) r ++ q.pending s.impure frames

inductive Gives : List (Outcome Row) → Outcome Row × RecursiveState Row → Prop
  | row {t below r rest} : q.At t below r rest → Gives (.row r :: rest) (.row r, t)
  | done {t} : Suspended t [] → t.impure.isOpen → Gives [] (.done, t)
  | tooDeep {t below rest} : Suspended t below → t.impure.isOpen → Gives (.tooDeep :: rest) (.tooDeep, t)

theorem drop_eq_cons {rows rest : List Row} {r : Row} {p : Nat} (h : rows.drop p = r :: rest) :
    rows[p]? = some r ∧ rows.drop (p + 1) = rest := by
  rw [← head?_drop, ← tail_drop, h]
  exact ⟨rfl, rfl⟩

theorem getRecord_none (hrecord : ∀ f ∈ frames.head?, s.record = some f.record)
    (h : q.siblings s.impure frames = []) : q.getRecord s (rsb frames) = none := by
  cases frames with
  | nil => cases hp : s.impure.root <;> simp_all [siblings, getRecord, rsb]
  | cons f frames => cases hp : s.impure.inner <;> simp_all [siblings, getRecord, rsb]

theorem getRecord_some {r : Row} {rows : List Row}
    (hrecord : ∀ f ∈ frames.head?, s.record = some f.record) (h : q.siblings s.impure frames = r :: rows) :
    ∃ root inner, q.getRecord s (rsb frames) =
        some (r, { s with impure := { s.impure with root, inner }, streams := some r }) ∧
      ∀ i : Impure, i.root = root → i.inner = inner → q.siblings i frames = rows := by
  cases frames with
  | nil =>
    cases hp : s.impure.root with
    | none => simp [siblings, hp] at h
    | some p =>
      have hdrop := drop_eq_cons (by simpa [siblings, hp] using h)
      exact ⟨some (p + 1), s.impure.inner, by simp [getRecord, rsb, hp, hdrop.1],
        fun i hroot _ => by simp [siblings, hroot, hdrop.2]⟩
  | cons f frames =>
    cases hp : s.impure.inner with
    | none => simp [siblings, hp] at h
    | some p =>
      have hdrop := drop_eq_cons (by simpa [siblings, hp] using h)
      exact ⟨s.impure.root, some (p + 1), by simp [getRecord, rsb, hp, hrecord f rfl, hdrop.1],
        fun i _ hinner => by simp [siblings, hinner, hdrop.2]⟩

theorem fetch_gives : ∀ {frames : List (Frame Row)} {s : RecursiveState Row}, Suspended s frames → s.impure.isOpen →
    (∀ f ∈ frames.head?, s.record = some f.record) →
    q.Gives (q.pending s.impure frames) (q.fetch (frames.length + 1) (rsb frames) s)
  | frames, s, h, hopen, hrecord => by
    rw [pending_eq]
    cases hsib : q.siblings s.impure frames with
    | cons r rows =>
      obtain ⟨root, inner, hget, hrest⟩ := q.getRecord_some hrecord hsib
      rw [visits_cons, cons_append]
      simp only [fetch, hget]
      refine .row ⟨hopen, rfl, rfl, ⟨h.nested.moved, h.pool⟩, ?_⟩
      rw [pending_eq, hrest _ rfl rfl, append_assoc]
    | nil =>
      rw [fetch, q.getRecord_none hrecord hsib]
      match frames, h with
      | [], h => simpa [visits, h.nested.level] using Gives.done h hopen
      | f :: frames, h =>
        have hclosed : Suspended (s.closeSource .inner) (f :: frames) := ⟨h.nested, h.pool⟩
        obtain ⟨hlevel, -, -, hsaved, hnested⟩ := h.nested
        simp only [show s.impure.level ≠ 1 by omega, if_false, rsb, hclosed.cleanupLevel]
        match frames, hclosed, hnested with
        | [], hclosed, hnested =>
          simpa [visits, hnested.level, rsb] using fetch_gives hclosed.cleaned hsaved (by simp)
        | g :: frames, hclosed, hnested =>
          have hrestored : Suspended { s with
              impure := f.impure, record := some g.record, streams := f.streams, pool := blocks (g :: frames) }
              (g :: frames) := ⟨hnested, rfl⟩
          simpa [visits, hnested.level, RecursiveState.blockAt, hnested.2.2.1, blocks, rsb, RecursiveState.closeSource]
            using fetch_gives hrestored hsaved (by simp)
  termination_by frames => frames.length

theorem descend_gives {r : Row} {rest : List (Outcome Row)} (h : q.At s frames r rest) :
    q.Gives rest (q.internalGetRecord s) := by
  rw [internalGetRecord, if_pos h.isOpen, h.mode, h.rest]
  by_cases hdeep : maxRecurseLevel < s.impure.level
  · simp only [if_pos hdeep]
    rw [h.suspended.nested.level] at hdeep
    rw [show maxRecurseLevel - frames.length = 0 by omega]
    exact .tooDeep h.suspended h.isOpen
  · simp only [if_neg hdeep]
    have hlevel := h.suspended.nested.level
    let f : Frame Row := ⟨s.next, s.next + 1, s.impure, s.streams, r⟩
    have hsuspended : Suspended s.descend (f :: frames) :=
      ⟨⟨by simp [RecursiveState.descend, hlevel], rfl, rfl, h.isOpen, h.suspended.nested⟩,
        by simp [RecursiveState.descend, blocks, f, h.record, h.suspended.pool]⟩
    have hfetch := q.fetch_gives hsuspended h.isOpen (by simp [RecursiveState.descend, f, h.record])
    have hbelow : q.below (maxRecurseLevel - frames.length) r =
        q.visits (maxRecurseLevel - (frames.length + 1)) (q.siblings s.descend.impure (f :: frames)) := by
      rw [show maxRecurseLevel - frames.length = maxRecurseLevel - (frames.length + 1) + 1 by omega, below_succ]
      rfl
    rw [hbelow, show s.descend.impure.level = (f :: frames).length + 1 by simp [RecursiveState.descend, hlevel]]
    exact hfetch

theorem open_gives : q.Gives (q.visits maxRecurseLevel q.root) (q.internalGetRecord internalOpen) := by
  have h : Suspended internalOpen ([] : List (Frame Row)) := ⟨rfl, rfl⟩
  exact q.fetch_gives h rfl (by simp)

def ended : List (Outcome Row) → List (Outcome Row)
  | [] => [.done]
  | .row r :: rest => .row r :: ended rest
  | o :: _ => [o]

theorem calls_eq : ∀ (k : Nat) {s : RecursiveState Row} {frames : List (Frame Row)} {rest : List (Outcome Row)},
    Suspended s frames → s.impure.isOpen → q.Gives rest (q.internalGetRecord s) →
    (q.calls k s).1 = (ended rest).take k ∧
      ∃ frames, Suspended (q.calls k s).2 frames ∧ (q.calls k s).2.impure.isOpen
  | 0, _, frames, _, hs, hopen, _ => ⟨by simp [calls], frames, hs, hopen⟩
  | k + 1, s, _, _, _, _, h => by
    rw [calls]
    match hcall : q.internalGetRecord s, h with
    | _, .row hat =>
      obtain ⟨htake, hsuspended⟩ := calls_eq k hat.suspended hat.isOpen (q.descend_gives hat)
      exact ⟨by simp [htake, ended], hsuspended⟩
    | _, .done hs hopen => exact ⟨by simp [ended], [], hs, hopen⟩
    | _, .tooDeep hs hopen => exact ⟨by simp [ended], _, hs, hopen⟩

/-- `out` is the traversal of the rows, of their inner rows and so on, and no chain has more than `n` of them. -/
inductive Preorder : Nat → List Row → List Row → Prop
  | nil {n} : Preorder n [] []
  | cons {n r rows below rest} :
    Preorder n (q.inner r) below → Preorder (n + 1) rows rest → Preorder (n + 1) (r :: rows) (r :: (below ++ rest))

/-- `out` is a beginning of that traversal, without a limit. -/
inductive Begins : List Row → List Row → Prop
  | stop {rows} : Begins rows []
  | row {r rows out} : Begins (q.inner r ++ rows) out → Begins (r :: rows) (r :: out)

section
variable {q}

theorem Preorder.visits {n : Nat} {rows out : List Row} (h : q.Preorder n rows out) :
    q.visits n rows = out.map .row := by
  induction h with
  | nil => rfl
  | cons _ _ hbelow hrest =>
    rw [visits_cons, hrest, below_succ, hbelow]
    simp

theorem ended_rows (out : List Row) (rest : List (Outcome Row)) :
    ended (out.map .row ++ rest) = out.map .row ++ ended rest := by
  induction out with
  | nil => rfl
  | cons r out ih => simp [ended, ih]

theorem Preorder.begins {n : Nat} {rows out : List Row} (h : q.Preorder n rows out) :
    ∀ {more outMore : List Row}, q.Begins more outMore → q.Begins (rows ++ more) (out ++ outMore) := by
  induction h with
  | nil => exact id
  | cons _ _ hbelow hrest =>
    intro more outMore hmore
    simpa using Begins.row (hbelow (hrest hmore))

end

/-- Where a chain is too long, the traversal up to there. -/
theorem visits_cut : ∀ (n : Nat) (rows : List Row), (∃ out, q.Preorder n rows out) ∨
    ∃ out rest, q.visits n rows = out.map .row ++ .tooDeep :: rest ∧ ∀ more, q.Begins (rows ++ more) out
  | _, [] => .inl ⟨[], .nil⟩
  | 0, r :: rows => .inr ⟨[r], q.visits 0 rows, by simp [visits_cons, below], fun _ => .row .stop⟩
  | n + 1, r :: rows => by
    obtain ⟨under, hunder⟩ | ⟨under, rest, hunder, hbegins⟩ := visits_cut n (q.inner r)
    · obtain ⟨out, hout⟩ | ⟨out, rest, hout, hbegins⟩ := visits_cut (n + 1) rows
      · exact .inl ⟨_, .cons hunder hout⟩
      · refine .inr ⟨r :: (under ++ out), rest, ?_, fun more => .row (by simpa using hunder.begins (hbegins more))⟩
        rw [visits_cons, hout, below_succ, hunder.visits]
        simp
    · refine .inr ⟨r :: under, rest ++ q.visits (n + 1) rows, ?_, fun more => .row (hbegins (rows ++ more))⟩
      rw [visits_cons, below_succ, hunder]
      simp

/-- A recursive union returns the traversal of its rows and then nothing, a chain that is too long ends in the error,
and every level is released once wherever it is closed. -/
theorem unfolds :
    (∀ out, q.Preorder maxRecurseLevel q.root out →
      ∀ k, (q.calls k internalOpen).1 = (out.map Outcome.row ++ [Outcome.done]).take k) ∧
    ((¬ ∃ out, q.Preorder maxRecurseLevel q.root out) → ∃ out, q.Begins q.root out ∧
      ∀ k, (q.calls k internalOpen).1 = (out.map Outcome.row ++ [Outcome.tooDeep]).take k) ∧
    ∀ k, ∃ frames, Suspended (q.calls k internalOpen).2 frames ∧
      ∃ t, (q.calls k internalOpen).2.close = some t ∧ t.pool = [] := by
  have hstart : Suspended internalOpen ([] : List (Frame Row)) := ⟨rfl, rfl⟩
  have hruns := fun k => q.calls_eq k hstart rfl q.open_gives
  refine ⟨fun out hout k => ?_, fun hdeep => ?_, fun k => ?_⟩
  · rw [(hruns k).1, hout.visits, ← append_nil (out.map Outcome.row), ended_rows]
    simp [ended]
  · obtain ⟨out, rest, hvisits, hbegins⟩ := (q.visits_cut maxRecurseLevel q.root).resolve_left hdeep
    refine ⟨out, by simpa using hbegins [], fun k => ?_⟩
    rw [(hruns k).1, hvisits, ended_rows]
    rfl
  · obtain ⟨frames, hsuspended, hopen⟩ := (hruns k).2
    exact ⟨frames, hsuspended, hsuspended.close hopen⟩

end RecursiveStream
end Firebird.RecSrc
