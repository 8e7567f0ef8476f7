import Mathlib

/-! # Recursive unions

`RecursiveStream` (`src/jrd/recsrc/RecursiveStream.cpp`) returns the rows of a root stream, and after each row those
that the inner stream has for it. There is one inner stream: before it is opened for a row, its state is saved
together with the record, and it comes back when the rows below have ended. -/

namespace Firebird.RecSrc
open List

def maxRecurseLevel : Nat := 1024

inductive Mode
  | root
  | recurse

/-- The impure area that is saved: the places of the root and the inner stream, unless they are closed, and `Impure` of
the union itself. -/
structure Impure where
  root : Option Nat
  inner : Option Nat
  isOpen : Bool
  level : Nat
  mode : Mode
  stack : Option Nat
  data : Option Nat

/-- A block of memory: the saved area with the records of the streams below, or the record of a level. -/
inductive Block (Row : Type*)
  | saved (impure : Impure) (streams : Option Row)
  | data (record : Option Row)

structure RecursiveState (Row : Type*) where
  impure : Impure
  record : Option Row
  streams : Option Row
  /-- The blocks not yet deleted with their addresses, and the address of the next one. -/
  pool : List (Nat × Block Row)
  next : Nat

inductive Outcome (Row : Type*)
  | row (r : Row)
  | done
  /-- `isc_req_max_clones_exceeded` -/
  | tooDeep
  /-- A block is used that there is not, or is deleted twice. -/
  | fault

inductive Source
  | root
  | inner

namespace RecursiveState
variable {Row : Type*} (s : RecursiveState Row)

def delete : Option Nat → Option (RecursiveState Row)
  | none => some s
  | some a => if a ∈ s.pool.map Prod.fst then some { s with pool := s.pool.eraseP (·.1 = a) } else none

def blockAt (a : Option Nat) : Option (Block Row) := a.bind (lookup · s.pool)

/-- What is saved before the inner stream is opened, and its opening. -/
def descend : RecursiveState Row where
  impure := { s.impure with
    root := none, inner := some 0, level := s.impure.level + 1, stack := some s.next, data := some (s.next + 1) }
  record := s.record
  streams := none
  pool := (s.next + 1, .data s.record) :: (s.next, .saved s.impure s.streams) :: s.pool
  next := s.next + 2

def cleanupLevel : Option (RecursiveState Row) :=
  (s.delete s.impure.data).bind fun t =>
    match t.blockAt s.impure.stack with
    | some (.saved impure streams) => { t with impure, streams }.delete s.impure.stack
    | _ => none

/-- `close` of the stream that has ended. -/
def closeSource : Source → RecursiveState Row
  | .root => { s with impure.root := none }
  | .inner => { s with impure.inner := none }

def closeLevels : Nat → RecursiveState Row → Option (RecursiveState Row)
  | 0, s => some s
  | n + 1, s => if 1 < s.impure.level then (s.closeSource .inner).cleanupLevel.bind (closeLevels n) else some s

def close : Option (RecursiveState Row) :=
  if s.impure.isOpen then
    (closeLevels s.impure.level { s with impure.isOpen := false }).map fun s => s.closeSource .root
  else some s

end RecursiveState

/-- The rows of the root stream, and those of the inner stream for a row of the union. -/
structure RecursiveStream (Row : Type*) where
  root : List Row
  inner : Row → List Row

namespace RecursiveStream
variable {Row : Type*} (q : RecursiveStream Row)

def internalOpen : RecursiveState Row where
  impure := ⟨some 0, none, true, 1, .root, none, none⟩
  record := none
  streams := none
  pool := []
  next := 0

def getRecord (s : RecursiveState Row) : Source → Option (Row × RecursiveState Row)
  | .root => s.impure.root.bind fun p => q.root[p]?.map fun r =>
    (r, { s with impure.root := some (p + 1), streams := some r })
  | .inner => s.impure.inner.bind fun p => (s.record.elim [] q.inner)[p]?.map fun r =>
    (r, { s with impure.inner := some (p + 1), streams := some r })

/-- The loop of `internalGetRecord`, and what is done with the row. -/
def fetch : Nat → Source → RecursiveState Row → Outcome Row × RecursiveState Row
  | 0, _, s => (.fault, s)
  | n + 1, rsb, s =>
    match q.getRecord s rsb with
    | some (r, s) => (.row r, { s with impure.mode := .recurse, record := some r })
    | none =>
      if s.impure.level = 1 then (.done, s)
      else
        match (s.closeSource rsb).cleanupLevel with
        | none => (.fault, s)
        | some s =>
          if 1 < s.impure.level then
            match s.blockAt s.impure.data with
            | some (.data record) => fetch n .inner { s with record }
            | _ => (.fault, s)
          else fetch n .root s

def internalGetRecord (s : RecursiveState Row) : Outcome Row × RecursiveState Row :=
  if s.impure.isOpen then
    match s.impure.mode with
    | .root => q.fetch s.impure.level .root s
    | .recurse =>
      if maxRecurseLevel < s.impure.level then (.tooDeep, s) else q.fetch s.descend.impure.level .inner s.descend
  else (.done, s)

/-- What a number of calls return, up to the first that returns no row, and the state after them. -/
def calls : Nat → RecursiveState Row → List (Outcome Row) × RecursiveState Row
  | 0, s => ([], s)
  | n + 1, s =>
    match q.internalGetRecord s with
    | (.row r, s) => ((calls n s).1.cons (.row r), (calls n s).2)
    | (o, s) => ([o], s)

end RecursiveStream

end Firebird.RecSrc
