import Mathlib

/-! # The index root page

The slots of an index root page and the functions that change their states (`src/jrd/ods.h`). What a function asserts
about the slot it starts from comes with what it makes of it. Key descriptors are left out; only their place counts. -/

namespace Firebird.Btr

open Function

inductive IrtState where
  | unused | inProgress | rollback | normal | kill | commit | drop | concurrently | migrate
  deriving DecidableEq

structure PageNumber where
  pageSpaceId : Nat
  pageNum : Nat
  deriving DecidableEq

structure IrtRepeat where
  transaction : Nat
  pageNum : Nat
  pageSpaceId : Nat
  desc : Nat
  flags : BitVec 16
  state : IrtState
  keys : Nat
  backslot : Nat

def constraintFlags : BitVec 16 := 0x1 ||| 0x4 ||| 0x8
def irtComplementary : BitVec 16 := 0x40

namespace IrtRepeat
variable (rpt : IrtRepeat)

def isUsed : Bool := rpt.state ≠ .unused

def getRootPage : Option PageNumber :=
  if rpt.pageNum ≠ 0 ∧ rpt.pageSpaceId ≠ 0 then some ⟨rpt.pageSpaceId, rpt.pageNum⟩ else none

def hasRootPage : Bool := rpt.pageNum ≠ 0 && rpt.pageSpaceId ≠ 0

def noRootPage : Bool := rpt.pageNum = 0 && rpt.pageSpaceId = 0

def withRootPage (rootPage : PageNumber) : IrtRepeat :=
  { rpt with pageNum := rootPage.pageNum, pageSpaceId := rootPage.pageSpaceId }

end IrtRepeat

/-- The slot that a function leaves, and whether what it asserts was true. -/
structure Asserted where
  slot : IrtRepeat
  holds : Bool

namespace IrtRepeat
variable (rpt : IrtRepeat)

def rootAssert (rootPage : PageNumber) : Bool := rootPage.pageNum ≠ 0

def setEmpty : IrtRepeat :=
  { rpt with state := .unused, transaction := 0, pageNum := 0, pageSpaceId := 0, flags := 0, backslot := 0 }

def setInProgress (traNumber : Nat) : Asserted :=
  ⟨{ rpt with pageNum := 0, pageSpaceId := 0, transaction := traNumber, state := .inProgress }, rpt.state = .unused⟩

def setInProgressRoot (rootPage : PageNumber) (traNumber : Nat) : Asserted :=
  ⟨{ rpt.withRootPage rootPage with transaction := traNumber, state := .inProgress },
    rpt.state = .inProgress && traNumber = rpt.transaction && rpt.noRootPage && rootAssert rootPage⟩

def setConcurrentlyTemp (rootPage : PageNumber) (traNumber : Nat) : Asserted :=
  ⟨{ rpt.withRootPage rootPage with
      transaction := traNumber, flags := rpt.flags ||| irtComplementary, state := .concurrently },
    rpt.state = .unused && rootAssert rootPage⟩

def setConcurrentlyMain (rootPage : PageNumber) (traNumber : Nat) : Asserted :=
  ⟨{ rpt.withRootPage rootPage with
      transaction := traNumber, flags := rpt.flags &&& ~~~irtComplementary, state := .concurrently },
    rpt.state = .concurrently && rpt.transaction = traNumber && rpt.flags &&& irtComplementary ≠ 0 &&
      rootAssert rootPage⟩

def setRollbackRoot (rootPage : PageNumber) (traNumber : Nat) : Asserted :=
  ⟨{ rpt.withRootPage rootPage with transaction := traNumber, state := .rollback },
    rpt.state = .inProgress && traNumber = rpt.transaction && rpt.noRootPage && rootAssert rootPage⟩

def setRollback (traNumber : Nat) : Asserted :=
  ⟨{ rpt with transaction := traNumber, state := .rollback },
    rpt.state = .kill && traNumber = rpt.transaction && rpt.hasRootPage⟩

/-- `setKill` without arguments. -/
def setKillBack : Asserted := ⟨{ rpt with state := .kill }, rpt.state = .inProgress && rpt.transaction ≠ 0⟩

def setKillRoot (rootPage : PageNumber) : Asserted :=
  ⟨{ rpt.withRootPage rootPage with state := .kill },
    rpt.state = .inProgress && rpt.transaction ≠ 0 && rootAssert rootPage⟩

def setKill (traNumber : Nat) : Asserted :=
  ⟨{ rpt with transaction := traNumber, state := .kill },
    rpt.state = .rollback && rpt.hasRootPage && traNumber = rpt.transaction⟩

def setNormal : Asserted :=
  ⟨{ rpt with transaction := 0, backslot := 0, state := .normal },
    (rpt.state = .rollback || rpt.state = .commit || rpt.state = .drop) && rpt.hasRootPage && rpt.transaction ≠ 0⟩

def setNormalRoot (rootPage : PageNumber) : Asserted :=
  ⟨{ rpt.withRootPage rootPage with transaction := 0, backslot := 0, state := .normal },
    (rpt.state = .inProgress || rpt.state = .migrate) && rootAssert rootPage⟩

def setCommit (traNumber : Nat) : Asserted :=
  ⟨{ rpt with transaction := traNumber, state := .commit },
    (rpt.state = .normal || rpt.state = .migrate) && rpt.hasRootPage⟩

def setDrop (traNumber : Nat) : Asserted :=
  ⟨{ rpt with transaction := traNumber, state := .drop, flags := rpt.flags &&& ~~~constraintFlags },
    rpt.state = .commit && rpt.hasRootPage⟩

def setMigrate (rootPage : PageNumber) (traNumber slot : Nat) : Asserted :=
  ⟨{ rpt.withRootPage rootPage with transaction := traNumber, backslot := slot, state := .migrate },
    (rpt.state = .normal || rpt.state = .rollback || rpt.state = .migrate) && rpt.hasRootPage && rootAssert rootPage⟩

end IrtRepeat

/-- `index_root_page`. What is behind the last slot is read as slots too where the code does not look at the count. -/
structure IndexRootPage where
  count : Nat
  rpt : Nat → IrtRepeat
  count_lt : count < 2 ^ 16

namespace IndexRootPage

def setSlot (root : IndexRootPage) (id : Nat) (slot : IrtRepeat) : IndexRootPage :=
  { root with rpt := update root.rpt id slot }

def getBackSlot (root : IndexRootPage) (rpt : IrtRepeat) : Option Nat :=
  if rpt.state ≠ .migrate ∨ root.count ≤ rpt.backslot then none else some rpt.backslot

@[simp] theorem setSlot_self (root : IndexRootPage) (id : Nat) (slot : IrtRepeat) :
    (root.setSlot id slot).rpt id = slot :=
  update_self ..

theorem setSlot_of_ne {root : IndexRootPage} {id id' : Nat} (slot : IrtRepeat) (h : id' ≠ id) :
    (root.setSlot id slot).rpt id' = root.rpt id' := update_of_ne h ..

theorem setSlot_setSlot (root : IndexRootPage) (id : Nat) (slot slot' : IrtRepeat) :
    (root.setSlot id slot).setSlot id slot' = root.setSlot id slot' := by
  unfold setSlot
  rw [update_idem]

end IndexRootPage
end Firebird.Btr
