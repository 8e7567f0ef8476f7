import Firebird.Lib.Run
import Firebird.Mdc.Effects

/-! # An element under many transactions

Transactions call an element in any order and end in the inventory; each commits or rolls back its own changes once. -/

namespace Firebird.Mdc

open CacheElement Function

open Tpc (TraNumber TraState)

variable {Obj : Type}

/-- An element, the transactions and what happened so far. -/
structure World (Obj : Type) where
  element : CacheElement Obj := {}
  /-- The inventory. The system transaction is always committed. -/
  tip : TraNumber → TraState := fun number => if number = 0 then .committed else .active
  nextTransaction : TraNumber := 0
  /-- The transaction has committed or rolled back its changes of the element. -/
  ended : TraNumber → Bool := fun _ => false
  /-- The transaction whose call added the entry. -/
  creator : EntryId → TraNumber := fun _ => 0
  /-- The entries that became committed, the last one first, and the transaction whose call did it. -/
  marked : List (EntryId × TraNumber) := []
  /-- The newest version that the transaction added and has neither committed nor rolled back. -/
  latest : TraNumber → Option EntryId := fun _ => none

/-- What is read outside the element and the inventory, at the time of a call. -/
structure Outside (Obj : Type) where
  oldestActive : TraNumber
  commitNumber : Bool
  versioned : Versioned Obj

/-- A call that neither commits nor rolls back changes made before. -/
inductive Call (Obj : Type)
  | getEntry (traNum : TraNumber) (fl : CacheFlag)
  | storeObject (cur : TraNumber) (obj : Option Obj) (fl : CacheFlag)
  | reset (tran : TraNumber) (erased : Bool)
  | makeObject (cur : TraNumber) (fl : CacheFlag)
  | erase (cur : TraNumber)
  | isAvailable (currentTrans : TraNumber)
  | newVersion (cur : TraNumber)
  | upgrade (cur : TraNumber) (fromObj : Option Obj)
  | gc (oldest : TraNumber)

inductive Op (Obj : Type)
  | start
  | setState (number : TraNumber) (state : TraState)
  | call (outside : Outside Obj) (c : Call Obj)
  | commit (cur : TraNumber)
  | rollback (cur : TraNumber)

namespace Call
variable [DecidableEq Obj]

/-- The transaction of the call; garbage collection is for none. -/
def caller : Call Obj → TraNumber
  | getEntry traNum _ => traNum
  | storeObject cur _ _ => cur
  | reset tran _ => tran
  | makeObject cur _ => cur
  | erase cur => cur
  | isAvailable currentTrans => currentTrans
  | newVersion cur => cur
  | upgrade cur _ => cur
  | gc _ => 0

def run (cx : Context Obj) (el : CacheElement Obj) : Call Obj → CacheElement Obj
  | getEntry traNum fl => (el.getEntry cx traNum fl).2
  | storeObject cur obj fl => (el.storeObject cx cur obj fl).2
  | reset tran erased => (el.reset cx tran erased).2
  | makeObject cur fl => (el.makeObject cx cur fl).2
  | erase cur => (el.erase cx cur).2
  | isAvailable currentTrans => (el.isAvailable cx currentTrans).2
  | newVersion cur => (el.newVersion cx cur).2
  | upgrade cur fromObj => (el.upgrade cur fromObj).2
  | gc oldest => { el with list := (ListEntry.gc oldest 0 el.list).2 }

/-- The call may leave an entry that is not committed. -/
def adds : Call Obj → Bool
  | getEntry _ fl => fl.autocreate && fl.nocommit
  | storeObject _ obj fl => fl.nocommit || obj.isSome
  | makeObject _ _ => true
  | erase _ => true
  | newVersion _ => true
  | reset _ _ => false
  | isAvailable _ => false
  | upgrade _ _ => false
  | gc _ => false

/-- The call rolls back entries of other transactions that are not active. -/
def asks : Call Obj → Bool
  | storeObject _ _ _ => true
  | reset _ _ => true
  | makeObject _ _ => true
  | erase _ => true
  | isAvailable _ => true
  | newVersion _ => true
  | getEntry _ _ => false
  | upgrade _ _ => false
  | gc _ => false

theorem run_effect (cx : Context Obj) {el : CacheElement Obj} {O : TraNumber} (c : Call Obj)
    (hown : OwnedBy O el.list) (hclear : c.asks = true → Clear cx.tip c.caller el.list) :
    Effect cx.tip c.caller (c.adds = true) el (c.run cx el) := by
  cases c with
  | getEntry traNum fl => exact (getEntry_effect cx fl).mono fun h => by simp [adds, h.1, h.2]
  | storeObject cur obj fl =>
    refine (storeObject_effect cx obj fl hown (hclear rfl)).mono fun h => ?_
    rcases h with h | h
    · simp [adds, h]
    · simp [adds, Option.isSome_iff_ne_none.mpr h]
  | reset tran erased =>
    refine (storeObject_effect cx none { erased := erased } hown (hclear rfl)).mono fun h => ?_
    rcases h with h | h
    · cases h
    · exact absurd rfl h
  | makeObject cur fl => exact (makeObject_effect cx fl hown (hclear rfl)).mono fun _ => rfl
  | erase cur => exact (erase_effect cx hown (hclear rfl)).mono fun _ => rfl
  | isAvailable currentTrans =>
    obtain ⟨hf, hn⟩ := isAvailable_effect cx hown (hclear rfl)
    exact .shrunk hf (.refl _ _) (Nat.le_of_eq hn.symm)
  | newVersion cur => exact (newVersion_effect cx hown (hclear rfl)).mono fun _ => rfl
  | upgrade cur fromObj => exact (upgrade_effect cx fromObj).mono False.elim
  | gc oldest => exact .of_kept (ListEntry.gc_kept _ _ (fun h => absurd rfl h) _) (Nat.le_refl _)

end Call

namespace World

/-- The entries of the second list that are committed and were not in the first. -/
def newlyCommitted (l l' : List (ListEntry Obj)) : List EntryId :=
  ((committedOf l').map (·.id)).filter fun id => !((committedOf l).map (·.id)).contains id

/-- The world after a call of `T` left the element so. -/
def observe (w : World Obj) (T : TraNumber) (el : CacheElement Obj) : World Obj :=
  { w with
    element := el
    creator := fun id => if w.element.nextId ≤ id then T else w.creator id
    marked := (newlyCommitted w.element.list el.list).map (fun id => (id, T)) ++ w.marked
    latest := match el.list with
      | [] => w.latest
      | e :: _ =>
        if w.element.nextId ≤ e.id then
          update w.latest T (if e.cacheFlags.committed then none else some e.id)
        else w.latest }

/-- The transaction is through with the element. -/
def finish (w : World Obj) (T : TraNumber) : World Obj :=
  { w with ended := update w.ended T true, latest := update w.latest T none }

def context (w : World Obj) (out : Outside Obj) : Context Obj :=
  { tip := w.tip, oldestActive := out.oldestActive, nextTransaction := w.nextTransaction
    commitNumber := out.commitNumber, versioned := out.versioned }

def quietOutside : Outside Obj :=
  { oldestActive := 0, commitNumber := true
    versioned := { create := none, scan := fun _ _ => none, reload := fun _ _ => none } }

variable [DecidableEq Obj]

def after (w : World Obj) : Op Obj → World Obj
  | .start => { w with nextTransaction := w.nextTransaction + 1 }
  | .setState number state => { w with tip := update w.tip number state }
  | .call out c => w.observe c.caller (c.run (w.context out) w.element)
  | .commit cur => (w.observe cur (w.element.commit (w.context quietOutside))).finish cur
  | .rollback cur => (w.observe cur (w.element.rollback cur)).finish cur

/-- A transaction commits its changes once, when it has some and is not dead, or rolls them back once; a state in
    the inventory is final when it is neither active nor limbo. -/
def Allowed (w : World Obj) : Op Obj → Prop
  | .start => True
  | .setState number _ => w.tip number = .active ∨ w.tip number = .limbo
  | .call _ c => c.adds = true → w.ended c.caller = false
  | .commit cur => w.ended cur = false ∧ w.tip cur ≠ .dead ∧ w.latest cur ≠ none
  | .rollback cur => w.ended cur = false

instance (w : World Obj) : (op : Op Obj) → Decidable (w.Allowed op)
  | .start => inferInstanceAs (Decidable True)
  | .setState number _ => inferInstanceAs (Decidable (w.tip number = .active ∨ w.tip number = .limbo))
  | .call _ c => inferInstanceAs (Decidable (c.adds = true → w.ended c.caller = false))
  | .commit cur => inferInstanceAs (Decidable (w.ended cur = false ∧ w.tip cur ≠ .dead ∧ w.latest cur ≠ none))
  | .rollback cur => inferInstanceAs (Decidable (w.ended cur = false))

/-- The call finds no entry of a transaction that is committed in the inventory and has not committed the entry. -/
def Quiet (w : World Obj) : Op Obj → Prop
  | .call _ c => c.asks = true → Clear w.tip c.caller w.element.list
  | _ => True

end World
end Firebird.Mdc
