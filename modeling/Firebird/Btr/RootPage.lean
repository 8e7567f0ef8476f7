import Firebird.Btr.IndexRoot
import Firebird.Tpc.TipCache

/-! # Operations on the index root page

The functions of `src/jrd/btr.cpp` that look at the slots of an index root page and change them. The page is read and
written through a window that is fetched and released. What other attachments and other parts of the engine answer
comes from the surroundings, question by question: the page may be changed whenever it is not held, transactions may
end, any call may fail. Marking the page as dirty and the contents of key descriptors are left out.

A pointer to a slot that is taken anew after each fetch is the number of the slot. Two pointers are kept while the page
is released and fetched again; these remember the fetch that they come from. `root` of `BTR_copy_index` outlives a fetch
too, but only where `indexRpt` has already been used after one. -/

namespace Firebird.Btr
open Tpc (TraState)

/-- What the functions meet outside; the first argument of an answer is the number of questions asked before. -/
structure Surroundings where
  /-- What others did to the page before it is fetched. -/
  others : Nat → IndexRootPage → IndexRootPage
  /-- The call that asks fails. -/
  fails : Nat → Bool
  cacheState : Nat → Nat → TraState
  presence : Nat → Nat → Bool
  traWait : Nat → Nat → TraState
  oldestActive : Nat → Nat
  nextNumber : Nat → Nat
  newTree : Nat → PageNumber
  codeFound : Nat → Bool
  transaction : Option Nat
  hasRootPage : Bool
  sweeper : Bool
  useIdxId : Bool
  maxIdx : Nat
  pageSize : Nat

/-- What becomes of trees, by their root pages. -/
inductive TreeEvent where
  | built (rootPage : PageNumber)
  | deleted (rootPage : PageNumber)
  deriving DecidableEq

/-- The pointers that are kept over a fetch, of `BTR_reserve_slot` and of `BTR_copy_index`. -/
inductive RootPointer where
  | slot | indexRpt
  deriving DecidableEq

/-- A slot, and how often the page had been fetched when it was pointed to. -/
structure SlotPointer where
  id : Nat
  fetch : Nat

structure World where
  page : IndexRootPage
  held : Bool
  clock : Nat
  asserted : Bool
  trees : List TreeEvent
  fetches : Nat
  /-- The uses of pointers into the page of an earlier fetch. -/
  stale : List RootPointer

inductive RootError where
  /-- The window was fetched while held, or released, read or written while not held. -/
  | latch
  | badState
  | inconsistent
  | failed

abbrev Act := EStateM RootError World

def ask {α : Type} (answer : Nat → α) : Act α := fun w => .ok (answer w.clock) { w with clock := w.clock + 1 }

def isHeld : Act Bool := fun w => .ok w.held w

def fetchRoot (env : Surroundings) : Act Unit := fun w =>
  if w.held then .error .latch w
  else if env.fails w.clock then .error .failed { w with clock := w.clock + 1 }
  else .ok () { w with page := env.others w.clock w.page, held := true, clock := w.clock + 1, fetches := w.fetches + 1 }

def releaseRoot : Act Unit := fun w => if w.held then .ok () { w with held := false } else .error .latch w

def readRoot : Act IndexRootPage := fun w => if w.held then .ok w.page w else .error .latch w

def writeRoot (f : IndexRootPage → IndexRootPage) : Act Unit := fun w =>
  if w.held then .ok () { w with page := f w.page } else .error .latch w

def setSlot (id : Nat) (f : IrtRepeat → Asserted) : Act Unit := fun w =>
  if w.held then
    let result := f (w.page.rpt id)
    .ok () { w with page := w.page.setSlot id result.slot, asserted := w.asserted && result.holds }
  else .error .latch w

def pointTo (id : Nat) : Act SlotPointer := fun w => .ok ⟨id, w.fetches⟩ w

/-- The slot that the pointer leads to; one of an earlier fetch may lead anywhere, but is taken for the same slot. -/
def usePointer (name : RootPointer) (p : SlotPointer) : Act Nat := fun w =>
  .ok p.id { w with stale := if p.fetch = w.fetches then w.stale else name :: w.stale }

def onlyIf (c : Bool) (x : Act Unit) : Act Unit := if c then x else pure ()

def external (env : Surroundings) : Act Unit := do
  let fails ← ask env.fails
  if fails then throw .failed else pure ()

def deleteTree (env : Surroundings) (rootPage : PageNumber) : Act Unit := do
  modify fun w => { w with trees := .deleted rootPage :: w.trees }
  external env

def buildTree (env : Surroundings) : Act PageNumber := do
  let rootPage ← ask env.newTree
  modify fun w => { w with trees := .built rootPage :: w.trees }
  pure rootPage

/-! ### Slots -/

def transactionState (env : Surroundings) (descTrans idxId : Nat) (creating : Bool) : Act TraState := do
  let rc ← ask (env.cacheState · descTrans)
  if rc = .committed then
    external env
    let present ← ask (env.presence · idxId)
    pure (if present = creating then .committed else .dead)
  else pure rc

def getIndexSlot (env : Surroundings) (indexId : Nat) : Act Nat := do
  let root ← readRoot
  let rpt := root.rpt indexId
  let traNumber := env.transaction.getD 0
  if rpt.state = .migrate ∧ traNumber ≠ 0 ∧ rpt.transaction ≠ traNumber then
    match root.getBackSlot rpt with
    | none => throw .inconsistent
    | some backSlot => pure backSlot
  else pure indexId

def checkIrtRepeat (env : Surroundings) (id : Nat) (skipInProgress : Bool) : Act Bool := do
  let root ← readRoot
  let irtTrans := (root.rpt id).transaction
  let oldestActive ← ask env.oldestActive
  match (root.rpt id).state with
  | .unused | .normal => pure false
  | .inProgress | .concurrently =>
    if skipInProgress then pure false
    else
      let state ← ask (env.cacheState · irtTrans)
      if state = .active then pure false
      else
        releaseRoot
        pure true
  | .rollback | .commit | .kill | .migrate =>
    let state ← ask (env.cacheState · irtTrans)
    if state = .committed ∨ state = .dead then
      onlyIf (!skipInProgress) releaseRoot
      pure true
    else pure false
  | .drop =>
    if oldestActive ≤ irtTrans then pure false
    else
      onlyIf (!skipInProgress) releaseRoot
      pure true

def deleteIndex (env : Surroundings) (id : Nat) (withCleanup : Bool) : Act Bool := do
  let root ← readRoot
  if id < root.count then
    match (root.rpt id).getRootPage with
    | some rootPage =>
      -- the tablespace is locked
      let fails ← ask env.fails
      if fails then
        releaseRoot
        throw .failed
      else
        writeRoot fun root => root.setSlot id (root.rpt id).setEmpty
        releaseRoot
        deleteTree env rootPage
        onlyIf withCleanup (external env)
        pure true
    | none =>
      writeRoot fun root => root.setSlot id (root.rpt id).setEmpty
      releaseRoot
      onlyIf withCleanup (external env)
      pure false
  else
    releaseRoot
    pure false

inductive ModifyIrtRepeatValue where
  | skip | modified | relock | deleted
  deriving DecidableEq

/-- A migration has ended, with the new tree if it was committed, with the original one otherwise. -/
def endMigration (indexId backId : Nat) (committed : Bool) : Act Unit := do
  if committed then
    setSlot indexId IrtRepeat.setNormal
    setSlot backId IrtRepeat.setKillBack
  else
    let root ← readRoot
    match (root.rpt backId).getRootPage with
    | none => throw .failed
    | some orgRootPage =>
      setSlot indexId (·.setNormalRoot orgRootPage)
      match (root.rpt indexId).getRootPage with
      | none => throw .failed
      | some newRootPage => setSlot backId (·.setKillRoot newRootPage)

def creatorState (env : Surroundings) (irtTrans : Nat) (fromActivate : Bool) : Act TraState :=
  if env.transaction = some irtTrans then pure (if fromActivate then .us else .active)
  else do
    external env
    ask (env.traWait · irtTrans)

def modifyIrtRepeat (env : Surroundings) (indexId : Nat) (fromActivate : Bool) : Act ModifyIrtRepeatValue := do
  let root ← readRoot
  let irtDesc := root.rpt indexId
  let irtTrans := irtDesc.transaction
  let oldestActive ← ask env.oldestActive
  match irtDesc.state with
  | .unused | .normal => pure .skip
  | .inProgress | .concurrently =>
    releaseRoot
    let state ← creatorState env irtTrans fromActivate
    fetchRoot env
    if state = .active then pure .skip
    else
      let root ← readRoot
      if (root.rpt indexId).state ≠ irtDesc.state then
        releaseRoot
        pure .relock
      else
        let _ ← deleteIndex env indexId false
        pure .deleted
  | .rollback =>
    let state ← transactionState env irtTrans indexId true
    if state = .committed then
      setSlot indexId IrtRepeat.setNormal
      pure .modified
    else if state = .dead then
      let _ ← deleteIndex env indexId !fromActivate
      pure .deleted
    else pure .skip
  | .kill =>
    let state ← ask (env.cacheState · irtTrans)
    if state = .committed ∨ state = .dead then
      let _ ← deleteIndex env indexId !fromActivate
      pure .deleted
    else pure .skip
  | .commit =>
    let state ← transactionState env irtTrans indexId false
    if state = .committed then
      let next ← ask env.nextNumber
      setSlot indexId (·.setDrop next)
      releaseRoot
      external env
      pure .relock
    else if state = .dead then
      setSlot indexId IrtRepeat.setNormal
      pure .modified
    else pure .skip
  | .drop =>
    if irtTrans < oldestActive then
      let _ ← deleteIndex env indexId !fromActivate
      pure .deleted
    else pure .skip
  | .migrate =>
    let state ← transactionState env irtTrans indexId false
    if state ≠ .committed ∧ state ≠ .dead then pure .skip
    else
      match root.getBackSlot irtDesc with
      | none =>
        releaseRoot
        throw .inconsistent
      | some backId =>
        endMigration indexId backId (state = .committed)
        let _ ← deleteIndex env backId false
        pure .relock

/-- What `BTR_description` finds that the functions here use. -/
structure Described where
  root : PageNumber
  count : Nat
  flags : BitVec 16

def codeFlags : BitVec 16 := 0x10 ||| 0x20

def lookupIndexCode (env : Surroundings) (rpt : IrtRepeat) : Act Bool :=
  if rpt.flags &&& codeFlags ≠ 0 then do
    external env
    ask env.codeFound
  else pure true

def description (env : Surroundings) (id : Nat) : Act (Option Described) := do
  let root ← readRoot
  if root.count ≤ id then pure none
  else
    let slot ← getIndexSlot env id
    match (root.rpt slot).getRootPage with
    | none => pure none
    | some rootPage =>
      let rpt := root.rpt slot
      let found ← lookupIndexCode env rpt
      if found then
        external env
        pure (some ⟨rootPage, rpt.keys, rpt.flags⟩)
      else if env.sweeper then pure none
      else throw .failed

/-! ### The callers -/

/-- Most callers fetch the window again where `modifyIrtRepeat` has released it. -/
def refetch (env : Surroundings) : ModifyIrtRepeatValue → Act Unit
  | .skip | .modified => pure ()
  | .relock | .deleted => fetchRoot env

def releaseModified : ModifyIrtRepeatValue → Act Unit
  | .skip | .modified => releaseRoot
  | .relock | .deleted => pure ()

/-- A slot is brought up to date by `BTR_next_index`; the answer is that its index was deleted. -/
def refreshSlot (env : Surroundings) (id : Nat) : Act Bool := do
  let slot ← getIndexSlot env id
  let needed ← checkIrtRepeat env slot false
  if needed then
    fetchRoot env
    let modValue ← modifyIrtRepeat env id false
    releaseModified modValue
    fetchRoot env
    pure (modValue = .deleted)
  else pure false

/-- The loop of `BTR_next_index` -/
def nextIndexFrom (env : Surroundings) (id : Nat) : Act Bool := do
  let root ← readRoot
  if h : id < root.count then
    let deleted ← refreshSlot env id
    if deleted then nextIndexFrom env (id + 1)
    else
      let found ← description env id
      if found.isSome then pure true else nextIndexFrom env (id + 1)
  else
    releaseRoot
    pure false
termination_by 2 ^ 16 - id
decreasing_by all_goals
  have := root.count_lt
  omega

def releaseIfHeld : Act Unit := do
  let held ← isHeld
  onlyIf held releaseRoot

def nextIndexFetched (env : Surroundings) (id : Nat) (held : Bool) : Act Bool := do
  if held = false ∧ env.hasRootPage = false then pure false
  else
    onlyIf (!held) (fetchRoot env)
    tryCatch (nextIndexFrom env id) fun e => do
      releaseIfHeld
      throw e

/-- `BTR_next_index`; no `idxId` is `idx_invalid`, for which `window->win_bdb` is cleared. -/
def nextIndex (env : Surroundings) (idxId : Option Nat) : Act Bool := do
  match idxId with
  | none => nextIndexFetched env 0 false
  | some id =>
    let held ← isHeld
    nextIndexFetched env (id + 1) held

def cleanupIndex (env : Surroundings) (id : Nat) : Act Bool := do
  if env.hasRootPage = false then pure false
  else
    fetchRoot env
    let needed ← checkIrtRepeat env id false
    if needed then
      fetchRoot env
      let modValue ← modifyIrtRepeat env id false
      match modValue with
      | .skip | .modified =>
        let root ← readRoot
        releaseRoot
        pure ((root.rpt id).state = .drop)
      | .deleted => pure true
      | .relock => pure false
    else
      releaseRoot
      pure false

def checkTransactionNumber (irtDesc : IrtRepeat) (tran : Nat) : Act Unit :=
  if irtDesc.transaction ≠ tran then throw .failed else pure ()

/-- What `BTR_mark_index_for_delete` makes of a slot that is up to date. -/
def markSlot (id traNumber : Nat) : Act Unit := do
  let root ← readRoot
  let irtDesc := root.rpt id
  match irtDesc.state with
  | .unused | .drop => pure ()
  | .commit => if traNumber = irtDesc.transaction then pure () else throw .badState
  | .inProgress | .concurrently | .kill => throw .badState
  | .rollback =>
    checkTransactionNumber irtDesc traNumber
    setSlot id (·.setKill traNumber)
  | .normal | .migrate => setSlot id (·.setCommit traNumber)

def markIndex (env : Surroundings) (id traNumber : Nat) : Act Unit := do
  let root ← readRoot
  let traNumber := if traNumber = 0 then env.transaction.getD 0 else traNumber
  if id < root.count ∧ traNumber ≠ 0 then
    let modValue ← modifyIrtRepeat env id false
    if modValue = .deleted then pure ()
    else
      refetch env modValue
      markSlot id traNumber
  else pure ()

/-- `BTR_mark_index_for_delete`, which releases the window in any case -/
def markIndexForDelete (env : Surroundings) (id traNumber : Nat) : Act Unit := do
  tryCatch (markIndex env id traNumber) fun e => do
    releaseIfHeld
    throw e
  releaseIfHeld

/-- What `BTR_activate_index` makes of a slot that is up to date. -/
def activateSlot (id traNumber : Nat) : Act Bool := do
  let root ← readRoot
  let irtDesc := root.rpt id
  match irtDesc.state with
  | .unused | .drop => pure false
  | .inProgress | .concurrently | .rollback | .normal | .migrate => throw .badState
  | .commit =>
    checkTransactionNumber irtDesc traNumber
    setSlot id IrtRepeat.setNormal
    pure true
  | .kill =>
    checkTransactionNumber irtDesc traNumber
    setSlot id (·.setRollback traNumber)
    pure true

def activate (env : Surroundings) (id : Nat) : Act Bool := do
  let root ← readRoot
  match env.transaction with
  | none => pure false
  | some tra =>
    if id < root.count then
      let modValue ← modifyIrtRepeat env id true
      refetch env modValue
      activateSlot id tra
    else pure false

def activateIndex (env : Surroundings) (id : Nat) : Act Bool := do
  if env.hasRootPage = false then pure false
  else
    fetchRoot env
    let rc ← activate env id
    releaseRoot
    pure rc

inductive IdxCreate where
  | atOnce | forRollback | concurrently

structure IndexCreation where
  createMethod : IdxCreate
  traNumber : Nat
  idxId : Nat
  count : Nat
  flags : BitVec 16

def irtdSize : Nat := 12
/-- `sizeof(index_root_page::irt_repeat)`, which is `offsetof(irt_rpt)` too -/
def irtRepeatSize : Nat := 24

def refreshUsed (env : Surroundings) (creation : IndexCreation) (retry id : Nat) : Act Unit := do
  let skipInProgress := if creation.idxId = id ∧ env.useIdxId then false else retry ≠ 1
  let needed ← checkIrtRepeat env id skipInProgress
  if needed then
    onlyIf (!skipInProgress) (fetchRoot env)
    let modValue ← modifyIrtRepeat env id false
    refetch env modValue
  else pure ()

/-- The loop of `BTR_reserve_slot` over the slots: the empty slot to use, and where the descriptors begin. -/
def scanSlots (env : Surroundings) (creation : IndexCreation) (retry id : Nat) (slot : Option SlotPointer)
    (space : Nat) : Act (Option SlotPointer × Nat) := do
  let root ← readRoot
  if h : id < root.count then
    onlyIf (root.rpt id).isUsed (refreshUsed env creation retry id)
    let now ← readRoot
    if (now.rpt id).isUsed then scanSlots env creation retry (id + 1) slot (min space (now.rpt id).desc)
    else
      let here ← pointTo id
      let slot := if slot.isNone && (!env.useIdxId || id = creation.idxId) then some here else slot
      scanSlots env creation retry (id + 1) slot space
  else pure (slot, space)
termination_by 2 ^ 16 - id
decreasing_by all_goals
  have := root.count_lt
  omega

/-- `compress_root`: the descriptors of used slots are moved to the end of the page. -/
def compressRoot (pageSize : Nat) (root : IndexRootPage) : IndexRootPage :=
  ((List.range root.count).foldl (fun (root, p) id =>
    if (root.rpt id).isUsed then
      let p := p - (root.rpt id).keys * irtdSize
      (root.setSlot id { root.rpt id with desc := p }, p)
    else (root, p)) (root, pageSize)).1

/-- The loop of `BTR_reserve_slot` over its tries, `left` of which remain after this one. -/
def findPlace (env : Surroundings) (creation : IndexCreation) (left : Nat) : Act (Option SlotPointer × Nat) := do
  let (slot, space) ← scanSlots env creation (2 - left) 0 none env.pageSize
  let root ← readRoot
  let space := (space + 2 ^ 16 - creation.count * irtdSize % 2 ^ 16) % 2 ^ 16
  if space < irtRepeatSize + irtRepeatSize * (root.count + 1) then
    match left with
    | 0 =>
      releaseRoot
      throw .failed
    | left + 1 =>
      onlyIf (left = 0) (writeRoot (compressRoot env.pageSize))
      findPlace env creation left
  else pure (slot, space)

def emptyRepeat : IrtRepeat := ⟨0, 0, 0, 0, 0, .unused, 0, 0⟩

def extendTo (id : Nat) (root : IndexRootPage) : IndexRootPage where
  count := (id + 1) % 2 ^ 16
  rpt n := if root.count ≤ n ∧ n ≤ id then emptyRepeat else root.rpt n
  count_lt := Nat.mod_lt _ (by decide)

def addSlot (root : IndexRootPage) : IndexRootPage where
  count := (root.count + 1) % 2 ^ 16
  rpt := root.rpt
  count_lt := Nat.mod_lt _ (by decide)

def startCreation (env : Surroundings) (creation : IndexCreation) (id : Nat) : Act Unit :=
  match creation.createMethod with
  | .atOnce | .forRollback => setSlot id (·.setInProgress creation.traNumber)
  | .concurrently => do
    external env
    let leaf ← buildTree env
    setSlot id (·.setConcurrentlyTemp leaf creation.traNumber)

def reserveSlot (env : Surroundings) (creation : IndexCreation) : Act Nat := do
  fetchRoot env
  let root ← readRoot
  if env.maxIdx < root.count then
    releaseRoot
    throw .failed
  else
    onlyIf (env.useIdxId && root.count ≤ creation.idxId) (writeRoot (extendTo creation.idxId))
    let (slot, space) ← findPlace env creation 2
    let root ← readRoot
    let id ← slot.elim (pure root.count) (usePointer .slot)
    onlyIf slot.isNone (writeRoot addSlot)
    writeRoot fun root =>
      root.setSlot id { root.rpt id with desc := space, keys := creation.count, flags := creation.flags }
    startCreation env creation id
    releaseRoot
    pure id

def finishCreation (creation : IndexCreation) (id : Nat) (tree : PageNumber) : Act Unit :=
  match creation.createMethod with
  | .atOnce => setSlot id (·.setNormalRoot tree)
  | .forRollback => setSlot id (·.setRollbackRoot tree creation.traNumber)
  | .concurrently => setSlot id (·.setConcurrentlyMain tree creation.traNumber)

def create (env : Surroundings) (creation : IndexCreation) (id : Nat) : Act Unit := do
  external env
  let tree ← buildTree env
  external env
  fetchRoot env
  finishCreation creation id tree
  releaseRoot

/-- The beginning of `BTR_copy_index`; the answer is that it goes on, with the window held. -/
def copyReady (env : Surroundings) (indexId : Nat) : Act Bool := do
  let indexRpt ← pointTo indexId
  -- the index number is passed where the function asks whether to skip slots in progress
  let needed ← checkIrtRepeat env indexId (indexId ≠ 0)
  if needed then
    fetchRoot env
    let id ← usePointer .indexRpt indexRpt
    let modValue ← modifyIrtRepeat env id false
    match modValue with
    | .skip | .modified =>
      let id ← usePointer .indexRpt indexRpt
      let root ← readRoot
      if (root.rpt id).state = .drop then
        releaseRoot
        pure false
      else pure true
    | .deleted => pure false
    | .relock =>
      fetchRoot env
      pure true
  else pure true

/-- The tree of an index is copied into another tablespace, and a new slot keeps the original one. -/
def copyTree (env : Surroundings) (indexId traNumber : Nat) (idx : Described) : Act Unit := do
  releaseRoot
  external env
  let backIndexId ← reserveSlot env ⟨.forRollback, traNumber, indexId, idx.count, idx.flags⟩
  external env
  let newRootPage ← buildTree env
  fetchRoot env
  setSlot indexId (·.setMigrate newRootPage traNumber backIndexId)
  setSlot backIndexId (·.setInProgressRoot idx.root traNumber)

def copyDescribed (env : Surroundings) (indexId : Nat) : Act Unit := do
  let idx ← description env indexId
  match idx with
  | none => pure ()
  | some idx => copyTree env indexId (env.transaction.getD 0) idx

def copyIndex (env : Surroundings) (indexId : Nat) : Act Unit := do
  if env.hasRootPage = false then pure ()
  else
    fetchRoot env
    let ready ← copyReady env indexId
    if ready then
      copyDescribed env indexId
      releaseRoot
    else pure ()

end Firebird.Btr
