import Firebird.Vio.Chain

/-! # Intermediate garbage collection

`VIO_intermediate_gc` of `src/jrd/vio.cpp` drops the committed versions that no snapshot needs: it
reads all versions, splits them, stores the staying ones again as a new chain and deletes the old
one. Nobody changes the record meanwhile. -/

namespace Firebird.Vio

open Tpc (TraNumber CommitNumber ActiveSnapshots IsCommitted)

/-- A version read by `list_staying`, in a block of its own. -/
structure StayingRecord where
  transaction : TraNumber
  record : Record

/-- The versions from this slot on, as `list_staying` reads them: the next older one is found by a walk from the
    primary version. -/
def listStayingFrom (formats : Formats) (pages : Pages) : Nat → Prior → Bool → Slot →
    Except VioError (List StayingRecord)
  | 0, _, _, _ => .error .outOfFuel
  | fuel + 1, data, delta, slot =>
    let read : Except VioError (Prior × List StayingRecord) :=
      if slot.deleted then .ok (data, [])
      else
        match vioData formats (Record.new formats slot.format) (bif delta then data else .none) slot with
        | .error e => .error e
        | .ok record => .ok (.record record, if slot.gcActive then [] else [⟨slot.transaction, record⟩])
    match read, slot.back with
    | .error e, _ => .error e
    | .ok (_, staying), none => .ok staying
    | .ok (data, staying), some back =>
      match dpmFetch pages back with
      | none => .error .noBackVersion
      | some older =>
        match listStayingFrom formats pages fuel data slot.delta older with
        | .error e => .error e
        | .ok older => .ok (staying ++ older)

/-- The versions that are stored in the relation, from the newest on. -/
def listStaying (formats : Formats) (pages : Pages) (head : Slot) : Except VioError (List StayingRecord) :=
  listStayingFrom formats pages (pages.length + 1) .none false head

/-- The snapshot a version is kept for, none (0) for a transaction that is not committed. -/
def snapshotForVersion (cacheState : TraNumber → CommitNumber) (active : ActiveSnapshots)
    (n : TraNumber) : CommitNumber :=
  if IsCommitted (cacheState n) then active.getSnapshotForVersion (cacheState n) else 0

section Split
variable {α : Type} (snapshot : α → CommitNumber)

/-- A version is going if it is for the same snapshot as the next newer one. -/
def going (previous : CommitNumber) : List α → List α
  | [] => []
  | r :: staying =>
    if snapshot r ≠ 0 ∧ snapshot r = previous then r :: going (snapshot r) staying else going (snapshot r) staying

def staying (previous : CommitNumber) : List α → List α
  | [] => []
  | r :: older =>
    if snapshot r ≠ 0 ∧ snapshot r = previous then staying (snapshot r) older else r :: staying (snapshot r) older

end Split

/-- The difference a version is stored as, if it is shorter than the data. -/
def deltaOf (current org : Bytes) : Option Bytes :=
  (Sqz.Difference.make current org).filter fun difference => 0 < difference.length ∧ difference.length < org.length

/-- The slot of a staying version, behind it the version stored last. -/
def StayingRecord.slot (formats : Formats) (org : StayingRecord) (difference : Option Bytes) (back : Option Address)
    (priorDelta : Bool) : Slot where
  transaction := org.transaction
  format := org.record.format
  deleted := false
  delta := priorDelta
  chained := true
  gcActive := false
  back
  data := difference.getD (org.record.bytes formats)

/-- Store the staying versions behind the newest one, from the oldest on. The result has the address of
    the version stored last, and whether it is a difference. -/
def storeStaying (formats : Formats) (pages : Pages) : List StayingRecord → Pages × Option Address × Bool
  | [] => (pages, none, false)
  | [_] => (pages, none, false)
  | current :: org :: older =>
    let (pages, back, priorDelta) := storeStaying formats pages (org :: older)
    let difference := deltaOf (current.record.bytes formats) (org.record.bytes formats)
    let (pages, address) := dpmStore pages (org.slot formats difference back priorDelta)
    (pages, some address, difference.isSome)

/-- All the staying versions are stored if the primary version is deleted, the newest one whole. -/
def storeStayingChain (formats : Formats) (pages : Pages) (deleted : Bool) (staying : List StayingRecord) :
    Pages × Option Address × Bool :=
  let (pages, back, priorDelta) := storeStaying formats pages staying
  match deleted, staying with
  | true, current :: _ =>
    let (pages, address) := dpmStore pages (current.slot formats none back priorDelta)
    (pages, some address, false)
  | _, _ => (pages, back, priorDelta)

def deleteVersionChain (pages : Pages) : Nat → Option Address → Except VioError Pages
  | _, none => .ok pages
  | 0, some _ => .error .outOfFuel
  | fuel + 1, some back =>
    match dpmFetch pages back with
    | none => .error .noBackVersion
    | some slot => deleteVersionChain (dpmDelete pages back) fuel slot.back

def vioIntermediateGc (formats : Formats) (cacheState : TraNumber → CommitNumber) (active : ActiveSnapshots)
    (pages : Pages) (primary : Address) : Except VioError Pages :=
  match dpmGet pages primary with
  | none => .ok pages
  | some head =>
    if head.gcActive then .ok pages
    else
      match listStaying formats pages head with
      | .error e => .error e
      | .ok records =>
        let snapshot := fun r : StayingRecord => snapshotForVersion cacheState active r.transaction
        if records.length ≤ 1 then .ok pages
        else if going snapshot 0 records = [] then .ok pages
        else
          let (stored, back, priorDelta) := storeStayingChain formats pages head.deleted (staying snapshot 0 records)
          deleteVersionChain (dpmRewriteHeader stored primary { head with back, delta := priorDelta })
            (pages.length + 1) head.back

end Firebird.Vio
