import Firebird.Repl.Replicator

/-! # Reading a block

How the replica takes a block apart (`BlockReader` and `Applier::process` in `src/jrd/replication/Applier.cpp`). A
block that is malformed gives `none`. -/

namespace Firebird.Repl
open Lib

def csUtf8 : UInt8 := 4

namespace BlockReader

def getByte : Reader UInt8 := do
  let value ← takeNumber 1
  return UInt8.ofNat value

/-- The only use of `getInt16` takes the value as unsigned. -/
def getInt16 : Reader Nat := takeNumber 2

def getInt32 : Reader Int := do
  let value ← takeNumber 4
  return if value < 2 ^ 31 then (value : Int) else (value : Int) - 2 ^ 32

/-- The conversion to `ULONG`. -/
def ulong (value : Int) : Nat := (value % 2 ^ 32).toNat

def getInt64 : Reader UInt64 := do
  let value ← takeNumber 8
  return UInt64.ofNat value

def getBinary (length : Nat) : Reader (List UInt8) := takeBytes length

def malformed {α : Type} : Reader α := fun _ => none

def getAtomString (atoms : List Text) : Reader Text := do
  let pos ← getInt32
  if pos < 0 then malformed
  else match atoms[pos.toNat]? with
    | some atom => return atom
    | none => malformed

def getAtomMetaName (atoms : List Text) : Reader Text := do
  let atom ← getAtomString atoms
  return (MetaString.assign atom).text

def getAtomQualifiedName (atoms : List Text) : Reader QualifiedName := do
  let schema ← getAtomMetaName atoms
  let object ← getAtomMetaName atoms
  return ⟨schema, object⟩

def getString : Reader Text := do
  let length ← getInt32
  if length < 0 then malformed else takeBytes length.toNat

def defineAtom : Reader Text := do
  let length ← getByte
  let data ← getBinary length.toNat
  return (MetaString.assign data).text

def isEof : Reader Bool := fun data => some (data.isEmpty, data)

/-- The loop over the segments of a blob; it ends at an empty segment or with the block. -/
def getSegments (blobId : BlobId) : Nat → Reader (List Action)
  | 0 => malformed
  | fuel + 1 => do
    let length ← getInt16
    if length = 0 then return [.storeBlob blobId []]
    else
      let blob ← getBinary length
      if ← isEof then return [.storeBlob blobId blob]
      else
        let actions ← getSegments blobId fuel
        return .storeBlob blobId blob :: actions

def getBlob : Reader (List Action) := do
  let high ← getInt32
  let low ← getInt32
  fun data => getSegments ⟨UInt32.ofNat (ulong high), UInt32.ofNat (ulong low)⟩ data.length data

/-- What one operation makes the applier do, and the dictionary after it. -/
def getOperation (atoms : List Text) : Operation → Reader (List Action × List Text)
  | .opStartTransaction => return ([.startTransaction], atoms)
  | .opPrepareTransaction => return ([.prepareTransaction], atoms)
  | .opCommitTransaction => return ([.commitTransaction], atoms)
  | .opRollbackTransaction => return ([.rollbackTransaction], atoms)
  | .opCleanupTransaction => return ([.cleanupTransaction], atoms)
  | .opStartSavepoint => return ([.startSavepoint], atoms)
  | .opReleaseSavepoint => return ([.cleanupSavepoint false], atoms)
  | .opRollbackSavepoint => return ([.cleanupSavepoint true], atoms)
  | .opInsertRecord => do
    let relName ← getAtomQualifiedName atoms
    let length ← getInt32
    let record ← getBinary (ulong length)
    return ([.insertRecord relName record], atoms)
  | .opUpdateRecord => do
    let relName ← getAtomQualifiedName atoms
    let orgLength ← getInt32
    let orgRecord ← getBinary (ulong orgLength)
    let newLength ← getInt32
    let newRecord ← getBinary (ulong newLength)
    return ([.updateRecord relName orgRecord newRecord], atoms)
  | .opDeleteRecord => do
    let relName ← getAtomQualifiedName atoms
    let length ← getInt32
    let record ← getBinary (ulong length)
    return ([.deleteRecord relName record], atoms)
  | .opStoreBlob => do
    let actions ← getBlob
    return (actions, atoms)
  | .opExecuteSql => do
    let ownerName ← getAtomMetaName atoms
    let sql ← getString
    return ([.executeSql csUtf8 [] sql ownerName], atoms)
  | .opExecuteSqlIntl => do
    let ownerName ← getAtomMetaName atoms
    let schemaSearchPath ← getAtomString atoms
    let charset ← getByte
    let sql ← getString
    return ([.executeSql charset schemaSearchPath sql ownerName], atoms)
  | .opSetSequence => do
    let genName ← getAtomQualifiedName atoms
    let value ← getInt64
    return ([.setSequence genName value], atoms)
  | .opDefineAtom => do
    let name ← defineAtom
    return ([], atoms ++ [name])

/-- The loop of `Applier::process`, as the calls it makes. A tag that is no operation is passed over. -/
def process : Nat → List Text → List UInt8 → Option (List Action)
  | _, _, [] => some []
  | 0, _, _ :: _ => none
  | fuel + 1, atoms, tag :: data =>
    match Operation.ofCode tag with
    | none => process fuel atoms data
    | some op =>
      match (getOperation atoms op).run data with
      | none => none
      | some ((actions, atoms), rest) => (process fuel atoms rest).map (actions ++ ·)

end BlockReader

/-- `Applier::process` on a block: an operation takes a byte at least, so that the loop ends. -/
def Handed.process (block : Handed) : Option (List Action) :=
  if block.protocol = protocolCurrentVersion then BlockReader.process block.data.length [] block.data else none

end Firebird.Repl
