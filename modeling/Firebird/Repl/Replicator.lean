import Firebird.Repl.Protocol
import Firebird.Lib.Wire

/-! # The replicator

The blocks that the primary fills and hands to its manager (`src/jrd/replication/Replicator.h`, `Replicator.cpp`). -/

namespace Firebird.Repl

def sizeofBlock : Nat := 16
def maxUlong : Nat := 2 ^ 32 - 1
def protocolCurrentVersion : Nat := 2
def blockBeginTrans : Nat := 1
def blockEndTrans : Nat := 2

inductive FlushReason where
  | flushOverflow
  | flushPrepare
  | flushSync

/-- The block that a transaction fills. `stands` is not in the source: it says what has been put since the last
    flush. -/
structure BatchBlock where
  traNumber : Nat
  flags : Nat
  data : List UInt8
  atoms : List Text
  lastAtom : Nat
  flushes : Nat
  stands : List Action

/-- A block in the hands of the manager. `stands` is not in the source. -/
structure Handed where
  traNumber : Nat
  protocol : Nat
  flags : Nat
  data : List UInt8
  reason : FlushReason
  stands : List Action

structure GeneratorValue where
  name : QualifiedMetaString
  value : UInt64

structure Replicator where
  bufferSize : Nat
  user : MetaString
  generators : List GeneratorValue
  handed : List Handed

namespace BatchBlock

def getSize (block : BatchBlock) : Nat := sizeofBlock + block.data.length

def add (block : BatchBlock) (bytes : List UInt8) : BatchBlock := { block with data := block.data ++ bytes }

def putByte (block : BatchBlock) (value : UInt8) : BatchBlock := block.add [value]

def putTag (block : BatchBlock) (tag : Operation) : BatchBlock := block.putByte tag.code

def putInt16 (block : BatchBlock) (value : Nat) : BatchBlock := block.add (Lib.leBytes 2 value)

def putInt32 (block : BatchBlock) (value : Nat) : BatchBlock := block.add (Lib.leBytes 4 value)

def putInt64 (block : BatchBlock) (value : UInt64) : BatchBlock := block.add (Lib.leBytes 8 value.toNat)

def putBinary (block : BatchBlock) (data : List UInt8) : BatchBlock := block.add data

def putMetaName (block : BatchBlock) (name : MetaString) : BatchBlock :=
  (block.putByte (UInt8.ofNat name.text.length)).add name.text

def putString (block : BatchBlock) (str : Text) : BatchBlock := (block.putInt32 str.length).add str

/-- What the bytes put last stand for. -/
def standsFor (block : BatchBlock) (action : Action) : BatchBlock := { block with stands := block.stands ++ [action] }

/-- The number of a name in the dictionary of the block; a new name is defined first. -/
def defineAtom (block : BatchBlock) (name : Text) : Nat × BatchBlock :=
  if block.atoms[block.lastAtom]? = some name then (block.lastAtom, block)
  else
    let pos := block.atoms.idxOf name
    if pos < block.atoms.length then (pos, { block with lastAtom := pos })
    else (pos, { ({ block with atoms := block.atoms ++ [name] }.putTag .opDefineAtom).putMetaName (.assign name) with
      lastAtom := pos })

def defineQualifiedAtom (block : BatchBlock) (name : QualifiedMetaString) : (Nat × Nat) × BatchBlock :=
  let (schemaAtom, block) := block.defineAtom name.schema.text
  let (objectAtom, block) := block.defineAtom name.object.text
  ((schemaAtom, objectAtom), block)

def putGenerators (block : BatchBlock) (generators : List GeneratorValue) : BatchBlock :=
  generators.foldl (fun block generator =>
    let ((schemaAtom, objectAtom), block) := block.defineQualifiedAtom generator.name
    ((((block.putTag .opSetSequence).putInt32 schemaAtom).putInt32 objectAtom).putInt64 generator.value).standsFor
      (.setSequence ⟨generator.name.schema.text, generator.name.object.text⟩ generator.value)) block

end BatchBlock

/-- A segment as `getSegment` gives it to a buffer of `MAX_USHORT` bytes. -/
structure Segment where
  data : List UInt8
  short : data.length < 2 ^ 16
  deriving DecidableEq

/-- A field of a record; of a blob or an array with its id, unless it is null, and what the blob holds. -/
inductive ReplicatedField where
  | other
  | blob (blobId : Option BlobId) (segments : List Segment)
  deriving DecidableEq

structure ReplicatedRecord where
  fields : List ReplicatedField
  rawData : List UInt8
  rawLength : rawData.length < 2 ^ 32
  deriving DecidableEq

/-- The text of a statement; it is much shorter than this (`MAX_SQL_LENGTH`). -/
structure SqlText where
  text : Text
  short : text.length < 2 ^ 31
  deriving DecidableEq

def BlobId.isNull (blobId : BlobId) : Bool := blobId.gdsQuadHigh == 0 && blobId.gdsQuadLow == 0

namespace Replicator

def flush (replicator : Replicator) (block : BatchBlock) (reason : FlushReason) (flags : Nat) :
    Replicator × BatchBlock :=
  ({ replicator with handed := replicator.handed ++ [{
      traNumber := block.traNumber, protocol := protocolCurrentVersion, flags :=
        block.flags ||| flags, data := block.data
      reason, stands := block.stands }] },
    { traNumber := block.traNumber, flags := 0, data := [], atoms := [], lastAtom := maxUlong,
      flushes := block.flushes + 1
      stands := [] })

def flushOverflow (replicator : Replicator) (block : BatchBlock) : Replicator × BatchBlock :=
  if replicator.bufferSize < block.getSize then replicator.flush block .flushOverflow 0 else (replicator, block)

def putBlobHeader (block : BatchBlock) (blobId : BlobId) : BatchBlock :=
  ((block.putTag .opStoreBlob).putInt32 blobId.gdsQuadHigh.toNat).putInt32 blobId.gdsQuadLow.toNat

def putSegment (block : BatchBlock) (newOp : Bool) (blobId : BlobId) (segment : Segment) : BatchBlock :=
  let block := if newOp then putBlobHeader block blobId else block
  ((block.putInt16 segment.data.length).putBinary segment.data).standsFor (.storeBlob blobId segment.data)

def storeSegments (blobId : BlobId) : List Segment → Bool → Replicator → BatchBlock → Bool × Replicator × BatchBlock
  | [], newOp, replicator, block => (newOp, replicator, block)
  | segment :: segments, newOp, replicator, block =>
    if segment.data = [] then storeSegments blobId segments newOp replicator block
    else
      let block := putSegment block newOp blobId segment
      if replicator.bufferSize < block.getSize then
        let (replicator, block) := replicator.flush block .flushOverflow 0
        storeSegments blobId segments true replicator block
      else storeSegments blobId segments false replicator block

def storeBlob (replicator : Replicator) (block : BatchBlock) (blobId : BlobId) (segments : List Segment) :
    Replicator × BatchBlock :=
  let (newOp, replicator, block) := storeSegments blobId segments true replicator block
  let block := if newOp then putBlobHeader block blobId else block
  -- the end-of-blob marker
  replicator.flushOverflow ((block.putInt16 0).standsFor (.storeBlob blobId []))

def storeBlobs : List ReplicatedField → Replicator → BatchBlock → Replicator × BatchBlock
  | [], replicator, block => (replicator, block)
  | .blob (some blobId) segments :: fields, replicator, block =>
    if blobId.isNull then storeBlobs fields replicator block
    else
      let (replicator, block) := replicator.storeBlob block blobId segments
      storeBlobs fields replicator block
  | _ :: fields, replicator, block => storeBlobs fields replicator block

def startTransaction (number : Nat) : BatchBlock :=
  ({ traNumber := number, flags := blockBeginTrans, data := [], atoms := [], lastAtom := maxUlong, flushes :=
    0, stands := [] :
    BatchBlock }.putTag .opStartTransaction).standsFor .startTransaction

def prepareTransaction (replicator : Replicator) (block : BatchBlock) : Replicator × BatchBlock :=
  replicator.flush ((block.putTag .opPrepareTransaction).standsFor .prepareTransaction) .flushPrepare 0

def commitTransaction (replicator : Replicator) (block : BatchBlock) : Replicator × BatchBlock :=
  let block := block.putGenerators replicator.generators
  { replicator with generators := [] }.flush ((block.putTag .opCommitTransaction).standsFor
    .commitTransaction) .flushSync blockEndTrans

def rollbackTransaction (replicator : Replicator) (block : BatchBlock) : Replicator × BatchBlock :=
  if block.flushes ≠ 0 ∨ replicator.generators ≠ [] then
    let block := block.putGenerators replicator.generators
    let block := if block.flushes ≠ 0 then (block.putTag .opRollbackTransaction).standsFor
      .rollbackTransaction else block
    { replicator with generators := [] }.flush block .flushSync blockEndTrans
  else (replicator, block)

def startSavepoint (replicator : Replicator) (block : BatchBlock) : Replicator × BatchBlock :=
  replicator.flushOverflow ((block.putTag .opStartSavepoint).standsFor .startSavepoint)

def releaseSavepoint (replicator : Replicator) (block : BatchBlock) : Replicator × BatchBlock :=
  replicator.flushOverflow ((block.putTag .opReleaseSavepoint).standsFor (.cleanupSavepoint false))

def rollbackSavepoint (replicator : Replicator) (block : BatchBlock) : Replicator × BatchBlock :=
  replicator.flush ((block.putTag .opRollbackSavepoint).standsFor (.cleanupSavepoint true)) .flushSync 0

def insertRecord (replicator : Replicator) (block : BatchBlock) (schemaName tableName : Text)
    (record : ReplicatedRecord) : Replicator × BatchBlock :=
  let (replicator, block) := storeBlobs record.fields replicator block
  let ((schemaAtom, objectAtom), block) := block.defineQualifiedAtom ⟨.assign tableName, .assign schemaName⟩
  replicator.flushOverflow (((((block.putTag .opInsertRecord).putInt32 schemaAtom).putInt32 objectAtom).putInt32
    record.rawData.length).putBinary record.rawData |>.standsFor (.insertRecord ⟨schemaName, tableName⟩ record.rawData))

def updateRecord (replicator : Replicator) (block : BatchBlock) (schemaName tableName : Text)
    (orgRecord newRecord : ReplicatedRecord) : Replicator × BatchBlock :=
  let (replicator, block) := storeBlobs newRecord.fields replicator block
  let ((schemaAtom, objectAtom), block) := block.defineQualifiedAtom ⟨.assign tableName, .assign schemaName⟩
  replicator.flushOverflow (((((((block.putTag .opUpdateRecord).putInt32 schemaAtom).putInt32 objectAtom).putInt32
    orgRecord.rawData.length).putBinary orgRecord.rawData).putInt32 newRecord.rawData.length).putBinary
    newRecord.rawData |>.standsFor (.updateRecord ⟨schemaName, tableName⟩ orgRecord.rawData newRecord.rawData))

def deleteRecord (replicator : Replicator) (block : BatchBlock) (schemaName tableName : Text)
    (record : ReplicatedRecord) : Replicator × BatchBlock :=
  let ((schemaAtom, objectAtom), block) := block.defineQualifiedAtom ⟨.assign tableName, .assign schemaName⟩
  replicator.flushOverflow (((((block.putTag .opDeleteRecord).putInt32 schemaAtom).putInt32 objectAtom).putInt32
    record.rawData.length).putBinary record.rawData |>.standsFor (.deleteRecord ⟨schemaName, tableName⟩ record.rawData))

def executeSqlIntl (replicator : Replicator) (block : BatchBlock) (charset : UInt8) (schemaSearchPath : Text)
    (sql : SqlText) : Replicator × BatchBlock :=
  let (userAtom, block) := block.defineAtom replicator.user.text
  let (schemaSearchPathAtom, block) := block.defineAtom schemaSearchPath
  replicator.flushOverflow (((((block.putTag .opExecuteSqlIntl).putInt32 userAtom).putInt32
    schemaSearchPathAtom).putByte
    charset).putString sql.text |>.standsFor (.executeSql charset schemaSearchPath sql.text replicator.user.text))

/-- The value of a sequence; only the last one is kept. -/
def setValue (name : QualifiedMetaString) (value : UInt64) : List GeneratorValue → List GeneratorValue
  | [] => [⟨name, value⟩]
  | generator :: generators =>
    if generator.name = name then { generator with value } :: generators else generator ::
      setValue name value generators

def setSequence (replicator : Replicator) (schemaName genName : Text) (value : UInt64) : Replicator :=
  { replicator with generators := setValue ⟨.assign genName, .assign schemaName⟩ value replicator.generators }

end Replicator

/-- A call on a transaction of a replicator, or on the replicator for `setSequence2`. -/
inductive Call where
  | prepare
  | commit
  | startSavepoint
  | releaseSavepoint
  | rollbackSavepoint
  | insertRecord (schemaName tableName : Text) (record : ReplicatedRecord)
  | updateRecord (schemaName tableName : Text) (orgRecord newRecord : ReplicatedRecord)
  | deleteRecord (schemaName tableName : Text) (record : ReplicatedRecord)
  | executeSqlIntl (charset : UInt8) (schemaSearchPath : Text) (sql : SqlText)
  | setSequence (schemaName genName : Text) (value : UInt64)
  deriving DecidableEq

def Replicator.call (replicator : Replicator) (block : BatchBlock) : Call → Replicator × BatchBlock
  | .prepare => replicator.prepareTransaction block
  | .commit => replicator.commitTransaction block
  | .startSavepoint => replicator.startSavepoint block
  | .releaseSavepoint => replicator.releaseSavepoint block
  | .rollbackSavepoint => replicator.rollbackSavepoint block
  | .insertRecord schemaName tableName record => replicator.insertRecord block schemaName tableName record
  | .updateRecord schemaName tableName orgRecord newRecord =>
    replicator.updateRecord block schemaName tableName orgRecord newRecord
  | .deleteRecord schemaName tableName record => replicator.deleteRecord block schemaName tableName record
  | .executeSqlIntl charset schemaSearchPath sql => replicator.executeSqlIntl block charset schemaSearchPath sql
  | .setSequence schemaName genName value => (replicator.setSequence schemaName genName value, block)

def Replicator.calls (replicator : Replicator) (block : BatchBlock) (calls : List Call) : Replicator × BatchBlock :=
  calls.foldl (fun state call => state.1.call state.2 call) (replicator, block)

end Firebird.Repl
