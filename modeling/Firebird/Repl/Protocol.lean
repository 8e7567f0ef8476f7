import Mathlib

/-! # Replication blocks

Metadata strings (`src/common/classes/MetaString.cpp`), the operations of a block
(`src/jrd/replication/Protocol.h`) and what each of them makes the applier do. -/

namespace Firebird.Repl

open List

abbrev Text := List UInt8

def maxSqlIdentifierLen : Nat := 252
def blank : UInt8 := 32
/-- The largest value of `FB_SIZE_T`, the count of an array. -/
def fbMaxSizeof : Nat := 2 ^ 32 - 1

/-- What `MetaString::assign` keeps of a string. -/
def adjustLength (s : Text) : Text := (s.take maxSqlIdentifierLen).rdropWhile (· == blank)

def MetaText (s : Text) : Prop := s.length ≤ maxSqlIdentifierLen ∧ s.getLast? ≠ some blank

instance (s : Text) : Decidable (MetaText s) := inferInstanceAs (Decidable (_ ∧ _))

theorem metaText_adjustLength (s : Text) : MetaText (adjustLength s) := by
  refine ⟨?_, fun hlast => ?_⟩
  · have hprefix := ( rdropWhile_prefix (· == blank) (s.take maxSqlIdentifierLen)).length_le
    exact hprefix.trans (length_take_le ..)
  · have hne : adjustLength s ≠ [] := fun hnil => nomatch (hnil ▸ hlast : ([] : Text).getLast? = some blank)
    have hkept := rdropWhile_last_not (· == blank) (s.take maxSqlIdentifierLen) hne
    rw [getLast?_eq_getLast_of_ne_nil hne] at hlast
    exact hkept (beq_iff_eq.mpr (Option.some.inj hlast))

theorem adjustLength_eq {s : Text} (h : MetaText s) : adjustLength s = s := by
  unfold adjustLength
  rw [take_of_length_le h.1, rdropWhile_eq_self_iff]
  intro hne hblank
  exact h.2 ((getLast?_eq_getLast_of_ne_nil hne).trans (congrArg some (beq_iff_eq.mp hblank)))

theorem adjustLength_eq_iff {s : Text} : adjustLength s = s ↔ MetaText s :=
  ⟨fun h => h ▸ metaText_adjustLength s, adjustLength_eq⟩

/-- A string of at most `MAX_SQL_IDENTIFIER_LEN` bytes that does not end in a blank. -/
structure MetaString where
  text : Text
  isMeta : MetaText text
  deriving DecidableEq

def MetaString.assign (s : Text) : MetaString := ⟨adjustLength s, metaText_adjustLength s⟩

structure QualifiedMetaString where
  object : MetaString
  schema : MetaString
  deriving DecidableEq

inductive Operation where
  | opStartTransaction | opPrepareTransaction | opCommitTransaction | opRollbackTransaction | opCleanupTransaction
  | opStartSavepoint | opReleaseSavepoint | opRollbackSavepoint
  | opInsertRecord | opUpdateRecord | opDeleteRecord | opStoreBlob | opExecuteSql | opSetSequence | opExecuteSqlIntl
  | opDefineAtom

def Operation.code : Operation → UInt8
  | .opStartTransaction => 1
  | .opPrepareTransaction => 2
  | .opCommitTransaction => 3
  | .opRollbackTransaction => 4
  | .opCleanupTransaction => 5
  | .opStartSavepoint => 6
  | .opReleaseSavepoint => 7
  | .opRollbackSavepoint => 8
  | .opInsertRecord => 9
  | .opUpdateRecord => 10
  | .opDeleteRecord => 11
  | .opStoreBlob => 12
  | .opExecuteSql => 13
  | .opSetSequence => 14
  | .opExecuteSqlIntl => 15
  | .opDefineAtom => 16

def allOperations : List Operation :=
  [.opStartTransaction, .opPrepareTransaction, .opCommitTransaction, .opRollbackTransaction, .opCleanupTransaction,
    .opStartSavepoint, .opReleaseSavepoint, .opRollbackSavepoint, .opInsertRecord, .opUpdateRecord, .opDeleteRecord,
    .opStoreBlob, .opExecuteSql, .opSetSequence, .opExecuteSqlIntl, .opDefineAtom]

def Operation.ofCode (code : UInt8) : Option Operation := allOperations.find? (·.code == code)

@[simp] theorem Operation.ofCode_code (op : Operation) : Operation.ofCode op.code = some op := by
  cases op <;> rfl

structure BlobId where
  gdsQuadHigh : UInt32
  gdsQuadLow : UInt32
  deriving DecidableEq

structure QualifiedName where
  schema : Text
  object : Text
  deriving DecidableEq

/-- A call that `Applier::process` makes for an operation. A blob gets its segments one by one; an empty one closes
    it. -/
inductive Action where
  | startTransaction
  | prepareTransaction
  | commitTransaction
  | rollbackTransaction
  | cleanupTransaction
  | startSavepoint
  | cleanupSavepoint (undo : Bool)
  | insertRecord (relName : QualifiedName) (data : List UInt8)
  | updateRecord (relName : QualifiedName) (orgRecord newRecord : List UInt8)
  | deleteRecord (relName : QualifiedName) (data : List UInt8)
  | storeBlob (blobId : BlobId) (data : List UInt8)
  | executeSql (charset : UInt8) (schemaSearchPath sql ownerName : Text)
  | setSequence (genName : QualifiedName) (value : UInt64)
  deriving DecidableEq

def QualifiedName.toMeta (name : QualifiedName) : QualifiedName :=
  ⟨adjustLength name.schema, adjustLength name.object⟩

def Action.toMeta : Action → Action
  | .insertRecord relName data => .insertRecord relName.toMeta data
  | .updateRecord relName orgRecord newRecord => .updateRecord relName.toMeta orgRecord newRecord
  | .deleteRecord relName data => .deleteRecord relName.toMeta data
  | .executeSql charset schemaSearchPath sql ownerName =>
    .executeSql charset (adjustLength schemaSearchPath) sql (adjustLength ownerName)
  | .setSequence genName value => .setSequence genName.toMeta value
  | action => action

def QualifiedName.IsMeta (name : QualifiedName) : Prop := MetaText name.schema ∧ MetaText name.object

/-- Every name in the action is one that a metadata string can hold, the search path too. -/
def Action.IsMeta : Action → Prop
  | .insertRecord relName _ | .updateRecord relName _ _ | .deleteRecord relName _ | .setSequence relName _ =>
    relName.IsMeta
  | .executeSql _ schemaSearchPath _ ownerName => MetaText schemaSearchPath ∧ MetaText ownerName
  | _ => True

instance (name : QualifiedName) : Decidable name.IsMeta := inferInstanceAs (Decidable (_ ∧ _))

instance : (action : Action) → Decidable action.IsMeta
  | .insertRecord relName _ | .updateRecord relName _ _ | .deleteRecord relName _ | .setSequence relName _ =>
    inferInstanceAs (Decidable relName.IsMeta)
  | .executeSql _ schemaSearchPath _ ownerName =>
      inferInstanceAs (Decidable (MetaText schemaSearchPath ∧ MetaText ownerName))
  | .startTransaction | .prepareTransaction | .commitTransaction | .rollbackTransaction | .cleanupTransaction
  | .startSavepoint | .cleanupSavepoint _ | .storeBlob _ _ => isTrue trivial

theorem QualifiedName.toMeta_eq_iff {name : QualifiedName} : name.toMeta = name ↔ name.IsMeta := by
  cases name with
  | mk schema object =>
    unfold toMeta IsMeta
    rw [QualifiedName.mk.injEq, adjustLength_eq_iff, adjustLength_eq_iff]

theorem Action.toMeta_eq_iff {action : Action} : action.toMeta = action ↔ action.IsMeta := by
  cases action with
  | insertRecord relName data | updateRecord relName orgRecord newRecord | deleteRecord relName data =>
    simp [toMeta, IsMeta, QualifiedName.toMeta_eq_iff]
  | executeSql charset schemaSearchPath sql ownerName =>
    simp [toMeta, IsMeta, adjustLength_eq_iff]
  | setSequence genName value =>
    simp [toMeta, IsMeta, QualifiedName.toMeta_eq_iff]
  | startTransaction | prepareTransaction | commitTransaction | rollbackTransaction | cleanupTransaction
  | startSavepoint | cleanupSavepoint undo | storeBlob blobId data => exact iff_of_true rfl trivial

theorem Action.isMeta_toMeta (action : Action) : action.toMeta.IsMeta := by
  cases action <;> simp [toMeta, IsMeta, QualifiedName.toMeta, QualifiedName.IsMeta, metaText_adjustLength]

end Firebird.Repl
