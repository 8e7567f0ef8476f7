import Firebird.Repl.BlobCalls

/-! # The blocks of a transaction decode to what was recorded -/

namespace Firebird.Repl
open Lib BlockReader List
variable {block : BatchBlock} {replicator : Replicator}

/-! ### What each call puts -/

def GeneratorValue.action (generator : GeneratorValue) : Action :=
  .setSequence ⟨generator.name.schema.text, generator.name.object.text⟩ generator.value

namespace BatchBlock

theorem putGenerator_ready {named : BatchBlock} {schemaAtom objectAtom : Nat} {generator : GeneratorValue}
    (h : Qualified block named schemaAtom objectAtom generator.name.schema.text generator.name.object.text) :
    ((((named.putTag .opSetSequence).putInt32 schemaAtom).putInt32 objectAtom).putInt64 generator.value
      |>.standsFor generator.action).IsReady := by
  have hschema := h.schemaEntry
  have hobject := h.entry
  rw [← adjustLength_eq generator.name.schema.isMeta] at hschema
  rw [← adjustLength_eq generator.name.object.isMeta] at hobject
  refine h.ready.named .opSetSequence ⟨generator.name.schema.text, generator.name.object.text⟩ generator.action
    hschema hobject (fun hnamed => reads_setSequence hnamed generator.value) ?_ rfl rfl
  rfl

theorem putGenerators_spec (generators : List GeneratorValue) : ∀ block : BatchBlock, block.IsReady →
    (block.putGenerators generators).IsReady ∧
    (block.putGenerators generators).stands = block.stands ++ generators.map GeneratorValue.action ∧
    (block.putGenerators generators).traNumber = block.traNumber ∧
    (block.putGenerators generators).flushes = block.flushes := by
  induction generators with
  | nil => exact fun block h => ⟨h, (append_nil _).symm, rfl, rfl⟩
  | cons generator generators ih =>
    intro block h
    have hnames := defineQualifiedAtom_spec h generator.name
    unfold putGenerators at ih ⊢
    rw [foldl_cons]
    generalize block.defineQualifiedAtom generator.name = named at hnames ⊢
    obtain ⟨hlater, hstands, htra, hflushes⟩ := ih _ (putGenerator_ready hnames)
    refine ⟨hlater, hstands.trans ?_, htra.trans hnames.traNumber, hflushes.trans hnames.flushes⟩
    rw [map_cons, append_cons]
    exact congrArg (fun stands => stands ++ [generator.action] ++ _) hnames.stands

end BatchBlock

namespace Replicator
variable (h : replicator.Sound) (hready : block.IsReady)
include h hready

section
variable (schemaName tableName : Text)

theorem insertRecord_puts (record : ReplicatedRecord) :
    Puts replicator block (replicator.insertRecord block schemaName tableName record).1
      (replicator.insertRecord block schemaName tableName record).2
      (blobsActions record.fields ++ [.insertRecord ⟨schemaName, tableName⟩ record.rawData]) := by
  have hblobs := storeBlobs_puts record.fields replicator block h hready
  unfold insertRecord
  dsimp only
  generalize storeBlobs record.fields replicator block = stored at hblobs ⊢
  have hnames := BatchBlock.defineQualifiedAtom_spec hblobs.ready ⟨.assign tableName, .assign schemaName⟩
  generalize stored.2.defineQualifiedAtom ⟨.assign tableName, .assign schemaName⟩ = named at hnames ⊢
  refine hblobs.trans (put_flushOverflow_puts hblobs.sound ?_ (passes_of_stands ?_ hnames.traNumber hnames.flushes)
    stands_ne_nil)
  · refine hnames.ready.named .opInsertRecord ⟨schemaName, tableName⟩
      (.insertRecord ⟨schemaName, tableName⟩ record.rawData)
      hnames.schemaEntry hnames.entry (fun hnamed => reads_insertRecord hnamed record.rawData record.rawLength) ?_
      rfl rfl
    rw [append_nil, ← append_assoc]
    rfl
  · exact congrArg (· ++ [_]) hnames.stands

theorem updateRecord_puts (orgRecord newRecord : ReplicatedRecord) :
    Puts replicator block (replicator.updateRecord block schemaName tableName orgRecord newRecord).1
      (replicator.updateRecord block schemaName tableName orgRecord newRecord).2
      (blobsActions newRecord.fields ++
        [.updateRecord ⟨schemaName, tableName⟩ orgRecord.rawData newRecord.rawData]) := by
  have hblobs := storeBlobs_puts newRecord.fields replicator block h hready
  unfold updateRecord
  dsimp only
  generalize storeBlobs newRecord.fields replicator block = stored at hblobs ⊢
  have hnames := BatchBlock.defineQualifiedAtom_spec hblobs.ready ⟨.assign tableName, .assign schemaName⟩
  generalize stored.2.defineQualifiedAtom ⟨.assign tableName, .assign schemaName⟩ = named at hnames ⊢
  refine hblobs.trans (put_flushOverflow_puts hblobs.sound ?_ (passes_of_stands ?_ hnames.traNumber hnames.flushes)
    stands_ne_nil)
  · refine hnames.ready.named .opUpdateRecord ⟨schemaName, tableName⟩
      (.updateRecord ⟨schemaName, tableName⟩ orgRecord.rawData newRecord.rawData)
      hnames.schemaEntry hnames.entry (fun hnamed => reads_updateRecord hnamed orgRecord.rawData newRecord.rawData
        orgRecord.rawLength newRecord.rawLength) ?_ rfl rfl
    simp only [append_nil, ← append_assoc]
    rfl
  · exact congrArg (· ++ [_]) hnames.stands

theorem deleteRecord_puts (record : ReplicatedRecord) :
    Puts replicator block (replicator.deleteRecord block schemaName tableName record).1
      (replicator.deleteRecord block schemaName tableName record).2
      [.deleteRecord ⟨schemaName, tableName⟩ record.rawData] := by
  have hnames := BatchBlock.defineQualifiedAtom_spec hready ⟨.assign tableName, .assign schemaName⟩
  unfold deleteRecord
  generalize block.defineQualifiedAtom ⟨.assign tableName, .assign schemaName⟩ = named at hnames ⊢
  refine put_flushOverflow_puts h ?_ (passes_of_stands ?_ hnames.traNumber hnames.flushes) stands_ne_nil
  · refine hnames.ready.named .opDeleteRecord ⟨schemaName, tableName⟩
      (.deleteRecord ⟨schemaName, tableName⟩ record.rawData)
      hnames.schemaEntry hnames.entry (fun hnamed => reads_deleteRecord hnamed record.rawData record.rawLength) ?_
      rfl rfl
    rw [append_nil, ← append_assoc]
    rfl
  · exact congrArg (· ++ [_]) hnames.stands

end

theorem executeSqlIntl_puts (charset : UInt8) (schemaSearchPath : Text) (sql : SqlText) :
    Puts replicator block (replicator.executeSqlIntl block charset schemaSearchPath sql).1
      (replicator.executeSqlIntl block charset schemaSearchPath sql).2
      [.executeSql charset schemaSearchPath sql.text replicator.user.text] := by
  have hnames := BatchBlock.defineTwo_spec hready replicator.user.text schemaSearchPath
  unfold executeSqlIntl
  dsimp only
  generalize (block.defineAtom replicator.user.text).2.defineAtom schemaSearchPath = named at hnames ⊢
  refine put_flushOverflow_puts h ?_ (passes_of_stands ?_ hnames.traNumber hnames.flushes) stands_ne_nil
  · refine hnames.ready.operation .opExecuteSqlIntl (.executeSql charset schemaSearchPath sql.text replicator.user.text)
      (fun hsize => reads_executeSqlIntl hnames.schemaEntry hnames.entry
        (Ready.lt_of_getElem? hnames.ready hsize.left hnames.schemaEntry)
        (Ready.lt_of_getElem? hnames.ready hsize.left hnames.entry) charset sql.text sql.short) ?_ rfl rfl
    show named.2.data ++ [_] ++ leBytes 4 _ ++ leBytes 4 _ ++ [_] ++ leBytes 4 _ ++ sql.text = _
    simp only [append_nil, append_assoc, cons_append, nil_append]
  · exact congrArg (· ++ [_]) hnames.stands

section
variable (op : Operation) (action : Action) (hop : ∀ atoms, getOperation atoms op = pure ([action], atoms))
  (hmeta : action.toMeta = action)
include hop hmeta

theorem tag_puts :
    Puts replicator block (replicator.flushOverflow ((block.putTag op).standsFor action)).1
      (replicator.flushOverflow ((block.putTag op).standsFor action)).2 [action] :=
  have hpasses : Passes replicator block replicator ((block.putTag op).standsFor action) [action] :=
    passes_of_stands rfl rfl rfl
  put_flushOverflow_puts h (hready.tag op action hop hmeta) hpasses stands_ne_nil

theorem tag_flush_puts (reason : FlushReason) (flags : Nat) :
    Puts replicator block (replicator.flush ((block.putTag op).standsFor action) reason flags).1
      (replicator.flush ((block.putTag op).standsFor action) reason flags).2 [action] :=
  have hpasses : Passes replicator block replicator ((block.putTag op).standsFor action) [action] :=
    passes_of_stands rfl rfl rfl
  put_flush_puts h (hready.tag op action hop hmeta) hpasses stands_ne_nil reason flags

end

theorem putGenerators_puts : Puts { replicator with generators := [] } block { replicator with generators := [] }
    (block.putGenerators replicator.generators) (replicator.generators.map GeneratorValue.action) := by
  obtain ⟨hput, hstands, htra, hflushes⟩ := BatchBlock.putGenerators_spec replicator.generators block hready
  exact ⟨passes_of_stands hstands htra hflushes, h, hput⟩

theorem commitTransaction_puts :
    Puts { replicator with generators := [] } block (replicator.commitTransaction block).1
      (replicator.commitTransaction block).2
      (replicator.generators.map GeneratorValue.action ++ [.commitTransaction]) := by
  have hgenerators := putGenerators_puts h hready
  exact hgenerators.trans (tag_flush_puts hgenerators.sound hgenerators.ready .opCommitTransaction .commitTransaction
    (fun _ => rfl) rfl .flushSync blockEndTrans)

end Replicator

/-- The values of the sequences, one for each name, in the order in which they were first set. -/
abbrev SequenceValues := List (QualifiedName × UInt64)

def SequenceValues.set (name : QualifiedName) (value : UInt64) : SequenceValues → SequenceValues
  | [] => [(name, value)]
  | entry :: values => if entry.1 = name then (name, value) :: values else entry :: SequenceValues.set name value values

def SequenceValues.actions (values : SequenceValues) : List Action :=
  values.map fun entry => .setSequence entry.1 entry.2

def Call.valuesAfter (values : SequenceValues) : Call → SequenceValues
  | .setSequence schemaName genName value => values.set ⟨schemaName, genName⟩ value
  | .commit => []
  | _ => values

def Call.actions (user : Text) (values : SequenceValues) : Call → List Action
  | .prepare => [.prepareTransaction]
  | .commit => values.actions ++ [.commitTransaction]
  | .startSavepoint => [.startSavepoint]
  | .releaseSavepoint => [.cleanupSavepoint false]
  | .rollbackSavepoint => [.cleanupSavepoint true]
  | .insertRecord schemaName tableName record =>
    Replicator.blobsActions record.fields ++ [.insertRecord ⟨schemaName, tableName⟩ record.rawData]
  | .updateRecord schemaName tableName orgRecord newRecord => Replicator.blobsActions newRecord.fields ++
      [.updateRecord ⟨schemaName, tableName⟩ orgRecord.rawData newRecord.rawData]
  | .deleteRecord schemaName tableName record => [.deleteRecord ⟨schemaName, tableName⟩ record.rawData]
  | .executeSqlIntl charset schemaSearchPath sql => [.executeSql charset schemaSearchPath sql.text user]
  | .setSequence _ _ _ => []

def recordedFrom (user : Text) : SequenceValues → List Call → List Action
  | _, [] => []
  | values, call :: calls => call.actions user values ++ recordedFrom user (call.valuesAfter values) calls

def recorded (user : Text) (calls : List Call) : List Action := .startTransaction :: recordedFrom user [] calls

def Call.metaSequence : Call → Call
  | .setSequence schemaName genName value => .setSequence (adjustLength schemaName) (adjustLength genName) value
  | call => call

namespace Replicator

def values (generators : List GeneratorValue) : SequenceValues :=
  generators.map fun generator => (⟨generator.name.schema.text, generator.name.object.text⟩, generator.value)

theorem values_actions (generators : List GeneratorValue) :
    (values generators).actions = generators.map GeneratorValue.action := map_map

theorem metaString_ext {a b : MetaString} (h : a.text = b.text) : a = b := by
  cases b; cases h; rfl

theorem values_setValue (name : QualifiedMetaString) (value : UInt64) (generators : List GeneratorValue) :
    values (setValue name value generators) = (values generators).set ⟨name.schema.text, name.object.text⟩ value := by
  induction generators with
  | nil => rfl
  | cons generator generators ih =>
    have hsame : generator.name = name ↔
        (⟨generator.name.schema.text, generator.name.object.text⟩ : QualifiedName) =
          ⟨name.schema.text, name.object.text⟩ := by
      refine ⟨fun h => by rw [h], fun h => ?_⟩
      rw [QualifiedName.mk.injEq] at h
      cases hname : generator.name with
      | mk object schema =>
        rw [hname] at h
        cases name with
        | mk object' schema' =>
          exact congrArg₂ QualifiedMetaString.mk (metaString_ext h.2) (metaString_ext h.1)
    unfold values at ih ⊢
    rw [setValue, map_cons, SequenceValues.set]
    by_cases h : generator.name = name
    · rw [if_pos h, if_pos (hsame.mp h), map_cons, h]
    · rw [if_neg h, if_neg fun heq => h (hsame.mpr heq), map_cons, ih]

theorem call_puts (h : replicator.Sound) (hready : block.IsReady) (call : Call) :
    ∃ kept : Replicator, kept.handed = replicator.handed ∧ kept.user = replicator.user ∧
      kept.bufferSize = replicator.bufferSize ∧
      values kept.generators = call.metaSequence.valuesAfter (values replicator.generators) ∧
      Puts kept block (replicator.call block call).1 (replicator.call block call).2
        (call.metaSequence.actions replicator.user.text (values replicator.generators)) := by
  cases call with
  | prepare => exact ⟨_, rfl, rfl, rfl, rfl, tag_flush_puts h hready .opPrepareTransaction .prepareTransaction
      (fun _ => rfl) rfl .flushPrepare 0⟩
  | commit =>
    refine ⟨{ replicator with generators := [] }, rfl, rfl, rfl, rfl, ?_⟩
    have hcommit := commitTransaction_puts h hready
    rw [← values_actions] at hcommit
    exact hcommit
  | startSavepoint => exact ⟨_, rfl, rfl, rfl, rfl, tag_puts h hready .opStartSavepoint
      .startSavepoint (fun _ => rfl) rfl⟩
  | releaseSavepoint => exact ⟨_, rfl, rfl, rfl, rfl, tag_puts h hready .opReleaseSavepoint (.cleanupSavepoint false)
      (fun _ => rfl) rfl⟩
  | rollbackSavepoint => exact ⟨_, rfl, rfl, rfl, rfl, tag_flush_puts h hready .opRollbackSavepoint
      (.cleanupSavepoint true) (fun _ => rfl) rfl .flushSync 0⟩
  | insertRecord schemaName tableName record =>
    exact ⟨_, rfl, rfl, rfl, rfl, insertRecord_puts h hready schemaName tableName record⟩
  | updateRecord schemaName tableName orgRecord newRecord =>
    exact ⟨_, rfl, rfl, rfl, rfl, updateRecord_puts h hready schemaName tableName orgRecord newRecord⟩
  | deleteRecord schemaName tableName record =>
    exact ⟨_, rfl, rfl, rfl, rfl, deleteRecord_puts h hready schemaName tableName record⟩
  | executeSqlIntl charset schemaSearchPath sql =>
    exact ⟨_, rfl, rfl, rfl, rfl, executeSqlIntl_puts h hready charset schemaSearchPath sql⟩
  | setSequence schemaName genName value =>
    refine ⟨replicator.setSequence schemaName genName value, rfl, rfl, rfl, ?_, .refl, h, hready⟩
    exact values_setValue ⟨.assign genName, .assign schemaName⟩ value replicator.generators

theorem calls_spec (calls : List Call) : ∀ (replicator : Replicator) (block : BatchBlock),
    replicator.Sound → block.IsReady →
    ((replicator.calls block calls).1.Sound ∧ (replicator.calls block calls).2.IsReady) ∧
    (replicator.calls block calls).1.handed.flatMap (·.stands) ++ (replicator.calls block calls).2.stands =
      replicator.handed.flatMap (·.stands) ++ block.stands ++
        recordedFrom replicator.user.text (values replicator.generators) (calls.map Call.metaSequence) := by
  induction calls with
  | nil => exact fun replicator block h hready => ⟨⟨h, hready⟩, (append_nil _).symm⟩
  | cons call calls ih =>
    intro replicator block h hready
    obtain ⟨kept, hhanded, huser, hsize, hvalues, hputs⟩ := call_puts h hready call
    obtain ⟨hkept, hstands⟩ := ih _ _ hputs.sound hputs.ready
    refine ⟨hkept, hstands.trans ?_⟩
    obtain ⟨new, hnew, htra, hmoved, hflushes⟩ := hputs.handed
    rw [hputs.generators, hvalues, hputs.user, huser, hnew, hhanded, map_cons, recordedFrom, flatMap_append,
      append_assoc (replicator.handed.flatMap _), hmoved]
    simp only [append_assoc]

end Replicator
end Firebird.Repl
