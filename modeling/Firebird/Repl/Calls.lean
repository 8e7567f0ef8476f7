import Firebird.Repl.Blocks

/-! # What the calls of the replicator put -/

namespace Firebird.Repl
open Lib BlockReader List
variable {bytes : List UInt8} {atoms : List Text} {block block' block'' : BatchBlock}
  {replicator replicator' replicator'' : Replicator} {actions actions' : List Action}

/-! ### What the reader makes of each operation -/

@[simp] theorem adjustLength_adjustLength (s : Text) : adjustLength (adjustLength s) = adjustLength s :=
  adjustLength_eq (metaText_adjustLength s)

namespace BlockReader

theorem getElem?_adjusted {pos : Nat} {name : Text} (h : atoms[pos]? = some name) :
    (atoms.map adjustLength)[pos]? = some (adjustLength name) := by
  rw [getElem?_map, h]
  rfl

theorem Reads.record {α : Type} {next : List UInt8 → Reader α} {a : α} (record : List UInt8)
    (hlength : record.length < 2 ^ 32) (hnext : Reads (next record) bytes a) :
    Reads (do
      let length ← getInt32
      let record ← getBinary (ulong length)
      next record) (leBytes 4 record.length ++ (record ++ bytes)) a := by
  have hbinary : Reads (getBinary (ulong (if record.length < 2 ^ 31 then (record.length : Int) else record.length - 2 ^
      32))) record record := by
    rw [ulong_getInt32 hlength]
    exact reads_takeBytes record
  exact (reads_getInt32 hlength).bind (hbinary.bind hnext)

/-- Both numbers of a relation or sequence name are in the dictionary. -/
structure Named (atoms : List Text) (schemaAtom objectAtom : Nat) (name : QualifiedName) : Prop where
  schema : atoms[schemaAtom]? = some (adjustLength name.schema)
  object : atoms[objectAtom]? = some (adjustLength name.object)
  schema_lt : schemaAtom < 2 ^ 31
  object_lt : objectAtom < 2 ^ 31

variable {schemaAtom objectAtom : Nat} {name : QualifiedName}

section
variable (h : Named atoms schemaAtom objectAtom name)
include h

theorem Named.reads :
    Reads (getAtomQualifiedName (atoms.map adjustLength))
    (leBytes 4 schemaAtom ++ leBytes 4 objectAtom) name.toMeta := by
  have hread := reads_getAtomQualifiedName (getElem?_adjusted h.schema) (getElem?_adjusted h.object) h.schema_lt
    h.object_lt
  simp only [adjustLength_adjustLength] at hread
  exact hread

theorem reads_insertRecord (record : List UInt8)
    (hlength : record.length < 2 ^ 32) :
    Reads (getOperation (atoms.map adjustLength) .opInsertRecord)
      (leBytes 4 schemaAtom ++ leBytes 4 objectAtom ++ (leBytes 4 record.length ++ (record ++ [])))
      ([Action.toMeta (.insertRecord name record)], atoms.map adjustLength) :=
  h.reads.bind (Reads.record record hlength (reads_pure _))

theorem reads_deleteRecord (record : List UInt8)
    (hlength : record.length < 2 ^ 32) :
    Reads (getOperation (atoms.map adjustLength) .opDeleteRecord)
      (leBytes 4 schemaAtom ++ leBytes 4 objectAtom ++ (leBytes 4 record.length ++ (record ++ [])))
      ([Action.toMeta (.deleteRecord name record)], atoms.map adjustLength) :=
  h.reads.bind (Reads.record record hlength (reads_pure _))

theorem reads_updateRecord (orgRecord newRecord : List UInt8)
    (horg : orgRecord.length < 2 ^ 32) (hnew : newRecord.length < 2 ^ 32) :
    Reads (getOperation (atoms.map adjustLength) .opUpdateRecord)
      (leBytes 4 schemaAtom ++ leBytes 4 objectAtom ++ (leBytes 4 orgRecord.length ++ (orgRecord ++
        (leBytes 4 newRecord.length ++ (newRecord ++ [])))))
      ([Action.toMeta (.updateRecord name orgRecord newRecord)], atoms.map adjustLength) :=
  h.reads.bind (Reads.record orgRecord horg (Reads.record newRecord hnew (reads_pure _)))

theorem reads_setSequence (value : UInt64) :
    Reads (getOperation (atoms.map adjustLength) .opSetSequence)
      (leBytes 4 schemaAtom ++ leBytes 4 objectAtom ++ (leBytes 8 value.toNat ++ []))
      ([Action.toMeta (.setSequence name value)], atoms.map adjustLength) :=
  h.reads.bind ((reads_getInt64 value).bind (reads_pure _))

end

theorem reads_executeSqlIntl {userAtom pathAtom : Nat} {user path : Text} (huser : atoms[userAtom]? = some user)
    (hpath : atoms[pathAtom]? = some path) (huser' : userAtom < 2 ^ 31) (hpath' : pathAtom < 2 ^ 31) (charset : UInt8)
    (sql : Text) (hsql : sql.length < 2 ^ 31) :
    Reads (getOperation (atoms.map adjustLength) .opExecuteSqlIntl)
      (leBytes 4 userAtom ++ (leBytes 4 pathAtom ++ ([charset] ++ (leBytes 4 sql.length ++ sql ++ []))))
      ([Action.toMeta (.executeSql charset path sql user)], atoms.map adjustLength) := by
  have hread := reads_getAtomMetaName (getElem?_adjusted huser) huser'
  rw [adjustLength_adjustLength] at hread
  exact hread.bind ((reads_getAtomString (getElem?_adjusted hpath) hpath').bind
    ((reads_getByte charset).bind ((reads_getString sql hsql).bind (reads_pure _))))

end BlockReader

namespace BatchBlock

theorem IsReady.operation (h : block.IsReady) (op : Operation) (action : Action)
    (hread : Holdable (block.data ++ op.code :: bytes) → Reads (getOperation (block.atoms.map adjustLength) op) bytes
      ([action.toMeta], block.atoms.map adjustLength))
    (hdata : block'.data = block.data ++ op.code :: bytes) (hatoms : block'.atoms = block.atoms)
    (hstands : block'.stands = block.stands ++ [action]) : block'.IsReady := by
  show Ready block'.data block'.atoms block'.stands
  rw [hdata, hatoms, hstands]
  refine h.put op ?_ hread
  rw [length_append]
  exact h.atoms_le.trans (Nat.le_add_right ..)

theorem IsReady.tag (h : block.IsReady) (op : Operation) (action : Action)
    (hop : ∀ atoms, getOperation atoms op = pure ([action], atoms)) (hmeta : action.toMeta = action) :
    ((block.putTag op).standsFor action).IsReady := by
  have hread : Reads (getOperation (block.atoms.map adjustLength) op) [] ([action.toMeta],
      block.atoms.map adjustLength) := by
    rw [hop, hmeta]
    exact reads_pure _
  exact h.operation op action (fun _ => hread) rfl rfl rfl

theorem IsReady.named {schemaAtom objectAtom : Nat} (h : block'.IsReady) (op : Operation) (name : QualifiedName)
    (action : Action) (hschema : block'.atoms[schemaAtom]? = some (adjustLength name.schema))
    (hobject : block'.atoms[objectAtom]? = some (adjustLength name.object))
    (hread : Named block'.atoms schemaAtom objectAtom name → Reads (getOperation (block'.atoms.map adjustLength) op)
      (leBytes 4 schemaAtom ++ leBytes 4 objectAtom ++ bytes) ([action.toMeta], block'.atoms.map adjustLength))
    (hdata : block''.data = block'.data ++ [op.code] ++ leBytes 4 schemaAtom ++ leBytes 4 objectAtom ++ bytes)
    (hatoms : block''.atoms = block'.atoms) (hstands : block''.stands = block'.stands ++ [action]) :
    block''.IsReady := by
  have hshape : block''.data = block'.data ++ op.code :: (leBytes 4 schemaAtom ++ leBytes 4 objectAtom ++ bytes) := by
    rw [hdata]
    simp only [append_assoc, cons_append, nil_append]
  refine h.operation op action (fun hsize => ?_) hshape hatoms hstands
  exact hread ⟨hschema, hobject, Ready.lt_of_getElem? h hsize.left hschema, Ready.lt_of_getElem? h hsize.left hobject⟩

theorem defineQualifiedAtom_spec (h : block.IsReady) (name : QualifiedMetaString) :
    Qualified block (block.defineQualifiedAtom name).2 (block.defineQualifiedAtom name).1.1
      (block.defineQualifiedAtom name).1.2 name.schema.text name.object.text :=
  defineTwo_spec h name.schema.text name.object.text

end BatchBlock

namespace Replicator

def Sound (replicator : Replicator) : Prop :=
  ∀ handed ∈ replicator.handed, handed.protocol = protocolCurrentVersion ∧ Says handed.data handed.stands

/-- What happens to the actions: the new ones follow those in the block, and those that are not in the block any more
    are in the blocks handed over meanwhile. -/
structure Passes (replicator : Replicator) (block : BatchBlock) (replicator' : Replicator) (block' : BatchBlock)
    (actions : List Action) : Prop where
  handed : ∃ new, replicator'.handed = replicator.handed ++ new ∧
    (∀ handed ∈ new, handed.traNumber = block.traNumber ∧ handed.stands ≠ []) ∧
    new.flatMap (·.stands) ++ block'.stands = block.stands ++ actions ∧ block'.flushes = block.flushes + new.length
  traNumber : block'.traNumber = block.traNumber
  generators : replicator'.generators = replicator.generators
  user : replicator'.user = replicator.user
  bufferSize : replicator'.bufferSize = replicator.bufferSize

/-- A call that leaves everything readable. -/
structure Puts (replicator : Replicator) (block : BatchBlock) (replicator' : Replicator) (block' : BatchBlock)
    (actions : List Action) : Prop extends Passes replicator block replicator' block' actions where
  sound : replicator'.Sound
  ready : block'.IsReady

theorem Passes.refl : Passes replicator block replicator block [] where
  handed := ⟨[], (append_nil _).symm, nofun, (append_nil _).symm, rfl⟩
  traNumber := rfl
  generators := rfl
  user := rfl
  bufferSize := rfl

theorem Passes.trans (h : Passes replicator block replicator' block' actions)
    (h' : Passes replicator' block' replicator'' block'' actions') :
    Passes replicator block replicator'' block'' (actions ++ actions') := by
  obtain ⟨new, hhanded, htra, hstands, hflushes⟩ := h.handed
  obtain ⟨new', hhanded', htra', hstands', hflushes'⟩ := h'.handed
  refine ⟨⟨new ++ new', ?_, fun handed hmem => ?_, ?_, ?_⟩, h'.traNumber.trans h.traNumber,
    h'.generators.trans h.generators, h'.user.trans h.user, h'.bufferSize.trans h.bufferSize⟩
  · rw [hhanded', hhanded, append_assoc]
  · rcases mem_append.mp hmem with hold | hnew
    · exact htra handed hold
    · exact ⟨(htra' handed hnew).1.trans h.traNumber, (htra' handed hnew).2⟩
  · rw [flatMap_append, append_assoc, hstands', ← append_assoc, hstands, append_assoc]
  · rw [hflushes', hflushes, length_append, Nat.add_assoc]

theorem Puts.trans (h : Puts replicator block replicator' block' actions)
    (h' : Puts replicator' block' replicator'' block'' actions') :
    Puts replicator block replicator'' block'' (actions ++ actions') :=
  ⟨h.toPasses.trans h'.toPasses, h'.sound, h'.ready⟩

theorem passes_of_stands (hstands : block'.stands = block.stands ++ actions) (htra : block'.traNumber = block.traNumber)
    (hflushes : block'.flushes = block.flushes) : Passes replicator block replicator block' actions :=
  ⟨⟨[], (append_nil _).symm, nofun, hstands, hflushes⟩, htra, rfl, rfl, rfl⟩

theorem flush_passes (hne : block.stands ≠ []) (reason : FlushReason) (flags : Nat) :
    Passes replicator block (replicator.flush block reason flags).1 (replicator.flush block reason flags).2 [] := by
  refine ⟨⟨[_], rfl, fun handed hmem => ?_, ?_, rfl⟩, rfl, rfl, rfl, rfl⟩
  · rw [mem_singleton.mp hmem]
    exact ⟨rfl, hne⟩
  · show [_].flatMap _ ++ [] = block.stands ++ []
    rw [append_nil, append_nil, flatMap_singleton]

theorem flush_sound (h : replicator.Sound) (hspoken : Says block.data block.stands) (reason : FlushReason)
    (flags : Nat) : (replicator.flush block reason flags).1.Sound := by
  intro handed hmem
  rcases mem_append.mp hmem with hold | hnew
  · exact h handed hold
  · rw [mem_singleton.mp hnew]
    exact ⟨rfl, hspoken⟩

theorem flush_ready (reason : FlushReason) (flags : Nat) : (replicator.flush block reason flags).2.IsReady := Ready.nil

section
variable (h : replicator.Sound)
include h

theorem flush_puts (hready : block.IsReady) (hne : block.stands ≠ []) (reason : FlushReason) (flags : Nat) :
    Puts replicator block (replicator.flush block reason flags).1 (replicator.flush block reason flags).2 [] :=
  ⟨flush_passes hne reason flags, flush_sound h hready.spoken reason flags, flush_ready reason flags⟩

theorem flushOverflow_puts (hready : block.IsReady) (hne : block.stands ≠ []) :
    Puts replicator block (replicator.flushOverflow block).1 (replicator.flushOverflow block).2 [] := by
  unfold flushOverflow
  split
  · exact flush_puts h hready hne .flushOverflow 0
  · exact ⟨.refl, h, hready⟩

variable (hready : block'.IsReady) (hpasses : Passes replicator block replicator block' actions)
  (hne : block'.stands ≠ [])
include hready hpasses hne

theorem put_flushOverflow_puts :
    Puts replicator block (replicator.flushOverflow block').1 (replicator.flushOverflow block').2 actions := by
  have hput : Puts replicator block replicator block' actions := ⟨hpasses, h, hready⟩
  have hboth := hput.trans (flushOverflow_puts h hready hne)
  rwa [append_nil] at hboth

theorem put_flush_puts (reason : FlushReason) (flags : Nat) :
    Puts replicator block (replicator.flush block' reason flags).1
      (replicator.flush block' reason flags).2 actions := by
  have hput : Puts replicator block replicator block' actions := ⟨hpasses, h, hready⟩
  have hboth := hput.trans (flush_puts h hready hne reason flags)
  rwa [append_nil] at hboth

end

theorem stands_ne_nil {action : Action} : (block.standsFor action).stands ≠ [] :=
  append_ne_nil_of_right_ne_nil _ (cons_ne_nil _ _)

end Replicator
end Firebird.Repl
