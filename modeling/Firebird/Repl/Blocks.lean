import Firebird.Repl.BlockReader

/-! # What the reader finds in a block -/

namespace Firebird.Repl
open Lib BlockReader List

/-! ### The fields -/

namespace BlockReader
variable {atoms : List Text} {name : Text} {pos n : Nat}

theorem reads_getByte (value : UInt8) : Reads getByte [value] value := by
  have hread := (reads_takeNumber (k := 1) (n := value.toNat) value.toNat_lt).map UInt8.ofNat
  rw [UInt8.ofNat_toNat] at hread
  have hbytes : leBytes 1 value.toNat = [value] := by rw [leBytes, leBytes, UInt8.ofNat_toNat]
  rwa [hbytes] at hread

theorem reads_getInt32 (h : n < 2 ^ 32) :
    Reads getInt32 (leBytes 4 n) (if n < 2 ^ 31 then (n : Int) else (n : Int) - 2 ^ 32) :=
  (reads_takeNumber (k := 4) h).map fun value : Nat =>
  (if value < 2 ^ 31 then (value : Int) else (value : Int) - 2 ^ 32 : Int)

theorem reads_getInt32_small (h : n < 2 ^ 31) : Reads getInt32 (leBytes 4 n) n := by
  have hread := reads_getInt32 (h.trans (by decide))
  rwa [if_pos h] at hread

theorem ulong_getInt32 (h : n < 2 ^ 32) : ulong (if n < 2 ^ 31 then (n : Int) else (n : Int) - 2 ^ 32) = n := by
  unfold ulong
  split <;> omega

theorem reads_getInt64 (value : UInt64) : Reads getInt64 (leBytes 8 value.toNat) value := by
  have hread := (reads_takeNumber (k := 8) (n := value.toNat) value.toNat_lt).map UInt64.ofNat
  rwa [UInt64.ofNat_toNat] at hread

theorem reads_getAtomString (hpos : atoms[pos]? = some name) (hsmall : pos < 2 ^ 31) :
    Reads (getAtomString atoms) (leBytes 4 pos) name := by
  have hread : Reads (getAtomString atoms) (leBytes 4 pos ++ []) name := by
    refine (reads_getInt32_small hsmall).bind ?_
    rw [Int.toNat_natCast, hpos]
    exact reads_pure name
  rwa [append_nil] at hread

theorem reads_getAtomMetaName (hpos : atoms[pos]? = some name) (hsmall : pos < 2 ^ 31) :
    Reads (getAtomMetaName atoms) (leBytes 4 pos) (adjustLength name) :=
  (reads_getAtomString hpos hsmall).map fun atom => (MetaString.assign atom).text

theorem reads_getAtomQualifiedName {schema object : Text} {pos' : Nat} (hschema : atoms[pos]? = some schema)
    (hobject : atoms[pos']? = some object) (hsmall : pos < 2 ^ 31) (hsmall' : pos' < 2 ^ 31) :
    Reads (getAtomQualifiedName atoms) (leBytes 4 pos ++ leBytes 4 pos') ⟨adjustLength schema, adjustLength object⟩ :=
  (reads_getAtomMetaName hschema hsmall).bind
    ((reads_getAtomMetaName hobject hsmall').map (QualifiedName.mk (adjustLength schema)))

theorem reads_getString (text : Text) (h : text.length < 2 ^ 31) :
    Reads getString (leBytes 4 text.length ++ text) text := by
  have hthen : Reads (if (text.length : Int) < 0 then malformed else takeBytes (text.length : Int).toNat)
      text text := by
    exact reads_takeBytes text
  exact (reads_getInt32_small h).bind hthen

theorem reads_defineAtom (name : MetaString) :
    Reads defineAtom (UInt8.ofNat name.text.length :: name.text) (adjustLength name.text) := by
  have hlen : (UInt8.ofNat name.text.length).toNat = name.text.length := by
    have hshort : name.text.length ≤ 252 := name.isMeta.1
    rw [UInt8.toNat_ofNat']
    omega
  have hbinary : Reads (getBinary (UInt8.ofNat name.text.length).toNat) name.text name.text := by
    rw [hlen]
    exact reads_takeBytes name.text
  exact (reads_getByte _).bind (hbinary.map fun data => (MetaString.assign data).text)

def segmentBytes (segment : List UInt8) : List UInt8 := leBytes 2 segment.length ++ segment

theorem reads_getInt16 (h : n < 2 ^ 16) : Reads getInt16 (leBytes 2 n) n := reads_takeNumber (k := 2) h

theorem getSegments_cons (blobId : BlobId) (fuel : Nat) {segment : List UInt8} (hne : segment ≠ [])
    (hshort : segment.length < 2 ^ 16) (rest : List UInt8) :
    getSegments blobId (fuel + 1) (segmentBytes segment ++ rest) =
      if rest.isEmpty then some ([.storeBlob blobId segment], rest)
      else (getSegments blobId fuel rest).map fun p => (.storeBlob blobId segment :: p.1, p.2) := by
  have hlength : getInt16 (leBytes 2 segment.length ++ (segment ++ rest)) = some (segment.length, segment ++ rest) :=
    reads_getInt16 hshort _
  have hblob : getBinary segment.length (segment ++ rest) = some (segment, rest) := reads_takeBytes segment rest
  have hpos : segment.length ≠ 0 := fun h => hne (length_eq_zero_iff.mp h)
  show (getInt16 (segmentBytes segment ++ rest) >>= fun p => _) = _
  rw [segmentBytes, append_assoc, hlength]
  show (if segment.length = 0 then _ else _ : Reader (List Action)) (segment ++ rest) = _
  rw [if_neg hpos]
  show (getBinary segment.length (segment ++ rest) >>= fun p => _) = _
  rw [hblob]
  show (isEof rest >>= fun p => _) = _
  show (if rest.isEmpty = true then _ else _ : Reader (List Action)) rest = _
  cases hrest : rest.isEmpty with
  | true => rfl
  | false =>
    show (getSegments blobId fuel rest >>= fun p => _) = _
    cases getSegments blobId fuel rest <;> rfl

theorem getSegments_end (blobId : BlobId) (fuel : Nat) (rest : List UInt8) :
    getSegments blobId (fuel + 1) (leBytes 2 0 ++ rest) = some ([.storeBlob blobId []], rest) := by
  have hlength : getInt16 (leBytes 2 0 ++ rest) = some (0, rest) := reads_getInt16 (by decide) rest
  show (getInt16 (leBytes 2 0 ++ rest) >>= fun p => _) = _
  rfl

def segmentsBytes (segments : List (List UInt8)) : List UInt8 := segments.flatMap segmentBytes

def Puttable (segment : List UInt8) : Prop := segment ≠ [] ∧ segment.length < 2 ^ 16

variable {segments : List (List UInt8)}

theorem segments_le_bytes (h : ∀ segment ∈ segments, Puttable segment) :
    segments.length ≤ (segmentsBytes segments).length := by
  induction segments with
  | nil => exact Nat.le_refl 0
  | cons segment segments ih =>
    have hlater := ih fun segment hmem => h segment (mem_cons_of_mem _ hmem)
    rw [segmentsBytes, flatMap_cons, length_append, segmentBytes, length_append, leBytes_length,
      length_cons]
    unfold segmentsBytes at hlater
    omega

theorem getSegments_closed (blobId : BlobId) (h : ∀ segment ∈ segments, Puttable segment) (rest : List UInt8) :
    ∀ fuel, segments.length < fuel → getSegments blobId fuel (segmentsBytes segments ++ (leBytes 2 0 ++ rest)) =
      some (segments.map (.storeBlob blobId) ++ [.storeBlob blobId []], rest) := by
  induction segments with
  | nil =>
    intro fuel hfuel
    obtain ⟨fuel, rfl⟩ := Nat.exists_eq_succ_of_ne_zero (Nat.ne_of_gt hfuel)
    exact getSegments_end blobId fuel rest
  | cons segment segments ih =>
    intro fuel hfuel
    obtain ⟨fuel, rfl⟩ := Nat.exists_eq_succ_of_ne_zero (Nat.ne_of_gt (Nat.zero_lt_of_lt hfuel))
    obtain ⟨hne, hshort⟩ := h segment mem_cons_self
    have hlater := ih (fun segment hmem => h segment (mem_cons_of_mem _ hmem)) fuel
      (Nat.lt_of_succ_lt_succ hfuel)
    have hmore : (segmentsBytes segments ++ (leBytes 2 0 ++ rest)).isEmpty = false := by
      rw [isEmpty_eq_false_iff]
      exact append_ne_nil_of_right_ne_nil _ (cons_ne_nil _ _)
    rw [segmentsBytes, flatMap_cons, append_assoc, getSegments_cons blobId fuel hne hshort]
    unfold segmentsBytes at hlater hmore
    rw [hmore, hlater]
    rfl

theorem getSegments_cut (blobId : BlobId) (hne : segments ≠ []) (h : ∀ segment ∈ segments, Puttable segment) :
    ∀ fuel, segments.length ≤ fuel → getSegments blobId fuel (segmentsBytes segments) =
      some (segments.map (.storeBlob blobId), []) := by
  induction segments with
  | nil => exact absurd rfl hne
  | cons segment segments ih =>
    intro fuel hfuel
    obtain ⟨fuel, rfl⟩ := Nat.exists_eq_succ_of_ne_zero (Nat.ne_of_gt (Nat.lt_of_lt_of_le (Nat.succ_pos _) hfuel))
    obtain ⟨hsegment, hshort⟩ := h segment mem_cons_self
    rw [segmentsBytes, flatMap_cons, getSegments_cons blobId fuel hsegment hshort]
    cases segments with
    | nil => rfl
    | cons next segments =>
      have hlater := ih (cons_ne_nil _ _) (fun segment hmem => h segment (mem_cons_of_mem _ hmem)) fuel
        (Nat.le_of_succ_le_succ hfuel)
      have hmore : (segmentsBytes (next :: segments)).isEmpty = false := rfl
      unfold segmentsBytes at hlater hmore
      rw [hlater]
      rfl

def blobIdBytes (blobId : BlobId) : List UInt8 :=
  leBytes 4 blobId.gdsQuadHigh.toNat ++ leBytes 4 blobId.gdsQuadLow.toNat

theorem ofNat_ulong (x : UInt32) :
    UInt32.ofNat (ulong (if x.toNat < 2 ^ 31 then (x.toNat : Int) else (x.toNat : Int) - 2 ^ 32)) = x := by
  rw [ulong_getInt32 x.toNat_lt, UInt32.ofNat_toNat]

theorem getBlob_run (blobId : BlobId) (data : List UInt8) :
    getBlob (blobIdBytes blobId ++ data) = getSegments blobId data.length data := by
  have hhigh := reads_getInt32 blobId.gdsQuadHigh.toNat_lt (leBytes 4 blobId.gdsQuadLow.toNat ++ data)
  have hlow := reads_getInt32 blobId.gdsQuadLow.toNat_lt data
  unfold Reader.run at hhigh hlow
  have hid := ofNat_ulong blobId.gdsQuadHigh
  have hid' := ofNat_ulong blobId.gdsQuadLow
  show (getInt32 (blobIdBytes blobId ++ data) >>= fun p => getInt32 p.2 >>= fun q =>
    getSegments ⟨UInt32.ofNat (ulong p.1), UInt32.ofNat (ulong q.1)⟩ q.2.length q.2) = _
  rw [blobIdBytes, append_assoc, hhigh]
  show (getInt32 (leBytes 4 blobId.gdsQuadLow.toNat ++ data) >>= fun q =>
    getSegments ⟨UInt32.ofNat (ulong _), UInt32.ofNat (ulong q.1)⟩ q.2.length q.2) = _
  rw [hlow]
  show getSegments ⟨UInt32.ofNat (ulong (ite (blobId.gdsQuadHigh.toNat < 2 ^ 31) _ _)),
    UInt32.ofNat (ulong (ite (blobId.gdsQuadLow.toNat < 2 ^ 31) _ _))⟩ data.length data = _
  rw [hid, hid']

end BlockReader

/-! ### What a block says while it is filled

A block that can be cut here, or goes on with another operation (`Ready`), and a block inside a blob (`Midway`). -/

variable {data bytes : List UInt8} {atoms atoms' : List Text} {stands : List Action} {block : BatchBlock}

def Holdable (data : List UInt8) : Prop := sizeofBlock + data.length ≤ fbMaxSizeof

instance (data : List UInt8) : Decidable (Holdable data) := inferInstanceAs (Decidable (_ ≤ _))

/-- Reading these bytes gives what they stand for. -/
def Says (data : List UInt8) (stands : List Action) : Prop :=
  Holdable data → process data.length [] data = some (stands.map Action.toMeta)

/-- These bytes end with an operation: the reader comes to whatever follows with the dictionary of the writer. -/
structure Ready (data : List UInt8) (atoms : List Text) (stands : List Action) : Prop where
  /-- Each name takes a tag and a length. -/
  atoms_le : 2 * atoms.length ≤ data.length
  reads : Holdable data → ∃ ops ≤ data.length, ∀ fuel rest, process (fuel + ops) [] (data ++ rest) =
    (process fuel (atoms.map adjustLength) rest).map (stands.map Action.toMeta ++ ·)

theorem Holdable.left (h : Holdable (data ++ bytes)) : Holdable data := by
  unfold Holdable at *
  rw [length_append] at h
  omega

theorem process_nil (fuel : Nat) (atoms : List Text) : process fuel atoms [] = some [] := by
  cases fuel <;> rfl

theorem Ready.nil : Ready [] [] [] where
  atoms_le := Nat.le_refl 0
  reads _ := ⟨0, Nat.le_refl 0, fun fuel rest => by
    show process fuel [] rest = (process fuel [] rest).map fun actions => actions
    rw [Option.map_id']⟩

section
variable (h : Ready data atoms stands)
include h

theorem Ready.spoken : Says data stands := by
  intro hsize
  obtain ⟨ops, hops, hreads⟩ := h.reads hsize
  have hread := hreads (data.length - ops) []
  rwa [Nat.sub_add_cancel hops, append_nil, process_nil, Option.map_some, append_nil] at hread

theorem Ready.put (op : Operation) {actions : List Action}
    (hatoms : 2 * atoms'.length ≤ (data ++ op.code :: bytes).length)
    (hread : Holdable (data ++ op.code :: bytes) → Reads (getOperation (atoms.map adjustLength) op) bytes
      (actions.map Action.toMeta, atoms'.map adjustLength)) :
    Ready (data ++ op.code :: bytes) atoms' (stands ++ actions) := by
  refine ⟨hatoms, fun hsize => ?_⟩
  obtain ⟨ops, hops, hreads⟩ := h.reads hsize.left
  refine ⟨ops + 1, ?_, fun fuel rest => ?_⟩
  · rw [length_append, length_cons]
    omega
  · rw [← Nat.add_assoc, Nat.add_right_comm, append_assoc, hreads (fuel + 1) (op.code :: bytes ++ rest)]
    have hone : process (fuel + 1) (atoms.map adjustLength) (op.code :: (bytes ++ rest)) =
        (process fuel (atoms'.map adjustLength) rest).map (actions.map Action.toMeta ++ ·) := by
      rw [process, Operation.ofCode_code]
      dsimp only
      rw [hread hsize rest]
    rw [cons_append, hone, Option.map_map, map_append]
    congr 1
    funext later
    exact (append_assoc ..).symm

theorem Ready.lt_of_getElem? (hsize : Holdable data) {pos : Nat} {name : Text}
    (hpos : atoms[pos]? = some name) : pos < 2 ^ 31 := by
  have hlt := (List.getElem?_eq_some_iff.mp hpos).1
  have hle := h.atoms_le
  unfold Holdable sizeofBlock fbMaxSizeof at hsize
  omega

end

namespace BatchBlock

/-- The next operation can be put. -/
abbrev IsReady (block : BatchBlock) : Prop := Ready block.data block.atoms block.stands

/-- `name` is entry `pos` of the dictionary, and the block says the same operations as before. -/
structure Defined (before after : BatchBlock) (pos : Nat) (name : Text) : Prop where
  ready : after.IsReady
  entry : after.atoms[pos]? = some name
  atoms : before.atoms <+: after.atoms
  stands : after.stands = before.stands
  traNumber : after.traNumber = before.traNumber
  flags : after.flags = before.flags
  flushes : after.flushes = before.flushes

theorem getElem?_idxOf {names : List Text} {name : Text} (h : names.idxOf name < names.length) :
    names[names.idxOf name]? = some name := by
  rw [getElem?_eq_getElem h, getElem_idxOf h]

theorem idxOf_eq_length {names : List Text} {name : Text} (h : ¬ names.idxOf name < names.length) :
    names.idxOf name = names.length :=
  Nat.le_antisymm idxOf_le_length (Nat.le_of_not_lt h)

theorem defineAtom_spec (h : block.IsReady) (name : Text) :
    Defined block (block.defineAtom name).2 (block.defineAtom name).1 name := by
  unfold defineAtom
  split
  case isTrue hlast => exact ⟨h, hlast, prefix_refl _, rfl, rfl, rfl, rfl⟩
  case isFalse =>
    dsimp only
    split
    case isTrue hfound => exact ⟨h, getElem?_idxOf hfound, prefix_refl _, rfl, rfl, rfl, rfl⟩
    case isFalse hnew =>
      have hput : Ready (block.data ++ Operation.opDefineAtom.code ::
          (UInt8.ofNat (MetaString.assign name).text.length :: (MetaString.assign name).text))
          (block.atoms ++ [name]) (block.stands ++ []) := by
        refine h.put .opDefineAtom ?_ fun _ => ?_
        · have hle := h.atoms_le
          simp only [length_append, length_cons, length_nil]
          omega
        · have hread := (reads_defineAtom (MetaString.assign name)).map
            fun read => (([] : List Action), block.atoms.map adjustLength ++ [read])
          rw [adjustLength_eq (MetaString.assign name).isMeta] at hread
          rw [map_append]
          exact hread
      rw [append_nil] at hput
      refine ⟨?_, ?_, prefix_append .., rfl, rfl, rfl, rfl⟩
      · show Ready (((block.data ++ [Operation.opDefineAtom.code]) ++ [_]) ++ _) _ _
        rw [append_assoc, append_assoc]
        exact hput
      · show (block.atoms ++ [name])[block.atoms.idxOf name]? = some name
        rw [idxOf_eq_length hnew, getElem?_concat_length]

/-- The dictionary holds both parts of a name. -/
structure Qualified (before after : BatchBlock) (schemaAtom objectAtom : Nat) (schema object : Text) : Prop
    extends Defined before after objectAtom object where
  schemaEntry : after.atoms[schemaAtom]? = some schema

theorem getElem?_of_prefix {names names' : List Text} (h : names <+: names') {pos : Nat} {name : Text}
    (hpos : names[pos]? = some name) : names'[pos]? = some name := by
  obtain ⟨more, rfl⟩ := h
  rw [List.getElem?_append_left (List.getElem?_eq_some_iff.mp hpos).1]
  exact hpos

theorem defineTwo_spec (h : block.IsReady) (schema object : Text) :
    Qualified block ((block.defineAtom schema).2.defineAtom object).2 (block.defineAtom schema).1
      ((block.defineAtom schema).2.defineAtom object).1 schema object := by
  have hfirst := defineAtom_spec h schema
  have hsecond := defineAtom_spec hfirst.ready object
  exact ⟨⟨hsecond.ready, hsecond.entry, hfirst.atoms.trans hsecond.atoms, hsecond.stands.trans hfirst.stands,
    hsecond.traNumber.trans hfirst.traNumber, hsecond.flags.trans hfirst.flags, hsecond.flushes.trans hfirst.flushes⟩,
    getElem?_of_prefix hsecond.atoms hfirst.entry⟩

end BatchBlock
end Firebird.Repl
