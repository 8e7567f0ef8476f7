import Firebird.Repl.Calls

/-! # Blobs in a block -/

namespace Firebird.Repl
open Lib BlockReader List
variable {block block' : BatchBlock} {replicator : Replicator} {blobId : BlobId} {put : List (List UInt8)}

/-- The block ends inside the operation that stores a blob, behind these segments. -/
structure Inside (blobId : BlobId) (block : BatchBlock) (put : List (List UInt8)) : Prop where
  before : ∃ data stands, Ready data block.atoms stands ∧
    block.data = data ++ Operation.opStoreBlob.code :: (blobIdBytes blobId ++ segmentsBytes put) ∧
    block.stands = stands ++ put.map (.storeBlob blobId)
  puttable : ∀ segment ∈ put, Puttable segment

theorem inside_putBlobHeader (h : block.IsReady) (blobId : BlobId) :
    Inside blobId (Replicator.putBlobHeader block blobId) [] := by
  refine ⟨⟨block.data, block.stands, h, ?_, (append_nil _).symm⟩, nofun⟩
  show block.data ++ [_] ++ leBytes 4 _ ++ leBytes 4 _ = _
  simp [blobIdBytes, segmentsBytes]

theorem Inside.segment (h : Inside blobId block put) (segment : Segment) (hne : segment.data ≠ []) :
    Inside blobId (((block.putInt16 segment.data.length).putBinary segment.data).standsFor
      (.storeBlob blobId segment.data)) (put ++ [segment.data]) := by
  obtain ⟨data, stands, hready, hdata, hstands⟩ := h.before
  refine ⟨⟨data, stands, hready, ?_, ?_⟩, fun other hmem => ?_⟩
  · show block.data ++ leBytes 2 _ ++ segment.data = _
    rw [hdata, segmentsBytes, segmentsBytes, flatMap_append, flatMap_singleton, segmentBytes]
    simp
  · show block.stands ++ [_] = _
    rw [hstands, map_append, append_assoc]
    rfl
  · rcases mem_append.mp hmem with hold | hnew
    · exact h.puttable other hold
    · rw [mem_singleton.mp hnew]
      exact ⟨hne, segment.short⟩

theorem getOperation_storeBlob (atoms : List Text) (blobId : BlobId) (data : List UInt8) :
    (getOperation atoms .opStoreBlob).run (blobIdBytes blobId ++ data) =
      (getSegments blobId data.length data).map fun p => ((p.1, atoms), p.2) := by
  show (getBlob (blobIdBytes blobId ++ data) >>= fun p => some ((p.1, atoms), p.2)) = _
  rw [getBlob_run]
  cases getSegments blobId data.length data <;> rfl

theorem map_toMeta_storeBlob (blobId : BlobId) (put : List (List UInt8)) :
    (put.map (Action.storeBlob blobId)).map Action.toMeta = put.map (.storeBlob blobId) := by
  rw [map_map]
  rfl

theorem Inside.spoken (h : Inside blobId block put) (hne : put ≠ []) : Says block.data block.stands := by
  intro hsize
  obtain ⟨data, stands, hready, hdata, hstands⟩ := h.before
  rw [hdata] at hsize
  obtain ⟨ops, hops, hreads⟩ := hready.reads hsize.left
  have hrun := getOperation_storeBlob (block.atoms.map adjustLength) blobId (segmentsBytes put)
  rw [getSegments_cut blobId hne h.puttable _ (segments_le_bytes h.puttable)] at hrun
  have hfuel : (data ++ Operation.opStoreBlob.code :: (blobIdBytes blobId ++ segmentsBytes put)).length =
      (data.length - ops + (blobIdBytes blobId ++ segmentsBytes put).length + 1) + ops := by
    rw [length_append, length_cons]
    omega
  have hone : process (data.length - ops + (blobIdBytes blobId ++ segmentsBytes put).length + 1)
      (block.atoms.map adjustLength) (Operation.opStoreBlob.code :: (blobIdBytes blobId ++ segmentsBytes put)) =
      some (put.map (.storeBlob blobId)) := by
    rw [process, Operation.ofCode_code]
    dsimp only
    rw [hrun, Option.map_some]
    dsimp only
    rw [process_nil, Option.map_some, append_nil]
  rw [hdata, hstands, hfuel, hreads, hone, Option.map_some, map_append, map_toMeta_storeBlob]

theorem Inside.close (h : Inside blobId block put) : ((block.putInt16 0).standsFor (.storeBlob blobId [])).IsReady := by
  obtain ⟨data, stands, hready, hdata, hstands⟩ := h.before
  have hread : Reads (getOperation (block.atoms.map adjustLength) .opStoreBlob)
      (blobIdBytes blobId ++ (segmentsBytes put ++ leBytes 2 0))
      ((put.map (Action.storeBlob blobId) ++ [Action.storeBlob blobId []]).map Action.toMeta,
        block.atoms.map adjustLength) := by
    intro rest
    have hclosed := getSegments_closed blobId h.puttable rest (segmentsBytes put ++ (leBytes 2 0 ++ rest)).length (by
      have hle := segments_le_bytes h.puttable
      rw [length_append, length_append, leBytes_length]
      omega)
    rw [append_assoc, append_assoc, getOperation_storeBlob, hclosed, map_append, map_toMeta_storeBlob]
    rfl
  have hput := hready.put .opStoreBlob (by
    rw [length_append]
    exact hready.atoms_le.trans (Nat.le_add_right ..)) fun _ => hread
  show Ready (block.data ++ leBytes 2 0) block.atoms (block.stands ++ [_])
  rw [hdata, hstands]
  simp only [append_assoc, cons_append] at hput ⊢
  exact hput

namespace Replicator

def putSegments (segments : List Segment) : List (List UInt8) :=
  (segments.map (·.data)).filter (· ≠ [])

structure InLoop (blobId : BlobId) (newOp : Bool) (replicator : Replicator) (block : BatchBlock) : Prop where
  sound : replicator.Sound
  ready : newOp = true → block.IsReady
  inside : newOp = false → ∃ put, Inside blobId block put

theorem InLoop.header {newOp : Bool} (h : InLoop blobId newOp replicator block) :
    ∃ put, Inside blobId (if newOp then putBlobHeader block blobId else block) put := by
  cases newOp with
  | true => exact ⟨[], inside_putBlobHeader (h.ready rfl) blobId⟩
  | false => exact h.inside rfl

theorem header_passes {newOp : Bool} {actions : List Action}
    (hstands : block'.stands = (if newOp then putBlobHeader block blobId else block).stands ++ actions)
    (htra : block'.traNumber = (if newOp then putBlobHeader block blobId else block).traNumber)
    (hflushes : block'.flushes = (if newOp then putBlobHeader block blobId else block).flushes) :
    Passes replicator block replicator block' actions := by
  cases newOp <;> exact passes_of_stands hstands htra hflushes

theorem storeSegments_spec (blobId : BlobId) (segments : List Segment) : ∀ (newOp : Bool) (replicator : Replicator)
    (block : BatchBlock), InLoop blobId newOp replicator block →
    Passes replicator block (storeSegments blobId segments newOp replicator block).2.1
      (storeSegments blobId segments newOp replicator block).2.2 ((putSegments segments).map (.storeBlob blobId)) ∧
    InLoop blobId (storeSegments blobId segments newOp replicator block).1
      (storeSegments blobId segments newOp replicator block).2.1
      (storeSegments blobId segments newOp replicator block).2.2 := by
  induction segments with
  | nil => exact fun newOp replicator block h => ⟨.refl, h⟩
  | cons segment segments ih =>
    intro newOp replicator block h
    by_cases hempty : segment.data = []
    · have hput : putSegments (segment :: segments) = putSegments segments := by
        unfold putSegments
        rw [map_cons, filter_cons_of_neg (by simpa using hempty)]
      rw [storeSegments, if_pos hempty, hput]
      exact ih newOp replicator block h
    · have hput : putSegments (segment :: segments) = segment.data :: putSegments segments := by
        unfold putSegments
        rw [map_cons, filter_cons_of_pos (by simpa using hempty)]
      obtain ⟨put, hinside⟩ := h.header
      have hsegment : Inside blobId (putSegment block newOp blobId segment) (put ++ [segment.data]) :=
        hinside.segment segment hempty
      have hone : Passes replicator block replicator (putSegment block newOp blobId segment)
          [.storeBlob blobId segment.data] := header_passes rfl rfl rfl
      have hne : (putSegment block newOp blobId segment).stands ≠ [] := stands_ne_nil
      rw [storeSegments, if_neg hempty, hput]
      dsimp only
      split
      case isTrue hfull =>
        have hspoken := hsegment.spoken (append_ne_nil_of_right_ne_nil _ (cons_ne_nil _ _))
        have hnext : InLoop blobId true (replicator.flush (putSegment block newOp blobId segment) .flushOverflow 0).1
            (replicator.flush (putSegment block newOp blobId segment) .flushOverflow 0).2 :=
          ⟨flush_sound h.sound hspoken .flushOverflow 0, fun _ => flush_ready .flushOverflow 0, nofun⟩
        obtain ⟨hlater, hloop⟩ := ih true _ _ hnext
        exact ⟨(hone.trans (flush_passes hne .flushOverflow 0)).trans hlater, hloop⟩
      case isFalse hroom =>
        obtain ⟨hlater, hloop⟩ := ih false _ _ ⟨h.sound, nofun, fun _ => ⟨_, hsegment⟩⟩
        exact ⟨hone.trans hlater, hloop⟩

def blobActions (blobId : BlobId) (segments : List Segment) : List Action :=
  (putSegments segments).map (.storeBlob blobId) ++ [.storeBlob blobId []]

theorem storeBlob_puts (h : replicator.Sound) (hready : block.IsReady) (blobId : BlobId) (segments : List Segment) :
    Puts replicator block (replicator.storeBlob block blobId segments).1 (replicator.storeBlob block blobId segments).2
      (blobActions blobId segments) := by
  obtain ⟨hpasses, hloop⟩ := storeSegments_spec blobId segments true replicator block
    ⟨h, fun _ => hready, nofun⟩
  obtain ⟨put, hinside⟩ := hloop.header
  have hclose := put_flushOverflow_puts hloop.sound hinside.close (header_passes rfl rfl rfl) stands_ne_nil
  exact ⟨hpasses.trans hclose.toPasses, hclose.sound, hclose.ready⟩

def blobsActions : List ReplicatedField → List Action
  | [] => []
  | .blob (some blobId) segments :: fields =>
    if blobId.isNull then blobsActions fields else blobActions blobId segments ++ blobsActions fields
  | _ :: fields => blobsActions fields

theorem storeBlobs_puts (fields : List ReplicatedField) : ∀ (replicator : Replicator) (block : BatchBlock),
    replicator.Sound → block.IsReady →
    Puts replicator block (storeBlobs fields replicator block).1 (storeBlobs fields replicator block).2
      (blobsActions fields) := by
  induction fields with
  | nil => exact fun replicator block h hready => ⟨.refl, h, hready⟩
  | cons field fields ih =>
    intro replicator block h hready
    match field with
    | .other | .blob none segments => exact ih replicator block h hready
    | .blob (some blobId) segments =>
      rw [storeBlobs, blobsActions]
      split
      · exact ih replicator block h hready
      · have hblob := storeBlob_puts h hready blobId segments
        exact hblob.trans (ih _ _ hblob.sound hblob.ready)

end Replicator
end Firebird.Repl
