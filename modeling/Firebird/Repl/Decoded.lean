import Firebird.Repl.RoundTrip

/-! # Reading the blocks of a transaction in order -/

namespace Firebird.Repl
open Lib BlockReader List

/-! ### The names of sequences -/

section Sequences
variable {user : Text} {calls : List Call} {values values' : SequenceValues} {name : QualifiedName} {value : UInt64}

/-- The values with their names as metadata strings. -/
def SequenceValues.toMeta (values : SequenceValues) : SequenceValues := values.map fun entry =>
    (entry.1.toMeta, entry.2)

theorem mem_of_mem_set {entry : QualifiedName × UInt64} (h : entry ∈ values.set name value) :
    entry ∈ values ∨ entry = (name, value) := by
  induction values with
  | nil => exact .inr (mem_singleton.mp h)
  | cons first values ih =>
    unfold SequenceValues.set at h
    split at h
    · rcases mem_cons.mp h with heq | hmem
      · exact .inr heq
      · exact .inl (mem_cons_of_mem _ hmem)
    · rcases mem_cons.mp h with heq | hmem
      · exact .inl (heq ▸ mem_cons_self)
      · exact (ih hmem).imp (mem_cons_of_mem _) id

theorem exists_mem_set (value : UInt64) {other : QualifiedName}
    (h : (∃ v, (other, v) ∈ values) ∨ other = name) : ∃ v, (other, v) ∈ values.set name value := by
  induction values with
  | nil =>
    rcases h with ⟨v, hmem⟩ | rfl
    · exact absurd hmem not_mem_nil
    · exact ⟨value, mem_cons_self⟩
  | cons first values ih =>
    unfold SequenceValues.set
    split
    case isTrue hfirst =>
      rcases h with ⟨v, hmem⟩ | rfl
      · rcases mem_cons.mp hmem with heq | hlater
        · have hname : other = name := by rw [← hfirst, ← heq]
          exact ⟨value, by rw [hname]; exact mem_cons_self⟩
        · exact ⟨v, mem_cons_of_mem _ hlater⟩
      · exact ⟨value, mem_cons_self⟩
    case isFalse hfirst =>
      rcases h with ⟨v, hmem⟩ | hname
      · rcases mem_cons.mp hmem with heq | hlater
        · exact ⟨v, heq ▸ mem_cons_self⟩
        · exact (ih (.inl ⟨v, hlater⟩)).imp fun _ => mem_cons_of_mem _
      · exact (ih (.inr hname)).imp fun _ => mem_cons_of_mem _

theorem exists_setSequence (hcommit : Call.commit ∈ calls) : ∀ values : SequenceValues, ∀ entry ∈ values,
    ∃ v, Action.setSequence entry.1 v ∈ recordedFrom user values calls := by
  induction calls with
  | nil => exact absurd hcommit not_mem_nil
  | cons call calls ih =>
    intro values entry hentry
    by_cases hcall : call = .commit
    · subst hcall
      refine ⟨entry.2, mem_append_left _ (mem_append_left _ ?_)⟩
      exact mem_map.mpr ⟨entry, hentry, rfl⟩
    · have hlater := ih ((mem_cons.mp hcommit).resolve_left (Ne.symm hcall))
      have hkept : ∃ v, (entry.1, v) ∈ call.valuesAfter values := by
        cases call with
        | setSequence schemaName genName value => exact exists_mem_set value (.inl ⟨entry.2, hentry⟩)
        | commit => exact absurd rfl hcall
        | prepare | startSavepoint | releaseSavepoint | rollbackSavepoint | insertRecord | updateRecord | deleteRecord
        | executeSqlIntl => exact ⟨entry.2, hentry⟩
      obtain ⟨v, hmem⟩ := hkept
      exact (hlater _ _ hmem).imp fun _ => mem_append_right _

theorem actions_of_not_commit {call : Call} (h : call ≠ .commit) :
    call.metaSequence.actions user values' = call.actions user values := by
  cases call with
  | commit => exact absurd rfl h
  | _ => rfl

theorem recordedFrom_of_no_commit (h : Call.commit ∉ calls) : ∀ values values' : SequenceValues,
    recordedFrom user values' (calls.map Call.metaSequence) = recordedFrom user values calls := by
  induction calls with
  | nil => exact fun _ _ => rfl
  | cons call calls ih =>
    intro values values'
    rw [mem_cons, not_or] at h
    rw [map_cons, recordedFrom, recordedFrom, actions_of_not_commit (Ne.symm h.1), ih h.2]

theorem SequenceValues.toMeta_eq (h : ∀ entry ∈ values, entry.1.IsMeta) : values.toMeta = values := by
  refine (map_congr_left fun entry hmem => ?_).trans (map_id _)
  rw [QualifiedName.toMeta_eq_iff.mpr (h entry hmem)]
  rfl

theorem set_toMeta (hvalues : ∀ entry ∈ values, entry.1.IsMeta) (hname : name.IsMeta) :
    values.toMeta.set name.toMeta value = (values.set name value).toMeta := by
  have hset : ∀ entry ∈ values.set name value, entry.1.IsMeta := fun entry hmem => by
    rcases mem_of_mem_set hmem with hold | rfl
    · exact hvalues entry hold
    · exact hname
  rw [SequenceValues.toMeta_eq hvalues, SequenceValues.toMeta_eq hset, QualifiedName.toMeta_eq_iff.mpr hname]

theorem recordedFrom_metaSequence : ∀ (calls : List Call) (values : SequenceValues),
    (∀ action ∈ recordedFrom user values calls, action.IsMeta) →
    recordedFrom user values.toMeta (calls.map Call.metaSequence) = recordedFrom user values calls
  | [], _, _ => rfl
  | call :: calls, values, h => by
    by_cases hcommit : Call.commit ∈ call :: calls
    case neg => exact recordedFrom_of_no_commit hcommit values values.toMeta
    case pos =>
      have hvalues : ∀ entry ∈ values, entry.1.IsMeta := fun entry hmem => by
        exact (exists_setSequence hcommit values entry hmem).elim fun v hv => h _ hv
      have hlater : ∀ action ∈ recordedFrom user (call.valuesAfter values) calls, action.IsMeta :=
        fun action hmem => h action (mem_append_right _ hmem)
      have ih := recordedFrom_metaSequence calls _ hlater
      rw [map_cons, recordedFrom]
      by_cases hcall : call = .commit
      · subst hcall
        rw [SequenceValues.toMeta_eq hvalues]
        exact congrArg _ ih
      · rw [actions_of_not_commit hcall]
        congr 1
        by_cases hrest : Call.commit ∈ calls
        case neg => exact recordedFrom_of_no_commit hrest _ _
        case pos =>
          refine Eq.trans ?_ ih
          congr 1
          cases call with
          | setSequence schemaName genName value =>
            have hname : QualifiedName.IsMeta ⟨schemaName, genName⟩ := by
              have hset : ∃ v, (⟨schemaName, genName⟩, v) ∈ values.set ⟨schemaName, genName⟩ value :=
                exists_mem_set value (.inr rfl)
              obtain ⟨v, hmem⟩ := hset
              exact (exists_setSequence hrest _ _ hmem).elim fun w hw => hlater _ hw
            exact set_toMeta hvalues hname
          | commit => exact absurd rfl hcall
          | prepare | startSavepoint | releaseSavepoint | rollbackSavepoint | insertRecord | updateRecord
          | deleteRecord | executeSqlIntl => rfl

theorem isMeta_metaSequence {action : Action} (h : action ∈ (recordedFrom user values calls).map Action.toMeta) :
    action.IsMeta := by
  obtain ⟨before, _, rfl⟩ := mem_map.mp h
  exact before.isMeta_toMeta

end Sequences

def newReplicator (bufferSize : Nat) (user : MetaString) : Replicator :=
  { bufferSize, user, generators := [], handed := [] }

def callsOn (bufferSize : Nat) (user : MetaString) (number : Nat) (calls : List Call) : Replicator × BatchBlock :=
  (newReplicator bufferSize user).calls (Replicator.startTransaction number) calls

/-- The blocks that the manager gets are read completely. Their operations and those in the open block are what the
    calls recorded, in their order; a commit leaves none there. -/
structure DecodeTo (replicator : Replicator) (block : BatchBlock) (calls : List Call) : Prop where
  decoded : ∃ decoded rest, replicator.handed.mapM Handed.process = some decoded ∧
    process block.data.length [] block.data = some rest ∧
    decoded.flatten ++ rest = recorded replicator.user.text calls
  complete : calls.getLast? = some .commit → block.data = []

def Fit (replicator : Replicator) (block : BatchBlock) : Prop :=
  (∀ handed ∈ replicator.handed, Holdable handed.data) ∧ Holdable block.data

instance (replicator : Replicator) (block : BatchBlock) : Decidable (Fit replicator block) :=
  inferInstanceAs (Decidable (_ ∧ _))

namespace Replicator
variable {replicator : Replicator} {block : BatchBlock}

theorem mapM_process : ∀ blocks : List Handed,
    (∀ handed ∈ blocks, handed.protocol = protocolCurrentVersion ∧ Says handed.data handed.stands) →
    (∀ handed ∈ blocks, Holdable handed.data) →
    blocks.mapM Handed.process = some (blocks.map fun handed => handed.stands.map Action.toMeta)
  | [], _, _ => rfl
  | first :: later, h, hfit => by
    have hone : first.process = some (first.stands.map Action.toMeta) := by
      unfold Handed.process
      rw [if_pos (h first mem_cons_self).1]
      exact (h first mem_cons_self).2 (hfit first mem_cons_self)
    rw [mapM_cons, hone, mapM_process later (fun handed hmem => h handed (mem_cons_of_mem _ hmem))
      fun handed hmem => hfit handed (mem_cons_of_mem _ hmem)]
    rfl

theorem calls_user (calls : List Call) : ∀ (replicator : Replicator) (block : BatchBlock), replicator.Sound →
    block.IsReady → (replicator.calls block calls).1.user = replicator.user := by
  induction calls with
  | nil => exact fun _ _ _ _ => rfl
  | cons call calls ih =>
    intro replicator block h hready
    obtain ⟨kept, hhanded, huser, hsize, hvalues, hputs⟩ := call_puts h hready call
    exact (ih _ _ hputs.sound hputs.ready).trans (hputs.user.trans huser)

theorem calls_getLast {calls : List Call} (h : calls.getLast? = some .commit) :
    (replicator.calls block calls).2.data = [] := by
  obtain ⟨before, rfl⟩ := getLast?_eq_some_iff.mp h
  unfold Replicator.calls
  rw [foldl_append]
  rfl

end Replicator

theorem startTransaction_ready (number : Nat) : (Replicator.startTransaction number).IsReady :=
  have hread : Reads (getOperation [] .opStartTransaction) [] ([Action.startTransaction], []) := reads_pure _
  Ready.nil.put .opStartTransaction (Nat.zero_le _) fun _ => hread

/-- The blocks decode to what was recorded exactly if a metadata string can hold every recorded name, user and search
    path. -/
theorem decodeTo_iff (bufferSize : Nat) (user : MetaString) (number : Nat) (calls : List Call)
    (h : Fit (callsOn bufferSize user number calls).1 (callsOn bufferSize user number calls).2) :
    DecodeTo (callsOn bufferSize user number calls).1 (callsOn bufferSize user number calls).2 calls ↔
      ∀ action ∈ recorded user.text calls, action.IsMeta := by
  have hnew : (newReplicator bufferSize user).Sound := nofun
  have hstart := startTransaction_ready number
  obtain ⟨⟨hsound, hready⟩, hstands⟩ := Replicator.calls_spec calls _ _ hnew hstart
  have huser := Replicator.calls_user calls _ _ hnew hstart
  have hlast : calls.getLast? = some .commit → (callsOn bufferSize user number calls).2.data = [] :=
    Replicator.calls_getLast
  change (callsOn bufferSize user number calls).1.Sound at hsound
  change (callsOn bufferSize user number calls).2.IsReady at hready
  change (callsOn bufferSize user number calls).1.handed.flatMap (·.stands) ++
    (callsOn bufferSize user number calls).2.stands =
      .startTransaction :: recordedFrom user.text [] (calls.map Call.metaSequence) at hstands
  change (callsOn bufferSize user number calls).1.user = user at huser
  generalize callsOn bufferSize user number calls = final at *
  have hmapM := Replicator.mapM_process final.1.handed hsound h.1
  have hrest := hready.spoken h.2
  have hdecoded : (final.1.handed.map fun handed => handed.stands.map Action.toMeta).flatten ++
      final.2.stands.map Action.toMeta =
      .startTransaction :: (recordedFrom user.text [] (calls.map Call.metaSequence)).map Action.toMeta := by
    have hmap := congrArg (map Action.toMeta) hstands
    rw [map_append, map_flatMap] at hmap
    exact hmap
  constructor
  · rintro ⟨⟨decoded, rest, hd, hr, heq⟩, -⟩ action hmem
    rw [hmapM] at hd
    rw [hrest] at hr
    rw [← Option.some.inj hd, ← Option.some.inj hr, hdecoded, huser] at heq
    rw [← heq] at hmem
    rcases mem_cons.mp hmem with rfl | hlater
    · trivial
    · exact isMeta_metaSequence hlater
  · intro hall
    have hmeta : ∀ action ∈ recordedFrom user.text [] calls, action.IsMeta := fun action hmem =>
      hall action (mem_cons_of_mem _ hmem)
    have hsame := recordedFrom_metaSequence calls [] hmeta
    refine ⟨⟨_, _, hmapM, hrest, ?_⟩, hlast⟩
    rw [hdecoded, huser]
    congr 1
    refine Eq.trans (congrArg _ hsame) ?_
    exact (map_congr_left fun action hmem => Action.toMeta_eq_iff.mpr (hmeta action hmem)).trans (map_id _)

def exampleUser : MetaString := .assign [83, 89, 83]

def exampleCalls : List Call :=
  [.startSavepoint, .setSequence [80] [71] 5,
    .insertRecord [80] [84] ⟨[.other, .blob (some ⟨0, 9⟩) [⟨[1, 2, 3], by decide⟩, ⟨[], by decide⟩, ⟨[4], by decide⟩]],
      [7, 7], by decide⟩,
    .setSequence [80] [71] 6, .executeSqlIntl 4 [80] ⟨[68, 68], by decide⟩, .rollbackSavepoint, .prepare, .commit]

theorem decodeTo_iff_example :
    DecodeTo (callsOn 24 exampleUser 3 exampleCalls).1 (callsOn 24 exampleUser 3 exampleCalls).2 exampleCalls :=
  (decodeTo_iff 24 exampleUser 3 exampleCalls (by decide +kernel)).mpr (by decide +kernel)

def longPath : Text := List.replicate 253 65

def longPathCalls : List Call := [.executeSqlIntl 4 longPath ⟨[68], by decide⟩, .commit]

theorem not_decodeTo_longPath : ¬ ∀ (bufferSize : Nat) (user : MetaString) (number : Nat) (calls : List Call),
    Fit (callsOn bufferSize user number calls).1 (callsOn bufferSize user number calls).2 →
    DecodeTo (callsOn bufferSize user number calls).1 (callsOn bufferSize user number calls).2 calls := by
  intro hall
  obtain ⟨⟨decoded, rest, hdecoded, hrest, heq⟩, -⟩ := hall 1000 exampleUser 3 longPathCalls (by decide +kernel)
  have hblocks : (callsOn 1000 exampleUser 3 longPathCalls).1.handed.mapM Handed.process =
      some [[.startTransaction, .executeSql 4 (replicate 252 65) [68] exampleUser.text, .commitTransaction]] := by
    decide +kernel
  have hempty : process (callsOn 1000 exampleUser 3 longPathCalls).2.data.length []
      (callsOn 1000 exampleUser 3 longPathCalls).2.data = some [] := by decide +kernel
  rw [hblocks] at hdecoded
  rw [← Option.some.inj hdecoded, ← Option.some.inj hrest] at heq
  exact absurd heq (by decide +kernel)

end Firebird.Repl
