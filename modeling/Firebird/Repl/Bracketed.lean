import Firebird.Lib.Run
import Firebird.Repl.Decoded
import Firebird.Repl.Ended

/-! # Replicated transactions are well bracketed

Over any run of a session the blocks handed over can be applied, and what the replica then has agrees with the primary.
-/

namespace Firebird.Repl
open Lib Applier List Function
variable {applier applier' base : Applier} {replicator replicator' : Replicator} {number : Nat} {t : Transaction}
  {session : Session} {event : Event} {events : List Event}

theorem Applier.Follows.congr {block : BatchBlock} {transaction : ReplicaTransaction}
    (h : Follows applier number block transaction) (hmap : applier'.txnMap number = applier.txnMap number) :
    Follows applier' number block transaction where
  traNumber := h.traNumber
  ready := h.ready
  known := by rw [hmap]; exact h.known
  unsent := by
    have hunsent := h.unsent
    unfold Applier.unsent at hunsent ⊢
    rwa [hmap]
  undone := h.undone

theorem Known.elsewhere (h : Known base replicator number t) (hbase : take replicator.handed = some base)
    (hsound : replicator'.Sound) (htaken : take replicator'.handed = some applier)
    (hmap : applier.txnMap number = base.txnMap number) : Known applier replicator' number t := by
  cases h with
  | silent _ _ hnone hsilent => exact .silent hsound htaken (hmap.trans hnone) hsilent
  | tracked h =>
    obtain ⟨⟨block, transaction, hblock, hat, hmirrors⟩, hroot⟩ := h
    obtain ⟨old, hold, -, hfollows⟩ := hat.taken
    rw [hbase] at hold
    obtain rfl : base = old := Option.some.inj hold
    have hhere : At applier replicator' number block transaction :=
      ⟨hsound, applier, htaken, .refl, hfollows.congr hmap⟩
    exact hhere.known hmirrors hblock hroot

theorem Known.arrived (h : Known base replicator number t) : replicator.Sound ∧
    ∃ applier, take replicator.handed = some applier ∧ SameElse base applier number ∧
      Known applier replicator number t := by
  cases h with
  | silent hsound htaken hnone hsilent => exact ⟨hsound, base, htaken, .refl, .silent hsound htaken hnone hsilent⟩
  | tracked h =>
    obtain ⟨⟨block, transaction, hblock, hat, hmirrors⟩, hroot⟩ := h
    obtain ⟨applier, htaken, hsame, hfollows⟩ := hat.taken
    have hhere : At applier replicator number block transaction := ⟨hat.sound, applier, htaken, .refl, hfollows⟩
    exact ⟨hat.sound, applier, htaken, hsame, hhere.known hmirrors hblock hroot⟩

namespace Session

@[simp] theorem continueWith_self (session : Session) (number : Nat) (state : Replicator × Transaction) :
    (session.continueWith number state).transactions number = some state.2 := update_self ..

theorem continueWith_of_ne {other : Nat} (h : other ≠ number) (session : Session) (state : Replicator × Transaction) :
    (session.continueWith number state).transactions other = session.transactions other := update_of_ne h ..

@[simp] theorem start_self (session : Session) (number : Nat) (autoUndo : Bool) :
    (session.after (.start number autoUndo)).transactions number = some (newTransaction autoUndo) :=
  update_self ..

theorem start_of_ne {other : Nat} (h : other ≠ number) (session : Session) (autoUndo : Bool) :
    (session.after (.start number autoUndo)).transactions other = session.transactions other :=
  update_of_ne h ..

end Session

/-- The replica, with the blocks handed over, stands where the session is but for what has not been handed over. -/
structure InStep (session : Session) (applier : Applier) : Prop where
  sound : session.replicator.Sound
  taken : take session.replicator.handed = some applier
  unknown : ∀ number, session.transactions number = none → applier.txnMap number = none
  known : ∀ number t, session.transactions number = some t → Known applier session.replicator number t
  committed : applier.committed = session.committed.map fun entry => (entry.1, entry.2.map Action.toMeta)
  ended : ∀ number ∈ session.ended, session.transactions number = none

namespace InStep
variable (h : InStep session applier)
include h

theorem continueWith (hopen : session.transactions number = some t) {state : Replicator × Transaction}
    (hnext : Known applier state.1 number state.2) : ∃ applier, InStep (session.continueWith number state) applier := by
  obtain ⟨hsound, applier', htaken, hsame, hknown⟩ := hnext.arrived
  refine ⟨applier', hsound, htaken, fun other hother => ?_, fun other u hother => ?_, ?_, fun other hmem => ?_⟩
  · by_cases heq : other = number
    · subst heq
      exact nomatch (Session.continueWith_self session other state).symm.trans hother
    · rw [hsame.others other heq]
      exact h.unknown other ((Session.continueWith_of_ne heq session state).symm.trans hother)
  · by_cases heq : other = number
    · subst heq
      obtain rfl : state.2 = u := Option.some.inj ((Session.continueWith_self session other state).symm.trans hother)
      exact hknown
    · exact (h.known other u ((Session.continueWith_of_ne heq session state).symm.trans hother)).elsewhere h.taken
        hsound htaken (hsame.others other heq)
  · exact hsame.committed.trans h.committed
  · by_cases heq : other = number
    · subst heq
      exact absurd (hopen.symm.trans (h.ended other hmem)) (Option.some_ne_none _)
    · exact (Session.continueWith_of_ne heq session state).trans (h.ended other hmem)

theorem finish {committed new : List (Nat × List Action)} (hend : EndedWith applier replicator' number new)
    (hcommitted : committed.map (fun entry => (entry.1, entry.2.map Action.toMeta)) =
      session.committed.map (fun entry => (entry.1, entry.2.map Action.toMeta)) ++ new) :
    ∃ applier, InStep { session.finish number replicator' with committed } applier := by
  obtain ⟨hsound, applier', htaken, hothers, hnone, hall⟩ := hend
  refine ⟨applier', hsound, htaken, fun other hother => ?_, fun other u hother => ?_, ?_, fun other hmem => ?_⟩
  · by_cases heq : other = number
    · rw [heq]
      exact hnone
    · rw [hothers other heq]
      exact h.unknown other ((update_of_ne heq ..).symm.trans hother)
  · by_cases heq : other = number
    · subst heq
      exact absurd ((update_self ..).symm.trans hother) (Option.some_ne_none _).symm
    · exact (h.known other u ((update_of_ne heq ..).symm.trans hother)).elsewhere h.taken hsound htaken
        (hothers other heq)
  · exact hall.trans (by rw [h.committed]; exact hcommitted.symm)
  · by_cases heq : other = number
    · rw [heq]
      exact update_self ..
    · refine (update_of_ne heq ..).trans (h.ended other ?_)
      exact (mem_append.mp hmem).resolve_right fun hnew => heq (mem_singleton.mp hnew)

theorem start (hnew : session.transactions number = none) (hnever : number ∉ session.ended) (autoUndo : Bool) :
    InStep (session.after (.start number autoUndo)) applier := by
  refine ⟨h.sound, h.taken, fun other hother => ?_, fun other u hother => ?_, h.committed, fun other hmem => ?_⟩
  · by_cases heq : other = number
    · rw [heq]
      exact h.unknown number hnew
    · exact h.unknown other ((Session.start_of_ne heq session autoUndo).symm.trans hother)
  · by_cases heq : other = number
    · subst heq
      obtain rfl : Session.newTransaction autoUndo = u :=
        Option.some.inj ((Session.start_self session other autoUndo).symm.trans hother)
      refine .silent h.sound h.taken (h.unknown other hnew) ⟨rfl, rfl, fun savepoint hmem => ?_, ?_⟩
      · cases autoUndo with
        | true =>
          rw [mem_singleton.mp hmem]
          exact ⟨rfl, rfl⟩
        | false => exact nomatch hmem
      · cases autoUndo <;> exact nofun
    · exact h.known other u ((Session.start_of_ne heq session autoUndo).symm.trans hother)
  · refine (Session.start_of_ne ?_ session autoUndo).trans (h.ended other hmem)
    rintro rfl
    exact hnever hmem

theorem setSequence (schemaName genName : Text) (value : UInt64) :
    InStep (session.setSequence schemaName genName value) applier :=
  ⟨h.sound, h.taken, h.unknown, fun number t hopen => (h.known number t hopen).congr rfl, h.committed, h.ended⟩

end InStep

theorem eq_storeBlob_of_mem {fields : List ReplicatedField} {action : Action}
    (h : action ∈ Replicator.blobsActions fields) : ∃ blobId data, action = .storeBlob blobId data := by
  induction fields with
  | nil => exact nomatch h
  | cons field fields ih =>
    match field with
    | .other | .blob none _ => exact ih h
    | .blob (some blobId) segments =>
      rw [Replicator.blobsActions] at h
      split at h
      · exact ih h
      · rcases mem_append.mp h with hfirst | hlater
        · rcases mem_append.mp hfirst with hsegment | hclose
          · obtain ⟨data, -, rfl⟩ := mem_map.mp hsegment
            exact ⟨blobId, data, rfl⟩
          · exact ⟨blobId, [], mem_singleton.mp hclose⟩
        · exact ih hlater

section
variable (h : Known base replicator number t)
include h

theorem Known.record (change : Action) (fields : List ReplicatedField)
    {call : Replicator → BatchBlock → Replicator × BatchBlock}
    (hchange : ∀ transaction : ReplicaTransaction, transaction.apply change.toMeta = some
      (transaction.addChange change.toMeta))
    (hundo : change ≠ .cleanupSavepoint true)
    (hcall : ∀ (replicator' : Replicator) (block : BatchBlock), replicator'.Sound → replicator'.user = replicator.user →
      block.IsReady → Replicator.Puts replicator' block (call replicator' block).1 (call replicator' block).2
        (Replicator.blobsActions fields ++ [change])) :
    Known base (publishTo replicator number (t.addChange change) call).1 number
      (publishTo replicator number (t.addChange change) call).2 := by
  have hsilent : ∀ action ∈ (Replicator.blobsActions fields).map Action.toMeta, ∀ transaction : ReplicaTransaction,
      transaction.apply action = some transaction := by
    intro action hmem _
    obtain ⟨before, hbefore, rfl⟩ := mem_map.mp hmem
    obtain ⟨blobId, data, rfl⟩ := eq_storeBlob_of_mem hbefore
    rfl
  refine h.change change hsilent hchange (fun hmem => ?_) map_append hcall
  rcases mem_append.mp hmem with hblob | hlast
  · obtain ⟨blobId, data, heq⟩ := eq_storeBlob_of_mem hblob
    exact nomatch heq
  · exact hundo (mem_singleton.mp hlast).symm

theorem Known.call {call : Call} {change : Action} (hchange : call.change? = some change) :
    Known base (publishTo replicator number (t.addChange change) fun replicator block => replicator.call block call).1
      number (publishTo replicator number (t.addChange change) fun replicator block =>
        replicator.call block call).2 := by
  cases call with
  | insertRecord schemaName tableName record =>
    obtain rfl := Option.some.inj hchange
    exact h.record _ record.fields (fun _ => rfl) nofun fun _ _ hsound _ hready =>
      Replicator.insertRecord_puts hsound hready schemaName tableName record
  | updateRecord schemaName tableName orgRecord newRecord =>
    obtain rfl := Option.some.inj hchange
    exact h.record _ newRecord.fields (fun _ => rfl) nofun fun _ _ hsound _ hready =>
      Replicator.updateRecord_puts hsound hready schemaName tableName orgRecord newRecord
  | deleteRecord schemaName tableName record =>
    obtain rfl := Option.some.inj hchange
    exact h.record _ [] (fun _ => rfl) nofun fun _ _ hsound _ hready =>
      Replicator.deleteRecord_puts hsound hready schemaName tableName record
  | prepare | commit | startSavepoint | releaseSavepoint | rollbackSavepoint | executeSqlIntl | setSequence =>
    exact nomatch (hchange : none = some change)

theorem Known.execSql (charset : UInt8) (schemaSearchPath : Text) (sql : SqlText) :
    Known base (publishTo replicator number
        (t.addChange (.executeSql charset schemaSearchPath sql.text replicator.user.text))
        fun replicator block => replicator.executeSqlIntl block charset schemaSearchPath sql).1 number
      (publishTo replicator number (t.addChange (.executeSql charset schemaSearchPath sql.text replicator.user.text))
        fun replicator block => replicator.executeSqlIntl block charset schemaSearchPath sql).2 := by
  refine h.record _ [] (fun _ => rfl) nofun fun replicator' block hsound huser hready => ?_
  rw [← huser]
  exact Replicator.executeSqlIntl_puts hsound hready charset schemaSearchPath sql

end

/-- What the engine sees to: transaction numbers are not used again, and only savepoints above the transaction-level one
    are released by name or rolled back to. -/
def Allowed (session : Session) : Event → Prop
  | .start number _ => session.transactions number = none ∧ number ∉ session.ended
  | .releaseInner _ position _ => 0 < position
  | .rollbackToSavepoint number position _ => ∀ transaction ∈ session.transactions number,
      position < transaction.savePoint.length ∧
        ∀ savepoint ∈ transaction.savePoint.take (position + 1), savepoint.root = false
  | _ => True

/-- No announced savepoint is released from inside the stack, and no sequence value meets the rollback of a transaction
of which nothing has been handed over. -/
def Careful (session : Session) : Event → Prop
  | .releaseInner number position _ => ∀ transaction ∈ session.transactions number,
      ∀ savepoint ∈ transaction.savePoint[position]?, savepoint.replicated = false
  | .rollback number force large => ∀ transaction ∈ session.transactions number,
      transaction.RollsBack session.replicator force large
  | _ => True

theorem InStep.step (h : InStep session applier) (hnumber : event.number = some number)
    (hopen : session.transactions number = some t) (hallowed : Allowed session event)
    (hcareful : Careful session event) : ∃ applier, InStep (session.step t event) applier := by
  have hknown := h.known number t hopen
  cases event with
  | start number' autoUndo => exact ⟨applier, h⟩
  | startSavepoint number' savNumber =>
    obtain rfl : number' = number := Option.some.inj hnumber
    exact h.continueWith hopen (hknown.startSavepoint savNumber)
  | releaseSavepoint number' large =>
    obtain rfl : number' = number := Option.some.inj hnumber
    exact h.continueWith hopen (hknown.releaseTop large)
  | releaseInner number' position large =>
    obtain rfl : number' = number := Option.some.inj hnumber
    exact h.continueWith hopen (hknown.releaseInner large (hcareful t hopen))
  | rollbackToSavepoint number' position large =>
    obtain rfl : number' = number := Option.some.inj hnumber
    obtain ⟨hlt, hroot⟩ := hallowed t hopen
    exact h.continueWith hopen (hknown.rollbackTo large hlt hroot)
  | change number' call =>
    obtain rfl : number' = number := Option.some.inj hnumber
    rw [Session.step]
    cases hchange : call.change? with
    | none => exact ⟨applier, h⟩
    | some change =>
      dsimp only
      exact h.continueWith hopen (hknown.call hchange)
  | dummyUpdate number' =>
    obtain rfl : number' = number := Option.some.inj hnumber
    exact h.continueWith hopen hknown.dummy
  | execSql number' charset schemaSearchPath sql =>
    obtain rfl : number' = number := Option.some.inj hnumber
    rw [Session.step, Session.publish_eq]
    exact h.continueWith hopen (hknown.execSql charset schemaSearchPath sql)
  | genId number' schemaName genName value =>
    obtain rfl : number' = some number := hnumber
    rw [Session.step]
    split
    · obtain ⟨applier', hnext⟩ := h.continueWith hopen hknown.dummy
      exact ⟨applier', hnext.setSequence schemaName genName value⟩
    · exact ⟨applier, h.setSequence schemaName genName value⟩
  | prepare number' large =>
    obtain rfl : number' = number := Option.some.inj hnumber
    exact h.continueWith hopen (hknown.releaseAll true large t.savePoint.length).transPrepare
  | commit number' large =>
    obtain rfl : number' = number := Option.some.inj hnumber
    have hend := (hknown.releaseAll false large t.savePoint.length).commit
    refine h.finish hend ?_
    split
    · rw [map_append]
      rfl
    · exact (append_nil _).symm
  | rollback number' force large =>
    obtain rfl : number' = number := Option.some.inj hnumber
    exact h.finish (hknown.rollback (hcareful t hopen)) (append_nil _).symm

theorem InStep.after (h : InStep session applier) (hallowed : Allowed session event)
    (hcareful : Careful session event) : ∃ applier, InStep (session.after event) applier := by
  cases event with
  | start number autoUndo => exact ⟨applier, h.start hallowed.1 hallowed.2 autoUndo⟩
  | genId number schemaName genName value =>
    cases number with
    | none => exact ⟨applier, h.setSequence schemaName genName value⟩
    | some number =>
      rw [Session.after]
      · split
        · exact ⟨applier, h⟩
        case h_2 hopen => exact h.step rfl hopen hallowed hcareful
      all_goals nofun
  | startSavepoint number | releaseSavepoint number | releaseInner number | rollbackToSavepoint number | change number
  | dummyUpdate number | execSql number | prepare number | commit number | rollback number =>
    rw [Session.after]
    · split
      · exact ⟨applier, h⟩
      case h_2 hopen => exact h.step rfl hopen hallowed hcareful
    all_goals nofun

/-! ### Runs -/

theorem prefix_of_eq {changes changes' : List Action} (h : changes = changes') : changes <+: changes' :=
  h ▸ prefix_rfl

theorem live_addChange (transaction : ReplicaTransaction) (change : Action) :
    (transaction.addChange change).live = transaction.live ++ [change] := by
  unfold ReplicaTransaction.addChange ReplicaTransaction.live
  split
  case h_1 hnil =>
    rw [hnil]
    show transaction.kept ++ [change] ++ [] = transaction.kept ++ [] ++ [change]
    rw [append_nil, append_nil]
  case h_2 top later hstack =>
    rw [hstack, liveChanges_cons, liveChanges_cons]
    simp only [append_assoc]

theorem live_apply {transaction transaction' : ReplicaTransaction} {action : Action}
    (h : transaction.apply action = some transaction') (hundo : action ≠ .cleanupSavepoint true) :
    transaction.live <+: transaction'.live := by
  cases action with
  | startTransaction | commitTransaction | rollbackTransaction | cleanupTransaction =>
    exact nomatch (h : none = some transaction')
  | prepareTransaction | storeBlob | setSequence =>
    obtain rfl : transaction = transaction' := Option.some.inj h
    exact prefix_rfl
  | startSavepoint =>
    obtain rfl := Option.some.inj h
    refine prefix_of_eq ?_
    unfold ReplicaTransaction.live
    rw [liveChanges_cons, append_nil]
  | insertRecord | updateRecord | deleteRecord | executeSql =>
    obtain rfl := Option.some.inj h
    rw [live_addChange]
    exact prefix_append _ _
  | cleanupSavepoint undo =>
    cases undo with
    | true => exact absurd rfl hundo
    | false =>
      change transaction.cleanupSavepoint false = some transaction' at h
      unfold ReplicaTransaction.cleanupSavepoint at h
      unfold ReplicaTransaction.live
      split at h
      · exact nomatch h
      case h_2 top later hstack =>
        rw [hstack]
        cases later with
        | nil =>
          obtain rfl := Option.some.inj h
          refine prefix_of_eq ?_
          rw [liveChanges_cons, ← append_assoc, append_assoc transaction.kept]
          show _ = transaction.kept ++ top ++ []
          rw [append_nil]
          rfl
        | cons next later =>
          obtain rfl := Option.some.inj h
          refine prefix_of_eq ?_
          rw [liveChanges_cons, liveChanges_cons, liveChanges_cons, append_assoc]

theorem live_run {actions : List Action} : ∀ {transaction transaction' : ReplicaTransaction},
    transaction.run actions = some transaction' → .cleanupSavepoint true ∉ actions →
    transaction.live <+: transaction'.live := by
  induction actions with
  | nil =>
    intro transaction transaction' h _
    obtain rfl : transaction = transaction' := Option.some.inj h
    exact prefix_rfl
  | cons action actions ih =>
    intro transaction transaction' h hundo
    obtain ⟨middle, hfirst, hlater⟩ := Option.bind_eq_some_iff.mp h
    exact (live_apply hfirst fun heq => hundo (heq ▸ mem_cons_self)).trans
      (ih hlater fun hmem => hundo (mem_cons_of_mem _ hmem))

/-- The replica and the primary agree: on the transactions that have ended and on those that were committed, and on
    the open ones once the block that is being filled arrives. -/
structure Bracketed (session : Session) (applier : Applier) : Prop where
  ended : ∀ number ∈ session.ended, applier.txnMap number = none
  committed : applier.committed = session.committed.map fun entry => (entry.1, entry.2.map Action.toMeta)
  silent : ∀ number t, session.transactions number = some t → t.replicator = none →
    applier.txnMap number = none ∧ t.live = []
  replicated : ∀ number t block, session.transactions number = some t → t.replicator = some block →
    ∃ transaction, applier.unsent number (block.stands.map Action.toMeta) = some transaction ∧
      Mirrors transaction t.savePoint t.kept ∧
      ∀ current, applier.txnMap number = some current → current.live <+: t.live.map Action.toMeta

theorem Silent.live (h : Silent t) : t.live = [] := by
  unfold Transaction.live
  rw [h.kept, liveChanges_fresh h.fresh]
  rfl

theorem InStep.bracketed (h : InStep session applier) : Bracketed session applier where
  ended := fun number hmem => h.unknown number (h.ended number hmem)
  committed := h.committed
  silent := by
    intro number t hopen hnone
    cases h.known number t hopen with
    | silent _ _ hmap hsilent => exact ⟨hmap, hsilent.live⟩
    | tracked htracked =>
      obtain ⟨⟨block, -, hblock, -⟩, -⟩ := htracked
      exact nomatch hnone.symm.trans hblock
  replicated := by
    intro number t block hopen hsome
    cases h.known number t hopen with
    | silent _ _ _ hsilent => exact nomatch hsilent.replicator.symm.trans hsome
    | tracked htracked =>
      obtain ⟨⟨block', transaction, hblock, hat, hmirrors⟩, -⟩ := htracked
      obtain rfl : block' = block := Option.some.inj (hblock.symm.trans hsome)
      obtain ⟨old, hold, -, hfollows⟩ := hat.taken
      rw [h.taken] at hold
      obtain rfl : applier = old := Option.some.inj hold
      refine ⟨transaction, hfollows.unsent, hmirrors, fun current hcurrent => ?_⟩
      have hlive : transaction.live = t.live.map Action.toMeta := hmirrors.live
      have hrun := hfollows.unsent
      rw [unsent_open hcurrent] at hrun
      rw [← hlive]
      refine live_run hrun fun hmem => ?_
      obtain ⟨action, haction, heq⟩ := mem_map.mp hmem
      cases action with
      | cleanupSavepoint undo =>
        cases undo with
        | true => exact hfollows.undone haction
        | false => exact nomatch heq
      | startTransaction | prepareTransaction | commitTransaction | rollbackTransaction | cleanupTransaction
      | startSavepoint | insertRecord | updateRecord | deleteRecord | storeBlob | executeSql | setSequence =>
        exact nomatch heq

def Session.new (bufferSize : Nat) (user : MetaString) : Session where
  replicator := newReplicator bufferSize user
  transactions := fun _ => none
  ended := []
  committed := []

def Step : Session → Event → Session → Prop := Does Allowed Session.after

def CarefulStep : Session → Event → Session → Prop :=
  Does (fun session event => Allowed session event ∧ Careful session event) Session.after

theorem inStep_new (bufferSize : Nat) (user : MetaString) :
    InStep (Session.new bufferSize user) ⟨fun _ => none, []⟩ where
  sound := nofun
  taken := rfl
  unknown := fun _ _ => rfl
  known := nofun
  committed := rfl
  ended := nofun

theorem exists_inStep {bufferSize : Nat} {user : MetaString}
    (hrun : Run CarefulStep (Session.new bufferSize user) events session) : ∃ applier, InStep session applier := by
  refine hrun.invariant (I := fun session => ∃ applier, InStep session applier) ?_ ⟨_, inStep_new bufferSize user⟩
  rintro session event session' ⟨applier, h⟩ ⟨⟨hallowed, hcareful⟩, rfl⟩
  exact h.after hallowed hcareful

/-- The blocks handed over can be applied at any moment, and the replica then agrees with the primary. -/
theorem bracketed_of_careful {bufferSize : Nat} {user : MetaString}
    (hrun : Run CarefulStep (Session.new bufferSize user) events session)
    (hfit : ∀ handed ∈ session.replicator.handed, Holdable handed.data) :
    ∃ applier, processAll session.replicator.handed = some applier ∧ Bracketed session applier := by
  obtain ⟨applier, h⟩ := exists_inStep hrun
  exact ⟨applier, (processAll_eq h.sound hfit).trans h.taken, h.bracketed⟩

instance (replicator : Replicator) (t : Transaction) (force large : Bool) :
    Decidable (t.RollsBack replicator force large) :=
  inferInstanceAs (Decidable (∀ block ∈ t.replicator, _ ∨ _ ∨ _ ∧ ∃ savepoint ∈ t.savePoint, _))

instance (session : Session) : (event : Event) → Decidable (Allowed session event)
  | .start _ _ => inferInstanceAs (Decidable (_ ∧ _))
  | .releaseInner _ _ _ => inferInstanceAs (Decidable (_ < _))
  | .rollbackToSavepoint number _ _ =>
    inferInstanceAs (Decidable (∀ transaction ∈ session.transactions number, _ ∧ ∀ savepoint ∈ _, _))
  | .startSavepoint _ _ | .releaseSavepoint _ _ | .change _ _ | .dummyUpdate _ | .execSql _ _ _ _ | .genId _ _ _ _
  | .prepare _ _ | .commit _ _ | .rollback _ _ _ => isTrue trivial

instance (session : Session) : (event : Event) → Decidable (Careful session event)
  | .releaseInner number _ _ =>
    inferInstanceAs (Decidable (∀ transaction ∈ session.transactions number, ∀ savepoint ∈ _, _))
  | .rollback number _ _ => inferInstanceAs (Decidable (∀ transaction ∈ session.transactions number, _))
  | .start _ _ | .rollbackToSavepoint _ _ _ | .startSavepoint _ _ | .releaseSavepoint _ _ | .change _ _ | .dummyUpdate _
  | .execSql _ _ _ _ | .genId _ _ _ _ | .prepare _ _ | .commit _ _ => isTrue trivial

def exampleInsert (byte : UInt8) : Call := .insertRecord [80] [84] ⟨[.other], [byte], Nat.one_lt_two_pow (by decide)⟩

/-- Two transactions, one with a savepoint undone inside another, and blocks of hardly more than one operation. -/
def exampleEvents : List Event :=
  [.start 1 true, .start 2 false, .startSavepoint 1 2, .change 1 (exampleInsert 1), .startSavepoint 1 3,
    .startSavepoint 2 1, .change 1 (exampleInsert 2), .change 2 (exampleInsert 3), .startSavepoint 1 4,
    .rollbackToSavepoint 1 1 false, .genId (some 1) [80] [71] 5, .releaseSavepoint 2 false, .rollback 2 false false,
    .change 1 (exampleInsert 4), .prepare 1 false, .commit 1 false]

def exampleSession : Session := exampleEvents.foldl Session.after (Session.new 24 exampleUser)

theorem bracketed_of_careful_example : ∃ applier, processAll exampleSession.replicator.handed = some applier ∧
    Bracketed exampleSession applier :=
  bracketed_of_careful (run_of_allAllowed (by decide +kernel : AllAllowed _ _ _ exampleEvents))
    (by decide +kernel)

/-- A transaction without automatic undo changes a record and a sequence and is rolled back. -/
def leftOpenEvents : List Event :=
  [.start 1 false, .startSavepoint 1 1, .change 1 (exampleInsert 1), .releaseSavepoint 1 false,
    .genId (some 1) [80] [71] 5, .rollback 1 false false]

def leftOpenSession : Session := leftOpenEvents.foldl Session.after (Session.new 1000 exampleUser)

/-- It stays open on the replica. -/
theorem not_bracketed_leftOpen : ¬ ∀ (bufferSize : Nat) (user : MetaString) (events : List Event) (session : Session),
    Run Step (Session.new bufferSize user) events session →
    (∀ handed ∈ session.replicator.handed, Holdable handed.data) →
    ∃ applier, processAll session.replicator.handed = some applier ∧ Bracketed session applier := by
  intro hall
  obtain ⟨applier, happlier, hbracketed⟩ := hall 1000 exampleUser leftOpenEvents leftOpenSession
    (run_of_allAllowed (by decide +kernel)) (by decide +kernel)
  have hended : 1 ∈ leftOpenSession.ended := by decide +kernel
  have hopen : (processAll leftOpenSession.replicator.handed).all fun applier => (applier.txnMap 1).isSome := by
    decide +kernel
  rw [happlier] at hopen
  rw [Option.all_some, hbracketed.ended 1 hended] at hopen
  exact Bool.false_ne_true hopen

end Firebird.Repl
