import Firebird.Repl.Mirror

/-! # The replica behind the primary

The blocks handed over bring the replica to some point of a transaction; the actions in the block that is being filled
would bring it to where the primary is. -/

namespace Firebird.Repl

open Function List
variable {applier applier' base : Applier} {replicator replicator' : Replicator} {block block' : BatchBlock}
  {number : Nat} {actions actions' : List Action} {transaction transaction' : ReplicaTransaction}

namespace Applier

structure SameElse (applier applier' : Applier) (number : Nat) : Prop where
  others : ∀ other, other ≠ number → applier'.txnMap other = applier.txnMap other
  committed : applier'.committed = applier.committed

theorem SameElse.refl : SameElse applier applier number := ⟨fun _ _ => rfl, rfl⟩

theorem SameElse.trans {applier'' : Applier} (h : SameElse applier applier' number)
    (h' : SameElse applier' applier'' number) : SameElse applier applier'' number :=
  ⟨fun other hne => (h'.others other hne).trans (h.others other hne), h'.committed.trans h.committed⟩

def withOpen (applier : Applier) (number : Nat) (transaction : ReplicaTransaction) : Applier :=
  { applier with txnMap := update applier.txnMap number (some transaction) }

theorem sameElse_withOpen : SameElse applier (applier.withOpen number transaction) number :=
  ⟨fun _ hne => update_of_ne hne .., rfl⟩

@[simp] theorem withOpen_txnMap : (applier.withOpen number transaction).txnMap number = some transaction :=
  update_self ..

@[simp] theorem withOpen_withOpen :
    (applier.withOpen number transaction).withOpen number transaction' = applier.withOpen number transaction' := by
  unfold withOpen
  rw [update_idem]

theorem withOpen_eq_self (h : applier.txnMap number = some transaction) :
    applier.withOpen number transaction = applier := by
  unfold withOpen
  rw [← h, update_eq_self]

theorem applyAll_cons (applier : Applier) (action : Action) (actions : List Action) :
    applier.applyAll number (action :: actions) = (apply number applier action).bind (·.applyAll number actions) := rfl

theorem applyAll_append (applier : Applier) (actions actions' : List Action) :
    applier.applyAll number (actions ++ actions') =
      (applier.applyAll number actions).bind (·.applyAll number actions') := by
  exact foldlM_append

theorem apply_open (hopen : applier.txnMap number = some transaction) {action : Action}
    (h : transaction.apply action = some transaction') :
    apply number applier action = some (applier.withOpen number transaction') := by
  have hgeneral : ((applier.txnMap number).bind (·.apply action)).map (fun transaction =>
      { applier with txnMap := update applier.txnMap number (some transaction) }) =
      some (applier.withOpen number transaction') := by
    rw [hopen, Option.bind_some, h]
    rfl
  cases action with
  | startTransaction | commitTransaction | rollbackTransaction | cleanupTransaction =>
    exact nomatch (h : (none : Option ReplicaTransaction) = some transaction')
  | setSequence genName value =>
    obtain rfl : transaction = transaction' := Option.some.inj h
    exact congrArg some (withOpen_eq_self hopen).symm
  | prepareTransaction | startSavepoint | cleanupSavepoint | insertRecord | updateRecord | deleteRecord | storeBlob
  | executeSql => exact hgeneral

theorem applyAll_open (h : transaction.run actions = some transaction') : ∀ applier : Applier,
    applier.txnMap number = some transaction →
    applier.applyAll number actions = some (applier.withOpen number transaction') := by
  induction actions generalizing transaction with
  | nil =>
    intro applier hopen
    obtain rfl : transaction = transaction' := Option.some.inj h
    exact congrArg some (withOpen_eq_self hopen).symm
  | cons action actions ih =>
    intro applier hopen
    obtain ⟨middle, hfirst, hlater⟩ := Option.bind_eq_some_iff.mp h
    rw [applyAll_cons, apply_open hopen hfirst, Option.bind_some, ih hlater _ withOpen_txnMap, withOpen_withOpen]

/-- Where a transaction of the replica gets to with some more actions. -/
def unsent (applier : Applier) (number : Nat) (actions : List Action) : Option ReplicaTransaction :=
  match applier.txnMap number with
  | some transaction => transaction.run actions
  | none =>
    match actions with
    | .startTransaction :: actions => (⟨[], []⟩ : ReplicaTransaction).run actions
    | _ => none

theorem unsent_open (h : applier.txnMap number = some transaction) :
    applier.unsent number actions = transaction.run actions := by
  unfold unsent
  rw [h]

theorem unsent_start (h : applier.txnMap number = none) :
    applier.unsent number (.startTransaction :: actions) = (⟨[], []⟩ : ReplicaTransaction).run actions := by
  unfold unsent
  rw [h]

theorem unsent_unknown (hmap : applier.txnMap number = none) (h : applier.unsent number actions = some transaction) :
    ∃ later, actions = .startTransaction :: later ∧ (⟨[], []⟩ : ReplicaTransaction).run later = some transaction := by
  unfold unsent at h
  rw [hmap] at h
  dsimp only at h
  split at h
  case h_1 later => exact ⟨later, rfl, h⟩
  case h_2 => exact nomatch h

theorem unsent_append (h : applier.unsent number actions = some transaction)
    (hrun : transaction.run actions' = some transaction') :
    applier.unsent number (actions ++ actions') = some transaction' := by
  cases hmap : applier.txnMap number with
  | some old =>
    rw [unsent_open hmap] at h ⊢
    rw [ReplicaTransaction.run_append, h]
    exact hrun
  | none =>
    obtain ⟨later, rfl, hlater⟩ := unsent_unknown hmap h
    rw [cons_append, unsent_start hmap, ReplicaTransaction.run_append, hlater]
    exact hrun

theorem unsent_arrive (h : applier.unsent number (actions ++ actions') = some transaction) (hne : actions ≠ []) :
    ∃ applier', applier.applyAll number actions = some applier' ∧ SameElse applier applier' number ∧
      applier'.txnMap number ≠ none ∧ applier'.unsent number actions' = some transaction := by
  have harrive : ∀ (start : Applier) (old : ReplicaTransaction) (first : List Action), start.txnMap number = some old →
      old.run (first ++ actions') = some transaction → ∃ applier', start.applyAll number first = some applier' ∧
        SameElse start applier' number ∧ applier'.txnMap number ≠ none ∧
        applier'.unsent number actions' = some transaction := by
    intro start old first hopen hrun
    rw [ReplicaTransaction.run_append] at hrun
    obtain ⟨middle, hfirst, hlater⟩ := Option.bind_eq_some_iff.mp hrun
    refine ⟨_, applyAll_open hfirst start hopen, sameElse_withOpen, ?_, ?_⟩
    · rw [withOpen_txnMap]
      exact Option.some_ne_none _
    · rw [unsent_open withOpen_txnMap]
      exact hlater
  cases hmap : applier.txnMap number with
  | some old =>
    rw [unsent_open hmap] at h
    exact harrive applier old actions hmap h
  | none =>
    obtain ⟨first, later, rfl⟩ := exists_cons_of_ne_nil hne
    obtain ⟨rest, heq, hrest⟩ := unsent_unknown hmap h
    obtain ⟨rfl, rfl⟩ := cons.inj heq
    obtain ⟨applier', happly, hsame, hopen, hunsent⟩ := harrive (applier.withOpen number ⟨[], []⟩) ⟨[], []⟩ later
      withOpen_txnMap hrest
    refine ⟨applier', ?_, sameElse_withOpen.trans hsame, hopen, hunsent⟩
    have hstart : apply number applier .startTransaction = some (applier.withOpen number ⟨[], []⟩) := by
      show (if (applier.txnMap number).isSome then none else _) = _
      rw [hmap]
      rfl
    rw [applyAll_cons, hstart]
    exact happly

def takeFrom (applier : Applier) (blocks : List Handed) : Option Applier :=
  blocks.foldlM (fun applier block => applier.applyAll block.traNumber (block.stands.map Action.toMeta)) applier

def take (blocks : List Handed) : Option Applier := takeFrom ⟨fun _ => none, []⟩ blocks

theorem take_append (blocks new : List Handed) : take (blocks ++ new) = (take blocks).bind (·.takeFrom new) := by
  exact foldlM_append

theorem takeFrom_eq {new : List Handed} (h : ∀ handed ∈ new, handed.traNumber = number) : ∀ applier : Applier,
    applier.takeFrom new = applier.applyAll number ((new.flatMap (·.stands)).map Action.toMeta) := by
  induction new with
  | nil => exact fun _ => rfl
  | cons first later ih =>
    intro applier
    rw [flatMap_cons, map_append, applyAll_append]
    show (applier.applyAll first.traNumber _).bind (·.takeFrom later) = _
    rw [h first mem_cons_self]
    congr 1
    funext applier
    exact ih (fun handed hmem => h handed (mem_cons_of_mem _ hmem)) applier

theorem processAll_eq {blocks : List Handed}
    (h : ∀ handed ∈ blocks, handed.protocol = protocolCurrentVersion ∧ Says handed.data handed.stands)
    (hfit : ∀ handed ∈ blocks, Holdable handed.data) : processAll blocks = take blocks := by
  unfold processAll take takeFrom
  generalize (⟨fun _ => none, []⟩ : Applier) = applier
  induction blocks generalizing applier with
  | nil => rfl
  | cons first later ih =>
    have hone : first.process = some (first.stands.map Action.toMeta) := by
      unfold Handed.process
      rw [if_pos (h first mem_cons_self).1]
      exact (h first mem_cons_self).2 (hfit first mem_cons_self)
    show (applier.process first).bind _ = (applier.applyAll _ _).bind _
    rw [process, hone]
    congr 1
    funext applier
    exact ih (fun handed hmem => h handed (mem_cons_of_mem _ hmem))
      (fun handed hmem => hfit handed (mem_cons_of_mem _ hmem)) applier

structure Follows (applier : Applier) (number : Nat) (block : BatchBlock)
    (transaction : ReplicaTransaction) : Prop where
  traNumber : block.traNumber = number
  ready : block.IsReady
  known : block.flushes = 0 ↔ applier.txnMap number = none
  unsent : applier.unsent number (block.stands.map Action.toMeta) = some transaction
  undone : .cleanupSavepoint true ∉ block.stands

structure At (base : Applier) (replicator : Replicator) (number : Nat) (block : BatchBlock)
    (transaction : ReplicaTransaction) : Prop where
  sound : replicator.Sound
  taken : ∃ applier, take replicator.handed = some applier ∧ SameElse base applier number ∧
    Follows applier number block transaction

theorem At.congr (h : At base replicator number block transaction) (hhanded : replicator'.handed = replicator.handed) :
    At base replicator' number block transaction := by
  refine ⟨fun handed hmem => h.sound handed (hhanded ▸ hmem), ?_⟩
  rw [hhanded]
  exact h.taken

theorem At.start (hsound : replicator.Sound) (htaken : take replicator.handed = some base)
    (hmap : base.txnMap number = none) : At base replicator number (Replicator.startTransaction number) ⟨[], []⟩ where
  sound := hsound
  taken := by
    have hread : Lib.Reads (BlockReader.getOperation [] .opStartTransaction) [] ([Action.startTransaction], []) :=
      Lib.reads_pure _
    refine ⟨base, htaken, .refl, rfl, Ready.nil.put .opStartTransaction (Nat.zero_le _) fun _ => hread,
      iff_of_true rfl hmap, unsent_start hmap, ?_⟩
    show Action.cleanupSavepoint true ∉ [Action.startTransaction]
    decide

theorem At.puts (h : At base replicator number block transaction)
    (hputs : Replicator.Puts replicator block replicator' block' actions)
    (hrun : transaction.run (actions.map Action.toMeta) = some transaction')
    (hundone : .cleanupSavepoint true ∉ actions ∨ block'.stands = []) :
    At base replicator' number block' transaction' := by
  obtain ⟨applier, htaken, hsame, hfollows⟩ := h.taken
  obtain ⟨new, hhanded, htra, hmoved, hflushes⟩ := hputs.handed
  have hunsent := unsent_append hfollows.unsent hrun
  rw [← map_append, ← hmoved, map_append] at hunsent
  have hundo : .cleanupSavepoint true ∉ block'.stands := by
    rcases hundone with hnot | hnil
    · intro hmem
      have hboth : .cleanupSavepoint true ∈ block.stands ++ actions := hmoved ▸ mem_append_right _ hmem
      exact (mem_append.mp hboth).elim hfollows.undone hnot
    · rw [hnil]
      exact not_mem_nil
  refine ⟨hputs.sound, ?_⟩
  rw [hhanded, take_append, htaken, Option.bind_some,
    takeFrom_eq (fun handed hmem => (htra handed hmem).1.trans hfollows.traNumber) applier]
  cases new with
  | nil => exact ⟨applier, rfl, hsame, hputs.traNumber.trans hfollows.traNumber, hputs.ready,
      by rw [hflushes]; exact hfollows.known, hunsent, hundo⟩
  | cons first later =>
    have hne : (((first :: later).flatMap (·.stands)).map Action.toMeta) ≠ [] := by
      obtain ⟨action, rest, hfirst⟩ := exists_cons_of_ne_nil (htra first mem_cons_self).2
      rw [flatMap_cons, hfirst]
      exact cons_ne_nil _ _
    obtain ⟨applier', happly, hsame', hopen, hrest⟩ := unsent_arrive hunsent hne
    refine ⟨applier', happly, hsame.trans hsame', hputs.traNumber.trans hfollows.traNumber, hputs.ready, ?_, hrest,
      hundo⟩
    rw [hflushes]
    exact iff_of_false (Nat.ne_of_gt (Nat.add_pos_right _ (Nat.succ_pos _))) hopen

theorem At.last (h : At base replicator number block transaction) {action : Action}
    (hputs : Replicator.Puts replicator block replicator' block' (actions ++ [action])) (hempty : block'.stands = [])
    (hrun : transaction.run (actions.map Action.toMeta) = some transaction') :
    replicator'.Sound ∧ ∃ applier, SameElse base applier number ∧ applier.txnMap number = some transaction' ∧
      take replicator'.handed = apply number applier action.toMeta := by
  obtain ⟨applier, htaken, hsame, hfollows⟩ := h.taken
  obtain ⟨new, hhanded, htra, hmoved, hflushes⟩ := hputs.handed
  refine ⟨hputs.sound, ?_⟩
  have hunsent := unsent_append hfollows.unsent hrun
  rw [← map_append] at hunsent
  rw [hempty, append_nil, ← append_assoc] at hmoved
  rw [hhanded, take_append, htaken, Option.bind_some,
    takeFrom_eq (fun handed hmem => (htra handed hmem).1.trans hfollows.traNumber) applier, hmoved, map_append,
    applyAll_append]
  have hlast : ∀ applier : Applier, applier.applyAll number [action.toMeta] = apply number applier action.toMeta := by
    intro applier
    rw [applyAll_cons]
    cases apply number applier action.toMeta <;> rfl
  by_cases hne : (block.stands ++ actions).map Action.toMeta = []
  · rw [hne] at hunsent ⊢
    cases hmap : applier.txnMap number with
    | none =>
      obtain ⟨later, heq, -⟩ := unsent_unknown hmap hunsent
      exact nomatch heq
    | some old =>
      rw [unsent_open hmap] at hunsent
      exact ⟨applier, hsame, hmap.trans hunsent, hlast applier⟩
  · rw [← append_nil ((block.stands ++ actions).map Action.toMeta)] at hunsent
    obtain ⟨applier', happly, hsame', hopen, hrest⟩ := unsent_arrive hunsent hne
    refine ⟨applier', hsame.trans hsame', ?_, ?_⟩
    · cases hmap : applier'.txnMap number with
      | none => exact absurd hmap hopen
      | some old =>
        rw [unsent_open hmap] at hrest
        exact hrest
    · rw [happly]
      exact hlast applier'

end Applier
end Firebird.Repl
