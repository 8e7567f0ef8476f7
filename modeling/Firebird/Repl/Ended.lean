import Firebird.Repl.Published

/-! # The end of a transaction -/

namespace Firebird.Repl
open Applier List Function
variable {base : Applier} {replicator : Replicator} {number : Nat} {t : Transaction}
  {block : BatchBlock} {transaction : ReplicaTransaction} {large : Bool}

/-- The transaction is not open on the replica any more, and these commits have arrived there. -/
structure EndedWith (base : Applier) (replicator : Replicator) (number : Nat) (committed : List (Nat × List Action)) :
    Prop where
  sound : replicator.Sound
  taken : ∃ applier, take replicator.handed = some applier ∧
    (∀ other, other ≠ number → applier.txnMap other = base.txnMap other) ∧ applier.txnMap number = none ∧
    applier.committed = base.committed ++ committed

theorem run_generators (generators : List GeneratorValue) (transaction : ReplicaTransaction) :
    transaction.run ((generators.map GeneratorValue.action).map Action.toMeta) = some transaction := by
  refine ReplicaTransaction.run_silent fun action hmem _ => ?_
  obtain ⟨middle, hmiddle, rfl⟩ := mem_map.mp hmem
  obtain ⟨generator, -, rfl⟩ := mem_map.mp hmiddle
  rfl

theorem Known.commit (h : Known base replicator number t) :
    EndedWith base (replicator.transCommit t) number
      (if t.replicator.isSome then [(number, t.live.map Action.toMeta)] else []) := by
  unfold Replicator.transCommit
  cases h with
  | silent hsound htaken hmap hsilent =>
    rw [hsilent.replicator]
    exact ⟨hsound, base, htaken, fun _ _ => rfl, hmap, (append_nil _).symm⟩
  | tracked h =>
    obtain ⟨⟨block, transaction, hblock, hat, hmirrors⟩, -⟩ := h
    have hready : block.IsReady := hat.taken.elim fun _ happlier => happlier.2.2.ready
    rw [hblock]
    have hemptied : At base { replicator with generators := [] } number block transaction := hat.congr rfl
    obtain ⟨hsound, applier, hsame, hopen, htaken⟩ := hemptied.last
      (Replicator.commitTransaction_puts hat.sound hready) rfl (run_generators replicator.generators transaction)
    have hlive : transaction.live = t.live.map Action.toMeta := hmirrors.live
    have hcommit : apply number applier .commitTransaction = some {
        txnMap := update applier.txnMap number none
        committed := applier.committed ++ [(number, t.live.map Action.toMeta)] } := by
      show (applier.txnMap number).map _ = _
      rw [hopen, ← hlive]
      rfl
    refine ⟨hsound, _, htaken.trans hcommit, fun other hne => ?_, update_self .., ?_⟩
    · exact (update_of_ne hne ..).trans (hsame.others other hne)
    · exact congrArg (· ++ _) hsame.committed

/-! ### Rollback -/

/-- The rollback of the transaction does not meet sequence values before anything of it has been handed over. -/
def Transaction.RollsBack (replicator : Replicator) (t : Transaction) (force large : Bool) : Prop :=
  ∀ block ∈ t.replicator, block.flushes ≠ 0 ∨ replicator.generators = [] ∨
    force = false ∧ ∃ savepoint ∈ t.savePoint, savepoint.replicated = true ∧
      (savepoint.root = false ∨ large = false ∨ t.savePoint.length = 1)

def Sent (t : Transaction) : Prop := ∃ block, t.replicator = some block ∧ block.flushes ≠ 0

theorem saveCleanup_generators (replicator : Replicator) (t : Transaction) :
    (replicator.saveCleanup t true).1.generators = replicator.generators := by
  unfold Replicator.saveCleanup
  split
  · split <;> rfl
  · rfl

theorem saveCleanup_isSome (replicator : Replicator) (h : t.replicator.isSome) :
    (replicator.saveCleanup t true).2.replicator.isSome := by
  unfold Replicator.saveCleanup
  split
  · split
    · rfl
    · exact h
  · exact h

theorem Sent.saveCleanup (h : Sent t) (replicator : Replicator) : Sent (replicator.saveCleanup t true).2 := by
  unfold Replicator.saveCleanup
  obtain ⟨old, hold, hsent⟩ := h
  split
  case h_1 top later block hstack hblock =>
    split
    · exact ⟨_, rfl, Nat.succ_ne_zero _⟩
    · exact ⟨old, hold, hsent⟩
  case h_2 => exact ⟨old, hold, hsent⟩

theorem sent_saveCleanup (hblock : t.replicator.isSome) {savepoint : Savepoint} {later : List Savepoint}
    (hstack : t.savePoint = savepoint :: later) (hmarked : savepoint.replicated = true) (replicator : Replicator) :
    Sent (replicator.saveCleanup t true).2 := by
  obtain ⟨block, hblock⟩ := Option.isSome_iff_exists.mp hblock
  unfold Replicator.saveCleanup
  rw [hstack, hblock]
  dsimp only
  rw [if_pos hmarked]
  exact ⟨_, rfl, Nat.succ_ne_zero _⟩

/-- A savepoint whose undo will be handed over before the transaction is rolled back. -/
def Due (large : Bool) (stack : List Savepoint) : Prop :=
  ∃ savepoint ∈ stack, savepoint.replicated = true ∧
    (savepoint.root = false ∨ large = false ∨ stack.length = 1)

/-- After the user savepoints, the undo has been handed over or is due with the transaction-level one. -/
theorem undoUser_sent (large : Bool) : ∀ (fuel : Nat) (replicator : Replicator) (t : Transaction),
    t.replicator.isSome → t.savePoint.length ≤ fuel → RootLast t.savePoint → Sent t ∨ Due large t.savePoint →
    (Replicator.undoUser large fuel replicator t).2.replicator.isSome ∧
      (Sent (Replicator.undoUser large fuel replicator t).2 ∨
        ∃ savepoint, (Replicator.undoUser large fuel replicator t).2.savePoint = [savepoint] ∧
          savepoint.replicated = true)
  | 0, replicator, t, hblock, hfuel, _, hdue => by
    refine ⟨hblock, .inl (hdue.resolve_right ?_)⟩
    rintro ⟨savepoint, hmem, -⟩
    rw [length_eq_zero_iff.mp (Nat.le_zero.mp hfuel)] at hmem
    exact not_mem_nil hmem
  | fuel + 1, replicator, t, hblock, hfuel, hroot, hdue => by
    rw [Replicator.undoUser]
    split
    case h_1 hnil =>
      refine ⟨hblock, .inl (hdue.resolve_right ?_)⟩
      rintro ⟨savepoint, hmem, -⟩
      rw [hnil] at hmem
      exact not_mem_nil hmem
    case h_2 top later hstack =>
      rw [hstack] at hroot hfuel hdue
      split
      case isTrue htop =>
        refine ⟨hblock, hdue.imp_right ?_⟩
        obtain rfl : later = [] := hroot.eq_nil htop
        rintro ⟨savepoint, hmem, hmarked, -⟩
        exact ⟨savepoint, by rw [hstack, mem_singleton.mp hmem], hmarked⟩
      case isFalse htop =>
        have hstack' := undoTop_savePoint replicator t large
        have hsent' : Sent t → Sent (replicator.undoTop t large).2 := fun h => h.saveCleanup replicator
        rw [hstack] at hstack'
        refine undoUser_sent large fuel (replicator.undoTop t large).1 (replicator.undoTop t large).2 ?_ ?_ ?_ ?_
        · exact saveCleanup_isSome replicator hblock
        · rw [hstack']
          exact (length_rollforward top later large).trans (Nat.le_of_succ_le_succ hfuel)
        · rw [hstack']
          exact rootLast_rollforward large 0 _ hroot
        · rcases hdue with hsent | ⟨savepoint, hmem, hmarked, hreason⟩
          · exact .inl (hsent' hsent)
          rcases mem_cons.mp hmem with rfl | hold
          · exact .inl (sent_saveCleanup hblock hstack hmarked replicator)
          · right
            rw [hstack']
            obtain ⟨next, later, rfl⟩ := exists_cons_of_ne_nil (ne_nil_of_mem hold)
            have hnot : savepoint.root = false ∨ large = false := by
              rcases hreason with hroot | hlarge | hone
              · exact .inl hroot
              · exact .inr hlarge
              · exact absurd hone (Nat.ne_of_gt (Nat.succ_lt_succ (Nat.succ_pos _)))
            rw [Savepoint.rollforward]
            split
            case isTrue hdrop =>
              obtain rfl : later = [] := RootLast.eq_nil hroot.tail hdrop.1
              rw [mem_singleton.mp hold, hdrop.1, hdrop.2] at hnot
              exact hnot.elim Bool.noConfusion Bool.noConfusion
            case isFalse =>
              rcases mem_cons.mp hold with rfl | hlater
              · exact ⟨_, mem_cons_self, hmarked, hnot.imp_right .inl⟩
              · exact ⟨savepoint, mem_cons_of_mem _ hlater, hmarked, hnot.imp_right .inl⟩

theorem undoUser_generators (large : Bool) : ∀ (fuel : Nat) (replicator : Replicator) (t : Transaction),
    (Replicator.undoUser large fuel replicator t).1.generators = replicator.generators
  | 0, _, _ => rfl
  | fuel + 1, replicator, t => by
    rw [Replicator.undoUser]
    split
    · rfl
    · split
      · rfl
      · exact (undoUser_generators large fuel (replicator.undoTop t large).1 (replicator.undoTop t large).2).trans
          (saveCleanup_generators replicator t)

theorem rollbackSavepoints_spec (replicator : Replicator) (hblock : t.replicator.isSome) (hroot : RootLast t.savePoint)
    (force large : Bool) : (replicator.rollbackSavepoints t force large).1.generators = replicator.generators ∧
      (Sent t ∨ force = false ∧ Due large t.savePoint → Sent (replicator.rollbackSavepoints t force large).2) := by
  unfold Replicator.rollbackSavepoints
  split
  case isTrue hforce =>
    refine ⟨rfl, fun hsent => hsent.elim id fun hdue => ?_⟩
    exact Bool.noConfusion (hdue.1.symm.trans hforce)
  case isFalse =>
    have hgenerators := undoUser_generators large t.savePoint.length replicator t
    have hundone := undoUser_sent large t.savePoint.length replicator t hblock (Nat.le_refl _) hroot
    dsimp only
    generalize Replicator.undoUser large t.savePoint.length replicator t = state at hgenerators hundone ⊢
    split
    case isTrue hnil =>
      refine ⟨hgenerators, fun hsent => ?_⟩
      rcases (hundone (hsent.imp_right And.right)).2 with hdone | ⟨savepoint, hstack, -⟩
      · exact hdone
      · rw [hnil] at hstack
        exact nomatch hstack
    case isFalse =>
      refine ⟨(saveCleanup_generators state.1 state.2).trans hgenerators, fun hsent => ?_⟩
      obtain ⟨hsome, hdone | ⟨savepoint, hstack, hmarked⟩⟩ := hundone (hsent.imp_right And.right)
      · exact hdone.saveCleanup state.1
      · exact sent_saveCleanup hsome hstack hmarked state.1

theorem Tracked.rollbackSavepoints (h : Tracked base replicator number t) (force large : Bool) :
    ∃ block transaction, (replicator.rollbackSavepoints t force large).2.replicator = some block ∧
      At base (replicator.rollbackSavepoints t force large).1 number block transaction := by
  unfold Replicator.rollbackSavepoints
  split
  · obtain ⟨⟨block, transaction, hblock, hat, -⟩, -⟩ := h
    exact ⟨block, transaction, hblock, hat⟩
  · have hundone := undoUser_tracked large t.savePoint.length replicator t h.below
    dsimp only
    split
    · obtain ⟨⟨block, transaction, hblock, hat, -⟩, -⟩ := hundone
      exact ⟨block, transaction, hblock, hat⟩
    case isFalse hne =>
      obtain ⟨⟨block, transaction, hblock, hat, -⟩, -⟩ := hundone.rollbackTop hne
      exact ⟨block, transaction, hblock, hat⟩

theorem rollbackTransaction_puts (h : replicator.Sound) (hready : block.IsReady) (hsent : block.flushes ≠ 0) :
    Replicator.Puts { replicator with generators := [] } block (replicator.rollbackTransaction block).1
      (replicator.rollbackTransaction block).2
      (replicator.generators.map GeneratorValue.action ++ [.rollbackTransaction]) := by
  obtain ⟨-, -, -, hflushes⟩ := BatchBlock.putGenerators_spec replicator.generators block hready
  have hgenerators := Replicator.putGenerators_puts h hready
  unfold Replicator.rollbackTransaction
  rw [if_pos (.inl hsent)]
  dsimp only
  rw [if_pos (by rwa [hflushes])]
  exact hgenerators.trans (Replicator.tag_flush_puts hgenerators.sound hgenerators.ready .opRollbackTransaction
    .rollbackTransaction (fun _ => rfl) rfl .flushSync blockEndTrans)

theorem Applier.At.rollback (h : At base replicator number block transaction) (hsent : block.flushes ≠ 0) :
    EndedWith base (replicator.rollbackTransaction block).1 number [] := by
  have hready : block.IsReady := h.taken.elim fun _ happlier => happlier.2.2.ready
  have hputs := rollbackTransaction_puts h.sound hready hsent
  have hempty : (replicator.rollbackTransaction block).2.stands = [] := by
    unfold Replicator.rollbackTransaction
    rw [if_pos (.inl hsent)]
    rfl
  have hemptied : At base { replicator with generators := [] } number block transaction := h.congr rfl
  obtain ⟨hsound, applier, hsame, hopen, htaken⟩ := hemptied.last hputs hempty
    (run_generators replicator.generators transaction)
  have hrollback : apply number applier .rollbackTransaction = some { applier with
      txnMap := update applier.txnMap number none } := by
    show (applier.txnMap number).map _ = _
    rw [hopen]
    rfl
  refine ⟨hsound, _, htaken.trans hrollback, fun other hne => ?_, update_self .., ?_⟩
  · exact (update_of_ne hne ..).trans (hsame.others other hne)
  · exact hsame.committed.trans (append_nil _).symm

theorem Applier.At.forget (h : At base replicator number block transaction) (hsent : block.flushes = 0) :
    EndedWith base replicator number [] := by
  obtain ⟨applier, htaken, hsame, hfollows⟩ := h.taken
  exact ⟨h.sound, applier, htaken, hsame.others, hfollows.known.mp hsent, hsame.committed.trans (append_nil _).symm⟩

theorem Known.rollback (h : Known base replicator number t) {force large : Bool}
    (hcareful : t.RollsBack replicator force large) :
    EndedWith base ((replicator.rollbackSavepoints t force large).1.transRollback
      (replicator.rollbackSavepoints t force large).2) number [] := by
  unfold Replicator.transRollback
  cases h with
  | silent hsound htaken hmap hsilent =>
    obtain ⟨hreplicator, hnext⟩ := hsilent.rollbackSavepoints replicator force large
    rw [hreplicator, hnext.replicator]
    exact ⟨hsound, base, htaken, fun _ _ => rfl, hmap, (append_nil _).symm⟩
  | tracked h =>
    obtain ⟨⟨before, -, hbefore, -⟩, hroot⟩ := h.mirrored, h.rootLast
    have hsome : t.replicator.isSome := by rw [hbefore]; rfl
    obtain ⟨hgenerators, hdue⟩ := rollbackSavepoints_spec replicator hsome hroot force large
    obtain ⟨block, transaction, hblock, hat⟩ := h.rollbackSavepoints force large
    rw [hblock]
    dsimp only
    have hsent : block.flushes ≠ 0 ∨ replicator.generators = [] := by
      have hdone : Sent (replicator.rollbackSavepoints t force large).2 → block.flushes ≠ 0 := by
        rintro ⟨after, hafter, hflushes⟩
        rw [Option.some.inj (hblock.symm.trans hafter)]
        exact hflushes
      rcases hcareful before hbefore with hsent | hnone | hundo
      · exact .inl (hdone (hdue (.inl ⟨before, hbefore, hsent⟩)))
      · exact .inr hnone
      · exact .inl (hdone (hdue (.inr hundo)))
    by_cases hflushes : block.flushes = 0
    · have hnone := hgenerators.trans (hsent.resolve_left (not_not_intro hflushes))
      have hsame : (replicator.rollbackSavepoints t force large).1.rollbackTransaction block =
          ((replicator.rollbackSavepoints t force large).1, block) := by
        unfold Replicator.rollbackTransaction
        rw [if_neg fun hboth => hboth.elim (· hflushes) (· hnone)]
      rw [hsame]
      exact hat.forget hflushes
    · exact hat.rollback hflushes

end Firebird.Repl
