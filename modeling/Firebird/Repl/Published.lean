import Firebird.Repl.Tracked

/-! # Published calls -/

namespace Firebird.Repl
open Applier List
variable {base : Applier} {replicator replicator' : Replicator} {number : Nat} {t : Transaction}
  {block : BatchBlock} {transaction : ReplicaTransaction} {stack : List Savepoint} {actions : List Action}

/-! ### Announcing -/

namespace Replicator

theorem announce_savePoint (stack : List Savepoint) : ∀ (replicator : Replicator) (block : BatchBlock),
    (announce stack replicator block).1 = markUntil stack := by
  induction stack with
  | nil => exact fun _ _ => rfl
  | cons savepoint later ih =>
    intro replicator block
    rw [announce, markUntil]
    split
    · rfl
    · exact congrArg _ (ih _ _)

theorem announce_puts (stack : List Savepoint) : ∀ (replicator : Replicator) (block : BatchBlock),
    replicator.Sound → block.IsReady → Puts replicator block (announce stack replicator block).2.1
      (announce stack replicator block).2.2 (List.replicate (unmarked stack) .startSavepoint) := by
  induction stack with
  | nil => exact fun _ _ h hready => ⟨.refl, h, hready⟩
  | cons savepoint later ih =>
    intro replicator block h hready
    rw [announce, unmarked]
    split
    · exact ⟨.refl, h, hready⟩
    · have hfirst := tag_puts h hready .opStartSavepoint .startSavepoint (fun _ => rfl) rfl
      exact hfirst.trans (ih _ _ hfirst.sound hfirst.ready)

end Replicator

theorem Applier.At.announce (h : At base replicator number block transaction) (stack : List Savepoint) :
    At base (Replicator.announce stack replicator block).2.1 number (Replicator.announce stack replicator block).2.2
      (transaction.pushed (unmarked stack)) := by
  have hready : block.IsReady := h.taken.elim fun _ happlier => happlier.2.2.ready
  refine h.puts (Replicator.announce_puts stack replicator block h.sound hready) ?_ (.inl fun hmem => ?_)
  · rw [map_replicate]
    exact ReplicaTransaction.run_startSavepoints transaction (unmarked stack)
  · exact nomatch eq_of_mem_replicate hmem

inductive Known (base : Applier) (replicator : Replicator) (number : Nat) (t : Transaction) : Prop
  | silent (hsound : replicator.Sound) (htaken : take replicator.handed = some base) (hmap : base.txnMap number = none)
      (hsilent : Silent t)
  | tracked (h : Tracked base replicator number t)

theorem Known.rootLast (h : Known base replicator number t) : RootLast t.savePoint := by
  cases h with
  | silent _ _ _ hsilent => exact hsilent.rootLast
  | tracked h => exact h.rootLast

theorem Known.opened (h : Known base replicator number t) : ∃ transaction,
    At base replicator number (t.replicator.getD (Replicator.startTransaction number)) transaction ∧
      Mirrors transaction t.savePoint t.kept := by
  cases h with
  | silent hsound htaken hmap hsilent =>
    refine ⟨⟨[], []⟩, ?_, ?_⟩
    · rw [hsilent.replicator]
      exact .start hsound htaken hmap
    · rw [hsilent.kept]
      exact .new hsilent.fresh hsilent.rootLast.countP_le
  | tracked h =>
    obtain ⟨⟨block, transaction, hblock, hat, hmirrors⟩, -⟩ := h
    refine ⟨transaction, ?_, hmirrors⟩
    rw [hblock]
    exact hat

theorem Applier.At.known (h : At base replicator number block transaction)
    (hmirrors : Mirrors transaction t.savePoint t.kept)
    (hblock : t.replicator = some block) (hroot : RootLast t.savePoint) : Known base replicator number t :=
  .tracked ⟨⟨block, transaction, hblock, h, hmirrors⟩, hroot⟩

def publishTo (replicator : Replicator) (number : Nat) (t : Transaction)
    (call : Replicator → BatchBlock → Replicator × BatchBlock) : Replicator × Transaction :=
  let (replicator, t, block) := replicator.getReplicator number t
  let (replicator, block) := call replicator block
  (replicator, { t with replicator := some block })

theorem Session.publish_eq (session : Session) (number : Nat) (t : Transaction)
    (call : Replicator → BatchBlock → Replicator × BatchBlock) :
    session.publish number t call = session.continueWith number (publishTo session.replicator number t call) := rfl

theorem Known.dummy (h : Known base replicator number t) :
    Known base (publishTo replicator number t fun replicator block => (replicator, block)).1 number
      (publishTo replicator number t fun replicator block => (replicator, block)).2 := by
  obtain ⟨transaction, hat, hmirrors⟩ := h.opened
  have hannounced := hat.announce t.savePoint
  refine hannounced.known (t := (publishTo replicator number t _).2) ?_ rfl ?_
  · show Mirrors _ (Replicator.announce t.savePoint _ _).1 t.kept
    rw [Replicator.announce_savePoint]
    exact hmirrors.announce.1
  · show RootLast (Replicator.announce t.savePoint _ _).1
    rw [Replicator.announce_savePoint]
    exact rootLast_of_map_root h.rootLast (map_root_markUntil t.savePoint)

theorem Known.change (h : Known base replicator number t) (change : Action)
    {call : Replicator → BatchBlock → Replicator × BatchBlock} {silent : List Action}
    (hsilent : ∀ action ∈ silent, ∀ transaction : ReplicaTransaction, transaction.apply action = some transaction)
    (hchange : ∀ transaction : ReplicaTransaction, transaction.apply change.toMeta = some
      (transaction.addChange change.toMeta))
    (hundo : .cleanupSavepoint true ∉ actions) (hactions : actions.map Action.toMeta = silent ++ [change.toMeta])
    (hcall : ∀ (replicator' : Replicator) (block : BatchBlock), replicator'.Sound → replicator'.user = replicator.user →
      block.IsReady → Replicator.Puts replicator' block (call replicator' block).1 (call replicator' block).2 actions) :
    Known base (publishTo replicator number (t.addChange change) call).1 number
      (publishTo replicator number (t.addChange change) call).2 := by
  obtain ⟨transaction, hat, hmirrors⟩ := h.opened
  have hblock : (t.addChange change).replicator = t.replicator := by
    unfold Transaction.addChange
    split <;> rfl
  obtain ⟨hmark, hkept, hcount⟩ := markUntil_addChange t change
  rw [← hblock] at hat
  have hannounced := hat.announce (t.addChange change).savePoint
  rw [hcount] at hannounced
  have hready : BatchBlock.IsReady _ := hannounced.taken.elim fun _ happlier => happlier.2.2.ready
  have huser := (Replicator.announce_puts (t.addChange change).savePoint _ _ hat.sound
    (hat.taken.elim fun _ happlier => happlier.2.2.ready)).user
  have hputs := hcall _ _ hannounced.sound huser hready
  have hrun : (transaction.pushed (unmarked t.savePoint)).run (actions.map Action.toMeta) =
      some ((transaction.pushed (unmarked t.savePoint)).addChange change.toMeta) := by
    rw [hactions, ReplicaTransaction.run_append, ReplicaTransaction.run_silent hsilent, Option.bind_some,
      ReplicaTransaction.run_singleton]
    exact hchange _
  have hdone := hannounced.puts hputs hrun (.inl hundo)
  obtain ⟨hall, hmarked⟩ := hmirrors.announce
  refine hdone.known (t := (publishTo replicator number (t.addChange change) call).2) ?_ rfl ?_
  · show Mirrors _ (Replicator.announce (t.addChange change).savePoint _ _).1 (t.addChange change).kept
    rw [Replicator.announce_savePoint, hmark, hkept]
    exact hall.addChange hmarked change
  · show RootLast (Replicator.announce (t.addChange change).savePoint _ _).1
    rw [Replicator.announce_savePoint]
    exact rootLast_of_map_root h.rootLast ((map_root_markUntil _).trans (map_root_addChange t change))

theorem rollforward_of_length_le (large : Bool) : ∀ (position : Nat) (stack : List Savepoint),
    stack.length ≤ position → Savepoint.rollforward large position stack = (stack, [])
  | position, [], _ => by rw [Savepoint.rollforward.eq_def]
  | 0, _ :: _, h => absurd h (Nat.not_succ_le_zero _)
  | position + 1, savepoint :: later, h => by
    rw [Savepoint.rollforward, rollforward_of_length_le large position later (Nat.le_of_succ_le_succ h)]

/-- A savepoint inside the stack that has not been announced is released on the primary alone. -/
theorem Mirrors.releaseInner (large : Bool) : ∀ (position : Nat) (stack : List Savepoint) (kept : List Action),
    Mirrors transaction stack kept → RootLast stack →
    (∀ savepoint, stack[position]? = some savepoint → savepoint.replicated = false) →
    Mirrors transaction (Savepoint.rollforward large position stack).1
      (kept ++ (Savepoint.rollforward large position stack).2)
  | position, [], kept, h, _, _ => by
    rw [Savepoint.rollforward.eq_def, append_nil]
    exact h
  | 0, savepoint :: later, kept, h, hroot, hfresh => by
    rcases h.top with ⟨-, hchanges, hrest⟩ | ⟨hmarked, -⟩
    · cases later with
      | nil =>
        rw [Savepoint.rollforward, hchanges, append_nil]
        exact hrest
      | cons next later =>
        rw [Savepoint.rollforward, hchanges, append_nil]
        split
        case isTrue hdrop =>
          obtain rfl : later = [] := RootLast.eq_nil hroot.tail hdrop.1
          exact hrest.dropLast hdrop.1
        case isFalse => rwa [append_nil]
    · exact Bool.noConfusion ((hfresh savepoint rfl).symm.trans hmarked)
  | position + 1, savepoint :: later, kept, h, hroot, hfresh => by
    rw [rollforward_succ]
    cases later with
    | nil =>
      rw [Savepoint.rollforward.eq_def, append_nil]
      exact h
    | cons next later =>
      rcases h.top with ⟨hreplicated, hchanges, hrest⟩ | ⟨-, marked, extra, hlater, hall, -⟩
      · exact (releaseInner large position (next :: later) kept hrest hroot.tail hfresh).push ⟨hreplicated, hchanges⟩
          (hroot savepoint mem_cons_self)
      · -- below an announced savepoint all are announced, so there is none at this position
        have hnone : (next :: later)[position]? = none := by
          cases hat : (next :: later)[position]? with
          | none => rfl
          | some other =>
            have hmarked := hall other (hlater ▸ mem_of_getElem? hat)
            exact Bool.noConfusion ((hfresh other hat).symm.trans hmarked)
        have hsame : Savepoint.rollforward large position (next :: later) = (next :: later, []) :=
          rollforward_of_length_le large position _ (getElem?_eq_none_iff.mp hnone)
        rw [hsame, append_nil]
        exact h

namespace Known
variable (h : Known base replicator number t)
include h

theorem congr (hhanded : replicator'.handed = replicator.handed) : Known base replicator' number t := by
  cases h with
  | silent hsound htaken hmap hsilent =>
    refine .silent (fun handed hmem => hsound handed (hhanded ▸ hmem)) ?_ hmap hsilent
    rw [hhanded]
    exact htaken
  | tracked h =>
    obtain ⟨⟨block, transaction, hblock, hat, hmirrors⟩, hroot⟩ := h
    exact (hat.congr hhanded).known hmirrors hblock hroot

theorem startSavepoint (savNumber : Nat) :
    Known base replicator number { t with savePoint := ⟨savNumber, false, false, []⟩ :: t.savePoint } := by
  cases h with
  | silent hsound htaken hmap hsilent => exact .silent hsound htaken hmap (hsilent.push savNumber)
  | tracked h =>
    obtain ⟨⟨block, transaction, hblock, hat, hmirrors⟩, hroot⟩ := h
    exact hat.known (hmirrors.startSavepoint savNumber) hblock (hroot.push savNumber)

theorem releaseTop (large : Bool) :
    Known base (replicator.releaseTop t large).1 number (replicator.releaseTop t large).2 := by
  cases h with
  | silent hsound htaken hmap hsilent =>
    obtain ⟨hreplicator, hnext⟩ := hsilent.releaseTop replicator large
    rw [hreplicator]
    exact .silent hsound htaken hmap hnext
  | tracked h => exact .tracked (h.releaseTop large)

theorem releaseInner (large : Bool) {position : Nat}
    (hfresh : ∀ savepoint, t.savePoint[position]? = some savepoint → savepoint.replicated = false) :
    Known base replicator number (t.rollforward large position) := by
  cases h with
  | silent hsound htaken hmap hsilent => exact .silent hsound htaken hmap (hsilent.rollforward large position)
  | tracked h =>
    obtain ⟨⟨block, transaction, hblock, hat, hmirrors⟩, hroot⟩ := h
    exact hat.known (t := t.rollforward large position)
      (hmirrors.releaseInner large position t.savePoint t.kept hroot hfresh) hblock
      (rootLast_rollforward large position t.savePoint hroot)

theorem rollbackTo (large : Bool) {position : Nat} (hlt : position < t.savePoint.length)
    (hroot : ∀ savepoint ∈ t.savePoint.take (position + 1), savepoint.root = false) :
    Known base (Replicator.rollbackTo position large replicator t).1 number
      (Replicator.rollbackTo position large replicator t).2 := by
  cases h with
  | silent hsound htaken hmap hsilent =>
    obtain ⟨hreplicator, hnext⟩ := Silent.rollbackTo large replicator position t hsilent
    rw [hreplicator]
    exact .silent hsound htaken hmap hnext
  | tracked h => exact .tracked (rollbackTo_tracked large position replicator t h.below hlt hroot)

theorem releaseAll (keepRoot large : Bool) (fuel : Nat) :
    Known base (Replicator.releaseAll keepRoot large fuel replicator t).1 number
      (Replicator.releaseAll keepRoot large fuel replicator t).2 := by
  cases h with
  | silent hsound htaken hmap hsilent =>
    obtain ⟨hreplicator, hnext⟩ := Silent.releaseAll keepRoot large replicator fuel t hsilent
    rw [hreplicator]
    exact .silent hsound htaken hmap hnext
  | tracked h => exact .tracked (releaseAll_tracked keepRoot large fuel replicator t h)

theorem transPrepare : Known base (replicator.transPrepare t).1 number (replicator.transPrepare t).2 := by
  unfold Replicator.transPrepare
  cases h with
  | silent hsound htaken hmap hsilent =>
    rw [hsilent.replicator]
    exact .silent hsound htaken hmap hsilent
  | tracked h =>
    obtain ⟨⟨block, transaction, hblock, hat, hmirrors⟩, hroot⟩ := h
    have hready : block.IsReady := hat.taken.elim fun _ happlier => happlier.2.2.ready
    rw [hblock]
    have hputs := Replicator.tag_flush_puts hat.sound hready .opPrepareTransaction .prepareTransaction (fun _ =>
      rfl) rfl .flushPrepare 0
    have hrun : transaction.run ([Action.prepareTransaction].map Action.toMeta) = some transaction :=
      ReplicaTransaction.run_singleton transaction .prepareTransaction
    exact (hat.puts hputs hrun (.inr rfl)).known (t := { t with replicator := some _ }) hmirrors rfl hroot

end Known
end Firebird.Repl
