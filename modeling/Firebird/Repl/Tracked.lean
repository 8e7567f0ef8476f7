import Firebird.Repl.Follows

/-! # What the publisher keeps

A transaction that has not been announced (`Silent`), and one whose savepoints and changes the replica follows
(`Tracked`). -/

namespace Firebird.Repl
open Applier List
variable {base : Applier} {replicator : Replicator} {number : Nat} {t : Transaction} {block : BatchBlock}
  {transaction transaction' : ReplicaTransaction} {savepoint : Savepoint} {later : List Savepoint} {large : Bool}

theorem rollforward_succ (large : Bool) (position : Nat) (savepoint : Savepoint) (later : List Savepoint) :
    Savepoint.rollforward large (position + 1) (savepoint :: later) =
      (savepoint :: (Savepoint.rollforward large position later).1,
        (Savepoint.rollforward large position later).2) := by
  rw [Savepoint.rollforward]

theorem rootLast_rollforward (large : Bool) : ∀ (position : Nat) (stack : List Savepoint), RootLast stack →
    RootLast (Savepoint.rollforward large position stack).1
  | position, [], _ => by rw [Savepoint.rollforward.eq_def]; exact forall_mem_nil _
  | 0, [savepoint], _ => forall_mem_nil _
  | 0, savepoint :: next :: later, h => by
    rw [Savepoint.rollforward]
    split
    · exact forall_mem_nil _
    · cases later with
      | nil => exact forall_mem_nil _
      | cons third later =>
        intro other hmem
        rcases mem_cons.mp hmem with rfl | hold
        · exact h.tail next mem_cons_self
        · exact h.tail other (mem_cons_of_mem _ hold)
  | position + 1, savepoint :: later, h => by
    have hlater := rootLast_rollforward large position later h.tail
    rw [rollforward_succ]
    cases hrest : (Savepoint.rollforward large position later).1 with
    | nil => exact forall_mem_nil _
    | cons next rest =>
      rw [hrest] at hlater
      intro other hmem
      rcases mem_cons.mp hmem with rfl | hold
      · cases later with
        | nil =>
          rw [Savepoint.rollforward.eq_def] at hrest
          cases hrest
        | cons first later => exact h other mem_cons_self
      · exact hlater other hold

structure Silent (t : Transaction) : Prop where
  replicator : t.replicator = none
  kept : t.kept = []
  fresh : ∀ savepoint ∈ t.savePoint, savepoint.replicated = false ∧ savepoint.changes = []
  rootLast : RootLast t.savePoint

namespace Silent
variable (h : Silent t)
include h

theorem saveCleanup (replicator : Replicator) (undo : Bool) : replicator.saveCleanup t undo = (replicator, t) := by
  unfold Replicator.saveCleanup
  rw [h.replicator]
  cases t.savePoint <;> rfl

theorem of_sublist {stack : List Savepoint} (hsub : stack ⊆ t.savePoint) (hroot : RootLast stack) :
    Silent { t with savePoint := stack } :=
  ⟨h.replicator, h.kept, fun savepoint hmem => h.fresh savepoint (hsub hmem), hroot⟩

theorem push (savNumber : Nat) : Silent { t with savePoint := ⟨savNumber, false, false, []⟩ :: t.savePoint } := by
  refine ⟨h.replicator, h.kept, fun savepoint hmem => ?_, h.rootLast.push savNumber⟩
  rcases mem_cons.mp hmem with rfl | hold
  · exact ⟨rfl, rfl⟩
  · exact h.fresh savepoint hold

end Silent

theorem rollforward_fresh (large : Bool) : ∀ (position : Nat) (stack : List Savepoint),
    (∀ savepoint ∈ stack, savepoint.replicated = false ∧ savepoint.changes = []) →
    (∀ savepoint ∈ (Savepoint.rollforward large position stack).1,
      savepoint.replicated = false ∧ savepoint.changes = []) ∧ (Savepoint.rollforward large position stack).2 = []
  | position, [], _ => by rw [Savepoint.rollforward.eq_def]; exact ⟨forall_mem_nil _, rfl⟩
  | 0, [savepoint], h => ⟨forall_mem_nil _, (h savepoint mem_cons_self).2⟩
  | 0, savepoint :: next :: later, h => by
    have hfirst := (h savepoint mem_cons_self).2
    have hnext := h next (mem_cons_of_mem _ mem_cons_self)
    rw [Savepoint.rollforward, hfirst, append_nil]
    split
    · exact ⟨forall_mem_nil _, hnext.2⟩
    · refine ⟨fun other hmem => ?_, rfl⟩
      rcases mem_cons.mp hmem with rfl | hold
      · exact hnext
      · exact h other (mem_cons_of_mem _ (mem_cons_of_mem _ hold))
  | position + 1, savepoint :: later, h => by
    obtain ⟨hfresh, hkept⟩ := rollforward_fresh large position later fun other hmem => h other (mem_cons_of_mem _ hmem)
    rw [rollforward_succ]
    refine ⟨fun other hmem => ?_, hkept⟩
    rcases mem_cons.mp hmem with rfl | hold
    · exact h other mem_cons_self
    · exact hfresh other hold

namespace Silent
variable (h : Silent t)
include h

theorem rollforward (large : Bool) (position : Nat) : Silent (t.rollforward large position) := by
  obtain ⟨hfresh, hkept⟩ := rollforward_fresh large position t.savePoint h.fresh
  refine ⟨h.replicator, ?_, hfresh, rootLast_rollforward large position t.savePoint h.rootLast⟩
  show t.kept ++ _ = []
  rw [h.kept, hkept]
  rfl

section
variable (replicator : Replicator)

theorem releaseTop (large : Bool) :
    (replicator.releaseTop t large).1 = replicator ∧ Silent (replicator.releaseTop t large).2 := by
  unfold Replicator.releaseTop
  rw [h.saveCleanup]
  exact ⟨rfl, h.rollforward large 0⟩

theorem undoTop (large : Bool) :
    (replicator.undoTop t large).1 = replicator ∧ Silent (replicator.undoTop t large).2 := by
  unfold Replicator.undoTop
  rw [h.saveCleanup]
  exact ⟨rfl, h.rollforward large 0⟩

theorem rollbackTop : (replicator.rollbackTop t).1 = replicator ∧ Silent (replicator.rollbackTop t).2 := by
  unfold Replicator.rollbackTop
  rw [h.saveCleanup]
  exact ⟨rfl, h.of_sublist (fun savepoint hmem => mem_of_mem_tail hmem) h.rootLast.tail⟩

end

omit h in
theorem rollbackTo (large : Bool) (replicator : Replicator) : ∀ (position : Nat) (t : Transaction), Silent t →
    (Replicator.rollbackTo position large replicator t).1 = replicator ∧
      Silent (Replicator.rollbackTo position large replicator t).2
  | 0, t, h => h.rollbackTop replicator
  | position + 1, t, h => by
    obtain ⟨hreplicator, hsilent⟩ := h.undoTop replicator large
    rw [Replicator.rollbackTo]
    dsimp only
    rw [hreplicator]
    exact rollbackTo large replicator position _ hsilent

omit h in
theorem releaseAll (keepRoot large : Bool) (replicator : Replicator) : ∀ (fuel : Nat) (t : Transaction), Silent t →
    (Replicator.releaseAll keepRoot large fuel replicator t).1 = replicator ∧
      Silent (Replicator.releaseAll keepRoot large fuel replicator t).2
  | 0, t, h => ⟨rfl, h⟩
  | fuel + 1, t, h => by
    rw [Replicator.releaseAll]
    split
    · exact ⟨rfl, h⟩
    · split
      · exact ⟨rfl, h⟩
      · obtain ⟨hreplicator, hsilent⟩ := h.releaseTop replicator large
        dsimp only
        rw [hreplicator]
        exact releaseAll keepRoot large replicator fuel _ hsilent

omit h in
theorem undoUser (large : Bool) (replicator : Replicator) : ∀ (fuel : Nat) (t : Transaction), Silent t →
    (Replicator.undoUser large fuel replicator t).1 = replicator ∧
    Silent (Replicator.undoUser large fuel replicator t).2
  | 0, t, h => ⟨rfl, h⟩
  | fuel + 1, t, h => by
    rw [Replicator.undoUser]
    split
    · exact ⟨rfl, h⟩
    · split
      · exact ⟨rfl, h⟩
      · obtain ⟨hreplicator, hsilent⟩ := h.undoTop replicator large
        dsimp only
        rw [hreplicator]
        exact undoUser large replicator fuel _ hsilent

theorem rollbackSavepoints (replicator : Replicator) (force large : Bool) :
    (replicator.rollbackSavepoints t force large).1 = replicator ∧
      Silent (replicator.rollbackSavepoints t force large).2 := by
  unfold Replicator.rollbackSavepoints
  split
  · exact ⟨rfl, h.of_sublist (nil_subset _) nofun⟩
  · obtain ⟨hreplicator, hsilent⟩ := undoUser large replicator t.savePoint.length t h
    dsimp only
    rw [hreplicator]
    split
    · exact ⟨rfl, hsilent⟩
    · exact hsilent.rollbackTop replicator

end Silent

/-! ### Transactions that the replica follows -/

/-- The replica has the savepoints of the transaction and their changes, or will have them with the unsent actions. -/
structure Tracked (base : Applier) (replicator : Replicator) (number : Nat) (t : Transaction) : Prop where
  mirrored : ∃ block transaction, t.replicator = some block ∧ At base replicator number block transaction ∧
    Mirrors transaction t.savePoint t.kept
  rootLast : RootLast t.savePoint

structure TrackedBelow (base : Applier) (replicator : Replicator) (number : Nat) (t : Transaction) : Prop where
  mirrored : ∃ block transaction, t.replicator = some block ∧ At base replicator number block transaction ∧
    ∀ savepoint later, t.savePoint = savepoint :: later →
      ∃ changes, Mirrors transaction ({ savepoint with changes } :: later) t.kept
  rootLast : RootLast t.savePoint

theorem Tracked.below (h : Tracked base replicator number t) : TrackedBelow base replicator number t := by
  obtain ⟨⟨block, transaction, hblock, hat, hmirrors⟩, hroot⟩ := h
  refine ⟨⟨block, transaction, hblock, hat, fun savepoint later heq => ⟨savepoint.changes, ?_⟩⟩, hroot⟩
  rw [← heq]
  exact hmirrors

theorem saveCleanup_at (hblock : t.replicator = some block) (htop : t.savePoint = savepoint :: later)
    (h : At base replicator number block transaction) {undo : Bool}
    (hcleaned : cleaned transaction savepoint undo = some transaction') :
    ∃ block', At base (replicator.saveCleanup t undo).1 number block' transaction' ∧
      (replicator.saveCleanup t undo).2 = { t with replicator := some block' } := by
  obtain ⟨stack, kept, replicated⟩ := t
  subst hblock htop
  unfold Replicator.saveCleanup
  dsimp only
  unfold cleaned at hcleaned
  by_cases hmarked : savepoint.replicated = true
  · rw [if_pos hmarked] at hcleaned ⊢
    have hready : block.IsReady := h.taken.elim fun _ happlier => happlier.2.2.ready
    have hrun : transaction.run ([Action.cleanupSavepoint undo].map Action.toMeta) = some transaction' := by
      show transaction.run [.cleanupSavepoint undo] = _
      rw [ReplicaTransaction.run_singleton]
      exact hcleaned
    cases undo with
    | true => exact ⟨_, h.puts (Replicator.tag_flush_puts h.sound hready .opRollbackSavepoint (.cleanupSavepoint true)
        (fun _ => rfl) rfl .flushSync 0) hrun (.inr rfl), rfl⟩
    | false => exact ⟨_, h.puts (Replicator.tag_puts h.sound hready .opReleaseSavepoint (.cleanupSavepoint false)
        (fun _ => rfl) rfl) hrun (.inl (by decide)), rfl⟩
  · rw [if_neg hmarked] at hcleaned ⊢
    obtain rfl : transaction = transaction' := Option.some.inj hcleaned
    exact ⟨block, h, rfl⟩

theorem Tracked.releaseTop (h : Tracked base replicator number t) (large : Bool) :
    Tracked base (replicator.releaseTop t large).1 number (replicator.releaseTop t large).2 := by
  obtain ⟨⟨block, transaction, hblock, hat, hmirrors⟩, hroot⟩ := h
  unfold Replicator.releaseTop
  cases hstack : t.savePoint with
  | nil =>
    have hsame : replicator.saveCleanup t false = (replicator, t) := by
      unfold Replicator.saveCleanup
      rw [hstack]
    have hforward : t.rollforward large 0 = t := by
      unfold Transaction.rollforward
      rw [hstack]
      show { t with savePoint := [], kept := t.kept ++ [] } = t
      rw [append_nil, ← hstack]
    rw [hsame]
    dsimp only
    rw [hforward]
    exact ⟨⟨block, transaction, hblock, hat, hmirrors⟩, hroot⟩
  | cons savepoint later =>
    rw [hstack] at hmirrors hroot
    obtain ⟨transaction', hcleaned, hreleased⟩ := hmirrors.release hroot large
    obtain ⟨block', hat', hcleanup⟩ := saveCleanup_at hblock hstack hat hcleaned
    dsimp only
    rw [hcleanup]
    unfold Transaction.rollforward
    rw [hstack]
    exact ⟨⟨block', transaction', rfl, hat', hreleased⟩, rootLast_rollforward large 0 _ hroot⟩

theorem TrackedBelow.rollbackTop (h : TrackedBelow base replicator number t) (hne : t.savePoint ≠ []) :
    Tracked base (replicator.rollbackTop t).1 number (replicator.rollbackTop t).2 := by
  obtain ⟨⟨block, transaction, hblock, hat, hmirrors⟩, hroot⟩ := h
  obtain ⟨savepoint, later, hstack⟩ := exists_cons_of_ne_nil hne
  obtain ⟨changes, hbelow⟩ := hmirrors savepoint later hstack
  obtain ⟨transaction', hcleaned, hrest⟩ := hbelow.undo
  obtain ⟨block', hat', hcleanup⟩ := saveCleanup_at hblock hstack hat hcleaned
  unfold Replicator.rollbackTop
  dsimp only
  rw [hcleanup]
  rw [hstack] at hroot
  refine ⟨⟨block', transaction', rfl, hat', ?_⟩, ?_⟩
  · rw [hstack]
    exact hrest
  · rw [hstack]
    exact hroot.tail

theorem TrackedBelow.undoTop (h : TrackedBelow base replicator number t) (hstack : t.savePoint = savepoint :: later)
    (large : Bool) : TrackedBelow base (replicator.undoTop t large).1 number (replicator.undoTop t large).2 := by
  obtain ⟨⟨block, transaction, hblock, hat, hmirrors⟩, hroot⟩ := h
  obtain ⟨changes, hbelow⟩ := hmirrors savepoint later hstack
  obtain ⟨transaction', hcleaned, hrest⟩ := hbelow.undo
  obtain ⟨block', hat', hcleanup⟩ := saveCleanup_at hblock hstack hat hcleaned
  rw [hstack] at hroot
  unfold Replicator.undoTop
  dsimp only
  rw [hcleanup]
  unfold Transaction.rollforward
  rw [hstack]
  refine ⟨⟨block', transaction', rfl, hat', fun top rest heq => ?_⟩, rootLast_rollforward large 0 _ hroot⟩
  cases later with
  | nil => cases heq
  | cons next later =>
    rw [Savepoint.rollforward] at heq ⊢
    by_cases hdrop : next.root = true ∧ large = true
    · rw [if_pos hdrop] at heq
      cases heq
    · rw [if_neg hdrop] at heq ⊢
      obtain ⟨rfl, rfl⟩ := cons.inj heq
      refine ⟨next.changes, ?_⟩
      show Mirrors transaction' (next :: later) (t.kept ++ [])
      rw [append_nil]
      exact hrest

@[simp] theorem saveCleanup_savePoint (replicator : Replicator) (t : Transaction) (undo : Bool) :
    (replicator.saveCleanup t undo).2.savePoint = t.savePoint := by
  unfold Replicator.saveCleanup
  split
  · split <;> rfl
  · rfl

theorem undoTop_savePoint (replicator : Replicator) (t : Transaction) (large : Bool) :
    (replicator.undoTop t large).2.savePoint = (Savepoint.rollforward large 0 t.savePoint).1 := by
  unfold Replicator.undoTop Transaction.rollforward
  dsimp only
  rw [saveCleanup_savePoint]

theorem length_rollforward (savepoint : Savepoint) (later : List Savepoint) (large : Bool) :
    (Savepoint.rollforward large 0 (savepoint :: later)).1.length ≤ later.length := by
  cases later with
  | nil => exact Nat.le_refl 0
  | cons next later =>
    rw [Savepoint.rollforward]
    split
    · exact Nat.zero_le _
    · exact Nat.le_refl _

theorem rollbackTo_tracked (large : Bool) : ∀ (position : Nat) (replicator : Replicator) (t : Transaction),
    TrackedBelow base replicator number t → position < t.savePoint.length →
    (∀ savepoint ∈ t.savePoint.take (position + 1), savepoint.root = false) →
    Tracked base (Replicator.rollbackTo position large replicator t).1 number
      (Replicator.rollbackTo position large replicator t).2
  | 0, replicator, t, h, hlt, _ => h.rollbackTop fun hnil => by rw [hnil] at hlt; exact absurd hlt (Nat.lt_irrefl 0)
  | position + 1, replicator, t, h, hlt, hroot => by
    match hstack : t.savePoint, hlt, hroot with
    | savepoint :: next :: later, hlt, hroot =>
      have hnext : next.root = false := hroot next (by simp)
      have hbelow := h.undoTop hstack large
      have hsavePoint : (replicator.undoTop t large).2.savePoint =
          { next with changes := next.changes ++ savepoint.changes } :: later := by
        rw [undoTop_savePoint, hstack, Savepoint.rollforward, if_neg]
        rw [hnext]
        exact fun hboth => Bool.false_ne_true hboth.1
      refine rollbackTo_tracked large position (replicator.undoTop t large).1 (replicator.undoTop t large).2 hbelow
        ?_ ?_
      · rw [hsavePoint]
        simpa using hlt
      · rw [hsavePoint]
        intro other hmem
        rcases mem_cons.mp hmem with rfl | hold
        · exact hnext
        · exact hroot other (by
            exact mem_cons_of_mem _ (mem_cons_of_mem _ hold))
    | [savepoint], hlt, _ => exact absurd (Nat.lt_of_succ_lt_succ hlt) (Nat.not_lt_zero _)
    | [], hlt, _ => exact absurd hlt (Nat.not_lt_zero _)

theorem releaseAll_tracked (keepRoot large : Bool) : ∀ (fuel : Nat) (replicator : Replicator) (t : Transaction),
    Tracked base replicator number t →
    Tracked base (Replicator.releaseAll keepRoot large fuel replicator t).1 number
      (Replicator.releaseAll keepRoot large fuel replicator t).2
  | 0, _, _, h => h
  | fuel + 1, replicator, t, h => by
    rw [Replicator.releaseAll]
    split
    · exact h
    · split
      · exact h
      · exact releaseAll_tracked keepRoot large fuel _ _ (h.releaseTop large)

theorem undoUser_tracked (large : Bool) : ∀ (fuel : Nat) (replicator : Replicator) (t : Transaction),
    TrackedBelow base replicator number t →
    TrackedBelow base (Replicator.undoUser large fuel replicator t).1 number
      (Replicator.undoUser large fuel replicator t).2
  | 0, _, _, h => h
  | fuel + 1, replicator, t, h => by
    rw [Replicator.undoUser]
    split
    · exact h
    case h_2 top later hstack =>
      split
      · exact h
      · exact undoUser_tracked large fuel _ _ (h.undoTop hstack large)

end Firebird.Repl
