import Firebird.Undo.Restore

/-! # Changes under a savepoint -/

namespace Firebird.Undo

open List

variable {us : TraNumber} {space space' : UndoSpace} {chains : Chains} {s : Savepoint}
  {rest : List Savepoint} {actions : List VerbAction} {relation rel : RelationId}
  {number r : RecordNumber} {chain old tail : List RecordVersion} {version head : RecordVersion} {t t' : Transaction}
  {offsets : List Nat}

theorem SpaceOk.perm {offsets offsets' : List Nat} (h : SpaceOk space offsets) (hp : offsets'.Perm offsets) :
    SpaceOk space offsets' where
  nodup := hp.nodup_iff.mpr h.nodup
  allocated offset := (h.allocated offset).trans hp.mem_iff.symm
  bound offset hmem := h.bound offset (hp.mem_iff.mp hmem)

theorem SpaceOk.allocate {offsets : List Nat} (h : SpaceOk space offsets) (data : Bytes) :
    SpaceOk (space.allocate data).1 (space.size :: offsets) where
  nodup := nodup_cons.mpr ⟨fun hmem => Nat.lt_irrefl _ (h.bound _ hmem), h.nodup⟩
  allocated offset := by
    by_cases he : offset = space.size
    · subst he
      simp [UndoSpace.allocate]
    · simp [UndoSpace.allocate, he, h.allocated]
  bound offset hmem := by
    rcases mem_cons.mp hmem with rfl | hmem
    · exact Nat.lt_succ_self _
    · exact (h.bound offset hmem).trans (Nat.lt_succ_self _)

theorem SpaceOk.allocate_data {offsets : List Nat} (h : SpaceOk space offsets) (data : Bytes) :
    ∀ offset ∈ offsets, (space.allocate data).1.data offset = space.data offset := by
  intro offset hmem
  have hne : offset ≠ space.size := (h.bound offset hmem).ne
  simp [UndoSpace.allocate, hne]

/-- The action of a relation after a change of a record is posted, with the undo items it adds. -/
def posted (actions : List VerbAction) (relation : RelationId) (number : RecordNumber) (items : List UndoItem) :
    VerbAction :=
  { createAction actions relation with
    records := insert number (createAction actions relation).records
    undo := (createAction actions relation).undo ++ items }

section
variable {items : List UndoItem}

theorem relation_posted : (posted actions relation number items).relation = relation :=
  relation_createAction

theorem touched_posted :
    Touched (putAction actions (posted actions relation number items)) rel r ↔
      (rel = relation ∧ r = number) ∨ Touched actions rel r := by
  rw [touched_putAction, relation_posted]
  by_cases hrel : rel = relation
  · subst hrel
    rw [touched_iff_createAction]
    simp [posted]
  · simp [hrel]

theorem locate_posted :
    (posted actions relation number items).locate r =
      (undoItem actions relation r).or (items.find? fun item => item.number = r) := by
  rw [undoItem_eq_createAction, VerbAction.locate, posted, find?_append]
  rfl

theorem undoItem_posted_of_ne (hne : ¬(rel = relation ∧ r = number))
    (hitems : ∀ item ∈ items, item.number = number) :
    undoItem (putAction actions (posted actions relation number items)) rel r = undoItem actions rel r := by
  rw [undoItem_putAction, relation_posted]
  by_cases hrel : rel = relation
  · subst hrel
    have hr : r ≠ number := fun he => hne ⟨rfl, he⟩
    have hnone : items.find? (fun item => decide (item.number = r)) = none :=
      find?_eq_none.mpr fun item hmem => by simpa [hitems item hmem] using hr.symm
    rw [if_pos rfl, locate_posted, hnone, Option.or_none]
  · rw [if_neg hrel]

end

theorem restore_of_not_touched (h : ¬Touched actions relation number) :
    restore space chains actions relation number = chains relation number := if_neg h

theorem restore_of_touched (h : Touched actions relation number) :
    restore space chains actions relation number =
      restoreChain (savedData space actions relation number) (chains relation number) := if_pos h

theorem restore_posted_of_ne {items : List UndoItem} (hne : ¬(rel = relation ∧ r = number))
    (hitems : ∀ item ∈ items, item.number = number)
    (hdata : ∀ offset ∈ heldActions actions, space'.data offset = space.data offset) :
    restore space' (setChain chains relation number chain) (putAction actions (posted actions relation number items))
      rel r = restore space chains actions rel r := by
  have htouched : Touched (putAction actions (posted actions relation number items)) rel r ↔ Touched actions rel r :=
    touched_posted.trans (or_iff_right hne)
  have hsaved : savedData space' (putAction actions (posted actions relation number items)) rel r =
      savedData space actions rel r := by
    rw [savedData, undoItem_posted_of_ne hne hitems]
    exact savedData_congr hdata rel r
  unfold restore
  simp only [htouched, setChain_of_ne hne, hsaved]

theorem restore_posted_version (hwf : WfActions us chains actions) (hnew : ¬Touched actions relation number)
    (hchain : chains relation number = old) :
    restore space (setChain chains relation number (version :: old))
      (putAction actions (posted actions relation number [])) = restore space chains actions := by
  funext rel r
  by_cases hsame : rel = relation ∧ r = number
  · obtain ⟨rfl, rfl⟩ := hsame
    have hitem : undoItem (putAction actions (posted actions rel r [])) rel r = none := by
      rw [undoItem_putAction, relation_posted, if_pos rfl, locate_posted,
        undoItem_none_of_not_touched hwf.toWfUndo hnew]
      rfl
    rw [restore_of_not_touched hnew, restore_of_touched (touched_posted.mpr (.inl ⟨rfl, rfl⟩)), setChain_self, hchain,
      savedData, hitem]
    rfl
  · exact restore_posted_of_ne hsame (by simp) fun _ _ => rfl

theorem restore_posted_inPlace (hwf : WfActions us chains actions)
    (hspace : SpaceOk space (heldActions actions ++ offsets))
    (hnew : ¬Touched actions relation number) (hchain : chains relation number = head :: tail)
    (hhead : head.deleted = false) (htransaction : version.transaction = head.transaction)
    (hformat : version.format = head.format) :
    restore (space.allocate head.data).1 (setChain chains relation number (version :: tail))
      (putAction actions (posted actions relation number
        [{ number, offset := (space.allocate head.data).2, format := head.format }])) =
      restore space chains actions := by
  funext rel r
  by_cases hsame : rel = relation ∧ r = number
  · obtain ⟨rfl, rfl⟩ := hsame
    have hitem : undoItem (putAction actions (posted actions rel r
        [{ number := r, offset := space.size, format := head.format }])) rel r =
        some { number := r, offset := space.size, format := head.format } := by
      rw [undoItem_putAction, relation_posted, locate_posted, undoItem_none_of_not_touched hwf.toWfUndo hnew]
      simp
    rw [restore_of_not_touched hnew, restore_of_touched (touched_posted.mpr (.inl ⟨rfl, rfl⟩)), setChain_self,
      savedData, UndoSpace.allocate]
    cases head
    simp_all [restoreChain]
  · refine restore_posted_of_ne hsame (by simp) fun offset hmem => ?_
    exact hspace.allocate_data head.data offset (mem_append_left _ hmem)

theorem restore_inPlace_again (htouched : Touched actions relation number)
    (hchain : chains relation number = head :: tail)
    (htransaction : version.transaction = head.transaction) (hformat : version.format = head.format) :
    restore space (setChain chains relation number (version :: tail)) actions = restore space chains actions := by
  funext rel r
  by_cases hsame : rel = relation ∧ r = number
  · obtain ⟨rfl, rfl⟩ := hsame
    rw [restore_of_touched htouched, restore_of_touched htouched, setChain_self, hchain]
    cases hsaved : savedData space actions rel r with
    | none => rfl
    | some data =>
      simp_all [restoreChain]
  · unfold restore
    rw [setChain_of_ne hsame]

theorem ours_setChain (h : ∀ rel r, Touched actions rel r → Ours us (chains rel r))
    (hversion : version.transaction = us)
    {rel : RelationId} {r : RecordNumber} (htouched : (rel = relation ∧ r = number) ∨ Touched actions rel r) :
    Ours us (setChain chains relation number (version :: tail) rel r) := by
  by_cases hsame : rel = relation ∧ r = number
  · obtain ⟨rfl, rfl⟩ := hsame
    exact ⟨version, tail, setChain_self .., hversion⟩
  · rw [setChain_of_ne hsame]
    exact h rel r (htouched.resolve_left hsame)

theorem wfActions_posted {items : List UndoItem} (hwf : WfActions us chains actions)
    (hnew : ¬Touched actions relation number) (hitems : items = [] ∨ ∃ offset format,
      items = [{ number, offset, format }])
    (hversion : version.transaction = us) :
    WfActions us (setChain chains relation number (version :: tail))
      (putAction actions (posted actions relation number items)) := by
  obtain ⟨hnumbers, htouched⟩ := createAction_wf hwf.toWfUndo relation
  refine ⟨hwf.toWfUndo.put ?_ fun item hitem => ?_, fun rel r h => ours_setChain hwf.ours
    hversion (touched_posted.mp h)⟩
  · rcases hitems with rfl | ⟨offset, format, rfl⟩
    · simpa [posted] using hnumbers
    · simp only [posted, map_append, map_cons, map_nil]
      refine Nodup.append hnumbers (nodup_singleton _) ?_
      rw [disjoint_singleton]
      intro hmem
      obtain ⟨item, hitem, hnum⟩ := mem_map.mp hmem
      exact hnew (touched_iff_createAction.mpr (hnum ▸ htouched item hitem))
  · rcases mem_append.mp hitem with hitem | hitem
    · exact Finset.mem_insert_of_mem (htouched item hitem)
    · rcases hitems with rfl | ⟨offset, format, rfl⟩
      · cases hitem
      · rw [mem_singleton.mp hitem]
        exact Finset.mem_insert_self _ _

theorem WfActions.setChain (hwf : WfActions us chains actions) (hversion : version.transaction = us)  :
    WfActions us (setChain chains relation number (version :: tail)) actions :=
  ⟨hwf.toWfUndo, fun _ _ h => ours_setChain hwf.ours hversion (.inr h)⟩

/-! ### The changes of a transaction -/

/-- The current savepoint, if there is one, has changed the record. -/
def TouchedByCurrent (t : Transaction) (relation : RelationId) (number : RecordNumber) : Prop :=
  ∃ s rest, t.savepoints = s :: rest ∧ Touched s.actions relation number

theorem Inv.ours (h : Inv t) (htouched : TouchedByCurrent t relation number) :
    Ours t.traNumber (t.chains relation number) := by
  obtain ⟨s, rest, hs, htouched⟩ := htouched
  have hstack := h.stack
  rw [hs] at hstack
  exact hstack.1.ours relation number htouched

theorem Inv.post_version (h : Inv t) (hchain : t.chains relation number = old)
    (hversion : version.transaction = t.traNumber) (hnew : ¬TouchedByCurrent t relation number)
    (hpost : verbPost { t with chains := setChain t.chains relation number (version :: old) } relation number none =
      .ok t') : Inv t' := by
  unfold verbPost at hpost
  split at hpost
  · rename_i hnone
    cases hpost
    exact ⟨hnone ▸ trivial, h.space⟩
  · rename_i s rest hs
    have hnot : ¬Touched s.actions relation number := fun htouched => hnew ⟨s, rest, hs, htouched⟩
    have hfresh : number ∉ (createAction s.actions relation).records :=
      fun hmem => hnot (touched_iff_createAction.mpr hmem)
    simp only [if_pos hfresh] at hpost
    cases hpost
    have hstack := h.stack
    have hspace := h.space
    rw [hs] at hstack hspace
    have haction : ({ createAction s.actions relation with
        records := insert number (createAction s.actions relation).records } : VerbAction) =
        posted s.actions relation number [] := by simp [posted]
    constructor
    · rw [haction]
      exact hstack.replace_top (wfActions_posted hstack.1 hnot (.inl rfl) hversion) rfl
        (restore_posted_version hstack.1 hnot hchain) fun _ _ => rfl
    · refine hspace.perm ?_
      refine Perm.append_right _ ?_
      simpa [posted] using heldActions_putAction hstack.1.relations relation []
        (insert number (createAction s.actions relation).records)

theorem Inv.post_inPlace (h : Inv t) (hchain : t.chains relation number = head :: tail)
    (hhead : head.deleted = false) (hours : head.transaction = t.traNumber)
    (hversion : version.transaction = head.transaction) (hformat : version.format = head.format)
    (hpost : verbPost { t with chains := setChain t.chains relation number (version :: tail) } relation number
      (some (head.format, head.data)) = .ok t') : Inv t' := by
  unfold verbPost at hpost
  split at hpost
  · rename_i hnone
    cases hpost
    exact ⟨hnone ▸ trivial, h.space⟩
  · rename_i s rest hs
    have hstack := h.stack
    have hspace := h.space
    rw [hs] at hstack hspace
    rw [held_cons] at hspace
    by_cases htouched : Touched s.actions relation number
    · have hmem : ¬number ∉ (createAction s.actions relation).records :=
        not_not.mpr (touched_iff_createAction.mp htouched)
      simp only [if_neg hmem] at hpost
      split at hpost
      · cases hpost
        constructor
        · rw [hs]
          exact hstack.replace_top (hstack.1.setChain (hversion.trans hours)) rfl
            (restore_inPlace_again htouched hchain hversion hformat) fun _ _ => rfl
        · rw [hs]
          exact hspace
      · cases hpost
    · have hfresh : number ∉ (createAction s.actions relation).records :=
        fun hmem => htouched (touched_iff_createAction.mpr hmem)
      simp only [if_pos hfresh] at hpost
      cases hpost
      constructor
      · refine hstack.replace_top (wfActions_posted hstack.1 htouched (.inr ⟨_, _, rfl⟩) (hversion.trans hours)) rfl
          (restore_posted_inPlace hstack.1 hspace htouched hchain hhead hversion hformat) fun offset hmem => ?_
        exact hspace.allocate_data head.data offset (mem_append_right _ hmem)
      · refine (hspace.allocate head.data).perm ?_
        rw [← cons_append]
        refine Perm.append_right _ ?_
        refine (heldActions_putAction hstack.1.relations relation _ _).trans ?_
        simp [UndoSpace.allocate]

theorem verbPost_isOk (t : Transaction) (oldData : Option (FormatNumber × Bytes))
    (hours : Ours t.traNumber (t.chains relation number)) : ∃ t', verbPost t relation number oldData = .ok t' := by
  obtain ⟨head, tail, hchain, hhead⟩ := hours
  have hgc : garbageCollectIdxLite t.traNumber t.chains relation number = .ok () := by
    simp [garbageCollectIdxLite, hchain, hhead]
  unfold verbPost
  cases t.savepoints with
  | nil => exact ⟨_, rfl⟩
  | cons s rest =>
    dsimp only
    split
    · cases oldData with
      | none | some data => exact ⟨_, rfl⟩
    · cases oldData with
      | none => exact ⟨_, rfl⟩
      | some data =>
        simp only [hgc]
        exact ⟨_, rfl⟩

variable {format : FormatNumber} {data : Bytes}

theorem vioStore_inv (h : Inv t)
    (hs : vioStore t relation number format data = .ok t') : Inv t' := by
  unfold vioStore at hs
  split at hs
  · cases hs
  · rename_i hchain
    refine h.post_version hchain rfl (fun htouched => ?_) hs
    obtain ⟨head, tail, hours, -⟩ := h.ours htouched
    rw [hchain] at hours
    cases hours

theorem vioModify_inv (h : Inv t)
    (hformat : ∀ head tail, t.chains relation number = head :: tail → head.deleted = false →
      head.transaction = t.traNumber → head.format ≠ format → ¬TouchedByCurrent t relation number)
    (hs : vioModify t relation number format data = .ok t') : Inv t' := by
  unfold vioModify at hs
  split at hs
  · cases hs
  · rename_i head tail hchain
    split at hs
    · cases hs
    · rename_i hdeleted
      split at hs
      · rename_i hplace
        exact h.post_inPlace hchain (by simpa using hdeleted) hplace.1 hplace.1.symm hplace.2.symm hs
      · rename_i hplace
        refine h.post_version hchain rfl (fun htouched => ?_) hs
        obtain ⟨head', tail', hours, htransaction⟩ := h.ours htouched
        rw [hchain] at hours
        cases hours
        exact hformat head tail hchain (by simpa using hdeleted) htransaction (fun he => hplace ⟨htransaction, he⟩)
          htouched

theorem vioErase_inv (h : Inv t) (hs : vioErase t relation number = .ok t') : Inv t' := by
  unfold vioErase at hs
  split at hs
  · cases hs
  · rename_i head tail hchain
    split at hs
    · cases hs
    · rename_i hdeleted
      split at hs
      · rename_i hplace
        refine h.post_inPlace hchain (by simpa using hdeleted) hplace ?_ ?_ hs
        · exact hplace.symm
        · rfl
      · rename_i hplace
        refine h.post_version hchain rfl (fun htouched => ?_) hs
        obtain ⟨head', tail', hours, htransaction⟩ := h.ours htouched
        rw [hchain] at hours
        cases hours
        exact hplace htransaction

theorem verbPost_setChain_ne_error {oldData : Option (FormatNumber × Bytes)} {e : SavepointError}
    (hversion : version.transaction = t.traNumber) :
    verbPost { t with chains := setChain t.chains relation number (version :: tail) } relation
    number oldData ≠ .error e := by
  obtain ⟨t', hpost⟩ := verbPost_isOk { t with chains := setChain t.chains relation number (version :: tail) } oldData
    ⟨version, tail, setChain_self .., hversion⟩
  rw [hpost]
  exact fun h => nomatch h

variable {e : SavepointError}

theorem vioStore_error (hs : vioStore t relation number format data = .error e) : e = .recordExists := by
  unfold vioStore at hs
  split at hs
  · cases hs
    rfl
  · exact absurd hs (verbPost_setChain_ne_error rfl)

theorem vioModify_error (hs : vioModify t relation number format data = .error e) : e = .noRecord := by
  unfold vioModify at hs
  split at hs
  · cases hs
    rfl
  · split at hs
    · cases hs
      rfl
    · split at hs
      all_goals exact absurd hs (verbPost_setChain_ne_error rfl)

theorem vioErase_error (hs : vioErase t relation number = .error e) : e = .noRecord := by
  unfold vioErase at hs
  split at hs
  · cases hs
    rfl
  · split at hs
    · cases hs
      rfl
    · split at hs
      · exact absurd hs (verbPost_setChain_ne_error rfl)
      · exact absurd hs (verbPost_setChain_ne_error rfl)

end Firebird.Undo
