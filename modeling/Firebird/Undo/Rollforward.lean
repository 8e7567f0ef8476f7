import Firebird.Undo.Rollback

/-! # Releasing a savepoint -/

namespace Firebird.Undo
open Function List

variable {us : TraNumber} {space space' : UndoSpace} {chains chains' : Chains} {s next : Savepoint}
  {rest stack top : List Savepoint} {actions : List VerbAction} {action : VerbAction} {relation : RelationId}
  {number : RecordNumber} {items : List UndoItem} {offsets : List Nat} {t : Transaction}

/-! ### Merging actions -/

theorem garbageCollectIdxLite_ok (h : Ours us (chains relation number)) :
    garbageCollectIdxLite us chains relation number = .ok () := by
  obtain ⟨head, tail, hchain, hhead⟩ := h
  simp [garbageCollectIdxLite, hchain, hhead]

theorem release_ok {offset : Nat} (h : (space.data offset).isSome) :
    space.release offset = .ok { space with data := update space.data offset none } := if_pos h

theorem ReleasedFrom.cons {offset : Nat}
    (h : ReleasedFrom { space with data := update space.data offset none } space' offsets) :
    ReleasedFrom space space' (offset :: offsets) where
  size := h.size
  data other := by
    rw [h.data]
    by_cases he : other = offset
    · subst he
      simp
    · simp [he]

theorem isSome_update {item : UndoItem} (hnot : item.offset ∉ items.map (·.offset))
    (hallocated : ∀ other ∈ item :: items, (space.data other.offset).isSome) :
    ∀ other ∈ items, (update space.data item.offset none other.offset).isSome := fun other hmem => by
  have hne : other.offset ≠ item.offset := fun he => hnot (mem_map.mpr ⟨other, hmem, he⟩)
  rw [update_of_ne hne]
  exact hallocated other (mem_cons_of_mem _ hmem)

theorem mergeItems_none (relation : RelationId) (space : UndoSpace) (hnodup : (items.map (·.offset)).Nodup)
    (hallocated : ∀ item ∈ items, (space.data item.offset).isSome)
    (hours : ∀ item ∈ items, Ours us (chains relation item.number)) :
    ∃ space', mergeItems us chains relation items none space = .ok (none, space') ∧
      ReleasedFrom space space' (items.map (·.offset)) := by
  induction items generalizing space with
  | nil => exact ⟨space, rfl, rfl, fun offset => by simp⟩
  | cons item items ih =>
    rw [map_cons, nodup_cons] at hnodup
    obtain ⟨space', hmerge, hreleased⟩ := ih { space with data := update space.data item.offset none } hnodup.2
      (isSome_update hnodup.1 hallocated) fun other hmem => hours other (mem_cons_of_mem _ hmem)
    refine ⟨space', ?_, hreleased.cons⟩
    simp [mergeItems, garbageCollectIdxLite_ok (hours item (mem_cons_self ..)),
      release_ok (hallocated item (mem_cons_self ..)), hmerge]

theorem mergeItems_some (relation : RelationId) (space : UndoSpace) (next : VerbAction)
    (hnumbers : (items.map (·.number)).Nodup)
    (hnodup : (items.map (·.offset)).Nodup) (hallocated : ∀ item ∈ items, (space.data item.offset).isSome)
    (hours : ∀ item ∈ items, item.number ∈ next.records → Ours us (chains relation item.number))
    (hfresh : ∀ item ∈ items, item.number ∉ next.records → next.locate item.number = none) :
    ∃ space', mergeItems us chains relation items (some next) space =
        .ok (some { next with undo := next.undo ++ items.filter (·.number ∉ next.records) }, space') ∧
      ReleasedFrom space space' ((items.filter (·.number ∈ next.records)).map (·.offset)) := by
  induction items generalizing space next with
  | nil => exact ⟨space, by simp [mergeItems], rfl, fun offset => by simp⟩
  | cons item items ih =>
    rw [map_cons, nodup_cons] at hnodup hnumbers
    by_cases hmem : item.number ∈ next.records
    · obtain ⟨space', hmerge, hreleased⟩ := ih { space with data := update space.data item.offset none } next
        hnumbers.2 hnodup.2 (isSome_update hnodup.1 hallocated)
        (fun other h => hours other (mem_cons_of_mem _ h)) fun other h => hfresh other (mem_cons_of_mem _ h)
      have hnext : (some next).filter (fun n => decide (item.number ∉ n.records)) = none := by
        simp [Option.filter, hmem]
      refine ⟨space', ?_, ?_⟩
      · rw [filter_cons_of_neg (by simpa using hmem), mergeItems, hnext]
        simp only [garbageCollectIdxLite_ok (hours item (mem_cons_self ..) hmem),
          release_ok (hallocated item (mem_cons_self ..)), hmerge]
      · rw [filter_cons_of_pos (by simpa using hmem)]
        exact hreleased.cons
    · have hnone := hfresh item (mem_cons_self ..) hmem
      obtain ⟨space', hmerge, hreleased⟩ := ih space { next with undo := next.undo ++ [item] } hnumbers.2 hnodup.2
        (fun other h => hallocated other (mem_cons_of_mem _ h))
        (fun other h => hours other (mem_cons_of_mem _ h)) fun other h hnot => by
          have hne : other.number ≠ item.number := fun he => hnumbers.1 (mem_map.mpr ⟨other, h, he⟩)
          rw [locate_concat hnone, if_neg hne]
          exact hfresh other (mem_cons_of_mem _ h) hnot
      have hnext : (some next).filter (fun n => decide (item.number ∉ n.records)) = some next := by
        simp [Option.filter, hmem]
      refine ⟨space', ?_, ?_⟩
      · rw [filter_cons_of_pos (by simpa using hmem), mergeItems, hnext]
        simp [hnone, hmerge]
      · rw [filter_cons_of_neg (by simpa using hmem)]
        exact hreleased

structure Merged (actions next next' : List VerbAction) (space space' : UndoSpace) : Prop where
  wf : WfUndo next'
  touched : ∀ relation number, Touched next' relation number ↔
    Touched next relation number ∨ Touched actions relation number
  undoItem : ∀ relation number, undoItem next' relation number =
    if Touched next relation number then undoItem next relation number else undoItem actions relation number
  held : ∃ dropped, ReleasedFrom space space' dropped ∧
    (heldActions actions ++ heldActions next).Perm (dropped ++ heldActions next')

def mergedAction (action next : VerbAction) : VerbAction :=
  { next with
    records := next.records ∪ action.records
    undo := next.undo ++ action.undo.filter (·.number ∉ next.records) }

theorem locate_filter (records : Finset RecordNumber) (number : RecordNumber) :
    (action.undo.filter (·.number ∉ records)).find? (fun item => item.number = number) =
      if number ∈ records then none else action.locate number := by
  rw [find?_filter]
  by_cases hmem : number ∈ records
  · rw [if_pos hmem]
    refine find?_eq_none.mpr fun item _ => ?_
    simp only [decide_eq_true_eq, not_and]
    rintro hnot rfl
    exact hnot hmem
  · rw [if_neg hmem]
    congr 1
    funext item
    by_cases he : item.number = number
    · simp [he, hmem]
    · simp [he]

theorem locate_mergedAction {next : VerbAction} (hnext : ∀ item ∈ next.undo, item.number ∈ next.records) :
    (mergedAction action next).locate number =
      if number ∈ next.records then next.locate number else action.locate number := by
  rw [VerbAction.locate, mergedAction, find?_append, locate_filter]
  by_cases hmem : number ∈ next.records
  · simp [hmem, VerbAction.locate]
  · have hnone : next.undo.find? (fun item => decide (item.number = number)) = none :=
      find?_eq_none.mpr fun item hitem he => hmem (of_decide_eq_true he ▸ hnext item hitem)
    simp [hmem, hnone]

theorem mergeTo_some (space : UndoSpace) (next : VerbAction) (haction : WfUndo [action])
    (hnodup : (action.undo.map (·.offset)).Nodup) (hallocated : ∀ item ∈ action.undo, (space.data item.offset).isSome)
    (hours : ∀ item ∈ action.undo, Ours us (chains action.relation item.number))
    (hnext : ∀ item ∈ next.undo, item.number ∈ next.records) :
    ∃ space', mergeTo us chains action (some next) space = .ok (some (mergedAction action next), space') ∧
      ReleasedFrom space space' ((action.undo.filter (·.number ∈ next.records)).map (·.offset)) := by
  obtain ⟨space', hmerge, hreleased⟩ := mergeItems_some action.relation space next
    (haction.numbers action (mem_singleton_self _)) hnodup hallocated (fun item hitem _ => hours item hitem)
    fun item _ hnot => find?_eq_none.mpr fun other hother he => hnot (of_decide_eq_true he ▸ hnext other hother)
  exact ⟨space', by simp [mergeTo, hmerge, mergedAction], hreleased⟩

theorem undoItem_cons :
    undoItem (action :: actions) relation number =
      if action.relation = relation then action.locate number else undoItem actions relation number := by
  unfold undoItem
  rw [getAction_cons]
  split <;> rfl

theorem getAction_nil (relation : RelationId) : getAction [] relation = none := rfl

theorem touched_singleton : Touched [action] relation number ↔ action.relation = relation ∧
    number ∈ action.records := by
  rw [touched_cons]
  by_cases h : action.relation = relation <;> simp [h, Touched, getAction_nil]

theorem heldActions_singleton : heldActions [action] = action.undo.map (·.offset) := by
  simp [heldActions]

theorem merged_push {next : List VerbAction} (space : UndoSpace) (haction : WfUndo [action]) (hnext : WfUndo next)
    (hnone : getAction next action.relation = none) : Merged [action] next (action :: next) space space where
  wf :=
    { relations := nodup_cons.mpr ⟨getAction_eq_none_iff.mp hnone, hnext.relations⟩
      numbers := forall_mem_cons.mpr ⟨haction.numbers action (mem_singleton_self _), hnext.numbers⟩
      touched := forall_mem_cons.mpr ⟨haction.touched action (mem_singleton_self _), hnext.touched⟩ }
  touched relation number := by
    rw [touched_cons, touched_singleton]
    by_cases h : action.relation = relation
    · subst h
      simp [Touched, hnone]
    · simp [h]
  undoItem relation number := by
    rw [undoItem_cons, undoItem_cons]
    by_cases h : action.relation = relation
    · subst h
      simp [Touched, hnone]
    · have hnot : undoItem [] relation number = none := rfl
      by_cases htouched : Touched next relation number
      · simp [h, htouched]
      · simp [h, htouched, hnot, undoItem_none_of_not_touched hnext htouched]
  held := ⟨[], ⟨rfl, fun offset => by simp⟩, by simp [heldActions]⟩

theorem merged_put {next : List VerbAction} {nextAction : VerbAction} (haction : WfUndo [action]) (hnext : WfUndo next)
    (hget : getAction next action.relation = some nextAction)
    (hreleased : ReleasedFrom space space' ((action.undo.filter (·.number ∈ nextAction.records)).map (·.offset))) :
    Merged [action] next (putAction next (mergedAction action nextAction)) space space' := by
  obtain ⟨hmem, hrel⟩ := getAction_relation hget
  have hcreate : createAction next action.relation = nextAction := by simp [createAction, hget]
  have hrel' : (mergedAction action nextAction).relation = action.relation := hrel
  have hnextTouched := hnext.touched nextAction hmem
  have hitems := haction.touched action (mem_singleton_self _)
  refine ⟨hnext.put ?_ fun item hitem => ?_, fun relation number => ?_, fun relation number => ?_, _, hreleased, ?_⟩
  · -- the items that move are of records the next action has none of
    simp only [mergedAction, map_append]
    refine Nodup.append (hnext.numbers nextAction hmem) ?_ fun n hn hn' => ?_
    · exact (haction.numbers action (mem_singleton_self _)).sublist (filter_sublist.map _)
    · obtain ⟨item, hitem, rfl⟩ := mem_map.mp hn
      obtain ⟨moved, hmoved, he⟩ := mem_map.mp hn'
      have hnot := of_decide_eq_true (mem_filter.mp hmoved).2
      exact hnot (he ▸ hnextTouched item hitem)
  · rcases mem_append.mp hitem with hitem | hitem
    · exact Finset.mem_union_left _ (hnextTouched item hitem)
    · exact Finset.mem_union_right _ (hitems item (mem_filter.mp hitem).1)
  · rw [touched_putAction, hrel', touched_singleton]
    by_cases h : relation = action.relation
    · subst h
      simp [Touched, hget, mergedAction]
    · have hne : ¬action.relation = relation := fun he => h he.symm
      simp [h, hne]
  · rw [undoItem_putAction, hrel', locate_mergedAction hnextTouched, undoItem_cons]
    by_cases h : relation = action.relation
    · subst h
      simp [Touched, undoItem, hget]
    · have hne : ¬action.relation = relation := fun he => h he.symm
      have hnil : undoItem [] relation number = none := rfl
      by_cases htouched : Touched next relation number
      · simp [h, htouched]
      · simp [h, hne, htouched, hnil, undoItem_none_of_not_touched hnext htouched]
  · have hheld := heldActions_putAction hnext.relations action.relation
      (action.undo.filter (·.number ∉ nextAction.records)) (nextAction.records ∪ action.records)
    rw [hcreate] at hheld
    have hsplit : (action.undo.map (·.offset)).Perm ((action.undo.filter (·.number ∈ nextAction.records)).map
        (·.offset) ++ (action.undo.filter (·.number ∉ nextAction.records)).map (·.offset)) := by
      rw [← map_append]
      refine Perm.map _ ?_
      simpa using (filter_append_perm (fun item => decide (item.number ∈ nextAction.records)) action.undo).symm
    rw [heldActions_singleton]
    refine (hsplit.append_right _).trans ?_
    rw [append_assoc]
    exact (perm_append_comm.trans hheld.symm).append_left _

theorem undoItem_cons_of_touched (hactions : WfUndo (action :: actions)) :
    undoItem (action :: actions) relation number =
      if Touched [action] relation number then undoItem [action] relation number
      else undoItem actions relation number := by
  rw [undoItem_cons, undoItem_cons]
  simp only [touched_singleton]
  by_cases hrel : action.relation = relation
  · subst hrel
    by_cases hmem : number ∈ action.records
    · simp [hmem]
    · have hnone : action.locate number = none := find?_eq_none.mpr fun item hitem he =>
        hmem (of_decide_eq_true he ▸ hactions.touched action (mem_cons_self ..) item hitem)
      have hnone' : getAction actions action.relation = none :=
        getAction_eq_none_iff.mpr (nodup_cons.mp hactions.relations).1
      simp [hmem, hnone, undoItem, hnone']
  · simp [hrel]

theorem Merged.trans {next next' next'' : List VerbAction} {space'' : UndoSpace}
    (hactions : WfUndo (action :: actions)) (h : Merged [action] next next' space space')
    (h' : Merged actions next' next'' space' space'') : Merged (action :: actions) next next'' space space'' where
  wf := h'.wf
  touched relation number := by
    rw [h'.touched, h.touched, touched_singleton, touched_cons]
    by_cases hrel : action.relation = relation
    · subst hrel
      simp [not_touched_of_cons hactions.relations]
    · simp [hrel]
  undoItem relation number := by
    rw [h'.undoItem, h.undoItem, undoItem_cons_of_touched hactions]
    by_cases hnext : Touched next relation number
    · simp [hnext, h.touched]
    · by_cases haction : Touched [action] relation number <;> simp [hnext, haction, h.touched]
  held := by
    obtain ⟨dropped, hreleased, hperm⟩ := h.held
    obtain ⟨dropped', hreleased', hperm'⟩ := h'.held
    refine ⟨dropped ++ dropped', ⟨hreleased'.size.trans hreleased.size, fun offset => ?_⟩, ?_⟩
    · rw [hreleased'.data, hreleased.data]
      by_cases hmem : offset ∈ dropped' <;> simp [hmem]
    · rw [heldActions_cons, ← heldActions_singleton]
      calc heldActions [action] ++ heldActions actions ++ heldActions next
        _ |>.Perm (heldActions actions ++ (heldActions [action] ++ heldActions next)) := by
            rw [← append_assoc]
            exact perm_append_comm.append_right _
        _ |>.Perm (heldActions actions ++ (dropped ++ heldActions next')) := hperm.append_left _
        _ |>.Perm (dropped ++ (heldActions actions ++ heldActions next')) := by
            rw [← append_assoc, ← append_assoc]
            exact perm_append_comm.append_right _
        _ |>.Perm (dropped ++ (dropped' ++ heldActions next'')) := hperm'.append_left _
        _ |>.Perm (dropped ++ dropped' ++ heldActions next'') := by rw [append_assoc]

theorem WfUndo.of_cons (h : WfUndo (action :: actions)) : WfUndo [action] ∧ WfUndo actions :=
  ⟨⟨nodup_singleton _, fun a ha => h.numbers a (mem_singleton.mp ha ▸ mem_cons_self ..),
      fun a ha => h.touched a (mem_singleton.mp ha ▸ mem_cons_self ..)⟩,
    (nodup_cons.mp h.relations).2, fun a ha => h.numbers a (mem_cons_of_mem _ ha),
      fun a ha => h.touched a (mem_cons_of_mem _ ha)⟩

theorem ours_of_cons (hactions : WfUndo (action :: actions))
    (hours : ∀ relation number, Touched (action :: actions) relation number → Ours us (chains relation number)) :
    (∀ item ∈ action.undo, Ours us (chains action.relation item.number)) ∧
      ∀ relation number, Touched actions relation number → Ours us (chains relation number) := by
  refine ⟨fun item hitem => hours _ _ (touched_cons.mpr ?_), fun relation number h => hours _ _ (touched_cons.mpr ?_)⟩
  · rw [if_pos rfl]
    exact hactions.touched action (mem_cons_self ..) item hitem
  · have hrel : ¬action.relation = relation := by
      rintro rfl
      exact not_touched_of_cons hactions.relations h
    rwa [if_neg hrel]

section
variable (hactions : WfUndo actions) (hnodup : (heldActions actions).Nodup)
  (hallocated : ∀ offset ∈ heldActions actions, (space.data offset).isSome)
  (hours : ∀ relation number, Touched actions relation number → Ours us (chains relation number))
include hactions hnodup hallocated hours

theorem mergeActions_some {next : List VerbAction} (hnext : WfUndo next) :
    ∃ next' space', mergeActions us chains actions (some next) space = .ok (some next', space') ∧
      Merged actions next next' space space' := by
  induction actions generalizing next space with
  | nil =>
    have hnil : ∀ relation number, ¬Touched [] relation number := fun relation number => by simp [Touched, getAction]
    refine ⟨next, space, rfl, hnext, by simp [hnil], fun relation number => ?_, [],
      ⟨rfl, by simp⟩, by simp [heldActions]⟩
    by_cases htouched : Touched next relation number
    · simp [htouched]
    · rw [if_neg htouched, undoItem_none_of_not_touched hnext htouched]
      rfl
  | cons action actions ih =>
    obtain ⟨haction, hrest⟩ := hactions.of_cons
    obtain ⟨hours₁, hours₂⟩ := ours_of_cons hactions hours
    cases hget : getAction next action.relation with
    | none =>
      have hpush := merged_push space haction hnext hget
      obtain ⟨next', space', hmerge, hmerged⟩ := ih hrest hnodup.of_append_right
        (fun offset hmem => hallocated offset (mem_append_right _ hmem)) hours₂ hpush.wf
      exact ⟨next', space', by simp only [mergeActions, hget, hmerge], hpush.trans hactions hmerged⟩
    | some nextAction =>
      obtain ⟨space₁, hto, hreleased⟩ := mergeTo_some space nextAction haction hnodup.of_append_left
        (fun item hitem => hallocated _ (mem_append_left _ (mem_map_of_mem hitem))) hours₁
        (hnext.touched nextAction (getAction_relation hget).1)
      have hput := merged_put haction hnext hget hreleased
      -- the segments of the other actions are still there
      have hkept : ∀ offset ∈ heldActions actions, (space₁.data offset).isSome := fun offset hmem => by
        rw [hreleased.data_of_notMem]
        · exact hallocated offset (mem_append_right _ hmem)
        · intro hdropped
          obtain ⟨item, hitem, rfl⟩ := mem_map.mp hdropped
          exact disjoint_of_nodup_append hnodup (mem_map_of_mem (mem_filter.mp hitem).1) hmem
      obtain ⟨next', space', hmerge, hmerged⟩ := ih hrest hnodup.of_append_right hkept hours₂ hput.wf
      exact ⟨next', space', by simp [mergeActions, hget, hto, hmerge], hput.trans hactions hmerged⟩

theorem mergeActions_none :
    ∃ space', mergeActions us chains actions none space = .ok (none, space') ∧
      ReleasedFrom space space' (heldActions actions) := by
  induction actions generalizing space with
  | nil => exact ⟨space, rfl, rfl, by simp [heldActions]⟩
  | cons action actions ih =>
    obtain ⟨haction, hrest⟩ := hactions.of_cons
    obtain ⟨hours₁, hours₂⟩ := ours_of_cons hactions hours
    obtain ⟨space₁, hitems, hreleased⟩ := mergeItems_none action.relation space hnodup.of_append_left
      (fun item hitem => hallocated _ (mem_append_left _ (mem_map_of_mem hitem))) hours₁
    have hkept : ∀ offset ∈ heldActions actions, (space₁.data offset).isSome := fun offset hmem => by
      rw [hreleased.data_of_notMem fun h => disjoint_of_nodup_append hnodup h hmem]
      exact hallocated offset (mem_append_right _ hmem)
    obtain ⟨space', hmerge, hreleased'⟩ := ih hrest hnodup.of_append_right hkept hours₂
    refine ⟨space', by simp [mergeActions, mergeTo, hitems, hmerge], hreleased'.size.trans hreleased.size,
      fun offset => ?_⟩
    rw [hreleased'.data, hreleased.data, heldActions_cons]
    by_cases hmem : offset ∈ heldActions actions <;> simp [hmem]

end

/-- The savepoint has the data of each record that the next one has changed too. -/
def MayMerge (s next : Savepoint) : Prop :=
  ∀ relation number, Touched s.actions relation number → Touched next.actions relation number →
    (undoItem s.actions relation number).isSome

theorem restoreChain_restoreChain (saved : Option Bytes) (data : Bytes) (chain : List RecordVersion) :
    restoreChain saved (restoreChain (some data) chain) = restoreChain saved chain := by
  cases chain with
  | nil => rfl
  | cons head tail => cases saved <;> rfl

theorem restore_merged {next' : List VerbAction} (hmay : MayMerge s next)
    (hsaved : ∀ offset ∈ heldActions s.actions, (space.data offset).isSome)
    (hmerged : Merged s.actions next.actions next' space space')
    (hdata : ∀ offset ∈ heldActions next', space'.data offset = space.data offset) :
    restore space' chains next' = restore space (restore space chains s.actions) next.actions := by
  rw [restore_congr hdata]
  funext relation number
  by_cases htouched : Touched next.actions relation number
  · have hitem : savedData space next' relation number = savedData space next.actions relation number := by
      rw [savedData, hmerged.undoItem, if_pos htouched, savedData]
    rw [restore_of_touched htouched, restore_of_touched ((hmerged.touched ..).mpr (.inl htouched)), hitem]
    by_cases hs : Touched s.actions relation number
    · obtain ⟨item, hitem⟩ := Option.isSome_iff_exists.mp (hmay relation number hs htouched)
      obtain ⟨data, hdata⟩ := Option.isSome_iff_exists.mp (hsaved item.offset (mem_held_of_undoItem hitem))
      have hsome : savedData space s.actions relation number = some data := by
        rw [savedData, hitem]
        exact hdata
      rw [restore_of_touched hs, hsome, restoreChain_restoreChain]
    · rw [restore_of_not_touched hs]
  · rw [restore_of_not_touched htouched]
    by_cases hs : Touched s.actions relation number
    · have hitem : savedData space next' relation number = savedData space s.actions relation number := by
        rw [savedData, hmerged.undoItem, if_neg htouched, savedData]
      rw [restore_of_touched hs, restore_of_touched ((hmerged.touched ..).mpr (.inr hs)), hitem]
    · have hnot : ¬Touched next' relation number := fun h => ((hmerged.touched ..).mp h).elim htouched hs
      rw [restore_of_not_touched hs, restore_of_not_touched hnot]

theorem Merged.spaceOk {next next' : List VerbAction} (h : Merged actions next next' space space')
    (hspace : SpaceOk space ((heldActions actions ++ heldActions next) ++ offsets)) :
    SpaceOk space' (heldActions next' ++ offsets) ∧
      ∀ offset ∈ heldActions next' ++ offsets, space'.data offset = space.data offset := by
  obtain ⟨dropped, hreleased, hperm⟩ := h.held
  have hspace' : SpaceOk space (dropped ++ (heldActions next' ++ offsets)) :=
    hspace.perm (by simpa using (hperm.symm.append_right offsets))
  exact ⟨hspace'.released hreleased, hspace'.data_of_released hreleased⟩

theorem StackOk.merged {next' : List VerbAction} (h : StackOk us space chains (s :: next :: rest))
    (hmay : MayMerge s next) (hmerged : Merged s.actions next.actions next' space space')
    (hspace : SpaceOk space ((heldActions s.actions ++ heldActions next.actions) ++ (held rest ++ offsets))) :
    StackOk us space' chains ({ next with actions := next' } :: rest) := by
  obtain ⟨hwf, -, hnext⟩ := h
  obtain ⟨-, hdata⟩ := hmerged.spaceOk hspace
  refine hnext.replace_top ⟨hmerged.wf, fun relation number htouched => ?_⟩ rfl ?_ fun offset hmem => ?_
  · by_cases hs : Touched s.actions relation number
    · exact hwf.ours relation number hs
    · have hours := hnext.1.ours relation number (((hmerged.touched ..).mp htouched).resolve_right hs)
      rwa [restore_of_not_touched hs] at hours
  · exact restore_merged hmay
      (fun offset hmem => (hspace.allocated offset).mpr (mem_append_left _ (mem_append_left _ hmem)))
      hmerged fun offset hmem => hdata offset (mem_append_left _ hmem)
  · exact hdata offset (mem_append_right _ (mem_append_left _ hmem))

theorem ours_of_restore (hwf : WfActions us chains actions)
    (h : Ours us (restore space chains actions relation number)) : Ours us (chains relation number) := by
  by_cases htouched : Touched actions relation number
  · exact hwf.ours relation number htouched
  · rwa [restore_of_not_touched htouched] at h

section
variable (hours : ∀ relation number, Ours us (chains relation number) → Ours us (chains' relation number))
include hours

theorem dropRoot_spec (large : Savepoint → Bool) (h : StackOk us space chains rest)
    (hspace : SpaceOk space (held rest ++ offsets)) :
    ∃ rest' space', dropRoot us chains' large rest space = .ok (rest', space') ∧
      ((rest' = rest ∧ space' = space ∧ ∀ root, rest = [root] → ¬(root.root = true ∧ large root = true)) ∨
        (∃ root, rest = [root] ∧ root.root = true ∧ rest' = [] ∧
          ReleasedFrom space space' (heldActions root.actions))) := by
  match rest, h, hspace with
  | [], _, _ => exact ⟨[], space, rfl, .inl ⟨rfl, rfl, by simp⟩⟩
  | [root], h, hspace =>
    by_cases hlarge : (root.root && large root) = true
    · have hheld : held [root] = heldActions root.actions := by simp [held]
      rw [hheld] at hspace
      obtain ⟨space', hmerge, hreleased⟩ := mergeActions_none h.1.toWfUndo hspace.nodup.of_append_left
        (fun offset hmem => (hspace.allocated offset).mpr (mem_append_left _ hmem))
        fun relation number htouched => hours relation number (h.1.ours relation number htouched)
      exact ⟨[], space', by simp only [dropRoot, hlarge, hmerge, if_true],
        .inr ⟨root, rfl, ((Bool.and_eq_true ..).mp hlarge).1, rfl, hreleased⟩⟩
    · refine ⟨[root], space, by simp only [dropRoot, hlarge, Bool.false_eq_true, if_false], .inl ⟨rfl, rfl, ?_⟩⟩
      rintro _ ⟨⟩ hboth
      exact hlarge ((Bool.and_eq_true ..).mpr hboth)
  | a :: b :: rest, _, _ => exact ⟨a :: b :: rest, space, rfl, .inl ⟨rfl, rfl, by simp⟩⟩

/-- The savepoints below are all there, or were the transaction-level one only, given up. -/
def Keeps (rest rest' : List Savepoint) : Prop :=
  rest'.map (·.contentAtStart) = rest.map (·.contentAtStart) ∨
    ∃ root, rest = [root] ∧ root.root = true ∧ rest' = []

/-- A savepoint is merged into the one below it, except into a transaction-level one that goes. -/
def MayRelease (isLarge : Savepoint → Bool) (s : Savepoint) (rest : List Savepoint) : Prop :=
  ∀ next ∈ rest.head?, ¬(rest = [next] ∧ next.root = true ∧ isLarge s = true) → MayMerge s next

theorem mergeActions_last (h : WfActions us chains actions) (hspace : SpaceOk space (heldActions actions ++ offsets)) :
    ∃ space', mergeActions us chains' actions none space = .ok (none, space') ∧ SpaceOk space' offsets ∧
      ∀ offset ∈ offsets, space'.data offset = space.data offset := by
  obtain ⟨space', hmerge, hreleased⟩ := mergeActions_none h.toWfUndo hspace.nodup.of_append_left
    (fun offset hmem => (hspace.allocated offset).mpr (mem_append_left _ hmem))
    fun relation number htouched => hours relation number (h.ours relation number htouched)
  exact ⟨space', hmerge, hspace.released hreleased, hspace.data_of_released hreleased⟩

/-- A savepoint merged into the next one, which may be the transaction-level one and be given up then. -/
theorem rollforward_merge (isLarge : Savepoint → Bool) (h : StackOk us space chains (s :: next :: rest))
    (hspace : SpaceOk space (held (s :: next :: rest) ++ offsets))
    (hmay : MayMerge s next) :
    ∃ actions' space₁ rest' space', mergeActions us chains' s.actions (some next.actions) space =
        .ok (some actions', space₁) ∧
      dropRoot us chains' isLarge ({ next with actions := actions' } :: rest) space₁ = .ok (rest', space') ∧
      StackOk us space' chains rest' ∧ SpaceOk space' (held rest' ++ offsets) ∧ Keeps (next :: rest) rest' ∧
      ∀ offset ∈ offsets, space'.data offset = space.data offset := by
  have hspace₀ : SpaceOk space ((heldActions s.actions ++ heldActions next.actions) ++ (held rest ++ offsets)) := by
    rw [held_cons, held_cons] at hspace
    simpa using hspace
  obtain ⟨actions', space₁, hmerge, hmerged⟩ := mergeActions_some h.1.toWfUndo
    hspace₀.nodup.of_append_left.of_append_left
    (fun offset hmem => (hspace₀.allocated offset).mpr (mem_append_left _ (mem_append_left _ hmem)))
    (fun relation number htouched => hours relation number (h.1.ours relation number htouched)) h.2.2.1.toWfUndo
  have hstack := h.merged hmay hmerged hspace₀
  obtain ⟨hspace₁, hdata₁⟩ := hmerged.spaceOk hspace₀
  rw [← append_assoc, ← held_cons { next with actions := actions' }] at hspace₁ hdata₁
  obtain ⟨rest', space', hdrop, hcases⟩ := dropRoot_spec hours isLarge hstack hspace₁
  refine ⟨actions', space₁, rest', space', hmerge, hdrop, ?_⟩
  rcases hcases with ⟨rfl, rfl, -⟩ | ⟨root, hroot, htrue, rfl, hreleased⟩
  · exact ⟨hstack, hspace₁, .inl rfl, fun offset hmem => hdata₁ offset (mem_append_right _ hmem)⟩
  · cases hroot
    have hheld : held [{ next with actions := actions' }] = heldActions actions' := by simp [held]
    rw [hheld] at hspace₁
    refine ⟨trivial, hspace₁.released hreleased, .inr ⟨next, rfl, htrue, rfl⟩, fun offset hmem => ?_⟩
    exact (hspace₁.data_of_released hreleased offset hmem).trans (hdata₁ offset (mem_append_right _ hmem))

theorem rollforwardInto_spec (isLarge : Savepoint → Bool) (h : StackOk us space chains (s :: rest))
    (hspace : SpaceOk space (held (s :: rest) ++ offsets)) (hmay : MayRelease isLarge s rest) :
    ∃ rest' space', rollforwardInto isLarge us chains' s rest space = .ok (rest', space') ∧
      StackOk us space' chains rest' ∧ SpaceOk space' (held rest' ++ offsets) ∧ Keeps rest rest' ∧
      ∀ offset ∈ offsets, space'.data offset = space.data offset := by
  have hrest : SpaceOk space (held rest ++ (heldActions s.actions ++ offsets)) := by
    refine hspace.perm ?_
    rw [← append_assoc]
    exact perm_append_comm.append_right _
  obtain ⟨rest₁, space₁, hdrop, hcases⟩ := dropRoot_spec
    (fun relation number hours' => hours relation number (ours_of_restore h.1 hours')) (fun _ => isLarge s) h.2.2 hrest
  rcases hcases with ⟨rfl, rfl, hkeep⟩ | ⟨root, rfl, hroot, rfl, hreleased⟩
  · cases rest₁ with
    | nil =>
      obtain ⟨space', hmerge, hspace', hdata⟩ := mergeActions_last hours h.1 hrest
      exact ⟨[], space', by simp only [rollforwardInto, hdrop, hmerge], trivial, hspace', .inl rfl, hdata⟩
    | cons next below =>
      have hmay' := hmay next rfl fun hroot => hkeep next hroot.1 hroot.2
      obtain ⟨actions', space₂, rest', space', hmerge, hdrop', hresult⟩ :=
        rollforward_merge hours isLarge h hspace hmay'
      exact ⟨rest', space', by simp [rollforwardInto, hdrop, hmerge, hdrop'], hresult⟩
  · have hheld : held [root] = heldActions root.actions := by simp [held]
    rw [hheld] at hrest
    have hspace₁ := hrest.released hreleased
    obtain ⟨space', hmerge, hspace', hdata⟩ := mergeActions_last hours h.1 hspace₁
    refine ⟨[], space', by simp only [rollforwardInto, hdrop, hmerge], trivial, hspace', .inr ⟨root, rfl, hroot, rfl⟩,
      fun offset hmem => ?_⟩
    exact (hdata offset hmem).trans (hrest.data_of_released hreleased offset (mem_append_right _ hmem))

end

/-- What the records go back to when all of these savepoints are rolled back. -/
def restoreAll (space : UndoSpace) : List Savepoint → Chains → Chains
  | [], chains => chains
  | s :: rest, chains => restoreAll space rest (restore space chains s.actions)

theorem stackOk_append :
    StackOk us space chains (top ++ stack) ↔
      StackOk us space chains top ∧ StackOk us space (restoreAll space top chains) stack := by
  induction top generalizing chains with
  | nil => simp [StackOk, restoreAll]
  | cons s top ih =>
    simp only [cons_append, StackOk, restoreAll, ih]
    tauto

theorem ours_of_restoreAll (h : StackOk us space chains top) :
    Ours us (restoreAll space top chains relation number) → Ours us (chains relation number) := by
  induction top generalizing chains with
  | nil => exact id
  | cons s top ih => exact fun hours => ours_of_restore h.1 (ih h.2.2 hours)

theorem restoreAll_congr (h : ∀ offset ∈ held top, space'.data offset = space.data offset) (chains : Chains) :
    restoreAll space' top chains = restoreAll space top chains := by
  induction top generalizing chains with
  | nil => rfl
  | cons s top ih =>
    rw [restoreAll, restore_congr (fun offset hmem => h offset (mem_append_left _ hmem))]
    exact ih (fun offset hmem => h offset (mem_append_right _ hmem)) _

theorem rollforward_spec {isLarge : Savepoint → Bool} {depth : Nat} (h : Inv t)
    (hs : t.savepoints.drop depth = s :: rest) (hmay : MayRelease isLarge s rest) :
    ∃ t' rest', rollforward isLarge t depth = .ok t' ∧ Inv t' ∧ t'.chains = t.chains ∧
      t'.savepoints = t.savepoints.take depth ++ rest' ∧ Keeps rest rest' := by
  have hsplit : t.savepoints = t.savepoints.take depth ++ s :: rest := by
    rw [← hs, take_append_drop]
  have hstack := h.stack
  have hspace := h.space
  rw [hsplit] at hstack hspace
  have hheld : ∀ below, held (t.savepoints.take depth ++ below) = held (t.savepoints.take depth) ++ held below :=
    fun _ => flatMap_append
  rw [hheld] at hspace
  obtain ⟨htop, hbelow⟩ := stackOk_append.mp hstack
  obtain ⟨rest', space', hroll, hrest', hspace', hkeeps, hdata⟩ := rollforwardInto_spec
    (fun _ _ => ours_of_restoreAll htop) isLarge hbelow (hspace.perm perm_append_comm) hmay
  refine ⟨{ t with undoSpace := space', savepoints := t.savepoints.take depth ++ rest' }, rest',
    by simp only [rollforward, hs, hroll], ⟨stackOk_append.mpr ⟨htop.congr hdata, ?_⟩, ?_⟩, rfl, rfl, hkeeps⟩
  · rw [restoreAll_congr hdata]
    exact hrest'
  · rw [hheld]
    exact hspace'.perm perm_append_comm

end Firebird.Undo
