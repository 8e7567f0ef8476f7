import Firebird.Undo.Savepoint

/-! # What a savepoint restores

The versions every record goes back to when a savepoint is rolled back, and the invariant: each
savepoint restores the contents of its start, from the versions that the savepoints above it restore. -/

namespace Firebird.Undo

open List

variable {us : TraNumber} {space space' : UndoSpace} {chains chains' : Chains} {s s' : Savepoint}
  {rest stack : List Savepoint} {actions : List VerbAction} {action : VerbAction} {relation rel : RelationId}
  {number r : RecordNumber} {items : List UndoItem}

def Touched (actions : List VerbAction) (relation : RelationId) (number : RecordNumber) : Prop :=
  ∃ action, getAction actions relation = some action ∧ number ∈ action.records

instance : Decidable (Touched actions relation number) := by
  unfold Touched
  cases getAction actions relation with
  | none => exact isFalse (by simp)
  | some action => exact decidable_of_iff (number ∈ action.records) (by simp)

def undoItem (actions : List VerbAction) (relation : RelationId) (number : RecordNumber) : Option UndoItem :=
  (getAction actions relation).bind fun action => action.locate number

def savedData (space : UndoSpace) (actions : List VerbAction) (relation : RelationId) (number : RecordNumber) :
    Option Bytes :=
  (undoItem actions relation number).bind fun item => space.data item.offset

theorem getAction_relation (h : getAction actions relation = some action) :
    action ∈ actions ∧ action.relation = relation := by
  refine ⟨mem_of_find?_eq_some h, ?_⟩
  simpa using find?_some h

theorem getAction_cons (a : VerbAction) (actions : List VerbAction) (relation : RelationId) :
    getAction (a :: actions) relation = if a.relation = relation then some a else getAction actions relation := by
  unfold getAction
  by_cases h : a.relation = relation <;> simp [h]

theorem getAction_eq_none_iff : getAction actions relation = none ↔ relation ∉ actions.map (·.relation) := by
  simp [getAction]

theorem map_relation_putAction (actions : List VerbAction) (action : VerbAction) :
    (putAction actions action).map (·.relation) =
      if action.relation ∈ actions.map (·.relation) then actions.map (·.relation)
      else action.relation :: actions.map (·.relation) := by
  unfold putAction
  by_cases hmem : action.relation ∈ actions.map (·.relation)
  · have hsome : (getAction actions action.relation).isSome = true := by
      rw [Option.isSome_iff_ne_none, Ne, getAction_eq_none_iff, not_not]
      exact hmem
    rw [if_pos hsome, if_pos hmem, map_map]
    refine map_congr_left fun a _ => ?_
    by_cases h : a.relation = action.relation <;> simp [h]
  · have hnone : getAction actions action.relation = none := getAction_eq_none_iff.mpr hmem
    simp [hnone, hmem]

theorem nodup_putAction (hnodup : (actions.map (·.relation)).Nodup) (action : VerbAction) :
    ((putAction actions action).map (·.relation)).Nodup := by
  rw [map_relation_putAction]
  split
  · exact hnodup
  · rename_i hnot
    exact nodup_cons.mpr ⟨hnot, hnodup⟩

theorem getAction_map (actions : List VerbAction) (action : VerbAction) (relation : RelationId) :
    getAction (actions.map fun a => if a.relation = action.relation then action else a) relation =
      if relation = action.relation then (getAction actions relation).map fun _ => action
      else getAction actions relation := by
  induction actions with
  | nil => simp [getAction]
  | cons a actions ih =>
    rw [map_cons, getAction_cons, getAction_cons, ih]
    by_cases ha : a.relation = action.relation
    · by_cases hr : relation = action.relation
      · simp [ha, hr]
      · have hne : ¬action.relation = relation := fun he => hr he.symm
        simp [ha, hr, hne]
    · by_cases hr : relation = action.relation
      · subst hr
        simp [ha]
      · simp [ha, hr]

theorem getAction_putAction (actions : List VerbAction) (action : VerbAction) (relation : RelationId) :
    getAction (putAction actions action) relation =
      if relation = action.relation then some action else getAction actions relation := by
  unfold putAction
  by_cases hsome : (getAction actions action.relation).isSome = true
  · rw [if_pos hsome, getAction_map]
    by_cases hr : relation = action.relation
    · subst hr
      obtain ⟨a, ha⟩ := Option.isSome_iff_exists.mp hsome
      simp [ha]
    · simp [hr]
  · rw [if_neg hsome, getAction_cons]
    by_cases hr : relation = action.relation
    · simp [hr]
    · have hne : ¬action.relation = relation := fun he => hr he.symm
      simp [hr, hne]

theorem relation_createAction : (createAction actions relation).relation = relation := by
  unfold createAction
  cases h : getAction actions relation with
  | none => rfl
  | some action => exact (getAction_relation h).2

/-- A version that is undone: the saved data goes back in place, or the version goes. -/
def restoreChain (saved : Option Bytes) : List RecordVersion → List RecordVersion
  | [] => []
  | head :: tail =>
    match saved with
    | some data => { head with deleted := false, data } :: tail
    | none => tail

def restore (space : UndoSpace) (chains : Chains) (actions : List VerbAction) : Chains := fun relation number =>
  if Touched actions relation number then
    restoreChain (savedData space actions relation number) (chains relation number)
  else chains relation number

def Ours (us : TraNumber) (chain : List RecordVersion) : Prop :=
  ∃ head tail, chain = head :: tail ∧ head.transaction = us

/-- The actions of a savepoint: one for each relation, with at most one undo item for each record. -/
structure WfUndo (actions : List VerbAction) : Prop where
  relations : (actions.map (·.relation)).Nodup
  numbers : ∀ action ∈ actions, (action.undo.map (·.number)).Nodup
  touched : ∀ action ∈ actions, ∀ item ∈ action.undo, item.number ∈ action.records

/-- The actions over the versions the savepoint has left: those of the records it has touched are ours. -/
structure WfActions (us : TraNumber) (chains : Chains) (actions : List VerbAction) : Prop extends WfUndo actions where
  ours : ∀ relation number, Touched actions relation number → Ours us (chains relation number)

/-- Each savepoint restores the contents of its start, over the versions the ones above restore. -/
def StackOk (us : TraNumber) (space : UndoSpace) : Chains → List Savepoint → Prop
  | _, [] => True
  | chains, s :: rest =>
    WfActions us chains s.actions ∧
    (∀ relation number, content (restore space chains s.actions relation number) = s.contentAtStart relation number) ∧
    StackOk us space (restore space chains s.actions) rest

def heldActions (actions : List VerbAction) : List Nat := actions.flatMap fun action => action.undo.map (·.offset)

def held (stack : List Savepoint) : List Nat := stack.flatMap fun s => heldActions s.actions

/-- Each allocated segment of the undo space is held by one undo item, and nothing else is held. -/
structure SpaceOk (space : UndoSpace) (offsets : List Nat) : Prop where
  nodup : offsets.Nodup
  allocated : ∀ offset, (space.data offset).isSome ↔ offset ∈ offsets
  bound : ∀ offset ∈ offsets, offset < space.size

structure Inv (t : Transaction) : Prop where
  stack : StackOk t.traNumber t.undoSpace t.chains t.savepoints
  space : SpaceOk t.undoSpace (held t.savepoints)

theorem mem_held_of_undoItem {item : UndoItem} (h : undoItem actions relation number = some item) :
    item.offset ∈ heldActions actions := by
  obtain ⟨action, haction, hitem⟩ := Option.bind_eq_some_iff.mp h
  exact mem_flatMap.mpr ⟨action, (getAction_relation haction).1,
    mem_map_of_mem (mem_of_find?_eq_some hitem)⟩

theorem savedData_congr (h : ∀ offset ∈ heldActions actions, space'.data offset = space.data offset)
    (relation : RelationId) (number : RecordNumber) :
    savedData space' actions relation number = savedData space actions relation number := by
  unfold savedData
  cases hitem : undoItem actions relation number with
  | none => rfl
  | some item => exact h item.offset (mem_held_of_undoItem hitem)

theorem restore_congr (h : ∀ offset ∈ heldActions actions, space'.data offset = space.data offset)
    (chains : Chains) : restore space' chains actions = restore space chains actions := by
  funext relation number
  unfold restore
  rw [savedData_congr h]

theorem held_cons (s : Savepoint) (rest : List Savepoint) : held (s :: rest) = heldActions s.actions ++ held rest :=
  flatMap_cons

theorem StackOk.congr (h : ∀ offset ∈ held stack, space'.data offset = space.data offset)
    (hstack : StackOk us space chains stack) : StackOk us space' chains stack := by
  induction stack generalizing chains with
  | nil => trivial
  | cons s rest ih =>
    obtain ⟨hwf, hcontent, hrest⟩ := hstack
    have hs := restore_congr (fun offset hmem => h offset (held_cons .. ▸ mem_append_left _ hmem)) chains
    refine ⟨hwf, fun relation number => hs ▸ hcontent relation number, ?_⟩
    rw [hs]
    exact ih (fun offset hmem => h offset (held_cons .. ▸ mem_append_right _ hmem)) hrest

theorem StackOk.replace_top (hstack : StackOk us space chains (s :: rest)) (hwf : WfActions us chains' s'.actions)
    (hstart : s'.contentAtStart = s.contentAtStart)
    (hrestore : restore space' chains' s'.actions = restore space chains s.actions)
    (hspace : ∀ offset ∈ held rest, space'.data offset = space.data offset) :
    StackOk us space' chains' (s' :: rest) := by
  obtain ⟨-, hcontent, hrest⟩ := hstack
  refine ⟨hwf, ?_, ?_⟩
  · rw [hrestore, hstart]
    exact hcontent
  · rw [hrestore]
    exact hrest.congr hspace

theorem undoItem_none_of_not_touched (hwf : WfUndo actions) (h : ¬Touched actions relation number) :
    undoItem actions relation number = none := by
  unfold undoItem
  cases haction : getAction actions relation with
  | none => rfl
  | some action =>
    refine find?_eq_none.mpr fun item hitem hnum => h ⟨action, haction, ?_⟩
    have := hwf.touched action (getAction_relation haction).1 item hitem
    simpa using (by simpa using hnum : item.number = number) ▸ this

theorem touched_putAction :
    Touched (putAction actions action) relation number ↔
      if relation = action.relation then number ∈ action.records else Touched actions relation number := by
  unfold Touched
  rw [getAction_putAction]
  by_cases h : relation = action.relation <;> simp [h]

theorem undoItem_putAction :
    undoItem (putAction actions action) relation number =
      if relation = action.relation then action.locate number else undoItem actions relation number := by
  unfold undoItem
  rw [getAction_putAction]
  by_cases h : relation = action.relation <;> simp [h]

theorem touched_iff_createAction :
    Touched actions relation number ↔ number ∈ (createAction actions relation).records := by
  unfold Touched createAction
  cases h : getAction actions relation <;> simp

theorem undoItem_eq_createAction :
    undoItem actions relation number = (createAction actions relation).locate number := by
  unfold undoItem createAction
  cases h : getAction actions relation <;> simp [VerbAction.locate]

theorem mem_putAction {a : VerbAction} (h : a ∈ putAction actions action) : a = action ∨ a ∈ actions := by
  unfold putAction at h
  split at h
  · obtain ⟨b, hb, rfl⟩ := mem_map.mp h
    split
    · exact .inl rfl
    · exact .inr hb
  · exact mem_cons.mp h

theorem setChain_eq (chains : Chains) (rel : RelationId) (r : RecordNumber) (chain : List RecordVersion) :
    setChain chains rel r chain = fun relation number =>
      if relation = rel ∧ number = r then chain else chains relation number := by
  funext relation number
  unfold setChain
  by_cases hrel : relation = rel
  · subst hrel
    by_cases hr : number = r <;> simp [hr]
  · simp [hrel]

theorem setChain_self (chains : Chains) (rel : RelationId) (r : RecordNumber) (chain : List RecordVersion) :
    setChain chains rel r chain rel r = chain := by
  simp [setChain]

theorem setChain_of_ne {chain : List RecordVersion} (h : ¬(rel = relation ∧ r = number)) :
    setChain chains relation number chain rel r = chains rel r := by
  rw [setChain_eq]
  exact if_neg h

theorem locate_concat {item : UndoItem} (h : action.locate item.number = none) (r : RecordNumber) :
    ({ action with undo := action.undo ++ [item] } : VerbAction).locate r =
      if r = item.number then some item else action.locate r := by
  unfold VerbAction.locate at h ⊢
  by_cases hr : r = item.number
  · subst hr
    simp [h]
  · have hne : ¬item.number = r := fun he => hr he.symm
    simp [hr, hne]

theorem createAction_wf (hwf : WfUndo actions) (relation : RelationId) :
    ((createAction actions relation).undo.map (·.number)).Nodup ∧
      ∀ item ∈ (createAction actions relation).undo, item.number ∈ (createAction actions relation).records := by
  unfold createAction
  cases h : getAction actions relation with
  | none => simp
  | some action =>
    have hmem := (getAction_relation h).1
    exact ⟨hwf.numbers action hmem, hwf.touched action hmem⟩

theorem WfUndo.put (hwf : WfUndo actions) (hnumbers : (action.undo.map (·.number)).Nodup)
    (htouched : ∀ item ∈ action.undo, item.number ∈ action.records) : WfUndo (putAction actions action) where
  relations := nodup_putAction hwf.relations action
  numbers a ha := by
    rcases mem_putAction ha with rfl | ha
    · exact hnumbers
    · exact hwf.numbers a ha
  touched a ha := by
    rcases mem_putAction ha with rfl | ha
    · exact htouched
    · exact hwf.touched a ha

theorem heldActions_cons (a : VerbAction) (actions : List VerbAction) :
    heldActions (a :: actions) = a.undo.map (·.offset) ++ heldActions actions := flatMap_cons

theorem heldActions_putAction (hnodup : (actions.map (·.relation)).Nodup) (relation : RelationId)
    (items : List UndoItem) (records : Finset RecordNumber) :
    (heldActions (putAction actions { createAction actions relation with
      records := records, undo := (createAction actions relation).undo ++ items })).Perm
      (heldActions actions ++ items.map (·.offset)) := by
  cases hget : getAction actions relation with
  | none =>
    have hcreate : createAction actions relation = { relation, records := ∅, undo := [] } := by
      simp [createAction, hget]
    rw [hcreate, putAction, if_neg (by simp [hget]), heldActions_cons]
    simpa using perm_append_comm
  | some action =>
    have hcreate : createAction actions relation = action := by simp [createAction, hget]
    obtain ⟨hmem, hrel⟩ := getAction_relation hget
    rw [hcreate, putAction, if_pos (by simp [hrel, hget])]
    clear hget hcreate
    induction actions with
    | nil => cases hmem
    | cons a actions ih =>
      rw [map_cons, nodup_cons] at hnodup
      rw [map_cons, heldActions_cons, heldActions_cons]
      rcases mem_cons.mp hmem with rfl | hmem
      · have hrest : actions.map (fun a => if a.relation = action.relation then
            { action with records := records, undo := action.undo ++ items } else a) = actions := by
          refine (map_congr_left fun b hb => ?_).trans (map_id _)
          have hne : b.relation ≠ action.relation := fun he => hnodup.1 (he ▸ mem_map_of_mem hb)
          simp [hne]
        rw [if_pos rfl, hrest, map_append, append_assoc, append_assoc]
        exact perm_append_comm.append_left _
      · have hne : a.relation ≠ action.relation := fun he => hnodup.1 (he ▸ mem_map_of_mem hmem)
        rw [if_neg hne, append_assoc]
        exact (ih hnodup.2 hmem).append_left _

end Firebird.Undo
