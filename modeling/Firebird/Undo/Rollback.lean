import Firebird.Undo.Changes

/-! # Rolling back a savepoint -/

namespace Firebird.Undo

open Function List

variable {us : TraNumber} {space space' : UndoSpace} {chains chains' : Chains} {s next : Savepoint}
  {rest stack : List Savepoint} {actions : List VerbAction} {action : VerbAction} {relation : RelationId}
  {number : RecordNumber} {items : List UndoItem} {preserveLocks : Bool} {offsets : List Nat} {t : Transaction}

structure ReleasedFrom (space space' : UndoSpace) (offsets : List Nat) : Prop where
  size : space'.size = space.size
  data : ∀ offset, space'.data offset = if offset ∈ offsets then none else space.data offset

theorem ReleasedFrom.data_of_notMem (h : ReleasedFrom space space' offsets) {offset : Nat} (hmem : offset ∉ offsets) :
    space'.data offset = space.data offset := (h.data offset).trans (if_neg hmem)

theorem releaseAll_spec (space : UndoSpace) (items : List UndoItem) (hnodup : (items.map (·.offset)).Nodup)
    (hallocated : ∀ item ∈ items, (space.data item.offset).isSome) :
    ∃ space', space.releaseAll items = .ok space' ∧ ReleasedFrom space space' (items.map (·.offset)) := by
  induction items generalizing space with
  | nil => exact ⟨space, rfl, rfl, fun offset => by simp⟩
  | cons item items ih =>
    rw [map_cons, nodup_cons] at hnodup
    have hitem : space.release item.offset = .ok { space with data := update space.data item.offset none } :=
      if_pos (hallocated item (mem_cons_self ..))
    obtain ⟨space', hrest, hreleased⟩ := ih { space with data := update space.data item.offset none }
      hnodup.2 fun other hmem => by
        have hne : other.offset ≠ item.offset := fun he => hnodup.1 (he ▸ mem_map_of_mem hmem)
        simpa [hne] using hallocated other (mem_cons_of_mem _ hmem)
    refine ⟨space', ?_, hreleased.size, fun offset => ?_⟩
    · simp only [UndoSpace.releaseAll, hitem, hrest]
    · rw [hreleased.data]
      by_cases he : offset = item.offset
      · subst he
        simp
      · simp [he]

theorem SpaceOk.released {kept : List Nat} (h : SpaceOk space (offsets ++ kept))
    (hreleased : ReleasedFrom space space' offsets) : SpaceOk space' kept where
  nodup := h.nodup.of_append_right
  allocated offset := by
    rw [hreleased.data]
    have hdisjoint := disjoint_of_nodup_append h.nodup
    by_cases hmem : offset ∈ offsets
    · rw [if_pos hmem]
      exact iff_of_false (by simp) (hdisjoint hmem)
    · rw [if_neg hmem, h.allocated, mem_append]
      exact or_iff_right hmem
  bound offset hmem := by
    rw [hreleased.size]
    exact h.bound offset (mem_append_right _ hmem)

theorem SpaceOk.data_of_released {kept : List Nat} (h : SpaceOk space (offsets ++ kept))
    (hreleased : ReleasedFrom space space' offsets) :
    ∀ offset ∈ kept, space'.data offset = space.data offset := fun _ hmem =>
  hreleased.data_of_notMem fun hmem' => disjoint_of_nodup_append h.nodup hmem' hmem

theorem SpaceOk.isSome {kept : List Nat} (h : SpaceOk space (items.map (·.offset) ++ kept)) :
    ∀ item ∈ items, (space.data item.offset).isSome := fun _ hmem =>
  (h.allocated _).mpr (mem_append_left _ (mem_map_of_mem hmem))

/-- The version is overwritten by the one below instead of backed out. -/
def Overwrites (preserveLocks : Bool) (saved : Option Bytes) (chain : List RecordVersion) : Bool :=
  preserveLocks && saved.isNone && decide (2 ≤ chain.length)

def undone (preserveLocks : Bool) (saved : Option Bytes) (chain : List RecordVersion) : List RecordVersion :=
  match saved, preserveLocks, chain with
  | none, true, head :: prev :: tail =>
    { head with format := prev.format, deleted := prev.deleted, data := prev.data } :: prev :: tail
  | saved, _, chain => restoreChain saved chain

variable {chain : List RecordVersion}

theorem undone_of_not_overwrites {saved : Option Bytes}
    (h : Overwrites preserveLocks saved chain = false) : undone preserveLocks saved
    chain = restoreChain saved chain := by
  unfold undone
  split
  · simp [Overwrites] at h
  · rfl

theorem undone_of_overwrites {saved : Option Bytes}
    (h : Overwrites preserveLocks saved chain = true) : ∃ head prev tail, chain = head :: prev :: tail ∧ saved = none ∧
      undone preserveLocks saved chain =
        { head with format := prev.format, deleted := prev.deleted, data := prev.data } :: prev :: tail := by
  simp only [Overwrites, Bool.and_eq_true, decide_eq_true_eq, Option.isNone_iff_eq_none] at h
  obtain ⟨⟨rfl, rfl⟩, hlen⟩ := h
  match chain, hlen with
  | head :: prev :: tail, _ => exact ⟨head, prev, tail, rfl, rfl, rfl⟩

theorem undoRecord_eq (preserveLocks : Bool) (saved : Option Bytes) (h : Ours us chain) :
    undoRecord us preserveLocks saved chain =
      .ok (undone preserveLocks saved chain, Overwrites preserveLocks saved chain) := by
  obtain ⟨head, tail, rfl, rfl⟩ := h
  unfold undoRecord undone Overwrites
  cases saved with
  | some data => simp [restoreChain]
  | none =>
    cases preserveLocks with
    | false => simp [restoreChain]
    | true => cases tail <;> simp [restoreChain]

def VerbAction.saved (action : VerbAction) (space : UndoSpace) (number : RecordNumber) : Option Bytes :=
  (action.locate number).bind fun item => space.data item.offset

def undoneChains (preserveLocks : Bool) (space : UndoSpace) (action : VerbAction) (numbers : List RecordNumber)
    (chains : Chains) : Chains := fun relation number =>
  if relation = action.relation ∧ number ∈ numbers then
    undone preserveLocks (action.saved space number) (chains relation number)
  else chains relation number

theorem undoneChains_cons {numbers : List RecordNumber} (hnot : number ∉ numbers) (chains : Chains) :
    undoneChains preserveLocks space action numbers (setChain chains action.relation number
      (undone preserveLocks (action.saved space number) (chains action.relation number))) =
      undoneChains preserveLocks space action (number :: numbers) chains := by
  funext rel n
  unfold undoneChains
  by_cases hsame : rel = action.relation ∧ n = number
  · obtain ⟨rfl, rfl⟩ := hsame
    rw [if_neg fun hmem => hnot hmem.2, if_pos ⟨rfl, mem_cons_self ..⟩, setChain_self]
  · have hiff : (rel = action.relation ∧ n ∈ numbers) ↔ (rel = action.relation ∧ n ∈ number :: numbers) :=
      and_congr_right fun hrel => by
        rw [mem_cons]
        exact (or_iff_right fun he => hsame ⟨hrel, he⟩).symm
    rw [setChain_of_ne hsame]
    simp only [hiff]

theorem undoRecords_spec (preserveLocks : Bool) (space : UndoSpace) (numbers : List RecordNumber)
    (hnodup : numbers.Nodup) (hours : ∀ number ∈ numbers, Ours us (chains action.relation number)) :
    ∃ preserved, undoRecords us preserveLocks space action numbers chains =
        .ok (undoneChains preserveLocks space action numbers chains, preserved) ∧
      ∀ number, number ∈ preserved ↔ number ∈ numbers ∧
        Overwrites preserveLocks (action.saved space number) (chains action.relation number) = true := by
  induction numbers generalizing chains with
  | nil =>
    refine ⟨∅, ?_, by simp⟩
    have hsame : undoneChains preserveLocks space action [] chains = chains := by
      funext relation number
      simp [undoneChains]
    rw [hsame]
    rfl
  | cons number numbers ih =>
    rw [nodup_cons] at hnodup
    have hundo := undoRecord_eq preserveLocks (action.saved space number) (hours number (mem_cons_self ..))
    have hsaved : ((action.locate number).bind fun item => space.data item.offset) = action.saved space number := rfl
    -- the other records are as they were
    have hother : ∀ chain, ∀ n ∈ numbers, setChain chains action.relation number chain action.relation n =
        chains action.relation n := fun chain n hn =>
      setChain_of_ne fun hsame => hnodup.1 (hsame.2 ▸ hn)
    have hours' : ∀ n ∈ numbers, Ours us (setChain chains action.relation number
        (undone preserveLocks (action.saved space number) (chains action.relation number)) action.relation n) :=
      fun n hn => (hother _ n hn).symm ▸ hours n (mem_cons_of_mem _ hn)
    obtain ⟨preserved, hrest, hpreserved⟩ := ih hnodup.2 hours'
    rw [undoneChains_cons hnodup.1] at hrest
    refine ⟨if Overwrites preserveLocks (action.saved space number) (chains action.relation number)
      then insert number preserved else preserved, ?_, fun n => ?_⟩
    · simp only [undoRecords, hsaved, hundo, hrest]
    · by_cases hn : n = number
      · subst hn
        have hnot : n ∉ preserved := fun hmem => hnodup.1 ((hpreserved n).mp hmem).1
        by_cases ho : Overwrites preserveLocks (action.saved space n) (chains action.relation n) = true <;>
          simp [ho, hnot]
      · have hiff : n ∈ (if Overwrites preserveLocks (action.saved space number) (chains action.relation number) = true
            then insert number preserved else preserved) ↔ n ∈ preserved := by
          split
          · rw [Finset.mem_insert]
            exact or_iff_right hn
          · rfl
        rw [hiff, hpreserved, mem_cons]
        refine ⟨fun ⟨hmem, ho⟩ => ⟨.inr hmem, ?_⟩, fun ⟨hmem, ho⟩ => ?_⟩
        · rwa [hother _ n hmem] at ho
        · have hmem := hmem.resolve_left hn
          exact ⟨hmem, by rwa [hother _ n hmem]⟩

/-! ### Undoing all actions -/

def undoneAll (preserveLocks : Bool) (space : UndoSpace) (actions : List VerbAction) (chains : Chains) : Chains :=
  fun relation number =>
    if Touched actions relation number then
      undone preserveLocks (savedData space actions relation number) (chains relation number)
    else chains relation number

def Preserved (preserveLocks : Bool) (space : UndoSpace) (actions : List VerbAction) (chains : Chains)
    (relation : RelationId) (number : RecordNumber) : Prop :=
  Touched actions relation number ∧
    Overwrites preserveLocks (savedData space actions relation number) (chains relation number) = true

theorem touched_cons :
    Touched (action :: actions) relation number ↔
      if action.relation = relation then number ∈ action.records else Touched actions relation number := by
  unfold Touched
  rw [getAction_cons]
  split <;> simp

theorem savedData_cons :
    savedData space (action :: actions) relation number =
      if action.relation = relation then action.saved space number else savedData space actions relation number := by
  unfold savedData undoItem
  rw [getAction_cons]
  split <;> rfl

theorem not_touched_of_cons (hnodup : ((action :: actions).map (·.relation)).Nodup) :
    ¬Touched actions action.relation number := by
  rintro ⟨a, ha, -⟩
  obtain ⟨hmem, hrel⟩ := getAction_relation ha
  exact (nodup_cons.mp hnodup).1 (mem_map.mpr ⟨a, hmem, hrel⟩)

theorem undoneAll_cons (hnodup : ((action :: actions).map (·.relation)).Nodup) (chains : Chains) :
    undoneAll preserveLocks space actions
      (undoneChains preserveLocks space action (action.records.sort (· ≤ ·)) chains) =
      undoneAll preserveLocks space (action :: actions) chains := by
  funext rel n
  unfold undoneAll undoneChains
  by_cases hrel : rel = action.relation
  · subst hrel
    simp [not_touched_of_cons hnodup, touched_cons, savedData_cons]
  · have hne : ¬action.relation = rel := fun he => hrel he.symm
    simp [hrel, hne, touched_cons, savedData_cons]

theorem undoneAll_congr (h : ∀ offset ∈ heldActions actions, space'.data offset = space.data offset) (chains : Chains) :
    undoneAll preserveLocks space' actions chains = undoneAll preserveLocks space actions chains := by
  funext relation number
  unfold undoneAll
  rw [savedData_congr h]

structure TakesOver (taken : RelationId → RecordNumber → Prop) (actions actions' : List VerbAction) : Prop where
  wf : WfUndo actions'
  touched : ∀ relation number, Touched actions' relation number ↔ Touched actions relation
    number ∨ taken relation number
  undoItem : ∀ relation number, undoItem actions' relation number = undoItem actions relation number
  held : (heldActions actions').Perm (heldActions actions)

theorem TakesOver.refl (hwf : WfUndo actions) : TakesOver (fun _ _ => False) actions actions :=
  ⟨hwf, fun _ _ => by simp, fun _ _ => rfl, .refl _⟩

variable {taken taken' : RelationId → RecordNumber → Prop}

theorem TakesOver.trans {actions' actions'' : List VerbAction}
    (h : TakesOver taken actions actions') (h' : TakesOver taken' actions' actions'') :
    TakesOver (fun relation number => taken relation number ∨ taken' relation number) actions actions'' where
  wf := h'.wf
  touched relation number := by rw [h'.touched, h.touched, or_assoc]
  undoItem relation number := (h'.undoItem relation number).trans (h.undoItem relation number)
  held := h'.held.trans h.held

theorem TakesOver.congr {actions' : List VerbAction}
    (h : TakesOver taken actions actions') (hiff : ∀ relation number, taken' relation number ↔ taken relation number) :
    TakesOver taken' actions actions' :=
  ⟨h.wf, fun relation number => by rw [h.touched, hiff], h.undoItem, h.held⟩

theorem takesOver_put (hwf : WfUndo actions) (relation : RelationId) (preserved : Finset RecordNumber) :
    TakesOver (fun rel n => rel = relation ∧ n ∈ preserved) actions
      (putAction actions { createAction actions relation with
        records := (createAction actions relation).records ∪ preserved }) where
  wf := by
    obtain ⟨hnumbers, htouched⟩ := createAction_wf hwf relation
    exact hwf.put hnumbers fun item hitem => Finset.mem_union_left _ (htouched item hitem)
  touched rel n := by
    rw [touched_putAction]
    by_cases hrel : rel = relation
    · subst hrel
      simp [relation_createAction, touched_iff_createAction]
    · simp [relation_createAction, hrel]
  undoItem rel n := by
    rw [undoItem_putAction]
    by_cases hrel : rel = relation
    · subst hrel
      simp only [relation_createAction, if_true, undoItem_eq_createAction]
      rfl
    · simp [relation_createAction, hrel]
  held := by
    simpa using heldActions_putAction hwf.relations relation [] ((createAction actions relation).records ∪ preserved)

def RestTakes (taken : RelationId → RecordNumber → Prop) : List Savepoint → List Savepoint → Prop
  | [], rest' => rest' = []
  | next :: below, rest' =>
    ∃ actions, rest' = { next with actions } :: below ∧ TakesOver taken next.actions actions

def WfBelow (rest : List Savepoint) : Prop := ∀ next ∈ rest.head?, WfUndo next.actions

theorem RestTakes.trans {rest' rest'' : List Savepoint}
    (h : RestTakes taken rest rest') (h' : RestTakes taken' rest' rest'') :
    RestTakes (fun relation number => taken relation number ∨ taken' relation number) rest rest'' := by
  cases rest with
  | nil =>
    cases h
    exact h'
  | cons next below =>
    obtain ⟨actions, rfl, h⟩ := h
    obtain ⟨actions', rfl, h'⟩ := h'
    exact ⟨actions', rfl, h.trans h'⟩

variable {rest' : List Savepoint}

theorem RestTakes.congr
    (h : RestTakes taken rest rest') (hiff : ∀ relation number, taken' relation number ↔ taken relation number) :
    RestTakes taken' rest rest' := by
  cases rest with
  | nil => exact h
  | cons next below =>
    obtain ⟨actions, rfl, h⟩ := h
    exact ⟨actions, rfl, h.congr hiff⟩

variable {taken : RelationId → RecordNumber → Prop}

theorem RestTakes.wfBelow (h : RestTakes taken rest rest') : WfBelow rest' := by
  cases rest with
  | nil =>
    cases h
    simp [WfBelow]
  | cons next below =>
    obtain ⟨actions, rfl, h⟩ := h
    simpa [WfBelow] using h.wf

theorem preserveRecords_takes (preserveLocks : Bool) (relation : RelationId) (hbelow : WfBelow rest)
    (preserved : Finset RecordNumber) (hnone : preserveLocks = false → preserved = ∅) :
    RestTakes (fun rel n => rel = relation ∧ n ∈ preserved) rest
      (preserveRecords preserveLocks relation preserved rest) := by
  cases rest with
  | nil => rfl
  | cons next below =>
    have hwf : WfUndo next.actions := hbelow next rfl
    cases preserveLocks with
    | true => exact ⟨_, rfl, takesOver_put hwf relation preserved⟩
    | false =>
      refine ⟨next.actions, rfl, (TakesOver.refl hwf).congr fun rel n => ?_⟩
      simp [hnone rfl]

theorem overwrites_preserveLocks {saved : Option Bytes}
    (h : Overwrites preserveLocks saved chain = true) : preserveLocks = true := by
  simp only [Overwrites, Bool.and_eq_true] at h
  exact h.1.1

theorem ours_undoneChains {numbers : List RecordNumber} (hrel : ¬relation = action.relation)
    (h : Ours us (chains relation number)) :
    Ours us (undoneChains preserveLocks space action numbers chains relation number) := by
  unfold undoneChains
  rwa [if_neg fun hsame => hrel hsame.1]

theorem preserved_cons (hnodup : ((action :: actions).map (·.relation)).Nodup) :
    Preserved preserveLocks space (action :: actions) chains relation number ↔
      (relation = action.relation ∧ number ∈ action.records ∧
        Overwrites preserveLocks (action.saved space number) (chains action.relation number) = true) ∨
      Preserved preserveLocks space actions
        (undoneChains preserveLocks space action (action.records.sort (· ≤ ·)) chains) relation number := by
  unfold Preserved undoneChains
  by_cases hrel : relation = action.relation
  · subst hrel
    simp [not_touched_of_cons hnodup, touched_cons, savedData_cons]
  · have hne : ¬action.relation = relation := fun he => hrel he.symm
    simp [hrel, hne, touched_cons, savedData_cons]

/-- All actions can be undone; their segments are released, and the savepoint below takes the records
    whose versions stay. -/
theorem undoActions_spec {kept : List Nat} (preserveLocks : Bool) (hwf : WfActions us chains actions)
    (hbelow : WfBelow rest) (hspace : SpaceOk space (heldActions actions ++ kept)) :
    ∃ space' rest', undoActions us preserveLocks actions chains space rest =
        .ok (undoneAll preserveLocks space actions chains, space', rest') ∧
      ReleasedFrom space space' (heldActions actions) ∧
      RestTakes (Preserved preserveLocks space actions chains) rest rest' := by
  induction actions generalizing chains space rest with
  | nil =>
    have hnone : ∀ relation number, ¬Touched [] relation number := fun relation number => by simp [Touched, getAction]
    refine ⟨space, rest, ?_, ⟨rfl, fun offset => by simp [heldActions]⟩, ?_⟩
    · have hsame : undoneAll preserveLocks space [] chains = chains := by
        funext relation number
        simp [undoneAll, hnone]
      rfl
    · cases rest with
      | nil => rfl
      | cons next below =>
        refine ⟨next.actions, rfl, (TakesOver.refl (hbelow next rfl)).congr fun relation number => ?_⟩
        simp [Preserved, hnone]
  | cons action actions ih =>
    have hours : ∀ number ∈ action.records.sort (· ≤ ·), Ours us (chains action.relation number) := fun number hmem =>
      hwf.ours _ _ (touched_cons.mpr (by simpa using hmem))
    obtain ⟨preserved, hrecords, hpreserved⟩ :=
      undoRecords_spec preserveLocks space _ (Finset.sort_nodup action.records (· ≤ ·)) hours
    rw [heldActions_cons, append_assoc] at hspace
    obtain ⟨space₁, hrelease, hreleased⟩ :=
      releaseAll_spec space action.undo hspace.nodup.of_append_left hspace.isSome
    have hwf₁ : WfActions us (undoneChains preserveLocks space action (action.records.sort (· ≤ ·)) chains)
        actions := by
      refine ⟨⟨(nodup_cons.mp hwf.relations).2, fun a ha => hwf.numbers a (mem_cons_of_mem _ ha),
        fun a ha => hwf.touched a (mem_cons_of_mem _ ha)⟩, fun relation number htouched => ?_⟩
      have hrel : ¬relation = action.relation := by
        rintro rfl
        exact not_touched_of_cons hwf.relations htouched
      refine ours_undoneChains hrel (hwf.ours relation number (touched_cons.mpr ?_))
      rwa [if_neg fun he => hrel he.symm]
    have htakes := preserveRecords_takes preserveLocks action.relation hbelow preserved
      fun hfalse => Finset.eq_empty_of_forall_notMem fun n hn => by
        have := overwrites_preserveLocks ((hpreserved n).mp hn).2
        simp [hfalse] at this
    obtain ⟨space₂, rest₂, hactions, hreleased₂, htakes₂⟩ := ih hwf₁ htakes.wfBelow (hspace.released hreleased)
    have hdata : ∀ offset ∈ heldActions actions, space₁.data offset = space.data offset := fun offset hmem =>
      hspace.data_of_released hreleased offset (mem_append_left _ hmem)
    rw [undoneAll_congr hdata, undoneAll_cons hwf.relations] at hactions
    refine ⟨space₂, rest₂, ?_, ⟨hreleased₂.size.trans hreleased.size, fun offset => ?_⟩, ?_⟩
    · simp only [undoActions, hrecords, hrelease, hactions]
    · rw [hreleased₂.data, hreleased.data, heldActions_cons]
      by_cases hmem : offset ∈ heldActions actions <;> simp [hmem]
    · refine (htakes.trans htakes₂).congr fun relation number => ?_
      rw [preserved_cons hwf.relations, Preserved, Preserved, savedData_congr hdata]
      rw [hpreserved, Finset.mem_sort]

/-! ### The savepoints below -/

def SavedBy (stack : List Savepoint) (relation : RelationId) (number : RecordNumber) : Prop :=
  ∀ s ∈ stack, Touched s.actions relation number → (undoItem s.actions relation number).isSome

/-- The record has the same newest version, and may have others below where each savepoint has its data. -/
def Alike (stack : List Savepoint) (chains chains' : Chains) : Prop :=
  ∀ relation number, chains' relation number = chains relation number ∨
    (SavedBy stack relation number ∧ ∃ head tail tail', chains relation number = head :: tail ∧
      chains' relation number = head :: tail')

theorem content_of_head {head : RecordVersion} {tail tail' chain chain' : List RecordVersion}
    (h : chain = head :: tail) (h' : chain' = head :: tail') : content chain' = content chain := by
  rw [h, h']
  rfl

theorem Alike.restore (h : Alike (s :: rest) chains chains')
    (hsaved : ∀ offset ∈ heldActions s.actions, (space.data offset).isSome) :
    Alike rest (restore space chains s.actions) (restore space chains' s.actions) := by
  intro relation number
  rcases h relation number with heq | ⟨hall, head, tail, tail', hchain, hchain'⟩
  · exact .inl (by simp only [Undo.restore, heq])
  · refine .inr ⟨fun q hq => hall q (mem_cons_of_mem _ hq), ?_⟩
    by_cases htouched : Touched s.actions relation number
    · obtain ⟨item, hitem⟩ := Option.isSome_iff_exists.mp (hall s (mem_cons_self ..) htouched)
      obtain ⟨data, hdata⟩ := Option.isSome_iff_exists.mp (hsaved item.offset (mem_held_of_undoItem hitem))
      have hsome : savedData space s.actions relation number = some data := by
        rw [savedData, hitem]
        exact hdata
      refine ⟨{ head with deleted := false, data }, tail, tail', ?_, ?_⟩
      · rw [restore_of_touched htouched, hsome, hchain]
        rfl
      · rw [restore_of_touched htouched, hsome, hchain']
        rfl
    · exact ⟨head, tail, tail', by rw [restore_of_not_touched htouched, hchain],
        by rw [restore_of_not_touched htouched, hchain']⟩

theorem StackOk.alike (h : StackOk us space chains stack) (hsaved : ∀ offset ∈ held stack, (space.data offset).isSome)
    (halike : Alike stack chains chains') : StackOk us space chains' stack := by
  induction stack generalizing chains chains' with
  | nil => trivial
  | cons s rest ih =>
    obtain ⟨hwf, hcontent, hrest⟩ := h
    have halike' := halike.restore fun offset hmem => hsaved offset (held_cons .. ▸ mem_append_left _ hmem)
    refine ⟨⟨hwf.toWfUndo, fun relation number htouched => ?_⟩, fun relation number => ?_,
      ih hrest (fun offset hmem => hsaved offset (held_cons .. ▸ mem_append_right _ hmem)) halike'⟩
    · obtain ⟨head, tail, hchain, hhead⟩ := hwf.ours relation number htouched
      rcases halike relation number with heq | ⟨-, head', tail', tail'', hchain', hchain''⟩
      · exact ⟨head, tail, heq ▸ hchain, hhead⟩
      · rw [hchain] at hchain'
        cases hchain'
        exact ⟨head, tail'', hchain'', hhead⟩
    · rw [← hcontent]
      rcases halike' relation number with heq | ⟨-, head, tail, tail', hchain, hchain'⟩
      · rw [heq]
      · exact content_of_head hchain hchain'

theorem content_undoneAll (preserveLocks : Bool) (space : UndoSpace) (actions : List VerbAction) (chains : Chains)
    (relation : RelationId) (number : RecordNumber) :
    content (undoneAll preserveLocks space actions chains relation number) =
      content (restore space chains actions relation number) := by
  by_cases htouched : Touched actions relation number
  · rw [undoneAll, if_pos htouched, restore_of_touched htouched]
    cases ho : Overwrites preserveLocks (savedData space actions relation number) (chains relation number) with
    | false => rw [undone_of_not_overwrites ho]
    | true =>
      obtain ⟨head, prev, tail, hchain, hsaved, hundone⟩ := undone_of_overwrites ho
      rw [hundone, hchain, hsaved]
      rfl
  · rw [undoneAll, if_neg htouched, restore_of_not_touched htouched]

/-- Locks may be preserved on records the next savepoint has not changed, or of which it and those
    below it have the data. -/
def MayPreserve (s : Savepoint) (rest : List Savepoint) : Prop :=
  ∀ next ∈ rest.head?, ∀ relation number, Touched s.actions relation number →
    undoItem s.actions relation number = none → Touched next.actions relation number → SavedBy rest relation number

theorem restore_takesOver {actions' : List VerbAction} (hwf : WfUndo actions)
    (htakes : TakesOver taken actions actions')
    (htaken : ∀ relation number, taken relation number → ¬Touched actions relation number →
      ∃ head, chains' relation number = head :: chains relation number)
    (hother : ∀ relation number, ¬taken relation number ∨ Touched actions relation number →
      chains' relation number = chains relation number) :
    restore space chains' actions' = restore space chains actions := by
  funext relation number
  have hsaved : savedData space actions' relation number = savedData space actions relation number := by
    rw [savedData, htakes.undoItem, savedData]
  by_cases htouched : Touched actions relation number
  · rw [restore_of_touched htouched, restore_of_touched ((htakes.touched ..).mpr (.inl htouched)), hsaved,
      hother relation number (.inr htouched)]
  · rw [restore_of_not_touched htouched]
    by_cases h : taken relation number
    · obtain ⟨head, hchain⟩ := htaken relation number h htouched
      have hnone : savedData space actions relation number = none := by
        rw [savedData, undoItem_none_of_not_touched hwf htouched]
        rfl
      rw [restore_of_touched ((htakes.touched ..).mpr (.inr h)), hsaved, hnone, hchain]
      rfl
    · have hnot : ¬Touched actions' relation number := fun hmem => ((htakes.touched ..).mp hmem).elim htouched h
      rw [restore_of_not_touched hnot, hother relation number (.inl h)]

theorem undoneAll_of_not_preserved (h : ¬Preserved preserveLocks space actions chains relation number) :
    undoneAll preserveLocks space actions chains relation number = restore space chains actions relation number := by
  by_cases htouched : Touched actions relation number
  · rw [undoneAll, if_pos htouched, restore_of_touched htouched]
    exact undone_of_not_overwrites (by simpa using fun ho => h ⟨htouched, ho⟩)
  · rw [undoneAll, if_neg htouched, restore_of_not_touched htouched]

theorem undoneAll_of_preserved (hwf : WfActions us chains actions)
    (h : Preserved preserveLocks space actions chains relation number) :
    savedData space actions relation number = none ∧ ∃ prev tail,
      restore space chains actions relation number = prev :: tail ∧
      undoneAll preserveLocks space actions chains relation number = { prev with transaction := us } ::
      prev :: tail := by
  obtain ⟨htouched, ho⟩ := h
  obtain ⟨head, prev, tail, hchain, hsaved, hundone⟩ := undone_of_overwrites ho
  obtain ⟨head', tail', hours, htransaction⟩ := hwf.ours relation number htouched
  rw [hchain] at hours
  cases hours
  refine ⟨hsaved, prev, tail, ?_, ?_⟩
  · rw [restore_of_touched htouched, hchain, hsaved]
    rfl
  · rw [undoneAll, if_pos htouched, hundone, ← htransaction]

theorem undoItem_none_of_savedData (hsaved : ∀ offset ∈ heldActions actions, (space.data offset).isSome)
    (h : savedData space actions relation number = none) : undoItem actions relation number = none := by
  cases hitem : undoItem actions relation number with
  | none => rfl
  | some item =>
    have hsome := hsaved item.offset (mem_held_of_undoItem hitem)
    rw [savedData] at h
    simp_all

def undoneShared (preserveLocks : Bool) (space : UndoSpace) (actions next : List VerbAction)
    (chains : Chains) : Chains :=
  fun relation number =>
    if Touched next relation number then undoneAll preserveLocks space actions chains relation number
    else restore space chains actions relation number

theorem undoneShared_of_touched {next : List VerbAction} (h : Touched next relation number) :
    undoneShared preserveLocks space actions next chains relation number =
      undoneAll preserveLocks space actions chains relation number := if_pos h

theorem undoneShared_of_not_touched {next : List VerbAction} (h : ¬Touched next relation number) :
    undoneShared preserveLocks space actions next chains relation number =
      restore space chains actions relation number := if_neg h

theorem alike_undoneShared (hwf : WfActions us chains s.actions)
    (hnext : WfActions us (restore space chains s.actions) next.actions)
    (hsaved : ∀ offset ∈ heldActions s.actions, (space.data offset).isSome)
    (hmay : preserveLocks = true → MayPreserve s (next :: rest)) :
    Alike (next :: rest) (restore space chains s.actions)
      (undoneShared preserveLocks space s.actions next.actions chains) := by
  intro relation number
  by_cases htouched : Touched next.actions relation number
  · rw [undoneShared_of_touched htouched]
    by_cases hpreserved : Preserved preserveLocks space s.actions chains relation number
    · obtain ⟨hnone, prev, tail, hrestored, hundone⟩ := undoneAll_of_preserved hwf hpreserved
      obtain ⟨head, tail', hours, htransaction⟩ := hnext.ours relation number htouched
      rw [hrestored] at hours
      cases hours
      -- the version below is ours too, and has all the content: the version left is the same
      have hsame : ({ prev with transaction := us } : RecordVersion) = prev := by rw [← htransaction]
      have hshared := hmay (overwrites_preserveLocks hpreserved.2) next rfl relation number hpreserved.1
        (undoItem_none_of_savedData hsaved hnone) htouched
      exact .inr ⟨hshared, prev, tail, prev :: tail, hrestored, hsame ▸ hundone⟩
    · exact .inl (undoneAll_of_not_preserved hpreserved)
  · exact .inl (undoneShared_of_not_touched htouched)

/-- The savepoints below a savepoint that is rolled back still restore the contents of their starts. -/
theorem StackOk.rolledBack (h : StackOk us space chains (s :: rest))
    (hspace : SpaceOk space (heldActions s.actions ++ held rest)) (hmay : preserveLocks = true → MayPreserve s rest)
    (hreleased : ReleasedFrom space space' (heldActions s.actions))
    (htakes : RestTakes (Preserved preserveLocks space s.actions chains) rest rest') :
    StackOk us space' (undoneAll preserveLocks space s.actions chains) rest' ∧ SpaceOk space' (held rest') := by
  obtain ⟨hwf, -, hrest⟩ := h
  cases rest with
  | nil =>
    cases htakes
    exact ⟨trivial, hspace.released hreleased⟩
  | cons next below =>
    obtain ⟨actions', rfl, htakes⟩ := htakes
    have hdata := hspace.data_of_released hreleased
    have hsaved : ∀ offset ∈ heldActions s.actions ++ held (next :: below), (space.data offset).isSome :=
      fun offset hmem => (hspace.allocated offset).mpr hmem
    have hshared := hrest.alike (fun offset hmem => hsaved offset (mem_append_right _ hmem))
      (alike_undoneShared hwf hrest.1 (fun offset hmem => hsaved offset (mem_append_left _ hmem)) hmay)
    have hother : ∀ relation number, ¬Preserved preserveLocks space s.actions chains relation number ∨
        Touched next.actions relation number → undoneAll preserveLocks space s.actions chains relation number =
          undoneShared preserveLocks space s.actions next.actions chains relation number := by
      intro relation number h
      by_cases htouched : Touched next.actions relation number
      · exact (undoneShared_of_touched htouched).symm
      · rw [undoneShared_of_not_touched htouched, undoneAll_of_not_preserved (h.resolve_right htouched)]
    refine ⟨?_, (hspace.released hreleased).perm ?_⟩
    · refine hshared.replace_top
        ⟨htakes.wf, fun relation number htouched => ?_⟩ rfl ?_
        fun offset hmem => hdata offset (held_cons .. ▸ mem_append_right _ hmem)
      · by_cases hpreserved : Preserved preserveLocks space s.actions chains relation number
        · obtain ⟨-, prev, tail, -, hundone⟩ := undoneAll_of_preserved hwf hpreserved
          exact ⟨_, _, hundone, rfl⟩
        · have hnext := ((htakes.touched relation number).mp htouched).resolve_right hpreserved
          rw [hother relation number (.inr hnext)]
          exact hshared.1.ours relation number hnext
      · have hcongr : ∀ offset ∈ heldActions actions', space'.data offset = space.data offset := fun offset hmem =>
          hdata offset (held_cons .. ▸ mem_append_left _ (htakes.held.mem_iff.mp hmem))
        rw [restore_congr hcongr]
        refine restore_takesOver hrest.1.toWfUndo htakes (fun relation number hpreserved hnext => ?_) hother
        obtain ⟨-, prev, tail, hrestored, hundone⟩ := undoneAll_of_preserved hwf hpreserved
        exact ⟨_, by rw [undoneShared_of_not_touched hnext, hrestored, hundone]⟩
    · exact htakes.held.append_right _

theorem RestTakes.contentAtStart
    (h : RestTakes taken rest rest') : rest'.map (·.contentAtStart) = rest.map (·.contentAtStart) := by
  cases rest with
  | nil =>
    cases h
    rfl
  | cons next below =>
    obtain ⟨actions, rfl, -⟩ := h
    rfl

theorem rollback_spec (preserveLocks : Bool) (h : Inv t) (hs : t.savepoints = s :: rest)
    (hmay : preserveLocks = true → MayPreserve s rest) : ∃ t', rollback t preserveLocks = .ok t' ∧ Inv t' ∧
      (∀ relation number, content (t'.chains relation number) = s.contentAtStart relation number) ∧
      t'.savepoints.map (·.contentAtStart) = rest.map (·.contentAtStart) := by
  have hstack := h.stack
  have hspace := h.space
  rw [hs] at hstack hspace
  have hbelow : WfBelow rest := fun next hnext => by
    cases rest with
    | nil => cases hnext
    | cons q below =>
      cases hnext
      exact hstack.2.2.1.toWfUndo
  obtain ⟨space', rest', hundo, hreleased, htakes⟩ :=
    undoActions_spec preserveLocks hstack.1 hbelow hspace
  obtain ⟨hstack', hspace'⟩ := hstack.rolledBack hspace hmay hreleased htakes
  refine ⟨{ t with
    chains := undoneAll preserveLocks t.undoSpace s.actions t.chains, undoSpace := space', savepoints := rest' },
    ?_, ⟨hstack', hspace'⟩, fun relation number => ?_, htakes.contentAtStart⟩
  · simp only [rollback, hs, hundo]
  · exact (content_undoneAll ..).trans (hstack.2.1 relation number)

end Firebird.Undo
