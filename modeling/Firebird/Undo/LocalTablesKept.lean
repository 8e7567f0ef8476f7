import Firebird.Undo.LocalTables

/-! # Which releases keep the local temporary tables

A savepoint gives back the tables of its start as long as the releases into it are such that the items of the
released savepoint can be merged. -/

namespace Firebird.Undo.Ltt

open Lib Function

variable {ν δ : Type*} {ltt : Option δ} {types inner outer : List (UndoType δ)}

/-- Each item, from the newest on, undoes what has been done to the table. -/
def Fits : Option δ → List (UndoType δ) → Prop
  | _, [] => True
  | ltt, .create :: rest => ltt.isSome = true ∧ Fits none rest
  | ltt, .alter original :: rest => ltt.isSome = true ∧ Fits (some original) rest
  | ltt, .drop original :: rest => ltt = none ∧ Fits (some original) rest

def MergeableTypes (inner outer : List (UndoType δ)) : Prop :=
  inner.length ≤ 1 ∧ ∀ original original', inner = [.drop original] → outer = [.alter original'] → original = original'

theorem undo_drop_of_fits {original original' : δ} (h : Fits (some original') outer) (hne : outer ≠ []) :
    outer.foldl undoType (some original) = outer.foldl undoType (some original') := by
  cases outer with
  | nil => exact absurd rfl hne
  | cons type rest =>
    cases type with
    | create | alter original'' => rfl
    | drop original'' => exact nomatch h.1

theorem fits_some_of_fits {original original' : δ} (h : Fits (some original') outer) : Fits (some original) outer := by
  cases outer with
  | nil => trivial
  | cons type rest =>
    cases type with
    | create | alter original'' => exact ⟨rfl, h.2⟩
    | drop original'' => exact nomatch h.1

/-- One item moves into the list of the outer savepoint: what the table goes back to then. -/
theorem fits_mergeType {type : UndoType δ} (hinner : Fits ltt [type]) (houter : Fits (undoType ltt type) outer) :
    Fits ltt (mergeType outer type) ∧
      ((mergeType outer type).foldl undoType ltt = outer.foldl undoType (undoType ltt type) ↔
        MergeableTypes [type] outer) := by
  cases type with
  | create =>
    have hnone : undoType ltt .create = none := rfl
    have hmergeable : MergeableTypes [.create] outer := ⟨Nat.le_refl 1, by simp⟩
    cases outer with
    | nil => exact ⟨⟨hinner.1, trivial⟩, iff_of_true rfl hmergeable⟩
    | cons type rest =>
      cases type with
      | create | alter original => cases houter.1
      | drop original => exact ⟨⟨hinner.1, houter⟩, iff_of_true rfl hmergeable⟩
  | alter original =>
    obtain ⟨hsome, -⟩ := hinner
    have hback : undoType ltt (.alter original) = some original := if_pos hsome
    have hmergeable : MergeableTypes [.alter original] outer := ⟨Nat.le_refl 1, by simp⟩
    rw [hback] at houter ⊢
    cases outer with
    | nil => exact ⟨⟨hsome, trivial⟩, iff_of_true hback hmergeable⟩
    | cons type rest =>
      cases type with
      | create => exact ⟨⟨hsome, houter.2⟩, iff_of_true rfl hmergeable⟩
      | alter original' =>
        refine ⟨⟨hsome, houter.2⟩, iff_of_true ?_ hmergeable⟩
        simp [mergeType, undoType, hsome]
      | drop original' => cases houter.1
  | drop original =>
    obtain ⟨rfl, -⟩ := hinner
    have hback : undoType none (.drop original) = some original := rfl
    cases outer with
    | nil => exact ⟨⟨rfl, trivial⟩, iff_of_true rfl ⟨Nat.le_refl 1, by simp⟩⟩
    | cons type rest =>
      cases type with
      | create => exact ⟨houter.2, iff_of_true rfl ⟨Nat.le_refl 1, by simp⟩⟩
      | drop original' => cases houter.1
      | alter original' =>
        refine ⟨⟨rfl, fits_some_of_fits houter.2⟩, ?_⟩
        by_cases hrest : rest = []
        · subst hrest
          constructor
          · intro heq
            refine ⟨Nat.le_refl 1, fun d d' hd hd' => ?_⟩
            cases hd
            cases hd'
            exact Option.some.inj heq
          · intro h
            exact congrArg some (h.2 original original' rfl rfl)
        · refine iff_of_true (undo_drop_of_fits houter.2 hrest) ⟨Nat.le_refl 1, fun d d' _ hd' => ?_⟩
          exact absurd (List.cons.inj hd').2 hrest

theorem fits_cons {type : UndoType δ} : Fits ltt (type :: types) ↔ Fits ltt [type] ∧
    Fits (undoType ltt type) types := by
  cases type with
  | create => exact ⟨fun h => ⟨⟨h.1, trivial⟩, h.2⟩, fun h => ⟨h.1.1, h.2⟩⟩
  | alter original =>
    constructor
    · rintro ⟨hsome, hrest⟩
      exact ⟨⟨hsome, trivial⟩, by rwa [undoType, if_pos hsome]⟩
    · rintro ⟨⟨hsome, -⟩, hrest⟩
      exact ⟨hsome, by rwa [undoType, if_pos hsome] at hrest⟩
  | drop original =>
    constructor
    · rintro ⟨rfl, hrest⟩
      exact ⟨⟨rfl, trivial⟩, hrest⟩
    · rintro ⟨⟨rfl, -⟩, hrest⟩
      exact ⟨rfl, hrest⟩

theorem fits_foldl_mergeType (hsingle : inner.length ≤ 1) (hinner : Fits ltt inner)
    (houter : Fits (inner.foldl undoType ltt) outer) :
    Fits ltt (inner.foldl mergeType outer) ∧
      ((inner.foldl mergeType outer).foldl undoType ltt = outer.foldl undoType (inner.foldl undoType ltt) ↔
        MergeableTypes inner outer) := by
  match inner, hsingle with
  | [], _ => exact ⟨houter, iff_of_true rfl ⟨Nat.zero_le 1, nofun⟩⟩
  | [type], _ => exact fits_mergeType hinner houter

/-! ### Nested savepoints -/

variable [DecidableEq ν] {lttMap : ν → Option δ} {s t : State ν δ} {a : Snapshots ν δ}
  {op : Op ν δ} {ops : List (Op ν δ)}
  {top next : Savepoint ν δ} {rest : List (Savepoint ν δ)} {start : ν → Option δ} {starts : List (ν → Option δ)}

/-- Undoing savepoint after savepoint gives the tables of their starts. -/
def Stack : (ν → Option δ) → List (Savepoint ν δ) → List (ν → Option δ) → Prop
  | _, [], [] => True
  | lttMap, top :: rest, start :: starts =>
    (∀ name, Fits (lttMap name) (typesFor name top.lttActions)) ∧ top.lttActions.foldl undoItem lttMap = start ∧
      Stack start rest starts
  | _, _, _ => False

/-- The savepoints do for the tables what snapshots of them would do. -/
structure Kept (s : State ν δ) (a : Snapshots ν δ) : Prop where
  lttMap : s.lttMap = a.lttMap
  stack : Stack s.lttMap s.savepoints a.starts

/-- What a release needs: the outer savepoint is not thrown away, and the items of each table can be merged. -/
def Mergeable (s : State ν δ) : Op ν δ → Prop
  | .release isLarge => ∀ top next rest, s.savepoints = top :: next :: rest → (next.root && isLarge) = false ∧
      ∀ name, MergeableTypes (typesFor name top.lttActions) (typesFor name next.lttActions)
  | _ => True

theorem kept_begin (lttMap : ν → Option δ) : Kept (.begin lttMap) (.begin lttMap) :=
  ⟨rfl, fun _ => trivial, rfl, trivial⟩

theorem stack_post {lttMap' : ν → Option δ} {item : LttUndoItem ν δ} (h : Stack lttMap (top :: rest) starts)
    (hundo : undoItem lttMap' item = lttMap) (hfits : Fits (lttMap' item.name) [item.type]) :
    Stack lttMap' ({ top with lttActions := item :: top.lttActions } :: rest) starts := by
  cases starts with
  | nil => exact h.elim
  | cons start starts =>
    obtain ⟨htop, hback, hrest⟩ := h
    refine ⟨fun name => ?_, ?_, hrest⟩
    · by_cases hname : item.name = name
      · subst hname
        have hself : undoType (lttMap' item.name) item.type = lttMap item.name := by rw [← hundo, undoItem_self rfl]
        rw [typesFor_cons_self rfl, fits_cons, hself]
        exact ⟨hfits, htop item.name⟩
      · have hother : lttMap' name = lttMap name := by rw [← hundo, undoItem_of_ne hname]
        rw [typesFor_cons_of_ne hname, hother]
        exact htop name
    · rw [List.foldl_cons, hundo]
      exact hback

theorem kept_createLttAction {lttMap' : ν → Option δ} {item : LttUndoItem ν δ} (h : Kept s a)
    (hundo : undoItem lttMap' item = s.lttMap) (hfits : Fits (lttMap' item.name) [item.type])
    (hpost : createLttAction { s with lttMap := lttMap' } item = .ok t) : Kept t { a with lttMap := lttMap' } := by
  cases hstack : s.savepoints with
  | nil =>
    rw [hstack] at hpost
    cases hpost
  | cons top rest =>
    rw [hstack] at hpost
    cases hpost
    exact ⟨rfl, stack_post (hstack ▸ h.stack) hundo hfits⟩

theorem undoItem_update {type : UndoType δ} {name : ν} {ltt : Option δ} (hback : undoType ltt type = lttMap name) :
    undoItem (update lttMap name ltt) ⟨type, name⟩ = lttMap := by
  funext other
  by_cases h : name = other
  · subst h
    rw [undoItem_self rfl, update_self, hback]
  · rw [undoItem_of_ne h, update_of_ne (Ne.symm h)]

theorem release_spec (h : Stack lttMap (top :: next :: rest) (start :: starts))
    (hsingle : ∀ name, (typesFor name top.lttActions).length ≤ 1) :
    (∀ name, Fits (lttMap name) (typesFor name (top.lttActions.foldl mergeItem next.lttActions))) ∧
      ((top.lttActions.foldl mergeItem next.lttActions).foldl undoItem lttMap = next.lttActions.foldl undoItem start ↔
        ∀ name, MergeableTypes (typesFor name top.lttActions) (typesFor name next.lttActions)) := by
  obtain ⟨htop, rfl, hrest⟩ := h
  have hnext : ∀ name, Fits ((typesFor name top.lttActions).foldl undoType (lttMap name))
      (typesFor name next.lttActions) := by
    intro name
    rw [← foldl_undoItem]
    cases starts with
    | nil => exact hrest.elim
    | cons => exact hrest.1 name
  have hname := fun name => fits_foldl_mergeType (hsingle name) (htop name) (hnext name)
  refine ⟨fun name => ?_, ?_⟩
  · rw [typesFor_foldl_mergeItem]
    exact (hname name).1
  · rw [funext_iff]
    refine forall_congr' fun name => ?_
    rw [foldl_undoItem, foldl_undoItem, typesFor_foldl_mergeItem, foldl_undoItem]
    exact (hname name).2

theorem exec_kept (h : Kept s a) (hmergeable : Mergeable s op) (hexec : exec s op = .ok t) : Kept t (a.exec op) := by
  cases op with
  | start =>
    cases hexec
    exact ⟨h.lttMap, fun _ => trivial, h.lttMap, h.lttMap ▸ h.stack⟩
  | create name ltt =>
    simp only [exec, createTable] at hexec
    cases hltt : s.lttMap name with
    | some ltt' =>
      rw [hltt] at hexec
      cases hexec
    | none =>
      rw [hltt] at hexec
      have hundo : undoItem (update s.lttMap name (some ltt)) ⟨.create, name⟩ = s.lttMap := undoItem_update hltt.symm
      have hfits : Fits (update s.lttMap name (some ltt) name) [.create] := ⟨by simp, trivial⟩
      have hkept := kept_createLttAction h hundo hfits hexec
      rwa [h.lttMap] at hkept
  | alter name ltt =>
    simp only [exec, alterTable] at hexec
    cases hltt : s.lttMap name with
    | none =>
      rw [hltt] at hexec
      cases hexec
    | some original =>
      rw [hltt] at hexec
      have hundo : undoItem (update s.lttMap name (some ltt)) ⟨.alter original, name⟩ = s.lttMap :=
        undoItem_update hltt.symm
      have hfits : Fits (update s.lttMap name (some ltt) name) [.alter original] := ⟨by simp, trivial⟩
      have hkept := kept_createLttAction h hundo hfits hexec
      rwa [h.lttMap] at hkept
  | drop name =>
    simp only [exec, dropTable] at hexec
    cases hltt : s.lttMap name with
    | none =>
      rw [hltt] at hexec
      cases hexec
    | some original =>
      rw [hltt] at hexec
      have hundo : undoItem (update s.lttMap name none) ⟨.drop original, name⟩ = s.lttMap := undoItem_update hltt.symm
      have hfits : Fits (update s.lttMap name none name) [.drop original] := ⟨by simp, trivial⟩
      have hkept := kept_createLttAction h hundo hfits hexec
      rwa [h.lttMap] at hkept
  | release isLarge =>
    obtain ⟨lttMap, savepoints⟩ := s
    obtain ⟨amap, starts⟩ := a
    obtain ⟨hmap, hstack⟩ := h
    match savepoints, starts, hstack with
    | [], _, _ => cases hexec
    | [_], [start], _ =>
      cases hexec
      exact ⟨hmap, trivial⟩
    | [_], _ :: _ :: _, hstack | top :: next :: rest, [_], hstack => exact hstack.2.2.elim
    | top :: next :: rest, start :: start' :: starts, hstack =>
      obtain ⟨hlarge, htypes⟩ := hmergeable top next rest rfl
      simp only [exec, rollforward, hlarge, Bool.false_eq_true, if_false] at hexec
      cases hexec
      obtain ⟨hfits, hback⟩ := release_spec hstack fun name => (htypes name).1
      obtain ⟨-, -, -, hnext, hrest⟩ := hstack
      exact ⟨hmap, hfits, (hback.mpr htypes).trans hnext, hrest⟩
  | rollback =>
    obtain ⟨lttMap, savepoints⟩ := s
    obtain ⟨amap, starts⟩ := a
    obtain ⟨hmap, hstack⟩ := h
    match savepoints, starts, hstack with
    | [], _, _ => cases hexec
    | top :: rest, start :: starts, hstack =>
      cases hexec
      obtain ⟨-, hback, hrest⟩ := hstack
      refine ⟨hback, ?_⟩
      simp only [hback]
      exact hrest

theorem run_kept (hrun : Run (Steps Mergeable exec) s ops t) (h : Kept s a) : Kept t (ops.foldl Snapshots.exec a) := by
  induction hrun generalizing a with
  | nil => exact h
  | cons hstep _ ih => exact ih (exec_kept h hstep.1 hstep.2)

def releaseAndRollback (s : State ν δ) (isLarge : Bool) : Except LttError (ν → Option δ) := do
  let s ← rollforward s isLarge
  let s ← rollback s
  return s.lttMap

def rollbackBoth (s : State ν δ) : Except LttError (ν → Option δ) := do
  let s ← rollback s
  let s ← rollback s
  return s.lttMap

/-- In a run whose releases can all be merged every rollback gives back the tables of the start of its savepoint. -/
theorem tables_restored {lttMap : ν → Option δ} (hrun : Run (Steps Mergeable exec) (.begin lttMap) ops t) :
    t.lttMap = (ops.foldl Snapshots.exec (.begin lttMap)).lttMap ∧
      ∀ isLarge top next rest, t.savepoints = top :: next :: rest → (next.root && isLarge) = false →
        (∀ name, (typesFor name top.lttActions).length ≤ 1) →
        (releaseAndRollback t isLarge = rollbackBoth t ↔ Mergeable t (.release isLarge)) := by
  have hkept := run_kept hrun (kept_begin lttMap)
  generalize ops.foldl Snapshots.exec (.begin lttMap) = a at hkept
  refine ⟨hkept.lttMap, ?_⟩
  intro isLarge top next rest hsavepoints hlarge hsingle
  obtain ⟨map, savepoints⟩ := t
  obtain ⟨amap, starts⟩ := a
  obtain ⟨-, hstack⟩ := hkept
  obtain rfl : savepoints = _ := hsavepoints
  cases starts with
  | nil => exact hstack.elim
  | cons start starts =>
    have hspec := (release_spec hstack hsingle).2
    obtain ⟨-, rfl, -⟩ := hstack
    have hrelease : releaseAndRollback ⟨map, top :: next :: rest⟩ isLarge =
        .ok ((top.lttActions.foldl mergeItem next.lttActions).foldl undoItem map) := by
      simp only [releaseAndRollback, rollforward, hlarge, Bool.false_eq_true, if_false]
      rfl
    have hboth : rollbackBoth ⟨map, top :: next :: rest⟩ =
        .ok (next.lttActions.foldl undoItem (top.lttActions.foldl undoItem map)) := rfl
    rw [hrelease, hboth, Except.ok.injEq, hspec]
    constructor
    · intro htypes top' next' rest' heq
      cases heq
      exact ⟨hlarge, htypes⟩
    · intro hmergeable
      exact (hmergeable top next rest rfl).2

theorem tables_restored_alter : ∃ t : State Nat Nat,
    t.lttMap = (([.start, .create 7 1, .start, .alter 7 2, .release false, .rollback] : List (Op Nat Nat)).foldl
      Snapshots.exec (.begin fun _ => none)).lttMap ∧ t.lttMap 7 = none := by
  have hrun : ∃ t : State Nat Nat, Run (Steps Mergeable exec) (.begin fun _ => none)
      [.start, .create 7 1, .start, .alter 7 2, .release false, .rollback] t := by
    refine ⟨_, .cons ⟨trivial, rfl⟩ (.cons ⟨trivial, rfl⟩ (.cons ⟨trivial, rfl⟩ (.cons ⟨trivial, rfl⟩
      (.cons ⟨?_, rfl⟩ (.cons ⟨trivial, rfl⟩ (.nil _))))))⟩
    intro top next rest hsavepoints
    cases hsavepoints
    refine ⟨rfl, fun name => ?_⟩
    by_cases h : 7 = name
    · subst h
      exact ⟨by decide, nofun⟩
    · refine ⟨?_, ?_⟩ <;> simp [typesFor, h]
  obtain ⟨t, hrun⟩ := hrun
  obtain ⟨hmap, -⟩ := tables_restored hrun
  exact ⟨t, hmap, by rw [hmap]; rfl⟩

/-- A table is altered, and dropped by the next statement; rolling back to the start of the savepoint brings it
    back as it was altered. -/
theorem tables_not_restored : ¬∀ (lttMap : Nat → Option Nat) ops t, execAll exec (.begin lttMap) ops = .ok t →
    t.lttMap = (ops.foldl Snapshots.exec (.begin lttMap)).lttMap := by
  intro h
  have htable := h (fun name => if name = 7 then some 1 else none)
    [.start, .start, .alter 7 2, .release false, .start, .drop 7, .release false, .rollback] _ rfl
  exact absurd (congrFun htable 7) (by decide)

end Firebird.Undo.Ltt
