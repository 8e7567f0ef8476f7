import Firebird.Lib.Run

/-! # Local temporary tables under savepoints

The local temporary tables of an attachment and the undo items that savepoints keep for them (`src/jrd/Savepoint.cpp`;
the statements are in `src/dsql/DdlNodes.epp`). -/

namespace Firebird.Undo.Ltt

open List Function

variable {ν δ : Type*}

/-- `LTT_UNDO_CREATE`, `LTT_UNDO_ALTER` and `LTT_UNDO_DROP`, with the original state of the table. -/
inductive UndoType (δ : Type*)
  | create
  | alter (original : δ)
  | drop (original : δ)

structure LttUndoItem (ν δ : Type*) where
  type : UndoType δ
  name : ν

structure Savepoint (ν δ : Type*) where
  root : Bool
  lttActions : List (LttUndoItem ν δ)

/-- The tables of the attachment, and the savepoints of the transaction, the current one first. -/
structure State (ν δ : Type*) where
  lttMap : ν → Option δ
  savepoints : List (Savepoint ν δ)

inductive LttError
  | tableExists | tableNotFound | noSavepoint

variable [DecidableEq ν]

def undoItem (lttMap : ν → Option δ) (item : LttUndoItem ν δ) : ν → Option δ :=
  match item.type with
  | .create => if (lttMap item.name).isSome then update lttMap item.name none else lttMap
  | .alter original => if (lttMap item.name).isSome then update lttMap item.name (some original) else lttMap
  | .drop original => if (lttMap item.name).isSome then lttMap else update lttMap item.name (some original)

/-- Move one item of a released savepoint to its parent; the parent's newest item for the same table decides. -/
def mergeItem (parent : List (LttUndoItem ν δ)) (item : LttUndoItem ν δ) : List (LttUndoItem ν δ) :=
  match parent.find? fun p => p.name = item.name with
  | none => item :: parent
  | some parentItem =>
    match item.type, parentItem.type with
    -- CREATE followed by DROP: they cancel out
    | .drop _, .create => parent.eraseP fun p => p.name = item.name
    -- ALTER followed by DROP: replace the parent's ALTER
    | .drop _, .alter _ => item :: parent.eraseP fun p => p.name = item.name
    -- DROP followed by CREATE: keep both
    | .create, .drop _ => item :: parent
    -- keep the parent's, the oldest state
    | _, _ => parent

def rollback (s : State ν δ) : Except LttError (State ν δ) :=
  match s.savepoints with
  | [] => .error .noSavepoint
  | top :: rest => .ok { lttMap := top.lttActions.foldl undoItem s.lttMap, savepoints := rest }

/-- Release the current savepoint. When it is large and directly in the transaction-level savepoint, that one
    is thrown away with it. -/
def rollforward (s : State ν δ) (isLarge : Bool) : Except LttError (State ν δ) :=
  match s.savepoints with
  | [] => .error .noSavepoint
  | [_] => .ok { s with savepoints := [] }
  | top :: next :: rest =>
    if next.root && isLarge then .ok { s with savepoints := [] }
    else .ok { s with savepoints := { next with lttActions := top.lttActions.foldl mergeItem next.lttActions } :: rest }

def createLttAction (s : State ν δ) (item : LttUndoItem ν δ) : Except LttError (State ν δ) :=
  match s.savepoints with
  | [] => .error .noSavepoint
  | top :: rest => .ok { s with savepoints := { top with lttActions := item :: top.lttActions } :: rest }

def createTable (s : State ν δ) (name : ν) (ltt : δ) : Except LttError (State ν δ) :=
  match s.lttMap name with
  | some _ => .error .tableExists
  | none => createLttAction { s with lttMap := update s.lttMap name (some ltt) } ⟨.create, name⟩

def alterTable (s : State ν δ) (name : ν) (ltt : δ) : Except LttError (State ν δ) :=
  match s.lttMap name with
  | none => .error .tableNotFound
  | some original => createLttAction { s with lttMap := update s.lttMap name (some ltt) } ⟨.alter original, name⟩

def dropTable (s : State ν δ) (name : ν) : Except LttError (State ν δ) :=
  match s.lttMap name with
  | none => .error .tableNotFound
  | some original => createLttAction { s with lttMap := update s.lttMap name none } ⟨.drop original, name⟩

inductive Op (ν δ : Type*)
  | start
  | create (name : ν) (ltt : δ)
  | alter (name : ν) (ltt : δ)
  | drop (name : ν)
  | release (isLarge : Bool)
  | rollback

def exec (s : State ν δ) : Op ν δ → Except LttError (State ν δ)
  | .start => .ok { s with savepoints := { root := false, lttActions := [] } :: s.savepoints }
  | .create name ltt => createTable s name ltt
  | .alter name ltt => alterTable s name ltt
  | .drop name => dropTable s name
  | .release isLarge => rollforward s isLarge
  | .rollback => rollback s

def State.begin (lttMap : ν → Option δ) : State ν δ := { lttMap, savepoints := [{ root := true, lttActions := [] }] }

structure Snapshots (ν δ : Type*) where
  lttMap : ν → Option δ
  starts : List (ν → Option δ)

namespace Snapshots

def exec (a : Snapshots ν δ) : Op ν δ → Snapshots ν δ
  | .start => { a with starts := a.lttMap :: a.starts }
  | .create name ltt => { a with lttMap := update a.lttMap name (some ltt) }
  | .alter name ltt => { a with lttMap := update a.lttMap name (some ltt) }
  | .drop name => { a with lttMap := update a.lttMap name none }
  | .release _ => { a with starts := a.starts.tail }
  | .rollback => { lttMap := a.starts.headD a.lttMap, starts := a.starts.tail }

def begin (lttMap : ν → Option δ) : Snapshots ν δ := { lttMap, starts := [lttMap] }

end Snapshots

def typesFor (name : ν) (items : List (LttUndoItem ν δ)) : List (UndoType δ) :=
  (items.filter fun item => item.name = name).map (·.type)

def undoType (ltt : Option δ) : UndoType δ → Option δ
  | .create => none
  | .alter original => if ltt.isSome then some original else none
  | .drop original => if ltt.isSome then ltt else some original

def mergeType (parent : List (UndoType δ)) (type : UndoType δ) : List (UndoType δ) :=
  match type, parent with
  | type, [] => [type]
  | .drop _, .create :: rest => rest
  | .drop original, .alter _ :: rest => .drop original :: rest
  | .create, .drop original :: rest => .create :: .drop original :: rest
  | _, parent => parent

variable {name : ν} {item : LttUndoItem ν δ} {items parent : List (LttUndoItem ν δ)} {lttMap : ν → Option δ}

theorem typesFor_cons_self (h : item.name = name) (items : List (LttUndoItem ν δ)) :
    typesFor name (item :: items) = item.type :: typesFor name items := by
  simp [typesFor, h]

theorem typesFor_cons_of_ne (h : item.name ≠ name) (items : List (LttUndoItem ν δ)) :
    typesFor name (item :: items) = typesFor name items := by
  simp [typesFor, h]

theorem undoItem_self (h : item.name = name) : undoItem lttMap item name = undoType (lttMap name) item.type := by
  subst h
  obtain ⟨type, name⟩ := item
  cases hltt : lttMap name <;> cases type <;> simp [undoItem, undoType, hltt]

theorem undoItem_of_ne (h : item.name ≠ name) : undoItem lttMap item name = lttMap name := by
  obtain ⟨type, name'⟩ := item
  have hne : name ≠ name' := Ne.symm h
  cases hltt : lttMap name' <;> cases type <;> simp [undoItem, hltt, update_of_ne hne]

theorem foldl_undoItem (items : List (LttUndoItem ν δ)) (lttMap : ν → Option δ) (name : ν) :
    items.foldl undoItem lttMap name = (typesFor name items).foldl undoType (lttMap name) := by
  induction items generalizing lttMap with
  | nil => rfl
  | cons item items ih =>
    rw [foldl_cons, ih]
    by_cases h : item.name = name
    · rw [typesFor_cons_self h, foldl_cons, undoItem_self h]
    · rw [typesFor_cons_of_ne h, undoItem_of_ne h]

theorem typesFor_find? (parent : List (LttUndoItem ν δ)) (name : ν) :
    (parent.find? (fun p => p.name = name) = none ∧ typesFor name parent = []) ∨
      ∃ p, parent.find? (fun p => p.name = name) = some p ∧
        typesFor name parent = p.type :: typesFor name (parent.eraseP fun p => p.name = name) := by
  induction parent with
  | nil => exact .inl ⟨rfl, rfl⟩
  | cons p parent ih =>
    by_cases h : p.name = name
    · exact .inr ⟨p, by simp [h], by simp [h, typesFor_cons_self h]⟩
    · rw [typesFor_cons_of_ne h]
      rcases ih with ⟨hnone, hnil⟩ | ⟨q, hsome, hcons⟩
      · exact .inl ⟨by simpa [h] using hnone, hnil⟩
      · exact .inr ⟨q, by simpa [h] using hsome, by simpa [h, typesFor_cons_of_ne h] using hcons⟩

theorem typesFor_eraseP_of_ne {other : ν} (h : other ≠ name) (parent : List (LttUndoItem ν δ)) :
    typesFor name (parent.eraseP fun p => p.name = other) = typesFor name parent := by
  induction parent with
  | nil => rfl
  | cons p parent ih =>
    by_cases hp : p.name = other
    · rw [eraseP_cons_of_pos (by simpa using hp), typesFor_cons_of_ne (hp ▸ h)]
    · rw [eraseP_cons_of_neg (by simpa using hp)]
      by_cases hn : p.name = name
      · rw [typesFor_cons_self hn, typesFor_cons_self hn, ih]
      · rw [typesFor_cons_of_ne hn, typesFor_cons_of_ne hn, ih]

theorem typesFor_mergeItem_self (h : item.name = name) :
    typesFor name (mergeItem parent item) = mergeType (typesFor name parent) item.type := by
  obtain ⟨type, name'⟩ := item
  obtain rfl : name' = name := h
  rcases typesFor_find? parent name' with ⟨hnone, hnil⟩ | ⟨p, hsome, hcons⟩
  · simp only [mergeItem, hnone, hnil, mergeType]
    exact (typesFor_cons_self rfl parent).trans (congrArg (type :: ·) hnil)
  · rw [mergeItem]
    simp only [hsome]
    cases type <;> cases hp : p.type <;> simp only [mergeType, typesFor_cons_self, hcons, hp]

theorem typesFor_mergeItem_of_ne (h : item.name ≠ name) : typesFor name (mergeItem parent item) =
    typesFor name parent := by
  rw [mergeItem]
  cases hfind : parent.find? fun p => p.name = item.name with
  | none => exact typesFor_cons_of_ne h parent
  | some p =>
    obtain ⟨type, name'⟩ := item
    cases type <;> cases hp : p.type <;>
      simp only [hp, typesFor_eraseP_of_ne h, typesFor_cons_of_ne h]

theorem typesFor_foldl_mergeItem (items parent : List (LttUndoItem ν δ)) (name : ν) :
    typesFor name (items.foldl mergeItem parent) = (typesFor name items).foldl mergeType (typesFor name parent) := by
  induction items generalizing parent with
  | nil => rfl
  | cons item items ih =>
    rw [foldl_cons, ih]
    by_cases h : item.name = name
    · rw [typesFor_cons_self h, foldl_cons, typesFor_mergeItem_self h]
    · rw [typesFor_cons_of_ne h, typesFor_mergeItem_of_ne h]

end Firebird.Undo.Ltt
