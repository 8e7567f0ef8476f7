import Firebird.Lib.Run
import Firebird.Tree.FastRemove

/-! # A sorted set with a cursor

Seen from outside, a tree is a set of items in the order of their keys, and its default accessor a cursor on it. -/

namespace Firebird.Tree

open List Lib

variable {V K : Type}

/-- A set of items in order, with a cursor that stands on one of them or at no place in particular. -/
inductive CursorSet (V : Type)
  | standing (before : List V) (current : V) (behind : List V)
  | adrift (els : List V)

@[simp]
def CursorSet.els : CursorSet V → List V
  | .standing X v Y => X ++ v :: Y
  | .adrift els => els

inductive Call (V K : Type)
  | add (item : V)
  | locate (lt : LocType) (key : K)
  | getFirst
  | getLast
  | getNext
  | getPrev
  | fastRemove
deriving DecidableEq

def Call.needsPosition : Call V K → Bool
  | .getNext | .getPrev | .fastRemove => true
  | _ => false

variable [LinearOrder K]

/-- What a call returns and does to a set with a cursor. Where nothing is said about the cursor it may stand anywhere.
-/
inductive Does (T : Template V K) : CursorSet V → Call V K × Bool → CursorSet V → Prop
  | addPresent (s : CursorSet V) (X Y : List V) (v item : V) : s.els = X ++ v :: Y → T.keyOfValue v = T.keyOfValue
      item → Does T s (.add item, false) (.standing X v Y)
  | add (s s' : CursorSet V) (X Y : List V) (item : V) : s.els = X ++ Y →
      (∀ x ∈ X, T.keyOfValue x < T.keyOfValue item) →
      (∀ y ∈ Y, T.keyOfValue item < T.keyOfValue y) → s'.els = X ++ item :: Y → Does T s (.add item, true) s'
  | locate (s : CursorSet V) (X Y : List V) (v : V) (lt : LocType) (key : K) : s.els = X ++ v :: Y →
      BePlusTree.Nearest T lt key X v Y → Does T s (.locate lt key, true) (.standing X v Y)
  | locateNone (s s' : CursorSet V) (lt : LocType) (key : K) :
      (∀ v ∈ s.els, ¬BePlusTree.Relates lt (T.keyOfValue v) key) → s'.els = s.els → Does T s (.locate lt key, false) s'
  | getFirst (s : CursorSet V) (v : V) (Y : List V) : s.els = v :: Y → Does T s (.getFirst, true) (.standing [] v Y)
  | getFirstNone (s s' : CursorSet V) : s.els = [] → s'.els = [] → Does T s (.getFirst, false) s'
  | getLast (s : CursorSet V) (X : List V) (v : V) : s.els = X ++ [v] → Does T s (.getLast, true) (.standing X v [])
  | getLastNone (s s' : CursorSet V) : s.els = [] → s'.els = [] → Does T s (.getLast, false) s'
  | getNext (X Y : List V) (v w : V) : Does T (.standing X v (w :: Y)) (.getNext, true) (.standing (X ++ [v]) w Y)
  | getNextEnd (X : List V) (v : V) : Does T (.standing X v []) (.getNext, false) (.standing X v [])
  | getPrev (X Y : List V) (v w : V) : Does T (.standing (X ++ [w]) v Y) (.getPrev, true) (.standing X w (v :: Y))
  | getPrevEnd (Y : List V) (v : V) : Does T (.standing [] v Y) (.getPrev, false) (.standing [] v Y)
  | fastRemove (X Y : List V) (v w : V) : Does T (.standing X v (w :: Y)) (.fastRemove, true) (.standing X w Y)
  | fastRemoveLast (X : List V) (v : V) (s' : CursorSet V) : s'.els = X →
      Does T (.standing X v []) (.fastRemove, false) s'

namespace BePlusTree

variable [Inhabited V] {T : Template V K} {t t' : BePlusTree V} {rows : Nat → List PageId} {s s' : CursorSet V}
  {els X Y : List V} {v : V}

def call (T : Template V K) (t : BePlusTree V) : Call V K → Option (Bool × BePlusTree V)
  | .add item =>
    match t.add T item none with
    | some (.added, t') => some (true, t')
    | some (.present, t') => some (false, t')
    | _ => none
  | .locate lt key =>
    let (result, at_) := t.locate T lt key t.defaultAccessor
    some (result, t.setAccessor at_.curr at_.curPos)
  | .getFirst =>
    let (result, at_) := t.getFirst t.defaultAccessor
    some (result, t.setAccessor at_.curr at_.curPos)
  | .getLast =>
    let (result, at_) := t.getLast t.defaultAccessor
    some (result, t.setAccessor at_.curr at_.curPos)
  | .getNext =>
    let (result, at_) := t.getNext t.defaultAccessor
    some (result, t.setAccessor at_.curr at_.curPos)
  | .getPrev =>
    let (result, at_) := t.getPrev t.defaultAccessor
    some (result, t.setAccessor at_.curr at_.curPos)
  | .fastRemove => t.fastRemove T

/-- The default accessor has a page and stands in front of the end of it. -/
def Positioned (t : BePlusTree V) : Prop :=
  ∃ p, t.defaultAccessor.curr = some p ∧ t.defaultAccessor.curPos < (t.items p).length

omit [Inhabited V] in
theorem positioned_iff : t.Positioned ↔
    (t.defaultAccessor.curr.any fun p => decide (t.defaultAccessor.curPos < (t.items p).length)) = true := by
  rw [Option.any_eq_true, Positioned]
  simp only [decide_eq_true_eq]

instance : Decidable t.Positioned := decidable_of_iff _ positioned_iff.symm

def Performs (T : Template V K) (t : BePlusTree V) (made : Call V K × Bool) (t' : BePlusTree V) : Prop :=
  (made.1.needsPosition = true → t.Positioned) ∧ t.call T made.1 = some (made.2, t')

/-- The tree holds the items of the set, and the default accessor stands where the cursor stands. -/
def Represents (T : Template V K) (t : BePlusTree V) (s : CursorSet V) : Prop :=
  (t.Holds T s.els ∧ t.root = none ∧ t.defaultAccessor.curr = none ∧ s = .adrift []) ∨
    ∃ rows, t.Shape T rows ∧ t.Sheets T (rows 0) s.els ∧ t.Anchored (rows 0) ∧
      match s with
      | .standing X v Y => t.Points (rows 0) t.defaultAccessor X v Y
      | .adrift _ => ¬t.Positioned

omit [LinearOrder K] [Inhabited V] in
theorem Shape.unique {rows' : Nat → List PageId} (hs : t.Shape T rows) (hs' : t.Shape T rows') {k : Nat}
    (hk : k ≤ t.level) : rows k = rows' k := by
  obtain ⟨r, hr, -, htop⟩ := hs.top
  obtain ⟨r', hr', -, htop'⟩ := hs'.top
  cases hr.symm.trans hr'
  induction hk using Nat.decreasingInduction with
  | self => rw [htop, htop']
  | of_succ k hlt ih => rw [← (hs.storey k hlt).holds, ← (hs'.storey k hlt).holds, ih]

omit [Inhabited V] in
theorem Anchored.represents (hs : t.Shape T rows) (hi : t.Sheets T (rows 0) els) (ha : t.Anchored (rows 0)) :
    ∃ s : CursorSet V, s.els = els ∧ t.Represents T s := by
  by_cases hpos : t.Positioned
  · obtain ⟨p, hp, hlt⟩ := hpos
    obtain ⟨A, B, hrow⟩ := append_of_mem (ha p hp)
    have hitems : t.items p = (t.items p).take t.defaultAccessor.curPos ++
        (t.items p)[t.defaultAccessor.curPos] :: (t.items p).drop (t.defaultAccessor.curPos + 1) := by
      rw [← drop_eq_getElem_cons hlt, take_append_drop]
    obtain ⟨X, v, Y, hpoints⟩ : ∃ X v Y, t.Points (rows 0) t.defaultAccessor X v Y := by
      refine ⟨_, _, _, A, p, B, _, _, hrow, hitems, ?_, rfl, rfl⟩
      rw [length_take, min_eq_left hlt.le, ← hp]
    have hels : (CursorSet.standing X v Y).els = els := hpoints.leaves_eq.symm.trans hi.holds
    exact ⟨.standing X v Y, hels, .inr ⟨rows, hs, hels ▸ hi, ha, hpoints⟩⟩
  · exact ⟨.adrift els, rfl, .inr ⟨rows, hs, hi, ha, hpos⟩⟩

omit [Inhabited V] in
theorem Points.represents (hs : t.Shape T rows) (hi : t.Sheets T (rows 0) els)
    (hp : t.Points (rows 0) t.defaultAccessor X v Y) : t.Represents T (.standing X v Y) := by
  have hels : (CursorSet.standing X v Y).els = els := hp.leaves_eq.symm.trans hi.holds
  exact .inr ⟨rows, hs, hels ▸ hi, fun p hcurr => hp.mem p hcurr, hp⟩

/-- What a call on a tree that represents `s` has to come to. -/
def Follows (T : Template V K) (t : BePlusTree V) (s : CursorSet V) (call : Call V K) : Prop :=
  ∃ result t' s', t.call T call = some (result, t') ∧ Does T s (call, result) s' ∧ t'.Represents T s'

omit [Inhabited V] in
theorem Represents.holds (hr : t.Represents T s) : t.Holds T s.els := by
  rcases hr with ⟨hh, -⟩ | ⟨rows, hs, hi, -⟩
  · exact hh
  · exact .inr ⟨rows, hs, hi⟩

omit [Inhabited V] in
theorem Represents.anchored (hr : t.Represents T s) (hs : t.Shape T rows) : t.Anchored (rows 0) := by
  rcases hr with ⟨-, -, hcurr, -⟩ | ⟨rows', hs', -, ha, -⟩
  · exact fun p hp => nomatch hcurr.symm.trans hp
  · rw [hs.unique hs' (Nat.zero_le _)]
    exact ha

omit [Inhabited V] in
theorem represents_moved (hs : t.Shape T rows) (hi : t.Sheets T (rows 0) els) {at_ : Position}
    (hp : t.Points (rows 0) at_ X v Y) : (t.setAccessor at_.curr at_.curPos).Represents T (.standing X v Y) :=
  Points.represents (hs.accessor _ _) (hi.accessor _ _) hp

omit [Inhabited V] in
theorem moved_returns {moved : Bool × Position} {result : Bool} {at_ : Position} (h : moved = (result, at_)) :
    some (moved.1, t.setAccessor moved.2.curr moved.2.curPos) =
      some (result, t.setAccessor at_.curr at_.curPos) := by
  rw [h]

theorem Represents.add (hr : t.Represents T s) (item : V) : t.Follows T s (.add item) := by
  obtain ⟨result, t', hadd, hspec⟩ := add_spec hr.holds item none
  unfold Follows call
  dsimp only
  rw [hadd]
  cases hspec with
  | present rows at_ X v Y hs hi hp hkey =>
    have hels := hi.holds.symm.trans hp.leaves_eq
    exact ⟨false, _, _, rfl, .addPresent s X Y v item hels hkey, represents_moved hs hi hp⟩
  | added t' rows' X Y hels hX hY hs hi haccessor hleaves =>
    have ha : t'.Anchored (rows' 0) := fun p hp => by
      rw [haccessor] at hp
      rcases hleaves with hroot | ⟨rows, hs, hsub⟩
      · rcases hr with ⟨-, -, hcurr, -⟩ | ⟨rows, hs, -⟩
        · exact nomatch hcurr.symm.trans hp
        · obtain ⟨r, hr, -⟩ := hs.top
          exact nomatch hroot.symm.trans hr
      · exact hsub p (hr.anchored hs p hp)
    obtain ⟨s', hs', hr'⟩ := ha.represents hs hi
    exact ⟨true, t', s', rfl, .add s s' X Y item hels hX hY hs', hr'⟩
  | noPage hmemory | undone count s rows' h A m n B recoveryMap hmemory => exact nomatch hmemory

section
variable (hs : t.Shape T rows)
include hs

omit [Inhabited V] [LinearOrder K] in
theorem nextPageAtEnd_mem {leaf : PageId} (hleaf : leaf ∈ rows 0) {pos : Nat} :
    ∀ p, (t.nextPageAtEnd leaf pos).curr = some p → p ∈ rows 0 := by
  intro p hp
  unfold nextPageAtEnd at hp
  split at hp
  · exact (hs.row 0 (Nat.zero_le _)).mem_next hleaf hp
  · cases Option.some.inj hp
    exact hleaf

omit [Inhabited V] [LinearOrder K] in
theorem stepBack_mem {leaf : PageId} (hleaf : leaf ∈ rows 0) {pos : Nat} :
    ∀ p, (t.stepBack leaf pos).2.curr = some p → p ∈ rows 0 := by
  intro p hp
  unfold stepBack lastBefore at hp
  split at hp
  · split at hp
    · exact nomatch hp
    next prev hprev =>
      cases Option.some.inj hp
      exact (hs.row 0 (Nat.zero_le _)).mem_prev hleaf hprev
  · cases Option.some.inj hp
    exact hleaf

theorem locate_mem (hi : t.Sheets T (rows 0) els) (lt : LocType) (key : K) {at_ : Position} :
    ∀ p, (t.locate T lt key at_).2.curr = some p → p ∈ rows 0 := by
  intro p hp
  obtain ⟨r, hr, -⟩ := hs.top
  obtain ⟨A, B, hrow, -⟩ := hs.descend_leads hi hr key
  have hleaf : t.descend T key t.level r ∈ rows 0 := hrow ▸ mem_append_right A (.head B)
  unfold locate at hp
  rw [hr] at hp
  cases lt with
  | locEqual =>
    cases Option.some.inj hp
    exact hleaf
  | locLess => exact stepBack_mem hs hleaf p hp
  | locGreat | locGreatEqual => exact nextPageAtEnd_mem hs hleaf p hp
  | locLessEqual =>
    dsimp only at hp
    split at hp
    · cases Option.some.inj hp
      exact hleaf
    · exact stepBack_mem hs hleaf p hp

theorem locate_follows (hi : t.Sheets T (rows 0) s.els) (lt : LocType) (key : K) : t.Follows T s (.locate lt key) := by
  rcases (locate_spec hs hi lt key : ((t.locate T lt key t.defaultAccessor).1 = false ∧ _) ∨ _) with ⟨hfalse,
      hnone⟩ | ⟨htrue, X, v, Y, hels, hnear, hp⟩
  · obtain ⟨s', hs', hr'⟩ := Anchored.represents (hs.accessor _ _) (hi.accessor _ _) (locate_mem hs hi lt key)
    exact ⟨false, _, s', moved_returns (Prod.ext hfalse rfl), .locateNone s s' lt key hnone hs', hr'⟩
  · exact ⟨true, _, _, moved_returns (Prod.ext htrue rfl), .locate s X Y v lt key hels hnear, represents_moved hs hi hp⟩

theorem getFirst_follows (hi : t.Sheets T (rows 0) s.els) : t.Follows T s .getFirst := by
  rcases (getFirst_spec hs hi : ((t.getFirst t.defaultAccessor).1 = false ∧ _) ∨ _) with ⟨hfalse,
      hnil⟩ | ⟨htrue, v, Y, hels, hp⟩
  · have hmem : ∀ p, (t.getFirst t.defaultAccessor).2.curr = some p → p ∈ rows 0 := fun p hp => by
      obtain ⟨r, hr, -, htop⟩ := hs.top
      obtain ⟨B, hrow⟩ := leftmost_first hs.storey htop
      rw [getFirst, hr] at hp
      cases Option.some.inj hp
      exact hrow ▸ .head B
    obtain ⟨s', hs', hr'⟩ := Anchored.represents (hs.accessor _ _) (hi.accessor _ _) hmem
    exact ⟨false, _, s', moved_returns (Prod.ext hfalse rfl), .getFirstNone s s' hnil (hs'.trans hnil), hr'⟩
  · exact ⟨true, _, _, moved_returns (Prod.ext htrue rfl), .getFirst s v Y hels, represents_moved hs hi hp⟩

theorem getLast_follows (hi : t.Sheets T (rows 0) s.els) : t.Follows T s .getLast := by
  rcases (getLast_spec hs hi : ((t.getLast t.defaultAccessor).1 = false ∧ _) ∨ _) with ⟨hfalse,
      hnil⟩ | ⟨htrue, X, v, hels, hp⟩
  · have hmem : ∀ p, (t.getLast t.defaultAccessor).2.curr = some p → p ∈ rows 0 := fun p hp => by
      obtain ⟨r, hr, -, htop⟩ := hs.top
      obtain ⟨A, hrow⟩ := rightmost_last (A := []) hs.storey htop
      rw [getLast, hr] at hp
      dsimp only at hp
      split at hp
      all_goals
        cases Option.some.inj hp
        exact hrow ▸ mem_append_right A (.head [])
    obtain ⟨s', hs', hr'⟩ := Anchored.represents (hs.accessor _ _) (hi.accessor _ _) hmem
    exact ⟨false, _, s', moved_returns (Prod.ext hfalse rfl), .getLastNone s s' hnil (hs'.trans hnil), hr'⟩
  · exact ⟨true, _, _, moved_returns (Prod.ext htrue rfl), .getLast s X v hels, represents_moved hs hi hp⟩

end

section
variable (hs : t.Shape T rows) (hi : t.Sheets T (rows 0) els) (hp : t.Points (rows 0) t.defaultAccessor X v Y)
include hs hi hp

theorem getNext_follows : t.Follows T (.standing X v Y) .getNext := by
  rcases getNext_spec hs hi hp with ⟨hend, rfl⟩ | ⟨htrue, w, Z, rfl, hp'⟩
  · exact ⟨false, _, _, moved_returns hend, .getNextEnd X v, represents_moved hs hi hp⟩
  · exact ⟨true, _, _, moved_returns (Prod.ext htrue rfl), .getNext X Z v w, represents_moved hs hi hp'⟩

theorem getPrev_follows : t.Follows T (.standing X v Y) .getPrev := by
  rcases getPrev_spec hs hi hp with ⟨hend, rfl⟩ | ⟨htrue, Z, w, rfl, hp'⟩
  · exact ⟨false, _, _, moved_returns hend, .getPrevEnd Y v, represents_moved hs hi hp⟩
  · exact ⟨true, _, _, moved_returns (Prod.ext htrue rfl), .getPrev Z Y v w, represents_moved hs hi hp'⟩

theorem fastRemove_follows : t.Follows T (.standing X v Y) .fastRemove := by
  obtain ⟨result, t', rows', hremove, hremoved⟩ := fastRemove_spec hs hi hp
  cases result with
  | true =>
    obtain ⟨w, Z, rfl, hp'⟩ := hremoved.points rfl
    exact ⟨true, t', _, hremove, .fastRemove X Z v w, hp'.represents hremoved.shape hremoved.sheets⟩
  | false =>
    cases hremoved.ended rfl
    obtain ⟨s', hs', hr'⟩ := hremoved.anchored.represents hremoved.shape hremoved.sheets
    exact ⟨false, t', s', hremove, .fastRemoveLast X v s' (hs'.trans (append_nil X)), hr'⟩

end

theorem unused_follows (hroot : t.root = none) (hr : t.Represents T (.adrift [])) {call : Call V K}
    (hcall : call.needsPosition = false) : t.Follows T (.adrift []) call := by
  cases call with
  | add item => exact hr.add item
  | locate lt key =>
    refine ⟨false, t, .adrift [], ?_, .locateNone _ _ lt key nofun rfl, hr⟩
    unfold BePlusTree.call locate
    rw [hroot]
    rfl
  | getFirst =>
    refine ⟨false, t, .adrift [], ?_, .getFirstNone _ _ rfl rfl, hr⟩
    unfold BePlusTree.call getFirst
    rw [hroot]
    rfl
  | getLast =>
    refine ⟨false, t, .adrift [], ?_, .getLastNone _ _ rfl rfl, hr⟩
    unfold BePlusTree.call getLast
    rw [hroot]
    rfl
  | getNext | getPrev | fastRemove => exact nomatch hcall

theorem Represents.follows (hr : t.Represents T s) {call : Call V K} (hpos : call.needsPosition = true → t.Positioned) :
    t.Follows T s call := by
  rcases hr with ⟨hh, hroot, hcurr, rfl⟩ | ⟨rows, hs, hi, ha, hcursor⟩
  · refine unused_follows hroot (.inl ⟨hh, hroot, hcurr, rfl⟩) (Bool.eq_false_iff.mpr fun hneeds => ?_)
    obtain ⟨p, hp, -⟩ := hpos hneeds
    exact nomatch hcurr.symm.trans hp
  · have hr : t.Represents T s := .inr ⟨rows, hs, hi, ha, hcursor⟩
    cases call with
    | add item => exact hr.add item
    | locate lt key => exact locate_follows hs hi lt key
    | getFirst => exact getFirst_follows hs hi
    | getLast => exact getLast_follows hs hi
    | getNext =>
      cases s with
      | standing X v Y => exact getNext_follows hs hi hcursor
      | adrift els => exact absurd (hpos rfl) hcursor
    | getPrev =>
      cases s with
      | standing X v Y => exact getPrev_follows hs hi hcursor
      | adrift els => exact absurd (hpos rfl) hcursor
    | fastRemove =>
      cases s with
      | standing X v Y => exact fastRemove_follows hs hi hcursor
      | adrift els => exact absurd (hpos rfl) hcursor

omit [Inhabited V] in
theorem empty_represents (T : Template V K) : (empty : BePlusTree V).Represents T (.adrift []) :=
  .inl ⟨empty_holds T, rfl, rfl, rfl⟩

theorem Represents.run {calls : List (Call V K × Bool)} (hr : t.Represents T s) (hrun : Run (Performs T) t calls t') :
    ∃ s', Run (Does T) s calls s' ∧ t'.Represents T s' := by
  induction hrun generalizing s with
  | nil t => exact ⟨s, .nil s, hr⟩
  | cons hperforms _ ih =>
    obtain ⟨result, t', s', hcall, hdoes, hr'⟩ := hr.follows hperforms.1
    cases Option.some.inj (hperforms.2.symm.trans hcall)
    obtain ⟨s'', hrun', hr''⟩ := ih hr'
    exact ⟨s'', .cons hdoes hrun', hr''⟩

theorem Represents.itemAt (hr : t.Represents T (.standing X v Y)) : t.itemAt t.defaultAccessor = v := by
  rcases hr with ⟨-, -, -, hs⟩ | ⟨rows, -, -, -, hp⟩
  · exact nomatch hs
  · exact Points.itemAt hp

/-- Through its default accessor a tree is a sorted set with a cursor: every run of calls is one of the set, and every
call that may be made returns. -/
theorem calls_follow {calls : List (Call V K × Bool)} (hrun : Run (Performs T) empty calls t) :
    (∃ s, Run (Does T) (.adrift []) calls s ∧ t.Represents T s ∧
      ∀ X v Y, s = .standing X v Y → t.itemAt t.defaultAccessor = v) ∧
      ∀ call : Call V K, (call.needsPosition = true → t.Positioned) → ∃ result t',
      t.call T call = some (result, t') := by
  obtain ⟨s, hdoes, hr⟩ := (empty_represents T).run hrun
  refine ⟨⟨s, hdoes, hr, fun X v Y hs => (hs ▸ hr).itemAt⟩, fun call hpos => ?_⟩
  obtain ⟨result, t', s', hcall, -⟩ := hr.follows hpos
  exact ⟨result, t', hcall⟩

def after (T : Template V K) (t : BePlusTree V) (call : Call V K) : BePlusTree V :=
  ((t.call T call).map Prod.snd).getD t

theorem performs_after {call : Call V K} {result : Bool} (hpos : call.needsPosition = true → t.Positioned)
    (hresult : (t.call T call).map Prod.fst = some result) : Performs T t (call, result) (t.after T call) := by
  obtain ⟨made, hmade, rfl⟩ := Option.map_eq_some_iff.mp hresult
  refine ⟨hpos, ?_⟩
  rw [after, hmade]
  rfl

def narrow : Template Nat Nat := ⟨id, 2, 2, Nat.le_refl 2, Nat.le_refl 2⟩

def narrowCalls : List (Call Nat Nat × Bool) :=
  [(.add 5, true), (.add 3, true), (.add 4, true), (.locate .locGreat 3, true), (.fastRemove, true)]

theorem narrow_run : ∃ t, Run (Performs narrow) empty narrowCalls t := by
  refine ⟨_, .cons (performs_after nofun ?_) (.cons (performs_after nofun ?_) (.cons (performs_after nofun ?_)
    (.cons (performs_after nofun ?_) (.single (performs_after (fun _ => ?_) ?_)))))⟩
  all_goals decide +kernel

theorem narrow_calls_follow : ∃ t : BePlusTree Nat, Run (Performs narrow) empty narrowCalls t ∧
    (∃ s, Run (Does narrow) (.adrift []) narrowCalls s ∧ t.Represents narrow s ∧
      ∀ X v Y, s = .standing X v Y → t.itemAt t.defaultAccessor = v) ∧
      ∀ call : Call Nat Nat, (call.needsPosition = true → t.Positioned) → ∃ result t',
      t.call narrow call = some (result, t') := by
  obtain ⟨t, hrun⟩ := narrow_run
  exact ⟨t, hrun, calls_follow hrun⟩

end BePlusTree

end Firebird.Tree
