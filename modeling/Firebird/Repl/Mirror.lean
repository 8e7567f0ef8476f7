import Firebird.Repl.Applier
import Firebird.Repl.RoundTrip

/-! # The savepoints of the replica -/

namespace Firebird.Repl
open List
variable {stack later : List Savepoint} {savepoint next : Savepoint} {kept : List Action}
  {transaction : ReplicaTransaction} {actions actions' : List Action}

theorem liveChanges_cons (top : List Action) (frames : List (List Action)) :
    liveChanges (top :: frames) = liveChanges frames ++ top := by
  unfold liveChanges
  rw [reverse_cons, flatten_append, flatten_singleton]

theorem liveChanges_append (frames frames' : List (List Action)) :
    liveChanges (frames ++ frames') = liveChanges frames' ++ liveChanges frames := by
  unfold liveChanges
  rw [reverse_append, flatten_append]

namespace ReplicaTransaction

def run (transaction : ReplicaTransaction) (actions : List Action) : Option ReplicaTransaction :=
  actions.foldlM apply transaction

section
variable (transaction : ReplicaTransaction)

theorem run_cons (action : Action) (actions : List Action) :
    transaction.run (action :: actions) = (transaction.apply action).bind (·.run actions) := rfl

theorem run_singleton (action : Action) : transaction.run [action] = transaction.apply action := by
  rw [run_cons]
  cases transaction.apply action <;> rfl

theorem run_append (actions actions' : List Action) :
    transaction.run (actions ++ actions') = (transaction.run actions).bind (·.run actions') := by
  exact foldlM_append

end

theorem run_silent (h : ∀ action ∈ actions, ∀ transaction : ReplicaTransaction, transaction.apply action =
    some transaction) : transaction.run actions = some transaction := by
  induction actions with
  | nil => rfl
  | cons action actions ih =>
    rw [run_cons, h action mem_cons_self]
    exact ih fun action hmem => h action (mem_cons_of_mem _ hmem)

def pushed (transaction : ReplicaTransaction) (count : Nat) : ReplicaTransaction :=
  { transaction with savePoint := replicate count [] ++ transaction.savePoint }

theorem run_startSavepoints (transaction : ReplicaTransaction) (count : Nat) :
    transaction.run (replicate count .startSavepoint) = some (transaction.pushed count) := by
  induction count generalizing transaction with
  | zero => rfl
  | succ count ih =>
    refine (ih _).trans (congrArg some ?_)
    unfold pushed
    rw [replicate_succ', append_assoc]
    rfl

end ReplicaTransaction

/-! ### The savepoints of both sides -/

def Savepoint.metaChanges (savepoint : Savepoint) : List Action := savepoint.changes.map Action.toMeta

/-- The savepoints at the top are not announced and have no changes yet; each of the others has one on the replica. -/
structure Mirror (transaction : ReplicaTransaction) (stack : List Savepoint) (kept : List Action)
    (fresh marked : List Savepoint) (extra : List (List Action)) : Prop where
  stack_eq : stack = fresh ++ marked
  freshAll : ∀ savepoint ∈ fresh, savepoint.replicated = false ∧ savepoint.changes = []
  markedAll : ∀ savepoint ∈ marked, savepoint.replicated = true
  savePoint_eq : transaction.savePoint = marked.map Savepoint.metaChanges ++ extra
  kept_eq : transaction.kept ++ liveChanges extra = kept.map Action.toMeta
  extra_le : stack.countP (·.root) + extra.length ≤ 1

def Mirrors (transaction : ReplicaTransaction) (stack : List Savepoint) (kept : List Action) : Prop :=
  ∃ fresh marked extra, Mirror transaction stack kept fresh marked extra

theorem liveChanges_fresh {fresh : List Savepoint}
    (h : ∀ savepoint ∈ fresh, savepoint.replicated = false ∧ savepoint.changes = []) :
    liveChanges (fresh.map (·.changes)) = [] := by
  unfold liveChanges
  rw [flatten_eq_nil_iff]
  intro frame hmem
  obtain ⟨savepoint, hsavepoint, rfl⟩ := mem_map.mp (mem_reverse.mp hmem)
  exact (h savepoint hsavepoint).2

theorem liveChanges_metaChanges (stack : List Savepoint) :
    liveChanges (stack.map Savepoint.metaChanges) = (liveChanges (stack.map (·.changes))).map Action.toMeta := by
  induction stack with
  | nil => rfl
  | cons savepoint stack ih =>
    rw [map_cons, map_cons, liveChanges_cons, liveChanges_cons, map_append, ih]
    rfl

theorem Mirrors.live (h : Mirrors transaction stack kept) :
    transaction.live = (kept ++ liveChanges (stack.map (·.changes))).map Action.toMeta := by
  obtain ⟨fresh, marked, extra, h⟩ := h
  have hstack : liveChanges (stack.map (·.changes)) = liveChanges (marked.map (·.changes)) := by
    rw [h.stack_eq, map_append, liveChanges_append, liveChanges_fresh h.freshAll, append_nil]
  unfold ReplicaTransaction.live
  rw [h.savePoint_eq, liveChanges_append, hstack, map_append, ← h.kept_eq, liveChanges_metaChanges,
    append_assoc]

theorem Mirrors.new (hfresh : ∀ savepoint ∈ stack, savepoint.replicated = false ∧ savepoint.changes = [])
    (hroot : stack.countP (·.root) ≤ 1) : Mirrors ⟨[], []⟩ stack [] :=
  ⟨stack, [], [], (append_nil _).symm, hfresh, nofun, rfl, rfl, hroot⟩

theorem Mirrors.push (h : Mirrors transaction stack kept)
    (hfresh : savepoint.replicated = false ∧ savepoint.changes = [])
    (hroot : savepoint.root = false) : Mirrors transaction (savepoint :: stack) kept := by
  obtain ⟨fresh, marked, extra, h⟩ := h
  refine ⟨savepoint :: fresh, marked, extra, by rw [h.stack_eq]; rfl, fun other hmem => ?_,
    h.markedAll, h.savePoint_eq, h.kept_eq, ?_⟩
  · rcases mem_cons.mp hmem with rfl | hold
    · exact hfresh
    · exact h.freshAll other hold
  · rw [countP_cons_of_neg (by rw [hroot]; exact Bool.false_ne_true)]
    exact h.extra_le

theorem Mirrors.startSavepoint (h : Mirrors transaction stack kept) (number : Nat) :
    Mirrors transaction (⟨number, false, false, []⟩ :: stack) kept := h.push ⟨rfl, rfl⟩ rfl

theorem countP_root_tail (savepoint : Savepoint) (later : List Savepoint) :
    later.countP (·.root) ≤ (savepoint :: later).countP (·.root) := (sublist_cons_self savepoint later).countP_le

theorem Mirrors.top (h : Mirrors transaction (savepoint :: later) kept) :
    (savepoint.replicated = false ∧ savepoint.changes = [] ∧ Mirrors transaction later kept) ∨
    (savepoint.replicated = true ∧ ∃ marked extra, later = marked ∧ (∀ other ∈ marked, other.replicated = true) ∧
      transaction.savePoint = savepoint.metaChanges :: (marked.map Savepoint.metaChanges ++ extra) ∧
      transaction.kept ++ liveChanges extra = kept.map Action.toMeta ∧
      (savepoint :: marked).countP (·.root) + extra.length ≤ 1) := by
  obtain ⟨fresh, marked, extra, h⟩ := h
  have hle := h.extra_le
  cases fresh with
  | cons first fresh =>
    obtain ⟨rfl, hlater⟩ := cons.inj h.stack_eq
    have hfirst := h.freshAll savepoint mem_cons_self
    exact .inl ⟨hfirst.1, hfirst.2, fresh, marked, extra, hlater, fun other hmem =>
      h.freshAll other (mem_cons_of_mem _ hmem),
      h.markedAll, h.savePoint_eq, h.kept_eq, (Nat.add_le_add_right (countP_root_tail _ _) _).trans hle⟩
  | nil =>
    have hstack := h.stack_eq
    cases marked with
    | nil => exact absurd hstack (cons_ne_nil _ _)
    | cons first marked =>
      obtain ⟨rfl, hlater⟩ := cons.inj hstack
      exact .inr ⟨h.markedAll savepoint mem_cons_self, marked, extra, hlater,
        fun other hmem => h.markedAll other (mem_cons_of_mem _ hmem), h.savePoint_eq, h.kept_eq, hlater ▸ hle⟩

theorem Mirrors.dropLast (h : Mirrors transaction [savepoint] kept) (hroot : savepoint.root = true) :
    Mirrors transaction [] (kept ++ savepoint.changes) := by
  rcases h.top with ⟨-, hchanges, hrest⟩ | ⟨-, marked, extra, hlater, -, hsavePoint, hkept, hle⟩
  · rwa [hchanges, append_nil]
  · subst hlater
    refine ⟨[], [], savepoint.metaChanges :: extra, rfl, nofun, nofun, hsavePoint, ?_, ?_⟩
    · rw [liveChanges_cons, ← append_assoc, hkept, map_append]
      rfl
    · rw [countP_cons_of_pos hroot] at hle
      rw [countP_nil, length_cons, Nat.zero_add, Nat.add_comm]
      exact hle

def cleaned (transaction : ReplicaTransaction) (savepoint : Savepoint) (undo : Bool) : Option ReplicaTransaction :=
  if savepoint.replicated then transaction.cleanupSavepoint undo else some transaction

theorem Mirrors.undo (h : Mirrors transaction (savepoint :: later) kept) :
    ∃ transaction', cleaned transaction savepoint true = some transaction' ∧ Mirrors transaction' later kept := by
  unfold cleaned
  rcases h.top with ⟨hfresh, -, hrest⟩ | ⟨hmarked, marked, extra, rfl, hall, hsavePoint, hkept, hle⟩
  · exact ⟨transaction, by rw [hfresh]; rfl, hrest⟩
  · refine ⟨{ transaction with savePoint := later.map Savepoint.metaChanges ++ extra }, ?_, [], later, extra, rfl,
      nofun, hall, rfl, hkept, (Nat.add_le_add_right (countP_root_tail _ _) _).trans hle⟩
    rw [hmarked, ReplicaTransaction.cleanupSavepoint, hsavePoint]
    rfl

theorem Mirrors.merge (h : Mirrors transaction (savepoint :: next :: later) kept) :
    ∃ transaction', cleaned transaction savepoint false = some transaction' ∧
      Mirrors transaction' ({ next with changes := next.changes ++ savepoint.changes } :: later) kept := by
  unfold cleaned
  rcases h.top with ⟨hfresh, hchanges, hrest⟩ | ⟨hmarked, marked, extra, rfl, hall, hsavePoint, hkept, hle⟩
  · refine ⟨transaction, by rw [hfresh]; rfl, ?_⟩
    rw [hchanges, append_nil]
    exact hrest
  · refine ⟨{ transaction with savePoint := (next.metaChanges ++ savepoint.metaChanges) ::
      (later.map Savepoint.metaChanges ++ extra) }, ?_, [], _, extra, rfl, nofun, fun other hmem => ?_, ?_, hkept,
      (Nat.add_le_add_right ?_ _).trans hle⟩
    · rw [hmarked, ReplicaTransaction.cleanupSavepoint, hsavePoint]
      rfl
    · rcases mem_cons.mp hmem with rfl | hold
      · exact hall next mem_cons_self
      · exact hall other (mem_cons_of_mem _ hold)
    · show _ :: _ = (next.changes ++ savepoint.changes).map Action.toMeta :: _
      rw [map_append]
      rfl
    · refine le_trans (le_of_eq ?_) (countP_root_tail savepoint (next :: later))
      rw [countP_cons, countP_cons]

theorem Mirrors.mergeLast (h : Mirrors transaction [savepoint] kept) :
    ∃ transaction', cleaned transaction savepoint false = some transaction' ∧
      Mirrors transaction' [] (kept ++ savepoint.changes) := by
  unfold cleaned
  rcases h.top with ⟨hfresh, hchanges, hrest⟩ | ⟨hmarked, marked, extra, hlater, hall, hsavePoint, hkept, hle⟩
  · refine ⟨transaction, by rw [hfresh]; rfl, ?_⟩
    rwa [hchanges, append_nil]
  · subst hlater
    have hle := (Nat.add_le_add_right (countP_root_tail savepoint []) _).trans hle
    have hall : transaction.kept ++ liveChanges (savepoint.metaChanges :: extra) =
        (kept ++ savepoint.changes).map Action.toMeta := by
      rw [liveChanges_cons, ← append_assoc, hkept, map_append]
      rfl
    cases extra with
    | nil =>
      refine ⟨⟨[], transaction.kept ++ savepoint.metaChanges⟩, ?_, [], [], [], rfl, nofun, nofun, rfl, ?_, hle⟩
      · rw [hmarked, ReplicaTransaction.cleanupSavepoint, hsavePoint]
        rfl
      · rw [liveChanges_cons] at hall
        show (transaction.kept ++ savepoint.metaChanges) ++ [] = _
        rw [append_nil]
        exact hall
    | cons below extra =>
      refine ⟨{ transaction with savePoint := (below ++ savepoint.metaChanges) :: extra }, ?_, [], [], _, rfl, nofun,
        nofun, rfl, ?_, hle⟩
      · rw [hmarked, ReplicaTransaction.cleanupSavepoint, hsavePoint]
        rfl
      · rw [liveChanges_cons, liveChanges_cons, append_assoc] at hall
        rw [liveChanges_cons]
        exact hall

def RootLast (stack : List Savepoint) : Prop := ∀ savepoint ∈ stack.dropLast, savepoint.root = false

theorem RootLast.tail (h : RootLast stack) : RootLast stack.tail := by
  match stack, h with
  | [], _ | [_], _ => nofun
  | _ :: _ :: _, h => exact fun other hmem => h other (mem_cons_of_mem _ hmem)

theorem RootLast.eq_nil (h : RootLast (savepoint :: later)) (hroot : savepoint.root = true) : later = [] := by
  cases later with
  | nil => rfl
  | cons next later =>
    have hnot := h savepoint mem_cons_self
    exact Bool.noConfusion (hroot.symm.trans hnot)

theorem RootLast.push (h : RootLast stack) (number : Nat) : RootLast (⟨number, false, false, []⟩ :: stack) := by
  cases stack with
  | nil => nofun
  | cons next later =>
    intro other hmem
    rcases mem_cons.mp hmem with rfl | hold
    · rfl
    · exact h other hold

theorem RootLast.countP_le (h : RootLast stack) : stack.countP (·.root) ≤ 1 := by
  induction stack with
  | nil => exact Nat.zero_le 1
  | cons savepoint later ih =>
    cases later with
    | nil => exact countP_le_length
    | cons next later =>
      have hfirst : savepoint.root = false := h savepoint mem_cons_self
      rw [countP_cons_of_neg (by rw [hfirst]; exact Bool.false_ne_true)]
      exact ih h.tail

theorem Mirrors.release (h : Mirrors transaction (savepoint :: later) kept) (hroot : RootLast (savepoint :: later))
    (large : Bool) : ∃ transaction', cleaned transaction savepoint false = some transaction' ∧
      Mirrors transaction' (Savepoint.rollforward large 0 (savepoint :: later)).1
        (kept ++ (Savepoint.rollforward large 0 (savepoint :: later)).2) := by
  cases later with
  | nil => exact h.mergeLast
  | cons next later =>
    obtain ⟨transaction', hcleaned, hmirrors⟩ := h.merge
    refine ⟨transaction', hcleaned, ?_⟩
    rw [Savepoint.rollforward]
    split
    case isTrue hdrop =>
      obtain rfl : later = [] := RootLast.eq_nil hroot.tail hdrop.1
      exact hmirrors.dropLast hdrop.1
    case isFalse => rwa [append_nil]

/-- The savepoints that `announce` announces are announced. -/
def markUntil : List Savepoint → List Savepoint
  | [] => []
  | savepoint :: later =>
    if savepoint.replicated then savepoint :: later else { savepoint with replicated := true } :: markUntil later

def unmarked : List Savepoint → Nat
  | [] => 0
  | savepoint :: later => if savepoint.replicated then 0 else unmarked later + 1

theorem markUntil_append {fresh marked : List Savepoint} (hfresh : ∀ savepoint ∈ fresh, savepoint.replicated = false)
    (hmarked : ∀ savepoint ∈ marked, savepoint.replicated = true) :
    markUntil (fresh ++ marked) = (fresh.map fun savepoint => { savepoint with replicated := true }) ++ marked ∧
      unmarked (fresh ++ marked) = fresh.length := by
  induction fresh with
  | nil =>
    cases marked with
    | nil => exact ⟨rfl, rfl⟩
    | cons first marked =>
      have hfirst := hmarked first mem_cons_self
      exact ⟨by rw [nil_append, markUntil, if_pos hfirst]; rfl, by rw [nil_append, unmarked, if_pos hfirst]; rfl⟩
  | cons first fresh ih =>
    have hfirst : ¬ first.replicated = true := by
      rw [hfresh first mem_cons_self]
      exact Bool.false_ne_true
    obtain ⟨hmark, hcount⟩ := ih fun savepoint hmem => hfresh savepoint (mem_cons_of_mem _ hmem)
    rw [cons_append, markUntil, if_neg hfirst, hmark, unmarked, if_neg hfirst, hcount]
    exact ⟨rfl, rfl⟩

theorem rootLast_of_map_root (h : RootLast stack) {stack' : List Savepoint}
    (heq : stack'.map (·.root) = stack.map (·.root)) : RootLast stack' := by
  intro savepoint hmem
  have hroot : savepoint.root ∈ (stack'.map (·.root)).dropLast := by
    rw [← map_dropLast]
    exact mem_map_of_mem hmem
  rw [heq, ← map_dropLast] at hroot
  obtain ⟨other, hother, hsame⟩ := mem_map.mp hroot
  exact hsame.symm.trans (h other hother)

theorem countP_root_of_map {stack stack' : List Savepoint} (heq : stack'.map (·.root) = stack.map (·.root)) :
    stack'.countP (·.root) = stack.countP (·.root) := by
  have hboth := congrArg (countP id) heq
  rw [countP_map, countP_map] at hboth
  exact hboth

theorem map_root_markUntil (stack : List Savepoint) : (markUntil stack).map (·.root) = stack.map (·.root) := by
  induction stack with
  | nil => rfl
  | cons savepoint later ih =>
    rw [markUntil]
    split
    · rfl
    · rw [map_cons, ih, map_cons]

theorem Mirrors.announce (h : Mirrors transaction stack kept) :
    Mirrors (transaction.pushed (unmarked stack)) (markUntil stack) kept ∧
      ∀ savepoint ∈ markUntil stack, savepoint.replicated = true := by
  obtain ⟨fresh, marked, extra, h⟩ := h
  obtain ⟨hmark, hcount⟩ := markUntil_append (fun savepoint hmem => (h.freshAll savepoint hmem).1) h.markedAll
  have hroot := countP_root_of_map (map_root_markUntil stack)
  rw [h.stack_eq, hmark] at hroot
  have hle := h.extra_le
  rw [h.stack_eq, ← hroot] at hle
  rw [h.stack_eq, hmark, hcount]
  have hall : ∀ savepoint ∈ (fresh.map fun savepoint => { savepoint with replicated := true }) ++ marked,
      savepoint.replicated = true := by
    intro savepoint hmem
    rcases mem_append.mp hmem with hnew | hold
    · obtain ⟨before, -, rfl⟩ := mem_map.mp hnew
      rfl
    · exact h.markedAll savepoint hold
  refine ⟨⟨[], _, extra, rfl, nofun, hall, ?_, h.kept_eq, hle⟩, hall⟩
  have hempty : (fresh.map fun savepoint => ({ savepoint with replicated := true } : Savepoint)).map
      Savepoint.metaChanges = replicate fresh.length [] := by
    rw [map_map, eq_replicate_iff, length_map]
    refine ⟨rfl, fun frame hmem => ?_⟩
    obtain ⟨savepoint, hsavepoint, rfl⟩ := mem_map.mp hmem
    show savepoint.changes.map Action.toMeta = []
    rw [(h.freshAll savepoint hsavepoint).2]
    rfl
  show replicate fresh.length [] ++ transaction.savePoint = map Savepoint.metaChanges (_ ++ marked) ++ extra
  rw [map_append, hempty, h.savePoint_eq, append_assoc]

theorem map_root_addChange (t : Transaction) (change : Action) :
    (t.addChange change).savePoint.map (·.root) = t.savePoint.map (·.root) := by
  unfold Transaction.addChange
  split
  · rfl
  case h_2 top later hstack => rw [hstack, map_cons, map_cons]

theorem Mirrors.addChange {block : Option BatchBlock} (h : Mirrors transaction stack kept)
    (hall : ∀ savepoint ∈ stack, savepoint.replicated = true) (change : Action) :
    Mirrors (transaction.addChange change.toMeta) (Transaction.addChange ⟨stack, kept, block⟩ change).savePoint
      (Transaction.addChange ⟨stack, kept, block⟩ change).kept := by
  cases stack with
  | cons savepoint later =>
    rcases h.top with ⟨hfresh, -, -⟩ | ⟨-, marked, extra, rfl, hlater, hsavePoint, hkept, hle⟩
    · exact Bool.noConfusion (hfresh.symm.trans (hall savepoint mem_cons_self))
    · refine ⟨[], _, extra, rfl, nofun, fun other hmem => ?_, ?_, ?_, ?_⟩
      · rcases mem_cons.mp hmem with rfl | hold
        · exact hall savepoint mem_cons_self
        · exact hlater other hold
      · unfold ReplicaTransaction.addChange
        rw [hsavePoint]
        show _ :: _ = (savepoint.changes ++ [change]).map Action.toMeta :: _
        rw [map_append]
        rfl
      · unfold ReplicaTransaction.addChange
        rw [hsavePoint]
        exact hkept
      · rwa [countP_root_of_map (map_root_addChange ⟨savepoint :: later, kept, block⟩ change)]
  | nil =>
    obtain ⟨fresh, marked, extra, h⟩ := h
    obtain ⟨rfl, rfl⟩ := append_eq_nil_iff.mp h.stack_eq.symm
    have hle := h.extra_le
    have hsavePoint : transaction.savePoint = extra := h.savePoint_eq
    have hkept := h.kept_eq
    have hnew : (kept ++ [change]).map Action.toMeta = transaction.kept ++ (liveChanges extra ++ [change.toMeta]) := by
      rw [map_append, ← hkept, append_assoc]
      rfl
    unfold ReplicaTransaction.addChange
    cases extra with
    | nil =>
      rw [hsavePoint]
      exact ⟨[], [], [], rfl, nofun, nofun, rfl, (append_nil _).trans hnew.symm, hle⟩
    | cons below extra =>
      rw [hsavePoint]
      refine ⟨[], [], (below ++ [change.toMeta]) :: extra, rfl, nofun, nofun, rfl, ?_, hle⟩
      show transaction.kept ++ liveChanges _ = (kept ++ [change]).map Action.toMeta
      rw [hnew, liveChanges_cons, liveChanges_cons, append_assoc]

theorem markUntil_addChange (t : Transaction) (change : Action) :
    markUntil (t.addChange change).savePoint =
      (Transaction.addChange { t with savePoint := markUntil t.savePoint } change).savePoint ∧
    (t.addChange change).kept = (Transaction.addChange { t with savePoint := markUntil t.savePoint } change).kept ∧
    unmarked (t.addChange change).savePoint = unmarked t.savePoint := by
  obtain ⟨stack, kept, block⟩ := t
  cases stack with
  | nil => exact ⟨rfl, rfl, rfl⟩
  | cons savepoint later =>
    obtain ⟨number, root, replicated, changes⟩ := savepoint
    cases replicated <;> exact ⟨rfl, rfl, rfl⟩

end Firebird.Repl
