import Firebird.Lib.Run
import Firebird.Undo.Rollforward

/-! # Programs of savepoints and changes

Whatever a transaction has done, each of its savepoints gives back the contents of its start. The operations must keep
the data a savepoint has saved that of the version it goes back into. -/

namespace Firebird.Undo

open List Lib

variable {isLarge : Savepoint → Bool} {t t' t₀ : Transaction} {op : Op} {ops : List Op} {s : Savepoint}
  {rest : List Savepoint} {relation : RelationId} {number : RecordNumber}

/-- What an operation needs: a transaction-level savepoint is the first one, an update of our own version in another
    format the first change of the record under its savepoint, and changes that are taken over leave data behind where
    the record was changed. -/
def Allowed (isLarge : Savepoint → Bool) (t : Transaction) : Op → Prop
  | .start root => root = true → t.savepoints = []
  | .rollback preserveLocks => ∀ s rest, t.savepoints = s :: rest → preserveLocks = true → MayPreserve s rest
  | .rollforward depth => ∀ s rest, t.savepoints.drop depth = s :: rest → MayRelease isLarge s rest
  | .modify relation number format _ => ∀ head tail, t.chains relation number = head :: tail →
      head.deleted = false → head.transaction = t.traNumber → head.format ≠ format →
      ¬TouchedByCurrent t relation number
  | .store .. => True
  | .erase .. => True

theorem start_inv (h : Inv t) (root : Bool) (hs : exec isLarge t (.start root) = .ok t') : Inv t' := by
  cases hs
  have hnone : ∀ relation number, ¬Touched [] relation number := fun relation number => by simp [Touched, getAction]
  have hsame : restore t.undoSpace t.chains [] = t.chains := by
    funext relation number
    exact restore_of_not_touched (hnone relation number)
  refine ⟨⟨⟨⟨nodup_nil, by simp, by simp⟩, fun relation number h => absurd h (hnone relation number)⟩, ?_, ?_⟩, ?_⟩
  · intro relation number
    rw [hsame]
  · exact h.stack
  · exact h.space

theorem exec_inv (h : Inv t) (hallowed : Allowed isLarge t op) (hs : exec isLarge t op = .ok t') : Inv t' := by
  cases op with
  | start root => exact start_inv h root hs
  | rollback preserveLocks =>
    cases hstack : t.savepoints with
    | nil =>
      rw [exec, rollback, hstack] at hs
      cases hs
    | cons s rest =>
      obtain ⟨t'', hroll, hinv, -⟩ := rollback_spec preserveLocks h hstack (hallowed s rest hstack)
      rw [exec, hroll] at hs
      cases hs
      exact hinv
  | rollforward depth =>
    cases hstack : t.savepoints.drop depth with
    | nil =>
      rw [exec, rollforward, hstack] at hs
      cases hs
    | cons s rest =>
      obtain ⟨t'', rest', hroll, hinv, -⟩ := rollforward_spec h hstack (hallowed s rest hstack)
      rw [exec, hroll] at hs
      cases hs
      exact hinv
  | store relation number format data => exact vioStore_inv h hs
  | modify relation number format data => exact vioModify_inv h hallowed hs
  | erase relation number => exact vioErase_inv h hs

theorem exec_error {e : SavepointError} (h : Inv t) (hallowed : Allowed isLarge t op)
    (hs : exec isLarge t op = .error e) : e = .recordExists ∨ e = .noRecord ∨ e = .noSavepoint := by
  cases op with
  | start root => cases hs
  | rollback preserveLocks =>
    cases hstack : t.savepoints with
    | nil =>
      rw [exec, rollback, hstack] at hs
      cases hs
      exact .inr (.inr rfl)
    | cons s rest =>
      obtain ⟨t'', hroll, -⟩ := rollback_spec preserveLocks h hstack (hallowed s rest hstack)
      rw [exec, hroll] at hs
      cases hs
  | rollforward depth =>
    cases hstack : t.savepoints.drop depth with
    | nil =>
      rw [exec, rollforward, hstack] at hs
      cases hs
      exact .inr (.inr rfl)
    | cons s rest =>
      obtain ⟨t'', rest', hroll, -⟩ := rollforward_spec h hstack (hallowed s rest hstack)
      rw [exec, hroll] at hs
      cases hs
  | store relation number format data => exact .inl (vioStore_error hs)
  | modify relation number format data => exact .inr (.inl (vioModify_error hs))
  | erase relation number => exact .inr (.inl (vioErase_error hs))

/-- What the savepoints of a transaction do for it. -/
structure Restores (isLarge : Savepoint → Bool) (t : Transaction) : Prop where
  /-- Rolling back the savepoints down to any of them gives the content as of its start. -/
  rollbacks : ∀ k s, t.savepoints[k]? = some s → ∃ t',
    execAll (exec isLarge) t (replicate (k + 1) (.rollback false)) = .ok t' ∧
    ∀ relation number, content (t'.chains relation number) = s.contentAtStart relation number
  /-- So does a rollback of the current one that preserves locks. -/
  rollback : ∀ s rest preserveLocks, t.savepoints = s :: rest → Allowed isLarge t (.rollback preserveLocks) → ∃ t',
    exec isLarge t (.rollback preserveLocks) = .ok t' ∧
    (∀ relation number, content (t'.chains relation number) = s.contentAtStart relation number) ∧
    t'.savepoints.map (·.contentAtStart) = rest.map (·.contentAtStart)
  /-- A release changes no record, and keeps the enclosing savepoints. -/
  rollforward : ∀ depth s rest, t.savepoints.drop depth = s :: rest → Allowed isLarge t (.rollforward depth) →
    ∃ t' rest', exec isLarge t (.rollforward depth) = .ok t' ∧ t'.chains = t.chains ∧
    t'.savepoints = t.savepoints.take depth ++ rest' ∧ Keeps rest rest'
  /-- No segment of the undo space is released twice, and no change meets a wrong version. -/
  errors : ∀ op e, Allowed isLarge t op → exec isLarge t op = .error e →
    e = .recordExists ∨ e = .noRecord ∨ e = .noSavepoint
  /-- Each undo item of a savepoint has its segment, each segment has one item. -/
  space : SpaceOk t.undoSpace (held t.savepoints)

section
variable (isLarge : Savepoint → Bool)

theorem rollbacks_spec {k : Nat} (h : Inv t) (hk : t.savepoints[k]? = some s) :
    ∃ t', execAll (exec isLarge) t (replicate (k + 1) (.rollback false)) = .ok t' ∧
      ∀ relation number, content (t'.chains relation number) = s.contentAtStart relation number := by
  induction k generalizing t s with
  | zero =>
    cases hs : t.savepoints with
    | nil =>
      rw [hs] at hk
      cases hk
    | cons s₀ rest =>
      rw [hs] at hk
      cases hk
      obtain ⟨t', hroll, -, hcontent, -⟩ := rollback_spec false h hs (fun h => nomatch h)
      exact ⟨t', by simp [execAll, exec, hroll], hcontent⟩
  | succ k ih =>
    cases hs : t.savepoints with
    | nil =>
      rw [hs] at hk
      cases hk
    | cons s₀ rest =>
      obtain ⟨t₁, hroll, hinv, -, hstarts⟩ := rollback_spec false h hs (fun h => nomatch h)
      -- the savepoint at the next depth has kept its start
      have hstart : (t₁.savepoints.map (·.contentAtStart))[k]? = some s.contentAtStart := by
        rw [hs, getElem?_cons_succ] at hk
        rw [hstarts, getElem?_map, hk]
        rfl
      rw [getElem?_map] at hstart
      obtain ⟨s₁, hk₁, hs₁⟩ := Option.map_eq_some_iff.mp hstart
      obtain ⟨t', hrun, hcontent⟩ := ih hinv hk₁
      refine ⟨t', ?_, hs₁ ▸ hcontent⟩
      rw [replicate_succ, execAll]
      simp only [exec, hroll]
      exact hrun

theorem Inv.restores (h : Inv t) : Restores isLarge t where
  rollbacks _ _ hk := rollbacks_spec isLarge h hk
  rollback s rest preserveLocks hs hallowed := by
    obtain ⟨t', hroll, -, hcontent, hstarts⟩ := rollback_spec preserveLocks h hs (hallowed s rest hs)
    exact ⟨t', hroll, hcontent, hstarts⟩
  rollforward depth s rest hs hallowed := by
    obtain ⟨t', rest', hroll, -, hchains, hstack, hkeeps⟩ := rollforward_spec h hs (hallowed s rest hs)
    exact ⟨t', rest', hroll, hchains, hstack, hkeeps⟩
  errors _ _ hallowed hs := exec_error h hallowed hs
  space := h.space

/-- Whatever a transaction has done, its savepoints restore the contents of their starts. -/
theorem savepoints_restore (hsavepoints : t₀.savepoints = [])
    (hspace : ∀ offset, t₀.undoSpace.data offset = none)
    (h : Run (Steps (Allowed isLarge) (exec isLarge)) t₀ ops t) : Restores isLarge t := by
  have hinit : Inv t₀ := by
    refine ⟨hsavepoints ▸ trivial, ?_⟩
    rw [hsavepoints]
    exact ⟨nodup_nil, fun offset => by simp [hspace, held], by simp [held]⟩
  have hinv : Inv t := h.invariant (fun _ _ _ hi hstep => exec_inv hi hstep.1 hstep.2) hinit
  exact hinv.restores isLarge

end

def committed : Transaction where
  traNumber := 7
  chains := setChain (fun _ _ => []) 1 1 [{ transaction := 5, format := 1, deleted := false, data := [1] }]
  savepoints := []
  undoSpace := { data := fun _ => none, size := 0 }

/-- Two statements under a savepoint; the second updates a record again and stores another. -/
def updatesInOneFormat : List Op :=
  [.start false, .start false, .modify 1 1 1 [2], .rollforward 0, .start false, .modify 1 1 1 [3], .store 1 2 1 [4],
    .rollforward 0]

theorem savepoints_restore_updatesInOneFormat :
    ∃ t, Run (Steps (Allowed fun _ => false) (exec fun _ => false)) committed updatesInOneFormat t ∧
      Restores (fun _ => false) t ∧ content (t.chains 1 1) = some (1, [3]) ∧ t.savepoints.length = 1 := by
  have hmodify : ∀ (t : Transaction) (data : Bytes), (∀ head tail, t.chains 1 1 = head :: tail → head.format = 1) →
      Allowed (fun _ => false) t (.modify 1 1 1 data) :=
    fun t data h head tail hchain _ _ hne => absurd (h head tail hchain) hne
  have hrun : ∃ t, Run (Steps (Allowed fun _ => false) (exec fun _ => false)) committed updatesInOneFormat t ∧
      content (t.chains 1 1) = some (1, [3]) ∧ t.savepoints.length = 1 := by
    refine ⟨_, .cons ⟨(nomatch ·), rfl⟩ (.cons ⟨(nomatch ·), rfl⟩ (.cons ⟨hmodify _ _ ?_, rfl⟩
      (.cons ⟨?_, rfl⟩ (.cons ⟨(nomatch ·), rfl⟩ (.cons ⟨hmodify _ _ ?_, rfl⟩ (.cons ⟨trivial, rfl⟩
        (.cons ⟨?_, rfl⟩ (.nil _)))))))), ?_, ?_⟩
    · rintro head tail ⟨⟩
      rfl
    · rintro s rest ⟨⟩ next ⟨⟩ - relation number - ⟨action, haction, -⟩
      cases haction
    · rintro head tail ⟨⟩
      rfl
    · rintro s rest ⟨⟩ next ⟨⟩ - relation number htouched hnext
      obtain ⟨rfl, hnumber⟩ := touched_singleton.mp hnext
      obtain rfl : number = 1 := by simpa [createAction, getAction_nil] using hnumber
      decide +kernel
    · decide +kernel
    · rfl
  obtain ⟨t, hrun, hcontent, hlength⟩ := hrun
  exact ⟨t, hrun, savepoints_restore _ rfl (fun _ => rfl) hrun, hcontent, hlength⟩

/-- Two statements under a savepoint update the record, the second in a new format. -/
def updatesInTwoFormats : List Op :=
  [.start true, .start false, .start false, .modify 1 1 1 [2], .rollforward 0, .start false, .modify 1 1 2 [3, 3],
    .rollforward 0]

/-- The rollback backs out the second update only. -/
theorem rollback_keeps_first_update :
    ∃ t s rest t', execAll (exec fun _ => false) committed updatesInTwoFormats = .ok t ∧ t.savepoints = s :: rest ∧
      rollback t false = .ok t' ∧ s.contentAtStart 1 1 = some (1, [1]) ∧ content (t'.chains 1 1) = some (1, [2]) := by
  have h : ((execAll (exec fun _ => false) committed updatesInTwoFormats).toOption.bind fun t =>
      (rollback t false).toOption.map fun t' =>
        (t.savepoints.map (·.contentAtStart 1 1), content (t'.chains 1 1))) =
      some ([some (1, [1]), some (1, [1])], some (1, [2])) := by
    decide +kernel
  obtain ⟨t, ht, h⟩ := Option.bind_eq_some_iff.mp h
  obtain ⟨t', ht', h⟩ := Option.map_eq_some_iff.mp h
  obtain ⟨hstart, hcontent⟩ := Prod.mk.inj h
  cases hs : t.savepoints with
  | nil => simp [hs] at hstart
  | cons s rest =>
    rw [hs] at hstart
    exact ⟨t, s, rest, t', eq_ok_of_toOption ht, hs, eq_ok_of_toOption ht', (cons.inj hstart).1, hcontent⟩

end Firebird.Undo
