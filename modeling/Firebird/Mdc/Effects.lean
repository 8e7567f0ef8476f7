import Firebird.Mdc.Versions

/-! # The effect of a call on an element

A call other than `commit` and `rollback` loads entries, collects garbage, removes the entries of a dead
transaction, and adds at most one entry, on top of the entries of its own transaction. -/

namespace Firebird.Mdc

open Tpc (TraNumber TraState)

variable {Obj : Type}

/-- What a call made for transaction `T` does to an element; an entry that it adds and does not commit is one that
    `T` may leave so. -/
inductive Effect (tip : TraNumber → TraState) (T : TraNumber) (may : Prop) (el el' : CacheElement Obj) : Prop
  | shrunk {k : List (ListEntry Obj)} : Freed (Dead tip) el.list k → Kept k el'.list → el.nextId ≤ el'.nextId →
      Effect tip T may el el'
  | pushed {k l : List (ListEntry Obj)} {e : ListEntry Obj} : el'.list = e :: l → Freed (Dead tip) el.list k →
      Kept k l → OwnedBy T l → e.id = el.nextId → el.nextId < el'.nextId →
      (e.cacheFlags.committed = false → may ∧ e.traNumber = T) → Effect tip T may el el'

namespace Effect
variable {tip : TraNumber → TraState} {T : TraNumber} {may may' : Prop} {el m el' : CacheElement Obj}

theorem mono (h : Effect tip T may el el') (hm : may → may') : Effect tip T may' el el' := by
  cases h with
  | shrunk hf hk hn => exact .shrunk hf hk hn
  | pushed heq hf hk hown hid hn hc => exact .pushed heq hf hk hown hid hn fun h => ⟨hm (hc h).1, (hc h).2⟩

theorem of_kept (hk : Kept el.list el'.list) (hn : el.nextId ≤ el'.nextId) : Effect tip T may el el' :=
  .shrunk (.inl rfl) hk hn

theorem of_freed (hf : Freed (Dead tip) el.list m.list) (hn : m.nextId = el.nextId) (h : Effect tip T may m el') :
    Effect tip T may el el' := by
  cases h with
  | shrunk hf' hk hle => exact .shrunk (hf.trans hf') hk (hn ▸ hle)
  | pushed heq hf' hk hown hid hlt hc =>
    exact .pushed heq (hf.trans hf') hk hown (hid.trans hn) (hn ▸ hlt) hc

end Effect

namespace ListEntry
variable {nextTrans : TraNumber} {e : ListEntry Obj}

@[simp] theorem commit_id : (e.commit nextTrans).2.id = e.id := by
  rw [commit]
  split <;> rfl

@[simp] theorem commit_committed : (e.commit nextTrans).2.cacheFlags.committed = true := by
  rw [commit]
  split
  · assumption
  · rfl

end ListEntry

namespace CacheElement
variable (cx : Context Obj) {O T cur : TraNumber} (obj : Option Obj) (fl : CacheFlag) {el : CacheElement Obj}

@[simp] theorem setNewResetAt_list (oldVal newVal : TraNumber) (el : CacheElement Obj) :
    (setNewResetAt oldVal newVal el).list = el.list := by
  rw [setNewResetAt]
  split <;> rfl

@[simp] theorem setNewResetAt_nextId (oldVal newVal : TraNumber) (el : CacheElement Obj) :
    (setNewResetAt oldVal newVal el).nextId = el.nextId := by
  rw [setNewResetAt]
  split <;> rfl

theorem collect_kept (cx : Context Obj) (el : CacheElement Obj) : Kept el.list (collect cx el).list := by
  rw [collect]
  split
  · rw [setNewResetAt_list]
    exact ListEntry.gc_kept _ _ (fun h => absurd rfl h) _
  · exact .refl _ _

@[simp] theorem collect_nextId (cx : Context Obj) (el : CacheElement Obj) : (collect cx el).nextId = el.nextId := by
  rw [collect]
  split
  · rw [setNewResetAt_nextId]
  · rfl

theorem scanHead_spec {e : ListEntry Obj} {l : List (ListEntry Obj)} (h : el.list = e :: l) :
    ∃ e', (scanHead cx fl el).2 = { el with list := e' :: l } ∧ SameVersion e e' := by
  refine ⟨(e.scan cx.versioned fl).2, ?_, ListEntry.scan_same ..⟩
  simp only [scanHead, h]

theorem scanStored_spec {e : ListEntry Obj} {l : List (ListEntry Obj)} (h : el.list = e :: l) :
    ∃ e', (scanStored cx obj fl el).2 = { el with list := e' :: l } ∧ SameVersion e e' := by
  rw [scanStored]
  split
  · exact scanHead_spec cx fl h
  · exact ⟨e, by rw [← h], .refl e⟩

/-- `storeObject` is refused, or its entry is on top and not committed only if the caller asked for that or the
    object could not be loaded. -/
theorem storeObject_spec (hown : OwnedBy O el.list) (hclear : Clear cx.tip cur el.list) :
    ∃ k, Freed (Dead cx.tip) el.list k ∧
      (Kept k (storeObject cx cur obj fl el).2.list ∨
        (storeObject cx cur obj fl el).1 ≠ .ok .dup ∧
        ∃ e l, (storeObject cx cur obj fl el).2.list = e :: l ∧ Kept k l ∧ OwnedBy cur l ∧ e.id = el.nextId ∧
          (e.cacheFlags.committed = false → (fl.nocommit = true ∨ obj ≠ none) ∧ e.traNumber = cur)) ∧
      (storeObject cx cur obj fl el).2.nextId = el.nextId + 1 := by
  obtain ⟨m, hm⟩ : ∃ m, m = collect cx el := ⟨_, rfl⟩
  have hmk : Kept el.list m.list := hm ▸ collect_kept cx el
  have hmn : m.nextId = el.nextId := hm ▸ collect_nextId cx el
  obtain ⟨k, hf, hadd⟩ := ListEntry.add_spec cx
    { id := m.nextId, object := obj, traNumber := cur, cacheFlags := fl } (hown.kept hmk) (hclear.kept hmk)
  obtain ⟨k', hf', hk'⟩ := hf.of_kept hmk
  refine ⟨k', hf', ?_⟩
  rcases hadd with hadd | ⟨hadd, hk⟩
  · simp only [storeObject, ← hm, hadd]
    exact ⟨.inl hk', by rw [hmn]⟩
  · obtain ⟨a, ha⟩ : ∃ a, a = setNewResetAt el.resetAt cur { m with
      list := { id := m.nextId, object := obj, traNumber := cur, cacheFlags := fl } :: k, nextId := m.nextId + 1 } :=
      ⟨_, rfl⟩
    have hal : a.list = { id := m.nextId, object := obj, traNumber := cur, cacheFlags := fl } :: k := by
      rw [ha, setNewResetAt_list]
    have han : a.nextId = el.nextId + 1 := by rw [ha, setNewResetAt_nextId, hmn]
    obtain ⟨e, he, hs⟩ := scanStored_spec cx obj fl hal
    simp only [storeObject, ← hm, hadd, ← ha]
    cases hscan : scanStored cx obj fl a with
    | mk r b =>
      rw [hscan] at he
      subst he
      cases r with
      | error x =>
        have hobj : obj ≠ none := by
          rintro rfl
          cases hscan
        exact ⟨.inr ⟨by rintro ⟨⟩, e, k, rfl, hk', hk, hs.id.trans hmn, fun _ => ⟨.inr hobj, hs.traNumber⟩⟩, han⟩
      | ok scanResult =>
        cases hnc : fl.nocommit with
        | true =>
          exact ⟨.inr ⟨by cases scanResult <;> rintro ⟨⟩, e, k, rfl, hk', hk, hs.id.trans hmn,
            fun _ => ⟨.inl rfl, hs.traNumber⟩⟩, han⟩
        | false =>
          refine ⟨.inr ⟨by cases scanResult <;> rintro ⟨⟩, (e.commit cx.next).2, k, rfl, hk',
            hk, ?_, fun hc => ?_⟩, han⟩
          · rw [ListEntry.commit_id, hs.id]
            exact hmn
          · rw [ListEntry.commit_committed] at hc
            cases hc

theorem storeObject_effect (hown : OwnedBy O el.list) (hclear : Clear cx.tip cur el.list) :
    Effect cx.tip cur (fl.nocommit = true ∨ obj ≠ none) el (storeObject cx cur obj fl el).2 := by
  obtain ⟨k, hf, hk | ⟨-, e, l, heq, hk, hl, hid, hc⟩, hn⟩ := storeObject_spec cx obj fl hown hclear
  · exact .shrunk hf hk (hn ▸ Nat.le_succ _)
  · exact .pushed heq hf hk hl hid (hn ▸ Nat.lt_succ_self _) hc

theorem getEntry_kept (h : fl.autocreate = false ∨ el.list ≠ []) :
    Kept el.list (getEntry cx T fl el).2.list ∧ (getEntry cx T fl el).2.nextId = el.nextId := by
  cases hl : el.list with
  | cons e older =>
    simp only [getEntry, hl]
    exact ⟨ListEntry.getEntry_kept .., trivial⟩
  | nil =>
    simp only [getEntry, hl, h.resolve_right (not_not_intro hl)]
    exact ⟨hl ▸ .refl _ _, rfl⟩

theorem autocreated_id : (autocreated cx T fl el).id = el.nextId := by
  rw [autocreated]
  split
  · rw [ListEntry.commit_id]
  · rfl

theorem autocreated_uncommitted (h : (autocreated cx T fl el).cacheFlags.committed = false) :
    fl.nocommit = true ∧ (autocreated cx T fl el).traNumber = T := by
  rw [autocreated] at h ⊢
  cases hn : fl.nocommit with
  | true => exact ⟨rfl, rfl⟩
  | false =>
    rw [hn, Bool.not_false, if_pos rfl, ListEntry.commit_committed] at h
    cases h

theorem getEntry_effect : Effect cx.tip T (fl.autocreate = true ∧ fl.nocommit = true) el (getEntry cx T fl el).2 := by
  by_cases hkept : fl.autocreate = false ∨ el.list ≠ []
  · obtain ⟨hk, hn⟩ := getEntry_kept cx fl (T := T) hkept
    exact .of_kept hk (Nat.le_of_eq hn.symm)
  · rw [not_or, Bool.not_eq_false, not_not] at hkept
    obtain ⟨hauto, hl⟩ := hkept
    obtain ⟨m, hm⟩ : ∃ m : CacheElement Obj,
      m = { el with list := [autocreated cx T fl el], nextId := el.nextId + 1 } := ⟨_, rfl⟩
    obtain ⟨e, he, hs⟩ := scanHead_spec cx fl (show m.list = [autocreated cx T fl el] by rw [hm])
    have hget : (getEntry cx T fl el).2 = (scanHead cx fl m).2 := by
      simp only [getEntry, hl, hauto, ← hm]
      simp only [Bool.not_true, Bool.false_eq_true, if_false]
      split <;> rename_i h <;> rw [h]
    rw [hget, he, hm]
    have hnone : OwnedBy T ([] : List (ListEntry Obj)) := fun x hx => nomatch (hx : x ∈ [])
    refine .pushed (k := []) rfl (.inl hl.symm) (.nil _) hnone (hs.id.trans (autocreated_id cx fl)) (Nat.lt_succ_self _)
      fun hc => ?_
    obtain ⟨hno, htra⟩ := autocreated_uncommitted cx fl (hs.committed ▸ hc)
    exact ⟨⟨hauto, hno⟩, hs.traNumber.trans htra⟩

theorem makeObject_effect (hown : OwnedBy O el.list) (hclear : Clear cx.tip cur el.list) :
    Effect cx.tip cur True el (makeObject cx cur fl el).2 := by
  rw [makeObject]
  split
  · exact .of_kept (.refl _ _) (Nat.le_refl _)
  · rename_i obj _
    have h := (storeObject_effect cx (some obj) { fl with erased := false } hown hclear).mono
      fun _ => trivial
    split <;> (rename_i heq; rw [heq] at h; exact h)

theorem isAvailable_effect (hown : OwnedBy O el.list) (hclear : Clear cx.tip T el.list) :
    Freed (Dead cx.tip) el.list (isAvailable cx T el).2.list ∧ (isAvailable cx T el).2.nextId = el.nextId :=
  ⟨available_spec cx hown hclear, rfl⟩

theorem newVersion_effect (hown : OwnedBy O el.list) (hclear : Clear cx.tip cur el.list) :
    Effect cx.tip cur True el (newVersion cx cur el).2 := by
  obtain ⟨hf, hn⟩ := isAvailable_effect cx hown hclear
  rw [newVersion]
  split <;> rename_i m hm <;> rw [hm] at hf hn
  · exact .of_freed hf hn (.of_kept (.refl _ _) (Nat.le_refl _))
  · exact .of_freed hf hn (.of_kept (.refl _ _) (Nat.le_refl _))
  · exact .of_freed hf hn ((storeObject_effect cx none .tagForUpdate (hown.freed hf) (hclear.freed hf)).mono
      fun _ => trivial)
  · exact .of_freed hf hn ((storeObject_effect cx none .tagForUpdate (hown.freed hf) (hclear.freed hf)).mono
      fun _ => trivial)

theorem erase_effect (hown : OwnedBy O el.list) (hclear : Clear cx.tip cur el.list) :
    Effect cx.tip cur True el (erase cx cur el).2 := by
  obtain ⟨k, hf, hcase, hn⟩ := storeObject_spec cx none { erased := true, nocommit := true } hown hclear
  have heff := storeObject_effect cx none { erased := true, nocommit := true } hown hclear
  rw [erase]
  split
  · exact .of_kept (.refl _ _) (Nat.le_refl _)
  · split
    · rename_i hs
      rw [hs] at heff
      exact heff.mono fun _ => trivial
    · rename_i m hs
      rw [hs] at hcase hn
      obtain ⟨hk, hn'⟩ := getEntry_kept cx {} (T := 0) (.inl rfl)
      have hmk : Kept k m.list := hcase.resolve_right fun h => h.1 rfl
      have hle : el.nextId ≤ (getEntry cx 0 {} m).2.nextId := by
        rw [hn', hn]
        exact Nat.le_succ _
      have hshrunk : Effect cx.tip cur True el (getEntry cx 0 {} m).2 := .shrunk hf (hmk.trans hk) hle
      split <;> (rename_i hg; rw [hg] at hshrunk; exact hshrunk)
    · rename_i hs
      rw [hs] at heff
      exact heff.mono fun _ => trivial

theorem upgrade_effect [DecidableEq Obj] (fromObj : Option Obj) : Effect cx.tip T False el
    (upgrade T fromObj el).2 := by
  rw [upgrade]
  split
  · exact .of_kept (.refl _ _) (Nat.le_refl _)
  · rename_i l older hl
    split
    · exact .of_kept (.refl _ _) (Nat.le_refl _)
    · split
      · exact .of_kept (.refl _ _) (Nat.le_refl _)
      · rename_i hc
        have hc : l.cacheFlags.committed = true := by simpa using hc
        refine .pushed rfl (.inl rfl) (hl ▸ .refl _ _) ?_ rfl (Nat.lt_succ_self _) Bool.noConfusion
        intro x hx
        rw [above_cons_committed hc] at hx
        cases hx

end CacheElement
end Firebird.Mdc
