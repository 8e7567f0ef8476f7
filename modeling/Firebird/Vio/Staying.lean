import Firebird.Tpc.Snapshots
import Firebird.Vio.IntermediateGc

/-! # Versions that stay

Of the versions kept for one snapshot only the newest stays, unless a version of a transaction that is not committed is
between them. -/

namespace Firebird.Vio

open List
open Tpc (TraNumber CommitNumber ActiveSnapshots IsCommitted)

section Split
variable {α β : Type} {snapshot : α → CommitNumber} {previous : CommitNumber} {versions : List α} {p : α → Bool}

theorem staying_cons_zero (r : α) (older : List α) :
    staying snapshot 0 (r :: older) = r :: staying snapshot (snapshot r) older :=
  if_neg fun h => h.1 h.2

theorem staying_sublist (snapshot : α → CommitNumber) (previous : CommitNumber) (versions : List α) :
    (staying snapshot previous versions).Sublist versions := by
  induction versions generalizing previous with
  | nil => exact .slnil
  | cons r older ih =>
    rw [staying]
    split
    · exact (ih _).cons r
    · exact (ih _).cons_cons r

theorem staying_eq_of_going (h : going snapshot previous versions = []) :
    staying snapshot previous versions = versions := by
  induction versions generalizing previous with
  | nil => rfl
  | cons r older ih =>
    rw [going] at h
    rw [staying]
    split at h
    · cases h
    · rename_i hstays
      rw [if_neg hstays, ih h]

theorem staying_map (f : β → α) (versions : List β) :
    staying snapshot previous (versions.map f) = (staying (snapshot ∘ f) previous versions).map f := by
  induction versions generalizing previous with
  | nil => rfl
  | cons r older ih =>
    rw [map_cons, staying, staying]
    simp only [ih, Function.comp_apply]
    split <;> simp

theorem filter_staying (hp : ∀ r, p r → snapshot r = 0) :
    (staying snapshot previous versions).filter p = versions.filter p := by
  induction versions generalizing previous with
  | nil => rfl
  | cons r older ih =>
    rw [staying]
    split
    · rename_i hgoes
      rw [ih, filter_cons_of_neg fun hr => hgoes.1 (hp r hr)]
    · rw [filter_cons, filter_cons, ih]

/-- What is looked for is found first among the staying versions, if one version that has it for a
    snapshot tells that all versions for the snapshot have it. -/
theorem find?_staying (hp : ∀ r n, snapshot r ≠ 0 → snapshot n = snapshot r → p r → p n)
    (hprevious : previous ≠ 0 → ∃ n, snapshot n = previous ∧ ¬p n) :
    (staying snapshot previous versions).find? p = versions.find? p := by
  induction versions generalizing previous with
  | nil => rfl
  | cons r older ih =>
    rw [staying]
    split
    · rename_i hgoes
      obtain ⟨hne, heq⟩ := hgoes
      obtain ⟨n, hn, hnot⟩ := hprevious (heq ▸ hne)
      have hr : ¬p r := fun hr => hnot (hp r n hne (hn.trans heq.symm) hr)
      rw [ih fun _ => ⟨r, rfl, hr⟩, find?_cons_of_neg hr]
    · cases hr : p r with
      | true => rw [find?_cons_of_pos hr, find?_cons_of_pos hr]
      | false =>
        have hnot : ¬p r := by simp [hr]
        rw [find?_cons_of_neg hnot, find?_cons_of_neg hnot, ih fun _ => ⟨r, rfl, hnot⟩]

end Split

variable {cacheState : TraNumber → CommitNumber} {active : ActiveSnapshots} {s : CommitNumber} {all : List Version}

def newestCommitted (cacheState : TraNumber → CommitNumber) (versions : List Version) : Option Version :=
  versions.find? fun v => IsCommitted (cacheState v.transaction)

def versionAt (cacheState : TraNumber → CommitNumber) (s : CommitNumber) (versions : List Version) : Option Version :=
  versions.find? fun v => IsCommitted (cacheState v.transaction) ∧ cacheState v.transaction ≤ s

/-- The versions that intermediate garbage collection keeps; a deleted primary version is no part of the split. -/
def keptVersions (cacheState : TraNumber → CommitNumber) (active : ActiveSnapshots) : List Version → List Version
  | [] => []
  | head :: older =>
    let snapshot := fun v : Version => snapshotForVersion cacheState active v.transaction
    if head.deleted then head :: staying snapshot 0 older else staying snapshot 0 (head :: older)

/-- What garbage collection must keep for the live snapshots and for unfinished transactions. -/
structure KeepsReads (cacheState : TraNumber → CommitNumber) (live : CommitNumber → Prop) (all kept : List Version) :
    Prop where
  sublist : kept.Sublist all
  head : kept.head? = all.head?
  unfinished : kept.filter (fun v => ¬IsCommitted (cacheState v.transaction)) =
    all.filter fun v => ¬IsCommitted (cacheState v.transaction)
  newest : newestCommitted cacheState kept = newestCommitted cacheState all
  snapshots : ∀ s, live s → versionAt cacheState s kept = versionAt cacheState s all

theorem isCommitted_of_snapshotForVersion {n : TraNumber} (h : snapshotForVersion cacheState active n ≠ 0) :
    IsCommitted (cacheState n) ∧ cacheState n ≤ active.lastCommit ∧
      snapshotForVersion cacheState active n = active.getSnapshotForVersion (cacheState n) := by
  unfold snapshotForVersion at h ⊢
  split at h
  · rename_i hcommitted
    refine ⟨hcommitted, ?_, if_pos hcommitted⟩
    by_contra hlt
    rw [ActiveSnapshots.getSnapshotForVersion, if_pos (Nat.not_le.mp hlt)] at h
    exact h rfl
  · exact absurd rfl h

theorem le_getSnapshotForVersion {cn : CommitNumber} (h : cn ≤ active.lastCommit) :
    cn ≤ active.getSnapshotForVersion cn := by
  rw [ActiveSnapshots.getSnapshotForVersion, if_neg (Nat.not_lt.mpr h), Tpc.locateGreatEqual]
  split
  · rename_i t hloc
    split at hloc
    · rename_i hne
      cases hloc
      exact (Finset.mem_filter.mp (Finset.min'_mem _ hne)).2
    · cases hloc
  · exact h

theorem sees_of_same_snapshot {n m : TraNumber} (hlisted : s < active.lastCommit → s ∈ active.snapshots)
    (hne : snapshotForVersion cacheState active n ≠ 0)
    (heq : snapshotForVersion cacheState active m = snapshotForVersion cacheState active n) (hn : cacheState n ≤ s) :
    cacheState m ≤ s := by
  obtain ⟨-, -, hsnapshot⟩ := isCommitted_of_snapshotForVersion hne
  obtain ⟨-, hle, hsnapshot'⟩ := isCommitted_of_snapshotForVersion (heq ▸ hne)
  by_cases hlast : s < active.lastCommit
  · calc
      cacheState m ≤ active.getSnapshotForVersion (cacheState m) := le_getSnapshotForVersion hle
      _ = active.getSnapshotForVersion (cacheState n) := by rw [← hsnapshot', heq, hsnapshot]
      _ ≤ s := Tpc.TipCache.getSnapshotForVersion_le (hlisted hlast) hn hlast
  · exact hle.trans (Nat.not_lt.mp hlast)

variable {live : CommitNumber → Prop}

theorem keepsReads_staying (hlive : ∀ s, live s → s < active.lastCommit → s ∈ active.snapshots)
    (all : List Version) :
    KeepsReads cacheState live all
      (staying (fun v : Version => snapshotForVersion cacheState active v.transaction) 0 all) where
  sublist := staying_sublist ..
  head := by
    cases all with
    | nil => rfl
    | cons head older =>
      rw [staying_cons_zero]
      rfl
  unfinished := by
    refine filter_staying fun v hv => ?_
    rw [snapshotForVersion, if_neg (by simpa using hv)]
  newest := by
    refine find?_staying (fun v n hne heq hv => ?_) fun hne => absurd rfl hne
    exact decide_eq_true (isCommitted_of_snapshotForVersion (heq ▸ hne)).1
  snapshots s hs := by
    refine find?_staying (fun v n hne heq hv => ?_) fun hne => absurd rfl hne
    have hle := (of_decide_eq_true hv).2
    exact decide_eq_true
      ⟨(isCommitted_of_snapshotForVersion (heq ▸ hne)).1, sees_of_same_snapshot (hlive s hs) hne heq hle⟩

theorem KeepsReads.refl (live : CommitNumber → Prop) (all : List Version) : KeepsReads cacheState live all all :=
  ⟨.refl all, rfl, rfl, rfl, fun _ _ => rfl⟩

theorem KeepsReads.cons {kept : List Version} (h : KeepsReads cacheState live all kept)
    (head : Version) : KeepsReads cacheState live (head :: all) (head :: kept) where
  sublist := h.sublist.cons_cons head
  head := rfl
  unfinished := by rw [filter_cons, filter_cons, h.unfinished]
  newest := by rw [newestCommitted, newestCommitted, find?_cons, ← newestCommitted, h.newest]; rfl
  snapshots s hs := by rw [versionAt, versionAt, find?_cons, ← versionAt, h.snapshots s hs]; rfl

theorem keepsReads_keptVersions
    (hlive : ∀ s, live s → s < active.lastCommit → s ∈ active.snapshots) (all : List Version) :
    KeepsReads cacheState live all (keptVersions cacheState active all) := by
  cases all with
  | nil => exact .refl live []
  | cons head older =>
    rw [keptVersions]
    split
    · exact (keepsReads_staying hlive older).cons head
    · exact keepsReads_staying hlive (head :: older)

end Firebird.Vio
