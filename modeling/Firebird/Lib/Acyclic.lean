import Mathlib

/-! # Finite relations without cycles

Induction along a relation that has no cycle and leads away from finitely many elements only. -/

namespace Firebird.Lib

variable {α : Type*} {r r' : α → α → Prop} {s : Set α}

def Acyclic (r : α → α → Prop) : Prop := ∀ a, ¬Relation.TransGen r a a

theorem Acyclic.mono (h : Acyclic r) (hle : ∀ a b, r' a b → r a b) : Acyclic r' := fun a ha =>
  h a (Relation.TransGen.mono hle a a ha)

theorem Acyclic.wellFounded (h : Acyclic r) (hs : s.Finite) (hmem : ∀ a b, r a b → a ∈ s) : WellFounded r := by
  have : IsStrictOrder α (Relation.TransGen r) :=
    { irrefl := h, trans := fun _ _ _ => Relation.TransGen.trans }
  have hon : s.WellFoundedOn (Relation.TransGen r) := hs.wellFoundedOn
  -- everything before an element lies in the finite set
  have hacc : ∀ a ∈ s, Acc r a := by
    intro a ha
    refine hon.induction (P := Acc r) ha fun a _ ih => Acc.intro a fun b hb => ?_
    exact ih b (hmem b a hb) (.single hb)
  exact ⟨fun a => Acc.intro a fun b hb => hacc b (hmem b a hb)⟩

end Firebird.Lib
