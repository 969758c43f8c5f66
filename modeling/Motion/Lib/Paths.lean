import Mathlib

/-- Joined by steps of a neighbour relation that stay inside a set. -/
def Linked (near : α → α → Prop) (T : Set α) : α → α → Prop :=
  Relation.ReflTransGen (fun a b => near a b ∧ a ∈ T ∧ b ∈ T)

namespace Linked

variable {near : α → α → Prop} {T U : Set α} {a b c : α}

theorem refl : Linked near T a a := Relation.ReflTransGen.refl

theorem single (h : near a b) (ha : a ∈ T) (hb : b ∈ T) : Linked near T a b :=
  Relation.ReflTransGen.single ⟨h, ha, hb⟩

theorem trans (h : Linked near T a b) (k : Linked near T b c) : Linked near T a c :=
  Relation.ReflTransGen.trans h k

theorem symm (sym : ∀ a b, near a b → near b a) (h : Linked near T a b) : Linked near T b a := by
  induction h with
  | refl => exact refl
  | tail _ h ih => exact (single (sym _ _ h.1) h.2.2 h.2.1).trans ih

theorem mono (hsub : T ⊆ U) (h : Linked near T a b) : Linked near U a b := by
  induction h with
  | refl => exact refl
  | tail _ h ih => exact ih.trans (single h.1 (hsub h.2.1) (hsub h.2.2))

/-- A path that starts in the set ends in it. -/
theorem mem (h : Linked near T a b) (ha : a ∈ T) : b ∈ T := by
  cases h with
  | refl => exact ha
  | tail _ h => exact h.2.2

/-- What every step keeps, a path keeps. -/
theorem keeps {P : α → Prop} (step : ∀ a b, near a b → a ∈ T → b ∈ T → P a → P b)
    (h : Linked near T a b) (ha : P a) : P b := by
  induction h with
  | refl => exact ha
  | tail _ h ih => exact step _ _ h.1 h.2.1 h.2.2 ih

end Linked
