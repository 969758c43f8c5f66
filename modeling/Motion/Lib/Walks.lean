import Mathlib

/-! Following a function from two points until the walks come together. -/

namespace Walks

variable {α : Type} {P : α → Prop} {f g : α → α} {a b c : α}

/-- The walks from two points come together. -/
def Meet (f : α → α) (a b : α) : Prop := ∃ k l, f^[k] a = f^[l] b

namespace Meet

theorem refl : Meet f a a := ⟨0, 0, rfl⟩

theorem step : Meet f a (f a) := ⟨1, 0, rfl⟩

theorem symm (h : Meet f a b) : Meet f b a := by
  obtain ⟨k, l, h⟩ := h
  exact ⟨l, k, h.symm⟩

/-- One goes on from where two walks meet until the third has come as far. -/
theorem trans (h : Meet f a b) (h' : Meet f b c) : Meet f a c := by
  obtain ⟨k, l, h⟩ := h
  obtain ⟨m, n, h'⟩ := h'
  refine ⟨m + k, l + n, ?_⟩
  calc f^[m + k] a = f^[m] (f^[l] b) := by rw [Function.iterate_add_apply, h]
    _ = f^[l] (f^[m] b) := by
      rw [← Function.iterate_add_apply, Nat.add_comm, Function.iterate_add_apply]
    _ = f^[l + n] c := by rw [h', Function.iterate_add_apply]

end Meet

/-- Joined by the steps of the points of a set, taken either way. -/
def Threaded (P : α → Prop) (f : α → α) : α → α → Prop :=
  Relation.EqvGen fun a b => P a ∧ f a = b

theorem Threaded.meet (h : Threaded P f a b) : Meet f a b := by
  induction h with
  | rel a b h => exact h.2 ▸ Meet.step
  | refl a => exact Meet.refl
  | symm a b _ ih => exact ih.symm
  | trans a b c _ _ ih ih' => exact ih.trans ih'

theorem threaded_iterate (closed : ∀ a, P a → P (f a)) (ha : P a) (k : Nat) :
    Threaded P f a (f^[k] a) ∧ P (f^[k] a) := by
  induction k with
  | zero => exact ⟨.refl a, ha⟩
  | succ k ih =>
    rw [Function.iterate_succ_apply']
    exact ⟨.trans _ _ _ ih.1 (.rel _ _ ⟨ih.2, rfl⟩), closed _ ih.2⟩

/-- Points of a set that the steps do not leave are joined when their walks meet. -/
theorem threaded_iff (closed : ∀ a, P a → P (f a)) (ha : P a) (hb : P b) :
    Threaded P f a b ↔ Meet f a b := by
  refine ⟨Threaded.meet, ?_⟩
  rintro ⟨k, l, h⟩
  have hk := (threaded_iterate closed ha k).1
  have hl := (threaded_iterate closed hb l).1
  rw [h] at hk
  exact .trans _ _ _ hk (.symm _ _ hl)

/-- Nothing is parted by other steps if no point is parted from where it stepped before. -/
theorem parted_iff (closed : ∀ a, P a → P (f a)) :
    (∀ a b, P a → P b → Meet f a b → Meet g a b) ↔ ∀ a, P a → Meet g a (f a) := by
  constructor
  · exact fun h a ha => h a (f a) ha (closed a ha) Meet.step
  · intro h a b ha hb hm
    have along : ∀ a, P a → ∀ k, Meet g a (f^[k] a) := by
      intro a ha k
      induction k with
      | zero => exact Meet.refl
      | succ k ih =>
        rw [Function.iterate_succ_apply']
        exact ih.trans (h _ (threaded_iterate closed ha k).2)
    obtain ⟨k, l, he⟩ := hm
    have hk := along a ha k
    rw [he] at hk
    exact hk.trans (along b hb l).symm

end Walks
