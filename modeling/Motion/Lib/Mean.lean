import Mathlib

/-! Weighted sums over a list, and the mean they give, rounded down. -/

namespace Mean

variable {w f g : α → Nat} {l : List α} {b : Nat}

/-- The sum of the values, each as often as it weighs. -/
def weigh (w : α → Nat) (l : List α) (f : α → Nat) : Nat := (l.map fun x => w x * f x).sum

@[simp] theorem weigh_nil : weigh w [] f = 0 := rfl

@[simp] theorem weigh_cons (x : α) : weigh w (x :: l) f = w x * f x + weigh w l f := by
  simp [weigh]

theorem weigh_mono (h : ∀ x ∈ l, f x ≤ g x) : weigh w l f ≤ weigh w l g := by
  induction l with
  | nil => simp
  | cons x l ih =>
    have hx := Nat.mul_le_mul_left (w x) (h x (by simp))
    have hl := ih (fun y hy => h y (by simp [hy]))
    rw [weigh_cons, weigh_cons]
    omega

theorem weigh_const (b : Nat) : weigh w l (fun _ => b) = b * weigh w l (fun _ => 1) := by
  induction l with
  | nil => simp
  | cons x l ih =>
    rw [weigh_cons, weigh_cons, ih]
    ring

theorem weigh_le (h : ∀ x ∈ l, f x ≤ b) : weigh w l f ≤ b * weigh w l (fun _ => 1) := by
  rw [← weigh_const]
  exact weigh_mono h

theorem le_weigh (h : ∀ x ∈ l, b ≤ f x) : b * weigh w l (fun _ => 1) ≤ weigh w l f := by
  rw [← weigh_const]
  exact weigh_mono h

/-- One element that weighs makes the sum of the weights positive. -/
theorem weigh_pos {x : α} (hx : x ∈ l) (hw : 0 < w x) : 0 < weigh w l (fun _ => 1) := by
  induction l with
  | nil => cases hx
  | cons y l ih =>
    rw [weigh_cons]
    cases List.mem_cons.mp hx with
    | inl he =>
      subst he
      omega
    | inr hm =>
      have := ih hm
      omega

/-- Weights that are bounded sum to no more than so many for each element. -/
theorem weigh_one_le (h : ∀ x ∈ l, w x ≤ b) : weigh w l (fun _ => 1) ≤ b * l.length := by
  induction l with
  | nil => simp
  | cons x l ih =>
    have hx := h x (by simp)
    have hl := ih (fun y hy => h y (by simp [hy]))
    rw [weigh_cons, List.length_cons, Nat.mul_add]
    omega

section mean

variable (pos : 0 < weigh w l (fun _ => 1))

include pos

/-- Some value is not above the mean. -/
theorem exists_le_mean : ∃ x ∈ l, f x ≤ weigh w l f / weigh w l (fun _ => 1) := by
  by_contra hnone
  push Not at hnone
  have hle := le_weigh (w := w) (fun x hx => Nat.succ_le_of_lt (hnone x hx))
  have hlt := Nat.lt_succ_self (weigh w l f / weigh w l (fun _ => 1))
  rw [Nat.div_lt_iff_lt_mul pos] at hlt
  exact Nat.not_lt.mpr hle hlt

/-- Some value is not below it. -/
theorem exists_mean_le : ∃ x ∈ l, weigh w l f / weigh w l (fun _ => 1) ≤ f x := by
  by_contra hnone
  push Not at hnone
  have hle : weigh w l (fun x => f x + 1) ≤ weigh w l f := by
    calc weigh w l (fun x => f x + 1)
        ≤ weigh w l f / weigh w l (fun _ => 1) * weigh w l (fun _ => 1) :=
          weigh_le (fun x hx => hnone x hx)
      _ ≤ weigh w l f := Nat.div_mul_le_self _ _
  have hadd : weigh w l (fun x => f x + 1) = weigh w l f + weigh w l (fun _ => 1) := by
    clear hnone hle pos
    induction l with
    | nil => simp
    | cons x l ih =>
      rw [weigh_cons, weigh_cons, weigh_cons, ih]
      ring
  omega

end mean

end Mean
