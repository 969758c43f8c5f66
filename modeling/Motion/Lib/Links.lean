import Motion.Lib.Fold
import Motion.Lib.Walks

/-! A table of links that never point upwards, and the single ascending pass
that redirects every entry to what its link's entry says. -/

namespace Links

/-- On the entries in use a link leads to an entry in use, never upwards. -/
def Falls (used : Nat → Prop) (link : Nat → Nat) : Prop :=
  ∀ i, used i → used (link i) ∧ link i ≤ i

/-- Where following the links from an entry ends. -/
def root (link : Nat → Nat) (i : Nat) : Nat :=
  if _h : link i < i then root link (link i) else i

variable {used : Nat → Prop} {link : Nat → Nat} {i j : Nat}

theorem root_below (h : link i < i) : root link i = root link (link i) := by
  rw [root, dif_pos h]

theorem root_self (h : link i = i) : root link i = i := by
  rw [root, dif_neg (by omega)]

theorem root_link (h : link i ≤ i) : root link i = root link (link i) := by
  rcases Nat.lt_or_eq_of_le h with h | h
  · exact root_below h
  · rw [h]

theorem root_le (link : Nat → Nat) (i : Nat) : root link i ≤ i := by
  induction i using Nat.strongRecOn with
  | ind i ih =>
    by_cases h : link i < i
    · rw [root_below h]
      exact Nat.le_trans (ih _ h) (Nat.le_of_lt h)
    · rw [root, dif_neg h]

/-- A property of entries that links carry along reaches the root. -/
theorem root_carries {P : Nat → Prop} (fall : Falls used link)
    (step : ∀ i, used i → P i → P (link i)) (hu : used i) (hp : P i) : P (root link i) := by
  induction i using Nat.strongRecOn with
  | ind i ih =>
    by_cases h : link i < i
    · rw [root_below h]
      exact ih _ h (fall i hu).1 (step i hu hp)
    · rwa [root, dif_neg h]

theorem root_used (fall : Falls used link) (hu : used i) : used (root link i) :=
  root_carries fall (fun i hu _ => (fall i hu).1) hu hu

/-- The root is its own link. -/
theorem root_fixed (fall : Falls used link) (hu : used i) :
    link (root link i) = root link i := by
  induction i using Nat.strongRecOn with
  | ind i ih =>
    by_cases h : link i < i
    · rw [root_below h]
      exact ih _ h (fall i hu).1
    · have := (fall i hu).2
      rw [root, dif_neg h]
      omega

/-- It is on the path. -/
theorem root_reached (link : Nat → Nat) (i : Nat) : ∃ k, link^[k] i = root link i := by
  induction i using Nat.strongRecOn with
  | ind i ih =>
    by_cases h : link i < i
    · obtain ⟨k, hk⟩ := ih _ h
      exact ⟨k + 1, by rw [Function.iterate_succ_apply, hk, root_below h]⟩
    · exact ⟨0, by rw [root, dif_neg h]; rfl⟩

/-- Everything on the path has the same root. -/
theorem root_iterate (fall : Falls used link) (hu : used i) (k : Nat) :
    root link (link^[k] i) = root link i := by
  have along : used (link^[k] i) ∧ root link (link^[k] i) = root link i := by
    induction k with
    | zero => exact ⟨hu, rfl⟩
    | succ k ih =>
      rw [Function.iterate_succ_apply', ← root_link (fall _ ih.1).2]
      exact ⟨(fall _ ih.1).1, ih.2⟩
  exact along.2

/-- The root is the least entry on the path. -/
theorem root_least (fall : Falls used link) (hu : used i) (k : Nat) :
    root link i ≤ link^[k] i := by
  rw [← root_iterate fall hu k]
  exact root_le link _

/-- One root, and paths that meet. -/
theorem root_eq_iff (fall : Falls used link) (hi : used i) (hj : used j) :
    root link i = root link j ↔ Walks.Meet link i j := by
  constructor
  · intro he
    obtain ⟨k, hk⟩ := root_reached link i
    obtain ⟨l, hl⟩ := root_reached link j
    exact ⟨k, l, by rw [hk, hl, he]⟩
  · rintro ⟨k, l, he⟩
    rw [← root_iterate fall hi k, he, root_iterate fall hj l]

/-- One entry's turn in the pass: it takes its link's entry, others stay. An
unused entry may change in any way. -/
structure Redirects (used : Nat → Prop) (lk : τ → Nat → Nat) (f : τ → Nat → τ) : Prop where
  self : ∀ t i, used i → used (lk t i) → lk (f t i) i = lk t (lk t i)
  other : ∀ t i j, j ≠ i → lk (f t i) j = lk t j

/-- Where entries lead once some of them, in ascending order, have been pointed at what their
links' entries say by then. -/
def followed (turns : Nat → Prop) [DecidablePred turns] (link : Nat → Nat) (i : Nat) : Nat :=
  if _h : turns i ∧ link i < i then followed turns link (link i) else link i

section followed

variable {turns : Nat → Prop} [DecidablePred turns]

theorem followed_below (ht : turns i) (h : link i < i) :
    followed turns link i = followed turns link (link i) := by
  rw [followed, dif_pos ⟨ht, h⟩]

theorem followed_once (h : ¬(turns i ∧ link i < i)) : followed turns link i = link i := by
  rw [followed, dif_neg h]

/-- With all entries in use pointed on they lead to their roots. -/
theorem followed_root (fall : Falls used link) (all : ∀ i, used i → turns i) (hu : used i) :
    followed turns link i = root link i := by
  induction i using Nat.strongRecOn with
  | ind i ih =>
    by_cases h : link i < i
    · rw [followed_below (all i hu) h, root_below h]
      exact ih _ h (fall i hu).1
    · have := (fall i hu).2
      rw [followed_once (fun hand => h hand.2), root, dif_neg h]
      omega

end followed

/-- After one ascending pass the entries in use lead where they are followed to: those outside
the pass keep their links. The entries below the current one already do, this is what carries
the induction, mixing rewritten entries with original ones. -/
theorem redirect_followed {lk : τ → Nat → Nat} {f : τ → Nat → τ} {a n : Nat} {t : τ}
    (turn : Redirects used lk f) (fall : Falls used (lk t)) :
    ∀ i, used i → lk ((List.range' a (n - a)).foldl f t) i =
      followed (fun i => a ≤ i ∧ i < n) (lk t) i := by
  suffices h : ∀ k ≤ n - a, ∀ i, used i → lk ((List.range' a k).foldl f t) i =
      if i < a + k then followed (fun i => a ≤ i ∧ i < n) (lk t) i else lk t i by
    intro i hu
    rw [h (n - a) (Nat.le_refl _) i hu]
    split
    · rfl
    · exact (followed_once (by omega)).symm
  intro k
  induction k with
  | zero =>
    intro _ i _
    rw [List.range'_zero, List.foldl_nil]
    split
    · exact (followed_once (by omega)).symm
    · rfl
  | succ k ih =>
    intro hk i hu
    rw [List.range'_concat, List.foldl_append]
    simp only [Nat.one_mul, List.foldl_cons, List.foldl_nil]
    have hl := fall i hu
    by_cases he : i = a + k
    · subst he
      have here := ih (by omega) (a + k) hu
      rw [if_neg (by omega)] at here
      rw [turn.self _ _ hu (by rw [here]; exact hl.1), here, if_pos (by omega),
        ih (by omega) _ hl.1]
      by_cases hlt : lk t (a + k) < a + k
      · rw [if_pos hlt, followed_below (by omega) hlt]
      · have hself : lk t (a + k) = a + k := by omega
        rw [if_neg hlt, followed_once (fun hand => hlt hand.2), hself]
        exact hself
    · rw [turn.other _ _ _ he, ih (by omega) i hu]
      by_cases hlt : i < a + k
      · rw [if_pos hlt, if_pos (by omega)]
      · rw [if_neg hlt, if_neg (by omega)]

/-- After one ascending pass over all entries in use, every one of them holds its root. -/
theorem redirect_root {lk : τ → Nat → Nat} {f : τ → Nat → τ} {a n : Nat} {t : τ}
    (turn : Redirects used lk f) (range : ∀ i, used i → a ≤ i ∧ i < n)
    (fall : Falls used (lk t)) :
    ∀ i, used i → lk ((List.range' a (n - a)).foldl f t) i = root (lk t) i := by
  intro i hu
  rw [redirect_followed turn fall i hu, followed_root fall range hu]

/-- Where an ascending pass over all entries leaves one whatever the links: two links past
where its path stops falling. -/
def settled (link : Nat → Nat) (i : Nat) : Nat := link (link (root link i))

/-- Two tables of links that say the same of entries numbered in the same order. -/
structure Matches (R : Nat → Nat → Prop) (f g : Nat → Nat) : Prop where
  link : ∀ i j, R i j → R (f i) (g j)
  order : ∀ i j k l, R i j → R k l → (i < k ↔ j < l)

namespace Matches

variable {R : Nat → Nat → Prop} {f g : Nat → Nat} {k l : Nat}

theorem eq_iff (h : Matches R f g) (hij : R i j) (hkl : R k l) : i = k ↔ j = l := by
  have h1 := h.order i j k l hij hkl
  have h2 := h.order k l i j hkl hij
  omega

theorem root (h : Matches R f g) (hij : R i j) : R (Links.root f i) (Links.root g j) := by
  induction i using Nat.strongRecOn generalizing j with
  | ind i ih =>
    have hlink := h.link i j hij
    have hdown := h.order _ _ _ _ hlink hij
    by_cases hlt : f i < i
    · rw [root_below hlt, root_below (hdown.mp hlt)]
      exact ih _ hlt hlink
    · rwa [Links.root, dif_neg hlt, Links.root, dif_neg (mt hdown.mpr hlt)]

theorem followed (h : Matches R f g) {turns turns' : Nat → Prop} [DecidablePred turns]
    [DecidablePred turns'] (same : ∀ i j, R i j → (turns i ↔ turns' j)) (hij : R i j) :
    R (Links.followed turns f i) (Links.followed turns' g j) := by
  induction i using Nat.strongRecOn generalizing j with
  | ind i ih =>
    have hlink := h.link i j hij
    have hdown := and_congr (same i j hij) (h.order _ _ _ _ hlink hij)
    by_cases hlt : turns i ∧ f i < i
    · have hlt' := hdown.mp hlt
      rw [followed_below hlt.1 hlt.2, followed_below hlt'.1 hlt'.2]
      exact ih _ hlt.2 hlink
    · rwa [followed_once hlt, followed_once (mt hdown.mpr hlt)]

theorem settled (h : Matches R f g) (hij : R i j) : R (Links.settled f i) (Links.settled g j) :=
  h.link _ _ (h.link _ _ (h.root hij))

end Matches

end Links
