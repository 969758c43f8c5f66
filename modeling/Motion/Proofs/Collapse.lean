import Motion.Proofs.Tables

/-! The redirect loop of `blob_detect` on any table whose links lead down to entries of
the table: one ascending pass collapses every chain. -/

namespace Motion

variable {w n : Nat} {t : Table w}

/-- An entry of a table of `n`, slot 0 apart. -/
def Listed (n i : Nat) : Prop := 1 ≤ i ∧ i < n

/-- Links that lead down and not to slot 0. -/
def LeadsDown (n : Nat) (t : Table w) : Prop :=
  ∀ i, Listed n i → 1 ≤ links t i ∧ links t i ≤ i

theorem LeadsDown.falls (h : LeadsDown n t) : Links.Falls (Listed n) (links t) := by
  intro i hi
  obtain ⟨h1, hle⟩ := h i hi
  exact ⟨⟨h1, Nat.lt_of_le_of_lt hle hi.2⟩, hle⟩

/-- An entry whose link is its own link is left as it is. -/
theorem redirectEntry_idle {i : Nat} (h : links t (links t i) = links t i) :
    redirectEntry t i = t := by
  unfold redirectEntry
  split
  · ext j
    cases Decidable.em (j = i) with
    | inl hj =>
      subst hj
      simp only [Buf.write_same]
      exact congrArg (fun l => { t j with label := l }) h
    | inr hj => exact Buf.write_other t _ hj
  · rfl

/-- After the pass every entry holds its root in the table before it. -/
theorem LeadsDown.redirect_root (h : LeadsDown n t) {i : Nat} (hi : Listed n i) :
    links ((upto 1 n).foldl redirectEntry t) i = Links.root (links t) i :=
  Links.redirect_root (redirectEntry_redirects (Listed n)) (fun _ hi => hi) h.falls i hi

/-- One pass is enough: it leaves every entry the end of its path, which is its own link and
the least entry on the path; entries share it exactly when their paths meet, and a second
pass has nothing to do. -/
theorem redirect_collapses (t : Table w) (n : Nat) (down : LeadsDown n t) :
    let t' := (upto 1 n).foldl redirectEntry t
    (∀ i, Listed n i →
      ((∃ k, (links t)^[k] i = links t' i) ∧ links t (links t' i) = links t' i) ∧
      links t' (links t' i) = links t' i ∧ ∀ k, links t' i ≤ (links t)^[k] i) ∧
    (∀ i j, Listed n i → Listed n j →
      (links t' i = links t' j ↔ Walks.Meet (links t) i j)) ∧
    (upto 1 n).foldl redirectEntry t' = t' := by
  intro t'
  have hroot : ∀ i, Listed n i → links t' i = Links.root (links t) i :=
    fun i hi => down.redirect_root hi
  have hself : ∀ i, Listed n i → links t' (links t' i) = links t' i := by
    intro i hi
    rw [hroot i hi, hroot _ (Links.root_used down.falls hi)]
    exact Links.root_self (Links.root_fixed down.falls hi)
  refine ⟨fun i hi => ⟨⟨?_, ?_⟩, hself i hi, fun k => ?_⟩, fun i j hi hj => ?_, ?_⟩
  · rw [hroot i hi]
    exact Links.root_reached (links t) i
  · rw [hroot i hi]
    exact Links.root_fixed down.falls hi
  · rw [hroot i hi]
    exact Links.root_least down.falls hi k
  · rw [hroot i hi, hroot j hj]
    exact Links.root_eq_iff down.falls hi hj
  · refine Fold.invariant (P := fun u => u = t') _ t' rfl ?_
    rintro i hi u rfl
    exact redirectEntry_idle (hself i (mem_upto.mp hi))

/-- Four entries in a chain. -/
def chain : Table 32 := ⟨fun i => { Blob.zero with label := max 1 (i - 1) }⟩

theorem redirect_collapses_chain :
    let t' := (upto 1 5).foldl redirectEntry chain
    (∀ i, Listed 5 i →
      ((∃ k, (links chain)^[k] i = links t' i) ∧ links chain (links t' i) = links t' i) ∧
      links t' (links t' i) = links t' i ∧ ∀ k, links t' i ≤ (links chain)^[k] i) ∧
    (∀ i j, Listed 5 i → Listed 5 j →
      (links t' i = links t' j ↔ Walks.Meet (links chain) i j)) ∧
    (upto 1 5).foldl redirectEntry t' = t' := by
  refine redirect_collapses chain 5 (fun i hi => ?_)
  unfold Listed at hi
  unfold links chain
  dsimp only
  omega

end Motion
