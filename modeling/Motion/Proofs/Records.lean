import Motion.Proofs.MergeLoop

/-! What the merge loop leaves behind: one exact record for each root, and
every labelled pixel in one of them. -/

namespace Motion

/-- The roots of a redirected table, highest first. -/
def roots (n : Nat) (t : Table w) (P : Finset Pixel) (lab : Pixel → Nat) : List Nat :=
  rootsDown t P lab (upto 1 n).reverse

variable {w n : Nat} {t : Table w} {P : Finset Pixel} {lab : Pixel → Nat} {clean : Nat → Prop}
  {s : Merge w}

theorem roots_sorted (n : Nat) (t : Table w) (P : Finset Pixel) (lab : Pixel → Nat) :
    (roots n t P lab).Pairwise (fun a b => b < a) :=
  (List.pairwise_reverse.mpr (upto_sorted 1 n)).filter _

theorem roots_nodup (n : Nat) (t : Table w) (P : Finset Pixel) (lab : Pixel → Nat) :
    (roots n t P lab).Nodup :=
  (roots_sorted n t P lab).imp (fun h => (Nat.ne_of_lt h).symm)

theorem mem_roots (m : Mergeable n t P lab clean) {r : Nat} :
    r ∈ roots n t P lab ↔ ∃ p ∈ P, links t (lab p) = r := by
  simp only [roots, rootsDown, List.mem_filter, List.mem_reverse, mem_upto, decide_eq_true_eq]
  constructor
  · rintro ⟨_, ⟨p, hp, rfl⟩, hr⟩
    exact ⟨p, hp, hr⟩
  · rintro ⟨p, hp, rfl⟩
    obtain ⟨q, hq, he⟩ := m.carried p hp
    exact ⟨he ▸ m.range q hq, ⟨q, hq, he⟩, m.fixed p hp⟩

/-- Every labelled pixel is in the group of one root. -/
theorem sum_groups (m : Mergeable n t P lab clean) :
    ((roots n t P lab).map (fun r => (group t P lab r).card)).sum = P.card := by
  rw [← List.sum_toFinset _ (roots_nodup n t P lab), eq_comm]
  apply Finset.card_eq_sum_card_fiberwise
  intro p hp
  simpa using (mem_roots m).mpr ⟨p, hp, rfl⟩

namespace Merging

variable (h : Merging t P lab clean (upto 1 n).reverse s)

include h

theorem entry {k : Nat} (hk : k < s.numBlobs) :
    ∃ r, (roots n t P lab)[k]? = some r ∧
      ∃ b, s.consolidatedBlobs k = b.consolidate k ∧ Sums b (group t P lab r) ∧
        (clean r → Describes b (group t P lab r)) := by
  have hlen : k < (roots n t P lab).length := by rwa [roots, ← h.count]
  exact ⟨_, List.getElem?_eq_getElem hlen, h.recorded k _ (List.getElem?_eq_getElem hlen)⟩

/-- No mass is lost or counted twice. -/
theorem masses (m : Mergeable n t P lab clean) :
    ∑ k ∈ Finset.range s.numBlobs, (s.consolidatedBlobs k).mass = P.card := by
  have hcount : s.numBlobs = (roots n t P lab).length := h.count
  rw [← sum_groups m, ← Fin.sum_univ_fun_getElem, hcount, Finset.sum_range]
  apply Finset.sum_congr rfl
  intro k _
  obtain ⟨b, hb, hs, _⟩ := h.recorded k _ (List.getElem?_eq_getElem k.isLt)
  rw [hb]
  exact hs.mass

end Merging

end Motion
