import Motion.Code.BlobDetectPar
import Motion.Spec.Image
import Motion.Lib.Links

/-! The passes over the label table: redirect, merge, relabel, biggest. -/

namespace Motion
open Labelling

/-- Two entries that differ in their label at most. -/
def SameBut (b c : Blob w) : Prop := ∃ l, c = { b with label := l }

theorem SameBut.refl (b : Blob w) : SameBut b b := ⟨b.label, rfl⟩

theorem SameBut.relabel {b c : Blob w} (h : SameBut b c) (l : Nat) :
    SameBut b { c with label := l } := by
  obtain ⟨_, rfl⟩ := h
  exact ⟨l, rfl⟩

theorem SameBut.describes {b c : Blob w} {T : Finset Pixel} (h : SameBut b c)
    (hd : Describes b T) : Describes c T := by
  obtain ⟨l, rfl⟩ := h
  exact hd.relabel l

theorem SameBut.sums {b c : Blob w} {T : Finset Pixel} (h : SameBut b c) (hd : Sums b T) :
    Sums c T := by
  obtain ⟨l, rfl⟩ := h
  exact hd.relabel l

/-- The links of a table. -/
def links (t : Table w) (i : Nat) : Nat := (t i).label

theorem redirectEntry_other (t : Table w) {i j : Nat} (h : j ≠ i) : redirectEntry t i j = t j := by
  simp only [redirectEntry]
  split <;> simp [h]

theorem redirectEntry_self (t : Table w) (i : Nat) :
    (redirectEntry t i i).label = (t (t i).label).label := by
  simp only [redirectEntry]
  split
  · simp
  · rename_i h
    have hi : (t i).label = i := not_not.mp h
    rw [hi, hi]

theorem redirectEntry_same (t : Table w) (i j : Nat) : SameBut (t j) (redirectEntry t i j) := by
  by_cases h : j = i
  · subst h
    simp only [redirectEntry]
    split
    · rw [Buf.write_same]
      exact ⟨_, rfl⟩
    · exact SameBut.refl _
  · rw [redirectEntry_other t h]
    exact SameBut.refl _

theorem redirectEntry_redirects (used : Nat → Prop) :
    Links.Redirects used (links (w := w)) redirectEntry where
  self := fun t i _ _ => redirectEntry_self t i
  other := fun t i j h => by rw [links, redirectEntry_other t h, links]

theorem redirectUsed_eq {t : Table w} {i : Nat} (h : (t i).label ≠ 0) :
    redirectUsed t i = redirectEntry t i := by
  simp [redirectUsed, redirectEntry, h]

theorem redirectUsed_unused {t : Table w} {i : Nat} (h : (t i).label = 0) :
    redirectUsed t i = t := by
  simp [redirectUsed, h]

/-- A redirect leaves a label alone or follows its link once more. -/
theorem redirectUsed_label (t : Table w) (i k : Nat) :
    (redirectUsed t i k).label = (t k).label ∨
      (redirectUsed t i k).label = (t (t k).label).label := by
  by_cases h0 : (t i).label = 0
  · rw [redirectUsed_unused h0]
    exact Or.inl rfl
  · rw [redirectUsed_eq h0]
    by_cases hk : k = i
    · rw [hk]
      exact Or.inr (redirectEntry_self t i)
    · rw [redirectEntry_other t hk]
      exact Or.inl rfl

/-- An entry without a label is left alone. -/
theorem redirectUsed_keeps (t : Table w) {i k : Nat} (h : (t k).label = 0 ∨ k ≠ i) :
    redirectUsed t i k = t k := by
  by_cases h0 : (t i).label = 0
  · rw [redirectUsed_unused h0]
  · rw [redirectUsed_eq h0]
    rcases h with h | h
    · by_cases hk : k = i
      · exact absurd (hk ▸ h) h0
      · exact redirectEntry_other t hk
    · exact redirectEntry_other t h

/-- A pass of redirects changes labels only. -/
theorem redirect_same (t : Table w) (is : List Nat) (j : Nat) :
    SameBut (t j) (is.foldl redirectEntry t j) := by
  refine Fold.invariant (P := fun t' => SameBut (t j) (t' j)) is t (SameBut.refl _) ?_
  rintro i - t' h
  obtain ⟨l, hl⟩ := redirectEntry_same t' i j
  rw [hl]
  exact h.relabel l

theorem redirectUsed_same (t : Table w) (is : List Nat) (j : Nat) :
    SameBut (t j) (is.foldl redirectUsed t j) := by
  refine Fold.invariant (P := fun t' => SameBut (t j) (t' j)) is t (SameBut.refl _) ?_
  rintro i - t' h
  by_cases h0 : (t' i).label = 0
  · rwa [redirectUsed_unused h0]
  · rw [redirectUsed_eq h0]
    obtain ⟨l, hl⟩ := redirectEntry_same t' i j
    rw [hl]
    exact h.relabel l

/-- Entries outside the pass stay as they are. -/
theorem redirect_outside (t : Table w) (is : List Nat) {j : Nat} (h : j ∉ is) :
    is.foldl redirectEntry t j = t j := by
  refine Fold.invariant (P := fun t' => t' j = t j) is t rfl ?_
  intro i hi t' ht
  have hne : j ≠ i := fun he => h (by rwa [he])
  rw [redirectEntry_other t' hne, ht]

/-- The selection loop returns an index no recorded entry exceeds in mass. -/
theorem biggestIndex_spec (c : Buf (Blob w)) (n : Nat) (h : 0 < n) :
    biggestIndex c n < n ∧ ∀ i < n, (c i).mass ≤ (c (biggestIndex c n)).mass := by
  let f := fun b i => if (c i).mass > (c b).mass then i else b
  suffices hs : ∀ k, k ≤ n → ((upto 0 k).foldl f 0 < n) ∧
      ∀ i < k, (c i).mass ≤ (c ((upto 0 k).foldl f 0)).mass from hs n (Nat.le_refl n)
  intro k
  induction k with
  | zero => intro _; simpa [upto] using h
  | succ k ih =>
    intro hk
    obtain ⟨h1, h2⟩ := ih (by omega)
    have hlist : upto 0 (k + 1) = upto 0 k ++ [k] := by
      simp [upto, List.range'_concat]
    rw [hlist, List.foldl_append]
    generalize (upto 0 k).foldl f 0 = b at h1 h2 ⊢
    simp only [List.foldl_cons, List.foldl_nil, f]
    split
    · rename_i hgt
      refine ⟨by omega, fun i hi => ?_⟩
      by_cases he : i = k
      · rw [he]
      · have := h2 i (by omega)
        omega
    · refine ⟨h1, fun i hi => ?_⟩
      by_cases he : i = k
      · subst he
        omega
      · exact h2 i (by omega)

/-- Those before it are smaller. -/
theorem biggestIndex_first (c : Buf (Blob w)) (n : Nat) :
    ∀ j < biggestIndex c n, (c j).mass < (c (biggestIndex c n)).mass := by
  let f := fun b i => if (c i).mass > (c b).mass then i else b
  suffices hs : ∀ k, (∀ i < k, (c i).mass ≤ (c ((upto 0 k).foldl f 0)).mass) ∧
      ∀ j < (upto 0 k).foldl f 0, (c j).mass < (c ((upto 0 k).foldl f 0)).mass from (hs n).2
  intro k
  induction k with
  | zero => simp [upto]
  | succ k ih =>
    obtain ⟨hmax, hfirst⟩ := ih
    have hlist : upto 0 (k + 1) = upto 0 k ++ [k] := by
      simp [upto, List.range'_concat]
    rw [hlist, List.foldl_append]
    generalize (upto 0 k).foldl f 0 = b at hmax hfirst ⊢
    simp only [List.foldl_cons, List.foldl_nil, f]
    split
    · rename_i hgt
      refine ⟨fun i hi => ?_, fun j hj => Nat.lt_of_le_of_lt (hmax j hj) hgt⟩
      by_cases he : i = k
      · rw [he]
      · exact Nat.le_of_lt (Nat.lt_of_le_of_lt (hmax i (by omega)) hgt)
    · refine ⟨fun i hi => ?_, hfirst⟩
      by_cases he : i = k
      · subst he
        omega
      · exact hmax i (by omega)

/-- It looks at nothing but the masses. -/
theorem biggestIndex_congr {c d : Buf (Blob w)} {n : Nat}
    (h : ∀ i < n, (c i).mass = (d i).mass) : biggestIndex c n = biggestIndex d n := by
  by_cases hn : n = 0
  · subst hn
    rfl
  have hrel := Fold.related (R := fun b e => b = e ∧ b < n) (upto 0 n) 0 0
    (f := fun b i => if (c i).mass > (c b).mass then i else b)
    (g := fun b i => if (d i).mass > (d b).mass then i else b) ⟨rfl, by omega⟩ (by
      rintro i hi b e ⟨rfl, hb⟩
      have hi' := (mem_upto.mp hi).2
      rw [h i hi', h b hb]
      refine ⟨rfl, ?_⟩
      split <;> assumption)
  exact hrel.1

/-- The relabel loop on the pixels off the border, and nothing else. -/
theorem relabel_apply {width height : Nat} (t : Table w) (out : Buf Nat) {p : Pixel}
    (hp : Inside width height p) : relabel width height t out (idx width p) =
      if out (idx width p) ≠ 0 then ushort (t (out (idx width p))).label else 0 := by
  have hloop := Fold.prefix_induction
    (P := fun pre s => ∀ q, Inside width height q → s (idx width q) =
      if q ∈ pre ∧ out (idx width q) ≠ 0 then ushort (t (out (idx width q))).label
      else out (idx width q))
    (f := fun (s : Buf Nat) p => if s (idx width p) ≠ 0 then
      s.write (idx width p) (ushort (t (s (idx width p))).label) else s)
    (interior width height) out (by simp) (by
      intro pre x post s hl ih q hq
      have hx : Inside width height x := mem_interior.mp (by simp [hl])
      have hnx := not_mem_prefix (interior_sorted width height) hl
      by_cases he : q = x
      · subst he
        have hq' := ih q hq
        rw [if_neg (by simp [hnx])] at hq'
        by_cases h0 : out (idx width q) = 0 <;> simp [hq', h0]
      · have hne : idx width q ≠ idx width x := by
          simp only [Inside] at hx hq
          exact fun h => he (idx_inj (by omega) (by omega) h)
        have hmem : q ∈ pre ++ [x] ↔ q ∈ pre := by simp [he]
        simp only [hmem]
        rw [← ih q hq]
        split <;> simp [hne])
  rw [relabel, hloop p hp]
  have hm := mem_interior.mpr hp
  by_cases h0 : out (idx width p) = 0 <;> simp [hm, h0]

/-- A pass over the interior that writes only the pixel it visits leaves the border. -/
theorem interior_keeps {width height : Nat} {f : Buf Nat → Pixel → Buf Nat}
    (hf : ∀ s q i, i ≠ idx width q → f s q i = s i) (out : Buf Nat) {p : Pixel}
    (hc : p.2 < width) (hp : ¬Inside width height p) :
    (interior width height).foldl f out (idx width p) = out (idx width p) := by
  refine Fold.keeps (g := fun s : Buf Nat => s (idx width p)) _ _ ?_
  intro q hq s
  have hin : Inside width height q := mem_interior.mp hq
  have hin' := hin
  unfold Inside at hin'
  exact hf s q _ (fun he => hp (idx_inj hc (by omega) he ▸ hin))

theorem relabel_border {width height : Nat} (t : Table w) (out : Buf Nat) {p : Pixel}
    (hc : p.2 < width) (hp : ¬Inside width height p) :
    relabel width height t out (idx width p) = out (idx width p) := by
  refine interior_keeps ?_ out hc hp
  intro s q i hi
  split
  · exact Buf.write_other _ _ hi
  · rfl

theorem draw_border {width height : Nat} (magnify : Nat → Nat) (drawn : Pixel → Bool)
    (out : Buf Nat) {p : Pixel} (hc : p.2 < width) (hp : ¬Inside width height p) :
    draw magnify drawn width height out (idx width p) = out (idx width p) :=
  interior_keeps (fun s _ _ hi => Buf.write_other s _ hi) out hc hp

/-- The last pass on the pixels off the border. -/
theorem draw_apply {width height : Nat} (magnify : Nat → Nat) (drawn : Pixel → Bool)
    (out : Buf Nat) {p : Pixel} (hp : Inside width height p) :
    draw magnify drawn width height out (idx width p) =
      if drawn p then 255 else magnify (out (idx width p)) := by
  have hloop := Fold.prefix_induction
    (P := fun pre (s : Buf Nat) => ∀ q, Inside width height q → s (idx width q) =
      if q ∈ pre then if drawn q then 255 else magnify (out (idx width q))
      else out (idx width q))
    (f := fun (s : Buf Nat) p => s.write (idx width p)
      (if drawn p then 255 else magnify (s (idx width p))))
    (interior width height) out (by simp) (by
      intro pre x post s hl ih q hq
      have hx : Inside width height x := mem_interior.mp (by simp [hl])
      have hnx := not_mem_prefix (interior_sorted width height) hl
      by_cases he : q = x
      · subst he
        have hq' := ih q hq
        rw [if_neg hnx] at hq'
        simp [hq']
      · have hne : idx width q ≠ idx width x := by
          simp only [Inside] at hx hq
          exact fun h => he (idx_inj (by omega) (by omega) h)
        have hmem : q ∈ pre ++ [x] ↔ q ∈ pre := by simp [he]
        simp only [hmem]
        rw [← ih q hq, Buf.write_other _ _ hne])
  rw [draw, hloop p hp, if_pos (mem_interior.mpr hp)]

end Motion
