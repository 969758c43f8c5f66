import Motion.Proofs.Sequential

/-! The statistics `blob_detect` reports are exact. -/

namespace Motion
open Labelling

namespace Labelled

variable {w width height : Nat} {output : Buf Nat} {input : Buf UInt8}
  {border : BorderZero width height output} {s : Scan w} (h : Labelled border input s)
  (fit : s.labelCounter ≤ 65536) (stack : Buf (Blob w))

include h fit

/-- The pixels that end up with a root's label are the root's group. -/
theorem labelledWith_eq {r : Nat} (hr : r ≠ 0) :
    labelledWith width height (relabel width height (merged stack s).blobs s.output) r =
      group (redirected s) (moving input width height) (labelAt width s) r := by
  ext p
  unfold labelledWith group
  rw [Finset.mem_filter, Finset.mem_filter, mem_frame, mem_moving]
  constructor
  · rintro ⟨hf, he⟩
    have hp : Moving input width height p := by
      by_contra hn
      exact hr (he.symm.trans (h.relabelled_off stack hf hn))
    exact ⟨hp, (h.relabelled_on fit stack hp).symm.trans he⟩
  · rintro ⟨hp, he⟩
    exact ⟨hp.inFrame, (h.relabelled_on fit stack hp).trans he⟩

/-- The labels of the relabelled image are the roots. -/
theorem mem_distinctLabels {l : Nat} :
    l ∈ distinctLabels width height (relabel width height (merged stack s).blobs s.output) ↔
      l ∈ roots s.labelCounter (redirected s) (moving input width height) (labelAt width s) := by
  rw [mem_roots h.mergeable]
  unfold distinctLabels
  simp only [Finset.mem_erase, Finset.mem_image, mem_frame, mem_moving]
  constructor
  · rintro ⟨h0, p, hf, he⟩
    have hp : Moving input width height p := by
      by_contra hn
      exact h0 (he.symm.trans (h.relabelled_off stack hf hn))
    exact ⟨p, hp, (h.relabelled_on fit stack hp).symm.trans he⟩
  · rintro ⟨p, hp, he⟩
    obtain ⟨q, hq, hl⟩ := h.mergeable.carried p (mem_moving.mpr hp)
    have := h.range (mem_moving.mp hq)
    exact ⟨by omega, p, hp.inFrame, (h.relabelled_on fit stack hp).trans he⟩

/-- One record for each label of the relabelled image, in the order of the roots. -/
theorem records_bijOn :
    Set.BijOn (fun k => (roots s.labelCounter (redirected s) (moving input width height)
        (labelAt width s)).getD k 0)
      (Set.Iio (merged stack s).numBlobs)
      (distinctLabels width height (relabel width height (merged stack s).blobs s.output)) := by
  have hcount := (h.merging stack).count
  rw [← roots] at hcount
  have hget : ∀ k, (hk : k < (merged stack s).numBlobs) →
      (roots s.labelCounter (redirected s) (moving input width height)
        (labelAt width s)).getD k 0 =
      (roots s.labelCounter (redirected s) (moving input width height) (labelAt width s)).get
        ⟨k, hcount ▸ hk⟩ := by
    intro k hk
    simp [List.getD_eq_getElem?_getD, hcount ▸ hk]
  refine ⟨?_, ?_, ?_⟩
  · intro k hk
    rw [Finset.mem_coe, h.mem_distinctLabels fit stack]
    change List.getD _ k 0 ∈ _
    rw [hget k hk]
    exact List.get_mem _ _
  · intro j hj k hk he
    change List.getD _ j 0 = List.getD _ k 0 at he
    rw [hget j hj, hget k hk] at he
    exact Fin.val_eq_of_eq ((roots_nodup _ _ _ _).injective_get he)
  · intro l hl
    rw [Finset.mem_coe, h.mem_distinctLabels fit stack] at hl
    obtain ⟨⟨k, hlt⟩, hk⟩ := List.get_of_mem hl
    rw [← hcount] at hlt
    refine ⟨k, hlt, ?_⟩
    change List.getD _ k 0 = l
    rw [hget k hlt]
    exact hk

theorem record_exact
    (hsum : ∀ l ≠ 0, ∑ p ∈ labelledWith width height
          (relabel width height (merged stack s).blobs s.output) l, p.2 < 2 ^ w ∧
        ∑ p ∈ labelledWith width height
          (relabel width height (merged stack s).blobs s.output) l, p.1 < 2 ^ w)
    {k : Nat} (hk : k < (merged stack s).numBlobs) :
    Exact ((merged stack s).consolidatedBlobs k)
      (labelledWith width height (relabel width height (merged stack s).blobs s.output)
        ((roots s.labelCounter (redirected s) (moving input width height)
          (labelAt width s)).getD k 0)) := by
  obtain ⟨r, hr, b, hb, _, hdesc⟩ := (h.merging stack).entry hk
  obtain ⟨p, hp, rfl⟩ := (mem_roots h.mergeable).mp (List.mem_of_getElem? hr)
  obtain ⟨q, hq, hl⟩ := h.mergeable.carried p hp
  have hne : links (redirected s) (labelAt width s p) ≠ 0 := by
    have := h.range (mem_moving.mp hq)
    omega
  have hroot : (roots s.labelCounter (redirected s) (moving input width height)
      (labelAt width s)).getD k 0 = links (redirected s) (labelAt width s p) := by
    simp [List.getD_eq_getElem?_getD, hr]
  obtain ⟨hx, hy⟩ := hsum _ hne
  rw [hroot, hb]
  rw [h.labelledWith_eq fit stack hne] at hx hy ⊢
  refine (hdesc trivial).exact ?_ hx hy k
  intro a ha
  have hin := (mem_moving.mp (Finset.mem_filter.mp ha).1).1
  unfold Inside at hin
  omega

end Labelled

/-- The statistics of `blob_detect`: one exact record for each label of the
relabelled image, masses that add up, and the biggest of the records reported. -/
theorem blobDetect_statistics {w width height : Nat} {output : Buf Nat} {input : Buf UInt8}
    (stack : Buf (Blob w)) (biggest : Blob w) (active : ∃ p, Moving input width height p)
    (border : BorderZero width height output) (fit : LabelsFit w width height output input)
    (sums : ∀ l ≠ 0,
      ∑ p ∈ labelledWith width height
        (blobDetect stack biggest output input width height).relabelled l, p.2 < 2 ^ w ∧
      ∑ p ∈ labelledWith width height
        (blobDetect stack biggest output input width height).relabelled l, p.1 < 2 ^ w) :
    let d := blobDetect stack biggest output input width height
    (∃ f : Nat → Nat,
      Set.BijOn f (Set.Iio d.numBlobs) (distinctLabels width height d.relabelled) ∧
      ∀ k < d.numBlobs,
        Exact (d.consolidatedBlobs k) (labelledWith width height d.relabelled (f k))) ∧
    ∑ k ∈ Finset.range d.numBlobs, (d.consolidatedBlobs k).mass =
      (moving input width height).card ∧
    ∃ k < d.numBlobs, d.biggestBlob.label = (d.consolidatedBlobs k).label ∧
      Agrees d.biggestBlob (d.consolidatedBlobs k) ∧
      ∀ j < d.numBlobs, (d.consolidatedBlobs j).mass ≤ (d.consolidatedBlobs k).mass := by
  have hfit := fit.counter_le
  have h := labelLoop_labelled border hfit
  intro d
  have hbij := h.records_bijOn hfit stack
  have hsome : 0 < d.numBlobs := by
    obtain ⟨p, hp⟩ := active
    have hl : links _ (labelAt width _ p) ∈ distinctLabels width height d.relabelled :=
      (h.mem_distinctLabels hfit stack).mpr
        ((mem_roots h.mergeable).mpr ⟨p, mem_moving.mpr hp, rfl⟩)
    obtain ⟨k, hk, _⟩ := hbij.surjOn hl
    exact Nat.zero_lt_of_lt hk
  obtain ⟨hlt, hmax⟩ := biggestIndex_spec d.consolidatedBlobs d.numBlobs hsome
  have hmasses : ∑ k ∈ Finset.range d.numBlobs, (d.consolidatedBlobs k).mass =
      (moving input width height).card := (h.merging stack).masses h.mergeable
  refine ⟨⟨_, hbij, ?_⟩, hmasses, biggestIndex d.consolidatedBlobs d.numBlobs, hlt, ?_, ?_, hmax⟩
  · intro k hk
    exact h.record_exact hfit stack sums hk
  · rfl
  · exact Agrees.fill _ _

/-- Sums over all pixels of the frame that fit make every label's sums fit. -/
theorem sums_fit {w width height : Nat} (out : Buf Nat) (l : Nat)
    (hx : ∑ p ∈ frame width height, p.2 < 2 ^ w) (hy : ∑ p ∈ frame width height, p.1 < 2 ^ w) :
    ∑ p ∈ labelledWith width height out l, p.2 < 2 ^ w ∧
      ∑ p ∈ labelledWith width height out l, p.1 < 2 ^ w :=
  ⟨Nat.lt_of_le_of_lt (Finset.sum_le_sum_of_subset (Finset.filter_subset _ _)) hx,
    Nat.lt_of_le_of_lt (Finset.sum_le_sum_of_subset (Finset.filter_subset _ _)) hy⟩

theorem blobDetect_statistics_branch :
    let d := blobDetect (w := 32) (Buf.all Blob.zero) Blob.zero (Buf.all 0) branch 5 6
    d.numBlobs = 2 ∧
    (∃ f : Nat → Nat, Set.BijOn f (Set.Iio d.numBlobs) (distinctLabels 5 6 d.relabelled) ∧
      ∀ k < d.numBlobs, Exact (d.consolidatedBlobs k) (labelledWith 5 6 d.relabelled (f k))) ∧
    ∑ k ∈ Finset.range d.numBlobs, (d.consolidatedBlobs k).mass = (moving branch 5 6).card ∧
    ∃ k < d.numBlobs, d.biggestBlob.label = (d.consolidatedBlobs k).label ∧
      Agrees d.biggestBlob (d.consolidatedBlobs k) ∧
      ∀ j < d.numBlobs, (d.consolidatedBlobs j).mass ≤ (d.consolidatedBlobs k).mass := by
  have fit : LabelsFit 32 5 6 (Buf.all 0) branch :=
    LabelsFit.of_counter (by decide +kernel) (by decide +kernel)
  exact ⟨by decide +kernel,
    blobDetect_statistics (Buf.all Blob.zero) Blob.zero ⟨(1, 1), by decide⟩ (BorderZero.all 5 6)
      fit (fun l _ => sums_fit _ l (by decide +kernel) (by decide +kernel))⟩

end Motion
