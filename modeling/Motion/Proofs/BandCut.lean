import Motion.Proofs.BandScan
import Motion.Proofs.Shift

/-! One call of `label` against `blob_detect` on the band's rows alone, with a border
row above and one below: the same labels, counted from the band's first. -/

namespace Motion

/-- The image from the row above a band on, so that the band's first row is row 1. -/
def cutAt (width startRow : Nat) (input : Buf UInt8) : Buf UInt8 :=
  ⟨fun i => input (i + (startRow - 1) * width)⟩

/-- The rows of a band with a border row on each side. -/
def cutHeight (startRow endRow : Nat) : Nat := endRow - startRow + 3

/-- How a band's pixels and labels lie to those of its cut. -/
def bandOffset (startRow startLabel : Nat) : Offset := ⟨startRow - 1, 0, startLabel - 1⟩

variable {w width height startRow endRow startLabel : Nat} {input : Buf UInt8}
  {output cleared : Buf Nat} {blobs : Table w} {s t : Scan w} {p q : Pixel}

theorem idx_bandOffset (q : Pixel) :
    idx width ((bandOffset startRow startLabel).pixel q) =
      idx width q + (startRow - 1) * width := by
  unfold idx bandOffset Offset.pixel
  dsimp only
  ring

/-- A call of `label` visits the interior of the cut, moved. -/
theorem band_pixels_cut (rows : 1 ≤ startRow ∧ startRow ≤ endRow) :
    Band.pixels width ⟨startRow, endRow, startLabel⟩ =
      (interior width (cutHeight startRow endRow)).map (bandOffset startRow startLabel).pixel := by
  have hrows : upto startRow (endRow + 1) =
      (upto 1 (cutHeight startRow endRow - 1)).map (fun r => startRow - 1 + r) := by
    unfold upto cutHeight
    rw [List.map_add_range']
    congr 1 <;> omega
  unfold Band.pixels interior raster
  dsimp only
  rw [hrows, List.flatMap_map, List.map_flatMap]
  refine List.flatMap_congr ?_
  intro r _
  rw [List.map_map]
  refine List.map_congr_left ?_
  intro c _
  exact Prod.ext (Nat.add_comm _ _) rfl

section scan

variable (rows : 1 ≤ startRow ∧ startRow ≤ endRow ∧ endRow < height)
  (labels : 1 ≤ startLabel ∧ startLabel + maxBlobsPerThread ≤ 804)
  (zero : ∀ q : Pixel, q.1 < height → q.2 < width →
    q.1 + 1 = startRow ∨ q.2 = 0 ∨ q.2 + 1 = width → output (idx width q) = 0)
  (unused : ∀ i, startLabel ≤ i → i < startLabel + maxBlobsPerThread → blobs i = Blob.zero)
  (border : BorderZero width (cutHeight startRow endRow) cleared)

include rows labels zero unused border

theorem cut_start : Lockstep (bandOffset startRow startLabel) (maxBlobsPerThread + 1) width
    (cutHeight startRow endRow) width [] ⟨cleared, Buf.all Blob.zero, 1⟩
    ⟨output, blobs, startLabel⟩ := by
  refine Lockstep.start ?_ ?_ border ?_
  · unfold bandOffset
    dsimp only
    omega
  · intro l hl hn
    refine unused _ ?_ ?_
    · unfold bandOffset
      dsimp only
      omega
    · unfold bandOffset
      dsimp only
      omega
  · intro q hr hc hin
    have hedge : q.1 = 0 ∨ q.2 = 0 ∨ q.2 + 1 = width := by
      unfold Inside at hin
      omega
    have hcut : q.1 + 1 < endRow - startRow + 3 := hr
    refine zero _ ?_ hc ?_
    · unfold bandOffset Offset.pixel
      dsimp only
      omega
    · unfold bandOffset Offset.pixel
      dsimp only
      omega

/-- The scans of both, side by side. -/
theorem cut_scan (run : (Band.pixels width ⟨startRow, endRow, startLabel⟩).foldlM
      (labelPixel width input startLabel) ⟨output, blobs, startLabel⟩ = some t) :
    Lockstep (bandOffset startRow startLabel) (maxBlobsPerThread + 1) width
      (cutHeight startRow endRow) width (interior width (cutHeight startRow endRow))
      (labelLoop w width (cutHeight startRow endRow) cleared (cutAt width startRow input)) t ∧
    t.labelCounter < startLabel + maxBlobsPerThread := by
  rw [band_pixels_cut ⟨rows.1, rows.2.1⟩, List.foldlM_map] at run
  refine Fold.prefix_induction_option
    (P := fun pre t => Lockstep (bandOffset startRow startLabel) (maxBlobsPerThread + 1) width
        (cutHeight startRow endRow) width pre
        (pre.foldl (detectPixel width (cutAt width startRow input))
          ⟨cleared, Buf.all Blob.zero, 1⟩) t ∧
      t.labelCounter < startLabel + maxBlobsPerThread) _ _ t
    ⟨cut_start rows labels zero unused border, by unfold maxBlobsPerThread; dsimp only; omega⟩
    ?_ run
  rintro pre x post t t' hl ⟨h, hroom⟩ hturn
  obtain ⟨rfl, hnew⟩ := labelPixel_some hturn
  have hin : Inside width (cutHeight startRow endRow) x := mem_interior.mp (by simp [hl])
  have hcounter := h.counter
  have hoffset : (bandOffset startRow startLabel).label = startLabel - 1 := rfl
  have hnext : (scanPixel 9999 width input t
      ((bandOffset startRow startLabel).pixel x)).labelCounter <
      startLabel + maxBlobsPerThread := by
    have hle := (scanPixel_step 9999 width input t
      ((bandOffset startRow startLabel).pixel x)).counter_le
    cases Nat.eq_or_lt_of_le hle with
    | inl he => omega
    | inr hlt => exact hnew hlt
  refine ⟨?_, hnext⟩
  rw [List.foldl_append, List.foldl_cons, List.foldl_nil, detectPixel_eq hin]
  generalize pre.foldl (detectPixel width (cutAt width startRow input))
    ⟨cleared, Buf.all Blob.zero, 1⟩ = s at h hcounter ⊢
  have hsucc := (scanPixel_step 255 width (cutAt width startRow input) s x).counter_le_succ
  unfold maxBlobsPerThread at *
  refine h.step hl (Nat.le_of_eq (Nat.zero_add width)) ?_ ?_ (by omega) (by omega)
  · rw [idx_bandOffset]
    rfl
  · intro l h1 hlt
    exact iff_of_true (by omega) (by omega)

end scan

section redirect

/-- `label`'s redirects of its own labels are those of `blob_detect`, and those of
the entries it has not used do nothing. -/
theorem cut_redirect {d : Offset} {k n : Nat} (hk : 1 ≤ k) {a b : Table w} (h : Carried d k a b)
    (unused : ∀ i, k + d.label ≤ i → i < n → b i = Blob.zero) (hn : k + d.label ≤ n) :
    Carried d k ((upto 1 k).foldl redirectEntry a)
        ((upto (1 + d.label) n).foldl redirectUsed b) ∧
      ∀ i, k + d.label ≤ i → i < n →
        (upto (1 + d.label) n).foldl redirectUsed b i = Blob.zero := by
  have hsplit : upto (1 + d.label) n =
      (upto 1 k).map (fun i => d.label + i) ++ upto (k + d.label) n := by
    unfold upto
    rw [List.map_add_range']
    have hlen : n - (1 + d.label) = (k - 1) + (n - (k + d.label)) := by omega
    have hstart : k + d.label = d.label + 1 + 1 * (k - 1) := by omega
    rw [hlen, Nat.add_comm 1 d.label, ← List.range'_append, ← hstart]
  obtain ⟨hcarried, hzero⟩ := Fold.related
    (R := fun a b : Table w => Carried d k a b ∧
      ∀ i, k + d.label ≤ i → i < n → b i = Blob.zero)
    (f := redirectEntry) (g := fun b i => redirectUsed b (d.label + i)) (upto 1 k) a b
    ⟨h, unused⟩ (by
      rintro i hi a b ⟨h, hzero⟩
      rw [mem_upto] at hi
      have hused : (b (d.label + i)).label ≠ 0 := by
        rw [Nat.add_comm, h.entry i hi.1 hi.2, Offset.blob]
        have := h.link i hi.1 hi.2
        dsimp only
        omega
      rw [redirectUsed_eq hused]
      refine ⟨?_, ?_⟩
      · rw [Nat.add_comm]
        exact h.redirect hi
      · intro j hj hjn
        rw [redirectEntry_other _ (by omega)]
        exact hzero j hj hjn)
  rw [hsplit, List.foldl_append, List.foldl_map]
  have hidle : (upto (k + d.label) n).foldl redirectUsed
      ((upto 1 k).foldl (fun b i => redirectUsed b (d.label + i)) b) =
      (upto 1 k).foldl (fun b i => redirectUsed b (d.label + i)) b := by
    refine Fold.invariant (P := fun b' => b' = (upto 1 k).foldl
      (fun b i => redirectUsed b (d.label + i)) b) _ _ rfl ?_
    rintro i hi _ rfl
    rw [mem_upto] at hi
    refine redirectUsed_unused ?_
    rw [hzero i hi.1 hi.2, Blob.zero]
  rw [hidle]
  exact ⟨hcarried, hzero⟩

end redirect

/-- A band's entry beside that of its cut: the box and the sum of the rows are
`startRow - 1` rows further down, the link counts from the band's first label. -/
structure CutEntry (startRow startLabel : Nat) (b c : Blob w) : Prop where
  label : c.label = b.label + (startLabel - 1)
  xMin : c.xMin = b.xMin
  xMax : c.xMax = b.xMax
  yMin : c.yMin = b.yMin + (startRow - 1)
  yMax : c.yMax = b.yMax + (startRow - 1)
  centroidX : c.centroidX = b.centroidX
  centroidY : c.centroidY = b.centroidY
  sumX : c.sumX = b.sumX
  sumY : c.sumY.toNat = b.sumY.toNat + (startRow - 1) * b.mass
  mass : c.mass = b.mass

/-- A moved entry whose sum fits is one. -/
theorem CutEntry.moved {b : Blob w} {T : Finset Pixel} (h : Sums b T)
    (fits : ∑ p ∈ T, ((bandOffset startRow startLabel).pixel p).1 < 2 ^ w) :
    CutEntry startRow startLabel b ((bandOffset startRow startLabel).blob b) where
  label := rfl
  xMin := rfl
  xMax := rfl
  yMin := rfl
  yMax := rfl
  centroidX := rfl
  centroidY := rfl
  sumX := by simp [bandOffset, Offset.blob]
  sumY := Offset.blob_sumY _ h fits
  mass := rfl

/-- The entry of a label of the cut holds the sums of the pixels with that label. -/
theorem cut_sums {s : Scan w} (border : BorderZero width height cleared)
    (h : Labelled border input s) {j : Nat} (hj : 1 ≤ j ∧ j < s.labelCounter) :
    Sums (redirected s j) ((moving input width height).filter (fun q => labelAt width s q = j)) := by
  obtain ⟨q, hq, rfl⟩ := h.progress.started j hj.1 hj.2
  exact h.mergeable.sums q (mem_moving.mpr ((Labelled.live_iff w).mp hq))

/-- The rows of a label's pixels in the cut, moved, add up to no more than those of its
pixels in the band. -/
theorem cut_sum_le {n : Nat} (rows : 1 ≤ startRow ∧ startRow ≤ endRow)
    (h : Lockstep (bandOffset startRow startLabel) n width (cutHeight startRow endRow) width
      (interior width (cutHeight startRow endRow)) s t) {j : Nat} (hj : j ≠ 0) :
    ∑ p ∈ (moving input width (cutHeight startRow endRow)).filter (fun q => labelAt width s q = j),
        ((bandOffset startRow startLabel).pixel p).1 ≤
      ∑ p ∈ (Band.pixels width ⟨startRow, endRow, startLabel⟩).toFinset.filter
        (fun p => t.output (idx width p) = j + (startLabel - 1)), p.1 := by
  rw [← Finset.sum_image (f := Prod.fst) (g := (bandOffset startRow startLabel).pixel)
    (fun p _ q _ he => Offset.pixel_inj _ he)]
  refine Finset.sum_le_sum_of_subset ?_
  intro p hp
  obtain ⟨q, hq, rfl⟩ := Finset.mem_image.mp hp
  obtain ⟨hq, hl⟩ := Finset.mem_filter.mp hq
  have hin := (mem_moving.mp hq).1
  rw [Finset.mem_filter, List.mem_toFinset, band_pixels_cut rows]
  refine ⟨List.mem_map_of_mem (mem_interior.mpr hin), ?_⟩
  unfold Inside at hin
  rw [h.output_moved (by omega) (by omega)]
  unfold labelAt at hl
  rw [hl, Offset.lbl_pos _ hj]
  rfl

/-- `label` on a band labels its rows as `blob_detect` labels the band's cut, the labels
counted from the band's first and the rows from the row above it. -/
theorem label_of_cut {w width height startRow endRow startLabel : Nat} {input : Buf UInt8}
    {output cleared : Buf Nat} {blobs : Table w} {sh : Shared w}
    (rows : 1 ≤ startRow ∧ startRow ≤ endRow ∧ endRow < height)
    (labels : 1 ≤ startLabel ∧ startLabel + maxBlobsPerThread ≤ 804)
    (zero : ∀ q : Pixel, q.1 < height → q.2 < width →
      q.1 + 1 = startRow ∨ q.2 = 0 ∨ q.2 + 1 = width → output (idx width q) = 0)
    (unused : ∀ i, startLabel ≤ i → i < startLabel + maxBlobsPerThread → blobs i = Blob.zero)
    (border : BorderZero width (cutHeight startRow endRow) cleared)
    (run : label input width ⟨startRow, endRow, startLabel⟩ ⟨output, blobs⟩ = some sh)
    (fits : ∀ l ≠ 0, ∑ p ∈ (Band.pixels width ⟨startRow, endRow, startLabel⟩).toFinset.filter
      (fun p => sh.output (idx width p) = l), p.1 < 2 ^ w) :
    let cut := labelLoop w width (cutHeight startRow endRow) cleared (cutAt width startRow input)
    (∃ t, (Band.pixels width ⟨startRow, endRow, startLabel⟩).foldlM
        (labelPixel width input startLabel) ⟨output, blobs, startLabel⟩ = some t ∧
      t.labelCounter = startLabel + (cut.labelCounter - 1)) ∧
    (∀ p : Pixel, startRow ≤ p.1 → p.1 ≤ endRow → p.2 < width →
      sh.output (idx width p) =
        if cut.output (idx width (p.1 - (startRow - 1), p.2)) = 0 then 0
        else cut.output (idx width (p.1 - (startRow - 1), p.2)) + (startLabel - 1)) ∧
    (∀ j, 1 ≤ j → j < cut.labelCounter →
      CutEntry startRow startLabel (redirected cut j) (sh.blobs (startLabel - 1 + j))) ∧
    ∀ i, startLabel + (cut.labelCounter - 1) ≤ i → i < startLabel + maxBlobsPerThread →
      sh.blobs i = Blob.zero := by
  unfold label at run
  obtain ⟨t, ht, rfl⟩ := Option.map_eq_some_iff.mp run
  obtain ⟨h, hroom⟩ := cut_scan rows labels zero unused border ht
  dsimp only at fits ⊢
  have hlabel : (bandOffset startRow startLabel).label = startLabel - 1 := rfl
  have hfirst : 1 + (bandOffset startRow startLabel).label = startLabel := by omega
  have hcounter := h.counter
  have hpos := h.positive
  have hscan : Labelled border (cutAt width startRow input) (labelLoop w width
      (cutHeight startRow endRow) cleared (cutAt width startRow input)) :=
    labelLoop_labelled border (by omega)
  generalize labelLoop w width (cutHeight startRow endRow) cleared (cutAt width startRow input) =
    cut at h hcounter hpos hscan ⊢
  obtain ⟨hcarried, hrest⟩ := cut_redirect (n := startLabel + maxBlobsPerThread) hpos h.carried
    (fun i hi hlt => by
      have := (h.unused (i - (startLabel - 1)) (by omega) (by omega)).2
      rwa [hlabel, Nat.sub_add_cancel (by omega)] at this) (by omega)
  rw [hfirst] at hcarried hrest
  refine ⟨⟨t, ht, by omega⟩, ?_, ?_, ?_⟩
  · intro p hs he hc
    have hrow : p.1 - (startRow - 1) + 1 < cutHeight startRow endRow := by
      unfold cutHeight
      omega
    -- the pixel is one of the cut's, moved
    have : _ = (bandOffset startRow startLabel).lbl _ :=
      h.output_moved (q := (p.1 - (startRow - 1), p.2)) hrow hc
    unfold Offset.lbl at this
    rw [hlabel] at this
    rw [← this]
    unfold bandOffset Offset.pixel
    dsimp only
    rw [Nat.sub_add_cancel (by omega), Nat.add_zero]
  · intro j hj hlt
    rw [← hlabel, Nat.add_comm _ j, hcarried.entry j hj hlt]
    refine CutEntry.moved (cut_sums border hscan ⟨hj, hlt⟩) ?_
    exact Nat.lt_of_le_of_lt (cut_sum_le ⟨rows.1, rows.2.1⟩ h (by omega)) (fits _ (by omega))
  · intro i hi hlt
    exact hrest i (by omega) hlt

/-- Two arms that meet in the second band: both labels of the cut, and the link between
them, come out moved up by 200. -/
theorem label_of_cut_arms : ∃ sh,
    label (w := 32) (drawing 5 [(60, 1), (60, 3), (61, 2)]) 5 ⟨60, 61, 201⟩
      ⟨Buf.all 0, Buf.all Blob.zero⟩ = some sh ∧
    sh.output (idx 5 (60, 1)) = 201 ∧ sh.output (idx 5 (60, 3)) = 202 ∧
    sh.output (idx 5 (61, 2)) = 201 ∧ (sh.blobs 202).label = 201 ∧
    ∀ j, 1 ≤ j → j < 3 →
      CutEntry 60 201 (redirected (labelLoop 32 5 4 (Buf.all 0)
          (cutAt 5 60 (drawing 5 [(60, 1), (60, 3), (61, 2)]))) j)
        (sh.blobs (200 + j)) := by
  have hsome : (label (w := 32) (drawing 5 [(60, 1), (60, 3), (61, 2)]) 5 ⟨60, 61, 201⟩
      ⟨Buf.all 0, Buf.all Blob.zero⟩).isSome = true := by decide +kernel
  obtain ⟨sh, hsh⟩ := Option.isSome_iff_exists.mp hsome
  have hcounter : (labelLoop 32 5 (cutHeight 60 61) (Buf.all 0)
      (cutAt 5 60 (drawing 5 [(60, 1), (60, 3), (61, 2)]))).labelCounter = 3 := by decide +kernel
  obtain ⟨_, hout, hentry, _⟩ := label_of_cut (by decide : 1 ≤ 60 ∧ 60 ≤ 61 ∧ 61 < 62)
    (by decide) (fun _ _ _ _ => rfl) (fun _ _ _ => rfl) (BorderZero.all 5 4) hsh
    (fun l _ => Nat.lt_of_le_of_lt (Finset.sum_le_sum_of_subset (Finset.filter_subset _ _))
      (by decide +kernel))
  rw [hcounter] at hentry
  have hlink := (hentry 2 (by decide) (by decide)).label
  have hcut : (redirected (labelLoop 32 5 (cutHeight 60 61) (Buf.all 0)
      (cutAt 5 60 (drawing 5 [(60, 1), (60, 3), (61, 2)]))) 2).label = 1 := by decide +kernel
  refine ⟨sh, hsh, ?_, ?_, ?_, by rw [hlink, hcut], hentry⟩
  · rw [hout (60, 1) (by decide) (by decide) (by decide)]
    decide +kernel
  · rw [hout (60, 3) (by decide) (by decide) (by decide)]
    decide +kernel
  · rw [hout (61, 2) (by decide) (by decide) (by decide)]
    decide +kernel

end Motion
