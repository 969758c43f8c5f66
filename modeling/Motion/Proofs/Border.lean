import Motion.Proofs.Collect
import Motion.Proofs.Rerun

/-! What `blob_detect_par` makes of the border of the frame: row 239 belongs to it for the
relabel and drawing loops, and to the last band for `label`. -/

namespace Motion
open Labelling

/-- Two runs tell the caller the same, show the same off the border and leave the border
of the image they were given clean. -/
structure BorderIgnored (width : Nat) (d d' : Detection w) : Prop where
  numBlobs : d.numBlobs = d'.numBlobs
  biggestBlob : d.biggestBlob = d'.biggestBlob
  interior : ∀ p, Inside width 240 p → d.output (idx width p) = d'.output (idx width p)
  border : ∀ p, InFrame width 240 p → ¬Inside width 240 p →
    d.output (idx width p) = 0 ∧ d'.output (idx width p) = 0

/-- Nothing moves in the last row of the last band. -/
def LastRowDark (input : Buf UInt8) (width : Nat) : Prop :=
  ∀ p : Pixel, p.1 = 239 → ¬Moving input width labelledHeight p

variable {w width : Nat} {input input' : Buf UInt8} {order : List Band} {stitches : List Nat}
  {stack : Buf (Blob w)} {biggest : Blob w} {d d' : Detection w} {p : Pixel}

/-- A turn asks no more of the image than whether the pixel is active. -/
theorem scanPixel_congr (u : Nat) (s : Scan w)
    (hp : input (idx width p) > 0 ↔ input' (idx width p) > 0) :
    scanPixel u width input s p = scanPixel u width input' s p := by
  unfold scanPixel
  by_cases hon : input (idx width p) > 0
  · simp only [if_pos hon, if_pos (hp.mp hon)]
  · simp only [if_neg hon, if_neg (fun h => hon (hp.mpr h))]

theorem labelPixel_congr (start : Nat) (s : Scan w)
    (hp : input (idx width p) > 0 ↔ input' (idx width p) > 0) :
    labelPixel width input start s p = labelPixel width input' start s p := by
  unfold labelPixel
  rw [scanPixel_congr 9999 s hp]

/-- Nor does the loop of `blob_detect`. -/
theorem labelLoop_congr (w : Nat) {height : Nat} (output : Buf Nat)
    (same : SameInterior width height input input') :
    labelLoop w width height output input = labelLoop w width height output input' := by
  unfold labelLoop
  refine List.foldl_ext _ _ _ (fun s p hp => ?_)
  unfold detectPixel
  exact scanPixel_congr 255 _ (same p (mem_interior.mp hp))

theorem label_congr {b : Band} (sh : Shared w)
    (hb : ∀ p ∈ b.pixels width, input (idx width p) > 0 ↔ input' (idx width p) > 0) :
    label input width b sh = label input' width b sh := by
  unfold label
  rw [Fold.option_congr (b.pixels width) _ (fun p hp s => labelPixel_congr b.startLabel s (hb p hp))]

/-- The calls of `label` see nothing of an image but which pixels up to row 239 are active. -/
theorem runLabels_congr (fair : order.Perm bands) (sh : Shared w)
    (same : SameInterior width labelledHeight input input') :
    runLabels input width order sh = runLabels input' width order sh :=
  Fold.option_congr order sh (fun _ hb sh => label_congr sh (fun p hp =>
    same p (inside_of_mem (fair.mem_iff.mp hb) hp)))

theorem blobDetectPar_congr (fair : order.Perm bands)
    (same : SameInterior width labelledHeight input input') :
    blobDetectPar order stitches stack biggest (Buf.all 0) input width 240 =
      blobDetectPar order stitches stack biggest (Buf.all 0) input' width 240 := by
  unfold blobDetectPar
  rw [runLabels_congr fair _ same]

/-- The passes after the stitches leave the border as the labelling left it. -/
theorem collect_border {n height : Nat} {sh : Shared w} (hc : p.2 < width)
    (hp : ¬Inside width height p) :
    (collectUpTo n stack biggest width height sh).output (idx width p) =
      sh.output (idx width p) :=
  (draw_border _ _ _ hc hp).trans (relabel_border _ _ hc hp)

/-- A label taken in row 239 is never wiped out. -/
theorem lastRowDark_of_clean (fair : order.Perm bands)
    (run : blobDetectPar order stitches stack biggest (Buf.all 0) input width 240 = some d)
    (clean : ∀ p, InFrame width 240 p → ¬Inside width 240 p → d.output (idx width p) = 0) :
    LastRowDark input width := by
  intro p hp hm
  obtain ⟨sh, hsh, rfl⟩ := blobDetectPar_some run
  obtain ⟨top, h⟩ := runLabels_run fair hsh
  have hin := (Moving.inFrame hm).2
  have hout : ¬Inside width 240 p := by
    unfold Inside
    omega
  have hzero := clean p ⟨by omega, hin⟩ hout
  rw [collect_border hin hout] at hzero
  have := (h.label_range fair hm).1
  dsimp only at hzero
  omega

/-- With nothing there the border stays as it was given. -/
theorem clean_of_lastRowDark (fair : order.Perm bands) (dark : LastRowDark input width)
    (run : blobDetectPar order stitches stack biggest (Buf.all 0) input width 240 = some d)
    (hp : InFrame width 240 p) (hout : ¬Inside width 240 p) : d.output (idx width p) = 0 := by
  obtain ⟨sh, hsh, rfl⟩ := blobDetectPar_some run
  obtain ⟨top, h⟩ := runLabels_run fair hsh
  rw [collect_border hp.2 hout]
  refine h.clear hp.2 (fun hm => ?_)
  by_cases he : p.1 = 239
  · exact dark p he hm
  · refine hout ?_
    have hin := hm.1
    unfold Inside labelledHeight at hin
    unfold Inside
    omega

/-- When `blob_detect_par` ignores the border. -/
theorem border_ignored_iff (fair : order.Perm bands) (same : SameInterior width 240 input input')
    (run : blobDetectPar order stitches stack biggest (Buf.all 0) input width 240 = some d) :
    (∃ d', blobDetectPar order stitches stack biggest (Buf.all 0) input' width 240 = some d' ∧
      BorderIgnored width d d') ↔ LastRowDark input width ∧ LastRowDark input' width := by
  constructor
  · rintro ⟨d', run', h⟩
    exact ⟨lastRowDark_of_clean fair run (fun p hp hout => (h.border p hp hout).1),
      lastRowDark_of_clean fair run' (fun p hp hout => (h.border p hp hout).2)⟩
  · rintro ⟨dark, dark'⟩
    have hsame : SameInterior width labelledHeight input input' := by
      intro p hp
      by_cases he : p.1 = 239
      · exact iff_of_false (fun hon => dark p he ⟨hp, hon⟩) (fun hon => dark' p he ⟨hp, hon⟩)
      · refine same p ?_
        unfold Inside labelledHeight at hp
        unfold Inside
        omega
    have run' := run
    rw [blobDetectPar_congr fair hsame] at run'
    exact ⟨d, run', rfl, rfl, fun _ _ => rfl, fun p hp hout =>
      ⟨clean_of_lastRowDark fair dark run hp hout, clean_of_lastRowDark fair dark run hp hout⟩⟩

/-- A dot on a dark border and on one lit above. -/
theorem border_ignored_dot : ∃ d : Detection 32,
    blobDetectPar bands seams (Buf.all Blob.zero) Blob.zero (Buf.all 0) (drawing 3 [(1, 1)]) 3 240 =
      some d ∧
    ((∃ d', blobDetectPar bands seams (Buf.all Blob.zero) Blob.zero (Buf.all 0)
        (drawing 3 [(0, 1), (1, 1)]) 3 240 = some d' ∧ BorderIgnored 3 d d') ↔
      LastRowDark (drawing 3 [(1, 1)]) 3 ∧ LastRowDark (drawing 3 [(0, 1), (1, 1)]) 3) := by
  obtain ⟨d, hd⟩ := blobDetectPar_narrow (List.Perm.refl bands) (by decide : 3 ≤ 5) seams
    (Buf.all (Blob.zero (w := 32))) Blob.zero (drawing 3 [(1, 1)]) 240
  refine ⟨d, hd, border_ignored_iff (List.Perm.refl bands) ?_ hd⟩
  intro p hp
  have hne : idx 3 p ≠ 1 := by
    unfold Inside at hp
    unfold idx
    omega
  simp [drawing, idx] at hne ⊢
  simp [hne]

/-- One pixel of row 239 shows the border through. -/
theorem last_row_shows :
    ¬∀ (w width : Nat) (order : List Band) (stitches : List Nat) (stack : Buf (Blob w))
      (biggest : Blob w) (input input' : Buf UInt8) (d d' : Detection w), 3 ≤ width →
      order.Perm bands → stitches.Perm seams →
      (∀ p, Inside width 240 p → input (idx width p) = input' (idx width p)) →
      blobDetectPar order stitches stack biggest (Buf.all 0) input width 240 = some d →
      blobDetectPar order stitches stack biggest (Buf.all 0) input' width 240 = some d' →
      BorderIgnored width d d' := by
  intro hall
  obtain ⟨d, hd⟩ := blobDetectPar_narrow (List.Perm.refl bands) (by decide : 3 ≤ 5) seams
    (Buf.all (Blob.zero (w := 32))) Blob.zero (Buf.all 0) 240
  obtain ⟨d', hd'⟩ := blobDetectPar_narrow (List.Perm.refl bands) (by decide : 3 ≤ 5) seams
    (Buf.all (Blob.zero (w := 32))) Blob.zero (drawing 3 [(239, 1)]) 240
  have hborder := (hall 32 3 bands seams _ _ _ _ d d' (by decide) (List.Perm.refl bands)
    (List.Perm.refl seams) (fun p hp => by
      have hne : idx 3 p ≠ 718 := by
        unfold Inside at hp
        unfold idx
        omega
      simp [drawing, idx] at hne ⊢
      exact hne) hd hd').border
  exact lastRowDark_of_clean (List.Perm.refl bands) hd' (fun p hp hout => (hborder p hp hout).2)
    (239, 1) rfl (by decide)

end Motion
