import Motion.Code.Loops
import Motion.Proofs.Rerun
import Motion.Proofs.Stale
import Motion.Proofs.StaticScene
import Motion.Proofs.StitchThreads

/-! Runs over many frames: when the buffer one frame has been drawn into does no harm to
the next. -/

namespace Motion

variable {w width height : Nat} {input : Buf UInt8} {output output' : Buf Nat} {labels : List Act}
  {s t : Machine w} {stack : Buf (Blob w)} {p q : Pixel}

/-- Two detections of one frame: they differ at most in the sums kept from the record before
and off the frame. -/
structure SameDetection (width height : Nat) (d d' : Detection w) : Prop where
  numBlobs : d.numBlobs = d'.numBlobs
  records : d.consolidatedBlobs = d'.consolidatedBlobs
  biggest : d.biggestBlob.SameRecord d'.biggestBlob
  relabelled : ∀ p, InFrame width height p →
    d.relabelled (idx width p) = d'.relabelled (idx width p)
  output : ∀ p, InFrame width height p → d.output (idx width p) = d'.output (idx width p)

theorem relabel_same (blobs : Table w) (hp : InFrame width height p)
    (same : output (idx width p) = output' (idx width p)) :
    relabel width height blobs output (idx width p) =
      relabel width height blobs output' (idx width p) := by
  by_cases hin : Inside width height p
  · rw [relabel_apply _ _ hin, relabel_apply _ _ hin, same]
  · rw [relabel_border _ _ hp.2 hin, relabel_border _ _ hp.2 hin, same]

theorem draw_same (magnify : Nat → Nat) {drawn drawn' : Pixel → Bool} (hdrawn : drawn = drawn')
    (hp : InFrame width height p) (same : output (idx width p) = output' (idx width p)) :
    draw magnify drawn width height output (idx width p) =
      draw magnify drawn' width height output' (idx width p) := by
  by_cases hin : Inside width height p
  · exact draw_congr _ hdrawn hin same
  · rw [draw_border _ _ _ hp.2 hin, draw_border _ _ _ hp.2 hin, same]

/-- `blob_detect` detects on a buffer with a dark border what it would on zeros. -/
theorem blobDetect_reuse (border : BorderZero width height output) (stack : Buf (Blob w))
    (biggest biggest' : Blob w) (input : Buf UInt8) :
    SameDetection width height (blobDetect stack biggest output input width height)
      (blobDetect stack biggest' (Buf.all 0) input width height) := by
  have hstep := labelLoop_inStep w (fun p _ => Iff.rfl : SameInterior width height input input)
    border (BorderZero.all width height)
  have hmerge : merged stack (labelLoop w width height output input) =
      merged stack (labelLoop w width height (Buf.all 0) input) := by
    unfold merged redirected
    rw [hstep.blobs, hstep.labelCounter]
  have hout : ∀ p, InFrame width height p → (labelLoop w width height output input).output
      (idx width p) = (labelLoop w width height (Buf.all 0) input).output (idx width p) := by
    intro p hp
    apply hstep.output p hp
    by_cases hin : Inside width height p
    · exact Or.inl (mem_interior.mpr hin)
    · exact Or.inr hin
  have hrecord : (blobDetect stack biggest output input width height).biggestBlob.SameRecord
      (blobDetect stack biggest' (Buf.all 0) input width height).biggestBlob := by
    have hfound := congrArg
      (fun m : Merge w => m.consolidatedBlobs (biggestIndex m.consolidatedBlobs m.numBlobs)) hmerge
    refine Eq.subst (motive := fun b => (blobDetect stack biggest output input width
      height).biggestBlob.SameRecord (biggest'.fill b)) hfound ?_
    exact Blob.fill_same _ _ _
  have hrelabelled : ∀ p, InFrame width height p →
      (blobDetect stack biggest output input width height).relabelled (idx width p) =
        (blobDetect stack biggest' (Buf.all 0) input width height).relabelled (idx width p) := by
    intro p hp
    have hsame := relabel_same (merged stack (labelLoop w width height output input)).blobs hp
      (hout p hp)
    refine hsame.trans ?_
    rw [hmerge]
    rfl
  exact ⟨congrArg Merge.numBlobs hmerge, congrArg Merge.consolidatedBlobs hmerge, hrecord,
    hrelabelled, fun p hp => draw_same _ (drawn_same hrecord) hp (hrelabelled p hp)⟩

/-- And leaves the border dark. -/
theorem blobDetect_borderZero (border : BorderZero width height output) (stack : Buf (Blob w))
    (biggest : Blob w) (input : Buf UInt8) :
    BorderZero width height (blobDetect stack biggest output input width height).output := by
  intro p hr hc hoff
  exact (blobDetect_border stack biggest output input hc hoff).trans (border p hr hc hoff)

/-- And labels lie past the end of its table on the one if they do on the other. -/
theorem blobDetectRun_reuse (border : BorderZero width height output) (stack : Buf (Blob w))
    (biggest biggest' : Blob w) (input : Buf UInt8) :
    (blobDetectRun stack biggest output input width height = none ∧
      blobDetectRun stack biggest' (Buf.all 0) input width height = none) ∨
    ∃ d d', blobDetectRun stack biggest output input width height = some d ∧
      blobDetectRun stack biggest' (Buf.all 0) input width height = some d' ∧
      SameDetection width height d d' ∧ BorderZero width height d.output := by
  have hstep := labelLoop_inStep w (fun p _ => Iff.rfl : SameInterior width height input input)
    border (BorderZero.all width height)
  unfold blobDetectRun
  rw [hstep.labelCounter]
  split
  · exact Or.inr ⟨_, _, rfl, rfl, blobDetect_reuse border _ _ _ _,
      blobDetect_borderZero border _ _ _⟩
  · exact Or.inl ⟨rfl, rfl⟩

/-- One call of `seq`, on a buffer that an earlier one has left. -/
theorem seqRun_reuse {frameWidth frameHeight : Nat} {frameBlobs : Buf Nat}
    (border : BorderZero (short frameWidth) (short frameHeight) frameBlobs)
    (stack : Buf (Blob w)) (biggest biggest' : Blob w) (background frameRaw : Buf UInt8) :
    (seqRun stack biggest frameBlobs frameWidth frameHeight background frameRaw = none ∧
      seqRun stack biggest' (Buf.all 0) frameWidth frameHeight background frameRaw = none) ∨
    ∃ d d', seqRun stack biggest frameBlobs frameWidth frameHeight background frameRaw = some d ∧
      seqRun stack biggest' (Buf.all 0) frameWidth frameHeight background frameRaw = some d' ∧
      SameDetection (short frameWidth) (short frameHeight) d d' ∧
      BorderZero (short frameWidth) (short frameHeight) d.output := by
  unfold seqRun
  cases blurInt (Buf.all 0) frameRaw kernel frameWidth frameHeight 3 3 with
  | none => exact Or.inl ⟨rfl, rfl⟩
  | some frameBlur =>
    rw [Option.bind_some, Option.bind_some]
    dsimp only
    split
    · exact Or.inl ⟨rfl, rfl⟩
    · exact blobDetectRun_reuse border _ _ _ _

/-- Called for one frame after another `seq` detects of each what it would alone, and comes to
grief if it would on one of them alone. -/
theorem seqLoop_alone {frameWidth frameHeight : Nat} {background : Buf UInt8}
    (frames : List (Buf (Blob w) × Buf UInt8)) {frameBlobs : Buf Nat}
    (border : BorderZero (short frameWidth) (short frameHeight) frameBlobs) (biggest : Blob w) :
    (seqLoop frameWidth frameHeight background frames biggest frameBlobs = none ∧
      ∃ frame ∈ frames, seqRun frame.1 Blob.zero (Buf.all 0) frameWidth frameHeight background
        frame.2 = none) ∨
    ∃ ds, seqLoop frameWidth frameHeight background frames biggest frameBlobs = some ds ∧
      List.Forall₂ (fun frame d => ∃ d', seqRun frame.1 Blob.zero (Buf.all 0) frameWidth
        frameHeight background frame.2 = some d' ∧
          SameDetection (short frameWidth) (short frameHeight) d d') frames ds := by
  induction frames generalizing biggest frameBlobs with
  | nil => exact Or.inr ⟨[], rfl, List.Forall₂.nil⟩
  | cons frame frames ih =>
    obtain ⟨stack, frameRaw⟩ := frame
    unfold seqLoop
    rcases seqRun_reuse border stack biggest Blob.zero background frameRaw with
      ⟨hnone, halone⟩ | ⟨d, d', hd, hd', hsame, hborder⟩
    · left
      rw [hnone]
      exact ⟨rfl, _, List.mem_cons_self, halone⟩
    · rw [hd, Option.bind_some]
      rcases ih hborder d.biggestBlob with ⟨hnone, frame, hf, halone⟩ | ⟨ds, hds, hall⟩
      · left
        rw [hnone]
        exact ⟨rfl, frame, List.mem_cons_of_mem _ hf, halone⟩
      · right
        rw [hds]
        exact ⟨d :: ds, rfl, List.Forall₂.cons ⟨d', hd', hsame⟩ hall⟩

/-- The dark pixel on a black ground, then on itself. -/
theorem seqLoop_alone_darkPixel :
    let frames := [((Buf.all Blob.zero : Buf (Blob 32)), darkPixel), (Buf.all Blob.zero, Buf.all 0)]
    (seqLoop 3 3 darkPixel frames Blob.zero (Buf.all 0) = none ∧
      ∃ frame ∈ frames, seqRun frame.1 Blob.zero (Buf.all 0) 3 3 darkPixel frame.2 = none) ∨
    ∃ ds, seqLoop 3 3 darkPixel frames Blob.zero (Buf.all 0) = some ds ∧
      List.Forall₂ (fun frame d => ∃ d', seqRun frame.1 Blob.zero (Buf.all 0) 3 3 darkPixel
        frame.2 = some d' ∧ SameDetection (short 3) (short 3) d d') frames ds :=
  seqLoop_alone _ (BorderZero.all _ _) _

/-- The passes after the joins see the frame alone. -/
theorem collectOver_same (is : List Nat) (stack : Buf (Blob w)) (biggest biggest' : Blob w)
    (blobs : Table w)
    (same : ∀ p, InFrame width 240 p → output (idx width p) = output' (idx width p)) :
    SameDetection width 240 (collectOver is stack biggest width 240 ⟨output, blobs⟩)
      (collectOver is stack biggest' width 240 ⟨output', blobs⟩) where
  numBlobs := rfl
  records := rfl
  biggest := Blob.fill_same _ _ _
  relabelled := fun p hp => relabel_same _ hp (same p hp)
  output := by
    intro p hp
    exact draw_same _ (drawnShort_same (Blob.fill_same _ _ _)) hp (relabel_same _ hp (same p hp))

theorem collectOver_edge (is : List Nat) (stack : Buf (Blob w)) (biggest : Blob w)
    (blobs : Table w) (edge : EdgeZero width output) :
    EdgeZero width (collectOver is stack biggest width 240 ⟨output, blobs⟩).output := by
  intro q hq hoff
  have hin : ¬Inside width 240 q := by
    intro hin
    apply hoff
    unfold Inside at hin ⊢
    unfold labelledHeight
    omega
  exact (draw_border _ _ _ hq.2 hin).trans ((relabel_border _ _ hq.2 hin).trans (edge q hq hoff))

/-- A turn of `stitch` sees the frame alone, too. -/
theorem stitchPixel_same {row col : Nat} (blobs : Table w) (hrow : row ∈ seams)
    (hcol : 1 ≤ col ∧ col < width - 1)
    (same : ∀ p, InFrame width 240 p → output (idx width p) = output' (idx width p)) :
    stitchPixel width row output blobs col = stitchPixel width row output' blobs col := by
  have hall : ∀ r ∈ seams, r < 240 := by decide
  have hr := hall row hrow
  unfold stitchPixel
  rw [same (row, col) ⟨by dsimp only; omega, by dsimp only; omega⟩,
    same (row - 1, col - 1) ⟨by dsimp only; omega, by dsimp only; omega⟩,
    same (row - 1, col) ⟨by dsimp only; omega, by dsimp only; omega⟩,
    same (row - 1, col + 1) ⟨by dsimp only; omega, by dsimp only; omega⟩]

theorem stitches_follow (input : Buf UInt8) {stitches : List Act}
    (hs : Interleave.Run (stitchThreads width) stitches) (hblobs : s.blobs = t.blobs)
    (same : ∀ p, InFrame width 240 p → s.output (idx width p) = t.output (idx width p)) :
    ∃ s' t', stitches.foldlM (step input width) s = some s' ∧
      stitches.foldlM (step input width) t = some t' ∧ s'.blobs = t'.blobs ∧
      s'.output = s.output ∧ t'.output = t.output := by
  have hruns := Fold.prefix_related_option (f := step input width) (g := step input width)
    (R := fun _ (u v : Machine w) => u.blobs = v.blobs ∧ u.output = s.output ∧
      v.output = t.output) stitches s t ⟨hblobs, rfl, rfl⟩ (by
    rintro pre a post u v hsplit ⟨hb, hu, hv⟩
    obtain ⟨row, hrow, col, h1, hcol, rfl⟩ := mem_stitches hs (a := a) (by simp [hsplit])
    refine Or.inr ⟨_, _, rfl, rfl, ?_, hu, hv⟩
    dsimp only
    rw [hb, hu, hv]
    exact stitchPixel_same v.blobs hrow ⟨h1, hcol⟩ same)
  cases hruns with
  | inl hstop =>
    obtain ⟨s', hs', _⟩ := stitch_turns input hs s
    rw [hs'] at hstop
    cases hstop.1
  | inr hgo => exact hgo

/-- Where each active pixel has its turn after those it looks back at, `blob_detect_par` may
be called on a buffer it has written: it detects what it would on zeros, and leaves the
buffer fit for the next call. -/
theorem threads_reuse {stitches : List Act} (hl : Interleave.Run (labelThreads width) labels)
    (hs : Interleave.Run (stitchThreads width) stitches) (back : LooksBack input width labels)
    (edge : EdgeZero width output) (stack : Buf (Blob w)) (biggest biggest' : Blob w) :
    (blobDetectThreads labels stitches stack biggest output input width 240 = none ∧
      blobDetectThreads labels stitches stack biggest' (Buf.all 0) input width 240 = none) ∨
    ∃ d d', blobDetectThreads labels stitches stack biggest output input width 240 = some d ∧
      blobDetectThreads labels stitches stack biggest' (Buf.all 0) input width 240 = some d' ∧
      SameDetection width 240 d d' ∧ EdgeZero width d.output := by
  unfold blobDetectThreads
  rw [List.foldlM_append, List.foldlM_append]
  rcases labels_alike hl back stack edge (fun _ _ _ => rfl : EdgeZero width (Buf.all 0)) with
    ⟨hnone, hnone'⟩ | ⟨s, t, hrun, hrun', hfollow⟩
  · left
    rw [hnone, hnone']
    exact ⟨rfl, rfl⟩
  · right
    obtain ⟨s', t', hs', ht', hblobs, hso, hto⟩ := stitches_follow input hs hfollow.blobs
      (fun q hq => hfollow.frame hl hq)
    rw [hrun, hrun', Option.bind_eq_bind, Option.bind_some, Option.bind_some, hs', ht']
    refine ⟨_, _, rfl, rfl, ?_, ?_⟩
    · dsimp only
      rw [collect_eq, collect_eq, hblobs, hso, hto]
      exact collectOver_same _ _ _ _ _ (fun q hq => hfollow.frame hl hq)
    · dsimp only
      rw [collect_eq, hso]
      apply collectOver_edge
      intro q hq hoff
      have hweave := woven hl (List.append_nil labels).symm hrun'
      rw [hfollow.output q hq (Or.inr hoff)]
      apply hweave.frame
      rintro p hp he
      have hin := mem_interior.mp ((visits_perm hl).mem_iff.mp hp)
      exact hoff (idx_inj hq.2 (labelled_inFrame hin).2 he ▸ hin)

/-- The turns of a call of `par`, each active pixel's after those it looks back at. -/
structure Capture.InOrder (frameWidth : Nat) (background : Buf UInt8) (c : Capture w) : Prop where
  labels : Interleave.Run (labelThreads (short frameWidth)) c.labels
  stitches : Interleave.Run (stitchThreads (short frameWidth)) c.stitches
  back : LooksBack (bgSubParallelSimd background
    (blurInterleaved c.blurs (Buf.all 0) c.frameRaw kernel frameWidth 240 3 3) (Buf.all 0)
    frameWidth 240) (short frameWidth) c.labels

/-- What it detects on buffers of its own. -/
def Capture.alone (frameWidth : Nat) (background : Buf UInt8) (c : Capture w) :
    Option (Detection w) :=
  parThreads c.blurs c.labels c.stitches c.stack Blob.zero (Buf.all 0) frameWidth 240 background
    c.frameRaw

/-- One call, on a buffer that an earlier one has left. -/
theorem Capture.InOrder.call {frameWidth : Nat} {background : Buf UInt8} {c : Capture w}
    (h : c.InOrder frameWidth background) {frameBlobs : Buf Nat}
    (edge : EdgeZero (short frameWidth) frameBlobs) (biggest : Blob w) :
    (parThreads c.blurs c.labels c.stitches c.stack biggest frameBlobs frameWidth 240 background
        c.frameRaw = none ∧ c.alone frameWidth background = none) ∨
    ∃ d d', parThreads c.blurs c.labels c.stitches c.stack biggest frameBlobs frameWidth 240
        background c.frameRaw = some d ∧ c.alone frameWidth background = some d' ∧
      SameDetection (short frameWidth) 240 d d' ∧ EdgeZero (short frameWidth) d.output :=
  threads_reuse h.labels h.stitches h.back edge c.stack biggest Blob.zero

end Motion
