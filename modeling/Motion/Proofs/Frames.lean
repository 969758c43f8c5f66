import Motion.Proofs.Accord
import Motion.Proofs.Reuse

/-! Frame after frame: the threads of `par`, whatever the order of their turns, against `seq`,
each on the buffers its last call left. -/

namespace Motion

/-- The threshold image `par` makes of a frame, whatever the order of its blur threads. -/
def Capture.thresh (frameWidth : Nat) (background : Buf UInt8) (c : Capture w) : Buf UInt8 :=
  parThresh Schedule.plain.stripes frameWidth 240 background c.frameRaw

/-- A capture of which `par` makes what `seq` does. -/
structure Capture.Clear (frameWidth : Nat) (background : Buf UInt8) (c : Capture w) : Prop where
  blurs : Interleave.Run (blurThreads frameWidth 240) c.blurs
  inOrder : c.InOrder frameWidth background
  /-- Where the stripes leave gaps black stands out from the background where the frame does. -/
  gaps : GapsHarmless frameWidth background c.frameRaw
  quiet : SeamsQuiet (c.thresh frameWidth background) frameWidth
  /-- No assertion fires. -/
  roomy : Roomy (c.thresh frameWidth background) frameWidth bands
  whole : Whole (c.thresh frameWidth background) frameWidth bands seams
  few : (objects (c.thresh frameWidth background) frameWidth 240).ncard ≤ maxBlobsPerThread
  fit : LabelsFit w frameWidth 240 (Buf.all 0) (seqThresh frameWidth 240 background c.frameRaw)

variable {w width frameWidth : Nat} {background frameRaw : Buf UInt8} {b c : Blob w}
  {d d' d'' : Detection w} {frameBlobs frameBlobs' : Buf Nat}
  {captures : List (Capture w)} {frames : List (Buf (Blob w) × Buf UInt8)}

theorem SameFigures.symm (h : SameFigures b c) : SameFigures c b :=
  ⟨h.mass.symm, h.xMax.symm, h.yMax.symm, h.centroidX.symm, h.centroidY.symm⟩

theorem SameFigures.trans {d : Blob w} (h : SameFigures b c) (h' : SameFigures c d) :
    SameFigures b d :=
  ⟨h.mass.trans h'.mass, h.xMax.trans h'.xMax, h.yMax.trans h'.yMax,
    h.centroidX.trans h'.centroidX, h.centroidY.trans h'.centroidY⟩

theorem Blob.SameRecord.figures (h : b.SameRecord c) : SameFigures b c :=
  ⟨h.mass, h.xMax, h.yMax, h.centroidX, h.centroidY⟩

theorem Accord.symm (h : Accord width d d') : Accord width d' d where
  numBlobs := h.numBlobs.symm
  off := fun p hp => (h.off p hp).symm
  labels := fun p q hp hq => (h.labels p q hp hq).symm
  records := fun k hk => (h.records k (h.numBlobs ▸ hk)).symm
  biggest := fun hpos => (h.biggest (h.numBlobs ▸ hpos)).symm

theorem Accord.trans (h : Accord width d d') (h' : Accord width d' d'') : Accord width d d'' where
  numBlobs := h.numBlobs.trans h'.numBlobs
  off := fun p hp => (h.off p hp).trans (h'.off p hp)
  labels := fun p q hp hq => (h.labels p q hp hq).trans (h'.labels p q hp hq)
  records := fun k hk => (h.records k hk).trans (h'.records k (h.numBlobs ▸ hk))
  biggest := fun hpos => (h.biggest hpos).trans (h'.biggest (h.numBlobs ▸ hpos))

theorem SameDetection.accord (h : SameDetection width 240 d d') : Accord width d d' where
  numBlobs := h.numBlobs
  off := fun p hp => by rw [h.relabelled p hp]
  labels := fun p q hp hq => by rw [h.relabelled p hp, h.relabelled q hq]
  records := fun k _ => by
    rw [h.records]
    exact ⟨rfl, rfl, rfl, rfl, rfl⟩
  biggest := fun _ => h.biggest.figures

/-- Its threads run through on buffers of their own and make the inventory of the image. -/
theorem Capture.Clear.inventory {c : Capture w} (h : c.Clear frameWidth background)
    (hw : frameWidth < 32768) :
    ∃ d, c.alone frameWidth background = some d ∧
      Inventory (c.thresh frameWidth background) frameWidth d := by
  have hlabels := h.inOrder.labels
  have hstitches := h.inOrder.stitches
  rw [short_eq hw] at hlabels hstitches
  have halone : c.alone frameWidth background = blobDetectThreads c.labels c.stitches c.stack
      Blob.zero (Buf.all 0) (c.thresh frameWidth background) frameWidth 240 := by
    have hpar := parThreads_eq h.blurs Schedule.plain_fair.stripes c.labels c.stitches c.stack
      Blob.zero (Buf.all 0) background c.frameRaw
    rw [short_eq hw, short_eq (by decide : 240 < 32768)] at hpar
    exact hpar
  rw [halone]
  obtain ⟨sh, hsh⟩ := Option.isSome_iff_exists.mp
    (runLabels_isSome w (List.Perm.refl bands) h.roomy)
  have hcalls := blobDetectPar_turns (List.Perm.refl bands) seams c.stack Blob.zero (Buf.all 0)
    (c.thresh frameWidth background) frameWidth 240
  rcases threads_alike h.quiet hlabels (calls_run (List.Perm.refl bands)) hstitches
    (stitches_calls (List.Perm.refl seams)) with ⟨_, hnone⟩ | ⟨d, d', hd, hd', same⟩
  · rw [hnone] at hcalls
    unfold blobDetectPar at hcalls
    rw [hsh] at hcalls
    cases hcalls
  · rw [hd'] at hcalls
    obtain ⟨sh', hsh', he⟩ := blobDetectPar_some hcalls
    have hinventory := collected_inventory (List.Perm.refl bands) (List.Perm.refl seams) h.whole
      h.few hsh' he.symm
    exact ⟨d, hd, hinventory.congr same.symm⟩

/-- The calls in the order of the source, on a dark frame. -/
def Capture.plain (w width : Nat) : Capture w :=
  ⟨(blurThreads width 240).flatten, bands.flatMap (labelActs width),
    (stitchThreads width).flatten, Buf.all Blob.zero, Buf.all 0⟩

theorem Capture.plain_blurs (w width : Nat) :
    Interleave.Run (blurThreads width 240) (Capture.plain w width).blurs :=
  Interleave.Run.one_by_one (blurThreads width 240)

theorem Capture.plain_inOrder {frameWidth : Nat} (w : Nat) (hw : frameWidth < 32768)
    (background : Buf UInt8) : (Capture.plain w frameWidth).InOrder frameWidth background := by
  constructor
  · rw [short_eq hw]
    exact calls_run (List.Perm.refl bands)
  · rw [short_eq hw]
    exact Interleave.Run.one_by_one _
  · rw [short_eq hw]
    exact calls_lookBack _ _

theorem Capture.plain_clear {a b : Nat} (w : Nat) (ha : 1 ≤ a) (hab : a ≤ b) (hb : b ≤ 58) :
    (Capture.plain w 3).Clear 3 (negative (pole a b)) := by
  have h : Column (pole a b) _ 240 := pole_column ha (by omega)
  have hcut := negative_column_cut h
  have hlab := negative_column (pole_column ha (by unfold labelledHeight; omega : b + 2 ≤ _))
  exact ⟨Capture.plain_blurs w 3, Capture.plain_inOrder w (by decide) _, negative_gaps,
    hlab.quiet (pole_low (by omega)), roomy_of_narrow _ bands (by decide), hlab.whole hcut seams,
    hcut.single (pole_stretch hab) (fun _ => pole_only), negative_labelsFit (h.labelsFit w)⟩

/-- It records few blobs of an image that moves in few pixels. -/
theorem Capture.plain_few {img : Buf UInt8}
    (few : (moving img 3 labelledHeight).card ≤ maxBlobsPerThread)
    (run : (Capture.plain w 3).alone 3 (negative img) = some d) :
    d.numBlobs ≤ maxBlobsPerThread := by
  unfold Capture.alone at run
  rw [parThreads_eq (Capture.plain_blurs w 3) Schedule.plain_fair.stripes, short_eq (by decide)]
    at run
  refine (recorded_few (calls_run (List.Perm.refl bands)) (Interleave.Run.one_by_one _)
    run).trans ?_
  change (moving (parThresh _ _ _ _ (Buf.all 0)) 3 labelledHeight).card ≤ maxBlobsPerThread
  rw [negative_card]
  exact few

/-- Called for one frame after another `par` detects of each what it would alone: nothing is
carried over from frame to frame, if of each alone the blobs recorded fit their array. -/
theorem parLoop_alone (inOrder : ∀ c ∈ captures, c.InOrder frameWidth background)
    (edge : EdgeZero (short frameWidth) frameBlobs) (biggest : Blob w) :
    (∀ c ∈ captures, ∀ d, c.alone frameWidth background = some d →
      d.numBlobs ≤ maxBlobsPerThread) →
    (parLoop frameWidth 240 background captures biggest frameBlobs = none ∧
      ∃ c ∈ captures, c.alone frameWidth background = none) ∨
    ∃ ds, parLoop frameWidth 240 background captures biggest frameBlobs = some ds ∧
      List.Forall₂ (fun c d => ∃ d', c.alone frameWidth background = some d' ∧
        SameDetection (short frameWidth) 240 d d') captures ds := by
  intro few
  induction captures generalizing biggest frameBlobs with
  | nil => exact Or.inr ⟨[], rfl, List.Forall₂.nil⟩
  | cons c captures ih =>
    unfold parLoop
    rcases (inOrder c (by simp)).call edge biggest with
      ⟨hnone, halone⟩ | ⟨d, d', hd, hd', hsame, hedge⟩
    · left
      rw [hnone]
      exact ⟨rfl, c, by simp, halone⟩
    · rw [hd, Option.bind_some]
      rcases ih (fun e he => inOrder e (by simp [he])) hedge d.biggestBlob
        (fun e he => few e (by simp [he])) with ⟨hnone, e, he, halone⟩ | ⟨ds, hds, hall⟩
      · left
        rw [hnone]
        exact ⟨rfl, e, by simp [he], halone⟩
      · right
        rw [hds]
        exact ⟨d :: ds, rfl, List.Forall₂.cons ⟨d', hd', hsame⟩ hall⟩

theorem parLoop_alone_apart :
    let cs := [Capture.plain 32 3, Capture.plain 32 3]
    (parLoop 3 240 (negative apart) cs Blob.zero (Buf.all 0) = none ∧
      ∃ c ∈ cs, c.alone 3 (negative apart) = none) ∨
    ∃ ds, parLoop 3 240 (negative apart) cs Blob.zero (Buf.all 0) = some ds ∧
      List.Forall₂ (fun c d => ∃ d', c.alone 3 (negative apart) = some d' ∧
        SameDetection (short 3) 240 d d') cs ds := by
  intro cs
  have hplain : ∀ c ∈ cs, c = Capture.plain 32 3 := fun c hc => by simpa [cs] using hc
  refine parLoop_alone (fun c hc => ?_) (fun _ _ _ => rfl) Blob.zero (fun c hc d hd => ?_)
  · exact hplain c hc ▸ Capture.plain_inOrder 32 (by decide) _
  · rw [hplain c hc] at hd
    exact Capture.plain_few apart_few hd

/-- `seq` runs to its end on it. -/
theorem Capture.Clear.runs {c : Capture w} (h : c.Clear frameWidth background)
    (hw : frameWidth < 32768) (stack : Buf (Blob w)) (biggest : Blob w) :
    seqRun stack biggest (Buf.all 0) frameWidth 240 background c.frameRaw =
      some (seq stack biggest (Buf.all 0) frameWidth 240 background c.frameRaw) := by
  have hheight : short 240 = 240 := short_eq (by decide)
  have hbytes : 3 * frameWidth * 240 < intEnd := by
    unfold intEnd
    omega
  have hlength : -4 < signedShort frameWidth * signedShort 240 := by
    rw [signedShort_eq hw, signedShort_eq (by decide : 240 < 32768)]
    omega
  refine seqRun_eq_some_iff.mpr ⟨⟨hbytes, hlength⟩, ?_⟩
  unfold blobDetectRun seq
  rw [short_eq hw, hheight]
  refine if_pos (fun lbl hlbl => ?_)
  have hrange := mem_upto.mp hlbl
  exact (h.fit lbl hrange.1 hrange.2).1

/-- Called for one frame after another `par` makes of each what `seq` does, and no assertion
fires. -/
theorem loops_accord (hw : frameWidth < 32768)
    (clear : ∀ c ∈ captures, c.Clear frameWidth background)
    (hframes : frames.map Prod.snd = captures.map Capture.frameRaw)
    (edge : EdgeZero frameWidth frameBlobs) (border : BorderZero frameWidth 240 frameBlobs')
    (biggest biggest' : Blob w) :
    ∃ ds ds', parLoop frameWidth 240 background captures biggest frameBlobs = some ds ∧
      seqLoop frameWidth 240 background frames biggest' frameBlobs' = some ds' ∧
      List.Forall₂ (Accord frameWidth) ds ds' := by
  induction captures generalizing frames biggest biggest' frameBlobs frameBlobs' with
  | nil =>
    obtain rfl := List.map_eq_nil_iff.mp hframes
    exact ⟨[], [], rfl, rfl, List.Forall₂.nil⟩
  | cons c captures ih =>
    cases frames with
    | nil => cases hframes
    | cons frame frames =>
      obtain ⟨stack, frameRaw⟩ := frame
      obtain ⟨rfl, hrest⟩ := List.cons.inj hframes
      have hc := clear c (by simp)
      have hheight : short 240 = 240 := short_eq (by decide)
      -- what either makes of the frame on buffers of its own
      obtain ⟨e, halone, hinventory⟩ := hc.inventory hw
      have haccord := hinventory.accord (seq_inventory Schedule.plain_fair.stripes hw hc.gaps
        hc.whole.met hc.few hc.fit stack Blob.zero)
      have hseqalone := hc.runs hw stack Blob.zero
      rw [← short_eq hw] at edge
      rw [← short_eq hw, ← hheight] at border
      rcases seqRun_reuse border stack biggest' Blob.zero background c.frameRaw with
        ⟨_, hnone⟩ | ⟨f, f', hf, hf', hseq, hborder⟩
      · rw [hseqalone] at hnone
        cases hnone
      rcases hc.inOrder.call edge biggest with ⟨_, hnone⟩ | ⟨d, d', hd, hd', hpar, hedge⟩
      · rw [halone] at hnone
        cases hnone
      obtain rfl : e = d' := Option.some.inj (halone.symm.trans hd')
      rw [hheight] at hseq hborder
      obtain rfl := Option.some.inj (hseqalone.symm.trans hf')
      rw [short_eq hw] at hpar hedge hseq hborder
      unfold parLoop seqLoop
      obtain ⟨ds, ds', hds, hds', hall⟩ := ih (fun a ha => clear a (by simp [ha])) hrest hedge
        hborder d.biggestBlob f.biggestBlob
      rw [hd, Option.bind_some, hds, hf, Option.bind_some, hds']
      exact ⟨d :: ds, f :: ds', rfl, rfl, List.Forall₂.cons
        ((hpar.accord.trans haccord).trans hseq.accord.symm) hall⟩

/-- The pole in two frames. -/
theorem loops_accord_pole :
    ∃ ds ds', parLoop 3 240 (negative (pole 1 20)) [Capture.plain 32 3, Capture.plain 32 3]
        Blob.zero (Buf.all 0) = some ds ∧
      seqLoop 3 240 (negative (pole 1 20))
        [(Buf.all Blob.zero, Buf.all 0), (Buf.all Blob.zero, Buf.all 0)] Blob.zero (Buf.all 0) =
          some ds' ∧
      List.Forall₂ (Accord 3) ds ds' := by
  refine loops_accord (by decide) (fun c hc => ?_) rfl (fun _ _ _ => rfl) (BorderZero.all 3 240)
    Blob.zero Blob.zero
  have he : c = Capture.plain 32 3 := by simpa using hc
  exact he ▸ Capture.plain_clear 32 (Nat.le_refl 1) (by decide) (by decide)

end Motion
